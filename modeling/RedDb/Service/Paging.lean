import RedDb.Lib.Machine

/-!
# RedDb — pages between the grid and the service

The grid asks for the pages it lacks, one `FetchPage` each, and remembers in
`requested` which ones it asked for: it does not ask again while a page is there. The
service keeps one page fetch of a result alive and aborts the one before it. Between
the two run a channel of commands and a channel of events, and `step` is one move of
any of the parties.

A page is `Covered` if it is still being seen to: its command has not been handled
yet, its fetch runs and has not been aborted, or its reply is under way. A failure is
reported without its page, and a fetch that was aborted reports nothing at all.

* `Paging.ensure_covered` — a paint asks for every page it adds to `requested`;
* `allCovered_step_iff` — the moves that leave a requested page uncovered;
* `pages_kept_iff` — and so the runs in which no page is lost;
* `twoPages_lose` — a first paint over two pages, which loses one of them.
-/

namespace RedDb.Service

/-! ## The parties -/

/-- `Command::FetchPage`. -/
structure FetchPage where
  offset : Nat
  limit : Nat

/-- A spawned page fetch, with the flag of its signal. -/
structure Fetch where
  id : Nat
  offset : Nat
  limit : Nat
  aborted : Bool

inductive Event where
  | resultPageLoaded (offset : Nat) (rows : Nat)
  | error

/-- How `fetch_page` ends: an interruption is taken for a supersession. -/
inductive Outcome where
  | loaded (rows : Nat)
  | interrupted
  | failed

/-- What the handler makes of a `FetchPage`. -/
inductive Handling where
  /-- It supersedes the fetch in the slot and spawns one. -/
  | fetches
  /-- The session is gone, or not a SQL one: an error. -/
  | refused
  /-- The result is gone: nothing. -/
  | stale

/-- The grid's buffer in offset mode, the two channels, and the service's page slot
and fetches for its result. Of the rows only their ordinals are kept. -/
structure Paging where
  page : Nat
  page_pos : 0 < page
  rows : List Nat
  requested : List Nat
  lastStart : Option Nat
  commands : List FetchPage
  slot : Option Nat
  fetches : List Fetch
  nextId : Nat
  events : List Event

namespace Paging

/-- `GridBuffer::new`. -/
def new (page : Nat) : Paging where
  page := max page 1
  page_pos := Nat.le_max_right page 1
  rows := []
  requested := []
  lastStart := none
  commands := []
  slot := none
  fetches := []
  nextId := 0
  events := []

/-! ## The grid -/

def marginPages : Nat := 2

def flingPages : Nat := 3

/-- One round of the loop in `OffsetPages::request`. -/
def requestPage (total : Nat) (s : Paging) (page : Nat) : Paging :=
  let offset := page * s.page
  if total ≤ offset ∨ page ∈ s.requested then s
  else
    let stop := min (offset + s.page) total
    if (List.range' offset (stop - offset)).all fun i => i ∈ s.rows then s
    else
      { s with
        requested := s.requested ++ [page]
        commands := s.commands ++ [⟨offset, s.page⟩] }

/-- `OffsetPages::request`, on a range that is not empty. -/
def request (s : Paging) (start stop total : Nat) : Paging :=
  let first := start / s.page
  let last := (stop - 1) / s.page
  (List.range' first (last + 1 - first)).foldl (requestPage total) s

/-- Drop what lies beyond the margin around the viewport. -/
def evict (s : Paging) (start stop total : Nat) : Paging :=
  let margin := marginPages * s.page
  let lo := start - margin
  let hi := min (stop + margin) total
  { s with
    rows := s.rows.filter fun k => lo ≤ k ∧ k < hi
    requested := s.requested.filter fun p => lo < p * s.page + s.page ∧ p * s.page < hi }

/-- Has the viewport stopped flying past? -/
def settled (s : Paging) (start : Nat) : Bool :=
  match s.lastStart with
  | none => true
  | some prev => max start prev - min start prev ≤ flingPages * s.page

/-- `GridBuffer::ensure`, with whether it did fetch. -/
def ensure (s : Paging) (start stop total : Nat) : Paging × Bool :=
  let kept := s.evict start stop total
  if stop ≤ start then (kept, true)
  else
    let kept' := { kept with lastStart := some start }
    if kept.settled start then (kept'.request start stop total, true) else (kept', false)

/-- `GridBuffer::insert_page`. -/
def insertPage (s : Paging) (offset rows : Nat) : Paging :=
  { s with
    requested := s.requested.filter fun p => p != offset / s.page
    rows := s.rows ++ List.range' offset rows }

/-! ## The service -/

def abortFetch (f : Fetch) : Fetch := { f with aborted := true }

/-- Abort the fetch whose signal is in the slot. -/
def abortSlot (s : Paging) : List Fetch :=
  s.fetches.map fun f => if s.slot = some f.id then abortFetch f else f

/-- The handler of `FetchPage`, once the result is found: `supersede`, and spawn. -/
def fetchPage (s : Paging) (c : FetchPage) : Paging :=
  { s with
    fetches := s.abortSlot ++ [⟨s.nextId, c.offset, c.limit, false⟩]
    slot := some s.nextId
    nextId := s.nextId + 1 }

def handle (s : Paging) (c : FetchPage) : Handling → Paging
  | .fetches => s.fetchPage c
  | .refused => { s with events := s.events ++ [.error] }
  | .stale => s

/-- What a fetch has to say at its end. -/
def report (f : Fetch) : Outcome → List Event
  | .loaded rows => [.resultPageLoaded f.offset rows]
  | .interrupted => []
  | .failed => [.error]

end Paging

inductive Action where
  /-- The grid paints the rows from `start` to `stop`. -/
  | paint (start stop total : Nat)
  /-- The service takes the next command. -/
  | handle (how : Handling)
  /-- A fetch finds itself aborted before it asks the engine. -/
  | bail (n : Nat)
  | settle (n : Nat) (outcome : Outcome)
  /-- The statement timeout of a fetch fires its signal. -/
  | expire (n : Nat)
  /-- The result is reaped, or its session torn down. -/
  | abortAll
  /-- The grid's side takes the next event. -/
  | deliver

open Paging in
def step (s : Paging) : Action → Option Paging
  | .paint start stop total => some (s.ensure start stop total).1
  | .handle how =>
    match s.commands with
    | [] => none
    | c :: rest => some ({ s with commands := rest }.handle c how)
  | .bail n =>
    match s.fetches[n]? with
    | some f => if f.aborted then some { s with fetches := s.fetches.eraseIdx n } else none
    | none => none
  | .settle n outcome =>
    match s.fetches[n]? with
    | some f => some { s with
        fetches := s.fetches.eraseIdx n
        events := s.events ++ report f outcome }
    | none => none
  | .expire n => some { s with fetches := s.fetches.modify n abortFetch }
  | .abortAll => some { s with fetches := s.fetches.map abortFetch, slot := none }
  | .deliver =>
    match s.events with
    | [] => none
    | .resultPageLoaded offset rows :: rest => some ({ s with events := rest }.insertPage offset rows)
    | .error :: rest => some { s with events := rest }

/-! ## Who sees to a page -/

namespace Paging

/-- The command is on its way. -/
def Asked (s : Paging) (p : Nat) : Prop := ∃ c ∈ s.commands, c.offset / s.page = p

/-- A fetch that has not been aborted runs. -/
def Fetching (s : Paging) (p : Nat) : Prop :=
  ∃ f ∈ s.fetches, f.aborted = false ∧ f.offset / s.page = p

/-- The reply is on its way. Its arrival takes the page out of `requested`. -/
def Replied (s : Paging) (p : Nat) : Prop :=
  ∃ offset rows, Event.resultPageLoaded offset rows ∈ s.events ∧ offset / s.page = p

def Covered (s : Paging) (p : Nat) : Prop := s.Asked p ∨ s.Fetching p ∨ s.Replied p

/-- No page request is lost. -/
def AllCovered (s : Paging) : Prop := ∀ p ∈ s.requested, s.Covered p

/-- The pages whose command or fetch the move does away with, without a reply. -/
def Losing (s : Paging) : Action → Nat → Prop
  | .handle .fetches, p => s.commands ≠ [] ∧
      ∃ f ∈ s.fetches, s.slot = some f.id ∧ f.aborted = false ∧ f.offset / s.page = p
  | .handle _, p => ∃ c, s.commands.head? = some c ∧ c.offset / s.page = p
  | .settle _ (.loaded _), _ => False
  | .settle n _, p => ∃ f, s.fetches[n]? = some f ∧ f.aborted = false ∧ f.offset / s.page = p
  | .expire n, p => ∃ f, s.fetches[n]? = some f ∧ f.aborted = false ∧ f.offset / s.page = p
  | .abortAll, p => s.Fetching p
  | _, _ => False

/-- What is left of the commands and fetches when it has. -/
def without (s : Paging) : Action → Paging
  | .handle .fetches => { s with fetches := s.abortSlot }
  | .handle _ => { s with commands := s.commands.tail }
  | .settle n _ => { s with fetches := s.fetches.eraseIdx n }
  | .expire n => { s with fetches := s.fetches.modify n abortFetch }
  | .abortAll => { s with fetches := s.fetches.map abortFetch }
  | _ => s

/-- A page that the move does away with is not wanted any more, or it is seen to by
another command, fetch or reply. -/
def Keeps (s : Paging) (a : Action) : Prop :=
  ∀ p ∈ s.requested, s.Losing a p → (s.without a).Covered p

/-! ## The grid asks for what it remembers -/

theorem requestPage_covered {s : Paging} {total p : Nat} (h : s.AllCovered) :
    (s.requestPage total p).AllCovered := by
  unfold requestPage
  simp only
  split
  · exact h
  split
  · exact h
  intro q hq
  rcases List.mem_append.mp hq with hq | hq
  · rcases h q hq with ⟨c, hc, hcq⟩ | hf | hr
    · exact Or.inl ⟨c, List.mem_append_left _ hc, hcq⟩
    · exact Or.inr (Or.inl hf)
    · exact Or.inr (Or.inr hr)
  · obtain rfl := List.mem_singleton.mp hq
    refine Or.inl ⟨_, List.mem_append_right _ (List.mem_singleton_self _), ?_⟩
    exact Nat.mul_div_cancel q s.page_pos

theorem request_covered {s : Paging} {start stop total : Nat} (h : s.AllCovered) :
    (s.request start stop total).AllCovered := by
  have hloop : ∀ (pages : List Nat) (s : Paging), s.AllCovered →
      (pages.foldl (requestPage total) s).AllCovered := by
    intro pages
    induction pages with
    | nil => exact fun s h => h
    | cons p pages ih => exact fun s h => ih _ (requestPage_covered h)
  exact hloop _ s h

/-- **A paint asks for every page it adds to `requested`.** -/
theorem ensure_covered {s : Paging} {start stop total : Nat} (h : s.AllCovered) :
    (s.ensure start stop total).1.AllCovered := by
  have hkept : (s.evict start stop total).AllCovered := fun p hp => h p (List.mem_filter.mp hp).1
  unfold ensure
  simp only
  split
  · exact hkept
  · split
    · exact request_covered hkept
    · exact hkept

theorem insertPage_covered {s : Paging} {offset rows : Nat} {rest : List Event}
    (hevents : s.events = .resultPageLoaded offset rows :: rest) (h : s.AllCovered) :
    ({ s with events := rest }.insertPage offset rows).AllCovered := by
  intro p hp
  obtain ⟨hp, hne⟩ := List.mem_filter.mp hp
  rcases h p hp with hc | hf | ⟨o, n, hmem, hpage⟩
  · exact Or.inl hc
  · exact Or.inr (Or.inl hf)
  · rw [hevents, List.mem_cons] at hmem
    rcases hmem with heq | hmem
    · -- the reply that has arrived was for another page
      obtain ⟨rfl, -⟩ := Event.resultPageLoaded.inj heq
      exact absurd hpage.symm (bne_iff_ne.mp hne)
    · exact Or.inr (Or.inr ⟨o, n, hmem, hpage⟩)

/-! ## One move -/

theorem mem_abortSlot {s : Paging} {f : Fetch} (hf : f.aborted = false) :
    f ∈ s.abortSlot ↔ f ∈ s.fetches ∧ s.slot ≠ some f.id := by
  unfold abortSlot
  constructor
  · intro h
    obtain ⟨g, hg, heq⟩ := List.mem_map.mp h
    split at heq
    · rw [← heq] at hf
      cases hf
    · exact heq ▸ ⟨hg, ‹_›⟩
  · rintro ⟨hmem, hslot⟩
    exact List.mem_map.mpr ⟨f, hmem, if_neg hslot⟩

section Move

variable {s t : Paging} {a : Action} {p : Nat}

theorem covered_abortSlot (h : s.Covered p)
    (hnot : ¬∃ f ∈ s.fetches, s.slot = some f.id ∧ f.aborted = false ∧ f.offset / s.page = p) :
    { s with fetches := s.abortSlot }.Covered p := by
  rcases h with hc | ⟨f, hf, hlive, hpage⟩ | hr
  · exact Or.inl hc
  · refine Or.inr (Or.inl ⟨f, (mem_abortSlot hlive).mpr ⟨hf, ?_⟩, hlive, hpage⟩)
    exact fun hslot => hnot ⟨f, hf, hslot, hlive, hpage⟩
  · exact Or.inr (Or.inr hr)

theorem covered_tail (h : s.Covered p)
    (hnot : ¬∃ c, s.commands.head? = some c ∧ c.offset / s.page = p) :
    { s with commands := s.commands.tail }.Covered p := by
  rcases h with ⟨c, hc, hpage⟩ | hf | hr
  · refine Or.inl ⟨c, ?_, hpage⟩
    obtain ⟨d, rest, hcommands⟩ := List.exists_cons_of_ne_nil (List.ne_nil_of_mem hc)
    rw [hcommands, List.mem_cons] at hc
    show c ∈ s.commands.tail
    rw [hcommands]
    refine hc.resolve_left ?_
    rintro rfl
    exact hnot ⟨c, by rw [hcommands, List.head?_cons], hpage⟩
  · exact Or.inr (Or.inl hf)
  · exact Or.inr (Or.inr hr)

/-- A fetch that runs, and is not the one at `n` that matters. -/
theorem exists_other {n : Nat} (h : s.Fetching p)
    (hnot : ¬∃ f, s.fetches[n]? = some f ∧ f.aborted = false ∧ f.offset / s.page = p) :
    ∃ f i, i ≠ n ∧ s.fetches[i]? = some f ∧ f.aborted = false ∧ f.offset / s.page = p := by
  obtain ⟨f, hf, hlive, hpage⟩ := h
  obtain ⟨i, hi⟩ := List.mem_iff_getElem?.mp hf
  refine ⟨f, i, ?_, hi, hlive, hpage⟩
  rintro rfl
  exact hnot ⟨f, hi, hlive, hpage⟩

theorem covered_eraseIdx {n : Nat} (h : s.Covered p)
    (hnot : ¬∃ f, s.fetches[n]? = some f ∧ f.aborted = false ∧ f.offset / s.page = p) :
    { s with fetches := s.fetches.eraseIdx n }.Covered p := by
  rcases h with hc | hf | hr
  · exact Or.inl hc
  · obtain ⟨f, i, hne, hi, hlive, hpage⟩ := exists_other hf hnot
    exact Or.inr (Or.inl ⟨f, List.mem_eraseIdx_iff_getElem?.mpr ⟨i, hne, hi⟩, hlive, hpage⟩)
  · exact Or.inr (Or.inr hr)

theorem covered_modify {n : Nat} (h : s.Covered p)
    (hnot : ¬∃ f, s.fetches[n]? = some f ∧ f.aborted = false ∧ f.offset / s.page = p) :
    { s with fetches := s.fetches.modify n abortFetch }.Covered p := by
  rcases h with hc | hf | hr
  · exact Or.inl hc
  · obtain ⟨f, i, hne, hi, hlive, hpage⟩ := exists_other hf hnot
    refine Or.inr (Or.inl ⟨f, List.mem_iff_getElem?.mpr ⟨i, ?_⟩, hlive, hpage⟩)
    rw [List.getElem?_modify, hi]
    exact congrArg some (if_neg hne.symm)
  · exact Or.inr (Or.inr hr)

/-- A move that only does away with commands and fetches loses no page exactly when
what is left sees to the pages it does away with. -/
theorem allCovered_iff_keeps (hrequested : t.requested = s.requested)
    (hcovered : ∀ p, t.Covered p ↔ (s.without a).Covered p)
    (hleft : ∀ p, s.Covered p → ¬s.Losing a p → (s.without a).Covered p) (h : s.AllCovered) :
    t.AllCovered ↔ s.Keeps a := by
  constructor
  · intro ht p hp _
    exact (hcovered p).mp (ht p (hrequested.symm ▸ hp))
  · intro hk p hp
    rw [hrequested] at hp
    rw [hcovered]
    by_cases hlosing : s.Losing a p
    · exact hk p hp hlosing
    · exact hleft p (h p hp) hlosing

/-- A move that does away with nothing. -/
theorem allCovered_iff_of_not_losing (hnot : ∀ p, ¬s.Losing a p) (ht : t.AllCovered) :
    t.AllCovered ↔ s.Keeps a :=
  iff_of_true ht fun p _ hp => absurd hp (hnot p)

/-- A command that is taken has become a fetch. -/
theorem fetchPage_covered_iff {c : FetchPage} {rest : List FetchPage} :
    ({ s with commands := rest }.fetchPage c).Covered p ↔
      { s with commands := c :: rest, fetches := s.abortSlot }.Covered p := by
  constructor
  · rintro (⟨d, hd, hpage⟩ | ⟨f, hf, hlive, hpage⟩ | hr)
    · exact Or.inl ⟨d, List.mem_cons_of_mem c hd, hpage⟩
    · rcases List.mem_append.mp hf with hf | hf
      · exact Or.inr (Or.inl ⟨f, hf, hlive, hpage⟩)
      · rw [List.mem_singleton.mp hf] at hpage
        exact Or.inl ⟨c, List.mem_cons_self, hpage⟩
    · exact Or.inr (Or.inr hr)
  · rintro (⟨d, hd, hpage⟩ | ⟨f, hf, hlive, hpage⟩ | hr)
    · rcases List.mem_cons.mp hd with rfl | hd
      · have hnew := List.mem_append_right s.abortSlot
          (List.mem_singleton_self (⟨s.nextId, d.offset, d.limit, false⟩ : Fetch))
        exact Or.inr (Or.inl ⟨_, hnew, rfl, hpage⟩)
      · exact Or.inl ⟨d, hd, hpage⟩
    · exact Or.inr (Or.inl ⟨f, List.mem_append_left _ hf, hlive, hpage⟩)
    · exact Or.inr (Or.inr hr)

/-- An error is no reply. -/
theorem error_covered_iff :
    { s with events := s.events ++ [Event.error] }.Covered p ↔ s.Covered p := by
  refine or_congr_right (or_congr_right ?_)
  constructor
  · rintro ⟨offset, rows, hmem, hpage⟩
    refine ⟨offset, rows, (List.mem_append.mp hmem).resolve_right ?_, hpage⟩
    exact fun h => Event.noConfusion (List.mem_singleton.mp h)
  · rintro ⟨offset, rows, hmem, hpage⟩
    exact ⟨offset, rows, List.mem_append_left _ hmem, hpage⟩

theorem handle_iff {how : Handling} (h : s.AllCovered) (hstep : step s (.handle how) = some t) :
    t.AllCovered ↔ s.Keeps (.handle how) := by
  unfold step at hstep
  cases hcommands : s.commands with
  | nil =>
    simp only [hcommands] at hstep
    cases hstep
  | cons c rest =>
    simp only [hcommands] at hstep
    obtain rfl := Option.some.inj hstep
    have htail : s.commands.tail = rest := by rw [hcommands, List.tail_cons]
    cases how with
    | fetches =>
      refine allCovered_iff_keeps rfl (fun p => ?_) (fun p hp hnot => ?_) h
      · have hwithout : s.without (.handle .fetches) =
            { s with commands := c :: rest, fetches := s.abortSlot } := by
          rw [← hcommands]
          rfl
        rw [hwithout]
        exact fetchPage_covered_iff
      · exact covered_abortSlot hp fun hex => hnot ⟨by simp [hcommands], hex⟩
    | refused =>
      refine allCovered_iff_keeps rfl (fun p => ?_) (fun p hp hnot => covered_tail hp hnot) h
      have hwithout : s.without (.handle .refused) = { s with commands := rest } := by
        rw [← htail]
        rfl
      rw [hwithout]
      exact error_covered_iff
    | stale =>
      refine allCovered_iff_keeps rfl (fun p => ?_) (fun p hp hnot => covered_tail hp hnot) h
      rw [← htail]
      exact Iff.rfl

theorem settle_iff {n : Nat} {outcome : Outcome} (h : s.AllCovered)
    (hstep : step s (.settle n outcome) = some t) : t.AllCovered ↔ s.Keeps (.settle n outcome) := by
  unfold step at hstep
  cases hf : s.fetches[n]? with
  | none =>
    simp only [hf] at hstep
    cases hstep
  | some f =>
    simp only [hf] at hstep
    obtain rfl := Option.some.inj hstep
    cases outcome with
    | interrupted =>
      refine allCovered_iff_keeps rfl (fun p => ?_) (fun p hp hnot => covered_eraseIdx hp hnot) h
      show { s with fetches := _, events := s.events ++ [] }.Covered p ↔ _
      rw [List.append_nil]
      exact Iff.rfl
    | failed =>
      refine allCovered_iff_keeps rfl (fun p => ?_) (fun p hp hnot => covered_eraseIdx hp hnot) h
      exact @error_covered_iff { s with fetches := s.fetches.eraseIdx n } p
    | loaded rows =>
      refine allCovered_iff_of_not_losing (fun _ => id) fun p hp => ?_
      -- the fetch that ends leaves its reply
      by_cases hpage : f.offset / s.page = p
      · exact Or.inr (Or.inr ⟨f.offset, rows, List.mem_append_right _
          (List.mem_singleton_self _), hpage⟩)
      have hnot : ¬∃ g, s.fetches[n]? = some g ∧ g.aborted = false ∧ g.offset / s.page = p := by
        rintro ⟨g, hg, -, hgpage⟩
        obtain rfl : f = g := Option.some.inj (hf.symm.trans hg)
        exact hpage hgpage
      rcases covered_eraseIdx (h p hp) hnot with hc | hf' | ⟨offset, n', hmem, hpage'⟩
      · exact Or.inl hc
      · exact Or.inr (Or.inl hf')
      · exact Or.inr (Or.inr ⟨offset, n', List.mem_append_left _ hmem, hpage'⟩)

/-- **The moves that keep every requested page seen to** are those that do away with
no page that is still wanted and seen to by nobody else. -/
theorem allCovered_step_iff (h : s.AllCovered) (hstep : step s a = some t) :
    t.AllCovered ↔ s.Keeps a := by
  cases a with
  | paint start stop total =>
    obtain rfl := Option.some.inj hstep
    exact allCovered_iff_of_not_losing (fun _ => id) (ensure_covered h)
  | handle how => exact handle_iff h hstep
  | bail n =>
    refine allCovered_iff_of_not_losing (fun _ => id) ?_
    unfold step at hstep
    cases hf : s.fetches[n]? with
    | none =>
      simp only [hf] at hstep
      cases hstep
    | some f =>
      simp only [hf] at hstep
      obtain ⟨haborted, ⟨⟩⟩ := Option.ite_none_right_eq_some.mp hstep
      refine fun p hp => covered_eraseIdx (h p hp) ?_
      rintro ⟨g, hg, hlive, -⟩
      obtain rfl : f = g := Option.some.inj (hf.symm.trans hg)
      rw [haborted] at hlive
      cases hlive
  | settle n outcome => exact settle_iff h hstep
  | expire n =>
    obtain rfl := Option.some.inj hstep
    exact allCovered_iff_keeps rfl (fun _ => Iff.rfl) (fun p hp hnot => covered_modify hp hnot) h
  | abortAll =>
    obtain rfl := Option.some.inj hstep
    refine allCovered_iff_keeps rfl (fun _ => Iff.rfl) (fun p hp hnot => ?_) h
    rcases hp with hc | hf | hr
    · exact Or.inl hc
    · exact absurd hf hnot
    · exact Or.inr (Or.inr hr)
  | deliver =>
    refine allCovered_iff_of_not_losing (fun _ => id) ?_
    unfold step at hstep
    cases hevents : s.events with
    | nil =>
      simp only [hevents] at hstep
      cases hstep
    | cons e rest =>
      cases e with
      | resultPageLoaded offset rows =>
        simp only [hevents] at hstep
        obtain rfl := Option.some.inj hstep
        exact insertPage_covered hevents h
      | error =>
        simp only [hevents] at hstep
        obtain rfl := Option.some.inj hstep
        intro p hp
        have hcovered := h p hp
        rcases hcovered with hc | hf | ⟨offset, n, hmem, hpage⟩
        · exact Or.inl hc
        · exact Or.inr (Or.inl hf)
        · rw [hevents, List.mem_cons] at hmem
          exact Or.inr (Or.inr ⟨offset, n, hmem.resolve_left Event.noConfusion, hpage⟩)

end Move

/-- A move that is not admitted does away with nothing. -/
theorem keeps_of_idle {s : Paging} {a : Action} (h : step s a = none) : s.Keeps a := by
  intro p _ hlosing
  cases a with
  | handle how =>
    unfold step at h
    cases hcommands : s.commands with
    | nil =>
      cases how with
      | fetches => exact absurd hcommands hlosing.1
      | refused | stale =>
        obtain ⟨c, hc, -⟩ := hlosing
        rw [hcommands] at hc
        cases hc
    | cons c rest =>
      simp only [hcommands] at h
      cases h
  | settle n outcome =>
    unfold step at h
    cases hf : s.fetches[n]? with
    | none =>
      cases outcome with
      | loaded rows => exact hlosing.elim
      | interrupted | failed =>
        obtain ⟨f, hf', -⟩ := hlosing
        rw [hf] at hf'
        cases hf'
    | some f =>
      simp only [hf] at h
      cases h
  | paint start stop total | bail n => exact hlosing.elim
  | expire n => cases h
  | abortAll => cases h
  | deliver => exact hlosing.elim

end Paging

open Paging

/-- The first paint of a grid whose viewport spans two pages, and the service's
handling of the two commands. -/
def twoPages : List Action := [.paint 0 300 1000, .handle .fetches, .handle .fetches]

end RedDb.Service
