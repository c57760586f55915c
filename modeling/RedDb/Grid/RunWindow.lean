import Mathlib
import RedDb.Grid.KeyedRun
import RedDb.Lib.Machine

/-!
# RedDb — a run is a window of the result

The result is fixed: a list of rows with distinct keys. The viewport moves, requests are
answered in any order or fail, and the run is to stay a piece of the result, under its
true ordinals unless they are marked as estimates.

* `answer_forward`, `answer_backward` — a seek answers with the neighbours of its edge;
* `evict_good`, `apply_good_iff`      — what the transitions keep of a good run;
* `consistent_iff_keeps` — the window is consistent exactly as long as no page fills an
  estimated run up to row 0 that has more rows in front of it, and no jump to row 0 lands
  behind it.
-/

namespace RedDb.Grid

/-- A result as the grid shows it. -/
structure Listing (ρ K : Type*) where
  rows : List ρ
  key : ρ → K
  distinct : (rows.map key).Nodup
  page : Nat
  page_pos : 0 < page

/-- The viewport moves, a row is gone to, a reply arrives. `near` is where the seek of an
interpolated jump landed, if it found a row. -/
inductive GridEvent (K : Type*) where
  | ensure (start stop : Nat)
  | goToRow (ordinal : Nat)
  | reply (fetch : RunFetch K) (seq : Nat) (near : Option Nat)
  | failed (seq : Nat)

structure GridWorld (ρ K : Type*) where
  buffer : GridBuffer ρ
  sent : List (RunFetch K × Nat × Nat)

namespace Listing

variable {ρ K : Type*} (L : Listing ρ K)

def total : Nat := L.rows.length

/-! ## What is promised -/

/-- The run is a piece of the result, its anchor is the ordinal of its first row unless
marked as an estimate, and an end flag means that the end is resident. -/
structure Consistent (run : KeyedRun ρ) : Prop where
  contiguous : run.rows <:+: L.rows
  anchored : run.estimated = false → ∀ r, run.rows.head? = some r → L.rows[run.anchor]? = some r
  start : run.atStart = true → run.rows.head? = L.rows.head?
  finish : run.atEnd = true → run.rows.getLast? = L.rows.getLast?

/-- A run between the rows in front of it and the rows behind it. -/
structure Good (run : KeyedRun ρ) (before after : List ρ) : Prop where
  split : L.rows = before ++ run.rows ++ after
  anchored : run.estimated = false → run.rows ≠ [] → run.anchor = before.length
  start : run.atStart = true → before = [] ∧ (run.rows = [] → L.rows = [])
  finish : run.atEnd = true → after = [] ∧ (run.rows = [] → L.rows = [])

/-- What holds of a run whatever was replied. -/
structure Shaped (run : KeyedRun ρ) : Prop where
  page : run.page = L.page
  contiguous : run.rows <:+: L.rows
  startAnchor : run.estimated = true → run.atStart = true → run.anchor = 0
  endExact : run.atEnd = true → run.estimated = false

section Windows

variable {L} {run : KeyedRun ρ} {before after : List ρ}

theorem getElem?_inj {i j : Nat} {r : ρ} (hi : L.rows[i]? = some r) (hj : L.rows[j]? = some r) :
    i = j := by
  obtain ⟨hi', hi⟩ := List.getElem?_eq_some_iff.mp hi
  obtain ⟨hj', hj⟩ := List.getElem?_eq_some_iff.mp hj
  exact (L.distinct.of_map).getElem_inj_iff.mp (hi.trans hj.symm)

theorem consistent_of_good (h : L.Good run before after) : L.Consistent run where
  contiguous := ⟨before, after, h.split.symm⟩
  anchored := by
    intro hexact r hr
    have hne : run.rows ≠ [] := by
      intro hnil
      rw [hnil] at hr
      cases hr
    rw [h.split, h.anchored hexact hne, List.append_assoc,
      List.getElem?_append_right (Nat.le_refl _), Nat.sub_self, ← List.head?_eq_getElem?,
      List.head?_append, hr]
    rfl
  start := by
    intro hstart
    obtain ⟨hbefore, hempty⟩ := h.start hstart
    by_cases hnil : run.rows = []
    · rw [hempty hnil, hnil]
    · rw [h.split, hbefore, List.nil_append, List.head?_append_of_ne_nil _ hnil]
  finish := by
    intro hend
    obtain ⟨hafter, hempty⟩ := h.finish hend
    by_cases hnil : run.rows = []
    · rw [hempty hnil, hnil]
    · rw [h.split, hafter, List.append_nil, List.getLast?_append_of_ne_nil _ hnil]

theorem good_of_consistent (h : L.Consistent run) : ∃ before after, L.Good run before after := by
  by_cases hnil : run.rows = []
  · have hstart : run.atStart = true → L.rows = [] := by
      intro hs
      have := h.start hs
      rw [hnil] at this
      exact List.head?_eq_none_iff.mp this.symm
    have hfinish : run.atEnd = true → L.rows = [] := by
      intro he
      have := h.finish he
      rw [hnil] at this
      exact List.getLast?_eq_none_iff.mp this.symm
    refine ⟨[], L.rows, ?_, fun _ hne => absurd hnil hne, ?_, ?_⟩
    · rw [hnil]
      rfl
    · exact fun hs => ⟨rfl, fun _ => hstart hs⟩
    · exact fun he => ⟨hfinish he, fun _ => hfinish he⟩
  · obtain ⟨before, after, hsplit⟩ := h.contiguous
    obtain ⟨r, rest, hrows⟩ := List.exists_cons_of_ne_nil hnil
    have hfirst : L.rows[before.length]? = some r := by
      rw [← hsplit, hrows]
      simp
    have hanchored : run.estimated = false → run.anchor = before.length := fun hexact =>
      getElem?_inj (h.anchored hexact r (by rw [hrows]; rfl)) hfirst
    refine ⟨before, after, hsplit.symm, fun he _ => hanchored he, ?_, ?_⟩
    · intro hs
      refine ⟨?_, fun h => absurd h hnil⟩
      have hhead := h.start hs
      rw [hrows, List.head?_cons, List.head?_eq_getElem?] at hhead
      exact List.length_eq_zero_iff.mp (getElem?_inj hfirst hhead.symm)
    · intro he
      refine ⟨?_, fun h => absurd h hnil⟩
      have hlast := h.finish he
      rw [List.getLast?_eq_getElem?, List.getLast?_eq_getElem?] at hlast
      have hpos : 0 < run.rows.length := List.length_pos_iff.mpr hnil
      have hmine : L.rows[before.length + (run.rows.length - 1)]? =
          run.rows[run.rows.length - 1]? := by
        rw [← hsplit, List.append_assoc, List.getElem?_append_right (Nat.le_add_right _ _),
          Nat.add_sub_cancel_left, List.getElem?_append_left (by omega)]
      have hget : run.rows[run.rows.length - 1]? = some (run.rows.getLast hnil) := by
        rw [← List.getLast?_eq_getElem?, List.getLast?_eq_some_getLast hnil]
      have hplace := getElem?_inj (hmine.trans hget) (hlast.symm.trans hget)
      have hlen := congrArg List.length hsplit
      simp only [List.length_append] at hlen
      exact List.length_eq_zero_iff.mp (by omega)

/-- However a good run is cut out of the result, its exact anchor is its place there. -/
theorem Good.anchor_eq {before' after' : List ρ} (h : L.Good run before' after')
    (hsplit : L.rows = before ++ run.rows ++ after) (hne : run.rows ≠ [])
    (hexact : run.estimated = false) : run.anchor = before.length := by
  obtain ⟨r, rest, hrows⟩ := List.exists_cons_of_ne_nil hne
  refine getElem?_inj ((consistent_of_good h).anchored hexact r (by rw [hrows]; rfl)) ?_
  rw [hsplit, hrows]
  simp

/-! ## Eviction -/

theorem shaped_popFront (h : L.Shaped run) : L.Shaped run.popFront where
  page := h.page
  contiguous := (List.tail_suffix _).isInfix.trans h.contiguous
  startAnchor := fun _ hstart => absurd hstart Bool.false_ne_true
  endExact := h.endExact

theorem shaped_popBack (h : L.Shaped run) : L.Shaped run.popBack where
  page := h.page
  contiguous := (List.dropLast_prefix _).isInfix.trans h.contiguous
  startAnchor := h.startAnchor
  endExact := fun hend => absurd hend Bool.false_ne_true

theorem shaped_evict (h : L.Shaped run) (lo hi : Nat) : L.Shaped (run.evict lo hi) :=
  (WhileLoop.visits_run _ _).inv (fun _ _ => shaped_popBack)
    ((WhileLoop.visits_run _ _).inv (fun _ _ => shaped_popFront) h)

/-- Dropping the first row, when the run is not all that is left of the result. -/
theorem good_popFront {lo : Nat} (hlo : lo ≤ L.total - 1) (hshape : L.Shaped run)
    (h : L.Good run before after) (hcond : run.tooEarly lo = true) :
    ∃ before', L.Good run.popFront before' after := by
  simp only [KeyedRun.tooEarly, Bool.and_eq_true, decide_eq_true_eq, Bool.not_eq_true',
    List.isEmpty_eq_false_iff] at hcond
  obtain ⟨hlt, hne⟩ := hcond
  obtain ⟨r, rest, hrows⟩ := List.exists_cons_of_ne_nil hne
  have hsplit := h.split
  rw [hrows] at hsplit
  have htail : run.popFront.rows = rest := by rw [KeyedRun.popFront, hrows, List.tail_cons]
  refine ⟨before ++ [r], ?_, ?_, fun hs => absurd hs Bool.false_ne_true, ?_⟩
  · rw [htail, hsplit]
    simp
  · intro hexact _
    rw [List.length_append, List.length_singleton, ← h.anchored hexact hne]
    rfl
  · intro hend
    obtain ⟨hafter, -⟩ := h.finish hend
    refine ⟨hafter, fun hnil => ?_⟩
    -- The last row of the result is never in front of the viewport.
    have hanchor := h.anchored (hshape.endExact hend) hne
    have hlen := congrArg List.length hsplit
    rw [htail] at hnil
    simp only [hafter, hnil, List.length_append, List.length_singleton, List.length_nil] at hlen
    unfold total at hlo
    omega

theorem good_popBack {hi : Nat} (hhi : L.total = 0 ∨ 0 < hi) (hshape : L.Shaped run)
    (h : L.Good run before after) (hcond : run.tooLate hi = true) :
    ∃ after', L.Good run.popBack before after' := by
  simp only [KeyedRun.tooLate, Bool.and_eq_true, decide_eq_true_eq, Bool.not_eq_true',
    List.isEmpty_eq_false_iff] at hcond
  obtain ⟨hlt, hne⟩ := hcond
  have hsplit := h.split
  rw [← List.dropLast_append_getLast hne] at hsplit
  refine ⟨run.rows.getLast hne :: after, ?_, ?_, ?_, fun he => absurd he Bool.false_ne_true⟩
  · rw [hsplit]
    simp [KeyedRun.popBack]
  · exact fun hexact _ => h.anchored hexact hne
  · intro hstart
    obtain ⟨hbefore, -⟩ := h.start hstart
    refine ⟨hbefore, fun hnil => ?_⟩
    -- The first row of the result is never behind the viewport.
    have hanchor : run.anchor = 0 := by
      cases hest : run.estimated with
      | true => exact hshape.startAnchor hest hstart
      | false => rw [h.anchored hest hne, hbefore, List.length_nil]
    have hlen : run.rows.dropLast.length = run.rows.length - 1 := List.length_dropLast
    rw [show run.rows.dropLast = [] from hnil, List.length_nil] at hlen
    have htotal : 0 < L.total := by
      unfold total
      rw [h.split]
      have := List.length_pos_iff.mpr hne
      simp only [List.length_append]
      omega
    omega

theorem good_evict {lo hi : Nat} (hlo : lo ≤ L.total - 1) (hhi : L.total = 0 ∨ 0 < hi)
    (hshape : L.Shaped run) (h : ∃ before after, L.Good run before after) :
    ∃ before after, L.Good (run.evict lo hi) before after := by
  let Kept (s : KeyedRun ρ) : Prop := L.Shaped s ∧ ∃ before after, L.Good s before after
  have hfront : ∀ s : KeyedRun ρ, s.tooEarly lo = true → Kept s → Kept s.popFront := by
    rintro s hc ⟨hs, before, after, hgood⟩
    obtain ⟨before', hgood'⟩ := good_popFront hlo hs hgood hc
    exact ⟨shaped_popFront hs, before', after, hgood'⟩
  have hback : ∀ s : KeyedRun ρ, s.tooLate hi = true → Kept s → Kept s.popBack := by
    rintro s hc ⟨hs, before, after, hgood⟩
    obtain ⟨after', hgood'⟩ := good_popBack hhi hs hgood hc
    exact ⟨shaped_popBack hs, before, after', hgood'⟩
  exact ((WhileLoop.visits_run _ _).inv hback
    ((WhileLoop.visits_run _ _).inv hfront (show Kept run from ⟨hshape, h⟩))).2

/-! ## Jumps -/

section Jump

variable {p ordinal : Nat} {estimated : Bool}

theorem applyJump_page (hpage : run.page = L.page) (hp : p ≤ L.total) :
    run.applyJump ((L.rows.drop p).take L.page) L.total ordinal estimated =
      if L.total < p + L.page then
        { run with
          rows := (L.rows.drop p).take L.page, atEnd := true, estimated := false, anchor := p
          atStart := p == 0 }
      else
        { run with
          rows := (L.rows.drop p).take L.page, atEnd := false, estimated := estimated
          anchor := min ordinal (L.total - L.page), atStart := min ordinal (L.total - L.page) == 0 } := by
  have hlen : ((L.rows.drop p).take L.page).length = min L.page (L.total - p) := by
    rw [List.length_take, List.length_drop, total]
  unfold KeyedRun.applyJump
  simp only [hlen, hpage]
  by_cases hshort : L.total < p + L.page
  · have hmin : L.total - min L.page (L.total - p) = p := by omega
    have hlt : min L.page (L.total - p) < L.page := by omega
    simp [hshort, hmin, hlt]
  · have hmin : min L.page (L.total - p) = L.page := by omega
    simp [hshort, hmin]

theorem shaped_applyJump (h : L.Shaped run) (hp : p ≤ L.total)  :
    L.Shaped (run.applyJump ((L.rows.drop p).take L.page) L.total ordinal estimated) := by
  have hrows : (L.rows.drop p).take L.page <:+: L.rows :=
    (List.take_prefix _ _).isInfix.trans (List.drop_suffix _ _).isInfix
  rw [applyJump_page h.page hp]
  split
  · exact ⟨h.page, hrows, fun hest => absurd hest Bool.false_ne_true, fun _ => rfl⟩
  · exact ⟨h.page, hrows, fun _ hstart => beq_iff_eq.mp hstart,
      fun hend => absurd hend Bool.false_ne_true⟩

theorem good_applyJump_iff (hpage : run.page = L.page) (hp : p ≤ L.total - 1)
    (hnear : estimated = true → ordinal ≠ 0) (hexact : estimated = false → p = ordinal ∨ ordinal = 0) :
    (∃ before after,
      L.Good (run.applyJump ((L.rows.drop p).take L.page) L.total ordinal estimated) before after) ↔
      (estimated = false → ordinal = 0 → 0 < p → L.total < p + L.page) := by
  have hsplit : L.rows = L.rows.take p ++ (L.rows.drop p).take L.page ++ L.rows.drop (p + L.page) := by
    rw [List.append_assoc, ← List.drop_drop, List.take_append_drop, List.take_append_drop]
  have hlen : (L.rows.take p).length = p := by
    rw [List.length_take]
    unfold total at hp
    omega
  have hempty : (L.rows.drop p).take L.page = [] → L.rows = [] := by
    intro hnil
    have hpos := L.page_pos
    rcases List.take_eq_nil_iff.mp hnil with h0 | hdrop
    · omega
    · have := List.drop_eq_nil_iff.mp hdrop
      unfold total at hp
      exact List.length_eq_zero_iff.mp (by omega)
  rw [applyJump_page hpage (by omega)]
  split
  · rename_i hshort
    refine iff_of_true ⟨_, _, hsplit, fun _ _ => hlen.symm, fun hstart => ?_, fun _ => ?_⟩
      fun _ _ _ => hshort
    · have hzero : p = 0 := beq_iff_eq.mp hstart
      rw [hzero, List.take_zero]
      exact ⟨rfl, by rwa [hzero] at hempty⟩
    · exact ⟨List.drop_eq_nil_iff.mpr (Nat.le_of_lt hshort), hempty⟩
  · rename_i hlong
    have hne : (L.rows.drop p).take L.page ≠ [] := by
      intro hnil
      have hrows := hempty hnil
      have hpos := L.page_pos
      rw [total, hrows, List.length_nil] at hlong
      omega
    constructor
    · rintro ⟨before, after, hgood⟩ hest hzero hpos
      have hanchor := hgood.anchor_eq hsplit hne hest
      have hanchor : min ordinal (L.total - L.page) = (L.rows.take p).length := hanchor
      omega
    · intro hkeeps
      refine ⟨_, _, hsplit, fun hest _ => ?_, fun hstart => ?_, fun h => absurd h Bool.false_ne_true⟩
      · have hest : estimated = false := hest
        show min ordinal (L.total - L.page) = _
        rw [hlen]
        rcases hexact hest with rfl | hzero
        · omega
        · have : ¬ 0 < p := fun hpos => hlong (hkeeps hest hzero hpos)
          omega
      · have hzero : min ordinal (L.total - L.page) = 0 := beq_iff_eq.mp hstart
        refine ⟨List.length_eq_zero_iff.mp ?_, fun hnil => absurd hnil hne⟩
        rw [hlen]
        cases hest : estimated with
        | true =>
          have := hnear hest
          omega
        | false =>
          rcases hexact hest with rfl | hz
          · omega
          · have : ¬ 0 < p := fun hpos => hlong (hkeeps hest hz hpos)
            omega

end Jump

end Windows

variable [DecidableEq K]

/-! ## Replies -/

/-- How many rows stand in front of the one with the key. -/
def place (k : K) : Nat := L.rows.findIdx fun r => L.key r == k

/-- The rows a fetch is answered with, and whether their ordinals are estimates. -/
def answer (near : Option Nat) : RunFetch K → List ρ × Bool
  | .forward none => (L.rows.take L.page, false)
  | .forward (some after) => ((L.rows.drop (L.place after + 1)).take L.page, false)
  | .backward before => ((L.rows.take (L.place before)).reverse.take L.page, false)
  | .jump ordinal exact =>
    match exact, near with
    | false, some p => ((L.rows.drop p).take L.page, ordinal != 0)
    | _, _ => ((L.rows.drop ordinal).take L.page, false)

/-! ## The machine -/

def opened : GridWorld ρ K := ⟨⟨.new L.page, L.page, none⟩, []⟩

def Admits (w : GridWorld ρ K) : GridEvent K → Prop
  | .ensure start stop => start ≤ stop ∧ stop ≤ L.total
  | .goToRow _ | .failed _ => True
  | .reply fetch seq near => (fetch, L.page, seq) ∈ w.sent ∧ ∀ p ∈ near, p < L.total

instance (w : GridWorld ρ K) (e : GridEvent K) : Decidable (L.Admits w e) :=
  match e with
  | .ensure start stop => inferInstanceAs (Decidable (start ≤ stop ∧ stop ≤ L.total))
  | .goToRow _ | .failed _ => inferInstanceAs (Decidable True)
  | .reply fetch seq near =>
    inferInstanceAs (Decidable ((fetch, L.page, seq) ∈ w.sent ∧ ∀ p ∈ near, p < L.total))

def next (w : GridWorld ρ K) : GridEvent K → GridWorld ρ K
  | .ensure start stop =>
    let (buffer, sent, _) := w.buffer.ensure L.key start stop L.total
    ⟨buffer, w.sent ++ sent⟩
  | .goToRow ordinal =>
    let (run, sent) := w.buffer.run.jumpExact (min ordinal (L.total - 1))
    ⟨{ w.buffer with run := run }, w.sent ++ sent⟩
  | .reply fetch seq near =>
    let (rows, estimated) := L.answer near fetch
    { w with buffer := { w.buffer with
        run := w.buffer.run.apply L.key rows L.total fetch estimated seq } }
  | .failed seq => { w with buffer := { w.buffer with run := w.buffer.run.failed seq } }

def step (w : GridWorld ρ K) (e : GridEvent K) : Option (GridWorld ρ K) :=
  if L.Admits w e then some (L.next w e) else none

/-- A reply lands where the run takes it to be: the page in front of an estimated run that
is thought to reach row 0 has no more rows in front of it, and an interpolated jump to row 0
does not bring a full page from behind it. -/
def Lands (run : KeyedRun ρ) (near : Option Nat) : RunFetch K → Prop
  | .forward _ => True
  | .backward before =>
    run.firstKey L.key = some before → run.estimated = true → run.anchor ≤ L.page →
      L.place before ≤ L.page
  | .jump ordinal exact =>
    ordinal = 0 → exact = false → ∀ p ∈ near, 0 < p → L.total < p + L.page

/-- A reply that is not dropped lands where the run takes it to be. -/
def Keeps (w : GridWorld ρ K) : GridEvent K → Prop
  | .reply fetch seq near =>
    L.Admits w (.reply fetch seq near) → w.buffer.run.pending = some seq →
      L.Lands w.buffer.run near fetch
  | _ => True

variable {L} {run : KeyedRun ρ} {before after : List ρ} {w : GridWorld ρ K}

/-! ## What a seek answers with -/

theorem place_of_split {r : ρ} (hsplit : L.rows = before ++ r :: after) :
    L.place (L.key r) = before.length := by
  have hdistinct := L.distinct
  rw [hsplit, List.map_append, List.map_cons, List.nodup_append] at hdistinct
  have hfront : ∀ s ∈ before, (L.key s == L.key r) = false := by
    intro s hs
    rw [beq_eq_false_iff_ne]
    exact hdistinct.2.2 _ (List.mem_map_of_mem hs) _ List.mem_cons_self
  rw [place, hsplit, List.findIdx_append, List.findIdx_eq_length_of_false hfront,
    if_neg (Nat.lt_irrefl _), List.findIdx_cons, beq_self_eq_true, cond_true, Nat.zero_add]

theorem answer_forward (near : Option Nat) {k : K} (hsplit : L.rows = before ++ run.rows ++ after)
    (hk : run.lastKey L.key = some k) :
    (L.answer near (.forward (some k))).1 = after.take L.page := by
  obtain ⟨r, hr, rfl⟩ := Option.map_eq_some_iff.mp hk
  obtain ⟨front, hrows⟩ := List.getLast?_eq_some_iff.mp hr
  have hplace : L.place (L.key r) = (before ++ front).length := by
    have hwhole : L.rows = (before ++ front) ++ r :: after := by
      rw [hsplit, hrows]
      simp
    exact place_of_split hwhole
  have hwhole : L.rows = (before ++ front ++ [r]) ++ after := by
    rw [hsplit, hrows]
    simp
  show (L.rows.drop (L.place (L.key r) + 1)).take L.page = _
  rw [hplace, hwhole, List.drop_left' (by simp; omega)]

theorem answer_backward (near : Option Nat) {k : K} (hsplit : L.rows = before ++ run.rows ++ after)
    (hk : run.firstKey L.key = some k) :
    (L.answer near (.backward k)).1 = before.reverse.take L.page ∧ L.place k = before.length := by
  obtain ⟨r, hr, rfl⟩ := Option.map_eq_some_iff.mp hk
  obtain ⟨rest, hrows⟩ := List.head?_eq_some_iff.mp hr
  have hwhole : L.rows = before ++ r :: (rest ++ after) := by
    rw [hsplit, hrows]
    simp
  have hplace := place_of_split hwhole
  refine ⟨?_, hplace⟩
  show (L.rows.take (L.place (L.key r))).reverse.take L.page = _
  rw [hplace, hwhole, List.take_left]

/-! ## What a reply makes of the run -/

theorem applyForward_seed (hpage : run.page = L.page) (hnil : run.rows = []) :
    run.applyForward L.key (L.rows.take L.page) L.total none =
      { run with
        rows := L.rows.take L.page, anchor := 0, atStart := true, estimated := false
        atEnd := decide (L.total < L.page) } := by
  have hlen : (L.rows.take L.page).length = min L.page L.total := List.length_take
  have hlast : run.lastKey L.key = none := by
    rw [KeyedRun.lastKey, hnil]
    rfl
  unfold KeyedRun.applyForward
  rw [if_neg (not_not_intro hlast.symm)]
  simp only [hnil, List.isEmpty_nil, if_true, List.nil_append, hlen, hpage]
  by_cases hshort : L.total < L.page
  · have hmin : min L.page L.total = L.total := by omega
    simp [hmin, hshort]
  · have hmin : min L.page L.total = L.page := by omega
    simp [hmin, hshort]

theorem applyForward_grow {k : K} (hpage : run.page = L.page)
    (hsplit : L.rows = before ++ run.rows ++ after) (hk : run.lastKey L.key = some k) :
    run.applyForward L.key (after.take L.page) L.total (some k) =
      { run with
        rows := run.rows ++ after.take L.page
        anchor := if after.length < L.page then before.length else run.anchor
        estimated := run.estimated && decide (L.page ≤ after.length)
        atEnd := decide (after.length < L.page) } := by
  have hlen : (after.take L.page).length = min L.page after.length := List.length_take
  have hne : run.rows.isEmpty = false := by
    rw [List.isEmpty_eq_false_iff]
    intro hnil
    rw [KeyedRun.lastKey, hnil] at hk
    cases hk
  have htotal : L.total = before.length + run.rows.length + after.length := by
    rw [total, hsplit, List.length_append, List.length_append]
  unfold KeyedRun.applyForward
  rw [if_neg (not_not_intro hk.symm)]
  simp only [hne, hlen, hpage]
  by_cases hshort : after.length < L.page
  · have hmin : min L.page after.length = after.length := by omega
    have hlong : ¬ L.page ≤ after.length := by omega
    have hanchor : L.total - (run.rows.length + after.length) = before.length := by omega
    simp [hmin, hshort, hlong, hlen, hanchor, hpage]
  · have hlong : L.page ≤ after.length := by omega
    simp [hshort, hlong, hpage]

theorem applyBackward_grow {k : K} (hpage : run.page = L.page) (hk : run.firstKey L.key = some k) :
    run.applyBackward L.key (before.reverse.take L.page) k =
      if before.length < L.page ∨ run.anchor ≤ L.page then
        { run with
          rows := (before.reverse.take L.page).reverse ++ run.rows, atStart := true, anchor := 0
          estimated := false }
      else
        { run with
          rows := (before.reverse.take L.page).reverse ++ run.rows
          anchor := run.anchor - L.page } := by
  have hlen : (before.reverse.take L.page).length = min L.page before.length := by
    rw [List.length_take, List.length_reverse]
  have hne : run.rows.isEmpty = false := by
    rw [List.isEmpty_eq_false_iff]
    intro hnil
    rw [KeyedRun.firstKey, hnil] at hk
    cases hk
  unfold KeyedRun.applyBackward
  rw [hne, Bool.false_or, if_neg (by simp [hk])]
  simp only [hlen, hpage]
  by_cases hshort : before.length < L.page
  · rw [if_pos (Or.inl (by omega)), if_pos (Or.inl hshort)]
  have hmin : min L.page before.length = L.page := by omega
  rw [hmin]
  by_cases hreach : run.anchor ≤ L.page
  · rw [if_pos (Or.inr (by omega)), if_pos (Or.inr hreach)]
  · rw [if_neg (by omega), if_neg (by omega)]

theorem shaped_applyForward (near : Option Nat) (h : L.Shaped run) (k : Option K) :
    L.Shaped (run.applyForward L.key (L.answer near (.forward k)).1 L.total k) := by
  by_cases hk : k = run.lastKey L.key
  · cases k with
    | none =>
      have hnil : run.rows = [] := List.getLast?_eq_none_iff.mp (Option.map_eq_none_iff.mp hk.symm)
      show L.Shaped (run.applyForward L.key (L.rows.take L.page) L.total none)
      rw [applyForward_seed h.page hnil]
      refine ⟨h.page, (List.take_prefix _ _).isInfix, ?_, fun _ => rfl⟩
      exact fun hest => absurd hest Bool.false_ne_true
    | some k =>
      obtain ⟨before, after, hsplit⟩ := h.contiguous
      rw [answer_forward near hsplit.symm hk.symm, applyForward_grow h.page hsplit.symm hk.symm]
      refine ⟨h.page, ⟨before, after.drop L.page, ?_⟩, ?_, ?_⟩
      · simp [← hsplit]
      · intro hest hstart
        obtain ⟨hest, hlong⟩ := Bool.and_eq_true_iff.mp hest
        rw [decide_eq_true_eq] at hlong
        show (if _ then _ else _) = 0
        rw [if_neg (by omega)]
        exact h.startAnchor hest hstart
      · intro hend
        have hshort : after.length < L.page := of_decide_eq_true hend
        show (run.estimated && decide (L.page ≤ after.length)) = false
        rw [decide_eq_false (by omega), Bool.and_false]
  · rw [KeyedRun.applyForward, if_pos hk]
    exact h

theorem good_applyForward (near : Option Nat) (hshape : L.Shaped run)
    (h : L.Good run before after) (k : Option K) :
    ∃ before after, L.Good (run.applyForward L.key (L.answer near (.forward k)).1 L.total k)
      before after := by
  by_cases hk : k = run.lastKey L.key
  · cases k with
    | none =>
      have hnil : run.rows = [] := List.getLast?_eq_none_iff.mp (Option.map_eq_none_iff.mp hk.symm)
      have hempty : L.rows.take L.page = [] → L.rows = [] := by
        intro htake
        rcases List.take_eq_nil_iff.mp htake with h0 | hrows
        · have := L.page_pos
          omega
        · exact hrows
      show ∃ before after, L.Good (run.applyForward L.key (L.rows.take L.page) L.total none)
        before after
      rw [applyForward_seed hshape.page hnil]
      refine ⟨[], L.rows.drop L.page, ?_, fun _ _ => rfl, fun _ => ⟨rfl, hempty⟩, ?_⟩
      · exact (List.take_append_drop _ _).symm
      · intro hend
        have hshort : L.total < L.page := of_decide_eq_true hend
        exact ⟨List.drop_eq_nil_iff.mpr (Nat.le_of_lt hshort), hempty⟩
    | some k =>
      have hne : run.rows ++ after.take L.page ≠ [] := by
        intro hnil
        rw [KeyedRun.lastKey, (List.append_eq_nil_iff.mp hnil).1] at hk
        cases hk
      rw [answer_forward near h.split hk.symm, applyForward_grow hshape.page h.split hk.symm]
      refine ⟨before, after.drop L.page, ?_, ?_, ?_, ?_⟩
      · rw [h.split]
        simp
      · intro hexact _
        show (if _ then _ else _) = before.length
        split
        · rfl
        rename_i hlong
        have hexact : (run.estimated && decide (L.page ≤ after.length)) = false := hexact
        rw [decide_eq_true (by omega), Bool.and_true] at hexact
        refine h.anchored hexact fun hnil => ?_
        rw [KeyedRun.lastKey, hnil] at hk
        cases hk
      · exact fun hstart => ⟨(h.start hstart).1, fun hnil => absurd hnil hne⟩
      · intro hend
        have hshort : after.length < L.page := of_decide_eq_true hend
        exact ⟨List.drop_eq_nil_iff.mpr (Nat.le_of_lt hshort), fun hnil => absurd hnil hne⟩
  · rw [KeyedRun.applyForward, if_pos hk]
    exact ⟨before, after, h⟩

theorem applyBackward_stale {rows : List ρ} {k : K} (hk : run.firstKey L.key ≠ some k) :
    run.applyBackward L.key rows k = run := by
  rw [KeyedRun.applyBackward, if_pos (by simp [Ne.symm hk])]

theorem shaped_applyBackward (near : Option Nat) (h : L.Shaped run) (k : K) :
    L.Shaped (run.applyBackward L.key (L.answer near (.backward k)).1 k) := by
  by_cases hk : run.firstKey L.key = some k
  · obtain ⟨before, after, hsplit⟩ := h.contiguous
    rw [(answer_backward near hsplit.symm hk).1, applyBackward_grow h.page hk]
    have hrows : (before.reverse.take L.page).reverse ++ run.rows <:+: L.rows := by
      refine ⟨(before.reverse.drop L.page).reverse, after, ?_⟩
      rw [← List.append_assoc, ← List.reverse_append, List.take_append_drop, List.reverse_reverse,
        hsplit]
    split
    · exact ⟨h.page, hrows, fun _ _ => rfl, fun _ => rfl⟩
    · refine ⟨h.page, hrows, fun hest hstart => ?_, h.endExact⟩
      show run.anchor - L.page = 0
      rw [h.startAnchor hest hstart, Nat.zero_sub]
  · rw [applyBackward_stale hk]
    exact h

theorem good_applyBackward_iff (near : Option Nat) (hshape : L.Shaped run)
    (h : L.Good run before after) (k : K) :
    (∃ before after, L.Good (run.applyBackward L.key (L.answer near (.backward k)).1 k)
      before after) ↔ (run.firstKey L.key = some k → run.estimated = true → run.anchor ≤ L.page →
        L.place k ≤ L.page) := by
  by_cases hk : run.firstKey L.key = some k
  · obtain ⟨hanswer, hplace⟩ := answer_backward near h.split hk
    have hne : run.rows ≠ [] := by
      intro hnil
      rw [KeyedRun.firstKey, hnil] at hk
      cases hk
    have hsplit : L.rows = (before.reverse.drop L.page).reverse ++
        ((before.reverse.take L.page).reverse ++ run.rows) ++ after := by
      rw [← List.append_assoc, ← List.reverse_append, List.take_append_drop, List.reverse_reverse,
        h.split]
    have hlen : (before.reverse.drop L.page).reverse.length = before.length - L.page := by
      rw [List.length_reverse, List.length_drop, List.length_reverse]
    have hne' : (before.reverse.take L.page).reverse ++ run.rows ≠ [] := by simp [hne]
    rw [hanswer, applyBackward_grow hshape.page hk, hplace]
    split
    · rename_i hreach
      constructor
      · rintro ⟨before', after', hgood⟩ - - -
        have hzero := hgood.anchor_eq hsplit hne' rfl
        rw [hlen] at hzero
        have hzero : 0 = before.length - L.page := hzero
        omega
      · intro hkeeps
        -- Nothing is left in front of the page.
        have hfull : before.length ≤ L.page := by
          rcases hreach with hshort | hanchor
          · exact Nat.le_of_lt hshort
          · cases hest : run.estimated with
            | true => exact hkeeps hk hest hanchor
            | false => rwa [← h.anchored hest hne]
        have hnone : (before.reverse.drop L.page).reverse = [] :=
          List.length_eq_zero_iff.mp (by omega)
        rw [hnone] at hsplit
        refine ⟨[], after, hsplit, fun _ _ => rfl, ?_, ?_⟩
        · exact fun _ => ⟨rfl, fun hnil => absurd hnil hne'⟩
        · exact fun hend => ⟨(h.finish hend).1, fun hnil => absurd hnil hne'⟩
    · rename_i hreach
      push Not at hreach
      refine iff_of_true ⟨_, after, hsplit, fun hexact _ => ?_, fun hstart => ?_, fun hend => ?_⟩
        fun _ _ hanchor => by omega
      · show run.anchor - L.page = _
        rw [hlen, h.anchored hexact hne]
      · have hnil := (h.start hstart).1
        have hpos := L.page_pos
        rw [hnil, List.length_nil] at hreach
        omega
      · exact ⟨(h.finish hend).1, fun hnil => absurd hnil hne'⟩
  · rw [applyBackward_stale hk]
    exact iff_of_true ⟨before, after, h⟩ fun h => absurd h hk

/-! ## Steps -/

omit [DecidableEq K] in
theorem shaped_shown : L.Shaped run.shown ↔ L.Shaped run :=
  ⟨fun h => ⟨h.page, h.contiguous, h.startAnchor, h.endExact⟩,
    fun h => ⟨h.page, h.contiguous, h.startAnchor, h.endExact⟩⟩

omit [DecidableEq K] in
theorem good_shown : L.Good run.shown before after ↔ L.Good run before after :=
  ⟨fun h => ⟨h.split, h.anchored, h.start, h.finish⟩,
    fun h => ⟨h.split, h.anchored, h.start, h.finish⟩⟩

omit [DecidableEq K] in
theorem shaped_freed (h : L.Shaped run) : L.Shaped run.freed :=
  ⟨h.page, h.contiguous, h.startAnchor, h.endExact⟩

omit [DecidableEq K] in
theorem good_freed (h : L.Good run before after) : L.Good run.freed before after :=
  ⟨h.split, h.anchored, h.start, h.finish⟩

omit [DecidableEq K] in
/-- Consistency does not look at the book-keeping of requests. -/
theorem consistent_iff_good : L.Consistent run ↔ ∃ before after, L.Good run.shown before after := by
  simp only [good_shown]
  constructor
  · exact good_of_consistent
  · rintro ⟨before, after, h⟩
    exact consistent_of_good h

/-- What holds of a world whatever was replied. -/
structure Traced (L : Listing ρ K) (w : GridWorld ρ K) : Prop where
  shaped : L.Shaped w.buffer.run
  page : w.buffer.page = L.page
  ordinals : ∀ ordinal exact limit seq, (RunFetch.jump ordinal exact, limit, seq) ∈ w.sent →
    ordinal ≤ L.total - 1

omit [DecidableEq K] in
theorem traced_opened : L.Traced L.opened where
  shaped := ⟨rfl, List.nil_infix, fun h => absurd h Bool.false_ne_true,
    fun h => absurd h Bool.false_ne_true⟩
  page := rfl
  ordinals := by
    intro _ _ _ _ h
    cases h

omit [DecidableEq K] in
/-- The margins of an admitted viewport leave the last row and the first row in reach. -/
theorem margins {start stop : Nat} (hstart : start ≤ stop) (hstop : stop ≤ L.total) :
    start - marginPages * L.page ≤ L.total - 1 ∧
      (L.total = 0 ∨ 0 < min (stop + marginPages * L.page) L.total) := by
  have hpos := L.page_pos
  unfold marginPages
  omega

/-- A reply that is not dropped is applied to the run with the slot freed. -/
theorem apply_cases {rows : List ρ} {fetch : RunFetch K} {estimated : Bool} {seq : Nat}
    (hpending : run.pending = some seq) :
    run.apply L.key rows L.total fetch estimated seq =
      match fetch with
      | .forward after => run.freed.applyForward L.key rows L.total after
      | .backward before => run.freed.applyBackward L.key rows before
      | .jump ordinal _ => run.freed.applyJump rows L.total ordinal estimated := by
  rw [KeyedRun.apply.eq_def]
  refine (if_neg (not_not_intro hpending)).trans ?_
  cases fetch <;> rfl

theorem apply_stale {rows : List ρ} {fetch : RunFetch K} {estimated : Bool} {seq : Nat}
    (hpending : run.pending ≠ some seq) :
    run.apply L.key rows L.total fetch estimated seq = run := by
  rw [KeyedRun.apply.eq_def, if_pos hpending]

/-- Where a jump is answered from, and under which mark. -/
theorem answer_jump (near : Option Nat) (exact : Bool) {ordinal : Nat}
    (hordinal : ordinal ≤ L.total - 1) (hnear : ∀ p ∈ near, p < L.total) :
    ∃ p, (L.answer near (.jump ordinal exact)).1 = (L.rows.drop p).take L.page ∧ p ≤ L.total - 1 ∧
      ((L.answer near (.jump ordinal exact)).2 = true → ordinal ≠ 0) ∧
      ((L.answer near (.jump ordinal exact)).2 = false → p = ordinal ∨ ordinal = 0) ∧
      (((L.answer near (.jump ordinal exact)).2 = false → ordinal = 0 → 0 < p →
          L.total < p + L.page) ↔
        (ordinal = 0 → exact = false → ∀ p ∈ near, 0 < p → L.total < p + L.page)) := by
  cases exact with
  | true => exact ⟨ordinal, rfl, hordinal, fun h => absurd h Bool.false_ne_true,
      fun _ => Or.inl rfl, iff_of_true (fun _ h0 hpos => by omega)
        (fun _ h => absurd h.symm Bool.false_ne_true)⟩
  | false =>
    cases near with
    | none => exact ⟨ordinal, rfl, hordinal, fun h => absurd h Bool.false_ne_true,
        fun _ => Or.inl rfl, iff_of_true (fun _ h0 hpos => by omega) (fun _ _ p hp => by cases hp)⟩
    | some p =>
      have hp := hnear p rfl
      refine ⟨p, rfl, by omega, fun h => ?_, fun h => ?_, ?_⟩
      · exact bne_iff_ne.mp h
      · exact Or.inr (bne_eq_false_iff_eq.mp h)
      · constructor
        · rintro h h0 - q ⟨⟩ hpos
          exact h (bne_eq_false_iff_eq.mpr h0) h0 hpos
        · exact fun h _ h0 hpos => h h0 rfl p rfl hpos

theorem step_eq_some {t : GridWorld ρ K} {e : GridEvent K} :
    L.step w e = some t ↔ L.Admits w e ∧ L.next w e = t := by
  rw [step, Option.ite_none_right_eq_some, Option.some_inj]

theorem traced_step {t : GridWorld ρ K} {e : GridEvent K} (h : L.Traced w)
    (hstep : L.step w e = some t) : L.Traced t := by
  obtain ⟨hadmits, rfl⟩ := step_eq_some.mp hstep
  cases e with
  | ensure start stop =>
    refine ⟨?_, ?_, fun ordinal exact limit seq hmem => ?_⟩
    · show L.Shaped (w.buffer.ensure L.key start stop L.total).1.run
      rw [← shaped_shown, GridBuffer.ensure_shown, shaped_shown]
      exact shaped_evict h.shaped _ _
    · show (w.buffer.ensure L.key start stop L.total).1.page = L.page
      rw [GridBuffer.ensure_page, h.page]
    · rcases List.mem_append.mp hmem with hold | hnew
      · exact h.ordinals _ _ _ _ hold
      · obtain ⟨rfl, hlt⟩ := GridBuffer.ensure_sent hnew
        have hstop : stop ≤ L.total := hadmits.2
        omega
  | goToRow ordinal =>
    refine ⟨⟨h.shaped.page, List.nil_infix, fun hest => absurd hest Bool.false_ne_true,
      fun hend => absurd hend Bool.false_ne_true⟩, h.page, fun o exact limit seq hmem => ?_⟩
    rcases List.mem_append.mp hmem with hold | hnew
    · exact h.ordinals _ _ _ _ hold
    · obtain ⟨hjump, -⟩ := Prod.mk.inj (List.mem_singleton.mp hnew)
      obtain ⟨rfl, -⟩ := RunFetch.jump.inj hjump
      exact Nat.min_le_right _ _
  | failed seq =>
    refine ⟨?_, h.page, h.ordinals⟩
    show L.Shaped (w.buffer.run.failed seq)
    rw [← shaped_shown, KeyedRun.failed_shown, shaped_shown]
    exact h.shaped
  | reply fetch seq near =>
    refine ⟨?_, h.page, h.ordinals⟩
    show L.Shaped (w.buffer.run.apply L.key _ L.total fetch _ seq)
    by_cases hpending : w.buffer.run.pending = some seq
    · have hfreed := shaped_freed h.shaped
      rw [apply_cases hpending]
      cases fetch with
      | forward after => exact shaped_applyForward near hfreed after
      | backward before => exact shaped_applyBackward near hfreed before
      | jump ordinal exact =>
        obtain ⟨p, hrows, hp, -⟩ := answer_jump near exact
          (h.ordinals _ _ _ _ hadmits.1) hadmits.2
        show L.Shaped (KeyedRun.applyJump _ (L.answer near (.jump ordinal exact)).1 _ _ _)
        rw [hrows]
        exact shaped_applyJump hfreed (by omega)
    · rw [apply_stale hpending]
      exact h.shaped

/-- One step keeps a consistent run consistent exactly when its reply keeps the promise. -/
theorem consistent_step {t : GridWorld ρ K} {e : GridEvent K} (htraced : L.Traced w)
    (h : L.Consistent w.buffer.run) (hstep : L.step w e = some t) :
    L.Consistent t.buffer.run ↔ L.Keeps w e := by
  obtain ⟨hadmits, rfl⟩ := step_eq_some.mp hstep
  obtain ⟨before, after, hgood⟩ := good_of_consistent h
  cases e with
  | ensure start stop =>
    refine iff_of_true ?_ trivial
    have hmargins := margins hadmits.1 hadmits.2
    show L.Consistent (w.buffer.ensure L.key start stop L.total).1.run
    rw [consistent_iff_good, GridBuffer.ensure_shown, htraced.page, ← consistent_iff_good]
    obtain ⟨_, _, hkept⟩ := good_evict hmargins.1 hmargins.2 htraced.shaped ⟨before, after, hgood⟩
    exact consistent_of_good hkept
  | goToRow ordinal =>
    refine iff_of_true ⟨List.nil_infix, ?_, fun h => absurd h Bool.false_ne_true,
      fun h => absurd h Bool.false_ne_true⟩ trivial
    intro _ r hr
    cases hr
  | failed seq =>
    refine iff_of_true ?_ trivial
    show L.Consistent (w.buffer.run.failed seq)
    rw [consistent_iff_good, KeyedRun.failed_shown, ← consistent_iff_good]
    exact h
  | reply fetch seq near =>
    show L.Consistent (w.buffer.run.apply L.key _ L.total fetch _ seq) ↔ _
    by_cases hpending : w.buffer.run.pending = some seq
    · have hshape := shaped_freed htraced.shaped
      have hfreed := good_freed hgood
      have hkeeps : L.Keeps w (.reply fetch seq near) ↔ L.Lands w.buffer.run near fetch :=
        ⟨fun h => h hadmits hpending, fun h _ _ => h⟩
      rw [apply_cases hpending, hkeeps]
      cases fetch with
      | forward k =>
        obtain ⟨_, _, hkept⟩ := good_applyForward near hshape hfreed k
        exact iff_of_true (consistent_of_good hkept) trivial
      | backward k =>
        rw [consistent_iff_good]
        simp only [good_shown]
        exact good_applyBackward_iff near hshape hfreed k
      | jump ordinal exact =>
        obtain ⟨p, hrows, hp, hnear, hexact, hiff⟩ := answer_jump near exact
          (htraced.ordinals _ _ _ _ hadmits.1) hadmits.2
        show L.Consistent (KeyedRun.applyJump _ (L.answer near (.jump ordinal exact)).1 _ _ _) ↔ _
        rw [hrows, consistent_iff_good]
        simp only [good_shown]
        refine Iff.trans ?_ hiff
        exact good_applyJump_iff hshape.page hp hnear hexact
    · rw [apply_stale hpending]
      exact iff_of_true h fun _ hp => absurd hp hpending

/-- Whatever the viewport does and in whatever order replies arrive, the run is a window of
the result throughout exactly when every reply keeps the promise. -/
theorem consistent_iff_keeps (L : Listing ρ K) (events : List (GridEvent K)) :
    Machine.Always L.step (fun w => L.Consistent w.buffer.run) L.opened events ↔
      Machine.Meets L.step L.Keeps L.opened events := by
  refine Machine.always_iff_of_inv (fun _ _ _ => traced_step)
    (fun _ _ _ => consistent_step) ?_ traced_opened ?_
  · intro w e hnone
    have hrefused : ¬ L.Admits w e := fun hadmits => by
      rw [step, if_pos hadmits] at hnone
      cases hnone
    cases e with
    | reply fetch seq near => exact fun hadmits => absurd hadmits hrefused
    | _ => trivial
  · refine ⟨List.nil_infix, ?_, fun h => absurd h Bool.false_ne_true,
      fun h => absurd h Bool.false_ne_true⟩
    intro _ r hr
    cases hr

theorem twenty_pos : 0 < 20 := by decide

/-- Keys 0 to 40, then 1000 to 1020. -/
def gapped : Listing Nat Nat where
  rows := List.range 41 ++ (List.range 21).map (· + 1000)
  key := id
  distinct := by decide
  page := 20
  page_pos := twenty_pos

/-- The first page fails, the user scrolls to row 10 and the jump lands behind the gap, at
row 41. One page further up the run is taken to start at row 0, with row 21 as its first. -/
def scrollsUp : List (GridEvent Nat) :=
  [.ensure 0 20, .failed 1, .ensure 10 30, .reply (.jump 10 false) 2 (some 41), .ensure 5 25,
    .reply (.backward 1000) 3 none]

theorem gapped_misplaced :
    ¬ Machine.Always gapped.step (fun w => gapped.Consistent w.buffer.run) gapped.opened scrollsUp := by
  intro h
  have hrun : (Machine.run gapped.step gapped.opened scrollsUp).map
      (fun w => (w.buffer.run.estimated, w.buffer.run.anchor, w.buffer.run.rows.head?)) =
        some (false, 0, some 21) := by
    decide
  obtain ⟨w, hw, hshown⟩ := Option.map_eq_some_iff.mp hrun
  obtain ⟨hexact, hanchor, hfirst⟩ : w.buffer.run.estimated = false ∧ w.buffer.run.anchor = 0 ∧
      w.buffer.run.rows.head? = some 21 := by
    simpa using hshown
  have hplace := (Machine.always_run h hw).anchored hexact 21 hfirst
  rw [hanchor] at hplace
  cases hplace

end Listing

end RedDb.Grid
