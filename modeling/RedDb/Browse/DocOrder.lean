import RedDb.Browse.DocWindow
import RedDb.Lib.Machine
import Mathlib.Data.List.Infix
import Mathlib.Data.List.Nodup

/-!
# RedDb — a browse shows a piece of the collection

The collection is fixed: a list of documents with distinct ids. The viewport moves,
requests are answered in any order or fail, and a reply may report a count that is only an
estimate. The window is to show each ordinal's own document.

* `placed_extendEnd_iff`, `placed_applyJump_iff` — where a page lands, and where the total
  moves it;
* `consistent_iff_lands` — the window is consistent exactly as long as no page is placed by
  a total that does not fit it.
-/

namespace RedDb.Browse

structure Listing (δ ι : Type*) where
  docs : List δ
  docId : δ → ι
  distinct : (docs.map docId).Nodup
  page : Nat
  page_pos : 0 < page
  /-- No sort is applied. -/
  keyed : Bool

structure World (δ ι : Type*) where
  window : DocWindow δ
  sent : List (DocFetch ι)

/-- The browse starts over, the viewport moves, a reply arrives with the count it reports,
or a failure does. -/
inductive BrowseEvent (ι : Type*) where
  | seed
  | ensure (start stop : Nat)
  | reply (fetch : DocFetch ι) (total : Option Nat)
  | failed (seq : Nat)

namespace Listing

variable {δ ι : Type*} (L : Listing δ ι)

def size : Nat := L.docs.length

/-! ## What is promised -/

/-- Every ordinal shows its own document or none, nothing is left out in between or shown
twice, and an end flag means that the end is resident. -/
structure Consistent (w : DocWindow δ) : Prop where
  exact : ∀ i d, w.docAt i = some d → L.docs[i]? = some d
  gapless : ∀ i j k, i ≤ j → j ≤ k → (w.docAt i).isSome → (w.docAt k).isSome → (w.docAt j).isSome
  once : ∀ i j d, w.docAt i = some d → w.docAt j = some d → i = j
  start : w.atStart = true → w.docs ≠ [] → w.docs.head? = L.docs.head?
  finish : w.atEnd = true → w.docs ≠ [] → w.docs.getLast? = L.docs.getLast?

/-- The run is the piece of the collection that starts at the anchor. -/
structure Placed (w : DocWindow δ) : Prop where
  slice : w.docs <+: L.docs.drop w.anchor
  start : w.atStart = true → w.docs ≠ [] → w.anchor = 0
  finish : w.atEnd = true → w.docs ≠ [] → w.anchor + w.docs.length = L.size

variable {L} {w : DocWindow δ}

theorem getElem?_inj {i j : Nat} {d : δ} (hi : L.docs[i]? = some d) (hj : L.docs[j]? = some d) :
    i = j := by
  obtain ⟨hi', hi⟩ := List.getElem?_eq_some_iff.mp hi
  obtain ⟨hj', hj⟩ := List.getElem?_eq_some_iff.mp hj
  exact (L.distinct.of_map).getElem_inj_iff.mp (hi.trans hj.symm)

/-- Documents stand at one place. -/
theorem place_unique {docs : List δ} {a b : Nat} (hne : docs ≠ []) (ha : docs <+: L.docs.drop a)
    (hb : docs <+: L.docs.drop b) : a = b := by
  obtain ⟨d, rest, rfl⟩ := List.exists_cons_of_ne_nil hne
  have hat : ∀ {n}, d :: rest <+: L.docs.drop n → L.docs[n]? = some d := by
    rintro n ⟨tail, htail⟩
    rw [← List.head?_drop, ← htail]
    rfl
  exact getElem?_inj (hat ha) (hat hb)

theorem slice_size {docs : List δ} {a : Nat} (hne : docs ≠ []) (h : docs <+: L.docs.drop a) :
    a + docs.length ≤ L.size := by
  have hlen := h.length_le
  have hpos := List.length_pos_iff.mpr hne
  rw [List.length_drop] at hlen
  unfold size
  omega

theorem docAt_isSome {i : Nat} :
    (w.docAt i).isSome ↔ w.anchor ≤ i ∧ i < w.anchor + w.docs.length := by
  unfold DocWindow.docAt
  split
  · rw [isSome_getElem?]
    omega
  · simp
    omega

theorem consistent_of_placed (h : L.Placed w) : L.Consistent w := by
  have hexact : ∀ i d, w.docAt i = some d → L.docs[i]? = some d := by
    intro i d hi
    unfold DocWindow.docAt at hi
    split at hi
    · rename_i hle
      obtain ⟨tail, htail⟩ := h.slice
      have hget : (L.docs.drop w.anchor)[i - w.anchor]? = some d := by
        rw [← htail, List.getElem?_append_left (List.getElem?_eq_some_iff.mp hi).1, hi]
      rwa [List.getElem?_drop, Nat.add_sub_cancel' hle] at hget
    · cases hi
  refine ⟨hexact, ?_, fun i j d hi hj => getElem?_inj (hexact i d hi) (hexact j d hj), ?_, ?_⟩
  · intro i j k hij hjk hi hk
    rw [docAt_isSome] at hi hk ⊢
    omega
  · intro hstart hne
    have hslice := h.slice
    rw [h.start hstart hne, List.drop_zero] at hslice
    obtain ⟨tail, htail⟩ := hslice
    rw [← htail, List.head?_append_of_ne_nil _ hne]
  · intro hend hne
    obtain ⟨tail, htail⟩ := h.slice
    have hlen := congrArg List.length htail
    have hall := h.finish hend hne
    rw [List.length_append, List.length_drop] at hlen
    unfold size at hall
    obtain rfl : tail = [] := List.length_eq_zero_iff.mp (by omega)
    rw [List.append_nil] at htail
    have hpos := List.length_pos_iff.mpr hne
    rw [htail, List.getLast?_drop, if_neg (by omega)]

theorem placed_of_consistent (h : L.Consistent w) : L.Placed w := by
  have hslice : w.docs <+: L.docs.drop w.anchor := by
    rw [List.prefix_iff_getElem?]
    intro i hi
    rw [List.getElem?_drop]
    refine h.exact _ _ ?_
    rw [DocWindow.docAt, if_pos (Nat.le_add_right _ _), Nat.add_sub_cancel_left,
      List.getElem?_eq_getElem hi]
  refine ⟨hslice, ?_, ?_⟩
  · intro hstart hne
    obtain ⟨d, rest, hdocs⟩ := List.exists_cons_of_ne_nil hne
    have hhead := h.start hstart hne
    rw [hdocs, List.head?_cons, List.head?_eq_getElem?] at hhead
    refine (getElem?_inj hhead.symm (h.exact w.anchor d ?_)).symm
    rw [DocWindow.docAt, if_pos (Nat.le_refl _), Nat.sub_self, hdocs]
    rfl
  · intro hend hne
    have hlast := h.finish hend hne
    have hpos := List.length_pos_iff.mpr hne
    rw [List.getLast?_eq_getElem?, List.getLast?_eq_getElem?] at hlast
    have hget : w.docs[w.docs.length - 1]? = some (w.docs.getLast hne) := by
      rw [← List.getLast?_eq_getElem?, List.getLast?_eq_some_getLast hne]
    have hmine : L.docs[w.anchor + (w.docs.length - 1)]? = some (w.docs.getLast hne) := by
      refine h.exact _ _ ?_
      rw [DocWindow.docAt, if_pos (Nat.le_add_right _ _), Nat.add_sub_cancel_left, hget]
    have hplace := getElem?_inj hmine (hlast.symm.trans hget)
    have hle := slice_size hne hslice
    unfold size at hle ⊢
    omega

theorem consistent_iff_placed : L.Consistent w ↔ L.Placed w :=
  ⟨placed_of_consistent, consistent_of_placed⟩

/-- What is promised does not look at the book-keeping of requests. -/
theorem placed_shown : L.Placed w.shown ↔ L.Placed w :=
  ⟨fun h => ⟨h.slice, h.start, h.finish⟩, fun h => ⟨h.slice, h.start, h.finish⟩⟩

theorem placed_freed (h : L.Placed w) (total : Option Nat) : L.Placed (w.freed total) :=
  ⟨h.slice, h.start, h.finish⟩

theorem placed_empty {w : DocWindow δ} (h : w.docs = []) : L.Placed w where
  slice := by
    rw [h]
    exact List.nil_prefix
  start := fun _ hne => absurd h hne
  finish := fun _ hne => absurd h hne

/-! ## Eviction -/

theorem placed_popFront {lo : Nat} (hcond : w.tooEarly lo = true) (h : L.Placed w) :
    L.Placed w.popFront := by
  simp only [DocWindow.tooEarly, Bool.and_eq_true, Bool.not_eq_true',
    List.isEmpty_eq_false_iff] at hcond
  obtain ⟨d, rest, hdocs⟩ := List.exists_cons_of_ne_nil hcond.2
  have htail : w.popFront.docs = rest := by rw [DocWindow.popFront, hdocs, List.tail_cons]
  refine ⟨?_, fun hstart => absurd hstart Bool.false_ne_true, fun hend _ => ?_⟩
  · obtain ⟨tail, hslice⟩ := h.slice
    rw [htail]
    show rest <+: L.docs.drop (w.anchor + 1)
    rw [← List.tail_drop, ← hslice, hdocs]
    exact ⟨tail, rfl⟩
  · have hall := h.finish hend hcond.2
    rw [hdocs, List.length_cons] at hall
    rw [htail]
    show w.anchor + 1 + rest.length = L.size
    omega

theorem placed_popBack {hi : Nat} (hcond : w.tooLate hi = true) (h : L.Placed w) :
    L.Placed w.popBack := by
  simp only [DocWindow.tooLate, Bool.and_eq_true, Bool.not_eq_true',
    List.isEmpty_eq_false_iff] at hcond
  exact ⟨(List.dropLast_prefix _).trans h.slice, fun hstart _ => h.start hstart hcond.2,
    fun hend => absurd hend Bool.false_ne_true⟩

theorem placed_evict (h : L.Placed w) (lo hi : Nat) : L.Placed (w.evict lo hi) :=
  (WhileLoop.visits_run _ _).inv (fun _ => placed_popBack)
    ((WhileLoop.visits_run _ _).inv (fun _ => placed_popFront) h)

/-! ## Where a page lands -/

/-- A window that shows documents from `a` on is placed exactly when it is anchored there. -/
theorem placed_iff_anchor {a : Nat} (hne : w.docs ≠ []) (hslice : w.docs <+: L.docs.drop a)
    (hstart : w.anchor = a → w.atStart = true → a = 0)
    (hend : w.atEnd = true → a + w.docs.length = L.size) : L.Placed w ↔ w.anchor = a := by
  constructor
  · exact fun h => place_unique hne h.slice hslice
  · intro ha
    refine ⟨by rwa [ha], fun hs _ => by rw [ha]; exact hstart ha hs, fun he _ => ?_⟩
    rw [ha]
    exact hend he

/-- The end of the collection, counted back from a total, is where it is. -/
def Fits (L : Listing δ ι) (start total : Nat) : Prop :=
  total = L.size ∨ start = 0 ∧ total ≤ L.size

theorem fits_iff {start total : Nat} (hstart : start < L.size) :
    total - (L.size - start) = start ↔ L.Fits start total := by
  unfold Fits
  omega

theorem slice_grow {docs : List δ} {a : Nat} (h : docs <+: L.docs.drop a) (n : Nat) :
    docs ++ (L.docs.drop (a + docs.length)).take n <+: L.docs.drop a := by
  obtain ⟨tail, htail⟩ := h
  have hrest : L.docs.drop (a + docs.length) = tail := by
    rw [← List.drop_drop, ← htail, List.drop_left]
  rw [hrest, ← htail, List.prefix_append_right_inj]
  exact List.take_prefix n tail

theorem page_length (p : Nat) : ((L.docs.drop p).take L.page).length = min L.page (L.size - p) := by
  rw [List.length_take, List.length_drop, size]

theorem placed_extendEnd_iff (hpage : w.page = L.page) (h : L.Placed w)
    (hempty : w.docs = [] → w.anchor = 0) :
    L.Placed (w.extendEnd ((L.docs.drop (w.anchor + w.docs.length)).take L.page)) ↔
      (L.size < w.anchor + w.docs.length + L.page → 0 < L.size →
        ∀ total ∈ w.total, L.Fits w.anchor total) := by
  have hpos := L.page_pos
  have hfrom : w.anchor + w.docs.length ≤ L.size := by
    by_cases hnil : w.docs = []
    · rw [hempty hnil, hnil]
      exact Nat.zero_le _
    · exact slice_size hnil h.slice
  have hlen := L.page_length (w.anchor + w.docs.length)
  have hgrown := slice_grow h.slice L.page
  generalize (L.docs.drop (w.anchor + w.docs.length)).take L.page = docs at hlen hgrown
  rw [DocWindow.extendEnd_eq]
  by_cases hsize : L.size = 0
  · have hnil : w.docs ++ docs = [] := by
      rw [← List.length_eq_zero_iff, List.length_append]
      omega
    exact iff_of_true (placed_empty hnil) fun _ hlt => by omega
  have hne : w.docs ++ docs ≠ [] := by
    intro hnil
    obtain ⟨hw, hd⟩ := List.append_eq_nil_iff.mp hnil
    rw [hd, List.length_nil, hw, List.length_nil, hempty hw] at hlen
    omega
  have hstart : w.atStart = true → w.anchor = 0 := by
    intro hs
    by_cases hnil : w.docs = []
    · exact hempty hnil
    · exact h.start hs hnil
  have hgrow : (w.docs ++ docs).length = w.docs.length + docs.length := List.length_append
  have hend : docs.length < w.page → w.anchor + (w.docs ++ docs).length = L.size := by omega
  let grown : DocWindow δ :=
    { w with docs := w.docs ++ docs, atEnd := docs.length < w.page, anchor := w.pinned docs }
  have hiff : L.Placed grown ↔ w.pinned docs = w.anchor :=
    placed_iff_anchor (w := grown) hne hgrown (fun _ => hstart)
      fun he => hend (of_decide_eq_true he)
  refine hiff.trans ?_
  unfold DocWindow.pinned
  cases w.total with
  | none => exact iff_of_true rfl fun _ _ _ hmem => by cases hmem
  | some total =>
    dsimp only
    split
    · rename_i hshort
      have hcount : (w.docs ++ docs).length = L.size - w.anchor := by omega
      have hlt : w.anchor < L.size := by
        have := List.length_pos_iff.mpr hne
        omega
      rw [hcount, fits_iff hlt]
      constructor
      · rintro hfits - - _ ⟨⟩
        exact hfits
      · exact fun hall => hall (by omega) (by omega) total rfl
    · rename_i hlong
      exact iff_of_true rfl fun hshort => by omega

theorem placed_applyJump_iff (hpage : w.page = L.page) (h : L.Placed w) (skip : Nat) :
    L.Placed (w.applyJump ((L.docs.drop skip).take L.page) skip) ↔
      if w.docs ≠ [] ∧ skip = w.anchor + w.docs.length then
        L.size < skip + L.page → ∀ total ∈ w.total, L.Fits w.anchor total
      else if w.docs ≠ [] ∧ skip + L.page = w.anchor then True
      else skip < L.size → ∀ total ∈ w.total,
        if L.size < skip + L.page then L.Fits skip total else skip = 0 ∨ skip + L.page ≤ total := by
  have hpos := L.page_pos
  have hlen := L.page_length skip
  have hsome : (!w.docs.isEmpty) = true ↔ w.docs ≠ [] := by simp
  unfold DocWindow.applyJump
  simp only [Bool.and_eq_true, hsome, decide_eq_true_eq]
  by_cases hflush : w.docs ≠ [] ∧ skip = w.anchor + w.docs.length
  · obtain ⟨hne, rfl⟩ := hflush
    rw [if_pos ⟨hne, rfl⟩, if_pos ⟨hne, rfl⟩,
      placed_extendEnd_iff hpage h fun hnil => absurd hnil hne]
    have hsize := slice_size hne h.slice
    have hcount := List.length_pos_iff.mpr hne
    exact ⟨fun hall hshort => hall hshort (by omega), fun hall hshort _ => hall hshort⟩
  · rw [if_neg hflush, if_neg hflush]
    have hfront : (w.docs ≠ [] ∧ skip + ((L.docs.drop skip).take L.page).length = w.anchor) ↔
        w.docs ≠ [] ∧ skip + L.page = w.anchor := by
      refine and_congr_right fun hne => ?_
      have hsize := slice_size hne h.slice
      have hcount := List.length_pos_iff.mpr hne
      omega
    by_cases hbefore : w.docs ≠ [] ∧ skip + L.page = w.anchor
    · rw [if_pos (hfront.mpr hbefore), if_pos hbefore]
      obtain ⟨hne, hanchor⟩ := hbefore
      have hsize := slice_size hne h.slice
      have hcount := List.length_pos_iff.mpr hne
      have hsplit : L.docs.drop skip = (L.docs.drop skip).take L.page ++ L.docs.drop w.anchor := by
        rw [← hanchor, ← List.drop_drop, List.take_append_drop]
      refine iff_of_true ⟨?_, fun hs _ => beq_iff_eq.mp hs, fun he _ => ?_⟩ trivial
      · show (L.docs.drop skip).take L.page ++ w.docs <+: L.docs.drop skip
        nth_rewrite 2 [hsplit]
        exact (List.prefix_append_right_inj _).mpr h.slice
      · have hend := h.finish he hne
        show skip + ((L.docs.drop skip).take L.page ++ w.docs).length = L.size
        rw [List.length_append]
        omega
    · rw [if_neg (mt hfront.mp hbefore), if_neg hbefore]
      have hslice : (L.docs.drop skip).take L.page <+: L.docs.drop skip := List.take_prefix _ _
      generalize (L.docs.drop skip).take L.page = docs at hlen hslice
      by_cases hreach : skip < L.size
      · have hne : docs ≠ [] := by
          intro hnil
          rw [hnil, List.length_nil] at hlen
          omega
        have hend : docs.length < w.page → skip + docs.length = L.size := by omega
        rw [placed_iff_anchor (a := skip) hne hslice (fun ha hs => ha ▸ beq_iff_eq.mp hs)
          fun he => hend (of_decide_eq_true he)]
        cases htotal : w.total with
        | none => exact iff_of_true rfl fun _ _ hmem => by cases hmem
        | some total =>
          have hone : (∀ t ∈ some total, if L.size < skip + L.page then L.Fits skip t
              else skip = 0 ∨ skip + L.page ≤ t) ↔
              if L.size < skip + L.page then L.Fits skip total
              else skip = 0 ∨ skip + L.page ≤ total := by
            refine ⟨fun hall => hall total rfl, ?_⟩
            rintro hone _ ⟨⟩
            exact hone
          rw [hone]
          simp only [hreach, true_imp_iff]
          by_cases hshort : L.size < skip + L.page
          · have hcount : docs.length = L.size - skip := by omega
            have hless : docs.length < w.page := by omega
            rw [if_pos hshort, if_pos hless, hcount, fits_iff hreach]
          · have hcount : docs.length = L.page := by omega
            have hmore : ¬ docs.length < w.page := by omega
            rw [if_neg hshort, if_neg hmore, hcount]
            omega
      · have hnil : docs = [] := List.length_eq_zero_iff.mp (by omega)
        exact iff_of_true (placed_empty hnil) fun hlt => absurd hlt hreach

variable [DecidableEq ι]

/-! ## Replies -/

/-- How many documents stand in front of the one with the id. -/
def place (L : Listing δ ι) (k : ι) : Nat := L.docs.findIdx fun d => L.docId d == k

/-- The documents a seek is answered with. Under a sort only a position is answered. -/
def answer (L : Listing δ ι) (seek : DocSeek ι) (limit : Nat) : Option (List δ) :=
  match seek with
  | .forward none => some (L.docs.take limit)
  | .forward (some after) =>
    if L.keyed then some ((L.docs.drop (L.place after + 1)).take limit) else none
  | .backward before =>
    -- Read descending from the bound, then turned around.
    if L.keyed then some ((L.docs.take (L.place before)).reverse.take limit).reverse else none
  | .jump skip => some ((L.docs.drop skip).take limit)

theorem place_of_getElem? {i : Nat} {d : δ} (h : L.docs[i]? = some d) :
    L.place (L.docId d) = i := by
  have hmem : d ∈ L.docs := List.mem_of_getElem? h
  have hlt : L.place (L.docId d) < L.docs.length :=
    List.findIdx_lt_length_of_exists ⟨d, hmem, beq_self_eq_true _⟩
  have hid : L.docId L.docs[L.place (L.docId d)] = L.docId d :=
    beq_iff_eq.mp (List.findIdx_getElem (w := hlt))
  have hsame : L.docs[L.place (L.docId d)] = d :=
    List.inj_on_of_nodup_map L.distinct (List.getElem_mem hlt) hmem hid
  exact getElem?_inj (List.getElem?_eq_some_iff.mpr ⟨hlt, hsame⟩) h

theorem place_lastId {k : ι} (h : L.Placed w) (hk : w.lastId L.docId = some k) :
    w.docs ≠ [] ∧ L.place k + 1 = w.anchor + w.docs.length := by
  obtain ⟨d, hd, rfl⟩ := Option.map_eq_some_iff.mp hk
  have hne : w.docs ≠ [] := by
    rintro hnil
    rw [hnil] at hd
    cases hd
  have hpos := List.length_pos_iff.mpr hne
  rw [List.getLast?_eq_getElem?] at hd
  have hget : L.docs[w.anchor + (w.docs.length - 1)]? = some d := by
    obtain ⟨tail, htail⟩ := h.slice
    rw [← List.getElem?_drop, ← htail, List.getElem?_append_left (by omega), hd]
  rw [place_of_getElem? hget]
  exact ⟨hne, by omega⟩

theorem place_firstId {k : ι} (h : L.Placed w) (hk : w.firstId L.docId = some k) :
    w.docs ≠ [] ∧ L.place k = w.anchor := by
  obtain ⟨d, hd, rfl⟩ := Option.map_eq_some_iff.mp hk
  obtain ⟨rest, hdocs⟩ : ∃ rest, w.docs = d :: rest := by
    cases hdocs : w.docs with
    | nil =>
      rw [hdocs] at hd
      cases hd
    | cons e rest =>
      rw [hdocs] at hd
      obtain rfl := Option.some.inj hd
      exact ⟨rest, rfl⟩
  have hget : L.docs[w.anchor]? = some d := by
    obtain ⟨tail, htail⟩ := h.slice
    rw [← List.head?_drop, ← htail, hdocs]
    rfl
  exact ⟨by rw [hdocs]; exact List.cons_ne_nil _ _, place_of_getElem? hget⟩

/-! ## The machine -/

def opened (L : Listing δ ι) : World δ ι := ⟨.new L.page, []⟩

/-- A reply answers a request, and reports a count only if asked to. -/
def Admits (L : Listing δ ι) (w : World δ ι) : BrowseEvent ι → Prop
  | .reply fetch total =>
    fetch ∈ w.sent ∧ (fetch.wantTotal = false → total = none) ∧
      (L.answer fetch.seek fetch.limit).isSome
  | _ => True

instance (w : World δ ι) (e : BrowseEvent ι) : Decidable (L.Admits w e) :=
  match e with
  | .reply fetch total =>
    inferInstanceAs (Decidable (fetch ∈ w.sent ∧ (fetch.wantTotal = false → total = none) ∧
      (L.answer fetch.seek fetch.limit).isSome))
  | .seed | .ensure _ _ | .failed _ => inferInstanceAs (Decidable True)

def next (L : Listing δ ι) (w : World δ ι) : BrowseEvent ι → World δ ι
  | .seed =>
    let (window, sent) := w.window.seed
    ⟨window, w.sent ++ sent⟩
  | .ensure start stop =>
    let (window, sent, _) := w.window.ensure L.docId L.keyed start stop
    ⟨window, w.sent ++ sent⟩
  | .reply fetch total =>
    let docs := (L.answer fetch.seek fetch.limit).getD []
    { w with window := w.window.apply L.docId docs fetch.seek fetch.seq total }
  | .failed seq => { w with window := w.window.runFailed seq }

def step (L : Listing δ ι) (w : World δ ι) (e : BrowseEvent ι) : Option (World δ ι) :=
  if L.Admits w e then some (L.next w e) else none

/-- The total fits the page. A short page is the end of the collection, and is counted back
from the total; a full page that takes the run's place is not put behind the total. -/
def Lands (L : Listing δ ι) (w : DocWindow δ) (total : Option Nat) : DocSeek ι → Prop
  | .forward none =>
    w.docs = [] → L.size < L.page → 0 < L.size → ∀ t ∈ total, L.Fits 0 t
  | .forward (some after) =>
    w.lastId L.docId = some after → L.size < w.anchor + w.docs.length + L.page →
      ∀ t ∈ total, L.Fits w.anchor t
  | .backward _ => True
  | .jump skip =>
    if w.docs ≠ [] ∧ skip = w.anchor + w.docs.length then
      L.size < skip + L.page → ∀ t ∈ total, L.Fits w.anchor t
    else if w.docs ≠ [] ∧ skip + L.page = w.anchor then True
    else skip < L.size → ∀ t ∈ total,
      if L.size < skip + L.page then L.Fits skip t else skip = 0 ∨ skip + L.page ≤ t

/-- A reply that is not dropped lands where its documents stand. -/
def Keeps (L : Listing δ ι) (w : World δ ι) : BrowseEvent ι → Prop
  | .reply fetch total =>
    L.Admits w (.reply fetch total) → w.window.pending = some fetch.seq →
      L.Lands w.window (total <|> w.window.total) fetch.seek
  | _ => True

/-! ## One reply -/

theorem placed_applyForward_none_iff (hpage : w.page = L.page) (h : L.Placed w) :
    L.Placed (w.applyForward L.docId (L.docs.take L.page) none) ↔
      (w.docs = [] → L.size < L.page → 0 < L.size → ∀ t ∈ w.total, L.Fits 0 t) := by
  unfold DocWindow.applyForward
  by_cases hnil : w.docs = []
  · have hlast : w.lastId L.docId = none := by
      rw [DocWindow.lastId, hnil]
      rfl
    rw [if_neg (not_not_intro hlast.symm), if_pos (List.isEmpty_iff.mpr hnil)]
    have hfresh : L.Placed { w with anchor := 0, atStart := true } := placed_empty hnil
    have hiff := placed_extendEnd_iff (w := { w with anchor := 0, atStart := true }) hpage hfresh
      fun _ => rfl
    dsimp only at hiff
    rw [hnil, List.length_nil, Nat.add_zero, List.drop_zero, Nat.zero_add] at hiff
    rw [hnil]
    exact hiff.trans ⟨fun hall _ => hall, fun hall => hall rfl⟩
  · have hlast : w.lastId L.docId ≠ none := by
      rw [DocWindow.lastId]
      intro hnone
      exact hnil (List.getLast?_eq_none_iff.mp (Option.map_eq_none_iff.mp hnone))
    rw [if_pos hlast.symm]
    exact iff_of_true h fun h' => absurd h' hnil

theorem placed_applyForward_some_iff (hpage : w.page = L.page) (h : L.Placed w) (k : ι) :
    L.Placed (w.applyForward L.docId ((L.docs.drop (L.place k + 1)).take L.page) (some k)) ↔
      (w.lastId L.docId = some k → L.size < w.anchor + w.docs.length + L.page →
        ∀ t ∈ w.total, L.Fits w.anchor t) := by
  unfold DocWindow.applyForward
  by_cases hlast : w.lastId L.docId = some k
  · obtain ⟨hne, hplace⟩ := place_lastId h hlast
    have hsize := slice_size hne h.slice
    have hpos := List.length_pos_iff.mpr hne
    rw [if_neg (not_not_intro hlast.symm), if_neg (mt List.isEmpty_iff.mp hne), hplace,
      placed_extendEnd_iff hpage h fun hnil => absurd hnil hne]
    exact ⟨fun hall _ hshort => hall hshort (by omega), fun hall hshort _ => hall hlast hshort⟩
  · rw [if_pos (Ne.symm hlast)]
    exact iff_of_true h fun h' => absurd h' hlast

theorem placed_applyBackward (hpage : w.page = L.page) (h : L.Placed w) (k : ι) :
    L.Placed (w.applyBackward L.docId
      ((L.docs.take (L.place k)).reverse.take L.page).reverse k) := by
  unfold DocWindow.applyBackward
  by_cases hfirst : w.firstId L.docId = some k
  · obtain ⟨hne, hplace⟩ := place_firstId h hfirst
    have hsize := slice_size hne h.slice
    have hempty : w.docs.isEmpty = false := List.isEmpty_eq_false_iff.mpr hne
    have hdocs : ((L.docs.take w.anchor).reverse.take L.page).reverse =
        (L.docs.take w.anchor).drop (w.anchor - L.page) := by
      have hle : w.anchor ≤ L.docs.length := by
        unfold size at hsize
        omega
      rw [List.take_reverse, List.reverse_reverse, List.length_take, Nat.min_eq_left hle]
    have hlen : ((L.docs.take w.anchor).drop (w.anchor - L.page)).length =
        min L.page w.anchor := by
      unfold size at hsize
      rw [List.length_drop, List.length_take]
      omega
    rw [hempty, hfirst, hplace, hdocs]
    have hsplit : L.docs.drop (w.anchor - L.page) =
        (L.docs.take w.anchor).drop (w.anchor - L.page) ++ L.docs.drop w.anchor := by
      conv_lhs => rw [← List.take_append_drop w.anchor L.docs]
      refine List.drop_append_of_le_length ?_
      unfold size at hsize
      rw [List.length_take]
      omega
    have hgrown : (L.docs.take w.anchor).drop (w.anchor - L.page) ++ w.docs <+:
        L.docs.drop (w.anchor - L.page) := by
      rw [hsplit]
      exact (List.prefix_append_right_inj _).mpr h.slice
    generalize (L.docs.take w.anchor).drop (w.anchor - L.page) = docs at hlen hgrown
    have hanchor : w.anchor - docs.length = w.anchor - L.page := by omega
    have hfinish : w.atEnd = true → w.anchor - L.page + (docs ++ w.docs).length = L.size := by
      intro he
      have hall := h.finish he hne
      rw [List.length_append]
      omega
    simp only [ne_eq, not_true_eq_false, decide_false, Bool.or_self, Bool.false_eq_true, if_false]
    split
    · rename_i hstart
      have hzero : w.anchor - L.page = 0 := by omega
      rw [hzero] at hgrown hfinish
      exact ⟨hgrown, fun _ _ => rfl, fun he _ => hfinish he⟩
    rename_i hmore
    refine ⟨?_, fun hs _ => ?_, fun he _ => ?_⟩
    · show docs ++ w.docs <+: L.docs.drop (w.anchor - docs.length)
      rwa [hanchor]
    · have hzero := h.start hs hne
      omega
    · show w.anchor - docs.length + (docs ++ w.docs).length = L.size
      rw [hanchor]
      exact hfinish he
  · have hdrop : (w.docs.isEmpty || decide (some k ≠ w.firstId L.docId)) = true := by
      rw [Bool.or_eq_true]
      exact Or.inr (decide_eq_true (Ne.symm hfirst))
    rw [if_pos hdrop]
    exact h

/-! ## Runs -/

/-- What holds of a world whatever was replied. -/
structure Traced (L : Listing δ ι) (w : World δ ι) : Prop where
  page : w.window.page = L.page
  limit : ∀ fetch ∈ w.sent, fetch.limit = L.page

theorem apply_page {docs : List δ} {seek : DocSeek ι} {seq : Nat} {total : Option Nat} :
    (w.apply L.docId docs seek seq total).page = w.page := by
  have hextend : ∀ v : DocWindow δ, (v.extendEnd docs).page = v.page := by
    intro v
    rw [DocWindow.extendEnd_eq]
  unfold DocWindow.apply
  split
  · rfl
  split
  · unfold DocWindow.applyForward
    split
    · rfl
    · split
      · exact hextend _
      · exact hextend _
  · unfold DocWindow.applyBackward
    dsimp only
    split
    · rfl
    · split <;> rfl
  · unfold DocWindow.applyJump
    dsimp only
    split
    · exact hextend _
    · split <;> rfl

theorem step_eq_some {w t : World δ ι} {e : BrowseEvent ι} :
    L.step w e = some t ↔ L.Admits w e ∧ L.next w e = t := by
  rw [step, Option.ite_none_right_eq_some, Option.some_inj]

omit [DecidableEq ι] in
theorem traced_opened (L : Listing δ ι) : L.Traced L.opened where
  page := Nat.max_eq_left L.page_pos
  limit := fun _ hmem => absurd hmem List.not_mem_nil

theorem traced_step {w t : World δ ι} {e : BrowseEvent ι} (h : L.Traced w)
    (hstep : L.step w e = some t) : L.Traced t := by
  obtain ⟨-, rfl⟩ := step_eq_some.mp hstep
  cases e with
  | seed =>
    refine ⟨h.page, fun fetch hmem => ?_⟩
    rcases List.mem_append.mp hmem with hold | hnew
    · exact h.limit fetch hold
    · rw [List.mem_singleton.mp hnew]
      exact h.page
  | ensure start stop =>
    refine ⟨?_, fun fetch hmem => ?_⟩
    · have hshown := congrArg DocWindow.page
        (DocWindow.ensure_shown L.docId L.keyed w.window start stop)
      exact hshown.trans ((DocWindow.evict_page w.window _ _).trans h.page)
    · rcases List.mem_append.mp hmem with hold | hnew
      · exact h.limit fetch hold
      · exact (DocWindow.ensure_limit hnew).trans h.page
  | reply fetch total => exact ⟨apply_page.trans h.page, h.limit⟩
  | failed seq =>
    refine ⟨?_, h.limit⟩
    have hshown := congrArg DocWindow.page (DocWindow.runFailed_shown w.window seq)
    exact hshown.trans h.page

/-- A reply that is taken keeps the window placed exactly when the total fits it. -/
theorem placed_apply_iff {seek : DocSeek ι} {docs : List δ} {seq : Nat} {total : Option Nat}
    (hpage : w.page = L.page) (h : L.Placed w) (hpending : w.pending = some seq)
    (hdocs : L.answer seek L.page = some docs) :
    L.Placed (w.apply L.docId docs seek seq total) ↔ L.Lands w (total <|> w.total) seek := by
  have hfreed := placed_freed h total
  have hfreedPage : (w.freed total).page = L.page := hpage
  rw [DocWindow.apply.eq_def, if_neg (not_not_intro hpending)]
  cases seek with
  | forward after =>
    cases after with
    | none =>
      obtain rfl := Option.some.inj hdocs
      exact placed_applyForward_none_iff hfreedPage hfreed
    | some k =>
      rw [answer, Option.ite_none_right_eq_some] at hdocs
      obtain rfl := Option.some.inj hdocs.2
      exact placed_applyForward_some_iff hfreedPage hfreed k
  | backward k =>
    rw [answer, Option.ite_none_right_eq_some] at hdocs
    obtain rfl := Option.some.inj hdocs.2
    exact iff_of_true (placed_applyBackward hfreedPage hfreed k) trivial
  | jump skip =>
    obtain rfl := Option.some.inj hdocs
    exact placed_applyJump_iff hfreedPage hfreed skip

/-- One step keeps a consistent window consistent exactly when its reply keeps the promise. -/
theorem consistent_step {w t : World δ ι} {e : BrowseEvent ι} (htraced : L.Traced w)
    (h : L.Consistent w.window) (hstep : L.step w e = some t) :
    L.Consistent t.window ↔ L.Keeps w e := by
  obtain ⟨hadmits, rfl⟩ := step_eq_some.mp hstep
  rw [consistent_iff_placed] at h ⊢
  cases e with
  | seed => exact iff_of_true (placed_empty rfl) trivial
  | ensure start stop =>
    refine iff_of_true ?_ trivial
    show L.Placed (w.window.ensure L.docId L.keyed start stop).1
    rw [← placed_shown, DocWindow.ensure_shown, placed_shown]
    exact placed_evict h _ _
  | failed seq =>
    refine iff_of_true ?_ trivial
    show L.Placed (w.window.runFailed seq)
    rw [← placed_shown, DocWindow.runFailed_shown, placed_shown]
    exact h
  | reply fetch total =>
    show L.Placed (w.window.apply L.docId _ fetch.seek fetch.seq total) ↔ _
    by_cases hpending : w.window.pending = some fetch.seq
    · obtain ⟨docs, hdocs⟩ := Option.isSome_iff_exists.mp hadmits.2.2
      have hlimit := htraced.limit fetch hadmits.1
      have hkeeps : L.Keeps w (.reply fetch total) ↔
          L.Lands w.window (total <|> w.window.total) fetch.seek :=
        ⟨fun hk => hk hadmits hpending, fun hlands _ _ => hlands⟩
      rw [hkeeps, hdocs, Option.getD_some]
      exact placed_apply_iff htraced.page h hpending (hlimit ▸ hdocs)
    · rw [DocWindow.apply.eq_def, if_pos hpending]
      exact iff_of_true h fun _ hp => absurd hp hpending

/-- **The browse window.** Whatever the viewport does and in whatever order replies arrive,
the window shows every ordinal's own document throughout exactly when every reply that is
taken lands under a total that fits it. -/
theorem consistent_iff_lands (L : Listing δ ι) (events : List (BrowseEvent ι)) :
    Machine.Always L.step (fun w => L.Consistent w.window) L.opened events ↔
      Machine.Meets L.step L.Keeps L.opened events := by
  refine Machine.always_iff_of_inv (fun _ _ _ => traced_step)
    (fun _ _ _ => consistent_step) ?_ (traced_opened L) ?_
  · intro w e hnone
    have hrefused : ¬ L.Admits w e := fun hadmits => by
      rw [step, if_pos hadmits] at hnone
      cases hnone
    cases e with
    | reply fetch total => exact fun hadmits => absurd hadmits hrefused
    | seed | ensure _ _ | failed _ => trivial
  · exact consistent_of_placed (placed_empty rfl)

/-- Documents 1, 2 and 3, of which the server counts five. -/
def threeDocs : Listing Nat Nat where
  docs := [1, 2, 3]
  docId := id
  distinct := by decide
  page := 20
  page_pos := by decide
  keyed := true

/-- The first page is the whole collection, and is pinned to ordinal 2. -/
theorem threeDocs_misplaced :
    ¬ Machine.Always threeDocs.step (fun w => threeDocs.Consistent w.window) threeDocs.opened
      [.seed, .reply ⟨.forward none, 20, 1, true⟩ (some 5)] := by
  intro h
  have hrun : (Machine.run threeDocs.step threeDocs.opened
      [.seed, .reply ⟨.forward none, 20, 1, true⟩ (some 5)]).map (fun w => w.window.docAt 2) =
        some (some 1) := by
    decide
  obtain ⟨w, hw, hshown⟩ := Option.map_eq_some_iff.mp hrun
  have hplace := (Machine.always_run h hw).exact 2 1 hshown
  cases hplace

end Listing

end RedDb.Browse
