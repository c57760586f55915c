import Mathlib.Data.List.TakeWhile

/-!
# Texts cut at delimiters

`split_once`, `rsplit_once` and the first two pieces of `split`, over any type of symbols. A
piece that lacks the delimiter is passed over whole, so the writer that puts one delimiter
between two such pieces is undone.
-/

namespace Delimited

variable {α : Type*}

section Once

variable [DecidableEq α]

/-- `split_once`: what stands before the first `c`, and behind it. -/
@[grind =] def splitOnce (c : α) : List α → Option (List α × List α)
  | [] => none
  | a :: rest =>
    if a = c then some ([], rest)
    else (splitOnce c rest).map fun (head, tail) => (a :: head, tail)

/-- `rsplit_once`: what stands before the last `c`, and behind it. -/
def rsplitOnce (c : α) (l : List α) : Option (List α × List α) :=
  (splitOnce c l.reverse).map fun (tail, head) => (head.reverse, tail.reverse)

theorem splitOnce_none {c : α} {l : List α} (h : c ∉ l) : splitOnce c l = none := by
  induction l with
  | nil => rfl
  | cons a rest ih =>
    have ha : a ≠ c := fun heq => h (heq ▸ List.mem_cons_self)
    rw [splitOnce, if_neg ha, ih fun hmem => h (List.mem_cons_of_mem a hmem)]
    rfl

theorem splitOnce_append {c : α} {p : List α} (h : c ∉ p) (q : List α) :
    splitOnce c (p ++ c :: q) = some (p, q) := by
  induction p with
  | nil => exact if_pos rfl
  | cons a rest ih =>
    have ha : a ≠ c := fun heq => h (heq ▸ List.mem_cons_self)
    rw [List.cons_append, splitOnce, if_neg ha, ih fun hmem => h (List.mem_cons_of_mem a hmem)]
    rfl

/-- Either there is no `c`, or the cut is at the first one. -/
theorem splitOnce_cases (c : α) (l : List α) : (splitOnce c l = none ∧ c ∉ l) ∨
      ∃ p q, splitOnce c l = some (p, q) ∧ l = p ++ c :: q ∧ c ∉ p := by
  by_cases hmem : c ∈ l
  · obtain ⟨p, q, rfl, hp⟩ := List.eq_append_cons_of_mem hmem
    exact Or.inr ⟨p, q, splitOnce_append hp q, rfl, hp⟩
  · exact Or.inl ⟨splitOnce_none hmem, hmem⟩

theorem rsplitOnce_none {c : α} {l : List α} (h : c ∉ l) : rsplitOnce c l = none := by
  unfold rsplitOnce
  rw [splitOnce_none fun hmem => h (List.mem_reverse.mp hmem)]
  rfl

theorem rsplitOnce_append (p : List α) {c : α} {q : List α} (h : c ∉ q) :
    rsplitOnce c (p ++ c :: q) = some (p, q) := by
  unfold rsplitOnce
  rw [List.reverse_append, List.reverse_cons, List.append_assoc, List.singleton_append,
    splitOnce_append fun hmem => h (List.mem_reverse.mp hmem), Option.map_some]
  dsimp only
  rw [List.reverse_reverse, List.reverse_reverse]

/-- Either there is no `c`, or the cut is at the last one. -/
theorem rsplitOnce_cases (c : α) (l : List α) : (rsplitOnce c l = none ∧ c ∉ l) ∨
      ∃ p q, rsplitOnce c l = some (p, q) ∧ l = p ++ c :: q ∧ c ∉ q := by
  by_cases hmem : c ∈ l
  · obtain ⟨p, q, hrev, hp⟩ := List.eq_append_cons_of_mem (List.mem_reverse.mpr hmem)
    have hl : l = q.reverse ++ c :: p.reverse := by
      rw [← List.reverse_reverse l, hrev]
      simp
    have hnot : c ∉ p.reverse := fun h => hp (List.mem_reverse.mp h)
    refine Or.inr ⟨q.reverse, p.reverse, ?_, hl, hnot⟩
    rw [hl]
    exact rsplitOnce_append q.reverse hnot
  · exact Or.inl ⟨rsplitOnce_none hmem, hmem⟩

end Once

/-! ## Pieces -/

variable (p : α → Bool)

/-- `split(p).next()`. -/
def firstPiece (l : List α) : List α := l.takeWhile fun c => !p c

/-- `split(p).nth(1)`. -/
def secondPiece (l : List α) : Option (List α) :=
  match l.dropWhile fun c => !p c with
  | [] => none
  | _ :: rest => some (firstPiece p rest)

variable {p} {l : List α}

theorem firstPiece_all (h : ∀ a ∈ l, p a = false) : firstPiece p l = l := by
  refine List.takeWhile_eq_self_iff.mpr fun a ha => ?_
  rw [h a ha]
  rfl

theorem firstPiece_append (h : ∀ a ∈ l, p a = false) {c : α} (hc : p c = true) (q : List α) :
    firstPiece p (l ++ c :: q) = l := by
  unfold firstPiece
  rw [List.takeWhile_append_of_pos fun a ha => by rw [h a ha]; rfl,
    List.takeWhile_cons_of_neg (by rw [hc]; exact Bool.false_ne_true), List.append_nil]

theorem firstPiece_clear {a : α} (h : a ∈ firstPiece p l) : p a = false := by
  have hnot := List.mem_takeWhile_imp h
  rwa [Bool.not_eq_true'] at hnot

theorem secondPiece_none (h : ∀ a ∈ l, p a = false) : secondPiece p l = none := by
  have hdrop : l.dropWhile (fun c => !p c) = [] := by
    refine List.dropWhile_eq_nil_iff.mpr fun a ha => ?_
    rw [h a ha]
    rfl
  unfold secondPiece
  rw [hdrop]

theorem secondPiece_append (h : ∀ a ∈ l, p a = false) {c : α} (hc : p c = true) (q : List α) :
    secondPiece p (l ++ c :: q) = some (firstPiece p q) := by
  unfold secondPiece
  rw [List.dropWhile_append_of_pos fun a ha => by rw [h a ha]; rfl,
    List.dropWhile_cons_of_neg (by rw [hc]; exact Bool.false_ne_true)]

/-! ## Joined lists -/

/-- Two separators never overlap: where one begins inside the other, it stands before it. -/
def NoOverlap (sep : List α) : Prop :=
  ∀ z y y' : List α, z ≠ [] → sep ++ y = z ++ (sep ++ y') → sep <+: z

/-- Two different symbols do not overlap with themselves. -/
theorem noOverlap_pair {a b : α} (h : a ≠ b) : NoOverlap [a, b] := by
  intro z y y' hz heq
  cases z with
  | nil => exact absurd rfl hz
  | cons c z =>
    cases z with
    | nil =>
      obtain ⟨-, heq⟩ := List.cons.inj heq
      exact absurd (List.cons.inj heq).1.symm h
    | cons d z =>
      obtain ⟨rfl, htail⟩ := List.cons.inj heq
      obtain ⟨rfl, -⟩ := List.cons.inj htail
      exact ⟨z, rfl⟩

/-- A list joined of pieces without the separator is joined of no other list that is as long. -/
theorem intercalate_inj {sep : List α} (hsep : NoOverlap sep) {xs ys : List (List α)}
    (hfree : ∀ x ∈ xs, ¬ sep <:+: x) (hlength : xs.length ≤ ys.length)
    (h : sep.intercalate xs = sep.intercalate ys) : xs ≠ [] → ys = xs := by
  intro hne
  induction xs generalizing ys with
  | nil => exact absurd rfl hne
  | cons x xs ih =>
    cases ys with
    | nil => exact absurd hlength (by simp)
    | cons y ys =>
      cases xs with
      | nil =>
        cases ys with
        | nil => rw [show x = y by simpa using h]
        | cons y' ys =>
          rw [List.intercalate_singleton, List.intercalate_cons_cons] at h
          exact absurd ⟨y, sep.intercalate (y' :: ys), h.symm⟩ (hfree x List.mem_cons_self)
      | cons x' xs =>
        cases ys with
        | nil => exact absurd hlength (by simp)
        | cons y' ys =>
          have hrest := fun z hz => hfree z (List.mem_cons_of_mem x hz)
          rw [List.intercalate_cons_cons, List.intercalate_cons_cons, List.append_assoc, List.append_assoc] at h
          obtain ⟨z, rfl, hz⟩ | ⟨z, rfl, hz⟩ := List.append_eq_append_iff.mp h
          · by_cases hempty : z = []
            · subst hempty
              rw [List.nil_append, List.append_cancel_left_eq] at hz
              rw [List.append_nil, ih hrest (Nat.le_of_succ_le_succ hlength) hz (List.cons_ne_nil _ _)]
            -- `y` holds a separator: behind it is one piece more than there is room for
            obtain ⟨w, rfl⟩ := hsep z _ _ hempty hz
            rw [List.append_assoc, List.append_cancel_left_eq, ← List.append_assoc,
              ← List.intercalate_cons_cons] at hz
            have hmore := ih hrest (by simp only [List.length_cons] at hlength ⊢; omega) hz (List.cons_ne_nil _ _)
            have hsame := congrArg List.length hmore
            simp only [List.length_cons] at hlength hsame
            omega
          · by_cases hempty : z = []
            · subst hempty
              rw [List.nil_append, List.append_cancel_left_eq] at hz
              rw [List.append_nil, ih hrest (Nat.le_of_succ_le_succ hlength) hz.symm (List.cons_ne_nil _ _)]
            · obtain ⟨w, hw⟩ := hsep z _ _ hempty hz
              exact absurd ⟨y, w, by rw [List.append_assoc, hw]⟩ (hfree _ List.mem_cons_self)

/-- Where a piece holds the separator, another list as long is joined to the same. -/
theorem exists_intercalate_eq {sep : List α} (hsep : sep ≠ []) {xs : List (List α)} (htwo : 2 ≤ xs.length)
    {x : List α} (hx : x ∈ xs) (h : sep <:+: x) :
    ∃ ys : List (List α), ys.length = xs.length ∧ ys ≠ xs ∧ sep.intercalate ys = sep.intercalate xs := by
  have hshorter : ∀ {a b : List α}, a ++ sep ++ b ≠ a := by
    intro a b heq
    have hlength := congrArg List.length heq
    have hpos := List.length_pos_iff.mpr hsep
    simp only [List.length_append] at hlength
    omega
  induction xs with
  | nil => exact absurd hx List.not_mem_nil
  | cons y xs ih =>
    cases xs with
    | nil => exact absurd htwo (by simp)
    | cons y' xs =>
      obtain rfl | hx := List.mem_cons.mp hx
      · obtain ⟨a, b, rfl⟩ := h
        refine ⟨a :: (b ++ sep ++ y') :: xs, rfl, fun heq => hshorter (List.cons.inj heq).1.symm, ?_⟩
        cases xs <;> simp [List.intercalate_cons_cons, List.append_assoc]
      cases xs with
      | nil =>
        obtain rfl := List.mem_singleton.mp hx
        obtain ⟨a, b, rfl⟩ := h
        refine ⟨[y ++ sep ++ a, b], rfl, fun heq => hshorter (List.cons.inj heq).1, ?_⟩
        simp [List.intercalate_cons_cons, List.append_assoc]
      | cons y'' xs =>
        obtain ⟨ys, hlength, hne, heq⟩ := ih (by simp) hx
        cases ys with
        | nil => exact absurd hlength (by simp)
        | cons z ys =>
          refine ⟨y :: z :: ys, congrArg Nat.succ hlength, fun h => hne (List.cons.inj h).2, ?_⟩
          rw [List.intercalate_cons_cons, heq, ← List.intercalate_cons_cons]

end Delimited
