import Mathlib
import RedDb.Lib.ByteText

/-!
# Merging two ordered lists

A two-pointer merge holds the heads of two lists against each other and moves
past one of them or past both. `walk` is the list of what it met. The comparison
it uses may be coarser than the order the lists are sorted in: it may take two
heads for equal that are not. What the merge says is exact as long as that
happens to no two heads it meets.

* `walk_left`, `walk_right`   — every element is met once, in its place;
* `walk_swap` — the other way round it is a mirror;
* `Exact.mem_left`, `…`       — what an exact merge says of each element;
* `Exact.ascending` — and that it says so in order;
* `exact_iff_apart` — a merge is exact when its comparison tells apart
  neighbours of the two lists.
-/

namespace MergeWalk

variable {α κ : Type*}

/-- What a merge meets: an element of one list alone, or one of each. -/
inductive Met (α : Type*) where
  | left (a : α)
  | right (b : α)
  | both (a b : α)

def Met.left? : Met α → Option α
  | .left a => some a
  | .right _ => none
  | .both a _ => some a

def Met.right? : Met α → Option α
  | .left _ => none
  | .right b => some b
  | .both _ b => some b

def Met.isLeft : Met α → Bool
  | .left _ => true
  | _ => false

def Met.isRight : Met α → Bool
  | .right _ => true
  | _ => false

/-- A pair with the property. -/
def Met.isBoth (p : α → α → Bool) : Met α → Bool
  | .both a b => p a b
  | _ => false

/-- The same, met from the other side. -/
def Met.swap : Met α → Met α
  | .left a => .right a
  | .right b => .left b
  | .both a b => .both b a

@[simp] theorem left?_left (a : α) : (Met.left a).left? = some a := rfl

@[simp] theorem left?_right (b : α) : (Met.right b).left? = none := rfl

@[simp] theorem left?_both (a b : α) : (Met.both a b).left? = some a := rfl

@[simp] theorem right?_left (a : α) : (Met.left a).right? = none := rfl

@[simp] theorem right?_right (b : α) : (Met.right b).right? = some b := rfl

@[simp] theorem right?_both (a b : α) : (Met.both a b).right? = some b := rfl

@[grind =] def walk (cmp : α → α → Ordering) : List α → List α → List (Met α)
  | [], [] => []
  | a :: as, [] => .left a :: walk cmp as []
  | [], b :: bs => .right b :: walk cmp [] bs
  | a :: as, b :: bs =>
    match cmp a b with
    | .lt => .left a :: walk cmp as (b :: bs)
    | .gt => .right b :: walk cmp (a :: as) bs
    | .eq => .both a b :: walk cmp as bs
termination_by as bs => as.length + bs.length

variable {m : Met α}

section Cover

variable {cmp : α → α → Ordering} {a b : α} {as bs : List α}

@[simp] theorem walk_nil : walk cmp [] [] = [] := by
  rw [walk]

@[simp] theorem walk_cons_nil : walk cmp (a :: as) [] = .left a :: walk cmp as [] := by
  rw [walk]

@[simp] theorem walk_nil_cons : walk cmp [] (b :: bs) = .right b :: walk cmp [] bs := by
  rw [walk]

theorem walk_lt (h : cmp a b = .lt) :
    walk cmp (a :: as) (b :: bs) = .left a :: walk cmp as (b :: bs) := by
  rw [walk]
  simp only [h]

theorem walk_gt (h : cmp a b = .gt) :
    walk cmp (a :: as) (b :: bs) = .right b :: walk cmp (a :: as) bs := by
  rw [walk]
  simp only [h]

theorem walk_eq (h : cmp a b = .eq) :
    walk cmp (a :: as) (b :: bs) = .both a b :: walk cmp as bs := by
  rw [walk]
  simp only [h]

variable (cmp as bs)

/-- The merge the other way round is a mirror. -/
theorem walk_swap : walk (fun b a => (cmp a b).swap) bs as = (walk cmp as bs).map Met.swap := by
  induction as, bs using walk.induct cmp with
  | case1 => simp
  | case2 a as ih | case3 b bs ih => simpa [Met.swap] using ih
  | case4 a as b bs h ih => simpa [walk_lt h, walk, h, Met.swap] using ih
  | case5 a as b bs h ih => simpa [walk_gt h, walk, h, Met.swap] using ih
  | case6 a as b bs h ih => simpa [walk_eq h, walk, h, Met.swap] using ih

theorem walk_left : (walk cmp as bs).filterMap Met.left? = as := by
  induction as, bs using walk.induct cmp with
  | case1 => simp
  | case2 a as ih | case3 b bs ih => simpa using ih
  | case4 a as b bs h ih => simpa [walk_lt h] using ih
  | case5 a as b bs h ih => simpa [walk_gt h, List.filterMap_cons] using ih
  | case6 a as b bs h ih => simpa [walk_eq h] using ih

theorem walk_right : (walk cmp as bs).filterMap Met.right? = bs := by
  have hswap : Met.left? ∘ Met.swap = (Met.right? (α := α)) := by
    funext m
    cases m <;> rfl
  rw [← hswap, ← List.filterMap_map, ← walk_swap, walk_left]

/-- Everything on the left is met alone or in a pair, whatever the pairs are sorted by. -/
theorem length_left (p : α → α → Bool) :
    (walk cmp as bs).countP Met.isLeft + (walk cmp as bs).countP (Met.isBoth p) +
      (walk cmp as bs).countP (Met.isBoth fun a b => !p a b) = as.length := by
  conv_rhs => rw [← walk_left cmp as bs]
  induction walk cmp as bs with
  | nil => rfl
  | cons m ms ih =>
    cases m with
    | left a =>
      simp [List.countP_cons, Met.isLeft, Met.isBoth, ← ih]
      omega
    | right b => simp [Met.isLeft, Met.isBoth, List.filterMap_cons, ← ih]
    | both a b =>
      cases h : p a b <;> simp [Met.isLeft, Met.isBoth, h, ← ih] <;> omega

theorem length_right (p : α → α → Bool) :
    (walk cmp as bs).countP Met.isRight + (walk cmp as bs).countP (Met.isBoth p) +
      (walk cmp as bs).countP (Met.isBoth fun a b => !p a b) = bs.length := by
  conv_rhs => rw [← walk_right cmp as bs]
  induction walk cmp as bs with
  | nil => rfl
  | cons m ms ih =>
    cases m with
    | left a => simp [Met.isRight, Met.isBoth, List.filterMap_cons, ← ih]
    | right b =>
      simp [List.countP_cons, Met.isRight, Met.isBoth, ← ih]
      omega
    | both a b =>
      cases h : p a b <;> simp [Met.isRight, Met.isBoth, h, ← ih] <;> omega

variable {cmp as bs}

theorem mem_of_left (h : m ∈ walk cmp as bs) (hm : m.left? = some a) : a ∈ as := by
  rw [← walk_left cmp as bs]
  exact List.mem_filterMap.mpr ⟨m, h, hm⟩

theorem mem_of_right (h : m ∈ walk cmp as bs) (hm : m.right? = some b) : b ∈ bs := by
  rw [← walk_right cmp as bs]
  exact List.mem_filterMap.mpr ⟨m, h, hm⟩

variable (cmp) in
/-- Every element is met. -/
theorem exists_left (bs : List α) (h : a ∈ as) : ∃ m ∈ walk cmp as bs, m.left? = some a := by
  rw [← walk_left cmp as bs] at h
  exact List.mem_filterMap.mp h

variable (cmp) in
theorem exists_right (as : List α) (h : b ∈ bs) : ∃ m ∈ walk cmp as bs, m.right? = some b := by
  rw [← walk_right cmp as bs] at h
  exact List.mem_filterMap.mp h

theorem cmp_of_both (h : Met.both a b ∈ walk cmp as bs) : cmp a b = .eq := by
  induction as, bs using walk.induct cmp with
  | case1 => simp at h
  | case2 a as ih | case3 b bs ih => exact ih (by simpa using h)
  | case4 a as b bs hcmp ih => exact ih (by simpa [walk_lt hcmp] using h)
  | case5 a as b bs hcmp ih => exact ih (by simpa [walk_gt hcmp] using h)
  | case6 a as b bs hcmp ih =>
    rw [walk_eq hcmp, List.mem_cons] at h
    rcases h with hhead | h
    · obtain ⟨rfl, rfl⟩ := Met.both.inj hhead
      exact hcmp
    · exact ih h

theorem length_walk_le : (walk cmp as bs).length ≤ as.length + bs.length := by
  induction as, bs using walk.induct cmp with
  | case1 => simp
  | case2 a as ih | case3 b bs ih => simpa using ih
  | case4 a as b bs h ih =>
    rw [walk_lt h]
    simp at ih ⊢
    omega
  | case5 a as b bs h ih =>
    rw [walk_gt h]
    simp at ih ⊢
    omega
  | case6 a as b bs h ih =>
    rw [walk_eq h]
    simp
    omega

end Cover

variable {a b : α}

section Keys

variable (key : α → κ) {cmp : α → α → Ordering} {as bs : List α}

/-- The key a merge meets; of a pair, the left one's. -/
def Met.keyOf : Met α → κ
  | .left a => key a
  | .right b => key b
  | .both a _ => key a

/-- The merge pairs equal keys only. -/
def Exact (cmp : α → α → Ordering) (as bs : List α) : Prop :=
  ∀ a b, Met.both a b ∈ walk cmp as bs → key a = key b

variable {key}

/-- A merge that is exact stays so past its first element. -/
theorem Exact.of_cons {as' bs' : List α} (h : Exact key cmp as bs)
    (hw : walk cmp as bs = m :: walk cmp as' bs') : Exact key cmp as' bs' := by
  intro a b hab
  exact h a b (hw ▸ List.mem_cons_of_mem _ hab)

theorem keyOf_left (h : m.left? = some a) : m.keyOf key = key a := by
  cases m with
  | right b => cases h
  | left a' | both a' b => exact congrArg key (Option.some.inj h)

theorem Exact.keyOf_right (he : Exact key cmp as bs) (hm : m ∈ walk cmp as bs)
    (h : m.right? = some b) : m.keyOf key = key b := by
  cases m with
  | left a => cases h
  | right b' => exact congrArg key (Option.some.inj h)
  | both a b' => exact (he a b' hm).trans (congrArg key (Option.some.inj h))

theorem mem_swap {ms : List (Met α)} : m ∈ ms.map Met.swap ↔ m.swap ∈ ms := by
  constructor
  · rintro h
    obtain ⟨m', hm, rfl⟩ := List.mem_map.mp h
    cases m' <;> exact hm
  · exact fun h => List.mem_map.mpr ⟨_, h, by cases m <;> rfl⟩

theorem Exact.swap (he : Exact key cmp as bs) : Exact key (fun b a => (cmp a b).swap) bs as := by
  intro b a h
  rw [walk_swap, mem_swap] at h
  exact (he a b h).symm

variable (key) in
/-- The keys a merge meets are those of its lists. -/
theorem met_key_mem (h : m ∈ walk cmp as bs) :
    (∃ a ∈ as, key a = m.keyOf key) ∨ ∃ b ∈ bs, key b = m.keyOf key := by
  cases m with
  | left a => exact Or.inl ⟨a, mem_of_left h rfl, rfl⟩
  | right b => exact Or.inr ⟨b, mem_of_right h rfl, rfl⟩
  | both a b => exact Or.inl ⟨a, mem_of_left h rfl, rfl⟩

end Keys

section Order

variable [LinearOrder κ] (key : α → κ)

/-- What the comparison tells apart, the keys tell apart the same way. -/
structure Coarsens (cmp : α → α → Ordering) : Prop where
  lt : ∀ {a b}, cmp a b = .lt → key a < key b
  gt : ∀ {a b}, cmp a b = .gt → key b < key a

/-- Sorted by key, without repetitions. -/
def Ascending (as : List α) : Prop := as.Pairwise fun a b => key a < key b

/-- The comparison tells every element from the first one of the other list after
it, unless it has an equal there. -/
def Apart (cmp : α → α → Ordering) (as bs : List α) : Prop :=
  ∀ a ∈ as, ∀ b ∈ bs, cmp a b = .eq →
    (key a < key b → ∃ b' ∈ bs, key a ≤ key b' ∧ key b' < key b) ∧
    (key b < key a → ∃ a' ∈ as, key b ≤ key a' ∧ key a' < key a)

variable {key} {cmp : α → α → Ordering} {as bs : List α}

theorem Ascending.head (h : Ascending key (a :: as)) {x : α} (hx : x ∈ as) : key a < key x :=
  List.rel_of_pairwise_cons h hx

theorem Ascending.tail {a : α} (h : Ascending key (a :: as)) : Ascending key as :=
  List.Pairwise.of_cons h

theorem Ascending.eq_of_key (h : Ascending key as) (ha : a ∈ as) (hb : b ∈ as)
    (hkey : key a = key b) : a = b := by
  by_contra hne
  have hpair := List.Pairwise.forall_of_forall_of_flip
    (R := fun x y => x ≠ y → key x ≠ key y) (l := as)
    (fun x _ h => absurd rfl h) (h.imp fun h _ => h.ne) (h.imp fun h _ => h.ne')
  exact hpair ha hb hne hkey

theorem Ascending.le (h : Ascending key (a :: as)) (hb : b ∈ a :: as) : key a ≤ key b := by
  rcases List.mem_cons.mp hb with rfl | hb
  · exact le_rfl
  · exact (h.head hb).le

/-- An exact merge meets the keys in order, each once. -/
theorem Exact.ascending (hc : Coarsens key cmp) (ha : Ascending key as) (hb : Ascending key bs)
    (he : Exact key cmp as bs) :
    (walk cmp as bs).Pairwise fun m m' => m.keyOf key < m'.keyOf key := by
  -- past the head, what is met comes from lists whose keys all lie after it
  have hafter : ∀ {k : κ} {as bs : List α}, (∀ a ∈ as, k < key a) → (∀ b ∈ bs, k < key b) →
      ∀ m ∈ walk cmp as bs, k < m.keyOf key := by
    intro k as bs hka hkb m hm
    rcases met_key_mem key hm with ⟨a, ha, hkey⟩ | ⟨b, hb, hkey⟩
    · exact hkey ▸ hka a ha
    · exact hkey ▸ hkb b hb
  induction as, bs using walk.induct cmp with
  | case1 => simp
  | case2 a as ih =>
    rw [walk_cons_nil, List.pairwise_cons]
    exact ⟨hafter (fun _ => ha.head) (by simp), ih ha.tail hb (he.of_cons walk_cons_nil)⟩
  | case3 b bs ih =>
    rw [walk_nil_cons, List.pairwise_cons]
    exact ⟨hafter (by simp) (fun _ => hb.head), ih ha hb.tail (he.of_cons walk_nil_cons)⟩
  | case4 a as b bs hlt ih =>
    rw [walk_lt hlt, List.pairwise_cons]
    refine ⟨hafter (fun _ => ha.head) ?_, ih ha.tail hb (he.of_cons (walk_lt hlt))⟩
    intro b' hb'
    exact (hc.lt hlt).trans_le (hb.le hb')
  | case5 a as b bs hgt ih =>
    rw [walk_gt hgt, List.pairwise_cons]
    refine ⟨hafter ?_ (fun _ => hb.head), ih ha hb.tail (he.of_cons (walk_gt hgt))⟩
    intro a' ha'
    exact (hc.gt hgt).trans_le (ha.le ha')
  | case6 a as b bs heq ih =>
    have hkey : key a = key b := he a b (by simp [walk_eq heq])
    rw [walk_eq heq, List.pairwise_cons]
    refine ⟨hafter (fun _ => ha.head) ?_, ih ha.tail hb.tail (he.of_cons (walk_eq heq))⟩
    intro b' hb'
    exact hkey.trans_lt (hb.head hb')

theorem Coarsens.swap (hc : Coarsens key cmp) : Coarsens key fun b a => (cmp a b).swap :=
  ⟨fun h => hc.gt (Ordering.swap_eq_lt.mp h), fun h => hc.lt (Ordering.swap_eq_gt.mp h)⟩

section Classify

variable (hc : Coarsens key cmp) (ha : Ascending key as) (hb : Ascending key bs)
  (he : Exact key cmp as bs)

include hc ha hb he

/-- An exact merge meets every key once. -/
theorem Exact.met_eq {m' : Met α} (hm : m ∈ walk cmp as bs) (hm' : m' ∈ walk cmp as bs)
    (h : m.keyOf key = m'.keyOf key) : m = m' := by
  have hwalk : Ascending (Met.keyOf key) (walk cmp as bs) := he.ascending hc ha hb
  exact hwalk.eq_of_key hm hm' h

/-- What an exact merge meets on the left alone has no equal on the right. -/
theorem left_only (h : Met.left a ∈ walk cmp as bs) : ∀ b ∈ bs, key b ≠ key a := by
  intro b hb' hkey
  obtain ⟨m, hm, hmb⟩ := exists_right cmp as hb'
  have hsame := he.met_eq hc ha hb hm h ((he.keyOf_right hm hmb).trans hkey)
  rw [hsame] at hmb
  cases hmb

/-- **An exact merge classifies by key**: left alone. -/
theorem Exact.mem_left : Met.left a ∈ walk cmp as bs ↔ a ∈ as ∧ ∀ b ∈ bs, key b ≠ key a := by
  constructor
  · intro h
    exact ⟨mem_of_left h rfl, left_only hc ha hb he h⟩
  · rintro ⟨hmem, hnone⟩
    obtain ⟨m, hm, hma⟩ := exists_left cmp bs hmem
    cases m with
    | left a' =>
      cases hma
      exact hm
    | right b => cases hma
    | both a' b =>
      cases hma
      exact absurd (he _ _ hm).symm (hnone b (mem_of_right hm rfl))

/-- Right alone. -/
theorem Exact.mem_right : Met.right b ∈ walk cmp as bs ↔ b ∈ bs ∧ ∀ a ∈ as, key a ≠ key b := by
  rw [← he.swap.mem_left hc.swap hb ha, walk_swap, mem_swap]
  rfl

/-- And on both sides. -/
theorem Exact.mem_both : Met.both a b ∈ walk cmp as bs ↔ a ∈ as ∧ b ∈ bs ∧ key a = key b := by
  constructor
  · intro h
    exact ⟨mem_of_left h rfl, mem_of_right h rfl, he a b h⟩
  · rintro ⟨hmem, hmem', hkey⟩
    obtain ⟨m, hm, hma⟩ := exists_left cmp bs hmem
    cases m with
    | left a' =>
      cases hma
      exact absurd hkey.symm (left_only hc ha hb he hm b hmem')
    | right b => cases hma
    | both a' b' =>
      cases hma
      have hsame : b' = b :=
        hb.eq_of_key (mem_of_right hm rfl) hmem' ((he _ _ hm).symm.trans hkey)
      exact hsame ▸ hm

end Classify

section Count

variable (hc : Coarsens key cmp) (ha : Ascending key as) (hb : Ascending key bs)
  (he : Exact key cmp as bs)

include hc ha hb he

/-- What is met on the left alone is what has no equal on the right. -/
theorem Exact.countP_isLeft :
    (walk cmp as bs).countP Met.isLeft = as.countP fun a => ∀ b ∈ bs, key b ≠ key a := by
  conv_rhs => rw [← walk_left cmp as bs, List.countP_filterMap]
  refine List.countP_congr fun m hm => ?_
  cases m with
  | left a => simpa [Met.isLeft] using ((he.mem_left hc ha hb).mp hm).2
  | right b => simp [Met.isLeft]
  | both a b =>
    obtain ⟨-, hmem, hkey⟩ := (he.mem_both hc ha hb).mp hm
    simpa [Met.isLeft] using ⟨b, hmem, hkey.symm⟩

theorem Exact.countP_isRight :
    (walk cmp as bs).countP Met.isRight = bs.countP fun b => ∀ a ∈ as, key a ≠ key b := by
  rw [← he.swap.countP_isLeft hc.swap hb ha, walk_swap, List.countP_map]
  exact List.countP_congr fun m _ => by cases m <;> rfl

/-- What is met as a pair is what has its equal on the right. -/
theorem Exact.countP_isBoth (p : α → α → Bool) : (walk cmp as bs).countP (Met.isBoth p) =
      as.countP fun a => ∃ b ∈ bs, key a = key b ∧ p a b = true := by
  conv_rhs => rw [← walk_left cmp as bs, List.countP_filterMap]
  refine List.countP_congr fun m hm => ?_
  cases m with
  | left a =>
    obtain ⟨-, hnone⟩ := (he.mem_left hc ha hb).mp hm
    simpa [Met.isBoth] using fun b hb' hkey => absurd hkey.symm (hnone b hb')
  | right b => simp [Met.isBoth]
  | both a b =>
    obtain ⟨-, hmem, hkey⟩ := (he.mem_both hc ha hb).mp hm
    have hiff : p a b = true ↔ ∃ b' ∈ bs, key a = key b' ∧ p a b' = true := by
      constructor
      · intro hp
        exact ⟨b, hmem, hkey, hp⟩
      · rintro ⟨b', hmem', hkey', hp⟩
        rwa [hb.eq_of_key hmem hmem' (hkey.symm.trans hkey')]
    simpa [Met.isBoth] using hiff

end Count

section Apart

variable {a b : α} (ha : Ascending key (a :: as)) (hb : Ascending key (b :: bs))

include ha hb

theorem apart_cons_lt (hc : Coarsens key cmp) (h : cmp a b = .lt) :
    Apart key cmp (a :: as) (b :: bs) ↔ Apart key cmp as (b :: bs) := by
  have hab := hc.lt h
  constructor
  · intro hap a' ha' b' hb' heq
    obtain ⟨hlt, hgt⟩ := hap a' (List.mem_cons_of_mem _ ha') b' hb' heq
    refine ⟨hlt, fun hk => ?_⟩
    obtain ⟨x, hx, hbx, hxa⟩ := hgt hk
    rcases List.mem_cons.mp hx with rfl | hx
    · exact absurd (hab.trans_le (hb.le hb')) (not_lt.mpr hbx)
    · exact ⟨x, hx, hbx, hxa⟩
  · intro hap a' ha' b' hb' heq
    rcases List.mem_cons.mp ha' with rfl | ha'
    · have hne : b' ∈ bs := by
        refine (List.mem_cons.mp hb').resolve_left ?_
        rintro rfl
        rw [h] at heq
        cases heq
      refine ⟨fun _ => ⟨b, List.mem_cons_self, hab.le, hb.head hne⟩, fun hk => ?_⟩
      exact absurd (hab.trans (hb.head hne)) hk.asymm
    · obtain ⟨hlt, hgt⟩ := hap a' ha' b' hb' heq
      refine ⟨hlt, fun hk => ?_⟩
      obtain ⟨x, hx, hbx⟩ := hgt hk
      exact ⟨x, List.mem_cons_of_mem _ hx, hbx⟩

omit ha hb in
theorem apart_swap : Apart key cmp as bs ↔ Apart key (fun x y => (cmp y x).swap) bs as := by
  constructor
  · intro h b hb a ha heq
    exact (h a ha b hb (Ordering.swap_eq_eq.mp heq)).symm
  · intro h a ha b hb heq
    exact (h b hb a ha (Ordering.swap_eq_eq.mpr heq)).symm

theorem apart_cons_gt (hc : Coarsens key cmp) (h : cmp a b = .gt) :
    Apart key cmp (a :: as) (b :: bs) ↔ Apart key cmp (a :: as) bs := by
  rw [apart_swap, apart_cons_lt hb ha hc.swap (Ordering.swap_eq_lt.mpr h), ← apart_swap]

theorem apart_cons_eq (h : cmp a b = .eq) :
    Apart key cmp (a :: as) (b :: bs) ↔ key a = key b ∧ Apart key cmp as bs := by
  constructor
  · intro hap
    obtain ⟨hlt, hgt⟩ := hap a List.mem_cons_self b List.mem_cons_self h
    have hkey : key a = key b := by
      rcases lt_trichotomy (key a) (key b) with hk | hk | hk
      · obtain ⟨x, hx, -, hxb⟩ := hlt hk
        exact absurd (hb.le hx) (not_le.mpr hxb)
      · exact hk
      · obtain ⟨x, hx, -, hxa⟩ := hgt hk
        exact absurd (ha.le hx) (not_le.mpr hxa)
    refine ⟨hkey, fun a' ha' b' hb' heq => ?_⟩
    obtain ⟨hlt, hgt⟩ := hap a' (List.mem_cons_of_mem _ ha') b' (List.mem_cons_of_mem _ hb') heq
    refine ⟨fun hk => ?_, fun hk => ?_⟩
    · obtain ⟨x, hx, hax, hxb⟩ := hlt hk
      rcases List.mem_cons.mp hx with rfl | hx
      · exact absurd (hkey.symm.trans_lt (ha.head ha')) (not_lt.mpr hax)
      · exact ⟨x, hx, hax, hxb⟩
    · obtain ⟨x, hx, hbx, hxa⟩ := hgt hk
      rcases List.mem_cons.mp hx with rfl | hx
      · exact absurd (hkey.trans_lt (hb.head hb')) (not_lt.mpr hbx)
      · exact ⟨x, hx, hbx, hxa⟩
  · rintro ⟨hkey, hap⟩ a' ha' b' hb' heq
    rcases List.mem_cons.mp ha' with rfl | ha' <;> rcases List.mem_cons.mp hb' with rfl | hb'
    · exact ⟨fun hk => absurd hkey hk.ne, fun hk => absurd hkey hk.ne'⟩
    · refine ⟨fun _ => ⟨b, List.mem_cons_self, hkey.le, hb.head hb'⟩, fun hk => ?_⟩
      exact absurd (hkey.trans_lt (hb.head hb')) hk.asymm
    · refine ⟨fun hk => ?_, fun _ => ⟨a, List.mem_cons_self, hkey.ge, ha.head ha'⟩⟩
      exact absurd (hkey.symm.trans_lt (ha.head ha')) hk.asymm
    · obtain ⟨hlt, hgt⟩ := hap a' ha' b' hb' heq
      refine ⟨fun hk => ?_, fun hk => ?_⟩
      · obtain ⟨x, hx, hax⟩ := hlt hk
        exact ⟨x, List.mem_cons_of_mem _ hx, hax⟩
      · obtain ⟨x, hx, hbx⟩ := hgt hk
        exact ⟨x, List.mem_cons_of_mem _ hx, hbx⟩

end Apart

/-- **A merge is exact when its comparison tells neighbours apart**, and only then. -/
theorem exact_iff_apart (hc : Coarsens key cmp) (ha : Ascending key as) (hb : Ascending key bs) :
    Exact key cmp as bs ↔ Apart key cmp as bs := by
  induction as, bs using walk.induct cmp with
  | case1 => simp [Exact, Apart]
  | case2 a as ih =>
    have hnil : ∀ as', Apart key cmp as' [] := fun _ _ _ _ hb' => (List.not_mem_nil hb').elim
    have hex := (ih ha.tail hb).mpr (hnil as)
    refine iff_of_true ?_ (hnil _)
    simpa [Exact] using hex
  | case3 b bs ih =>
    have hnil : ∀ bs', Apart key cmp [] bs' := fun _ _ ha' => (List.not_mem_nil ha').elim
    have hex := (ih ha hb.tail).mpr (hnil bs)
    refine iff_of_true ?_ (hnil _)
    simpa [Exact] using hex
  | case4 a as b bs hlt ih =>
    rw [apart_cons_lt ha hb hc hlt, ← ih ha.tail hb]
    simp [Exact, walk_lt hlt]
  | case5 a as b bs hgt ih =>
    rw [apart_cons_gt ha hb hc hgt, ← ih ha hb.tail]
    simp [Exact, walk_gt hgt]
  | case6 a as b bs heq ih =>
    rw [apart_cons_eq ha hb heq, ← ih ha.tail hb.tail]
    constructor
    · intro h
      exact ⟨h a b (by simp [walk_eq heq]), h.of_cons (walk_eq heq)⟩
    · rintro ⟨hkey, h⟩ a' b' hmem
      rw [walk_eq heq, List.mem_cons] at hmem
      rcases hmem with hhead | hmem
      · obtain ⟨rfl, rfl⟩ := Met.both.inj hhead
        exact hkey
      · exact h a' b' hmem

end Order

end MergeWalk
