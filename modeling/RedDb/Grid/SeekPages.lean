import RedDb.Grid.KeySpec
import RedDb.Lib.Keyset
import Mathlib.Data.List.Lex
import Mathlib.Order.WithBot

/-!
# RedDb — paging a table by its key

A page is the rows whose key columns compare behind the last row of the page before, in
the order of the key columns. The comparison is SQL's, of rows and three-valued: it is
not true where a null decides it, and not true of a tie.

* `rowCompare_trans`, `key_lt_of_follows` — a true comparison is one of the order;
* `readsAll_iff` — the pages show every row once and in order exactly when no page
  ends in front of a row that does not compare behind its last one;
* `clean_of_enforced` — which they never do where the key column is unique and not null.
-/

namespace RedDb.Grid

/-! ## Three-valued comparison -/

section Compare

variable {V : Type*} [LinearOrder V]

/-- `or` and `and` where a side may be unknown. -/
def or3 : Option Bool → Option Bool → Option Bool
  | some true, _ | _, some true => some true
  | some false, b => b
  | a, some false => a
  | none, none => none

def and3 : Option Bool → Option Bool → Option Bool
  | some false, _ | _, some false => some false
  | some true, b => b
  | a, some true => a
  | none, none => none

def eq3 : Option V → Option V → Option Bool
  | some a, some b => some (decide (a = b))
  | _, _ => none

/-- The strict half of a comparison. -/
def Cmp.strict3 (c : Cmp) : Option V → Option V → Option Bool
  | some a, some b =>
    match c with
    | .gt | .ge => some (decide (b < a))
    | .lt | .le => some (decide (a < b))
  | _, _ => none

def Cmp.inclusive : Cmp → Bool
  | .gt | .lt => false
  | .ge | .le => true

/-- `(a1, a2, …) cmp (b1, b2, …)`. -/
def rowCompare (c : Cmp) : List (Option V) → List (Option V) → Option Bool
  | a :: as, b :: bs => or3 (c.strict3 a b) (and3 (eq3 a b) (rowCompare c as bs))
  | _, _ => some c.inclusive

theorem or3_eq_true {a b : Option Bool} : or3 a b = some true ↔ a = some true ∨ b = some true := by
  rcases a with _ | _ | _ <;> rcases b with _ | _ | _ <;> simp [or3]

theorem and3_eq_true {a b : Option Bool} :
    and3 a b = some true ↔ a = some true ∧ b = some true := by
  rcases a with _ | _ | _ <;> rcases b with _ | _ | _ <;> simp [and3]

theorem eq3_eq_true {a b : Option V} : eq3 a b = some true ↔ ∃ v, a = some v ∧ b = some v := by
  cases a with
  | none => simp [eq3]
  | some a =>
    cases b with
    | none => simp [eq3]
    | some b => simp [eq3, eq_comm]

/-- A comparison is true where the first columns that differ are not null and do. -/
theorem rowCompare_cons {c : Cmp} {a b : Option V} {as bs : List (Option V)} :
    rowCompare c (a :: as) (b :: bs) = some true ↔
      c.strict3 a b = some true ∨ (∃ v, a = some v ∧ b = some v) ∧ rowCompare c as bs = some true := by
  rw [rowCompare, or3_eq_true, and3_eq_true, eq3_eq_true]

end Compare

/-! ## The engine -/

/-- What the program relies on in an engine that holds rows of `ρ` with cells of `V`.
`place` is where `ORDER BY` puts a cell: the values in their order, and null before or
after them as the engine likes. `sort` may settle ties as it likes. `uniquePk` says
whether it keeps a primary key unique. -/
structure Engine (ρ V κ : Type*) [LinearOrder V] [LinearOrder κ] where
  cell : ρ → String → Option V
  place : SortDirection → Option V → κ
  sort : SortDirection → List String → List ρ → List ρ
  uniquePk : Bool
  place_asc : ∀ a b, place .asc (some a) < place .asc (some b) ↔ a < b
  place_desc : ∀ a b, place .desc (some a) < place .desc (some b) ↔ b < a
  place_null : ∀ d a, place d none ≠ place d (some a)
  sort_perm : ∀ d cols rows, (sort d cols rows).Perm rows
  sort_sorted : ∀ d cols rows, (sort d cols rows).Pairwise fun r s =>
    (cols.map fun c => place d (cell r c)) ≤ cols.map fun c => place d (cell s c)

variable {ρ V κ : Type*} [LinearOrder V] [LinearOrder κ]

namespace Engine

variable (E : Engine ρ V κ) (k : KeySpec) (scroll : SortDirection)

/-- The values a row is sought by. -/
def keyValues (r : ρ) : List (Option V) := k.columnNames.map (E.cell r)

/-- Where `ORDER BY` puts a row. -/
def orderKey (r : ρ) : List κ :=
  k.columnNames.map fun c => E.place (seekDirection k scroll) (E.cell r c)

/-- The `WHERE` of the page behind `r` is true of `s`. -/
def follows (r s : ρ) : Bool :=
  rowCompare (seekCmp k scroll false) (E.keyValues k s) (E.keyValues k r) == some true

/-- The `ORDER BY` of a page. -/
def orderBy (rows : List ρ) : List ρ := E.sort (seekDirection k scroll) k.columnNames rows

/-- Page by page from the start until one is empty, the pages show every row once and in
order. -/
def ReadsAll (size : Nat) (rows : List ρ) : Prop :=
  ∃ out, Keyset.Pages (E.follows k scroll) (E.orderBy k scroll) size rows none out ∧
    out.Perm rows ∧ out.Pairwise fun r s => E.orderKey k scroll r ≤ E.orderKey k scroll s

/-- In the order of the key, every row that ends a page compares before every row behind
it: no page ends in a tie, and no null stands in the comparison. -/
def CleanEnds (size : Nat) (rows : List ρ) : Prop :=
  ∀ i r, (E.orderBy k scroll rows)[i]? = some r → size ∣ i + 1 →
    ∀ j s, i < j → (E.orderBy k scroll rows)[j]? = some s → E.follows k scroll r s = true

variable {E k scroll}

theorem place_inj {d : SortDirection} {a b : Option V} (h : E.place d a = E.place d b) : a = b := by
  have hsome : ∀ x y : V, E.place d (some x) = E.place d (some y) → x = y := by
    intro x y hxy
    cases d with
    | asc =>
      exact le_antisymm (not_lt.mp fun hlt => (((E.place_asc y x).mpr hlt).ne hxy.symm))
        (not_lt.mp fun hlt => ((E.place_asc x y).mpr hlt).ne hxy)
    | desc =>
      exact le_antisymm (not_lt.mp fun hlt => ((E.place_desc x y).mpr hlt).ne hxy)
        (not_lt.mp fun hlt => ((E.place_desc y x).mpr hlt).ne hxy.symm)
  cases a with
  | none =>
    cases b with
    | none => rfl
    | some b => exact absurd h (E.place_null d b)
  | some a =>
    cases b with
    | none => exact absurd h.symm (E.place_null d a)
    | some b => rw [hsome a b h]

/-- A cell that compares behind another one is placed behind it. -/
theorem place_lt_of_strict {a b : Option V} (h : (seekCmp k scroll false).strict3 b a = some true) :
    E.place (seekDirection k scroll) a < E.place (seekDirection k scroll) b := by
  cases a with
  | none => cases b <;> cases h
  | some a =>
    cases b with
    | none => cases h
    | some b =>
      unfold seekCmp at h
      cases hd : seekDirection k scroll with
      | asc =>
        rw [hd] at h
        exact (E.place_asc a b).mpr (of_decide_eq_true (Option.some.inj h))
      | desc =>
        rw [hd] at h
        exact (E.place_desc a b).mpr (of_decide_eq_true (Option.some.inj h))

theorem key_lt_of_compare {cols : List String} {r s : ρ}
    (h : rowCompare (seekCmp k scroll false) (cols.map (E.cell s)) (cols.map (E.cell r)) =
      some true) : (cols.map fun c => E.place (seekDirection k scroll) (E.cell r c)) <
      cols.map fun c => E.place (seekDirection k scroll) (E.cell s c) := by
  induction cols with
  | nil =>
    unfold seekCmp at h
    cases hd : seekDirection k scroll <;> rw [hd] at h <;> cases h
  | cons c cs ih =>
    rw [List.map_cons, List.map_cons, List.cons_lt_cons_iff]
    rcases rowCompare_cons.mp h with hlt | ⟨⟨v, hs, hr⟩, hrest⟩
    · exact Or.inl (place_lt_of_strict hlt)
    · exact Or.inr ⟨by rw [hs, hr], ih hrest⟩

/-- A row behind another one's bound is behind it in the order. -/
theorem key_lt_of_follows {r s : ρ} (h : E.follows k scroll r s = true) :
    E.orderKey k scroll r < E.orderKey k scroll s :=
  key_lt_of_compare (beq_iff_eq.mp h)

theorem strict3_trans {a b c : Option V} (hab : (seekCmp k scroll false).strict3 b a = some true)
    (hbc : (seekCmp k scroll false).strict3 c b = some true) :
    (seekCmp k scroll false).strict3 c a = some true := by
  cases a with
  | none => cases b <;> cases hab
  | some a =>
    cases b with
    | none => cases hab
    | some b =>
      cases c with
      | none => cases hbc
      | some c =>
        unfold seekCmp at *
        cases hd : seekDirection k scroll with
        | asc =>
          rw [hd] at hab hbc
          have h1 : a < b := of_decide_eq_true (Option.some.inj hab)
          have h2 : b < c := of_decide_eq_true (Option.some.inj hbc)
          exact congrArg some (decide_eq_true (h1.trans h2))
        | desc =>
          rw [hd] at hab hbc
          have h1 : b < a := of_decide_eq_true (Option.some.inj hab)
          have h2 : c < b := of_decide_eq_true (Option.some.inj hbc)
          exact congrArg some (decide_eq_true (h2.trans h1))

theorem rowCompare_trans {as bs cs : List (Option V)} (hlen : as.length = bs.length)
    (hlen' : bs.length = cs.length) (hab : rowCompare (seekCmp k scroll false) bs as = some true)
    (hbc : rowCompare (seekCmp k scroll false) cs bs = some true) :
    rowCompare (seekCmp k scroll false) cs as = some true := by
  induction bs generalizing as cs with
  | nil =>
    unfold seekCmp at hab
    cases hd : seekDirection k scroll <;> rw [hd] at hab <;> cases as <;> cases hab
  | cons b bs ih =>
    cases as with
    | nil => cases hlen
    | cons a as =>
      cases cs with
      | nil => cases hlen'
      | cons c cs =>
        rw [rowCompare_cons] at hab hbc ⊢
        rcases hab with hab | ⟨⟨v, hb, ha⟩, hab⟩
        · rcases hbc with hbc | ⟨⟨v, hc, hb⟩, -⟩
          · exact Or.inl (strict3_trans hab hbc)
          · rw [hc, ← hb]
            exact Or.inl hab
        · rcases hbc with hbc | ⟨⟨w, hc, hb'⟩, hbc⟩
          · rw [ha, ← hb]
            exact Or.inl hbc
          · obtain rfl := Option.some.inj (hb.symm.trans hb')
            exact Or.inr ⟨⟨v, hc, ha⟩, ih (Nat.succ.inj hlen) (Nat.succ.inj hlen') hab hbc⟩

theorem follows_trans {r s t : ρ} (hrs : E.follows k scroll r s = true)
    (hst : E.follows k scroll s t = true) : E.follows k scroll r t = true := by
  refine beq_iff_eq.mpr (rowCompare_trans ?_ ?_ (beq_iff_eq.mp hrs) (beq_iff_eq.mp hst)) <;>
    simp [keyValues]

theorem follows_self (r : ρ) : E.follows k scroll r r = false := by
  rw [Bool.eq_false_iff]
  intro h
  exact lt_irrefl _ (key_lt_of_follows h)

/-- Rows placed alike have the same key values. -/
theorem keyValues_eq {r s : ρ} (h : E.orderKey k scroll r = E.orderKey k scroll s) :
    E.keyValues k r = E.keyValues k s := by
  refine List.map_congr_left fun c hc => place_inj (E := E) (d := seekDirection k scroll) ?_
  obtain ⟨i, hi, rfl⟩ := List.mem_iff_getElem.mp hc
  have := congrArg (·[i]?) h
  simpa [orderKey, hi] using this

theorem lawful {size : Nat} (hsize : 0 < size) (rows : List ρ) :
    Keyset.Lawful (E.orderKey k scroll) (E.follows k scroll) (E.orderBy k scroll) size rows where
  pos := hsize
  perm := E.sort_perm _ _
  sorted := E.sort_sorted _ _
  left _ _ _ h := by rw [follows, follows, keyValues_eq h]
  right _ _ _ h := by rw [follows, follows, keyValues_eq h]

/-- A clean end is all that a bound needs: nothing in front of a row compares behind it. -/
theorem cut_iff_cleanEnds {size : Nat} {rows : List ρ} :
    Keyset.Cut (E.follows k scroll) size (E.orderBy k scroll rows) ↔
      E.CleanEnds k scroll size rows := by
  constructor
  · intro hcut i r hr hend j s hij hs
    exact (hcut i r hr (Or.inl hend) j s hs).mpr hij
  · intro hclean i r hr hend j s hs
    constructor
    · intro hfollows
      by_contra hij
      refine absurd (key_lt_of_follows hfollows) (not_lt.mpr ?_)
      rcases Nat.lt_or_ge j i with hji | hji
      · obtain ⟨hi, rfl⟩ := List.getElem?_eq_some_iff.mp hr
        obtain ⟨hj, rfl⟩ := List.getElem?_eq_some_iff.mp hs
        exact List.pairwise_iff_getElem.mp (E.sort_sorted _ _ _) j i hj hi hji
      · obtain rfl : i = j := by omega
        rw [hr] at hs
        cases hs
        exact le_rfl
    · intro hij
      rcases hend with hdvd | hlen
      · exact hclean i r hr hdvd j s hij hs
      · have := (List.getElem?_eq_some_iff.mp hs).1
        omega

/-! ## Constraints -/

/-- No two rows have the same values in the columns, nulls apart. -/
def Unique (E : Engine ρ V κ) (cols : List String) (rows : List ρ) : Prop :=
  rows.Pairwise fun r s => ¬ ∀ c ∈ cols, ∃ v, E.cell r c = some v ∧ E.cell s c = some v

/-- The constraints that the detail of a table states, as far as the engine keeps them. -/
structure Enforces (E : Engine ρ V κ) (detail : TableDetail) (rows : List ρ) : Prop where
  notNull : ∀ c ∈ detail.columns, c.notNull = true → ∀ r ∈ rows, E.cell r c.name ≠ none
  index : ∀ i ∈ detail.indexes, i.unique = true → E.Unique i.columns rows
  primaryKey : E.uniquePk = true →
    E.Unique ((detail.columns.filter (·.primaryKey)).map (·.name)) rows

/-- The key column of the table is kept unique and holds no null. -/
def KeepsKey (E : Engine ρ V κ) (detail : TableDetail) : Prop :=
  (E.uniquePk = true ∨ ∀ c ∈ detail.columns, c.primaryKey = false) ∧
    ∀ c, resolveKeyColumn detail = some c → c.notNull = true

/-- Two rows without a null in the key compare one way, unless they tie. -/
theorem compare_total {as bs : List (Option V)} (hlen : as.length = bs.length)
    (has : ∀ a ∈ as, a ≠ none) (hbs : ∀ b ∈ bs, b ≠ none) (hne : as ≠ bs) :
    rowCompare (seekCmp k scroll false) bs as = some true ∨
      rowCompare (seekCmp k scroll false) as bs = some true := by
  induction as generalizing bs with
  | nil =>
    cases bs with
    | nil => exact absurd rfl hne
    | cons b bs => cases hlen
  | cons a as ih =>
    cases bs with
    | nil => cases hlen
    | cons b bs =>
      rw [rowCompare_cons, rowCompare_cons]
      obtain ⟨x, rfl⟩ := Option.ne_none_iff_exists'.mp (has a List.mem_cons_self)
      obtain ⟨y, rfl⟩ := Option.ne_none_iff_exists'.mp (hbs b List.mem_cons_self)
      rcases eq_or_ne x y with rfl | hxy
      · have hrest : as ≠ bs := fun h => hne (by rw [h])
        rcases ih (Nat.succ.inj hlen) (fun a ha => has a (List.mem_cons_of_mem _ ha))
          (fun b hb => hbs b (List.mem_cons_of_mem _ hb)) hrest with h | h
        · exact Or.inl (Or.inr ⟨⟨x, rfl, rfl⟩, h⟩)
        · exact Or.inr (Or.inr ⟨⟨x, rfl, rfl⟩, h⟩)
      unfold seekCmp
      cases seekDirection k scroll with
      | asc =>
        rcases lt_or_gt_of_ne hxy with h | h
        · exact Or.inl (Or.inl (congrArg some (decide_eq_true h)))
        · exact Or.inr (Or.inl (congrArg some (decide_eq_true h)))
      | desc =>
        rcases lt_or_gt_of_ne hxy with h | h
        · exact Or.inr (Or.inl (congrArg some (decide_eq_true h)))
        · exact Or.inl (Or.inl (congrArg some (decide_eq_true h)))

/-- The key column's own uniqueness. -/
theorem Enforces.key_unique {detail : TableDetail} {rows : List ρ} (h : E.Enforces detail rows)
    (hkeeps : E.KeepsKey detail) {pk : ColumnMeta} (hpk : resolveKeyColumn detail = some pk) :
    E.Unique [pk.name] rows := by
  rcases resolveKeyColumn_unique hpk with hone | ⟨-, i, hi, hunique, hcols⟩
  · rcases hkeeps.1 with hu | hnone
    · have := h.primaryKey hu
      rwa [hone] at this
    have hmem : pk ∈ detail.columns.filter (·.primaryKey) := hone ▸ List.mem_singleton_self pk
    rw [List.mem_filter] at hmem
    rw [hnone pk hmem.1] at hmem
    cases hmem.2
  · have := h.index i hi hunique
    rwa [hcols] at this

/-- Where the key column is kept unique and holds no null, every page ends clean. -/
theorem clean_of_enforced {detail : TableDetail} {rows : List ρ} (hkey : k.Resolved detail)
    (h : E.Enforces detail rows) (hkeeps : E.KeepsKey detail) (size : Nat) :
    E.CleanEnds k scroll size rows := by
  obtain ⟨pk, hpk, hcols⟩ := resolved_columns hkey
  have hpkNull := h.notNull pk (resolveKeyColumn_mem hpk) (hkeeps.2 pk hpk)
  have hlast : pk.name ∈ k.columnNames := by
    rcases hcols with hcols | ⟨lead, -, -, hcols⟩ <;> rw [hcols] <;> simp
  have hnull : ∀ r ∈ rows, ∀ v ∈ E.keyValues k r, v ≠ none := by
    intro r hr v hv
    obtain ⟨c, hc, rfl⟩ := List.mem_map.mp hv
    rcases hcols with hcols | ⟨lead, hlead, hleadNull, hcols⟩
    · rw [hcols, List.mem_singleton] at hc
      rw [hc]
      exact hpkNull r hr
    · rw [hcols] at hc
      rcases List.mem_pair.mp hc with rfl | rfl
      · exact h.notNull lead hlead hleadNull r hr
      · exact hpkNull r hr
  have hdistinct : (E.orderBy k scroll rows).Pairwise fun r s => E.keyValues k r ≠ E.keyValues k s := by
    have hunique := h.key_unique hkeeps hpk
    have hsymm : ∀ {r s : ρ}, (¬ ∀ c ∈ [pk.name], ∃ v, E.cell r c = some v ∧ E.cell s c = some v) →
        ¬ ∀ c ∈ [pk.name], ∃ v, E.cell s c = some v ∧ E.cell r c = some v := by
      intro r s hrs hall
      refine hrs fun c hc => ?_
      obtain ⟨v, hs, hr⟩ := hall c hc
      exact ⟨v, hr, hs⟩
    have hsorted := hunique.perm (E.sort_perm (seekDirection k scroll) k.columnNames rows).symm hsymm
    refine hsorted.imp_of_mem fun {r s} hr _ hrs heq => hrs fun c hc => ?_
    obtain rfl := List.mem_singleton.mp hc
    have hcell : E.cell r pk.name = E.cell s pk.name := by
      have := List.map_inj_left.mp heq pk.name hlast
      exact this
    obtain ⟨v, hv⟩ := Option.ne_none_iff_exists'.mp (hpkNull r ((E.sort_perm _ _ _).mem_iff.mp hr))
    exact ⟨v, hv, hcell ▸ hv⟩
  intro i r hr _ j s hij hs
  have hrmem := (E.sort_perm _ _ _).mem_iff.mp (List.mem_of_getElem? hr)
  have hsmem := (E.sort_perm _ _ _).mem_iff.mp (List.mem_of_getElem? hs)
  obtain ⟨hi, hri⟩ := List.getElem?_eq_some_iff.mp hr
  obtain ⟨hj, hsj⟩ := List.getElem?_eq_some_iff.mp hs
  have hne := List.pairwise_iff_getElem.mp hdistinct i j hi hj hij
  have hle := List.pairwise_iff_getElem.mp (E.sort_sorted (seekDirection k scroll) k.columnNames rows)
    i j hi hj hij
  rw [hri, hsj] at hne
  have htotal : rowCompare (seekCmp k scroll false) (E.keyValues k s) (E.keyValues k r) = some true ∨
      rowCompare (seekCmp k scroll false) (E.keyValues k r) (E.keyValues k s) = some true :=
    compare_total (by simp [keyValues]) (hnull r hrmem) (hnull s hsmem) hne
  rcases htotal with hlt | hgt
  · exact beq_iff_eq.mpr hlt
  refine absurd (key_lt_of_compare hgt) (not_lt.mpr ?_)
  have := hle
  unfold orderBy at hri hsj
  rwa [hri, hsj] at this

/-! ## The pages -/

/-- Pages that have shown every row once end clean. -/
theorem cleanEnds_of_readsAll {size : Nat} {rows : List ρ} (hsize : 0 < size)
    (h : E.ReadsAll k scroll size rows) : E.CleanEnds k scroll size rows := by
  obtain ⟨out, hpages, hperm, -⟩ := h
  rw [← cut_iff_cleanEnds]
  exact (lawful hsize rows).cut_of_pages (fun _ => follows_self _)
    (fun _ _ _ hrs hst => follows_trans hrs hst) hpages hperm

/-- **Every row once, in order.** For any key a browse resolves, the pages do so exactly
when no page ends in front of a row that does not compare behind its last one. None does
where the engine keeps the key column unique and it holds no null. -/
theorem readsAll_iff {detail : TableDetail} {rows : List ρ} (hkey : k.Resolved detail)
    (hrows : E.Enforces detail rows) {size : Nat} (hsize : 0 < size) :
    (E.ReadsAll k scroll size rows ↔ E.CleanEnds k scroll size rows) ∧
      (E.KeepsKey detail → E.CleanEnds k scroll size rows) := by
  refine ⟨⟨cleanEnds_of_readsAll hsize, fun hclean => ?_⟩,
    fun hkeeps => clean_of_enforced hkey hrows hkeeps size⟩
  exact (lawful hsize rows).pages_of_cut (cut_iff_cleanEnds.mpr hclean)

end Engine

/-! ## A primary key that is not unique -/

/-- Nulls first, in both directions. -/
def loosePlace : SortDirection → Option Int → WithBot Int
  | .asc, v => v
  | .desc, none => ⊥
  | .desc, some v => ((-v : Int) : WithBot Int)

/-- An engine whose rows are one integer, and which keeps no primary key unique. -/
def looseEngine : Engine (Option Int) Int (WithBot Int) where
  cell r _ := r
  place := loosePlace
  sort d cols rows := rows.mergeSort fun r s =>
    decide ((cols.map fun _ => loosePlace d r) ≤ cols.map fun _ => loosePlace d s)
  uniquePk := false
  place_asc _ _ := WithBot.coe_lt_coe
  place_desc _ _ := WithBot.coe_lt_coe.trans Int.neg_lt_neg_iff
  place_null d a := by cases d <;> exact WithBot.bot_ne_coe
  sort_perm _ _ rows := List.mergeSort_perm rows _
  sort_sorted d cols rows := by
    have h : (rows.mergeSort fun r s => decide
        ((cols.map fun _ => loosePlace d r) ≤ cols.map fun _ => loosePlace d s)).Pairwise
          fun r s => decide ((cols.map fun _ => loosePlace d r) ≤
            cols.map fun _ => loosePlace d s) = true :=
      List.pairwise_mergeSort
        (fun a b c hab hbc => decide_eq_true ((of_decide_eq_true hab).trans (of_decide_eq_true hbc)))
        (fun a b => by
          rw [Bool.or_eq_true, decide_eq_true_eq, decide_eq_true_eq]
          exact le_total _ _) rows
    exact h.imp of_decide_eq_true

/-- The detail of such a table: the engine reports its sorting key as a primary key. -/
def looseDetail : TableDetail := ⟨[⟨"id", some "Int64", true, true⟩], []⟩

def looseKey : KeySpec := ⟨"id", .other, some "Int64", none, none, .asc⟩

theorem looseKey_resolved : KeySpec.fromDetail looseDetail = some looseKey := by decide

theorem loose_enforces (rows : List Int) :
    looseEngine.Enforces looseDetail (rows.map some) where
  notNull c _ _ r hr := by
    obtain ⟨v, -, rfl⟩ := List.mem_map.mp hr
    exact Option.some_ne_none v
  index i hi := (List.not_mem_nil hi).elim
  primaryKey h := by cases h

/-- Two rows of one key, read a row at a time: the second one is never shown. -/
theorem loose_misses : KeySpec.fromDetail looseDetail = some looseKey ∧
    looseEngine.Enforces looseDetail [some 1, some 1] ∧
    ¬ looseEngine.ReadsAll looseKey .asc 1 [some 1, some 1] := by
  refine ⟨looseKey_resolved, loose_enforces [1, 1], fun h => ?_⟩
  have hclean := Engine.cleanEnds_of_readsAll (by decide) h
  have hsort : looseEngine.orderBy looseKey .asc [some 1, some 1] = [some 1, some 1] :=
    List.perm_replicate.mp (looseEngine.sort_perm .asc ["id"] (List.replicate 2 (some 1)))
  have := hclean 0 (some 1) (by rw [hsort]; rfl) (by decide) 1 (some 1) (by decide)
    (by rw [hsort]; rfl)
  cases this

/-- A page that holds both shows both. -/
theorem loose_reads : looseEngine.ReadsAll looseKey .asc 2 [some 1, some 1] := by
  refine (Engine.readsAll_iff (Or.inl looseKey_resolved) (loose_enforces [1, 1])
    (by decide)).1.mpr ?_
  intro i r hr hend j s hij hs
  have hlen : (looseEngine.orderBy looseKey .asc [some 1, some 1]).length = 2 :=
    (looseEngine.sort_perm _ _ _).length_eq
  have hj : j < (looseEngine.orderBy looseKey .asc [some 1, some 1]).length :=
    (List.getElem?_eq_some_iff.mp hs).1
  have := Nat.le_of_dvd (by omega) hend
  omega

end RedDb.Grid
