import Mathlib.Data.Int.ConditionallyCompleteOrder
import Mathlib.Data.List.Lex
import Mathlib.Data.Prod.Lex
import RedDb.Driver.Edits
import RedDb.Lib.Binary64
import RedDb.Lib.MergeWalk

/-!
# RedDb — comparing two tables by key

`diffSorted` walks two key-ordered row streams and classifies each row as added,
removed, changed or unchanged. It keeps the differences up to a cap and counts
them all. `DiffAccumulator.step` is the whole classification: it looks at the two
heads and says which side to advance.

The rows arrive in the order the feeding query asked for, a `FeedOrder`, which
agrees with `keyCmp` as far as `keyCmp` tells two keys apart. It does not tell
everything apart: two blobs, and an integer and the double it rounds to, it calls
equal.

* `diffSorted_eq` — the walk is a merge whose findings are recorded in turn;
* `diffSorted_exact_iff` — it classifies by key exactly when neighbouring keys of
  the two sides are told apart;
* `diffSorted_reversed` — the other way round the diff is a mirror;
* `diffSorted_silent_iff` — when it tells no difference;
* `storageOrder` — the byte order the feeding queries ask for;
* `blobKeys_paired` — two rows with different blob keys, reported as one.
-/

namespace RedDb.Diff

open ByteText RedDb.Driver MergeWalk

/-! ## Rows and differences -/

abbrev Row := List Value

inductive DiffKind where
  | added
  | removed
  | changed

/-- One stored difference. -/
structure DiffRow where
  kind : DiffKind
  key : Bytes
  left : Row
  right : Row
  changed : List Bool

/-- Totals over the whole walk, past the cap as well. -/
structure DiffSummary where
  added : Nat
  removed : Nat
  changed : Nat
  unchanged : Nat
  deriving DecidableEq

/-- The side to advance after a step. -/
inductive Advance where
  | left
  | right
  | both
  | done

structure DiffAccumulator where
  keyIndex : Nat
  cap : Nat
  summary : DiffSummary
  rows : List DiffRow
  truncated : Bool

def DiffAccumulator.new (keyIndex cap : Nat) : DiffAccumulator :=
  ⟨keyIndex, cap, ⟨0, 0, 0, 0⟩, [], false⟩

/-! ## Comparing keys and cells -/

/-- A fixed rank per shape of value. -/
def keyRank : Value → Nat
  | .null => 0
  | .integer _ => 1
  | .real _ => 1
  | .text _ => 2
  | .blob _ => 3
  | .capped _ => 4

/-- A total order over doubles: not a number sorts after everything else. -/
def totalF64 (x y : Binary64.Double) : Ordering :=
  match x.partialCmp y with
  | some o => o
  | none =>
    match x.isNaN, y.isNaN with
    | true, false => .gt
    | false, true => .lt
    | _, _ => .eq

/-- `str::cmp`: byte by byte. -/
def cmpBytes (s t : Bytes) : Ordering := cmp (s.map UInt8.toNat) (t.map UInt8.toNat)

theorem cmpBytes_lt_iff {s t : Bytes} :
    cmpBytes s t = .lt ↔ s.map UInt8.toNat < t.map UInt8.toNat := by
  unfold cmpBytes cmp cmpUsing
  split
  · simpa
  · rename_i h
    refine iff_of_false ?_ h
    split <;> simp

def keyCmp : Value → Value → Ordering
  | .integer x, .integer y => compare x y
  | .real x, .real y => totalF64 (Binary64.decode x) (Binary64.decode y)
  | .integer x, .real y => totalF64 (Binary64.ofInt x) (Binary64.decode y)
  | .real x, .integer y => totalF64 (Binary64.decode x) (Binary64.ofInt y)
  | .text x, .text y => cmpBytes x y
  | .null, .null => .eq
  | a, b => compare (keyRank a) (keyRank b)

def compareKeys (keyIndex : Nat) (left right : Row) : Ordering :=
  match left[keyIndex]?, right[keyIndex]? with
  | some a, some b => keyCmp a b
  | some _, none => .gt
  | none, some _ => .lt
  | none, none => .eq

/-- `==` of two cells: doubles as numbers, anything else as it is. -/
def valueEq : Value → Value → Bool
  | .real x, .real y => (Binary64.decode x).eq (Binary64.decode y)
  | l, r => l == r

/-- Cell equality for the changed mask: two cells that are not a number are equal. -/
def cellEq : Value → Value → Bool
  | .real x, .real y =>
    if (Binary64.decode x).isNaN && (Binary64.decode y).isNaN then true
    else valueEq (.real x) (.real y)
  | l, r => valueEq l r

/-- The changed mask of two rows. -/
def mask (left right : Row) : List Bool :=
  (left.zip right).map fun p => !cellEq p.1 p.2

/-- Some compared cell of the two rows differs. -/
def differs (left right : Row) : Bool := (mask left right).any id

/-! ## The accumulator -/

section Walk

-- The standard library's text of a double is a parameter.
variable (showReal : UInt64 → Bytes)

def renderKey : Value → Bytes
  | .null => ascii "NULL"
  | .integer n => ascii (toString n)
  | .real x => showReal x
  | .text s => s
  | .blob b => ascii "<" ++ ascii (toString b.length) ++ ascii " bytes>"
  | .capped _ => ascii "<capped>"

def keyLabel (keyIndex : Nat) (row : Row) : Bytes :=
  (row[keyIndex]?.map (renderKey showReal)).getD []

def addedRow (keyIndex : Nat) (right : Row) : DiffRow :=
  ⟨.added, keyLabel showReal keyIndex right, [], right, []⟩

def removedRow (keyIndex : Nat) (left : Row) : DiffRow :=
  ⟨.removed, keyLabel showReal keyIndex left, left, [], []⟩

def changedRow (keyIndex : Nat) (left right : Row) : DiffRow :=
  ⟨.changed, keyLabel showReal keyIndex left, left, right, mask left right⟩

namespace DiffAccumulator

/-- Keep the difference, or mark the truncation once the cap is hit. -/
def store (acc : DiffAccumulator) (row : DiffRow) : DiffAccumulator :=
  if acc.rows.length < acc.cap then { acc with rows := acc.rows ++ [row] }
  else { acc with truncated := true }

@[grind =] def added (acc : DiffAccumulator) (right : Row) : DiffAccumulator :=
  { acc with summary.added := acc.summary.added + 1 }.store
    (addedRow showReal acc.keyIndex right)

@[grind =] def removed (acc : DiffAccumulator) (left : Row) : DiffAccumulator :=
  { acc with summary.removed := acc.summary.removed + 1 }.store
    (removedRow showReal acc.keyIndex left)

def pair (acc : DiffAccumulator) (left right : Row) : DiffAccumulator :=
  if differs left right then
    { acc with summary.changed := acc.summary.changed + 1 }.store
      (changedRow showReal acc.keyIndex left right)
  else { acc with summary.unchanged := acc.summary.unchanged + 1 }

/-- Record what the two heads imply, and say which side to advance. -/
def step (acc : DiffAccumulator) : Option Row → Option Row → DiffAccumulator × Advance
  | none, none => (acc, .done)
  | some l, none => (acc.removed showReal l, .left)
  | none, some r => (acc.added showReal r, .right)
  | some l, some r =>
    match compareKeys acc.keyIndex l r with
    | .lt => (acc.removed showReal l, .left)
    | .gt => (acc.added showReal r, .right)
    | .eq => (acc.pair showReal l r, .both)

end DiffAccumulator

/-- The loop of `diffSorted` at positions `i` and `j`, cut after `fuel` rounds. -/
def diffLoop (left right : List Row) : Nat → Nat → Nat → DiffAccumulator → DiffAccumulator
  | 0, _, _, acc => acc
  | fuel + 1, i, j, acc =>
    match acc.step showReal left[i]? right[j]? with
    | (acc, .done) => acc
    | (acc, .left) => diffLoop left right fuel (i + 1) j acc
    | (acc, .right) => diffLoop left right fuel i (j + 1) acc
    | (acc, .both) => diffLoop left right fuel (i + 1) (j + 1) acc

/-- Every round but the last consumes a row, so the bound on the rounds is no limit. -/
def diffSorted (left right : List Row) (keyIndex cap : Nat) : DiffAccumulator :=
  diffLoop showReal left right (left.length + right.length + 1) 0 0 (.new keyIndex cap)

/-! ## The walk as a merge -/

/-- What the accumulator does with a finding of the merge. -/
def DiffAccumulator.record (acc : DiffAccumulator) : Met Row → DiffAccumulator
  | .left l => acc.removed showReal l
  | .right r => acc.added showReal r
  | .both l r => acc.pair showReal l r

/-- The row a finding leaves, if it leaves one. -/
def foundRow (keyIndex : Nat) : Met Row → Option DiffRow
  | .left l => some (removedRow showReal keyIndex l)
  | .right r => some (addedRow showReal keyIndex r)
  | .both l r => if differs l r then some (changedRow showReal keyIndex l r) else none

namespace DiffAccumulator

variable {showReal} {acc : DiffAccumulator}

@[simp] theorem store_keyIndex (row : DiffRow) : (acc.store row).keyIndex = acc.keyIndex := by
  unfold store
  split <;> rfl

@[simp] theorem store_cap (row : DiffRow) : (acc.store row).cap = acc.cap := by
  unfold store
  split <;> rfl

@[simp] theorem store_summary (row : DiffRow) : (acc.store row).summary = acc.summary := by
  unfold store
  split <;> rfl

variable {l r : Row}

@[simp] theorem record_left : acc.record showReal (.left l) = acc.removed showReal l := rfl

@[simp] theorem record_right : acc.record showReal (.right r) = acc.added showReal r := rfl

@[simp] theorem record_both : acc.record showReal (.both l r) = acc.pair showReal l r := rfl

@[simp] theorem removed_keyIndex : (acc.removed showReal l).keyIndex = acc.keyIndex := by
  simp [removed]

@[simp] theorem added_keyIndex : (acc.added showReal r).keyIndex = acc.keyIndex := by
  simp [added]

@[simp] theorem pair_keyIndex : (acc.pair showReal l r).keyIndex = acc.keyIndex := by
  unfold pair
  split <;> simp

theorem record_keyIndex (m : Met Row) : (acc.record showReal m).keyIndex = acc.keyIndex := by
  cases m <;> simp

theorem record_cap (m : Met Row) : (acc.record showReal m).cap = acc.cap := by
  cases m with
  | left l => simp [removed]
  | right r => simp [added]
  | both l r =>
    simp only [record_both, pair]
    split <;> simp

end DiffAccumulator

/-- The rest of the loop records the rest of the merge. -/
theorem diffLoop_eq (left right : List Row) {fuel i j : Nat} {acc : DiffAccumulator}
    {ls rs : List Row} (hl : left.drop i = ls) (hr : right.drop j = rs)
    (hfuel : ls.length + rs.length < fuel) : diffLoop showReal left right fuel i j acc =
      (walk (compareKeys acc.keyIndex) ls rs).foldl (·.record showReal ·) acc := by
  induction fuel generalizing i j acc ls rs with
  | zero => exact absurd hfuel (Nat.not_lt_zero _)
  | succ fuel ih =>
    have hli : left[i]? = ls.head? := by rw [← hl, List.head?_drop]
    have hrj : right[j]? = rs.head? := by rw [← hr, List.head?_drop]
    have hl' : left.drop (i + 1) = ls.tail := by rw [← hl, List.tail_drop]
    have hr' : right.drop (j + 1) = rs.tail := by rw [← hr, List.tail_drop]
    unfold diffLoop
    rw [hli, hrj]
    cases ls with
    | nil =>
      cases rs with
      | nil => simp [DiffAccumulator.step]
      | cons r rs =>
        have hrest := @ih i (j + 1) (acc.added showReal r) [] rs hl hr'
          (by simp at hfuel ⊢; omega)
        simpa [DiffAccumulator.step] using hrest
    | cons l ls =>
      cases rs with
      | nil =>
        have hrest := @ih (i + 1) j (acc.removed showReal l) ls [] hl' hr
          (by simp at hfuel ⊢; omega)
        simpa [DiffAccumulator.step] using hrest
      | cons r rs =>
        simp only [List.length_cons] at hfuel
        simp only [List.head?_cons, DiffAccumulator.step]
        cases hcmp : compareKeys acc.keyIndex l r with
        | lt =>
          have hrest := @ih (i + 1) j (acc.removed showReal l) ls (r :: rs) hl' hr
            (by simp only [List.length_cons]; omega)
          simpa [walk_lt hcmp] using hrest
        | gt =>
          have hrest := @ih i (j + 1) (acc.added showReal r) (l :: ls) rs hl hr'
            (by simp only [List.length_cons]; omega)
          simpa [walk_gt hcmp] using hrest
        | eq =>
          have hrest := @ih (i + 1) (j + 1) (acc.pair showReal l r) ls rs hl' hr'
            (by omega)
          simpa [walk_eq hcmp] using hrest

/-- **The walk is a merge whose findings are recorded in turn.** -/
theorem diffSorted_eq (left right : List Row) (keyIndex cap : Nat) :
    diffSorted showReal left right keyIndex cap =
      (walk (compareKeys keyIndex) left right).foldl (·.record showReal ·) (.new keyIndex cap) :=
  diffLoop_eq showReal left right List.drop_zero List.drop_zero (Nat.lt_succ_self _)

/-! ## What the accumulator ends with -/

namespace DiffAccumulator

variable {acc : DiffAccumulator}

/-- The totals count the findings. -/
theorem foldl_summary (ms : List (Met Row)) : (ms.foldl (·.record showReal ·) acc).summary =
      ⟨acc.summary.added + ms.countP Met.isRight, acc.summary.removed + ms.countP Met.isLeft,
        acc.summary.changed + ms.countP (Met.isBoth differs),
        acc.summary.unchanged + ms.countP (Met.isBoth fun l r => !differs l r)⟩ := by
  induction ms generalizing acc with
  | nil => rfl
  | cons m ms ih =>
    rw [List.foldl_cons, ih]
    cases m with
    | left l =>
      simp [removed, List.countP_cons, Met.isLeft, Met.isRight, Met.isBoth]
      omega
    | right r =>
      simp [added, List.countP_cons, Met.isLeft, Met.isRight, Met.isBoth]
      omega
    | both l r =>
      cases h : differs l r <;>
        simp [pair, h, Met.isLeft, Met.isRight, Met.isBoth] <;> omega

/-- The accumulator keeps the first of the differences met so far, up to the cap. -/
structure Keeps (acc : DiffAccumulator) (met : List DiffRow) : Prop where
  rows : acc.rows = met.take acc.cap
  truncated : acc.truncated = decide (acc.cap < met.length)

theorem Keeps.store {met : List DiffRow} (h : acc.Keeps met) (row : DiffRow) :
    (acc.store row).Keeps (met ++ [row]) := by
  have hlen : acc.rows.length = min acc.cap met.length := by rw [h.rows, List.length_take]
  unfold DiffAccumulator.store
  split
  · rename_i hlt
    have hle : met.length < acc.cap := by omega
    refine ⟨?_, ?_⟩
    · simp only [h.rows]
      rw [List.take_of_length_le hle.le, List.take_of_length_le (by simp; omega)]
    · simp only [h.truncated, List.length_append, List.length_singleton]
      exact decide_eq_decide.mpr (by omega)
  · rename_i hge
    have hle : acc.cap ≤ met.length := by omega
    refine ⟨?_, ?_⟩
    · rw [List.take_append_of_le_length hle, ← h.rows]
    · simp only [List.length_append, List.length_singleton]
      exact (decide_eq_true (by omega)).symm

theorem Keeps.count {met : List DiffRow} (h : acc.Keeps met) (summary : DiffSummary) :
    { acc with summary := summary }.Keeps met := ⟨h.rows, h.truncated⟩

theorem Keeps.record {met : List DiffRow} (h : acc.Keeps met) (m : Met Row) :
    (acc.record showReal m).Keeps (met ++ (foundRow showReal acc.keyIndex m).toList) := by
  cases m with
  | left l | right r => exact (h.count _).store _
  | both l r =>
    simp only [record_both, pair, foundRow]
    split
    · exact (h.count _).store _
    · simpa using h.count _

theorem Keeps.foldl {met : List DiffRow} (h : acc.Keeps met) (ms : List (Met Row)) :
    (ms.foldl (·.record showReal ·) acc).Keeps
      (met ++ ms.filterMap (foundRow showReal acc.keyIndex)) := by
  induction ms generalizing acc met with
  | nil => simpa using h
  | cons m ms ih =>
    have hrest := ih (h.record showReal m)
    rw [record_keyIndex, List.append_assoc] at hrest
    rw [List.foldl_cons]
    convert hrest using 2
    cases hm : foundRow showReal acc.keyIndex m <;> simp [hm]

@[simp] theorem foldl_cap (ms : List (Met Row)) :
    (ms.foldl (·.record showReal ·) acc).cap = acc.cap := by
  induction ms generalizing acc with
  | nil => rfl
  | cons m ms ih => rw [List.foldl_cons, ih, record_cap]

end DiffAccumulator

/-! ## The order of the feeding query -/

theorem totalF64_eq (x y : Binary64.Double) : totalF64 x y = compare x.place y.place := by
  cases x with
  | nan =>
    cases y with
    | nan => exact (compare_eq_iff_eq.mpr rfl).symm
    | num y => exact (compare_gt_iff_gt.mpr (WithTop.coe_lt_top y)).symm
  | num x =>
    cases y with
    | nan => exact (compare_lt_iff_lt.mpr (WithTop.coe_lt_top x)).symm
    | num y =>
      change compare x y = compare (x : WithTop Int) (y : WithTop Int)
      rcases lt_trichotomy x y with h | h | h
      · rw [compare_lt_iff_lt.mpr h, compare_lt_iff_lt.mpr (WithTop.coe_lt_coe.mpr h)]
      · rw [compare_eq_iff_eq.mpr h, compare_eq_iff_eq.mpr (congrArg _ h)]
      · rw [compare_gt_iff_gt.mpr h, compare_gt_iff_gt.mpr (WithTop.coe_lt_coe.mpr h)]

theorem totalF64_lt_iff {x y : Binary64.Double} : totalF64 x y = .lt ↔ x.place < y.place := by
  rw [totalF64_eq, compare_lt_iff_lt]

theorem totalF64_swap (x y : Binary64.Double) : (totalF64 x y).swap = totalF64 y x := by
  rw [totalF64_eq, totalF64_eq]
  exact Std.OrientedOrd.eq_swap.symm

theorem rank_swap (a b : Value) :
    (compare (keyRank a) (keyRank b)).swap = compare (keyRank b) (keyRank a) :=
  Std.OrientedOrd.eq_swap.symm

/-- `keyCmp` is symmetric. -/
theorem keyCmp_swap (a b : Value) : (keyCmp a b).swap = keyCmp b a := by
  cases a with
  | null =>
    cases b with
    | null => rfl
    | _ => exact rank_swap _ _
  | integer x =>
    cases b with
    | integer y => exact Std.OrientedOrd.eq_swap.symm
    | real y => exact totalF64_swap _ _
    | _ => exact rank_swap _ _
  | real x =>
    cases b with
    | integer y | real y => exact totalF64_swap _ _
    | _ => exact rank_swap _ _
  | text s =>
    cases b with
    | text t => exact cmp_swap _ _
    | _ => exact rank_swap _ _
  | _ => cases b <;> exact rank_swap _ _

/-! ## The other way round -/

/-- The difference from the other side; a changed row is labelled by its left key. -/
def DiffRow.reversed (keyIndex : Nat) : DiffRow → DiffRow
  | ⟨.added, key, left, right, changed⟩ => ⟨.removed, key, right, left, changed⟩
  | ⟨.removed, key, left, right, changed⟩ => ⟨.added, key, right, left, changed⟩
  | ⟨.changed, _, left, right, changed⟩ =>
    ⟨.changed, keyLabel showReal keyIndex right, right, left, changed⟩

def DiffAccumulator.reversed (acc : DiffAccumulator) : DiffAccumulator :=
  { acc with
    summary := ⟨acc.summary.removed, acc.summary.added, acc.summary.changed, acc.summary.unchanged⟩
    rows := acc.rows.map (·.reversed showReal acc.keyIndex) }

theorem compareKeys_swap (k : Nat) : (fun r l => (compareKeys k l r).swap) = compareKeys k := by
  funext r l
  unfold compareKeys
  cases l[k]? <;> cases r[k]? <;> first | rfl | exact keyCmp_swap _ _

theorem cellEq_comm (a b : Value) : cellEq a b = cellEq b a := by
  cases a with
  | real x =>
    cases b with
    | real y =>
      have heq : ∀ x y : Binary64.Double, x.eq y = y.eq x := by
        intro x y
        cases x <;> cases y <;> first | rfl | exact BEq.comm
      simp only [cellEq, valueEq, Bool.and_comm, heq]
    | _ => rfl
  | _ => cases b <;> first | rfl | exact BEq.comm

theorem mask_comm (l r : Row) : mask l r = mask r l := by
  unfold mask
  rw [← List.zip_swap, List.map_map]
  exact List.map_congr_left fun p _ => congrArg (!·) (cellEq_comm p.2 p.1)

namespace DiffAccumulator

variable (acc : DiffAccumulator)

theorem store_reversed (d : DiffRow) : (acc.store d).reversed showReal =
    (acc.reversed showReal).store (d.reversed showReal acc.keyIndex) := by
  unfold store reversed
  rw [List.length_map]
  split <;> simp

theorem record_reversed (m : Met Row) : (acc.record showReal m).reversed showReal =
    (acc.reversed showReal).record showReal m.swap := by
  cases m with
  | left l | right r => exact store_reversed showReal _ _
  | both l r =>
    have hback : differs r l = differs l r := congrArg (List.any · id) (mask_comm r l)
    simp only [Met.swap, record_both, pair, hback, changedRow, mask_comm r l]
    split_ifs
    · exact store_reversed showReal _ _
    · rfl

theorem foldl_reversed (ms : List (Met Row)) : (ms.foldl (·.record showReal ·) acc).reversed showReal =
    (ms.map Met.swap).foldl (·.record showReal ·) (acc.reversed showReal) := by
  induction ms generalizing acc with
  | nil => rfl
  | cons m ms ih => rw [List.foldl_cons, ih, record_reversed, List.map_cons, List.foldl_cons]

end DiffAccumulator

/-- **The data diff is a mirror**, in whatever order the rows come. -/
theorem diffSorted_reversed (left right : List Row) (keyIndex cap : Nat) :
    diffSorted showReal right left keyIndex cap =
      (diffSorted showReal left right keyIndex cap).reversed showReal := by
  rw [diffSorted_eq, diffSorted_eq, DiffAccumulator.foldl_reversed, ← walk_swap, compareKeys_swap]
  rfl

/-- **It tells no difference exactly where the tables agree row by row.** -/
theorem diffSorted_silent_iff (left right : List Row) (k cap : Nat) :
    (∃ n, (diffSorted showReal left right k cap).summary = ⟨0, 0, 0, n⟩) ↔
      List.Forall₂ (fun l r => compareKeys k l r = .eq ∧ differs l r = false) left right := by
  rw [diffSorted_eq, DiffAccumulator.foldl_summary]
  simp only [DiffAccumulator.new, Nat.zero_add, DiffSummary.mk.injEq, exists_and_left, exists_eq', and_true]
  induction left, right using walk.induct (compareKeys k) with
  | case1 => simp
  | case2 l ls | case3 r rs => simp [Met.isLeft, Met.isRight]
  | case4 l ls r rs h => simp [walk_lt h, h, Met.isLeft]
  | case5 l ls r rs h => simp [walk_gt h, h, Met.isRight]
  | case6 l ls r rs h ih =>
    rw [walk_eq h, List.forall₂_cons, ← ih]
    cases hd : differs l r <;> simp [h, hd, Met.isLeft, Met.isRight, Met.isBoth]

end Walk

/-- The order a query puts its key values in. Keys that `keyCmp` tells apart come in
its order, and cells that compare equal have one place. -/
structure FeedOrder (κ : Type*) [LinearOrder κ] where
  place : Value → κ
  aligned : ∀ {a b}, keyCmp a b = .lt → place a < place b
  same : ∀ {a b}, cellEq a b = true → place a = place b

namespace FeedOrder

variable {κ : Type*} [LinearOrder κ] (F : FeedOrder κ) (k : Nat)

/-- The place of a row by its key column; a row without one comes first. -/
def rowKey (row : Row) : WithBot κ :=
  match row[k]? with
  | some v => F.place v
  | none => ⊥

/-- Rows in the order of their query, no key twice. -/
structure Table where
  rows : List Row
  ascending : Ascending (F.rowKey k) rows

/-- A difference between two tables, as the row that reports it. -/
inductive Difference (showReal : UInt64 → Bytes) (left right : F.Table k) : DiffRow → Prop where
  | added {r} (hr : r ∈ right.rows) (hnone : ∀ l ∈ left.rows, F.rowKey k l ≠ F.rowKey k r) :
      Difference showReal left right (addedRow showReal k r)
  | removed {l} (hl : l ∈ left.rows) (hnone : ∀ r ∈ right.rows, F.rowKey k r ≠ F.rowKey k l) :
      Difference showReal left right (removedRow showReal k l)
  | changed {l r} (hl : l ∈ left.rows) (hr : r ∈ right.rows)
      (hkey : F.rowKey k l = F.rowKey k r) (hdiff : differs l r = true) :
      Difference showReal left right (changedRow showReal k l r)

/-- The place of a stored row. -/
def diffKey (d : DiffRow) : WithBot κ :=
  match d.kind with
  | .added => F.rowKey k d.right
  | _ => F.rowKey k d.left

/-- The walk says of every row what its key says. -/
structure Classifies (showReal : UInt64 → Bytes) (left right : F.Table k) (cap : Nat)
    (acc : DiffAccumulator) : Prop where
  added : acc.summary.added =
    right.rows.countP fun r => ∀ l ∈ left.rows, F.rowKey k l ≠ F.rowKey k r
  removed : acc.summary.removed =
    left.rows.countP fun l => ∀ r ∈ right.rows, F.rowKey k r ≠ F.rowKey k l
  changed : acc.summary.changed =
    left.rows.countP fun l => ∃ r ∈ right.rows, F.rowKey k l = F.rowKey k r ∧ differs l r = true
  unchanged : acc.summary.unchanged =
    left.rows.countP fun l =>
      ∃ r ∈ right.rows, F.rowKey k l = F.rowKey k r ∧ (!differs l r) = true
  /-- Every row is in exactly one total. -/
  leftTotal : acc.summary.removed + acc.summary.changed + acc.summary.unchanged =
    left.rows.length
  rightTotal : acc.summary.added + acc.summary.changed + acc.summary.unchanged =
    right.rows.length
  /-- The stored rows are the first differences in key order. -/
  stored : ∃ found : List DiffRow,
    found.Pairwise (fun d e => F.diffKey k d < F.diffKey k e) ∧
    (∀ d, d ∈ found ↔ F.Difference k showReal left right d) ∧
    acc.rows = found.take cap ∧ (acc.truncated = true ↔ cap < found.length)

/-- `compareKeys` tells a row from the first row of the other side that comes after
it, unless that side has a row with its key. -/
abbrev ToldApart (left right : F.Table k) : Prop :=
  Apart (F.rowKey k) (compareKeys k) left.rows right.rows

variable {F k}

theorem place_lt_of_gt {a b : Value} (h : keyCmp a b = .gt) : F.place b < F.place a := by
  refine F.aligned ?_
  rw [← keyCmp_swap, h]
  rfl

theorem coarsens : Coarsens (F.rowKey k) (compareKeys k) where
  lt {l r} h := by
    unfold compareKeys at h
    unfold rowKey
    cases hl : l[k]? <;> cases hr : r[k]? <;> simp only [hl, hr] at h ⊢
    · cases h
    · exact WithBot.bot_lt_coe _
    · cases h
    · exact WithBot.coe_lt_coe.mpr (F.aligned h)
  gt {l r} h := by
    unfold compareKeys at h
    unfold rowKey
    cases hl : l[k]? <;> cases hr : r[k]? <;> simp only [hl, hr] at h ⊢
    · cases h
    · cases h
    · exact WithBot.bot_lt_coe _
    · exact WithBot.coe_lt_coe.mpr (place_lt_of_gt h)

/-- Rows with different keys that `compareKeys` calls equal differ in their keys. -/
theorem differs_of_mispaired {l r : Row} (hcmp : compareKeys k l r = .eq)
    (hkey : F.rowKey k l ≠ F.rowKey k r) : differs l r = true := by
  unfold compareKeys at hcmp
  unfold rowKey at hkey
  cases hl : l[k]? <;> cases hr : r[k]? <;> simp only [hl, hr] at hcmp hkey
  · exact absurd rfl hkey
  · cases hcmp
  · cases hcmp
  · rename_i a b
    have hne : cellEq a b = false := by
      by_contra hsame
      exact hkey (congrArg _ (F.same (Bool.of_not_eq_false hsame)))
    have hzip : (a, b) ∈ l.zip r := by
      refine List.mem_of_getElem? (i := k) ?_
      rw [List.getElem?_zip_eq_some]
      exact ⟨hl, hr⟩
    rw [differs, List.any_eq_true]
    exact ⟨true, List.mem_map.mpr ⟨(a, b), hzip, by simp [hne]⟩, rfl⟩

section Findings

variable {showReal : UInt64 → Bytes} {left right : F.Table k} {cap : Nat}

/-- A stored row has the key of the finding it reports. -/
theorem diffKey_foundRow {m : Met Row} {d : DiffRow} (h : foundRow showReal k m = some d) :
    F.diffKey k d = m.keyOf (F.rowKey k) := by
  cases m with
  | left l | right r =>
    cases h
    rfl
  | both l r =>
    obtain ⟨-, hd⟩ := Option.ite_none_right_eq_some.mp h
    cases hd
    rfl

/-- The findings of an exact walk are the differences of its tables. -/
theorem mem_findings_iff (he : Exact (F.rowKey k) (compareKeys k) left.rows right.rows)
    (d : DiffRow) :
    d ∈ (walk (compareKeys k) left.rows right.rows).filterMap (foundRow showReal k) ↔
      F.Difference k showReal left right d := by
  rw [List.mem_filterMap]
  constructor
  · rintro ⟨m, hm, hd⟩
    cases m with
    | left l =>
      obtain ⟨hl, hnone⟩ := (he.mem_left coarsens left.ascending right.ascending).mp hm
      cases hd
      exact .removed hl hnone
    | right r =>
      obtain ⟨hr, hnone⟩ := (he.mem_right coarsens left.ascending right.ascending).mp hm
      cases hd
      exact .added hr hnone
    | both l r =>
      obtain ⟨hl, hr, hkey⟩ := (he.mem_both coarsens left.ascending right.ascending).mp hm
      obtain ⟨hdiff, hd⟩ := Option.ite_none_right_eq_some.mp hd
      cases hd
      exact .changed hl hr hkey hdiff
  · intro h
    cases h with
    | added hr hnone =>
      exact ⟨_, (he.mem_right coarsens left.ascending right.ascending).mpr ⟨hr, hnone⟩, rfl⟩
    | removed hl hnone =>
      exact ⟨_, (he.mem_left coarsens left.ascending right.ascending).mpr ⟨hl, hnone⟩, rfl⟩
    | changed hl hr hkey hdiff =>
      exact ⟨_, (he.mem_both coarsens left.ascending right.ascending).mpr ⟨hl, hr, hkey⟩,
        if_pos hdiff⟩

/-- What the walk keeps is the start of its findings. -/
theorem diffSorted_keeps (left right : List Row) : (diffSorted showReal left right k cap).Keeps
      ((walk (compareKeys k) left right).filterMap (foundRow showReal k)) := by
  have hnew : (DiffAccumulator.new k cap).Keeps [] := ⟨List.take_nil.symm, rfl⟩
  rw [diffSorted_eq]
  exact hnew.foldl showReal _

theorem diffSorted_cap (left right : List Row) :
    (diffSorted showReal left right k cap).cap = cap := by
  rw [diffSorted_eq, DiffAccumulator.foldl_cap]
  rfl

theorem classifies_of_exact (he : Exact (F.rowKey k) (compareKeys k) left.rows right.rows) :
    F.Classifies k showReal left right cap (diffSorted showReal left.rows right.rows k cap) := by
  have hsum : (diffSorted showReal left.rows right.rows k cap).summary = _ :=
    (congrArg _ (diffSorted_eq ..)).trans (DiffAccumulator.foldl_summary ..)
  have hkeeps := @diffSorted_keeps k showReal cap left.rows right.rows
  have hla := left.ascending
  have hra := right.ascending
  constructor
  case added => rw [hsum, ← he.countP_isRight coarsens hla hra]; simp [DiffAccumulator.new]
  case removed => rw [hsum, ← he.countP_isLeft coarsens hla hra]; simp [DiffAccumulator.new]
  case changed => rw [hsum, ← he.countP_isBoth coarsens hla hra]; simp [DiffAccumulator.new]
  case unchanged =>
    rw [hsum, ← he.countP_isBoth coarsens hla hra fun l r => !differs l r]
    simp [DiffAccumulator.new]
  case leftTotal =>
    rw [hsum, ← length_left (compareKeys k) left.rows right.rows differs]
    simp [DiffAccumulator.new]
  case rightTotal =>
    rw [hsum, ← length_right (compareKeys k) left.rows right.rows differs]
    simp [DiffAccumulator.new]
  case stored =>
    refine ⟨_, ?_, mem_findings_iff he, ?_, ?_⟩
    · rw [List.pairwise_filterMap]
      refine (he.ascending coarsens hla hra).imp ?_
      intro m m' hlt d hd d' hd'
      rwa [diffKey_foundRow hd, diffKey_foundRow hd']
    · rw [hkeeps.rows, diffSorted_cap]
    · rw [hkeeps.truncated, diffSorted_cap, decide_eq_true_eq]

/-- A walk that classifies by key pairs equal keys only. -/
theorem exact_of_classifies
    (h : F.Classifies k showReal left right (left.rows.length + right.rows.length)
      (diffSorted showReal left.rows right.rows k (left.rows.length + right.rows.length))) :
    Exact (F.rowKey k) (compareKeys k) left.rows right.rows := by
  intro l r hm
  by_contra hkey
  have hdiff := differs_of_mispaired (cmp_of_both hm) hkey
  -- the pair is stored as a changed row, which no two different keys account for
  obtain ⟨found, -, hfound, hrows, -⟩ := h.stored
  have hstored : changedRow showReal k l r ∈ found := by
    refine List.mem_of_mem_take (i := left.rows.length + right.rows.length) ?_
    rw [← hrows, (diffSorted_keeps left.rows right.rows).rows, diffSorted_cap,
      List.take_of_length_le]
    · exact List.mem_filterMap.mpr ⟨_, hm, if_pos hdiff⟩
    · exact (List.length_filterMap_le ..).trans length_walk_le
  generalize hd : changedRow showReal k l r = d at hstored
  cases (hfound d).mp hstored with
  | added hr hnone | removed hl hnone => exact DiffKind.noConfusion (congrArg DiffRow.kind hd)
  | changed hl hr hsame hdiff' =>
    have hl : l = _ := congrArg DiffRow.left hd
    have hr : r = _ := congrArg DiffRow.right hd
    rw [hl, hr] at hkey
    exact hkey hsame

end Findings

end FeedOrder

/-- **The diff classifies by key exactly when neighbouring keys of the two sides are
told apart**: for every order the feeding query may impose and every two tables in
that order, whatever the cap. -/
theorem diffSorted_exact_iff {κ : Type*} [LinearOrder κ] (F : FeedOrder κ) (k : Nat)
    (showReal : UInt64 → Bytes) (left right : F.Table k) :
    (∀ cap, F.Classifies k showReal left right cap
      (diffSorted showReal left.rows right.rows k cap)) ↔ F.ToldApart k left right := by
  constructor
  · intro h
    exact (exact_iff_apart FeedOrder.coarsens left.ascending right.ascending).mp
      (FeedOrder.exact_of_classifies (h _))
  · intro h cap
    exact FeedOrder.classifies_of_exact
      ((exact_iff_apart FeedOrder.coarsens left.ascending right.ascending).mpr h)

/-! ## The byte order -/

/-- The place of a value by its shape, its number and its bytes. -/
abbrev StoragePlace := Nat ×ₗ WithTop Int ×ₗ List Nat

def storagePlace : Value → StoragePlace
  | .null => toLex (0, toLex (0, []))
  | .integer n => toLex (1, toLex (((n * (Binary64.one : Nat) : Int) : WithTop Int), []))
  | .real x => toLex (1, toLex ((Binary64.decode x).place, []))
  | .text s => toLex (2, toLex (0, s.map UInt8.toNat))
  | .blob b => toLex (3, toLex (0, b.map UInt8.toNat))
  | .capped c => toLex (4, toLex (0, c.head.map UInt8.toNat))

theorem storagePlace_rank (v : Value) : (ofLex (storagePlace v)).1 = keyRank v := by
  cases v <;> rfl

theorem storagePlace_lt_of_rank {a b : Value} (h : compare (keyRank a) (keyRank b) = .lt) :
    storagePlace a < storagePlace b := by
  rw [Prod.Lex.lt_iff, storagePlace_rank, storagePlace_rank]
  exact Or.inl (compare_lt_iff_lt.mp h)

theorem storagePlace_real_lt {p q : WithTop Int} (h : p < q) :
    (toLex (1, toLex (p, [])) : StoragePlace) < toLex (1, toLex (q, [])) := by
  rw [Prod.Lex.toLex_lt_toLex]
  exact Or.inr ⟨rfl, Prod.Lex.toLex_lt_toLex.mpr (Or.inl h)⟩

theorem storagePlace_bytes_lt {n : Nat} {s t : List Nat} (h : s < t) :
    (toLex (n, toLex (0, s)) : StoragePlace) < toLex (n, toLex (0, t)) := by
  rw [Prod.Lex.toLex_lt_toLex]
  exact Or.inr ⟨rfl, Prod.Lex.toLex_lt_toLex.mpr (Or.inr ⟨rfl, h⟩)⟩

/-- An integer whose double comes before another double comes before it itself. -/
theorem ofInt_lt_place {n : Int} {x : UInt64}
    (h : (Binary64.ofInt n).place < (Binary64.decode x).place) :
    ((n * (Binary64.one : Nat) : Int) : WithTop Int) < (Binary64.decode x).place := by
  cases hx : Binary64.decode x with
  | nan => exact WithTop.coe_lt_top _
  | num y =>
    obtain ⟨r, hr, -, hdown⟩ := Binary64.ofInt_side n hx
    rw [hr, hx] at h
    have hlt : r < y := WithTop.coe_lt_coe.mp h
    refine WithTop.coe_lt_coe.mpr (lt_of_not_ge fun hge => ?_)
    exact absurd (hdown hge) (not_le.mpr hlt)

theorem place_lt_ofInt {n : Int} {x : UInt64}
    (h : (Binary64.decode x).place < (Binary64.ofInt n).place) :
    (Binary64.decode x).place < ((n * (Binary64.one : Nat) : Int) : WithTop Int) := by
  cases hx : Binary64.decode x with
  | nan =>
    rw [hx] at h
    exact absurd h not_top_lt
  | num y =>
    obtain ⟨r, hr, hup, -⟩ := Binary64.ofInt_side n hx
    rw [hr, hx] at h
    have hlt : y < r := WithTop.coe_lt_coe.mp h
    refine WithTop.coe_lt_coe.mpr (lt_of_not_ge fun hge => ?_)
    exact absurd (hup hge) (not_le.mpr hlt)

/-- What `keyCmp` tells apart comes in its order. -/
theorem storagePlace_aligned {a b : Value} (h : keyCmp a b = .lt) :
    storagePlace a < storagePlace b := by
  cases a with
  | integer x =>
    cases b with
    | integer y =>
      have hone : (0 : Int) < (Binary64.one : Nat) := by
        unfold Binary64.one
        positivity
      refine storagePlace_real_lt (WithTop.coe_lt_coe.mpr ?_)
      exact Int.mul_lt_mul_of_pos_right (compare_lt_iff_lt.mp h) hone
    | real y =>
      exact storagePlace_real_lt (ofInt_lt_place (totalF64_lt_iff.mp h))
    | _ => exact storagePlace_lt_of_rank h
  | real x =>
    cases b with
    | integer y =>
      exact storagePlace_real_lt (place_lt_ofInt (totalF64_lt_iff.mp h))
    | real y =>
      exact storagePlace_real_lt (totalF64_lt_iff.mp h)
    | _ => exact storagePlace_lt_of_rank h
  | text s =>
    cases b with
    | text t => exact storagePlace_bytes_lt (cmpBytes_lt_iff.mp h)
    | _ => exact storagePlace_lt_of_rank h
  | null =>
    cases b with
    | null => cases h
    | _ => exact storagePlace_lt_of_rank h
  | _ => cases b <;> exact storagePlace_lt_of_rank h

/-- Cells that compare equal have one place. -/
theorem storagePlace_same {a b : Value} (h : cellEq a b = true) :
    storagePlace a = storagePlace b := by
  cases a with
  | real x =>
    cases b with
    | real y =>
      have hplace : (Binary64.decode x).place = (Binary64.decode y).place := by
        unfold cellEq valueEq at h
        cases hx : Binary64.decode x <;> cases hy : Binary64.decode y <;>
          simp_all [Binary64.Double.isNaN, Binary64.Double.eq]
      rw [storagePlace, storagePlace, hplace]
    | _ => exact congrArg storagePlace (eq_of_beq h)
  | _ => exact congrArg storagePlace (eq_of_beq h)

/-- NULLs first, numbers by value, text and blobs by their bytes. -/
def storageOrder : FeedOrder StoragePlace where
  place := storagePlace
  aligned := storagePlace_aligned
  same := storagePlace_same

/-- A table with one row: a blob key and a text. -/
def blobTable (key : UInt8) : storageOrder.Table 0 :=
  ⟨[[.blob [key], .text (ascii "x")]], List.pairwise_singleton ..⟩

/-- A row whose blob key is only on the left and one whose key is only on the right
come out as one changed row. -/
theorem blobKeys_paired :
    (diffSorted (fun _ => []) (blobTable 1).rows (blobTable 2).rows 0 20000).summary =
        ⟨0, 0, 1, 0⟩ ∧ ¬ storageOrder.Classifies 0 (fun _ => []) (blobTable 1) (blobTable 2) 20000
        (diffSorted (fun _ => []) (blobTable 1).rows (blobTable 2).rows 0 20000) := by
  have hsum : (diffSorted (fun _ => []) (blobTable 1).rows (blobTable 2).rows 0 20000).summary =
      ⟨0, 0, 1, 0⟩ := by decide
  refine ⟨hsum, fun h => ?_⟩
  have hremoved := h.removed
  rw [hsum] at hremoved
  exact absurd hremoved (by decide)

end RedDb.Diff
