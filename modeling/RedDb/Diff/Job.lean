import RedDb.Diff.Walk

/-!
# RedDb — the streaming diff

`diffJob` compares two tables without holding either: it resolves the key, opens
one cursor a side in key order, aligns the columns by name and walks both streams
with the accumulator's `step`. Rows come in windows; a side's next window is
fetched when its buffer has drained, one window a round. A window may have any
size, and only its `exhausted` flag marks the end of a stream.

* `mergeLoop_eq` — without a gap the rounds record the merge of the whole streams;
* `mergeWindows_iff` — the job agrees with `diffSorted` on all contents of a cut
  exactly when neither side has a gap;
* `gap_dropsRows` — an empty window in mid-stream, and what the job reports.
-/

namespace RedDb.Diff

open ByteText RedDb.Driver MergeWalk

/-! ## Cursors -/

structure RowWindow where
  rows : List Row
  exhausted : Bool

/-- What a cursor has left to hand out: windows up to the one that is marked as the
last, or up to an error. -/
inductive Stream where
  | last (rows : List Row)
  | more (rows : List Row) (rest : Stream)
  | fail (e : RedError)

def Stream.nextWindow : Stream → Except RedError (RowWindow × Stream)
  | last rows => .ok (⟨rows, true⟩, last [])
  | more rows rest => .ok (⟨rows, false⟩, rest)
  | fail e => .error e

/-- The rows of all windows. -/
@[grind =] def Stream.rows : Stream → List Row
  | last rows => rows
  | more rows rest => rows ++ rest.rows
  | fail _ => []

structure ColumnMeta where
  name : Bytes
  typeName : Option Bytes
  primaryKey : Bool

/-- One side of a compare: its table, and what its driver says about it. -/
structure Side where
  table : TableRef
  describeTable : Except RedError (List ColumnMeta)
  quoteTable : TableRef → Bytes
  diffOrderClause : Bytes → Bool → Bytes
  openCursor : Bytes → Except RedError (List Bytes × Stream)

/-! ## The key and the two queries -/

/-- A valid UTF-8 text as a string. -/
def utf8 (b : Bytes) : String := (String.fromUTF8? ⟨b.toArray⟩).getD ""

/-- An empty key stands for the primary key of the left table. -/
def resolveKey (left : TableRef) (columns : List ColumnMeta) (key : Bytes) :
    Except RedError Bytes :=
  if key.isEmpty then
    match (columns.filter (·.primaryKey)).map (·.name) with
    | [only] => .ok only
    | [] => .error (.query ("'" ++ utf8 left.name ++
        "' has no primary key; pick a key column to compare by"))
    | _ => .error (.query ("'" ++ utf8 left.name ++
        "' has a composite primary key; pick a single key column to compare by"))
  else .ok key

/-- A declared type of the text family, in any engine's spelling. -/
def isTextDecl : Option Bytes → Bool
  | none => false
  | some ty =>
    let t := asciiLower ty
    t == ascii "name" || t == ascii "clob" ||
      decide (ascii "char" <:+: t) || decide (ascii "text" <:+: t) || decide (ascii "string" <:+: t)

def keyIsText (columns : List ColumnMeta) (key : Bytes) : Bool :=
  match columns.find? fun c => eqIgnoreAsciiCase c.name key with
  | some c => isTextDecl c.typeName
  | none => false

def Side.query (side : Side) (columns : List ColumnMeta) (key : Bytes) : Bytes :=
  ascii "SELECT * FROM " ++ side.quoteTable side.table ++ ascii " ORDER BY " ++
    side.diffOrderClause key (keyIsText columns key)

/-! ## Aligning the columns -/

structure DiffColumnPlan where
  key : Bytes
  columns : List Bytes
  leftOnly : List Bytes
  rightOnly : List Bytes

/-- Where each compared column is on either side, and which of them is the key. -/
structure Alignment where
  proj : List (Nat × Nat)
  keyIndex : Nat
  inBounds : keyIndex < proj.length

def findColumn (columns : List Bytes) (name : Bytes) : Option Nat :=
  columns.findIdx? fun c => eqIgnoreAsciiCase c name

/-- The columns of the left side that the right has too, with both positions. -/
def comparedColumns (leftCols rightCols : List Bytes) : List (Bytes × Nat × Nat) :=
  leftCols.zipIdx.filterMap fun (name, li) =>
    (findColumn rightCols name).map fun ri => (name, li, ri)

def alignColumns (leftCols rightCols : List Bytes) (key : Bytes) :
    Except RedError (DiffColumnPlan × Alignment) :=
  let compared := comparedColumns leftCols rightCols
  match h : compared.findIdx? fun c => eqIgnoreAsciiCase c.1 key with
  | none => .error (.query ("key column '" ++ utf8 key ++ "' is not present on both tables"))
  | some keyIndex =>
    have hlt : keyIndex < compared.length := (List.findIdx?_eq_some_iff_getElem.mp h).1
    .ok (⟨compared[keyIndex].1, compared.map (·.1),
        leftCols.filter fun name => (findColumn rightCols name).isNone,
        rightCols.filter fun name => (findColumn leftCols name).isNone⟩,
      ⟨compared.map (·.2), keyIndex, by rw [List.length_map]; exact hlt⟩)

/-- A raw row in the order of the compared columns. -/
def Alignment.project (a : Alignment) (sideLeft : Bool) (row : Row) : Row :=
  a.proj.map fun (li, ri) => (row[if sideLeft then li else ri]?).getD .null

/-! ## The merge over windows -/

/-- One side during the walk: its projected rows that are still to be looked at, and
whether its cursor is exhausted. -/
structure SideState where
  buf : List Row
  done : Bool
  stream : Stream

/-- Fetch one window when the buffer has drained; also the number of rows fetched. -/
def SideState.refill (project : Row → Row) (s : SideState) : Except RedError (SideState × Nat) :=
  if s.buf.isEmpty && !s.done then
    match s.stream.nextWindow with
    | .error e => .error e
    | .ok (window, rest) =>
      .ok (⟨s.buf ++ window.rows.map project, window.exhausted, rest⟩, window.rows.length)
  else .ok (s, 0)

def SideState.popFront (s : SideState) : SideState := { s with buf := s.buf.tail }

def diffRowCap : Nat := 20000

def diffProgressStep : Nat := 20000

/-- The loop's variables, and the progress events sent so far. -/
structure JobState where
  acc : DiffAccumulator
  left : SideState
  right : SideState
  scanned : Nat
  sinceTick : Nat
  progress : List Nat

section Merge

variable (showReal : UInt64 → Bytes) (a : Alignment)

def JobState.init (left right : Stream) : JobState :=
  ⟨.new a.keyIndex diffRowCap, ⟨[], false, left⟩, ⟨[], false, right⟩, 0, 0, []⟩

/-- Both refills and the progress report of a round. -/
def JobState.fetch (s : JobState) : Except RedError JobState :=
  match s.left.refill (a.project true) with
  | .error e => .error e
  | .ok (left, nl) =>
    match s.right.refill (a.project false) with
    | .error e => .error e
    | .ok (right, nr) =>
      let scanned := s.scanned + nl + nr
      let sinceTick := s.sinceTick + nl + nr
      if diffProgressStep ≤ sinceTick then
        .ok { s with left, right, scanned, sinceTick := 0, progress := s.progress ++ [scanned] }
      else .ok { s with left, right, scanned, sinceTick }

/-- The loop from round `n` on, cut after `fuel` rounds. -/
def mergeLoop (cancelled : Nat → Bool) : Nat → Nat → JobState → Except RedError JobState
  | 0, _, s => .ok s
  | fuel + 1, n, s =>
    if cancelled n then .error .interrupted
    else match s.fetch a with
      | .error e => .error e
      | .ok s =>
        match s.acc.step showReal s.left.buf.head? s.right.buf.head? with
        | (acc, .done) => .ok { s with acc }
        | (acc, .left) => mergeLoop cancelled fuel (n + 1) { s with acc, left := s.left.popFront }
        | (acc, .right) =>
          mergeLoop cancelled fuel (n + 1) { s with acc, right := s.right.popFront }
        | (acc, .both) =>
          mergeLoop cancelled fuel (n + 1)
            { s with acc, left := s.left.popFront, right := s.right.popFront }

/-- Every round but the last consumes a row, so the bound on the rounds is no limit. -/
def mergeWindows (cancelled : Nat → Bool) (left right : Stream) :
    Except RedError DiffAccumulator :=
  (mergeLoop showReal a cancelled (left.rows.length + right.rows.length + 1) 0
    (.init a left right)).map JobState.acc

end Merge

/-- Compare two tables by a shared key. -/
def diffJob (showReal : UInt64 → Bytes) (left right : Side) (key : Bytes)
    (cancelled : Nat → Bool) : Except RedError (DiffColumnPlan × DiffAccumulator) := do
  let leftDetail ← left.describeTable
  let rightDetail ← right.describeTable
  let key ← resolveKey left.table leftDetail key
  let (leftCols, leftStream) ← left.openCursor (left.query leftDetail key)
  let (rightCols, rightStream) ← right.openCursor (right.query rightDetail key)
  let (plan, a) ← alignColumns leftCols rightCols key
  let acc ← mergeWindows showReal a cancelled leftStream rightStream
  return (plan, acc)

/-! ## Streams without a gap -/

/-- The sizes of the windows of a stream. -/
inductive Cut where
  | last (n : Nat)
  | more (n : Nat) (rest : Cut)

@[grind =] def Cut.total : Cut → Nat
  | last n => n
  | more n rest => n + rest.total

/-- No empty window has rows after it. -/
def Cut.NoGap : Cut → Prop
  | last _ => True
  | more n rest => (n = 0 → rest.total = 0) ∧ rest.NoGap

/-- The stream is cut into windows of these sizes. -/
def Stream.HasCut : Stream → Cut → Prop
  | last rows, .last n => rows.length = n
  | more rows rest, .more n cut => rows.length = n ∧ rest.HasCut cut
  | _, _ => False

/-- A stream that reaches its end, and in which no empty window has rows after it. -/
def Stream.Steady : Stream → Prop
  | last _ => True
  | more rows rest => (rows = [] → rest.rows = []) ∧ rest.Steady
  | fail _ => False

variable {cut : Cut}

theorem Stream.length_rows {s : Stream} (h : s.HasCut cut) : s.rows.length = cut.total := by
  induction s generalizing cut with
  | last rows =>
    cases cut with
    | last n => exact h
    | more n cut => exact h.elim
  | more rows rest ih =>
    cases cut with
    | last n => exact h.elim
    | more n cut => rw [Stream.rows, List.length_append, Cut.total, h.1, ih h.2]
  | fail e => cases cut <;> exact h.elim

theorem Stream.steady_of_cut {s : Stream} (h : s.HasCut cut) (hgap : cut.NoGap) : s.Steady := by
  induction s generalizing cut with
  | last rows => trivial
  | more rows rest ih =>
    cases cut with
    | last n => exact h.elim
    | more n cut =>
      refine ⟨?_, ih h.2 hgap.2⟩
      rintro rfl
      refine List.eq_nil_of_length_eq_zero ?_
      rw [Stream.length_rows h.2, hgap.1 h.1.symm]
  | fail e => cases cut <;> exact h.elim

namespace SideState

variable {project : Row → Row} {s t : SideState} {n : Nat}

variable (project) in
/-- The projected rows the walk has not looked at. -/
def pending (s : SideState) : List Row :=
  s.buf ++ if s.done then [] else s.stream.rows.map project

/-- What is left of the cursor has no gap. -/
def Steady (s : SideState) : Prop := s.done = false → s.stream.Steady

variable (project) in
/-- The buffer has drained only if the side has no rows left. -/
def Ready (s : SideState) : Prop := s.buf = [] → s.pending project = []

theorem Ready.head? (h : s.Ready project) : s.buf.head? = (s.pending project).head? := by
  cases hbuf : s.buf with
  | nil => rw [h hbuf]
  | cons row rows => rw [pending, hbuf, List.cons_append, List.head?_cons, List.head?_cons]

theorem Ready.popFront (h : s.Ready project) :
    s.popFront.pending project = (s.pending project).tail := by
  cases hbuf : s.buf with
  | nil =>
    rw [h hbuf]
    have hnil := h hbuf
    rw [pending, hbuf, List.nil_append] at hnil
    rw [pending, SideState.popFront, hbuf, List.tail_nil, List.nil_append, hnil]
  | cons row rows =>
    rw [pending, pending, SideState.popFront, hbuf, List.tail_cons, List.cons_append,
      List.tail_cons]

variable (project) in
/-- A refill of a side without a gap loses nothing and leaves the side ready. -/
theorem refill_steady (h : s.Steady) :
    ∃ t n, s.refill project = .ok (t, n) ∧ t.Steady ∧ t.pending project = s.pending project ∧
      t.Ready project := by
  unfold refill
  split
  · rename_i hdrained
    obtain ⟨hbuf, hdone⟩ : s.buf = [] ∧ s.done = false := by
      simpa using hdrained
    have hstream := h hdone
    cases hs : s.stream with
    | last rows =>
      refine ⟨_, _, rfl, (by rintro ⟨⟩), ?_, ?_⟩
      · simp [pending, hdone, hs, Stream.rows]
      · simp [Ready, pending]
    | more rows rest =>
      rw [hs] at hstream
      refine ⟨_, _, rfl, fun _ => hstream.2, ?_, ?_⟩
      · simp [pending, hdone, hs, Stream.rows]
      · intro hempty
        obtain ⟨-, hrows⟩ := List.append_eq_nil_iff.mp hempty
        have hrows : rows = [] := List.map_eq_nil_iff.mp hrows
        simp [pending, hbuf, hrows, hstream.1 hrows]
    | fail e =>
      rw [hs] at hstream
      exact hstream.elim
  · rename_i hkept
    refine ⟨s, 0, rfl, h, rfl, fun hbuf => ?_⟩
    have hdone : s.done = true := by simpa [hbuf] using hkept
    simp [pending, hbuf, hdone]

end SideState

variable {s : JobState} {fuel n : Nat} {left right : Stream}

section Loop

variable (showReal : UInt64 → Bytes) {a : Alignment}

/-- A round's fetches lose nothing and leave both sides ready. -/
theorem fetch_steady (hl : s.left.Steady) (hr : s.right.Steady) :
    ∃ t, s.fetch a = .ok t ∧ t.acc = s.acc ∧ t.left.Steady ∧ t.right.Steady ∧
      t.left.pending (a.project true) = s.left.pending (a.project true) ∧
      t.right.pending (a.project false) = s.right.pending (a.project false) ∧
      t.left.Ready (a.project true) ∧ t.right.Ready (a.project false) := by
  obtain ⟨left, nl, hleft, hls, hlp, hlr⟩ := SideState.refill_steady (a.project true) hl
  obtain ⟨right, nr, hright, hrs, hrp, hrr⟩ :=
    SideState.refill_steady (a.project false) hr
  unfold JobState.fetch
  simp only [hleft, hright]
  split
  · exact ⟨_, rfl, rfl, hls, hrs, hlp, hrp, hlr, hrr⟩
  · exact ⟨_, rfl, rfl, hls, hrs, hlp, hrp, hlr, hrr⟩

/-- **The rounds record the merge of the whole streams** when neither side has a gap. -/
theorem mergeLoop_eq {ls rs : List Row} (hl : s.left.Steady) (hr : s.right.Steady)
    (hls : s.left.pending (a.project true) = ls) (hrs : s.right.pending (a.project false) = rs)
    (hfuel : ls.length + rs.length < fuel) :
    ∃ t, mergeLoop showReal a (fun _ => false) fuel n s = .ok t ∧
      t.acc = (walk (compareKeys s.acc.keyIndex) ls rs).foldl (·.record showReal ·) s.acc := by
  induction fuel generalizing n s ls rs with
  | zero => exact absurd hfuel (Nat.not_lt_zero _)
  | succ fuel ih =>
    obtain ⟨t, hfetch, hacc, htl, htr, hlp, hrp, hlready, hrready⟩ := fetch_steady hl hr
    rw [hls] at hlp
    rw [hrs] at hrp
    have hltail := hlready.popFront
    have hrtail := hrready.popFront
    unfold mergeLoop
    simp only [Bool.false_eq_true, if_false, hfetch]
    rw [hlready.head?, hrready.head?, hlp, hrp, hacc]
    rw [hlp] at hltail
    rw [hrp] at hrtail
    cases ls with
    | nil =>
      cases rs with
      | nil => exact ⟨_, rfl, by simp⟩
      | cons r rs =>
        obtain ⟨u, hu, huacc⟩ := @ih
          { t with acc := s.acc.added showReal r, right := t.right.popFront } (n + 1) [] rs htl htr
          hlp hrtail (by simp at hfuel ⊢; omega)
        exact ⟨u, hu, by simpa using huacc⟩
    | cons l ls =>
      cases rs with
      | nil =>
        obtain ⟨u, hu, huacc⟩ := @ih
          { t with acc := s.acc.removed showReal l, left := t.left.popFront } (n + 1) ls [] htl htr
          hltail hrp (by simp at hfuel ⊢; omega)
        exact ⟨u, hu, by simpa using huacc⟩
      | cons r rs =>
        simp only [List.length_cons] at hfuel
        simp only [List.head?_cons, DiffAccumulator.step]
        cases hcmp : compareKeys s.acc.keyIndex l r with
        | lt =>
          obtain ⟨u, hu, huacc⟩ := @ih
            { t with acc := s.acc.removed showReal l, left := t.left.popFront } (n + 1) ls (r :: rs)
            htl htr hltail hrp (by simp only [List.length_cons]; omega)
          exact ⟨u, hu, by simpa [walk_lt hcmp] using huacc⟩
        | gt =>
          obtain ⟨u, hu, huacc⟩ := @ih
            { t with acc := s.acc.added showReal r, right := t.right.popFront } (n + 1) (l :: ls) rs
            htl htr hlp hrtail (by simp only [List.length_cons]; omega)
          exact ⟨u, hu, by simpa [walk_gt hcmp] using huacc⟩
        | eq =>
          obtain ⟨u, hu, huacc⟩ := @ih
            { t with acc := s.acc.pair showReal l r, left := t.left.popFront,
                     right := t.right.popFront } (n + 1) ls rs
            htl htr hltail hrtail (by omega)
          exact ⟨u, hu, by simpa [walk_eq hcmp] using huacc⟩

theorem mergeWindows_eq (hl : left.Steady) (hr : right.Steady) :
    mergeWindows showReal a (fun _ => false) left right =
      .ok (diffSorted showReal (left.rows.map (a.project true))
        (right.rows.map (a.project false)) a.keyIndex diffRowCap) := by
  have hfuel : (left.rows.map (a.project true)).length + (right.rows.map (a.project false)).length <
      left.rows.length + right.rows.length + 1 := by simp
  obtain ⟨t, ht, hacc⟩ := mergeLoop_eq showReal (n := 0) (s := .init a left right)
    (fun _ => hl) (fun _ => hr) rfl rfl hfuel
  rw [mergeWindows, diffSorted_eq, ht]
  exact congrArg Except.ok hacc

end Loop

/-! ## A gap -/

section Gap

variable {showReal : UInt64 → Bytes} {a : Alignment} {b : Bool}

/-- The left side, or the right one. -/
def JobState.side (s : JobState) (b : Bool) : SideState := if b then s.left else s.right

/-- Rows reported as being on one side only. -/
def DiffSummary.lone (s : DiffSummary) (b : Bool) : Nat := if b then s.removed else s.added

/-- Rows reported as being on both. -/
def DiffSummary.pairs (s : DiffSummary) : Nat := s.changed + s.unchanged

/-- `compareKeys`, seen from one side. -/
def sideCmp (k : Nat) (b : Bool) (x y : Row) : Ordering :=
  if b then compareKeys k x y else (compareKeys k y x).swap

/-- The state after one row alone was reported, or none: what was counted, and what
is left of the two sides. -/
structure Reports (b : Bool) (near far : SideState) (count : Nat) (s u : JobState) : Prop where
  near : u.side b = near
  far : u.side (!b) = far
  keyIndex : u.acc.keyIndex = s.acc.keyIndex
  pairs : u.acc.summary.pairs = s.acc.summary.pairs
  lone : u.acc.summary.lone b = s.acc.summary.lone b + count

/-- What a round does, once both sides are refilled: it ends the walk, takes a row of
one side alone, or takes an equal pair. -/
inductive Round (showReal : UInt64 → Bytes) (a : Alignment) (b : Bool) (near far : SideState)
    (fuel n : Nat) (s t : JobState) : Prop where
  | done (hnear : near.buf.head? = none) (hfar : far.buf.head? = none) (h : t.acc = s.acc)
  | near {x u} (hnear : near.buf.head? = some x)
      (hcmp : ∀ y, far.buf.head? = some y → sideCmp s.acc.keyIndex b x y = .lt)
      (h : mergeLoop showReal a (fun _ => false) fuel (n + 1) u = .ok t)
      (hu : Reports b near.popFront far 1 s u)
  | far {y u} (hfar : far.buf.head? = some y)
      (hcmp : ∀ x, near.buf.head? = some x → sideCmp s.acc.keyIndex b x y = .gt)
      (h : mergeLoop showReal a (fun _ => false) fuel (n + 1) u = .ok t)
      (hu : Reports b near far.popFront 0 s u)
  | both {x y} (hnear : near.buf.head? = some x) (hfar : far.buf.head? = some y)
      (hcmp : sideCmp s.acc.keyIndex b x y = .eq)

variable {t u : JobState} {m : Nat} {r x : Row} {project : Row → Row}

/-- A row of the left side is reported: a near row, or a far one. -/
theorem removed_reports {near far : SideState} {l : Row}
    (h : u.acc = s.acc.removed showReal l) (hnear : u.side b = near) (hfar : u.side (!b) = far) :
    Reports b near far b.toNat s u := by
  refine ⟨hnear, hfar, ?_, ?_, ?_⟩
  · rw [h, DiffAccumulator.removed_keyIndex]
  · simp [h, DiffAccumulator.removed, DiffSummary.pairs]
  · cases b <;> simp [h, DiffAccumulator.removed, DiffSummary.lone]

theorem added_reports {near far : SideState}
    (h : u.acc = s.acc.added showReal r) (hnear : u.side b = near) (hfar : u.side (!b) = far) :
    Reports b near far (!b).toNat s u := by
  refine ⟨hnear, hfar, ?_, ?_, ?_⟩
  · rw [h, DiffAccumulator.added_keyIndex]
  · simp [h, DiffAccumulator.added, DiffSummary.pairs]
  · cases b <;> simp [h, DiffAccumulator.added, DiffSummary.lone]

theorem fetch_ok (h : s.fetch a = .ok u) :
    ∃ nl nr, s.left.refill (a.project true) = .ok (u.left, nl) ∧
      s.right.refill (a.project false) = .ok (u.right, nr) ∧ u.acc = s.acc := by
  unfold JobState.fetch at h
  split at h
  · cases h
  rename_i left nl hleft
  split at h
  · cases h
  rename_i right nr hright
  simp only at h
  split at h <;> cases h
  · exact ⟨nl, nr, hleft, hright, rfl⟩
  · exact ⟨nl, nr, hleft, hright, rfl⟩

/-- The round of a loop that ends well, from either side's point of view. -/
theorem mergeLoop_round (b : Bool)
    (h : mergeLoop showReal a (fun _ => false) (fuel + 1) n s = .ok t) :
    ∃ near far nn nf, (s.side b).refill (a.project b) = .ok (near, nn) ∧
      (s.side (!b)).refill (a.project (!b)) = .ok (far, nf) ∧
      Round showReal a b near far fuel n s t := by
  unfold mergeLoop at h
  simp only [Bool.false_eq_true, if_false] at h
  split at h
  · cases h
  rename_i u hu
  obtain ⟨nl, nr, hleft, hright, hacc⟩ := fetch_ok hu
  have hround : ∀ b, Round showReal a b (u.side b) (u.side (!b)) fuel n s t := by
    intro b
    rw [hacc] at h
    cases hl : u.left.buf.head? with
    | none =>
      cases hr : u.right.buf.head? with
      | none =>
        simp only [hl, hr, DiffAccumulator.step] at h
        cases h
        cases b
        · exact .done hr hl rfl
        · exact .done hl hr rfl
      | some r =>
        simp only [hl, hr, DiffAccumulator.step] at h
        cases b
        · exact .near hr (by simp [JobState.side, hl]) h (added_reports rfl rfl rfl)
        · exact .far hr (by simp [JobState.side, hl]) h (added_reports rfl rfl rfl)
    | some l =>
      cases hr : u.right.buf.head? with
      | none =>
        simp only [hl, hr, DiffAccumulator.step] at h
        cases b
        · exact .far hl (by simp [JobState.side, hr]) h (removed_reports rfl rfl rfl)
        · exact .near hl (by simp [JobState.side, hr]) h (removed_reports rfl rfl rfl)
      | some r =>
        simp only [hl, hr, DiffAccumulator.step] at h
        cases hcmp : compareKeys s.acc.keyIndex l r with
        | lt =>
          rw [hcmp] at h
          cases b
          · exact .far hl (by simp [JobState.side, hr, sideCmp, hcmp]) h
              (removed_reports rfl rfl rfl)
          · exact .near hl (by simp [JobState.side, hr, sideCmp, hcmp]) h
              (removed_reports rfl rfl rfl)
        | gt =>
          rw [hcmp] at h
          cases b
          · exact .near hr (by simp [JobState.side, hl, sideCmp, hcmp]) h
              (added_reports rfl rfl rfl)
          · exact .far hr (by simp [JobState.side, hl, sideCmp, hcmp]) h
              (added_reports rfl rfl rfl)
        | eq =>
          cases b
          · exact .both hr hl (by simp [sideCmp, hcmp])
          · exact .both hl hr (by simp [sideCmp, hcmp])
  cases b
  · exact ⟨_, _, nr, nl, hright, hleft, hround false⟩
  · exact ⟨_, _, nl, nr, hleft, hright, hround true⟩

/-- No refill changes what is still to come. -/
theorem refill_pending {s t : SideState}
    (h : s.refill project = .ok (t, n)) : t.pending project = s.pending project := by
  unfold SideState.refill at h
  split at h
  · rename_i hdrained
    obtain ⟨hbuf, hdone⟩ : s.buf = [] ∧ s.done = false := by
      simpa using hdrained
    cases hs : s.stream with
    | last rows | more rows rest =>
      rw [hs] at h
      cases h
      simp [SideState.pending, hdone, hs, Stream.rows]
    | fail e =>
      rw [hs] at h
      cases h
  · cases h
    rfl

theorem mem_pending_of_head {s : SideState} (h : s.buf.head? = some x) : x ∈ s.pending project :=
  List.mem_append_left _ (List.mem_of_head? h)

theorem mem_pending_of_popFront {s : SideState}
    (h : x ∈ s.popFront.pending project) : x ∈ s.pending project := by
  rcases List.mem_append.mp h with h | h
  · exact List.mem_append_left _ (List.mem_of_mem_tail h)
  · exact List.mem_append_right _ h

/-- Rows that are all different are reported one by one. -/
theorem pairs_of_apart (h : mergeLoop showReal a (fun _ => false) fuel n s = .ok t)
    (hne : ∀ x ∈ (s.side b).pending (a.project b), ∀ y ∈ (s.side (!b)).pending (a.project (!b)),
      sideCmp s.acc.keyIndex b x y ≠ .eq) : t.acc.summary.pairs = s.acc.summary.pairs := by
  induction fuel generalizing n s with
  | zero =>
    cases h
    rfl
  | succ fuel ih =>
    obtain ⟨near, far, nn, nf, hnear, hfar, hround⟩ := mergeLoop_round b h
    rw [← refill_pending hnear, ← refill_pending hfar] at hne
    cases hround with
    | done _ _ hacc => rw [hacc]
    | near _ _ hrest hu =>
      rw [← hu.pairs]
      refine ih hrest fun x hx y hy => ?_
      rw [hu.near] at hx
      rw [hu.far] at hy
      rw [hu.keyIndex]
      exact hne x (mem_pending_of_popFront hx) y hy
    | far _ _ hrest hu =>
      rw [← hu.pairs]
      refine ih hrest fun x hx y hy => ?_
      rw [hu.near] at hx
      rw [hu.far] at hy
      rw [hu.keyIndex]
      exact hne x hx y (mem_pending_of_popFront hy)
    | both hx hy hcmp =>
      exact absurd hcmp (hne _ (mem_pending_of_head hx) _ (mem_pending_of_head hy))

variable (a)

/-- A raw row with an integer where the key is, on either side. -/
def numbered (v : Int) : Row :=
  let p := a.proj.get ⟨a.keyIndex, a.inBounds⟩
  List.replicate (p.1 + p.2 + 1) (.integer v)

/-- Rows with one key throughout. -/
def constant (v : Int) : Cut → Stream
  | .last n => .last (List.replicate n (numbered a v))
  | .more n cut => .more (List.replicate n (numbered a v)) (constant v cut)

/-- Key 0 up to the first empty window, key 1 after it. -/
def beforeGap : Cut → Stream
  | .last n => .last (List.replicate n (numbered a 0))
  | .more 0 cut => .more [] (constant a 1 cut)
  | .more (n + 1) cut => .more (List.replicate (n + 1) (numbered a 0)) (beforeGap cut)

/-- One row with key 1, key 2 after it. -/
@[grind =] def afterGap : Cut → Stream
  | .last 0 => .last []
  | .last (n + 1) => .last (numbered a 1 :: List.replicate n (numbered a 2))
  | .more 0 cut => .more [] (afterGap cut)
  | .more (n + 1) cut => .more (numbered a 1 :: List.replicate n (numbered a 2)) (constant a 2 cut)

variable {a}

theorem project_numbered (b : Bool) (v : Int) :
    (a.project b (numbered a v))[a.keyIndex]? = some (.integer v) := by
  have hget : a.proj[a.keyIndex]? = some (a.proj.get ⟨a.keyIndex, a.inBounds⟩) := by
    rw [List.getElem?_eq_getElem a.inBounds]
    rfl
  rw [Alignment.project, List.getElem?_map, hget]
  simp only [Option.map_some, numbered, Option.some.injEq]
  rw [List.getElem?_replicate, if_pos (by split <;> omega)]
  rfl

theorem sideCmp_numbered (b : Bool) (v w : Int) :
    sideCmp a.keyIndex b (a.project b (numbered a v)) (a.project (!b) (numbered a w)) =
      compare v w := by
  cases b with
  | true =>
    rw [sideCmp, if_pos rfl, compareKeys, project_numbered, project_numbered]
    rfl
  | false =>
    rw [sideCmp, if_neg Bool.false_ne_true, compareKeys, project_numbered, project_numbered]
    exact (Std.OrientedOrd.eq_swap).symm

theorem constant_cut (v : Int) (cut : Cut) : (constant a v cut).HasCut cut := by
  induction cut with
  | last n => exact List.length_replicate
  | more n cut ih => exact ⟨List.length_replicate, ih⟩

theorem beforeGap_cut (cut : Cut) : (beforeGap a cut).HasCut cut := by
  induction cut using beforeGap.induct with
  | case1 n => exact List.length_replicate
  | case2 cut => exact ⟨rfl, constant_cut 1 cut⟩
  | case3 n cut ih => exact ⟨List.length_replicate, ih⟩

theorem afterGap_cut (cut : Cut) : (afterGap a cut).HasCut cut := by
  induction cut using afterGap.induct with
  | case1 => rfl
  | case2 n => simp [afterGap, Stream.HasCut]
  | case3 cut ih => exact ⟨rfl, ih⟩
  | case4 n cut => exact ⟨by simp, constant_cut 2 cut⟩

theorem constant_rows (v : Int) (cut : Cut) :
    (constant a v cut).rows = List.replicate cut.total (numbered a v) := by
  induction cut with
  | last n => rfl
  | more n cut ih => rw [constant, Stream.rows, ih, Cut.total, List.replicate_append_replicate]

theorem afterGap_rows (cut : Cut) : (afterGap a cut).rows = [] ∧ cut.total = 0 ∨ ∃ n,
      (afterGap a cut).rows = numbered a 1 :: List.replicate n (numbered a 2) := by
  induction cut using afterGap.induct with
  | case1 => exact Or.inl ⟨rfl, rfl⟩
  | case2 n => exact Or.inr ⟨n, rfl⟩
  | case3 cut ih => simpa [afterGap, Stream.rows, Cut.total] using ih
  | case4 n cut =>
    refine Or.inr ⟨n + cut.total, ?_⟩
    rw [afterGap, Stream.rows, constant_rows, List.cons_append, List.replicate_append_replicate]

theorem Cut.noGap_of_empty (h : cut.total = 0) : cut.NoGap := by
  induction cut with
  | last n => trivial
  | more n cut ih =>
    rw [Cut.total] at h
    exact ⟨fun _ => by omega, ih (by omega)⟩

/-- Where there is a gap, rows with key 1 come after those with key 0. -/
theorem beforeGap_rows (hgap : ¬ cut.NoGap) : ∃ m n, (beforeGap a cut).rows =
      List.replicate m (numbered a 0) ++ List.replicate (n + 1) (numbered a 1) := by
  induction cut using beforeGap.induct with
  | case1 n => exact absurd trivial hgap
  | case2 cut =>
    have hpos : cut.total ≠ 0 := fun h => hgap ⟨fun _ => h, Cut.noGap_of_empty h⟩
    obtain ⟨n, hn⟩ := Nat.exists_eq_succ_of_ne_zero hpos
    refine ⟨0, n, ?_⟩
    rw [beforeGap, Stream.rows, constant_rows, hn]
    rfl
  | case3 n cut ih =>
    obtain ⟨m, k, hrows⟩ := ih fun h => hgap ⟨fun h => absurd h (Nat.succ_ne_zero n), h⟩
    refine ⟨n + 1 + m, k, ?_⟩
    rw [beforeGap, Stream.rows, hrows, ← List.append_assoc, List.replicate_append_replicate]

/-- The side before its gap: rows with key 0 in the buffer, the gap still to come. -/
def AtGap (b : Bool) (cut : Cut) (m : Nat) (s : SideState) : Prop :=
  s = ⟨List.replicate m (a.project b (numbered a 0)), false, beforeGap a cut⟩

/-- A refill before the gap brings more rows with key 0, or meets the gap. -/
theorem refill_atGap {s t : SideState} (hs : AtGap (a := a) b cut m s)
    (hgap : ¬ cut.NoGap) (h : s.refill (a.project b) = .ok (t, n)) :
    (∃ cut' m', AtGap (a := a) b cut' (m' + 1) t ∧ ¬ cut'.NoGap ∧
        m' + 1 + cut'.total = m + cut.total) ∨
      ∃ cut', t = ⟨[], false, constant a 1 cut'⟩ ∧ 0 < m + cut.total := by
  unfold AtGap at hs
  subst hs
  cases m with
  | succ m =>
    cases h
    exact Or.inl ⟨cut, m, rfl, hgap, rfl⟩
  | zero =>
    cases cut with
    | last k => exact absurd trivial hgap
    | more k cut =>
      cases k with
      | zero =>
        cases h
        refine Or.inr ⟨cut, rfl, Nat.pos_of_ne_zero fun hzero => hgap ?_⟩
        simp only [Cut.total] at hzero
        exact ⟨fun _ => by omega, Cut.noGap_of_empty (by omega)⟩
      | succ k =>
        cases h
        refine Or.inl ⟨cut, k, ?_, fun h => hgap ⟨fun h => absurd h (Nat.succ_ne_zero k), h⟩, ?_⟩
        · rw [AtGap, List.map_replicate]
          rfl
        · rw [Cut.total, Nat.zero_add]

/-- The other side's rows: none, or one with key 1 and then key 2. -/
def Behind (b : Bool) (rows : List Row) : Prop :=
  rows = [] ∨ ∃ k, rows = a.project b (numbered a 1) ::
    List.replicate k (a.project b (numbered a 2))

theorem Behind.lt {rows : List Row} (h : Behind (a := a) (!b) rows) {y : Row} (hy : y ∈ rows) :
    sideCmp a.keyIndex b (a.project b (numbered a 0)) y = .lt := by
  rcases h with rfl | ⟨k, rfl⟩
  · cases hy
  rcases List.mem_cons.mp hy with rfl | hy
  · exact sideCmp_numbered b 0 1
  · rw [List.eq_of_mem_replicate hy]
    exact sideCmp_numbered b 0 2

/-- Past the first row, the other side's rows are none of those after the gap. -/
theorem Behind.ne {rows : List Row} (h : Behind (a := a) (!b) rows) {y : Row}
    (hy : y ∈ rows.tail) : sideCmp a.keyIndex b (a.project b (numbered a 1)) y ≠ .eq := by
  rcases h with rfl | ⟨k, rfl⟩
  · cases hy
  · rw [List.eq_of_mem_replicate hy, sideCmp_numbered]
    exact Ordering.noConfusion

theorem popFront_pending {s : SideState}
    (h : s.buf.head? = some x) : s.popFront.pending project = (s.pending project).tail := by
  obtain ⟨rows, hbuf⟩ := List.head?_eq_some_iff.mp h
  rw [SideState.pending, SideState.pending, SideState.popFront, hbuf, List.tail_cons,
    List.cons_append, List.tail_cons]

/-- Up to the gap one side's rows are reported alone; there the other side's first
row is, whatever comes after the gap. -/
theorem gap_phase
    (h : mergeLoop showReal a (fun _ => false) fuel n s = .ok t)
    (hkey : s.acc.keyIndex = a.keyIndex) (hgap : ¬ cut.NoGap)
    (hnear : AtGap (a := a) b cut m (s.side b))
    (hfar : Behind (a := a) (!b) ((s.side (!b)).pending (a.project (!b)))) :
    t.acc.summary.pairs = s.acc.summary.pairs ∧
      ((s.side (!b)).pending (a.project (!b)) = [] →
        t.acc.summary.lone b < s.acc.summary.lone b + (m + cut.total)) := by
  induction fuel generalizing n m cut s with
  | zero =>
    have hpos : cut.total ≠ 0 := fun h => hgap (Cut.noGap_of_empty h)
    cases h
    exact ⟨rfl, fun _ => by omega⟩
  | succ fuel ih =>
    obtain ⟨near, far, nn, nf, hn, hf, hround⟩ := mergeLoop_round b h
    rw [← refill_pending hf] at hfar ⊢
    rcases refill_atGap hnear hgap hn with ⟨cut', m', hat, hgap', hsize⟩ | ⟨cut', rfl, hpos⟩
    · have hhead : near.buf.head? = some (a.project b (numbered a 0)) := by
        rw [hat]
        rfl
      cases hround with
      | done hnone => exact absurd (hnone.symm.trans hhead) (Option.some_ne_none _).symm
      | near _ _ hrest hu =>
        have hnear' : AtGap (a := a) b cut' m' near.popFront := by
          rw [hat]
          rfl
        rw [← hu.near] at hnear'
        rw [← hu.far] at hfar ⊢
        obtain ⟨hpairs, hlone⟩ := ih hrest (hu.keyIndex.trans hkey) hgap' hnear' hfar
        refine ⟨hpairs.trans hu.pairs, fun hnil => ?_⟩
        have hlt := hlone hnil
        rw [hu.lone] at hlt
        omega
      | far hy hcmp =>
        have hgt := hcmp _ hhead
        rw [hkey, hfar.lt (mem_pending_of_head hy)] at hgt
        cases hgt
      | both hx hy hcmp =>
        cases hx.symm.trans hhead
        rw [hkey, hfar.lt (mem_pending_of_head hy)] at hcmp
        cases hcmp
    · cases hround with
      | done _ _ hacc =>
        rw [hacc]
        exact ⟨rfl, fun _ => by omega⟩
      | near hx => cases hx
      | far hy hcmp hrest hu =>
        refine ⟨?_, fun hnil => ?_⟩
        · rw [← hu.pairs]
          refine pairs_of_apart (b := b) hrest fun x hx y hy' => ?_
          rw [hu.near] at hx
          rw [hu.far, popFront_pending hy] at hy'
          have hx : x = a.project b (numbered a 1) := by
            simp only [SideState.pending, Bool.false_eq_true, if_false, List.nil_append,
              constant_rows, List.map_replicate] at hx
            exact List.eq_of_mem_replicate hx
          rw [hx, hu.keyIndex, hkey]
          exact hfar.ne hy'
        · have hmem : _ ∈ far.pending (a.project (!b)) := mem_pending_of_head hy
          rw [hnil] at hmem
          cases hmem
      | both hx => cases hx

/-- The walk over the whole lists pairs the first rows with key 1. -/
theorem walk_pairs {p₀ p₁ : Row} {xs ys : List Row} {cmp : Row → Row → Ordering}
    (hlt : cmp p₀ r = .lt) (heq : cmp p₁ r = .eq) :
    Met.both p₁ r ∈ walk cmp (List.replicate m p₀ ++ p₁ :: xs) (r :: ys) := by
  induction m with
  | zero =>
    rw [List.replicate_zero, List.nil_append, walk_eq heq]
    exact List.mem_cons_self
  | succ m ih =>
    rw [List.replicate_succ, List.cons_append, walk_lt hlt]
    exact List.mem_cons_of_mem _ ih

theorem walk_pairs_right {p₀ p₁ : Row} {xs ys : List Row}
    {cmp : Row → Row → Ordering} (hgt : cmp r p₀ = .gt) (heq : cmp r p₁ = .eq) :
    Met.both r p₁ ∈ walk cmp (r :: ys) (List.replicate m p₀ ++ p₁ :: xs) := by
  induction m with
  | zero =>
    rw [List.replicate_zero, List.nil_append, walk_eq heq]
    exact List.mem_cons_self
  | succ m ih =>
    rw [List.replicate_succ, List.cons_append, walk_gt hgt]
    exact List.mem_cons_of_mem _ ih

/-- The two projected inputs of a job, the near side's first. -/
def inputs (b : Bool) (near far : Stream) : List Row × List Row :=
  if b then (near.rows.map (a.project true), far.rows.map (a.project false))
  else (far.rows.map (a.project true), near.rows.map (a.project false))

theorem pairs_pos {cap : Nat} {left right : List Row} {l : Row}
    (h : Met.both l r ∈ walk (compareKeys a.keyIndex) left right) :
    0 < (diffSorted showReal left right a.keyIndex cap).summary.pairs := by
  rw [diffSorted_eq, DiffAccumulator.foldl_summary]
  have hpos : 0 < (walk (compareKeys a.keyIndex) left right).countP (Met.isBoth differs) ∨
      0 < (walk (compareKeys a.keyIndex) left right).countP
        (Met.isBoth fun l r => !differs l r) := by
    simp only [List.countP_pos_iff]
    cases hd : differs l r with
    | true => exact Or.inl ⟨_, h, hd⟩
    | false => exact Or.inr ⟨_, h, by simp [Met.isBoth, hd]⟩
  simp only [DiffSummary.pairs]
  omega

/-- What `diffSorted` counts for a side alone and for both are the rows of the side. -/
theorem lone_add_pairs (showReal : UInt64 → Bytes) (cap : Nat) (near far : Stream) (b : Bool) :
    let acc := diffSorted showReal (inputs (a := a) b near far).1 (inputs (a := a) b near far).2
      a.keyIndex cap
    acc.summary.lone b + acc.summary.pairs = near.rows.length := by
  intro acc
  have hsum : acc.summary = _ :=
    (congrArg _ (diffSorted_eq ..)).trans (DiffAccumulator.foldl_summary ..)
  rw [hsum]
  cases b with
  | true =>
    have hlen := length_left (compareKeys a.keyIndex) (near.rows.map (a.project true))
      (far.rows.map (a.project false)) differs
    rw [List.length_map] at hlen
    simp only [DiffSummary.lone, DiffSummary.pairs, inputs, if_true, DiffAccumulator.new] at hlen ⊢
    omega
  | false =>
    have hlen := length_right (compareKeys a.keyIndex) (far.rows.map (a.project true))
      (near.rows.map (a.project false)) differs
    rw [List.length_map] at hlen
    simp only [DiffSummary.lone, DiffSummary.pairs, inputs, Bool.false_eq_true, if_false,
      DiffAccumulator.new] at hlen ⊢
    omega

/-- A job whose near side has the gap counts no pair, and misses rows of the near side
when the far side has none. -/
theorem gap_counts {cn cf : Cut} {acc : DiffAccumulator}
    (hgap : ¬ cn.NoGap) (hnear : (JobState.init a left right).side b = ⟨[], false, beforeGap a cn⟩)
    (hfar : (JobState.init a left right).side (!b) = ⟨[], false, afterGap a cf⟩)
    (h : mergeWindows showReal a (fun _ => false) left right = .ok acc) :
    acc.summary.pairs = 0 ∧ ((afterGap a cf).rows = [] → acc.summary.lone b < cn.total) := by
  obtain ⟨t, ht, rfl⟩ : ∃ t, mergeLoop showReal a (fun _ => false)
      (left.rows.length + right.rows.length + 1) 0 (.init a left right) = .ok t ∧ t.acc = acc := by
    unfold mergeWindows at h
    cases hm : mergeLoop showReal a (fun _ => false) (left.rows.length + right.rows.length + 1) 0
        (.init a left right) with
    | error e =>
      rw [hm] at h
      cases h
    | ok t =>
      rw [hm] at h
      exact ⟨t, rfl, Except.ok.inj h⟩
  have hpending : ((JobState.init a left right).side (!b)).pending (a.project (!b)) =
      (afterGap a cf).rows.map (a.project (!b)) := by
    rw [hfar]
    simp [SideState.pending]
  have hbehind : Behind (a := a) (!b)
      (((JobState.init a left right).side (!b)).pending (a.project (!b))) := by
    rw [hpending]
    rcases afterGap_rows (a := a) cf with ⟨hnil, -⟩ | ⟨k, hrows⟩
    · exact Or.inl (by rw [hnil, List.map_nil])
    · exact Or.inr ⟨k, by rw [hrows, List.map_cons, List.map_replicate]⟩
  obtain ⟨hpairs, hlone⟩ := gap_phase (m := 0) ht rfl hgap hnear hbehind
  refine ⟨hpairs, fun hnil => ?_⟩
  have hlt := hlone (by rw [hpending, hnil, List.map_nil])
  cases b <;> simpa [JobState.init, DiffAccumulator.new, DiffSummary.lone] using hlt

/-- `diffSorted` on the same rows counts a pair, if the far side has rows at all. -/
theorem gap_pairs {cn cf : Cut} (showReal : UInt64 → Bytes) (cap : Nat) (hgap : ¬ cn.NoGap)
    (b : Bool) (hrows : (afterGap a cf).rows ≠ []) :
    let io := inputs (a := a) b (beforeGap a cn) (afterGap a cf)
    0 < (diffSorted showReal io.1 io.2 a.keyIndex cap).summary.pairs := by
  intro io
  obtain ⟨m, n, hnear⟩ := beforeGap_rows (a := a) hgap
  obtain ⟨k, hfar⟩ := (afterGap_rows (a := a) cf).resolve_left fun h => hrows h.1
  have hlt := sideCmp_numbered (a := a) b 0 1
  have heq := sideCmp_numbered (a := a) b 1 1
  cases b with
  | true =>
    refine pairs_pos (l := a.project true (numbered a 1)) (r := a.project false (numbered a 1)) ?_
    simp only [io, inputs, if_true, hnear, hfar, List.map_append, List.map_replicate,
      List.map_cons, List.replicate_succ]
    exact walk_pairs hlt heq
  | false =>
    refine pairs_pos (l := a.project true (numbered a 1)) (r := a.project false (numbered a 1)) ?_
    simp only [io, inputs, Bool.false_eq_true, if_false, hnear, hfar, List.map_append,
      List.map_replicate, List.map_cons, List.replicate_succ]
    exact walk_pairs_right (Ordering.swap_inj.mp hlt) (Ordering.swap_inj.mp heq)

/-- A gap on the near side gives contents the job reports wrongly. -/
theorem gap_differs {cn cf : Cut} {cap : Nat} (b : Bool)
    (hgap : ¬ cn.NoGap) (hnear : (JobState.init a left right).side b = ⟨[], false, beforeGap a cn⟩)
    (hfar : (JobState.init a left right).side (!b) = ⟨[], false, afterGap a cf⟩) :
    mergeWindows showReal a (fun _ => false) left right ≠
      .ok (diffSorted showReal (left.rows.map (a.project true))
        (right.rows.map (a.project false)) a.keyIndex cap) := by
  intro h
  obtain ⟨hpairs, hlone⟩ := gap_counts hgap hnear hfar h
  have hinputs : inputs (a := a) b (beforeGap a cn) (afterGap a cf) =
      (left.rows.map (a.project true), right.rows.map (a.project false)) := by
    cases b with
    | true | false =>
      cases hnear
      cases hfar
      rfl
  have htotal := lone_add_pairs (a := a) showReal cap (beforeGap a cn) (afterGap a cf) b
  have hsome := @gap_pairs a cn cf showReal cap hgap b
  rw [hinputs] at htotal hsome
  rw [Stream.length_rows (beforeGap_cut cn)] at htotal
  by_cases hnil : (afterGap a cf).rows = []
  · have hlt := hlone hnil
    simp only at htotal
    omega
  · have hpos := hsome hnil
    simp only at hpos
    omega

end Gap

section Cuts

variable (showReal : UInt64 → Bytes) (a : Alignment)

/-- **The windowed merge agrees with `diffSorted` exactly for cuts without a gap**: for
all rows cut into windows of these sizes, if and only if no empty window of either
side has rows after it. -/
theorem mergeWindows_iff (cl cr : Cut) : (∀ left right : Stream, left.HasCut cl → right.HasCut cr →
      mergeWindows showReal a (fun _ => false) left right =
        .ok (diffSorted showReal (left.rows.map (a.project true))
          (right.rows.map (a.project false)) a.keyIndex diffRowCap)) ↔ cl.NoGap ∧ cr.NoGap := by
  constructor
  · intro h
    constructor
    · by_contra hgap
      exact gap_differs true hgap rfl rfl (h _ _ (beforeGap_cut cl) (afterGap_cut cr))
    · by_contra hgap
      exact gap_differs false hgap rfl rfl (h _ _ (afterGap_cut cl) (beforeGap_cut cr))
  · rintro ⟨hl, hr⟩ left right hleft hright
    exact mergeWindows_eq showReal (Stream.steady_of_cut hleft hl)
      (Stream.steady_of_cut hright hr)

end Cuts

section Example

/-- Two tables with the key as their only column. -/
def oneColumn : Alignment := ⟨[(0, 0)], 0, Nat.one_pos⟩

def gapStream : Stream := .more [] (.last [[.integer 1]])

def plainStream : Stream := .last [[.integer 1]]

/-- The same row on both sides, the left cursor with an empty window before it: the row
is reported as added and as removed. -/
theorem gap_dropsRows :
    (mergeWindows (fun _ => []) oneColumn (fun _ => false) gapStream plainStream).map
        (·.summary) = .ok ⟨1, 1, 0, 0⟩ ∧
      mergeWindows (fun _ => []) oneColumn (fun _ => false) gapStream plainStream ≠
        .ok (diffSorted (fun _ => []) gapStream.rows plainStream.rows 0 diffRowCap) := by
  have hjob : (mergeWindows (fun _ => []) oneColumn (fun _ => false) gapStream plainStream).map
      (·.summary) = .ok ⟨1, 1, 0, 0⟩ := by decide
  refine ⟨hjob, fun h => ?_⟩
  rw [h] at hjob
  exact absurd hjob (by decide)

end Example

end RedDb.Diff
