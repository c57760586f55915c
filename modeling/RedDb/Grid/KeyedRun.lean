import RedDb.Lib.WhileLoop

/-!
# RedDb — the rows a keyed grid holds

A keyed grid holds one run of rows. `ensure` drops what is far from the viewport and asks
for the page that is missing, `jumpExact` relocates the run, and `apply` drops a reply
unless it answers the last request and still fits the edge it was asked from.
-/

namespace RedDb.Grid

/-! ## The run -/

inductive RunFetch (K : Type*) where
  | forward (after : Option K)
  | backward (before : K)
  | jump (ordinal : Nat) (exact : Bool)
  deriving DecidableEq

def marginPages : Nat := 2

def flingPages : Nat := 3

def jumpPages : Nat := 2

structure KeyedRun (ρ : Type*) where
  page : Nat
  /-- Ordinal of the first row: exact, or an estimate after an interpolated jump. -/
  anchor : Nat
  rows : List ρ
  estimated : Bool
  atStart : Bool
  atEnd : Bool
  seq : Nat
  pending : Option Nat
  halted : Bool

namespace KeyedRun

variable {ρ K : Type*}

def new (page : Nat) : KeyedRun ρ := ⟨page, 0, [], false, false, false, 0, none, false⟩

def firstKey (key : ρ → K) (run : KeyedRun ρ) : Option K := run.rows.head?.map key

def lastKey (key : ρ → K) (run : KeyedRun ρ) : Option K := run.rows.getLast?.map key

def popFront (run : KeyedRun ρ) : KeyedRun ρ :=
  { run with rows := run.rows.tail, anchor := run.anchor + 1, atStart := false }

def popBack (run : KeyedRun ρ) : KeyedRun ρ :=
  { run with rows := run.rows.dropLast, atEnd := false }

def tooEarly (lo : Nat) (run : KeyedRun ρ) : Bool := run.anchor < lo && !run.rows.isEmpty

def tooLate (hi : Nat) (run : KeyedRun ρ) : Bool :=
  hi < run.anchor + run.rows.length && !run.rows.isEmpty

def evict (run : KeyedRun ρ) (lo hi : Nat) : KeyedRun ρ :=
  let run := WhileLoop.run (tooEarly lo) popFront run.rows.length run
  WhileLoop.run (tooLate hi) popBack run.rows.length run

/-- The run with the request in flight, and the request: the fetch, its limit and its
number. -/
def issue (run : KeyedRun ρ) (fetch : RunFetch K) : KeyedRun ρ × List (RunFetch K × Nat × Nat) :=
  ({ run with seq := run.seq + 1, pending := some (run.seq + 1) },
    [(fetch, run.page, run.seq + 1)])

def jumpExact (run : KeyedRun ρ) (ordinal : Nat) : KeyedRun ρ × List (RunFetch K × Nat × Nat) :=
  issue { run with
    rows := [], atStart := false, atEnd := false, estimated := false, halted := false }
    (.jump ordinal true)

def request (key : ρ → K) (run : KeyedRun ρ) (start stop total : Nat) :
    KeyedRun ρ × List (RunFetch K × Nat × Nat) :=
  if run.pending.isSome || run.halted then (run, [])
  else
    let margin := marginPages * run.page
    let lo := start - margin
    let hi := min (stop + margin) total
    if run.rows.isEmpty then
      if start = 0 then issue run (.forward none)
      -- At the end with no rows: a jump found nothing there.
      else if run.atEnd then (run, [])
      else issue run (.jump start false)
    else
      let runStart := run.anchor
      let runEnd := run.anchor + run.rows.length
      let jumpGap := jumpPages * run.page
      if runEnd + jumpGap ≤ start ∨ stop + jumpGap ≤ runStart then issue run (.jump start false)
      else
        let needFwd := runEnd < hi && !run.atEnd
        let needBack := lo < runStart && !run.atStart
        let fetch : Option (RunFetch K) :=
          if start < runStart && needBack then (run.firstKey key).map .backward
          else if needFwd then (run.lastKey key).map fun after => .forward (some after)
          else if needBack then (run.firstKey key).map .backward
          else none
        match fetch with
        | some fetch => issue run fetch
        | none => (run, [])

section Apply

variable [DecidableEq K] (key : ρ → K) (run : KeyedRun ρ) (rows : List ρ) (total : Nat)

def applyForward (after : Option K) : KeyedRun ρ :=
  if after ≠ run.lastKey key then run
  else
    let seeded :=
      if run.rows.isEmpty then { run with anchor := 0, atStart := true, estimated := false }
      else run
    let grown := { seeded with rows := seeded.rows ++ rows, atEnd := rows.length < run.page }
    if rows.length < run.page then
      { grown with anchor := total - grown.rows.length, estimated := false }
    else grown

def applyBackward (before : K) : KeyedRun ρ :=
  if run.rows.isEmpty || some before ≠ run.firstKey key then run
  else
    -- Rows arrive descending; each goes to the front.
    let grown := { run with rows := rows.reverse ++ run.rows, anchor := run.anchor - rows.length }
    if rows.length < run.page ∨ grown.anchor = 0 then
      { grown with atStart := true, anchor := 0, estimated := false }
    else grown

def applyJump (ordinal : Nat) (estimated : Bool) : KeyedRun ρ :=
  let short := decide (rows.length < run.page)
  let anchor :=
    if short then total - rows.length else min ordinal (total - rows.length)
  { run with
    rows := rows, atEnd := short, estimated := estimated && !short, anchor := anchor
    atStart := anchor == 0 }

/-- The run with no request in flight. -/
def freed : KeyedRun ρ := { run with pending := none }

def apply (fetch : RunFetch K) (estimated : Bool) (seq : Nat) : KeyedRun ρ :=
  if run.pending ≠ some seq then run
  else
    match fetch with
    | .forward after => run.freed.applyForward key rows total after
    | .backward before => run.freed.applyBackward key rows before
    | .jump ordinal _ => run.freed.applyJump rows total ordinal estimated

end Apply

def failed (run : KeyedRun ρ) (seq : Nat) : KeyedRun ρ :=
  if run.pending = some seq then { run with pending := none, halted := true } else run

/-- A failed fetch is held off until the viewport moves. -/
def retry (run : KeyedRun ρ) (moved : Bool) : KeyedRun ρ :=
  if run.halted && moved then { run with halted := false } else run

/-- The run without its book-keeping of requests. -/
def shown (run : KeyedRun ρ) : KeyedRun ρ :=
  { run with seq := 0, pending := none, halted := false }

@[simp] theorem issue_shown (run : KeyedRun ρ) (fetch : RunFetch K) :
    (run.issue fetch).1.shown = run.shown := rfl

@[simp] theorem failed_shown (run : KeyedRun ρ) (seq : Nat) :
    (run.failed seq).shown = run.shown := by
  unfold failed
  split <;> rfl

@[simp] theorem retry_shown (run : KeyedRun ρ) (moved : Bool) :
    (run.retry moved).shown = run.shown := by
  unfold retry
  split <;> rfl

/-- A paint asks for one page at most, and jumps to the first row it shows. -/
theorem request_cases (key : ρ → K) (run : KeyedRun ρ) (start stop total : Nat) :
    run.request key start stop total = (run, []) ∨
      ∃ fetch : RunFetch K, run.request key start stop total = run.issue fetch ∧
        ∀ ordinal exact, fetch = .jump ordinal exact → ordinal = start := by
  have hissue : ∀ fetch : RunFetch K, (∀ ordinal exact, fetch ≠ .jump ordinal exact) →
      ∀ ordinal exact, fetch = .jump ordinal exact → ordinal = start :=
    fun _ hno ordinal exact h => absurd h (hno ordinal exact)
  have hjump : ∀ ordinal exact, RunFetch.jump (K := K) start false = .jump ordinal exact →
      ordinal = start := by
    rintro _ _ ⟨⟩
    rfl
  unfold request
  split
  · exact Or.inl rfl
  dsimp only
  split
  · split
    · exact Or.inr ⟨_, rfl, hissue _ (by simp)⟩
    · split
      · exact Or.inl rfl
      · exact Or.inr ⟨_, rfl, hjump⟩
  split
  · exact Or.inr ⟨_, rfl, hjump⟩
  split
  · rename_i fetch hfetch
    refine Or.inr ⟨fetch, rfl, hissue fetch ?_⟩
    rintro ordinal exact rfl
    split at hfetch
    · obtain ⟨_, -, h⟩ := Option.map_eq_some_iff.mp hfetch
      cases h
    split at hfetch
    · obtain ⟨_, -, h⟩ := Option.map_eq_some_iff.mp hfetch
      cases h
    split at hfetch
    · obtain ⟨_, -, h⟩ := Option.map_eq_some_iff.mp hfetch
      cases h
    · cases hfetch
  · exact Or.inl rfl

theorem request_shown (key : ρ → K) (run : KeyedRun ρ) (start stop total : Nat) :
    (run.request key start stop total).1.shown = run.shown := by
  rcases request_cases key run start stop total with h | ⟨fetch, h, -⟩
  · rw [h]
  · rw [h, issue_shown]

end KeyedRun

structure GridBuffer (ρ : Type*) where
  run : KeyedRun ρ
  page : Nat
  lastStart : Option Nat

/-- The viewport is not flying past. -/
def GridBuffer.settled {ρ : Type*} (b : GridBuffer ρ) (start : Nat) : Bool :=
  match b.lastStart with
  | none => true
  | some prev => (start - prev) + (prev - start) ≤ flingPages * b.page

/-- The new buffer, what it asked for, and whether the viewport had settled. -/
def GridBuffer.ensure {ρ K : Type*} (key : ρ → K) (b : GridBuffer ρ) (start stop total : Nat) :
    GridBuffer ρ × List (RunFetch K × Nat × Nat) × Bool :=
  let margin := marginPages * b.page
  let run := b.run.evict (start - margin) (min (stop + margin) total)
  if stop ≤ start then ({ b with run := run }, [], true)
  else
    let run := run.retry (b.lastStart != some start)
    if b.settled start then
      let (run, sent) := run.request key start stop total
      ({ b with run := run, lastStart := some start }, sent, true)
    else ({ b with run := run, lastStart := some start }, [], false)

theorem GridBuffer.ensure_shown {ρ K : Type*} (key : ρ → K) (b : GridBuffer ρ)
    (start stop total : Nat) : (b.ensure key start stop total).1.run.shown =
      (b.run.evict (start - marginPages * b.page)
        (min (stop + marginPages * b.page) total)).shown := by
  unfold ensure
  dsimp only
  split
  · rfl
  split
  · show (KeyedRun.request _ _ _ _ _).1.shown = _
    rw [KeyedRun.request_shown, KeyedRun.retry_shown]
  · show (KeyedRun.retry _ _).shown = _
    rw [KeyedRun.retry_shown]

theorem GridBuffer.ensure_page {ρ K : Type*} (key : ρ → K) (b : GridBuffer ρ)
    (start stop total : Nat) : (b.ensure key start stop total).1.page = b.page := by
  unfold ensure
  dsimp only
  split
  · rfl
  · split <;> rfl

theorem GridBuffer.ensure_sent {ρ K : Type*} {key : ρ → K} {b : GridBuffer ρ}
    {start stop total ordinal limit seq : Nat} {exact : Bool}
    (h : (RunFetch.jump ordinal exact, limit, seq) ∈ (b.ensure key start stop total).2.1) :
    ordinal = start ∧ start < stop := by
  unfold ensure at h
  dsimp only at h
  split at h
  · cases h
  rename_i hlt
  split at h
  · refine ⟨?_, by omega⟩
    rcases KeyedRun.request_cases key _ start stop total with hr | ⟨fetch, hr, hjump⟩
    · rw [hr] at h
      cases h
    · rw [hr] at h
      obtain ⟨rfl, -⟩ := Prod.mk.inj (List.mem_singleton.mp h)
      exact hjump _ _ rfl
  · cases h

end RedDb.Grid
