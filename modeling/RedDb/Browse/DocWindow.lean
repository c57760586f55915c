import RedDb.Lib.WhileLoop

/-!
# RedDb — the documents a browse holds

A browse holds one run of documents under their ordinals. `ensure` drops what is far from
the viewport and asks for what is missing, by `_id` or, under a sort, by position; `apply`
lands a reply. A jump that lands flush against the run extends it, and a short page pins
the run to the end of the collection, counted back from the total.
-/

namespace RedDb.Browse

inductive DocSeek (ι : Type*) where
  | forward (after : Option ι)
  | backward (before : ι)
  | jump (skip : Nat)
  deriving DecidableEq

/-- A request: the seek, its limit, its number, and whether it asks for the count. -/
structure DocFetch (ι : Type*) where
  seek : DocSeek ι
  limit : Nat
  seq : Nat
  wantTotal : Bool
  deriving DecidableEq

def marginPages : Nat := 2

def flingPages : Nat := 3

def jumpPages : Nat := 2

structure DocWindow (δ : Type*) where
  page : Nat
  /-- The document count, once a reply reported one. -/
  total : Option Nat
  /-- Ordinal of the first resident document. -/
  anchor : Nat
  docs : List δ
  atStart : Bool
  atEnd : Bool
  seq : Nat
  pending : Option Nat
  halted : Bool
  lastStart : Option Nat

namespace DocWindow

variable {δ ι : Type*}

def new (page : Nat) : DocWindow δ :=
  ⟨max page 1, none, 0, [], false, false, 0, none, false, none⟩

def docAt (w : DocWindow δ) (ord : Nat) : Option δ :=
  if w.anchor ≤ ord then w.docs[ord - w.anchor]? else none

def firstId (docId : δ → ι) (w : DocWindow δ) : Option ι := w.docs.head?.map docId

def lastId (docId : δ → ι) (w : DocWindow δ) : Option ι := w.docs.getLast?.map docId

def reset (w : DocWindow δ) : DocWindow δ :=
  { w with
    total := none, anchor := 0, docs := [], atStart := false, atEnd := false, pending := none
    halted := false, lastStart := none }

/-! ## Asking -/

def popFront (w : DocWindow δ) : DocWindow δ :=
  { w with docs := w.docs.tail, anchor := w.anchor + 1, atStart := false }

def popBack (w : DocWindow δ) : DocWindow δ :=
  { w with docs := w.docs.dropLast, atEnd := false }

def tooEarly (lo : Nat) (w : DocWindow δ) : Bool := w.anchor < lo && !w.docs.isEmpty

def tooLate (hi : Nat) (w : DocWindow δ) : Bool :=
  hi < w.anchor + w.docs.length && !w.docs.isEmpty

def evict (w : DocWindow δ) (lo hi : Nat) : DocWindow δ :=
  let w := WhileLoop.run (tooEarly lo) popFront w.docs.length w
  WhileLoop.run (tooLate hi) popBack w.docs.length w

def issue (w : DocWindow δ) (seek : DocSeek ι) (wantTotal : Bool) :
    DocWindow δ × List (DocFetch ι) :=
  ({ w with seq := w.seq + 1, pending := some (w.seq + 1) },
    [⟨seek, w.page, w.seq + 1, wantTotal⟩])

def seed (w : DocWindow δ) : DocWindow δ × List (DocFetch ι) :=
  w.reset.issue (.forward none) true

/-- The end of what is kept around a range: no further than the total, once it is known. -/
def marginEnd (w : DocWindow δ) (stop : Nat) : Nat :=
  match w.total with
  | some total => min (stop + marginPages * w.page) total
  | none => stop + marginPages * w.page

def request (docId : δ → ι) (keyed : Bool) (w : DocWindow δ) (start stop : Nat) :
    DocWindow δ × List (DocFetch ι) :=
  if w.pending.isSome || w.halted then (w, [])
  else
    let lo := start - marginPages * w.page
    let hi := w.marginEnd stop
    if w.docs.isEmpty then
      if start = 0 then w.issue (.forward none) w.total.isNone
      -- At the end with no documents: a jump found nothing there.
      else if w.atEnd then (w, [])
      else w.issue (.jump start) w.total.isNone
    else
      let runStart := w.anchor
      let runEnd := w.anchor + w.docs.length
      let jumpGap := jumpPages * w.page
      if runEnd + jumpGap ≤ start ∨ stop + jumpGap ≤ runStart then w.issue (.jump start) false
      else
        let needFwd := runEnd < hi && !w.atEnd
        let needBack := lo < runStart && !w.atStart
        let backwardFirst := start < runStart && needBack
        let seek : Option (DocSeek ι) :=
          if !keyed then
            if backwardFirst || (needBack && !needFwd) then some (.jump (runStart - w.page))
            else if needFwd then some (.jump runEnd)
            else none
          else if backwardFirst then (w.firstId docId).map .backward
          else if needFwd then (w.lastId docId).map fun after => .forward (some after)
          else if needBack then (w.firstId docId).map .backward
          else none
        match seek with
        | some seek => w.issue seek false
        | none => (w, [])

/-- A failed fetch is held off until the viewport moves. -/
def retry (w : DocWindow δ) (start : Nat) : DocWindow δ :=
  if w.halted && w.lastStart != some start then { w with halted := false } else w

/-- The viewport is not flying past. -/
def settled (w : DocWindow δ) (start : Nat) : Bool :=
  match w.lastStart with
  | none => true
  | some prev => (start - prev) + (prev - start) ≤ flingPages * w.page

/-- The new window, what it asked for, and whether the viewport had settled. -/
def ensure (docId : δ → ι) (keyed : Bool) (w : DocWindow δ) (start stop : Nat) :
    DocWindow δ × List (DocFetch ι) × Bool :=
  let w := w.evict (start - marginPages * w.page) (w.marginEnd stop)
  if stop ≤ start then (w, [], true)
  else
    let settled := w.settled start
    let w := { w.retry start with lastStart := some start }
    if settled then
      let (w, sent) := w.request docId keyed start stop
      (w, sent, true)
    else (w, [], false)

/-! ## Landing -/

/-- Documents appended behind the run; a short page pins it to the end. -/
def extendEnd (w : DocWindow δ) (docs : List δ) : DocWindow δ :=
  let grown := { w with docs := w.docs ++ docs, atEnd := docs.length < w.page }
  match w.total with
  | some total =>
    if docs.length < w.page then { grown with anchor := total - grown.docs.length } else grown
  | none => grown

section Apply

variable [DecidableEq ι] (docId : δ → ι) (w : DocWindow δ) (docs : List δ)

def applyForward (after : Option ι) : DocWindow δ :=
  if after ≠ w.lastId docId then w
  else if w.docs.isEmpty then { w with anchor := 0, atStart := true }.extendEnd docs
  else w.extendEnd docs

def applyBackward (before : ι) : DocWindow δ :=
  if w.docs.isEmpty || some before ≠ w.firstId docId then w
  else
    let grown := { w with docs := docs ++ w.docs, anchor := w.anchor - docs.length }
    if docs.length < w.page ∨ grown.anchor = 0 then { grown with atStart := true, anchor := 0 }
    else grown

def applyJump (skip : Nat) : DocWindow δ :=
  if !w.docs.isEmpty && skip = w.anchor + w.docs.length then w.extendEnd docs
  else if !w.docs.isEmpty && skip + docs.length = w.anchor then
    { w with docs := docs ++ w.docs, anchor := skip, atStart := skip == 0 }
  else
    let short := decide (docs.length < w.page)
    let anchor :=
      match w.total with
      | some total => if short then total - docs.length else min skip (total - docs.length)
      | none => skip
    { w with docs := docs, atEnd := short, anchor := anchor, atStart := anchor == 0 }

/-- The window with no request in flight, under the total that a reply reports. -/
def freed (total : Option Nat) : DocWindow δ :=
  { w with pending := none, total := total <|> w.total }

def apply (seek : DocSeek ι) (seq : Nat) (total : Option Nat) : DocWindow δ :=
  if w.pending ≠ some seq then w
  else
    match seek with
    | .forward after => (w.freed total).applyForward docId docs after
    | .backward before => (w.freed total).applyBackward docId docs before
    | .jump skip => (w.freed total).applyJump docs skip

end Apply

def runFailed (w : DocWindow δ) (seq : Nat) : DocWindow δ :=
  if w.pending = some seq then { w with pending := none, halted := true } else w

/-- Where documents appended behind the run leave the anchor. -/
def pinned (w : DocWindow δ) (docs : List δ) : Nat :=
  match w.total with
  | some total => if docs.length < w.page then total - (w.docs ++ docs).length else w.anchor
  | none => w.anchor

theorem extendEnd_eq (w : DocWindow δ) (docs : List δ) :
    w.extendEnd docs =
      { w with
        docs := w.docs ++ docs, atEnd := docs.length < w.page, anchor := w.pinned docs } := by
  unfold extendEnd pinned
  cases w.total with
  | none => rfl
  | some total =>
    dsimp only
    split <;> rfl

/-! ## What asking keeps -/

/-- The window without its book-keeping of requests. -/
def shown (w : DocWindow δ) : DocWindow δ :=
  { w with seq := 0, pending := none, halted := false, lastStart := none }

@[simp] theorem issue_shown (w : DocWindow δ) (seek : DocSeek ι) (wantTotal : Bool) :
    (w.issue seek wantTotal).1.shown = w.shown := rfl

@[simp] theorem runFailed_shown (w : DocWindow δ) (seq : Nat) :
    (w.runFailed seq).shown = w.shown := by
  unfold runFailed
  split <;> rfl

theorem retry_shown (w : DocWindow δ) (start : Nat) :
    { w.retry start with lastStart := some start }.shown = w.shown := by
  unfold retry
  split <;> rfl

/-- A paint asks for one page at most. -/
theorem request_cases (docId : δ → ι) (keyed : Bool) (w : DocWindow δ) (start stop : Nat) :
    w.request docId keyed start stop = (w, []) ∨
      ∃ (seek : DocSeek ι) (wantTotal : Bool),
        w.request docId keyed start stop = w.issue seek wantTotal := by
  unfold request
  split
  · exact Or.inl rfl
  dsimp only
  split
  · split
    · exact Or.inr ⟨_, _, rfl⟩
    · split
      · exact Or.inl rfl
      · exact Or.inr ⟨_, _, rfl⟩
  · split
    · exact Or.inr ⟨_, _, rfl⟩
    · split
      · exact Or.inr ⟨_, _, rfl⟩
      · exact Or.inl rfl

theorem request_shown (docId : δ → ι) (keyed : Bool) (w : DocWindow δ) (start stop : Nat) :
    (w.request docId keyed start stop).1.shown = w.shown := by
  rcases request_cases docId keyed w start stop with h | ⟨seek, wantTotal, h⟩
  · rw [h]
  · rw [h, issue_shown]

theorem ensure_shown (docId : δ → ι) (keyed : Bool) (w : DocWindow δ) (start stop : Nat) :
    (w.ensure docId keyed start stop).1.shown =
      (w.evict (start - marginPages * w.page) (w.marginEnd stop)).shown := by
  unfold ensure
  dsimp only
  split
  · rfl
  split
  · show (request docId keyed _ start stop).1.shown = _
    rw [request_shown, retry_shown]
  · exact retry_shown _ start

theorem evict_page (w : DocWindow δ) (lo hi : Nat) : (w.evict lo hi).page = w.page := by
  have hfront : ∀ v : DocWindow δ, tooEarly lo v = true → v.page = w.page → v.popFront.page = w.page :=
    fun _ _ h => h
  have hback : ∀ v : DocWindow δ, tooLate hi v = true → v.page = w.page → v.popBack.page = w.page :=
    fun _ _ h => h
  let Same (v : DocWindow δ) : Prop := v.page = w.page
  exact (WhileLoop.visits_run _ _).inv (I := Same) hback
    ((WhileLoop.visits_run _ _).inv (I := Same) hfront rfl)

/-- Every request is for a page. -/
theorem ensure_limit {docId : δ → ι} {keyed : Bool} {w : DocWindow δ} {start stop : Nat}
    {fetch : DocFetch ι} (h : fetch ∈ (w.ensure docId keyed start stop).2.1) :
    fetch.limit = w.page := by
  unfold ensure at h
  dsimp only at h
  split at h
  · cases h
  have hpage := congrArg page (retry_shown
    (w.evict (start - marginPages * w.page) (w.marginEnd stop)) start)
  split at h
  · rcases request_cases docId keyed _ start stop with hr | ⟨seek, wantTotal, hr⟩
    · rw [hr] at h
      cases h
    · rw [hr] at h
      rw [List.mem_singleton.mp h]
      exact hpage.trans (evict_page w _ _)
  · cases h

end DocWindow

end RedDb.Browse
