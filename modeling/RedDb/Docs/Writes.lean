import RedDb.Docs.Bson

/-!
# RedDb — writing documents, chunk by chunk

A job hands the driver one chunk of documents at a time. `insert` sends it as one
`insertMany`; `upsert` sends one `replaceOne` for each document that has an `_id` and
one `insertMany` for the others. Either returns the number of documents written, or an
error and no number. `Target.written` is what the server really wrote.

* `write_spec` — what a chunk writes and what it reports;
* `writeChunks_count` — the jobs' count is right exactly when the write that fails, if
  any does, fails before its first document;
* `writeChunks_docs` — what a job that inserts leaves in the target.
-/

namespace RedDb.Docs

open RedDb.Driver

/-! ## The server of the target -/

/-- The collection written to, the write requests it has had, and the documents they
have written. -/
structure Target where
  docs : List Stored
  requests : Nat
  written : Nat

/-- The target's connection: how the server answers each write request, which is to do
it or to fail with so many of its documents written, the ids it makes up, and which
ids it takes for one. -/
structure Mongo where
  readOnly : Bool
  reply : Nat → Option (Nat × RedError)
  fresh : Nat → Vector UInt8 12
  sameId : Bson → Bson → Bool

/-- The documents kept of those sent, the first being the `n`-th that is written. -/
def Mongo.keepAll (m : Mongo) : Nat → List BsonDocument → List Stored
  | _, [] => []
  | n, sent :: rest => keep (m.fresh n) sent :: m.keepAll (n + 1) rest

def Mongo.insertMany (m : Mongo) (sent : List BsonDocument) (t : Target) :
    Except RedError Nat × Target :=
  let wrote (sent : List BsonDocument) : Target :=
    ⟨t.docs ++ m.keepAll t.written sent, t.requests + 1, t.written + sent.length⟩
  match m.reply t.requests with
  | none => (.ok sent.length, wrote sent)
  | some (n, e) => (.error e, wrote (sent.take n))

/-- `replaceOne` with `upsert`: in the place of the document with that `_id`, or behind
all others. -/
def Mongo.put (m : Mongo) (docs : List Stored) (id : Bson) (d : Stored) : List Stored :=
  if docs.any fun e => m.sameId e.id id then
    docs.map fun e => if m.sameId e.id id then d else e
  else docs ++ [d]

def Mongo.replaceOne (m : Mongo) (id : Bson) (sent : BsonDocument) (t : Target) :
    Except RedError Unit × Target :=
  let wrote : Target :=
    ⟨m.put t.docs id (keep (m.fresh t.written) sent), t.requests + 1, t.written + 1⟩
  match m.reply t.requests with
  | none => (.ok (), wrote)
  | some (0, e) => (.error e, { t with requests := t.requests + 1 })
  | some (_ + 1, e) => (.error e, wrote)

/-! ## The driver's two writes -/

def refuseIfReadOnly (readOnly : Bool) : Except RedError Unit :=
  if readOnly then .error (.query "this connection is read-only") else .ok ()

def DocValue.isNull : DocValue → Bool
  | .null => true
  | _ => false

section Writes

variable [Decimals]

def insert (m : Mongo) (docs : List Document) (t : Target) : Except RedError Nat × Target :=
  match refuseIfReadOnly m.readOnly with
  | .error e => (.error e, t)
  | .ok () => m.insertMany (docs.map insertDocumentToBson) t

/-- The loop over the documents that have an `_id`. -/
def upsertEach (m : Mongo) : List Document → Nat → Target → Except RedError Nat × Target
  | [], written, t => (.ok written, t)
  | d :: ds, written, t =>
    match m.replaceOne (docToBson d.id) (documentToBson d) t with
    | (.error e, t) => (.error e, t)
    | (.ok (), t) => upsertEach m ds (written + 1) t

def identified (docs : List Document) : List Document := docs.filter fun d => !d.id.isNull

def anonymous (docs : List Document) : List Document := docs.filter fun d => d.id.isNull

def upsert (m : Mongo) (docs : List Document) (t : Target) : Except RedError Nat × Target :=
  match refuseIfReadOnly m.readOnly with
  | .error e => (.error e, t)
  | .ok () =>
    match upsertEach m (identified docs) 0 t with
    | (.error e, t) => (.error e, t)
    | (.ok written, t) =>
      if (anonymous docs).isEmpty then (.ok written, t)
      else
        match m.insertMany ((anonymous docs).map insertDocumentToBson) t with
        | (.error e, t) => (.error e, t)
        | (.ok n, t) => (.ok (written + n), t)

def write (m : Mongo) (onId : Bool) (docs : List Document) (t : Target) :
    Except RedError Nat × Target :=
  if onId then upsert m docs t else insert m docs t

/-- The chunks of a job one after another, and the count it keeps of them. -/
@[grind =] def writeChunks (m : Mongo) (onId : Bool) :
    List (List Document) → Nat → Target → (Nat × Option RedError) × Target
  | [], written, t => ((written, none), t)
  | chunk :: chunks, written, t =>
    match write m onId chunk t with
    | (.error e, t) => ((written, some e), t)
    | (.ok n, t) => writeChunks m onId chunks (written + n) t

end Writes

/-! ## Where a write fails -/

/-- How many of the `n` documents of an `insertMany` are in when it fails. -/
def Mongo.insertFails (m : Mongo) (n requests : Nat) : Option Nat :=
  (m.reply requests).map fun r => min r.1 n

/-- How many of `n` documents are in when one of their `replaceOne`s fails. -/
def Mongo.replaceFails (m : Mongo) : Nat → Nat → Option Nat
  | 0, _ => none
  | n + 1, requests =>
    match m.reply requests with
    | some (k, _) => some (min k 1)
    | none => (m.replaceFails n (requests + 1)).map (· + 1)

/-- How many documents of a chunk are in when its write fails, and none when it does
not: read off the server's answers to the requests from one on. -/
def Mongo.fails (m : Mongo) (onId : Bool) (docs : List Document) (requests : Nat) : Option Nat :=
  if m.readOnly then some 0
  else if onId then
    match m.replaceFails (identified docs).length requests with
    | some k => some k
    | none =>
      if (anonymous docs).isEmpty then none
      else (m.insertFails (anonymous docs).length (requests + (identified docs).length)).map
        ((identified docs).length + ·)
  else m.insertFails docs.length requests

/-- The requests of a chunk that is written whole. -/
def requestsOf (onId : Bool) (docs : List Document) : Nat :=
  if onId then (identified docs).length + (if (anonymous docs).isEmpty then 0 else 1) else 1

/-- The first write of the job that fails, if any does, fails before its first document
is written. -/
def Mongo.FailsClean (m : Mongo) (onId : Bool) : List (List Document) → Nat → Prop
  | [], _ => True
  | chunk :: chunks, requests =>
    match m.fails onId chunk requests with
    | some k => k = 0
    | none => m.FailsClean onId chunks (requests + requestsOf onId chunk)

/-! ## One chunk -/

/-- What a write of `n` documents reports and does, by where it fails. -/
def Outcome (fails : Option Nat) (n requests : Nat) (t : Target)
    (r : Except RedError Nat × Target) : Prop :=
  match fails with
  | none => r.1 = .ok n ∧ r.2.written = t.written + n ∧ r.2.requests = t.requests + requests
  | some k => (∃ e, r.1 = .error e) ∧ r.2.written = t.written + k

theorem insertMany_spec (m : Mongo) (sent : List BsonDocument) (t : Target) :
    Outcome (m.insertFails sent.length t.requests) sent.length 1 t (m.insertMany sent t) := by
  unfold Mongo.insertMany Mongo.insertFails Outcome
  cases m.reply t.requests with
  | none => exact ⟨rfl, rfl, rfl⟩
  | some r =>
    refine ⟨⟨r.2, rfl⟩, ?_⟩
    show t.written + (sent.take r.1).length = _
    rw [List.length_take]

theorem replaceOne_spec (m : Mongo) (id : Bson) (sent : BsonDocument) (t : Target) :
    match m.reply t.requests with
    | none => (m.replaceOne id sent t).1 = .ok () ∧
        (m.replaceOne id sent t).2.written = t.written + 1 ∧
        (m.replaceOne id sent t).2.requests = t.requests + 1
    | some (k, e) => (m.replaceOne id sent t).1 = .error e ∧
        (m.replaceOne id sent t).2.written = t.written + min k 1 := by
  unfold Mongo.replaceOne
  cases m.reply t.requests with
  | none => exact ⟨rfl, rfl, rfl⟩
  | some r =>
    obtain ⟨k, e⟩ := r
    cases k with
    | zero => exact ⟨rfl, rfl⟩
    | succ k => exact ⟨rfl, by show t.written + 1 = _; omega⟩

section Writes

variable [Decimals]

theorem upsertEach_spec (m : Mongo) (docs : List Document) (written : Nat) (t : Target) :
    match m.replaceFails docs.length t.requests with
    | none => (upsertEach m docs written t).1 = .ok (written + docs.length) ∧
        (upsertEach m docs written t).2.written = t.written + docs.length ∧
        (upsertEach m docs written t).2.requests = t.requests + docs.length
    | some k => (∃ e, (upsertEach m docs written t).1 = .error e) ∧
        (upsertEach m docs written t).2.written = t.written + k := by
  induction docs generalizing written t with
  | nil => exact ⟨rfl, rfl, rfl⟩
  | cons d ds ih =>
    have hone := replaceOne_spec m (docToBson d.id) (documentToBson d) t
    rw [List.length_cons, Mongo.replaceFails, upsertEach]
    cases hreply : m.reply t.requests with
    | some r =>
      obtain ⟨k, e⟩ := r
      rw [hreply] at hone
      obtain ⟨hr, hw⟩ := hone
      cases hres : m.replaceOne (docToBson d.id) (documentToBson d) t with
      | mk r t' =>
        rw [hres] at hr hw
        obtain rfl := hr
        exact ⟨⟨e, rfl⟩, hw⟩
    | none =>
      rw [hreply] at hone
      obtain ⟨hr, hw, hq⟩ := hone
      cases hres : m.replaceOne (docToBson d.id) (documentToBson d) t with
      | mk r t' =>
        rw [hres] at hr hw hq
        obtain rfl := hr
        have hrest := ih (written + 1) t'
        rw [hq] at hrest
        cases hf : m.replaceFails ds.length (t.requests + 1) with
        | none =>
          rw [hf] at hrest
          obtain ⟨h1, h2, h3⟩ := hrest
          refine ⟨h1.trans (by congr 1; omega), ?_, ?_⟩
          · exact h2.trans (by rw [hw]; omega)
          · exact h3.trans (by omega)
        | some k =>
          rw [hf] at hrest
          obtain ⟨h1, h2⟩ := hrest
          exact ⟨h1, h2.trans (by rw [hw]; show _ = t.written + (k + 1); omega)⟩

omit [Decimals] in
theorem identified_anonymous (docs : List Document) :
    (identified docs).length + (anonymous docs).length = docs.length := by
  have := List.length_eq_length_filter_add (l := docs) fun d => !d.id.isNull
  simp only [Bool.not_not] at this
  exact this.symm

theorem upsert_spec (m : Mongo) (docs : List Document) (t : Target) :
    Outcome (m.fails true docs t.requests) docs.length (requestsOf true docs) t
      (upsert m docs t) := by
  unfold Mongo.fails upsert requestsOf refuseIfReadOnly
  rw [if_pos rfl]
  by_cases hro : m.readOnly = true
  · rw [if_pos hro, if_pos hro]
    exact ⟨⟨_, rfl⟩, rfl⟩
  rw [if_neg hro, if_neg hro, if_pos rfl]
  have heach := upsertEach_spec m (identified docs) 0 t
  have hlen := identified_anonymous docs
  cases hf : m.replaceFails (identified docs).length t.requests with
  | some k =>
    rw [hf] at heach
    obtain ⟨⟨e, hr⟩, hw⟩ := heach
    cases hres : upsertEach m (identified docs) 0 t with
    | mk r t' =>
      rw [hres] at hr hw
      obtain rfl := hr
      exact ⟨⟨e, rfl⟩, hw⟩
  | none =>
    rw [hf] at heach
    obtain ⟨hr, hw, hq⟩ := heach
    cases hres : upsertEach m (identified docs) 0 t with
    | mk r t' =>
      rw [hres] at hr hw hq
      obtain rfl := hr
      have hw : t'.written = t.written + (identified docs).length := hw
      have hq : t'.requests = t.requests + (identified docs).length := hq
      show Outcome _ _ _ _ (if (anonymous docs).isEmpty then _ else _)
      by_cases hempty : (anonymous docs).isEmpty = true
      · rw [if_pos hempty, if_pos hempty, if_pos hempty]
        have hzero : (anonymous docs).length = 0 := by
          rw [List.isEmpty_iff.mp hempty]
          rfl
        refine ⟨?_, ?_, ?_⟩
        · show Except.ok _ = Except.ok _
          congr 1
          omega
        · exact hw.trans (by omega)
        · exact hq
      · rw [if_neg hempty, if_neg hempty, if_neg hempty]
        have hmany := insertMany_spec m ((anonymous docs).map insertDocumentToBson) t'
        rw [List.length_map, hq] at hmany
        cases hg : m.insertFails (anonymous docs).length
            (t.requests + (identified docs).length) with
        | none =>
          rw [hg] at hmany
          obtain ⟨hr', hw', hq'⟩ := hmany
          cases hres' : m.insertMany ((anonymous docs).map insertDocumentToBson) t' with
          | mk r' t'' =>
            rw [hres'] at hr' hw' hq'
            obtain rfl := hr'
            refine ⟨?_, ?_, ?_⟩
            · show Except.ok _ = Except.ok _
              congr 1
              omega
            · exact hw'.trans (by omega)
            · have hq' : t''.requests = t'.requests + 1 := hq'
              show t''.requests = t.requests + ((identified docs).length + 1)
              omega
        | some k =>
          rw [hg] at hmany
          obtain ⟨⟨e, hr'⟩, hw'⟩ := hmany
          cases hres' : m.insertMany ((anonymous docs).map insertDocumentToBson) t' with
          | mk r' t'' =>
            rw [hres'] at hr' hw'
            obtain rfl := hr'
            refine ⟨⟨e, rfl⟩, hw'.trans ?_⟩
            show t'.written + k = t.written + ((identified docs).length + k)
            omega

theorem insert_spec (m : Mongo) (docs : List Document) (t : Target) :
    Outcome (m.fails false docs t.requests) docs.length (requestsOf false docs) t
      (insert m docs t) := by
  unfold Mongo.fails insert requestsOf refuseIfReadOnly
  by_cases hro : m.readOnly = true
  · rw [if_pos hro, if_pos hro]
    exact ⟨⟨_, rfl⟩, rfl⟩
  have hmany := insertMany_spec m (docs.map insertDocumentToBson) t
  rw [List.length_map] at hmany
  rw [if_neg hro, if_neg hro]
  exact hmany

theorem write_spec (m : Mongo) (onId : Bool) (docs : List Document) (t : Target) :
    Outcome (m.fails onId docs t.requests) docs.length (requestsOf onId docs) t
      (write m onId docs t) := by
  cases onId with
  | true => exact upsert_spec m docs t
  | false => exact insert_spec m docs t

/-! ## All chunks -/

/-- **The count.** What a job that has written `written` documents reports in the end is
what it has written, exactly when the write that fails fails before its first document. -/
theorem writeChunks_count (m : Mongo) (onId : Bool) (chunks : List (List Document))
    {base written : Nat} {t : Target} (ht : t.written = base + written) :
    (writeChunks m onId chunks written t).2.written =
        base + (writeChunks m onId chunks written t).1.1 ↔ m.FailsClean onId chunks t.requests := by
  induction chunks generalizing written t with
  | nil => exact iff_of_true ht trivial
  | cons chunk chunks ih =>
    have hspec := write_spec m onId chunk t
    rw [writeChunks, Mongo.FailsClean]
    cases hf : m.fails onId chunk t.requests with
    | some k =>
      rw [hf] at hspec
      obtain ⟨⟨e, hr⟩, hw⟩ := hspec
      cases hres : write m onId chunk t with
      | mk r t' =>
        rw [hres] at hr hw
        obtain rfl := hr
        show t'.written = base + written ↔ k = 0
        rw [hw, ht]
        omega
    | none =>
      rw [hf] at hspec
      obtain ⟨hr, hw, hq⟩ := hspec
      cases hres : write m onId chunk t with
      | mk r t' =>
        rw [hres] at hr hw hq
        obtain rfl := hr
        have hnext : t'.written = base + (written + chunk.length) := by
          rw [hw, ht]
          omega
        have hrest := ih hnext
        rw [hq] at hrest
        exact hrest

/-- A job whose chunks were all written has counted all documents. -/
theorem writeChunks_ok (m : Mongo) (onId : Bool) (chunks : List (List Document))
    {written : Nat} {t : Target} (h : (writeChunks m onId chunks written t).1.2 = none) :
    (writeChunks m onId chunks written t).1.1 = written + chunks.flatten.length := by
  induction chunks generalizing written t with
  | nil => rfl
  | cons chunk chunks ih =>
    have hspec := write_spec m onId chunk t
    rw [writeChunks] at h ⊢
    cases hres : write m onId chunk t with
    | mk r t' =>
      rw [hres] at h hspec
      cases r with
      | error e => cases h
      | ok n =>
        have hn : n = chunk.length := by
          unfold Outcome at hspec
          split at hspec
          · exact Except.ok.inj hspec.1
          · obtain ⟨⟨e, he⟩, -⟩ := hspec
            cases he
        rw [ih h, hn, List.flatten_cons, List.length_append]
        omega

/-! ## What an insert leaves -/

/-- Documents of a collection as the program holds them. -/
def documents (window : List Stored) : List Document := window.map fun d => splitDocument d.wire

omit [Decimals] in
theorem keepAll_append (m : Mongo) (n : Nat) (xs ys : List BsonDocument) :
    m.keepAll n (xs ++ ys) = m.keepAll n xs ++ m.keepAll (n + xs.length) ys := by
  induction xs generalizing n with
  | nil => rfl
  | cons x xs ih =>
    have hn : n + (x :: xs).length = n + 1 + xs.length := by
      rw [List.length_cons]
      omega
    rw [List.cons_append, Mongo.keepAll, Mongo.keepAll, ih, hn]
    rfl

/-- A job that inserts leaves what was there and every document of its chunks. -/
theorem writeChunks_docs (m : Mongo) (chunks : List (List Document)) {written : Nat} {t : Target}
    (h : (writeChunks m false chunks written t).1.2 = none) :
    (writeChunks m false chunks written t).2.docs =
      t.docs ++ m.keepAll t.written (chunks.flatten.map insertDocumentToBson) := by
  induction chunks generalizing written t with
  | nil => exact (List.append_nil _).symm
  | cons chunk chunks ih =>
    rw [writeChunks] at h ⊢
    cases hres : write m false chunk t with
    | mk res t' =>
      rw [hres] at h
      cases res with
      | error e => cases h
      | ok n =>
        have hdocs : t'.docs = t.docs ++ m.keepAll t.written (chunk.map insertDocumentToBson) ∧
            t'.written = t.written + (chunk.map insertDocumentToBson).length := by
          unfold write insert refuseIfReadOnly Mongo.insertMany at hres
          rw [if_neg Bool.false_ne_true] at hres
          by_cases hro : m.readOnly = true
          · rw [if_pos hro] at hres
            cases hres
          rw [if_neg hro] at hres
          cases hreply : m.reply t.requests with
          | none =>
            rw [hreply] at hres
            cases hres
            exact ⟨rfl, rfl⟩
          | some r =>
            rw [hreply] at hres
            cases hres
        rw [List.flatten_cons, List.map_append, keepAll_append, ← List.append_assoc, ← hdocs.1,
          ← hdocs.2]
        exact ih h

theorem keepAll_whole (m : Mongo) (n : Nat) (ds : List Stored) :
    (∀ e ∈ m.keepAll n ((documents ds).map insertDocumentToBson), e.Whole) ∧
      (m.keepAll n ((documents ds).map insertDocumentToBson)).length = ds.length := by
  induction ds generalizing n with
  | nil => exact ⟨fun e he => (List.not_mem_nil he).elim, rfl⟩
  | cons d ds ih =>
    obtain ⟨hwhole, hlen⟩ := ih (n + 1)
    refine ⟨fun e he => ?_, congrArg (· + 1) hlen⟩
    rcases List.mem_cons.mp he with rfl | he
    · exact transfer_whole (m.fresh n) d
    · exact hwhole e he

/-- Whole documents arrive as they are. -/
theorem keepAll_of_whole (m : Mongo) (n : Nat) {ds : List Stored} (h : ∀ d ∈ ds, d.Whole) :
    m.keepAll n ((documents ds).map insertDocumentToBson) = ds := by
  induction ds generalizing n with
  | nil => rfl
  | cons d ds ih =>
    show transfer (m.fresh n) d :: m.keepAll (n + 1) ((documents ds).map insertDocumentToBson) = _
    rw [(transfer_eq_iff _ d).mpr (h d List.mem_cons_self),
      ih _ fun e he => h e (List.mem_cons_of_mem _ he)]

end Writes

end RedDb.Docs
