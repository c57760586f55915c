import RedDb.Kv.Server

/-!
# RedDb — how the driver reads a key

The reads an export makes of a standing server: a string under a ceiling, the pages of a
collection, the head of a list, the entries of a stream page by page, a document.

* `Source` — what the server holds, and how a scan hands it out;
* `readStream_entries` — paging back from the newest entry reads the whole stream.
-/

namespace RedDb.Kv

open ByteText RedDb.Driver

/-! ## The source -/

inductive KvType where
  | string
  | hash
  | set
  | zset
  | list
  | stream
  | json
  | other (name : Bytes)
  deriving DecidableEq

def CollectionKind.kvType : CollectionKind → KvType
  | .hash => .hash
  | .set => .set
  | .zset => .zset

variable {σ J : Type}

def KvData.kvType : KvData σ J → KvType
  | .string _ => .string
  | .collection kind _ => kind.kvType
  | .list _ => .list
  | .stream _ => .stream
  | .json _ => .json
  | .other name => .other name

def i64Max : Int := 2 ^ 63 - 1

/-- The server the keys come from, standing still at the instant `now`: what it holds, and
the pages in which a scan of a collection hands out its elements, some of them more than
once. -/
structure Source (σ J : Type) where
  now : Int
  get : Bytes → Option (Entry σ J)
  pages : Bytes → List (List (Bytes × Slot σ))
  sound : ∀ key e, get key = some e → e.data.Sound
  expireAt_le : ∀ key e, get key = some e → ∀ t, e.expireAt = some t → t ≤ i64Max
  mem_pages : ∀ key e kind content, get key = some e → e.data = .collection kind content →
    ∀ name slot, (name, slot) ∈ (pages key).flatten ↔ content name = some slot

/-- How a read fails: the key holds another type, or `truncate` panics inside a character. -/
inductive ReadError where
  | wrongType
  | charBoundary

/-! ## Strings and documents -/

/-- The values that a read of a string or a document gives. -/
inductive ReadText where
  | text (s : Bytes)
  | blob (b : Bytes)
  | capped (c : CappedCell)

def stringPreviewCap : Nat := 8 * 1024

def stringFullCap : Nat := 8 * 1024 * 1024

def wholeText (b : Bytes) : ReadText := if validUtf8 b then .text b else .blob b

/-- `from_utf8` meets an invalid byte, not only a character cut off at the end. Cut after
`fuel` pieces. -/
def brokenFrom : Nat → Bytes → Bool
  | 0, _ => false
  | _, [] => false
  | fuel + 1, c :: rest =>
    let (n, whole) := utf8Char (c :: rest)
    if whole then brokenFrom fuel ((c :: rest).drop n)
    else !(n == (c :: rest).length && (utf8Lead c).isSome)

def isBinary (window : Bytes) : Bool := brokenFrom window.length window

/-- A character of the text starts at byte `n`, or the text ends there. -/
def isCharBoundary (n : Nat) (b : Bytes) : Bool :=
  match b.drop n with
  | [] => true
  | c :: _ => !(0x80 ≤ c.toNat && c.toNat ≤ 0xBF)

def capStringValue (bytes : Bytes) : Except ReadError ReadText :=
  if bytes.length ≤ stringPreviewCap then .ok (wholeText bytes)
  else
    let window := bytes.take stringPreviewCap
    let head := fromUtf8Lossy window
    if head.length ≤ stringPreviewCap then .ok (.capped ⟨head, bytes.length, isBinary window⟩)
    else if isCharBoundary stringPreviewCap head then
      .ok (.capped ⟨head.take stringPreviewCap, bytes.length, isBinary window⟩)
    else .error .charBoundary

def Source.readStringFull (src : Source σ J) (key : Bytes) : Except ReadError (Option ReadText) :=
  match (src.get key).map Entry.data with
  | none => .ok none
  | some (.string b) =>
    if b.length ≤ stringFullCap then .ok (some (wholeText b))
    else
      let window := b.take stringFullCap
      let blob := isBinary window
      .ok (some (.capped ⟨if blob then [] else fromUtf8Lossy window, b.length, blob⟩))
  | some _ => .error .wrongType

def Source.jsonGet (text : KvText σ J) (src : Source σ J) (key : Bytes) :
    Except ReadError (Option ReadText) :=
  match (src.get key).map Entry.data with
  | none => .ok none
  | some (.json doc) => (capStringValue (text.json.text doc)).map some
  | some _ => .error .wrongType

/-! ## Collections and lists -/

inductive KvElement (σ : Type) where
  | member (m : Bytes)
  | field (f v : Bytes)
  | scored (m : Bytes) (score : σ)

/-- An element as the driver decodes it. -/
def toElement : Bytes × Slot σ → KvElement σ
  | (name, .member) => .member (fromUtf8Lossy name)
  | (name, .value v) => .field (fromUtf8Lossy name) (fromUtf8Lossy v)
  | (name, .score s) => .scored (fromUtf8Lossy name) s

/-- The pages from the first to the one that is exhausted. -/
def Source.readCollection (src : Source σ J) (key : Bytes) (kind : CollectionKind) :
    Except ReadError (List (List (KvElement σ))) :=
  match (src.get key).map Entry.data with
  | none => .ok []
  | some (.collection k _) =>
    if k = kind then .ok ((src.pages key).map fun page => page.map toElement) else .error .wrongType
  | some _ => .error .wrongType

def Source.readListWindow (src : Source σ J) (key : Bytes) (count : Nat) :
    Except ReadError (List Bytes) :=
  match (src.get key).map Entry.data with
  | none => .ok []
  | some (.list items) => .ok ((items.take (max count 1)).map fromUtf8Lossy)
  | some _ => .error .wrongType

/-! ## Streams -/

def StreamEntry.isText (e : StreamEntry) : Bool :=
  e.fields.all fun (f, v) => validUtf8 f && validUtf8 v

/-- An entry as the driver decodes it: its fields are all text, or they are dropped. -/
def parseStreamEntry (e : StreamEntry) : StreamEntry :=
  if e.isText then e else { e with fields := [] }

structure KvStreamPage where
  entries : List StreamEntry
  nextBefore : Option Nat
  exhausted : Bool

/-- `XREVRANGE`: the newest `fetch` entries up to `before`, newest first. -/
def xrevrange (stored : List StreamEntry) (before : Option Nat) (fetch : Nat) : List StreamEntry :=
  (stored.reverse.filter fun e => before.all (e.id ≤ ·)).take fetch

/-- Drop the boundary entry if it came back. -/
def dropBoundary (before : Option Nat) : List StreamEntry → List StreamEntry
  | [] => []
  | e :: rest => if before = some e.id then rest else e :: rest

def fetchStreamPage (stored : List StreamEntry) (before : Option Nat) (count : Nat) :
    KvStreamPage :=
  let fetch := if before.isSome then max count 1 + 1 else max count 1
  let raw := xrevrange stored before fetch
  let entries := dropBoundary before (raw.map parseStreamEntry)
  let exhausted := raw.length < fetch
  { entries
    nextBefore := if exhausted then none else entries.getLast?.map (·.id)
    exhausted }

def collectionPage : Nat := 1000

/-- Read page after page until one is exhausted. Cut after `fuel` pages. -/
def readStreamFrom (stored : List StreamEntry) :
    Nat → Option Nat → List StreamEntry → List StreamEntry
  | 0, _, entries => entries
  | fuel + 1, before, entries =>
    let page := fetchStreamPage stored before collectionPage
    if page.exhausted || page.nextBefore.isNone then entries ++ page.entries
    else readStreamFrom stored fuel page.nextBefore (entries ++ page.entries)

/-- The entries of a stream, newest first. -/
def Source.readStream (src : Source σ J) (key : Bytes) : Except ReadError (List StreamEntry) :=
  match (src.get key).map Entry.data with
  | none => .ok (readStreamFrom [] 1 none [])
  | some (.stream s) => .ok (readStreamFrom s.entries (s.entries.length + 1) none [])
  | some _ => .error .wrongType

@[simp] theorem parseStreamEntry_id (e : StreamEntry) : (parseStreamEntry e).id = e.id := by
  rw [parseStreamEntry]
  split <;> rfl

/-- A page behind the entries that were read holds the next `count` of them. -/
theorem fetchStreamPage_entries {stored done rest : List StreamEntry} {count : Nat}
    (hasc : stored.Pairwise (·.id < ·.id)) (hsplit : stored.reverse = done ++ rest)
    (hcount : 1 ≤ count) :
    (fetchStreamPage stored (done.getLast?.map (·.id)) count).entries =
        (rest.take count).map parseStreamEntry ∧
      (fetchStreamPage stored (done.getLast?.map (·.id)) count).exhausted =
        decide (rest.length < count) := by
  have hdesc : (done ++ rest).Pairwise fun a b => b.id < a.id := by
    rw [← hsplit, List.pairwise_reverse]
    exact hasc
  cases hlast : done.getLast? with
  | none =>
    rw [List.getLast?_eq_none_iff] at hlast
    subst hlast
    have hraw : xrevrange stored none (max count 1) = rest.take count := by
      show (stored.reverse.filter fun _ => true).take _ = _
      rw [hsplit, List.nil_append, List.filter_true, Nat.max_eq_left hcount]
    have hdrop : ∀ l, dropBoundary none l = l := by
      intro l
      cases l <;> rfl
    constructor
    · show dropBoundary none ((xrevrange stored none (max count 1)).map parseStreamEntry) = _
      rw [hraw, hdrop]
    · show decide ((xrevrange stored none (max count 1)).length < max count 1) = _
      rw [hraw, List.length_take, Nat.max_eq_left hcount]
      exact decide_eq_decide.mpr (by omega)
  | some x =>
    obtain ⟨init, rfl⟩ := List.getLast?_eq_some_iff.mp hlast
    -- of the entries that were read only the last one comes back
    have hraw : xrevrange stored (some x.id) (max count 1 + 1) = x :: rest.take count := by
      have hinit : init.filter (fun e => decide (e.id ≤ x.id)) = [] := by
        rw [List.filter_eq_nil_iff]
        intro e he
        rw [List.append_assoc, List.pairwise_append] at hdesc
        have := hdesc.2.2 e he x (by simp)
        simp only [decide_eq_true_eq]
        omega
      have hrest : rest.filter (fun e => decide (e.id ≤ x.id)) = rest := by
        rw [List.filter_eq_self]
        intro e he
        have := (List.pairwise_append.mp hdesc).2.2 x (by simp) e he
        simp only [decide_eq_true_eq]
        omega
      show (stored.reverse.filter fun e => decide (e.id ≤ x.id)).take _ = _
      rw [hsplit, List.filter_append, List.filter_append, hinit, hrest, Nat.max_eq_left hcount,
        List.filter_singleton, decide_eq_true (Nat.le_refl x.id)]
      rfl
    constructor
    · show dropBoundary (some x.id)
        ((xrevrange stored (some x.id) (max count 1 + 1)).map parseStreamEntry) = _
      rw [hraw, List.map_cons, dropBoundary, parseStreamEntry_id, if_pos rfl]
    · show decide ((xrevrange stored (some x.id) (max count 1 + 1)).length < max count 1 + 1) = _
      rw [hraw, List.length_cons, List.length_take, Nat.max_eq_left hcount]
      exact decide_eq_decide.mpr (by omega)

/-- A page that is not the last names the entry to go on from. -/
theorem fetchStreamPage_nextBefore {stored : List StreamEntry} {before : Option Nat} {count : Nat}
    (h : (fetchStreamPage stored before count).exhausted = false) :
    (fetchStreamPage stored before count).nextBefore =
      (fetchStreamPage stored before count).entries.getLast?.map (·.id) :=
  if_neg (of_decide_eq_false h)

/-- The pages of `count` entries, each from the entry that the one before it names, up to the one
that is exhausted. Cut after `fuel` pages. -/
def streamPages (stored : List StreamEntry) (count : Nat) : Nat → Option Nat → List KvStreamPage
  | 0, _ => []
  | fuel + 1, before =>
    let page := fetchStreamPage stored before count
    page :: if page.exhausted || page.nextBefore.isNone then [] else streamPages stored count fuel page.nextBefore

/-- The pages behind the entries that were read hold the others, whatever is left of the fuel beyond
one page an entry. -/
theorem streamPages_from {stored done rest : List StreamEntry} {count fuel : Nat}
    (hasc : stored.Pairwise (·.id < ·.id)) (hsplit : stored.reverse = done ++ rest) (hcount : 1 ≤ count)
    (hfuel : rest.length < fuel) :
    (streamPages stored count fuel (done.getLast?.map (·.id))).flatMap KvStreamPage.entries =
        rest.map parseStreamEntry ∧
      (streamPages stored count fuel (done.getLast?.map (·.id))).getLast?.map KvStreamPage.exhausted = some true := by
  induction fuel generalizing done rest with
  | zero => omega
  | succ fuel ih =>
    obtain ⟨hentries, hexhausted⟩ := fetchStreamPage_entries hasc hsplit hcount
    rw [streamPages]
    by_cases hlt : rest.length < count
    · rw [hexhausted, decide_eq_true hlt, Bool.true_or, if_pos rfl, List.flatMap_singleton, hentries,
        List.take_of_length_le (Nat.le_of_lt hlt), List.getLast?_singleton, Option.map_some, hexhausted,
        decide_eq_true hlt]
      exact ⟨rfl, rfl⟩
    have hle : count ≤ rest.length := Nat.le_of_not_lt hlt
    have hsome : rest.take count ≠ [] := by
      intro hnil
      have := congrArg List.length hnil
      rw [List.length_take, Nat.min_eq_left hle, List.length_nil] at this
      omega
    have hnext := fetchStreamPage_nextBefore (hexhausted.trans (decide_eq_false hlt))
    have hlast : (rest.take count).getLast?.map (·.id) = (done ++ rest.take count).getLast?.map (·.id) := by
      rw [List.getLast?_append_of_ne_nil _ hsome]
    rw [hentries, List.getLast?_map, Option.map_map] at hnext
    have hids : ((fun e : StreamEntry => e.id) ∘ parseStreamEntry) = fun e => e.id :=
      funext parseStreamEntry_id
    rw [hids, hlast] at hnext
    have hgo : (fetchStreamPage stored (done.getLast?.map (·.id)) count).nextBefore.isNone = false := by
      rw [hnext, ← hlast]
      cases hx : (rest.take count).getLast? with
      | none => exact absurd (List.getLast?_eq_none_iff.mp hx) hsome
      | some x => rfl
    obtain ⟨hflat, hend⟩ := @ih (done ++ rest.take count) (rest.drop count)
      (by rw [List.append_assoc, List.take_append_drop]; exact hsplit)
      (by
        rw [List.length_drop]
        omega)
    rw [hexhausted, decide_eq_false hlt, hgo, Bool.or_self, if_neg Bool.false_ne_true, hnext,
      List.flatMap_cons, hentries, hflat, ← List.map_append, List.take_append_drop]
    refine ⟨rfl, ?_⟩
    cases hpages : streamPages stored count fuel ((done ++ rest.take count).getLast?.map (·.id)) with
    | nil =>
      rw [hpages] at hend
      cases hend
    | cons page pages =>
      rw [hpages] at hend
      rw [List.getLast?_cons_cons, hend]

/-- The loop is the pages of one size. -/
theorem readStreamFrom_eq (stored : List StreamEntry) (fuel : Nat) (before : Option Nat) (entries : List StreamEntry) :
    readStreamFrom stored fuel before entries =
      entries ++ (streamPages stored collectionPage fuel before).flatMap KvStreamPage.entries := by
  induction fuel generalizing before entries with
  | zero => rw [readStreamFrom, streamPages, List.flatMap_nil, List.append_nil]
  | succ fuel ih =>
    rw [readStreamFrom, streamPages, List.flatMap_cons]
    split
    · rw [List.flatMap_nil, List.append_nil]
    · rw [ih, List.append_assoc]

/-- **Streams.** Every entry is read, newest first. -/
theorem readStream_entries {stored : List StreamEntry} (hasc : stored.Pairwise (·.id < ·.id)) :
    readStreamFrom stored (stored.length + 1) none [] = stored.reverse.map parseStreamEntry := by
  rw [readStreamFrom_eq, List.nil_append]
  have hall : stored.reverse.length < stored.length + 1 := List.length_reverse.trans_lt (Nat.lt_succ_self _)
  exact (@streamPages_from stored [] _ _ _ hasc rfl (show 1 ≤ collectionPage by decide) hall).1

end RedDb.Kv
