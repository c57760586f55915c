import RedDb.Kv.CommandLine
import Mathlib.Logic.Function.Basic

/-!
# RedDb — what a Redis server holds

The keys of a server, and what the commands of an export do to the key they name. The
texts of scores, stream ids, times and documents are the server's own.

* `effect` — the documented effect of a command on its key;
* `Redis` — a server whose commands have that effect and no other;
* `get_runLines` — running the lines of one key changes that key alone.
-/

namespace RedDb.Kv

open ByteText RedDb.Driver

/-! ## Texts -/

/-- How a server writes a kind of values as text and reads them back. -/
structure Spelling (α : Type) where
  text : α → Bytes
  read : Bytes → Option α
  valid : ∀ a, validUtf8 (text a) = true
  read_text : ∀ a, read (text a) = some a

/-- The spellings of scores, stream ids, Unix milliseconds and documents. -/
structure KvText (σ J : Type) where
  score : Spelling σ
  streamId : Spelling Nat
  unixMs : Spelling Int
  json : Spelling J

/-! ## Values -/

inductive CollectionKind where
  | hash
  | set
  | zset
  deriving DecidableEq

/-- What a collection holds under a name: that it is a member, its value, or its score. -/
inductive Slot (σ : Type) where
  | member
  | value (v : Bytes)
  | score (s : σ)

structure StreamEntry where
  id : Nat
  fields : List (Bytes × Bytes)
  deriving DecidableEq

/-- The entries, oldest first, the last id that was given out, and the consumer groups. -/
structure Stream where
  entries : List StreamEntry
  lastId : Nat
  groups : List Bytes

inductive KvData (σ J : Type) where
  | string (b : Bytes)
  | collection (kind : CollectionKind) (content : Bytes → Option (Slot σ))
  | list (items : List Bytes)
  | stream (s : Stream)
  | json (doc : J)
  | other (type : Bytes)

/-- A key of the server: its value and when it expires. -/
structure Entry (σ J : Type) where
  data : KvData σ J
  expireAt : Option Int

/-- The slot is of the kind of the collection. -/
def Slot.fits {σ : Type} : Slot σ → CollectionKind → Bool
  | .member, .set | .value _, .hash | .score _, .zset => true
  | _, _ => false

/-- What is true of a value that a server holds: a collection or a list is gone with its
last element, and the ids of a stream ascend. -/
def KvData.Sound {σ J : Type} : KvData σ J → Prop
  | .string _ | .json _ | .other _ => True
  | .collection kind content =>
    (∃ name, content name ≠ none) ∧ ∀ name slot, content name = some slot → slot.fits kind = true
  | .list items => items ≠ []
  | .stream s => s.entries.Pairwise (·.id < ·.id) ∧
      ∀ e ∈ s.entries, 0 < e.id ∧ e.id ≤ s.lastId ∧ e.fields ≠ []

/-! ## Commands -/

variable {σ J : Type} (text : KvText σ J)

def pairUp : List Bytes → Option (List (Bytes × Bytes))
  | [] => some []
  | [_] => none
  | a :: b :: rest => (pairUp rest).map ((a, b) :: ·)

/-- The elements that the arguments of an `HSET`, `SADD` or `ZADD` name. -/
def readElements (kind : CollectionKind) (args : List Bytes) : Option (List (Bytes × Slot σ)) :=
  match kind with
  | .hash => (pairUp args).map fun pairs => pairs.map fun (f, v) => (f, .value v)
  | .set => some (args.map fun m => (m, .member))
  | .zset => (pairUp args).bind fun pairs =>
      pairs.mapM fun (s, m) => (text.score.read s).map fun s => (m, .score s)

def insertAll (content : Bytes → Option (Slot σ)) (elements : List (Bytes × Slot σ)) :
    Bytes → Option (Slot σ) :=
  elements.foldl (fun content (name, slot) => Function.update content name (some slot)) content

/-- The value under its key; the key keeps its expiry. -/
def store (e : Option (Entry σ J)) (data : KvData σ J) : Option (Entry σ J) :=
  some ⟨data, e.bind (·.expireAt)⟩

def addElements (kind : CollectionKind) (args : List Bytes) (e : Option (Entry σ J)) :
    Option (Option (Entry σ J)) :=
  (readElements text kind args).bind fun elements =>
    if elements.isEmpty then none
    else match e.map Entry.data with
      | none => some (store e (.collection kind (insertAll (fun _ => none) elements)))
      | some (.collection k content) =>
        some (if k = kind then store e (.collection kind (insertAll content elements)) else e)
      | some _ => some e

def pushItems (items : List Bytes) (e : Option (Entry σ J)) : Option (Option (Entry σ J)) :=
  if items.isEmpty then none
  else match e.map Entry.data with
    | none => some (store e (.list items))
    | some (.list old) => some (store e (.list (old ++ items)))
    | some _ => some e

/-- An entry is refused unless it has fields and its id is above every one given out
before. -/
def addEntry (id : Nat) (fields : List (Bytes × Bytes)) (e : Option (Entry σ J)) :
    Option (Entry σ J) :=
  if fields.isEmpty then e
  else match e.map Entry.data with
    | none => if 0 < id then store e (.stream ⟨[⟨id, fields⟩], id, []⟩) else e
    | some (.stream s) =>
        if s.lastId < id then
          store e (.stream { s with entries := s.entries ++ [⟨id, fields⟩], lastId := id })
        else e
    | some _ => e

def setDocument (doc : Bytes) (e : Option (Entry σ J)) : Option (Option (Entry σ J)) :=
  (text.json.read doc).bind fun doc =>
    match e.map Entry.data with
    | none | some (.json _) => some (store e (.json doc))
    | some _ => some e

/-- What a command and its arguments behind the key do to the key, as documented; `none`
where it is not one of the commands of an export. A command that is refused changes
nothing. -/
@[grind =] def keyEffect (cmd : Bytes) (args : List Bytes) (e : Option (Entry σ J)) :
    Option (Option (Entry σ J)) :=
  if cmd = ascii "DEL" then if args.isEmpty then some none else none
  else if cmd = ascii "SET" then
    match args with
    | [v] => some (some ⟨.string v, none⟩)
    | _ => none
  else if cmd = ascii "HSET" then addElements text .hash args e
  else if cmd = ascii "SADD" then addElements text .set args e
  else if cmd = ascii "ZADD" then addElements text .zset args e
  else if cmd = ascii "RPUSH" then pushItems args e
  else if cmd = ascii "XADD" then
    match args with
    | id :: fields =>
      (text.streamId.read id).bind fun id => (pairUp fields).map fun fields => addEntry id fields e
    | [] => none
  else if cmd = ascii "JSON.SET" then
    match args with
    | [path, doc] => if path = ascii "$" then setDocument text doc e else none
    | _ => none
  else if cmd = ascii "PEXPIREAT" then
    match args with
    | [ms] => (text.unixMs.read ms).map fun at_ => e.map fun e => { e with expireAt := some at_ }
    | _ => none
  else none

def effect (argv : List Bytes) (e : Option (Entry σ J)) : Option (Option (Entry σ J)) :=
  match argv with
  | cmd :: _ :: args => keyEffect text cmd args e
  | _ => none

/-- A server on which each command of an export does to its key what is documented, and
nothing to any other. -/
structure Redis where
  State : Type
  empty : State
  get : State → Bytes → Option (Entry σ J)
  exec : State → List Bytes → State
  get_empty : ∀ key, get empty key = none
  get_exec : ∀ s cmd key args e', effect text (cmd :: key :: args) (get s key) = some e' →
    ∀ k, get (exec s (cmd :: key :: args)) k = if k = key then e' else get s k

variable {text}

/-- Execute the lines in order. -/
def Redis.runLines (r : Redis text) (s : r.State) (lines : List Bytes) : r.State :=
  lines.foldl (fun s line => r.exec s (tokenizeCommand line)) s

/-- A command on `key`, of valid text. -/
def Names (key : Bytes) (argv : List Bytes) : Prop :=
  (∃ cmd args, argv = cmd :: key :: args) ∧ ∀ arg ∈ argv, validUtf8 arg = true

/-- The lines of one key change that key, as the commands do one after another. -/
theorem Redis.get_runLines (r : Redis text) {key : Bytes} {argvs : List (List Bytes)}
    (hnames : ∀ argv ∈ argvs, Names key argv) {s : r.State} {e' : Option (Entry σ J)}
    (h : argvs.foldlM (fun e argv => effect text argv e) (r.get s key) = some e') (k : Bytes) :
    r.get (r.runLines s (argvs.map commandLine)) k = if k = key then e' else r.get s k := by
  induction argvs generalizing s with
  | nil =>
    obtain rfl := Option.some.inj h
    by_cases hk : k = key
    · rw [if_pos hk, hk]
      rfl
    · rw [if_neg hk]
      rfl
  | cons argv argvs ih =>
    obtain ⟨⟨cmd, args, rfl⟩, hvalid⟩ := hnames argv List.mem_cons_self
    rw [List.foldlM_cons] at h
    obtain ⟨e, he, h⟩ := Option.bind_eq_some_iff.mp h
    have hget := r.get_exec s cmd key args e he
    have hkey : r.get (r.exec s (cmd :: key :: args)) key = e := by rw [hget, if_pos rfl]
    rw [List.map_cons, Redis.runLines, List.foldl_cons, tokenize_commandLine hvalid]
    refine (ih (fun a ha => hnames a (List.mem_cons_of_mem _ ha)) (hkey ▸ h)).trans ?_
    by_cases hk : k = key
    · rw [if_pos hk, if_pos hk]
    · rw [if_neg hk, if_neg hk, hget, if_neg hk]

end RedDb.Kv
