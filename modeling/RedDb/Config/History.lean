import RedDb.Lib.JsonText
import RedDb.Lib.Files

/-!
# RedDb — the query history

The log of executed statements, capped per connection and as a whole. Every change saves the
whole log on a thread of its own: open the temporary file empty, write, sync, rename. The
temporary name holds the process id, so the threads of one process share it.

* `history_file_whole` — when the file is one whole log at every moment;
* `torn_history` — a rename under a thread that has just emptied the file.
-/

namespace RedDb.Config

open TextCodec JsonText

/-! ## The log -/

structure HistoryEntry where
  id : Nat
  sql : String
  connId : String
  ranUnix : Nat
  ns : Option String

structure QueryHistory where
  entries : List HistoryEntry
  nextId : Nat

def maxEntrySqlBytes : Nat := 16 * 1024

def maxPerConn : Nat := 100

def maxTotal : Nat := 1000

/-- The longest head of the text within so many bytes. -/
def headWithin : Nat → Text → Text
  | _, [] => []
  | n, c :: text => if c.utf8Size ≤ n then c :: headWithin (n - c.utf8Size) text else []

def capEntrySql (sql : String) : String :=
  if sql.utf8ByteSize ≤ maxEntrySqlBytes then sql
  else String.ofList (headWithin maxEntrySqlBytes sql.toList) ++ "\n-- … (truncated in history; " ++
    toString sql.utf8ByteSize ++ " total)"

/-- Keep the newest of each connection, with the counts of those before. -/
def retainPerConn (counts : String → Nat) : List HistoryEntry → List HistoryEntry
  | [] => []
  | e :: entries =>
    let n := counts e.connId + 1
    let rest := retainPerConn (fun c => if c = e.connId then n else counts c) entries
    if n ≤ maxPerConn then e :: rest else rest

def prune (entries : List HistoryEntry) : List HistoryEntry :=
  (retainPerConn (fun _ => 0) entries).take maxTotal

/-- Record a statement, unless it repeats the connection's last one. -/
def QueryHistory.recordScoped (h : QueryHistory) (connId sql : String) (ns : Option String) (now : Nat) :
    Option QueryHistory :=
  let dup := (h.entries.find? fun e => e.connId == connId).any fun e => e.sql == sql && e.ns == ns
  if dup then none
  else some {
    entries := prune (⟨h.nextId, capEntrySql sql, connId, now, ns⟩ :: h.entries)
    nextId := h.nextId + 1 }

/-- Keep some entries, none if all are kept. -/
def QueryHistory.retain (h : QueryHistory) (keep : HistoryEntry → Bool) : Option QueryHistory :=
  let entries := h.entries.filter keep
  if entries.length = h.entries.length then none else some { h with entries }

def QueryHistory.delete (h : QueryHistory) (id : Nat) : Option QueryHistory := h.retain fun e => e.id != id

def QueryHistory.clearConn (h : QueryHistory) (connId : String) : Option QueryHistory :=
  h.retain fun e => e.connId != connId

/-! ## The file -/

def line (indent : Nat) (text : Text) : Text := '\n' :: List.replicate (2 * indent) ' ' ++ text

def field (name : String) (value : Text) : Text := quote name ++ [':', ' '] ++ value

/-- Lines with a comma behind each but the last. -/
def lines (indent : Nat) (items : List Text) : Text := [','].intercalate (items.map (line indent))

def HistoryEntry.pretty (e : HistoryEntry) : Text :=
  '\x7b' :: lines 3 [field "id" (toString e.id).toList, field "sql" (quote e.sql), field "conn_id" (quote e.connId),
    field "ran_unix" (toString e.ranUnix).toList,
    field "namespace" (e.ns.elim ['n', 'u', 'l', 'l'] quote)] ++ line 2 ['\x7d']

def prettyEntries : List HistoryEntry → Text
  | [] => ['[', ']']
  | entries => '[' :: lines 2 (entries.map HistoryEntry.pretty) ++ line 1 [']']

/-- The pretty-printed log, as bytes. -/
def contents (entries : List HistoryEntry) : List UInt8 :=
  ('\x7b' :: line 1 (field "entries" (prettyEntries entries)) ++ line 0 ['\x7d']).flatMap String.utf8EncodeChar

inductive Name where
  | history
  | historyTmp
  deriving DecidableEq

/-! ## Runs -/

inductive HistoryEvent where
  | record (connId sql : String) (ns : Option String) (now : Nat)
  | delete (id : Nat)
  | clearConn (connId : String)
  | save (thread : Nat)

/-- The log, the files with the threads that save, and the logs behind each operation. -/
structure HistoryState where
  history : QueryHistory
  disk : Files.Shared Name UInt8
  snapshots : List (List HistoryEntry)

namespace HistoryState

/-- What an operation leaves: the log saved on a new thread, if it has changed. -/
def apply (s : HistoryState) : Option QueryHistory → HistoryState
  | none => { s with snapshots := s.history.entries :: s.snapshots }
  | some history => ⟨history, s.disk.start (contents history.entries), history.entries :: s.snapshots⟩

def step (s : HistoryState) : HistoryEvent → HistoryState
  | .record connId sql ns now => s.apply (s.history.recordScoped connId sql ns now)
  | .delete id => s.apply (s.history.delete id)
  | .clearConn connId => s.apply (s.history.clearConn connId)
  | .save thread => { s with disk := s.disk.step .historyTmp .history thread }

def run (s : HistoryState) (events : List HistoryEvent) : HistoryState := events.foldl step s

/-- A fresh process, with the log it has loaded and the file as it found it. -/
def start (history : QueryHistory) (file : Option (List UInt8)) : HistoryState where
  history := history
  disk := ⟨⟨fun name => match name, file with
    | .history, some _ => some 0
    | _, _ => none, fun _ => file.getD [], 1⟩, []⟩
  snapshots := []

/-- The text of the file as the process found it, or of one whole log. -/
def Good (file : Option (List UInt8)) (s : HistoryState) (text : List UInt8) : Prop :=
  file = some text ∨ ∃ log ∈ s.snapshots, text = contents log

def Whole (file : Option (List UInt8)) (s : HistoryState) : Prop :=
  ∀ text, s.disk.dir.read .history = some text → Good file s text

/-- A thread that writes finds no longer text in the file, and one that renames it no thread that has
opened and not written it. -/
def Clear (s : HistoryState) : HistoryEvent → Prop
  | .save thread => s.disk.Clear thread
  | _ => True

/-- Every step of the run is clear. -/
def ClearRun (s : HistoryState) : List HistoryEvent → Prop
  | [] => True
  | event :: events => s.Clear event ∧ (s.step event).ClearRun events

/-! ## The file is whole -/

variable {file : Option (List UInt8)} {s : HistoryState} {event : HistoryEvent}

def DiskSound (file : Option (List UInt8)) (s : HistoryState) : Prop :=
  Files.Sound Name.historyTmp Name.history (Good file s) s.disk

theorem diskSound_start (history : QueryHistory) (file : Option (List UInt8)) : DiskSound file (start history file) where
  texts w hw := absurd hw List.not_mem_nil
  target i hi := by
    cases file with
    | none => exact absurd hi.symm (Option.some_ne_none _)
    | some text => exact Or.inl rfl
  temp i hi := absurd hi.symm (Option.some_ne_none _)
  opened w hw := absurd hw List.not_mem_nil
  apart i hi := absurd hi.symm (Option.some_ne_none _)
  below p i hi := by
    cases p with
    | historyTmp => exact absurd hi.symm (Option.some_ne_none _)
    | history =>
      cases file with
      | none => exact absurd hi.symm (Option.some_ne_none _)
      | some text =>
        rw [← Option.some.inj hi]
        exact Nat.one_pos

theorem DiskSound.apply (h : DiskSound file s) (history : Option QueryHistory) : DiskSound file (s.apply history) := by
  have hgrow : ∀ log text, Good file s text → Good file { s with snapshots := log :: s.snapshots } text :=
    fun log text hgood => hgood.imp_right fun ⟨l, hl, ht⟩ => ⟨l, List.mem_cons_of_mem _ hl, ht⟩
  cases history with
  | none => exact h.mono (hgrow _)
  | some history => exact (h.mono (hgrow _)).start (Or.inr ⟨history.entries, List.mem_cons_self, rfl⟩)

theorem DiskSound.step (h : DiskSound file s) (hclear : s.Clear event) : DiskSound file (s.step event) := by
  cases event with
  | record connId sql ns now | delete id | clearConn connId => exact h.apply _
  | save thread => exact Files.Sound.step h Name.noConfusion hclear

theorem DiskSound.run {events : List HistoryEvent} (h : DiskSound file s) (hclear : s.ClearRun events) :
    DiskSound file (s.run events) := by
  induction events generalizing s with
  | nil => exact h
  | cons event events ih => exact ih (h.step hclear.1) hclear.2

end HistoryState

open HistoryState

/-- **The history file is one whole log** in every state of a run whose saves are clear: it is as the process
found it, or the log behind one of the operations. -/
theorem history_file_whole (history : QueryHistory) (file : Option (List UInt8)) {events : List HistoryEvent}
    (h : (start history file).ClearRun events) : ((start history file).run events).Whole file :=
  fun _ hread => ((diskSound_start history file).run h).read hread

/-- A statement that is recorded and saved. -/
def oneSave : List HistoryEvent := .record "db" "select 1" none 0 :: List.replicate 4 (.save 0)

theorem history_file_whole_one : ((start ⟨[], 1⟩ none).run oneSave).Whole none := by
  refine history_file_whole ⟨[], 1⟩ none ⟨trivial, trivial, Nat.zero_le _, trivial, ?_, trivial⟩
  intro w hw i
  rw [List.mem_singleton.mp hw]
  exact Files.Stage.noConfusion

theorem contents_ne_nil (log : List HistoryEntry) : contents log ≠ [] := by
  intro h
  exact absurd (List.flatMap_eq_nil_iff.mp h '\x7b' List.mem_cons_self) (by decide)

/-- The first thread renames the file that the second has just emptied. -/
def tornSaves : List HistoryEvent :=
  [.record "db" "select 1" none 0, .save 0, .save 0, .save 0, .record "db" "select 2" none 1, .save 1, .save 0]

/-- Then the file is empty. -/
theorem torn_history :
    ¬ ∀ events : List HistoryEvent, ((start ⟨[], 1⟩ none).run events).Whole none := by
  intro h
  obtain h | ⟨log, -, hlog⟩ := h tornSaves [] rfl
  · exact absurd h.symm (Option.some_ne_none _)
  · exact contents_ne_nil log hlog.symm

end RedDb.Config
