import RedDb.Schema.Compare
import RedDb.Transfer.Import

/-!
# RedDb — transfer plans

One plan describes a copy, a duplicate and a migrate alike: per item where its rows come from,
what the target is called, how the target is prepared and which rows ride. The executor takes
the items in an order that puts the parents of foreign keys first and query sources last.

* `orderItems_perm` — every item is taken exactly once.
-/

namespace RedDb.Transfer

open ByteText RedDb.Driver RedDb.Schema

/-! ## Plans -/

/-- Where the rows of an item come from. -/
inductive ItemSource where
  /-- A table; a schema of its own overrides the plan's. -/
  | table (schema : Option Bytes) (name : Bytes)
  /-- An open result, by its number. -/
  | result (epoch : Nat)
  | sql (text : Bytes)
  deriving DecidableEq

inductive CopyMode where
  | append | truncateInsert
  deriving DecidableEq

/-- How the target is prepared before rows land in it. -/
inductive ItemAction where
  | skip
  | create
  | existing (mode : CopyMode)
  | recreate
  deriving DecidableEq

/-- Which rows ride along. -/
inductive ItemContent where
  | structureOnly
  | allRows
  | where_ (expr : Bytes)
  | limit (n : Nat)
  deriving DecidableEq

/-- One object that moves. An empty mapping means identity. -/
structure TransferItem where
  source : ItemSource
  targetName : Bytes
  action : ItemAction
  content : ItemContent
  mapping : List ColumnMap
  deriving DecidableEq

inductive OnError where
  | stop | skipItem
  deriving DecidableEq

structure TransferOptions where
  primaryKeys : Bool
  indexes : Bool
  foreignKeys : Bool
  onError : OnError
  dryRun : Bool
  deriving DecidableEq

structure TransferPlan where
  sourceNamespace : Option Bytes
  targetNamespace : Option Bytes
  items : List TransferItem
  options : TransferOptions
  deriving DecidableEq

/-- Whether the item writes anything at all. -/
def TransferItem.isActive (i : TransferItem) : Bool := i.action != .skip

/-- Whether the item clears or drops what is already on the target. -/
def TransferItem.isDestructive (i : TransferItem) : Bool :=
  i.action == .recreate || i.action == .existing .truncateInsert

def ItemContent.movesRows : ItemContent → Bool
  | .structureOnly | .limit 0 => false
  | _ => true

/-- The query for the rows of a quoted table, none when no rows move. -/
def ItemContent.selectSql (quotedTable : Bytes) : ItemContent → Option Bytes
  | .structureOnly | .limit 0 => none
  | .allRows => some (ascii "SELECT * FROM " ++ quotedTable)
  | .where_ expr =>
    if (trim expr).isEmpty then some (ascii "SELECT * FROM " ++ quotedTable)
    else some (ascii "SELECT * FROM " ++ quotedTable ++ ascii " WHERE (" ++ expr ++ ascii ")")
  | .limit n => some (ascii "SELECT * FROM " ++ quotedTable ++ ascii " LIMIT " ++ ByteText.decimal n)

theorem selectSql_isSome (q : Bytes) (c : ItemContent) : (c.selectSql q).isSome = c.movesRows := by
  cases c with
  | structureOnly | allRows => rfl
  | where_ expr =>
    unfold ItemContent.selectSql
    dsimp only
    split <;> rfl
  | limit n => cases n <;> rfl

/-- The target of an item, under the plan's target namespace. -/
def TransferPlan.targetRef (plan : TransferPlan) (item : TransferItem) : TableRef :=
  ⟨plan.targetNamespace, item.targetName⟩

/-- The source of a table item: its own schema, or else the plan's. -/
def TransferPlan.sourceRef (plan : TransferPlan) (item : TransferItem) : Option TableRef :=
  match item.source with
  | .table schema name => some ⟨schema.or plan.sourceNamespace, name⟩
  | _ => none

/-! ## The order -/

/-- A foreign key of the source, with its column pairs in key order. -/
structure FkEdge where
  fromSchema : Option Bytes
  fromTable : Bytes
  toSchema : Option Bytes
  toTable : Bytes
  columns : List (Bytes × Bytes)

/-- A schema that is not known, or is the one that was asked for. -/
def inScope (asked schema : Option Bytes) : Bool :=
  asked.all fun sc => schema.all fun x => eqIgnoreAsciiCase x sc

section OrderByFk

variable (tables : List Bytes) (schema : Option Bytes) (fks : List FkEdge)

/-- The lower-case names, each where it comes first. -/
def orderKeys : List Bytes := (tables.map asciiLower).eraseDups

/-- The name behind a key: its last spelling. -/
def displayName (k : Bytes) : Bytes := ((tables.filter fun t => asciiLower t == k).getLast?).getD k

/-- The parents a table must follow. -/
def parentKeys (k : Bytes) : List Bytes :=
  (fks.filter fun fk =>
    asciiLower fk.fromTable == k && asciiLower fk.fromTable != asciiLower fk.toTable &&
      (orderKeys tables).contains (asciiLower fk.fromTable) &&
      (orderKeys tables).contains (asciiLower fk.toTable) &&
      inScope schema fk.fromSchema && inScope schema fk.toSchema).map fun fk => asciiLower fk.toTable

/-- One pass over the names: each whose parents are out goes out. -/
def orderSweep (done : List Bytes) : List Bytes :=
  (orderKeys tables).foldl (fun done k =>
    if done.contains k then done
    else if (parentKeys tables schema fks k).all done.contains then done ++ [k] else done) done

/-- A pass, or the next name when the pass was stuck in a cycle. -/
def orderRound (done : List Bytes) : List Bytes :=
  let swept := orderSweep tables schema fks done
  if swept.length = done.length then
    match (orderKeys tables).find? fun k => !done.contains k with
    | some k => done ++ [k]
    | none => done
  else swept

/-- Parents before children; a round puts out at least one name. -/
def orderByFk : List Bytes :=
  (WhileLoop.run (fun done => decide (done.length < (orderKeys tables).length))
    (orderRound tables schema fks) (orderKeys tables).length []).map (displayName tables)

end OrderByFk

/-- The place of a table item, with the name of its source. -/
def tableSlot : TransferItem × Nat → Option (Nat × Bytes)
  | (⟨.table _ name, _, _, _, _⟩, i) => some (i, name)
  | _ => none

def querySlot : TransferItem × Nat → Option Nat
  | (⟨.table _ _, _, _, _, _⟩, _) => none
  | (_, i) => some i

def tableSlots (items : List TransferItem) : List (Nat × Bytes) := items.zipIdx.filterMap tableSlot

def querySlots (items : List TransferItem) : List Nat := items.zipIdx.filterMap querySlot

/-- For each name the first slot of it that is left; then the slots that were not called. -/
def takeSlots : List Bytes → List (Nat × Bytes) → List Nat
  | [], slots => slots.map Prod.fst
  | name :: names, slots =>
    match slots.find? fun s => eqIgnoreAsciiCase s.2 name with
    | some s => s.1 :: takeSlots names (slots.erase s)
    | none => takeSlots names slots

/-- The order in which the items run. -/
def orderItems (plan : TransferPlan) (fks : List FkEdge) : List Nat :=
  takeSlots (orderByFk ((tableSlots plan.items).map Prod.snd) plan.sourceNamespace fks)
    (tableSlots plan.items) ++ querySlots plan.items

section Order

theorem takeSlots_perm (names : List Bytes) (slots : List (Nat × Bytes)) :
    (takeSlots names slots).Perm (slots.map Prod.fst) := by
  induction names generalizing slots with
  | nil => exact List.Perm.refl _
  | cons name names ih =>
    rw [takeSlots]
    split
    · rename_i s hs
      have hmem := List.mem_of_find?_eq_some hs
      exact ((ih (slots.erase s)).cons s.1).trans ((List.perm_cons_erase hmem).map Prod.fst).symm
    · exact ih slots

/-- Table items and query items are all the items. -/
theorem slots_perm (items : List TransferItem) (k : Nat) :
    (((items.zipIdx k).filterMap tableSlot).map Prod.fst ++ (items.zipIdx k).filterMap querySlot).Perm
      (List.range' k items.length) := by
  induction items generalizing k with
  | nil => exact List.Perm.refl _
  | cons item items ih =>
    obtain ⟨source, target, action, content, mapping⟩ := item
    rw [List.zipIdx_cons, List.filterMap_cons, List.filterMap_cons, List.length_cons, List.range'_succ]
    cases source with
    | table schema name => exact (ih (k + 1)).cons k
    | result epoch | sql text => exact List.perm_middle.trans ((ih (k + 1)).cons k)

/-- **Every item is taken exactly once.** -/
theorem orderItems_perm (plan : TransferPlan) (fks : List FkEdge) :
    (orderItems plan fks).Perm (List.range plan.items.length) := by
  rw [List.range_eq_range']
  exact ((takeSlots_perm _ _).append_right _).trans (slots_perm plan.items 0)

end Order

end RedDb.Transfer
