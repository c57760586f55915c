import RedDb.Transfer.Job

/-!
# RedDb — the foreign keys of a transfer

Behind the last item the foreign keys of the source are made anew between the created
tables. These are looked up by their source's name in lower case, whatever its schema.

* `deferredForeignKeys_asked` — what the target is asked for, foreign key by foreign key;
* `foreign_keys_iff` — when that connects the copied tables.
-/

namespace RedDb.Transfer

open ByteText RedDb.Driver RedDb.Schema

structure Constraint where
  child : TableRef
  columns : List Bytes
  parent : TableRef
  refs : List Bytes
  deriving DecidableEq

section Run

variable {σ : Type} {job : TransferJob σ} {asked : σ → List Constraint}

/-- The target's state shows the constraints that were asked for, refused or not, and the job is not
cancelled. -/
structure Recorded (job : TransferJob σ) (asked : σ → List Constraint) : Prop where
  keeps : ∀ s child columns parent refs, asked (job.servers.addForeignKey s child columns parent refs).2 =
    asked s ++ [⟨child, columns, parent, refs⟩]
  live : ∀ s, (job.servers.cancelled s).1 = false ∧ asked (job.servers.cancelled s).2 = asked s

/-- What is asked for one foreign key. -/
def issuedFor (plan : TransferPlan) (created : List CreatedTable) (fk : FkEdge) : List Constraint :=
  match landedAs created fk.fromTable, landedAs created fk.toTable with
  | some child, some parent =>
    if !inScope plan.sourceNamespace fk.fromSchema || !inScope plan.sourceNamespace fk.toSchema then []
    else [⟨⟨plan.targetNamespace, child⟩, fk.columns.map Prod.fst, ⟨plan.targetNamespace, parent⟩,
      fk.columns.map Prod.snd⟩]
  | _, _ => []

theorem deferForeignKey_asked (h : Recorded job asked) (created : List CreatedTable) (d : Deferred σ) (fk : FkEdge) :
    asked (deferForeignKey job created d fk).state = asked d.state ++ issuedFor job.plan created fk := by
  unfold deferForeignKey issuedFor
  cases landedAs created fk.fromTable with
  | none => exact (List.append_nil _).symm
  | some child =>
    cases landedAs created fk.toTable with
    | none => exact (List.append_nil _).symm
    | some parent =>
      dsimp only
      split
      · exact (List.append_nil _).symm
      · rw [← h.keeps]
        split <;> rename_i hadd <;> rw [hadd]

theorem deferredForeignKeys_asked (h : Recorded job asked) (created : List CreatedTable) (fks : List FkEdge)
    (d : Deferred σ) : asked (deferredForeignKeys job created fks d).state =
      asked d.state ++ fks.flatMap (issuedFor job.plan created) := by
  induction fks generalizing d with
  | nil => exact (List.append_nil _).symm
  | cons fk fks ih =>
    obtain ⟨hlive, hsame⟩ := h.live d.state
    rw [deferredForeignKeys]
    cases hcancelled : job.servers.cancelled d.state with
    | mk stop s =>
      rw [hcancelled] at hlive hsame
      obtain rfl : stop = false := hlive
      dsimp only
      rw [ih, deferForeignKey_asked h, hsame, List.flatMap_cons, List.append_assoc]

end Run

variable (plan : TransferPlan) (created : List CreatedTable)

/-- An item copies the table of this schema and name; one that is not said is any. -/
def CreatedTable.copies (schema : Option Bytes) (table : Bytes) (c : CreatedTable) : Bool :=
  match c.item.source with
  | .table s name => name == table && match s.or plan.sourceNamespace, schema with
    | some a, some b => a == b
    | _, _ => true
  | _ => false

def childrenOf (fk : FkEdge) : List CreatedTable := created.filter (CreatedTable.copies plan fk.fromSchema fk.fromTable)

def parentsOf (fk : FkEdge) : List CreatedTable := created.filter (CreatedTable.copies plan fk.toSchema fk.toTable)

/-- A foreign key between two created tables. -/
def between (fk : FkEdge) (child parent : CreatedTable) : Constraint :=
  ⟨⟨plan.targetNamespace, child.item.targetName⟩, fk.columns.map Prod.fst,
    ⟨plan.targetNamespace, parent.item.targetName⟩, fk.columns.map Prod.snd⟩

/-- The constraints are one for each copy of the child, to a copy of the parent, if there is any. -/
def Connects (fk : FkEdge) (issued : List Constraint) : Prop :=
  if parentsOf plan created fk = [] then issued = []
  else List.Forall₂ (fun k c => ∃ p ∈ parentsOf plan created fk, k = between plan fk c p) issued
    (childrenOf plan created fk)

/-- What the tables of a foreign key are looked up as are its tables: the one copy of the child, and a
copy of the parent. Out of scope one of them has no copy. -/
def LooksUp (fk : FkEdge) : Prop :=
  ∀ child ∈ landedAs created fk.fromTable, ∀ parent ∈ landedAs created fk.toTable,
    if !inScope plan.sourceNamespace fk.fromSchema || !inScope plan.sourceNamespace fk.toSchema then
      childrenOf plan created fk = [] ∨ parentsOf plan created fk = []
    else (childrenOf plan created fk).map (fun c => c.item.targetName) = [child] ∧
      parent ∈ (parentsOf plan created fk).map fun c => c.item.targetName

variable {plan created}

theorem landedAs_of_copies {schema : Option Bytes} {table : Bytes}
    (h : created.filter (CreatedTable.copies plan schema table) ≠ []) : landedAs created table ≠ none := by
  obtain ⟨c, hc⟩ := List.exists_mem_of_ne_nil _ h
  obtain ⟨hmem, hcopies⟩ := List.mem_filter.mp hc
  have hkey : c ∈ copiesOf created (asciiLower table) := by
    refine List.mem_filter.mpr ⟨hmem, ?_⟩
    unfold CreatedTable.copies at hcopies
    unfold TransferItem.sourceKey
    split at hcopies
    · rename_i s name hsource
      rw [Bool.and_eq_true, beq_iff_eq] at hcopies
      simp [hsource, hcopies.1]
    · cases hcopies
  intro hnone
  rw [landedAs, Option.map_eq_none_iff, List.getLast?_eq_none_iff] at hnone
  rw [hnone] at hkey
  cases hkey

theorem connects_nil {fk : FkEdge} :
    Connects plan created fk [] ↔ childrenOf plan created fk = [] ∨ parentsOf plan created fk = [] := by
  unfold Connects
  split
  · rename_i hnone
    exact iff_of_true rfl (.inr hnone)
  · rename_i hsome
    rw [List.forall₂_nil_left_iff, or_iff_left hsome]

theorem connects_one {fk : FkEdge} {child parent : Bytes} :
    Connects plan created fk [⟨⟨plan.targetNamespace, child⟩, fk.columns.map Prod.fst, ⟨plan.targetNamespace, parent⟩,
        fk.columns.map Prod.snd⟩] ↔
      (childrenOf plan created fk).map (fun c => c.item.targetName) = [child] ∧
        parent ∈ (parentsOf plan created fk).map fun c => c.item.targetName := by
  unfold Connects
  split
  · rename_i hnone
    rw [hnone]
    exact iff_of_false (List.cons_ne_nil _ _) (fun h => absurd h.2 List.not_mem_nil)
  cases childrenOf plan created fk with
  | nil => exact iff_of_false (fun h => by cases h) (fun h => by cases h.1)
  | cons c rest =>
    rw [List.forall₂_cons, List.forall₂_nil_left_iff, List.map_cons, List.cons.injEq, List.map_eq_nil_iff,
      List.mem_map]
    constructor
    · rintro ⟨⟨p, hp, heq⟩, hrest⟩
      simp only [between, Constraint.mk.injEq, TableRef.mk.injEq, true_and, and_true] at heq
      exact ⟨⟨heq.1.symm, hrest⟩, p, hp, heq.2.symm⟩
    · rintro ⟨⟨hc, hrest⟩, p, hp, hparent⟩
      exact ⟨⟨p, hp, by rw [between, hc, hparent]⟩, hrest⟩

theorem connects_iff (fk : FkEdge) : Connects plan created fk (issuedFor plan created fk) ↔ LooksUp plan created fk := by
  unfold issuedFor LooksUp
  cases hchild : landedAs created fk.fromTable with
  | none =>
    refine iff_of_true (connects_nil.mpr (.inl ?_)) (fun _ h => by cases h)
    exact by_contra fun h => landedAs_of_copies h hchild
  | some child =>
    cases hparent : landedAs created fk.toTable with
    | none =>
      refine iff_of_true (connects_nil.mpr (.inr ?_)) (fun _ _ _ h => by cases h)
      exact by_contra fun h => landedAs_of_copies h hparent
    | some parent =>
      simp only [Option.mem_some_iff, forall_eq']
      split
      · exact connects_nil
      · exact connects_one

/-- The target is asked for the constraints that connect the copied tables exactly when the lookup by
name finds the tables of every foreign key. -/
theorem foreign_keys_iff {σ : Type} {job : TransferJob σ} {asked : σ → List Constraint} (h : Recorded job asked)
    (created : List CreatedTable) (fks : List FkEdge) (d : Deferred σ) :
    asked (deferredForeignKeys job created fks d).state =
        asked d.state ++ fks.flatMap (issuedFor job.plan created) ∧
      ((∀ fk ∈ fks, Connects job.plan created fk (issuedFor job.plan created fk)) ↔
        ∀ fk ∈ fks, LooksUp job.plan created fk) :=
  ⟨deferredForeignKeys_asked h created fks d, forall₂_congr fun fk _ => connects_iff fk⟩

def keepingServers : Servers (List Constraint) where
  srcKind := .postgres
  dstKind := .postgres
  foreignKeys _ := .ok []
  describeSource _ _ _ := .ok peopleDetail
  openCursor _ _ := .error .interrupted
  describeTarget _ _ _ := .ok peopleDetail
  dropTable s _ := (none, s)
  createTable s _ _ := (none, s)
  clearTable s _ := (none, s)
  insertRows s _ _ rows := (.ok rows.length, s)
  createIndex s _ _ _ _ := (none, s)
  addForeignKey s child columns parent refs := (none, s ++ [⟨child, columns, parent, refs⟩])
  cancelled s := (false, s)

def keepingJob : TransferJob (List Constraint) :=
  ⟨keepingServers, ⟨none, none, [], ⟨true, true, true, .stop, false⟩⟩, fun _ => none⟩

/-- A copy of a table under a name. -/
def copied (table target : String) : CreatedTable :=
  ⟨0, ⟨.table none (ascii table), ascii target, .create, .structureOnly, []⟩, peopleDetail⟩

def ordersKey : FkEdge := ⟨none, ascii "orders", none, ascii "people", [(ascii "person", ascii "id")]⟩

theorem foreign_keys_iff_orders :
    (deferredForeignKeys keepingJob [copied "people" "people", copied "orders" "orders"] [ordersKey] ⟨⟨[], 0⟩, [], []⟩).state =
        [] ++ [ordersKey].flatMap (issuedFor keepingJob.plan [copied "people" "people", copied "orders" "orders"]) ∧
      ((∀ fk ∈ [ordersKey], Connects keepingJob.plan [copied "people" "people", copied "orders" "orders"] fk
          (issuedFor keepingJob.plan [copied "people" "people", copied "orders" "orders"] fk)) ↔
        ∀ fk ∈ [ordersKey], LooksUp keepingJob.plan [copied "people" "people", copied "orders" "orders"] fk) :=
  @foreign_keys_iff _ _ id ⟨fun _ _ _ _ _ => rfl, fun _ => ⟨rfl, rfl⟩⟩ _ _ _

/-- Of two copies of `orders` only the second is connected. -/
theorem first_copy_unconnected :
    (deferredForeignKeys keepingJob [copied "people" "people", copied "orders" "orders", copied "orders" "archive"]
        [ordersKey] ⟨⟨[], 0⟩, [], []⟩).state =
      [⟨⟨none, ascii "archive"⟩, [ascii "person"], ⟨none, ascii "people"⟩, [ascii "id"]⟩] ∧
    ¬ Connects keepingJob.plan [copied "people" "people", copied "orders" "orders", copied "orders" "archive"] ordersKey
      [⟨⟨none, ascii "archive"⟩, [ascii "person"], ⟨none, ascii "people"⟩, [ascii "id"]⟩] := by
  refine ⟨by decide, fun h => absurd (connects_one.mp h).1 ?_⟩
  decide

end RedDb.Transfer
