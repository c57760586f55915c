import RedDb.Schema.Compare
import RedDb.Sql.LiveWords

/-!
# RedDb — the script of a comparison

`to_sql` writes what a comparison found as a script for the reader to run. Only what adds is
spelled out as statements; what drops is commented out unless drops were asked for, and what
changes a type always is. Names are quoted where they stand in a statement, and written into the
comments as they are; the types and defaults of added columns are written as the catalog gave
them.

* `additive_adds` — nothing in an additive script drops or changes, where no text leaves its
  comment, its quotes or its statement;
* `full_script_states` — what the full script has a statement for.
-/

namespace RedDb.Schema

open ByteText NamedLists RedDb.Sql

/-! ## The script -/

/-- How much of a delta is spelled out. -/
inductive ScriptScope where
  | additive | includeDrops
  deriving DecidableEq

/-- The byte that quotes a name in the script. -/
def quoteByte : DbKind → UInt8
  | .mysql => backtick
  | _ => doubleQuote

/-- The quoter of the engine that would run the script. -/
def quoter (kind : DbKind) (ident : Bytes) : Bytes := quotedBy (quoteByte kind) ident

def ObjectKind.asStr : ObjectKind → Bytes
  | .table => ascii "table"
  | .view => ascii "view"
  | .materializedView => ascii "matview"
  | .function => ascii "function"
  | .procedure => ascii "procedure"
  | .trigger => ascii "trigger"
  | .sequence => ascii "sequence"
  | .type => ascii "type"

/-- What destroys is commented out unless it was asked for. -/
def dropLine : ScriptScope → Bytes → Line
  | .additive, x => .remark (x ++ [semicolon])
  | .includeDrops, x => .live x

def headerLines (crossEngine : Bool) : List Line :=
  [.remark (ascii "Generated by RED from a schema comparison. Read it before running it:"),
    .remark (ascii "RED does not execute this, and it is not a migration tool.")] ++
  (if crossEngine then
    [.remark (ascii "The two sides are different engines, so columns were compared by type"),
      .remark (ascii "class rather than by spelling. Check the types before applying.")]
  else []) ++
  [.blank]

section Statements

variable (quote : Bytes → Bytes) (ns : Bytes)

/-- The full `CREATE` needs the object's own definition; the script names it. -/
def objectAdded (o : ObjectMeta) : Line :=
  .remark (o.kind.asStr ++ [space] ++ ns ++ [dot] ++ o.name ++
    ascii " exists only on the right; copy its definition with Show DDL.")

def dropTable (o : ObjectMeta) : Bytes := ascii "DROP TABLE " ++ quote ns ++ [dot] ++ quote o.name

def tableRef (t : TableDelta) : Bytes := quote ns ++ [dot] ++ quote t.name

def addColumn (t : TableDelta) (c : ColumnMeta) : Bytes :=
  ascii "ALTER TABLE " ++ tableRef quote ns t ++ ascii " ADD COLUMN " ++ quote c.name ++ [space] ++
    (c.typeName.getD (ascii "text") ++ (c.default.elim [] fun d => ascii " DEFAULT " ++ d) ++
      (if c.notNull then ascii " NOT NULL" else []))

def dropColumn (t : TableDelta) (c : ColumnMeta) : Bytes :=
  ascii "ALTER TABLE " ++ tableRef quote ns t ++ ascii " DROP COLUMN " ++ quote c.name

def Confidence.note : Confidence → Bytes
  | .certain => ascii "check for data loss before running"
  | .uncertain => ascii "types outside RED's lattice; this may be a spelling difference"

def changeRemark (c : ColumnChange) : Bytes :=
  c.left.name ++ ascii ": " ++ c.summary ++ ascii " (" ++ c.confidence.note ++ ascii ")"

def alterType (t : TableDelta) (c : ColumnChange) (ty : Bytes) : Bytes :=
  ascii "ALTER TABLE " ++ tableRef quote ns t ++ ascii " ALTER COLUMN " ++ quote c.left.name ++
    ascii " TYPE " ++ ty

/-- A change is put in words, and its statement is always commented out. -/
def columnChanged (t : TableDelta) (c : ColumnChange) : List Line :=
  .remark (changeRemark c) ::
    c.right.typeName.elim [] fun ty => [.remark (alterType quote ns t c ty ++ [semicolon])]

def createIndex (t : TableDelta) (i : IndexMeta) : Bytes :=
  ascii "CREATE " ++ (if i.unique then ascii "UNIQUE " else []) ++ ascii "INDEX " ++ quote i.name ++
    ascii " ON " ++ tableRef quote ns t ++ ascii " (" ++
    List.intercalate (ascii ", ") (i.columns.map quote) ++ ascii ")"

def dropIndex (i : IndexMeta) : Bytes := ascii "DROP INDEX " ++ quote i.name

def addForeignKey (t : TableDelta) (f : ForeignKeyMeta) : Bytes :=
  ascii "ALTER TABLE " ++ tableRef quote ns t ++ ascii " ADD FOREIGN KEY (" ++ quote f.column ++
    ascii ") REFERENCES " ++ quote f.refTable ++ ascii " (" ++ quote f.refColumn ++ ascii ")"

/-- The lines of one table; its removed foreign keys have none. -/
def tableLines (scope : ScriptScope) (t : TableDelta) : List Line :=
  t.columnsAdded.map (fun c => .live (addColumn quote ns t c)) ++
  t.columnsRemoved.map (fun c => dropLine scope (dropColumn quote ns t c)) ++
  t.columnsChanged.flatMap (columnChanged quote ns t) ++
  t.indexesAdded.map (fun i => .live (createIndex quote ns t i)) ++
  t.indexesRemoved.map (fun i => dropLine scope (dropIndex quote i)) ++
  t.fksAdded.map fun f => .live (addForeignKey quote ns t f)

/-- The lines of the script that would move the left side toward the right. -/
def SchemaDelta.toSqlLines (δ : SchemaDelta) (scope : ScriptScope) : List Line :=
  headerLines δ.crossEngine ++
  δ.objectsAdded.map (objectAdded ns) ++
  δ.objectsRemoved.map (fun o => dropLine scope (dropTable quote ns o)) ++
  (if δ.objectsAdded.isEmpty && δ.objectsRemoved.isEmpty then [] else [.blank]) ++
  δ.tablesChanged.flatMap (tableLines quote ns scope)

def SchemaDelta.toSql (δ : SchemaDelta) (scope : ScriptScope) : Bytes :=
  scriptText (δ.toSqlLines quote ns scope)

end Statements

/-! ## What is written where -/

section Texts

variable (ns : Bytes) (scope : ScriptScope)

/-- The texts of a table that stand in comments. -/
def tableComments (t : TableDelta) : List Bytes :=
  (if scope = .additive then
    t.columnsRemoved.flatMap (fun c => [ns, t.name, c.name]) ++ t.indexesRemoved.map IndexMeta.name
  else []) ++
  t.columnsChanged.flatMap fun c =>
    c.left.name :: c.summary :: c.right.typeName.elim [] fun ty => [ns, t.name, ty]

/-- The names of a table that stand in statements. -/
def tableNames (t : TableDelta) : List Bytes :=
  (if scope = .includeDrops then
    t.columnsRemoved.flatMap (fun c => [ns, t.name, c.name]) ++ t.indexesRemoved.map IndexMeta.name
  else []) ++
  t.columnsAdded.flatMap (fun c => [ns, t.name, c.name]) ++
  t.indexesAdded.flatMap (fun i => i.name :: ns :: t.name :: i.columns) ++
  t.fksAdded.flatMap fun f => [ns, t.name, f.column, f.refTable, f.refColumn]

variable (δ : SchemaDelta)

/-- The texts that stand in comments. -/
def commentTexts : List Bytes :=
  δ.objectsAdded.flatMap (fun o => [ns, o.name]) ++
  (if scope = .additive then δ.objectsRemoved.flatMap fun o => [ns, o.name] else []) ++
  δ.tablesChanged.flatMap (tableComments ns scope)

/-- The names that stand in statements. -/
def quotedNames : List Bytes :=
  (if scope = .includeDrops then δ.objectsRemoved.flatMap fun o => [ns, o.name] else []) ++
  δ.tablesChanged.flatMap (tableNames ns scope)

/-- The types and defaults that stand in statements. -/
def givenTexts : List Bytes :=
  δ.tablesChanged.flatMap fun t => t.columnsAdded.flatMap fun c => c.typeName.toList ++ c.default.toList

/-- A text of one line. -/
def OneLine (x : Bytes) : Prop := newline ∉ x

instance (x : Bytes) : Decidable (OneLine x) := inferInstanceAs (Decidable (_ ∉ _))

/-- No text leaves its comment, its quotes or its statement. -/
structure Contained (kind : DbKind) : Prop where
  comments : ∀ x ∈ commentTexts ns scope δ, OneLine x
  names : ∀ x ∈ quotedNames ns scope δ, Quotable (Dialect.of kind) (quoteByte kind) x
  given : ∀ x ∈ givenTexts δ, Given (Dialect.of kind) x

end Texts

/-! ## Comments -/

variable {x : Bytes} {t : TableDelta}

section Comments

variable {kind : DbKind} {ns : Bytes}

theorem quoteByte_cases (kind : DbKind) : quoteByte kind = doubleQuote ∨ quoteByte kind = backtick := by
  cases kind with
  | mysql => exact Or.inr rfl
  | postgres | sqlite | clickhouse | redis | mongo => exact Or.inl rfl

theorem mem_doubled {q c : UInt8} (h : c ∈ doubled q x) : c ∈ x := by
  induction x with
  | nil => exact h
  | cons e x ih =>
    rw [doubled] at h
    split at h
    · rcases List.mem_cons.mp h with rfl | h
      · exact List.mem_cons_self
      · rcases List.mem_cons.mp h with rfl | h
        · exact List.mem_cons_self
        · exact List.mem_cons_of_mem e (ih h)
    · rcases List.mem_cons.mp h with rfl | h
      · exact List.mem_cons_self
      · exact List.mem_cons_of_mem e (ih h)

theorem OneLine.append {y : Bytes} (hx : OneLine x) (hy : OneLine y) : OneLine (x ++ y) := by
  intro h
  rcases List.mem_append.mp h with h | h
  · exact hx h
  · exact hy h

theorem oneLine_quoter (h : OneLine x) : OneLine (quoter kind x) := by
  have hq : newline ≠ quoteByte kind := by
    rcases quoteByte_cases kind with hq | hq <;> rw [hq] <;> decide
  intro hmem
  rcases List.mem_cons.mp hmem with heq | hmem
  · exact hq heq
  · rcases List.mem_append.mp hmem with hmem | hmem
    · exact h (mem_doubled hmem)
    · exact hq (List.mem_singleton.mp hmem)

theorem oneLine_tableRef (hns : OneLine ns) (ht : OneLine t.name) :
    OneLine (tableRef (quoter kind) ns t) :=
  ((oneLine_quoter hns).append (by decide)).append (oneLine_quoter ht)

theorem clean_dropLine {scope : ScriptScope} (hremark : scope = .additive → OneLine x)
    (hlive : scope = .includeDrops → Enclosing (Dialect.of kind) x) :
    (dropLine scope x).Clean (Dialect.of kind) := by
  cases scope with
  | additive => exact (hremark rfl).append (by decide)
  | includeDrops => exact hlive rfl

end Comments

/-! ## Statements -/

variable {c : ColumnMeta} {i : IndexMeta} {o : ObjectMeta}

section Statements

variable {kind : DbKind} {ns : Bytes} {d : Dialect} {q : UInt8}

/-- Keywords that end with no word. -/
theorem between_of (h : Keywords x ∧ (x.getLast?.any fun c => !isWordByte c) = true) :
    Between x := by
  obtain ⟨hkeywords, hlast⟩ := h
  refine ⟨hkeywords, fun hnil => ?_, fun c hc => ?_⟩
  · rw [hnil] at hlast
    cases hlast
  · rw [hc, Option.any_some, Bool.not_eq_true'] at hlast
    exact hlast

/-- A statement of keywords and names. -/
theorem spoken_written (d : Dialect) (ps : List (Bytes × Bytes)) (hq : q = doubleQuote ∨ q = backtick)
    {lead : Bytes} (hlead : Between lead) (hps : ∀ p ∈ ps, Quotable d q p.1 ∧ Between p.2) :
    Spoken d (lead ++ names q ps) (wordsOf lead ++ ps.flatMap fun p => wordsOf p.2) (fun _ => True) ∧
      Opens (lead ++ names q ps) := by
  obtain ⟨hnames, hopens⟩ := spoken_names hq (fun p hp => (hps p hp).1) fun p hp => (hps p hp).2
  exact ⟨(spoken_keywords hlead.keywords).append hlead.opens hnames fun _ _ => trivial,
    hlead.opens.of_append hopens⟩

/-- The same with a last name. -/
theorem spoken_written_name (ps : List (Bytes × Bytes)) (hq : q = doubleQuote ∨ q = backtick)
    {lead last : Bytes} (hlead : Between lead) (hps : ∀ p ∈ ps, Quotable d q p.1 ∧ Between p.2)
    (hlast : Quotable d q last) :
    Spoken d (lead ++ names q ps ++ quotedBy q last) (wordsOf lead ++ ps.flatMap fun p => wordsOf p.2)
      Follows := by
  obtain ⟨hwritten, hopens⟩ := spoken_written d ps hq hlead hps
  have hend := hwritten.append hopens (spoken_quoted hq hlast) fun _ _ => trivial
  rw [List.append_nil] at hend
  refine hend.mono fun rest hrest heq => ?_
  have hfollows := hrest q heq
  rcases hq with rfl | rfl <;> exact absurd hfollows (by decide)

theorem between_dot : Between [dot] := between_of (by decide)

theorem between_space : Between [space] := between_of (by decide)

theorem between_alter : Between (ascii "ALTER TABLE ") := between_of (by decide)

theorem spoken_dropTable (h : ∀ x ∈ [ns, o.name], Quotable d (quoteByte kind) x) :
    Spoken d (dropTable (quoter kind) ns o) [ascii "drop", ascii "table"] Follows := by
  have hlead : Between (ascii "DROP TABLE ") := between_of (by decide)
  rw [List.forall_mem_cons, List.forall_mem_singleton] at h
  have hspoken := spoken_written_name [(ns, [dot])] (quoteByte_cases kind) hlead
    (List.forall_mem_singleton.mpr ⟨h.1, between_dot⟩) h.2
  have hshape : dropTable (quoter kind) ns o =
      ascii "DROP TABLE " ++ names (quoteByte kind) [(ns, [dot])] ++ quotedBy (quoteByte kind) o.name := by
    simp [dropTable, quoter, names]
  rwa [← hshape] at hspoken

theorem spoken_dropColumn
    (h : ∀ x ∈ [ns, t.name, c.name], Quotable d (quoteByte kind) x) :
    Spoken d (dropColumn (quoter kind) ns t c) [ascii "alter", ascii "table", ascii "drop", ascii "column"]
      Follows := by
  have hdrop : Between (ascii " DROP COLUMN ") := between_of (by decide)
  rw [List.forall_mem_cons, List.forall_mem_cons, List.forall_mem_singleton] at h
  obtain ⟨hns, ht, hc⟩ := h
  have hspoken := spoken_written_name [(ns, [dot]), (t.name, ascii " DROP COLUMN ")]
    (quoteByte_cases kind) between_alter
    (List.forall_mem_cons.mpr ⟨⟨hns, between_dot⟩, List.forall_mem_singleton.mpr ⟨ht, hdrop⟩⟩) hc
  have hshape : dropColumn (quoter kind) ns t c = ascii "ALTER TABLE " ++
      names (quoteByte kind) [(ns, [dot]), (t.name, ascii " DROP COLUMN ")] ++
        quotedBy (quoteByte kind) c.name := by
    simp [dropColumn, tableRef, quoter, names]
  rwa [← hshape] at hspoken

theorem spoken_dropIndex (h : Quotable d (quoteByte kind) i.name) :
    Spoken d (dropIndex (quoter kind) i) [ascii "drop", ascii "index"] Follows := by
  have hlead : Between (ascii "DROP INDEX ") := between_of (by decide)
  have hspoken := spoken_written_name [] (quoteByte_cases kind) hlead
    (fun p hp => absurd hp List.not_mem_nil) h
  rwa [names, List.flatMap_nil, List.append_nil] at hspoken

theorem spoken_addForeignKey {f : ForeignKeyMeta}
    (h : ∀ x ∈ [ns, t.name, f.column, f.refTable, f.refColumn], Quotable d (quoteByte kind) x) :
    Spoken d (addForeignKey (quoter kind) ns t f) [ascii "alter", ascii "table", ascii "add",
      ascii "foreign", ascii "key", ascii "references"] Follows := by
  have hadd : Between (ascii " ADD FOREIGN KEY (") := between_of (by decide)
  have hrefs : Between (ascii ") REFERENCES ") := between_of (by decide)
  have hopen : Between (ascii " (") := between_of (by decide)
  have hclose : Between (ascii ")") := between_of (by decide)
  simp only [List.forall_mem_cons] at h
  obtain ⟨hns, ht, hc, hr, hrc, -⟩ := h
  have hspoken := (spoken_written d [(ns, [dot]), (t.name, ascii " ADD FOREIGN KEY ("),
    (f.column, ascii ") REFERENCES "), (f.refTable, ascii " ("), (f.refColumn, ascii ")")]
    (quoteByte_cases kind) between_alter (by
      simp only [List.forall_mem_cons]
      exact ⟨⟨hns, between_dot⟩, ⟨ht, hadd⟩, ⟨hc, hrefs⟩, ⟨hr, hopen⟩, ⟨hrc, hclose⟩,
        fun p hp => absurd hp List.not_mem_nil⟩)).1
  have hshape : addForeignKey (quoter kind) ns t f = ascii "ALTER TABLE " ++
      names (quoteByte kind) [(ns, [dot]), (t.name, ascii " ADD FOREIGN KEY ("),
        (f.column, ascii ") REFERENCES "), (f.refTable, ascii " ("), (f.refColumn, ascii ")")] := by
    simp [addForeignKey, tableRef, quoter, names]
  rw [← hshape] at hspoken
  exact hspoken.mono fun _ _ => trivial

/-- The names of a list between brackets. -/
@[grind =] def listed : Bytes → List Bytes → List (Bytes × Bytes)
  | c, [] => [(c, ascii ")")]
  | c, e :: rest => (c, ascii ", ") :: listed e rest

theorem names_listed (c : Bytes) (rest : List Bytes) :
    names (quoteByte kind) (listed c rest) =
      List.intercalate (ascii ", ") ((c :: rest).map (quoter kind)) ++ ascii ")" := by
  induction rest generalizing c with
  | nil => simp [listed, names, quoter, List.intercalate]
  | cons e rest ih =>
    have ih := ih e
    simp only [names, listed, List.flatMap_cons, List.map_cons, List.intercalate] at ih ⊢
    rw [ih]
    simp [quoter, List.intersperse]

theorem listed_words (c : Bytes) (rest : List Bytes) :
    ((listed c rest).flatMap fun p => wordsOf p.2) = [] := by
  induction rest generalizing c with
  | nil => rfl
  | cons e rest ih => exact ih e

theorem mem_listed {c : Bytes} {rest : List Bytes} {p : Bytes × Bytes} (h : p ∈ listed c rest) :
    p.1 ∈ c :: rest ∧ Between p.2 := by
  have hcomma : Between (ascii ", ") := between_of (by decide)
  have hclose : Between (ascii ")") := between_of (by decide)
  induction rest generalizing c with
  | nil =>
    rw [List.mem_singleton.mp h]
    exact ⟨List.mem_cons_self, hclose⟩
  | cons e rest ih =>
    rcases List.mem_cons.mp h with rfl | h
    · exact ⟨List.mem_cons_self, hcomma⟩
    · exact ⟨List.mem_cons_of_mem c (ih h).1, (ih h).2⟩

/-- The words a new index begins with. -/
def indexWords (unique : Bool) : List Bytes :=
  if unique then [ascii "create", ascii "unique", ascii "index", ascii "on"]
  else [ascii "create", ascii "index", ascii "on"]

theorem spoken_createIndex
    (h : ∀ x ∈ i.name :: ns :: t.name :: i.columns, Quotable d (quoteByte kind) x) :
    Spoken d (createIndex (quoter kind) ns t i) (indexWords i.unique) Follows := by
  have hon : Between (ascii " ON ") := between_of (by decide)
  have hopen : Between (ascii " (") := between_of (by decide)
  simp only [List.forall_mem_cons] at h
  obtain ⟨hi, hns, ht, hcols⟩ := h
  obtain ⟨lead, hlead, htext, hwords⟩ : ∃ lead, Between lead ∧
      ascii "CREATE " ++ (if i.unique then ascii "UNIQUE " else []) ++ ascii "INDEX " = lead ∧
        wordsOf lead ++ [ascii "on"] = indexWords i.unique := by
    cases i.unique with
    | true => exact ⟨ascii "CREATE UNIQUE INDEX ", between_of (by decide), by decide,
        by decide⟩
    | false => exact ⟨ascii "CREATE INDEX ", between_of (by decide), by decide,
        by decide⟩
  obtain ⟨hhead, hopens⟩ := spoken_written d [(i.name, ascii " ON "), (ns, [dot]),
    (t.name, ascii " (")] (quoteByte_cases kind) hlead (by
      simp only [List.forall_mem_cons]
      exact ⟨⟨hi, hon⟩, ⟨hns, between_dot⟩, ⟨ht, hopen⟩, fun p hp => absurd hp List.not_mem_nil⟩)
  have htail : Spoken d (List.intercalate (ascii ", ") (i.columns.map (quoter kind)) ++ ascii ")") []
      fun _ => True := by
    cases hc : i.columns with
    | nil => exact spoken_keywords (x := ascii ")") (by decide)
    | cons c rest =>
      rw [hc] at hcols
      have hlist := (spoken_names (d := d) (quoteByte_cases kind)
        (fun p hp => hcols p.1 (mem_listed hp).1) fun p hp => (mem_listed hp).2).1
      rwa [names_listed, listed_words] at hlist
  have hspoken := hhead.append hopens htail fun _ _ => trivial
  have hshape : createIndex (quoter kind) ns t i = lead ++
      names (quoteByte kind) [(i.name, ascii " ON "), (ns, [dot]), (t.name, ascii " (")] ++
        (List.intercalate (ascii ", ") (i.columns.map (quoter kind)) ++ ascii ")") := by
    unfold createIndex
    rw [htext]
    simp [tableRef, quoter, names]
  rw [← hshape, List.append_nil] at hspoken
  rw [← hwords]
  exact hspoken.mono fun _ _ => trivial

/-- The words of a new column. -/
def columnWords (d : Dialect) (c : ColumnMeta) : List Bytes :=
  [ascii "alter", ascii "table", ascii "add", ascii "column"] ++
    (c.typeName.elim [ascii "text"] (liveWords d) ++
      (c.default.elim [] fun t => ascii "default" :: liveWords d t) ++
      (if c.notNull then [ascii "not", ascii "null"] else []))

theorem follows_space (x : Bytes) : Follows (space :: x) := by
  intro c hc
  rw [← Option.some.inj hc]
  decide

theorem startsClear_space (x : Bytes) : StartsClear (space :: x) := by
  intro c hc
  rw [← Option.some.inj hc]
  decide

theorem spoken_type {ty : Option Bytes} (h : ∀ t ∈ ty, Given d t) :
    Spoken d (ty.getD (ascii "text")) (ty.elim [ascii "text"] (liveWords d)) Follows := by
  cases ty with
  | none => exact (spoken_keywords (x := ascii "text") (by decide)).mono fun _ _ => trivial
  | some t => exact spoken_given (h t rfl)

theorem spoken_default {ws : List Bytes} (hx : Spoken d x ws Follows) {default : Option Bytes}
    (h : ∀ t ∈ default, Given d t) :
    Spoken d (x ++ default.elim [] fun t => ascii " DEFAULT " ++ t)
      (ws ++ default.elim [] fun t => ascii "default" :: liveWords d t) Follows := by
  cases default with
  | none =>
    rw [Option.elim_none, Option.elim_none, List.append_nil, List.append_nil]
    exact hx
  | some t =>
    have hbetween : Between (ascii " DEFAULT ") := between_of (by decide)
    have hopens : Opens (x ++ ascii " DEFAULT ") := fun c hc => by
      rw [List.getLast?_append_of_ne_nil _ hbetween.nonempty] at hc
      exact hbetween.opens c hc
    have hkeyword := hx.append_keywords hbetween.keywords
      (startsClear_space _) fun _ => follows_space _
    have hend := hkeyword.append hopens (spoken_given (h t rfl)) fun _ _ => trivial
    rwa [List.append_assoc, List.append_assoc] at hend

theorem spoken_null {ws : List Bytes} (hx : Spoken d x ws Follows) (notNull : Bool) :
    Spoken d (x ++ if notNull then ascii " NOT NULL" else [])
      (ws ++ if notNull then [ascii "not", ascii "null"] else []) Follows := by
  cases notNull with
  | false =>
    rw [if_neg Bool.false_ne_true, if_neg Bool.false_ne_true, List.append_nil, List.append_nil]
    exact hx
  | true =>
    exact (hx.append_keywords (p := ascii " NOT NULL") (by decide) (startsClear_space _)
      fun _ => follows_space _).mono fun _ _ => trivial

theorem spoken_addColumn (h : ∀ x ∈ [ns, t.name, c.name], Quotable d (quoteByte kind) x)
    (hgiven : ∀ x ∈ c.typeName.toList ++ c.default.toList, Given d x) :
    Spoken d (addColumn (quoter kind) ns t c) (columnWords d c) Follows := by
  have hadd : Between (ascii " ADD COLUMN ") := between_of (by decide)
  simp only [List.forall_mem_cons] at h
  obtain ⟨hns, ht, hc, -⟩ := h
  obtain ⟨hhead, hopens⟩ := spoken_written d [(ns, [dot]), (t.name, ascii " ADD COLUMN "),
    (c.name, [space])] (quoteByte_cases kind) between_alter (by
      simp only [List.forall_mem_cons]
      exact ⟨⟨hns, between_dot⟩, ⟨ht, hadd⟩, ⟨hc, between_space⟩, fun p hp => absurd hp List.not_mem_nil⟩)
  have htype : ∀ x ∈ c.typeName, Given d x := fun x hx =>
    hgiven x (List.mem_append_left _ (Option.mem_toList.mpr hx))
  have hdefault : ∀ x ∈ c.default, Given d x := fun x hx =>
    hgiven x (List.mem_append_right _ (Option.mem_toList.mpr hx))
  have hspoken := hhead.append hopens
    (spoken_null (spoken_default (spoken_type htype) hdefault) c.notNull) fun _ _ => trivial
  have hshape : addColumn (quoter kind) ns t c = ascii "ALTER TABLE " ++
      names (quoteByte kind) [(ns, [dot]), (t.name, ascii " ADD COLUMN "), (c.name, [space])] ++
        (c.typeName.getD (ascii "text") ++ (c.default.elim [] fun d => ascii " DEFAULT " ++ d) ++
          (if c.notNull then ascii " NOT NULL" else [])) := by
    simp [addColumn, tableRef, quoter, names]
  rwa [← hshape] at hspoken

end Statements

/-! ## The lines -/

variable {l : Line}

section Lines

variable {kind : DbKind} {ns : Bytes} {scope : ScriptScope} {δ : SchemaDelta} {t : TableDelta}

theorem clean_objectAdded (h : ∀ x ∈ [ns, o.name], OneLine x) :
    (objectAdded ns o).Clean (Dialect.of kind) := by
  rw [List.forall_mem_cons, List.forall_mem_singleton] at h
  have hkind : OneLine o.kind.asStr := by cases o.kind <;> decide
  exact ((((hkind.append (by decide)).append h.1).append (by decide)).append h.2).append
    (by decide)

theorem clean_removed (h : Contained ns scope δ kind) (ho : o ∈ δ.objectsRemoved) :
    (dropLine scope (dropTable (quoter kind) ns o)).Clean (Dialect.of kind) := by
  refine clean_dropLine (fun hscope => ?_) fun hscope => ?_
  · have htexts : ∀ x ∈ [ns, o.name], OneLine x := fun x hx => by
      refine h.comments x (List.mem_append_left _ (List.mem_append_right _ ?_))
      rw [if_pos hscope]
      exact List.mem_flatMap.mpr ⟨o, ho, hx⟩
    rw [List.forall_mem_cons, List.forall_mem_singleton] at htexts
    have hdrop : OneLine (ascii "DROP TABLE ") := by decide
    exact ((hdrop.append (oneLine_quoter htexts.1)).append (by decide)).append (oneLine_quoter htexts.2)
  · refine (spoken_dropTable fun x hx => h.names x (List.mem_append_left _ ?_)).enclosing
      ⟨ascii "DROP TABLE ", by decide, ?_⟩
    · rw [if_pos hscope]
      exact List.mem_flatMap.mpr ⟨o, ho, hx⟩
    · unfold dropTable
      rw [List.append_assoc, List.append_assoc]
      exact List.prefix_append _ _

/-- What is known of one table's texts. -/
structure TableContained (kind : DbKind) (ns : Bytes) (scope : ScriptScope) (t : TableDelta) : Prop where
  comments : ∀ x ∈ tableComments ns scope t, OneLine x
  names : ∀ x ∈ tableNames ns scope t, Quotable (Dialect.of kind) (quoteByte kind) x
  given : ∀ c ∈ t.columnsAdded, ∀ x ∈ c.typeName.toList ++ c.default.toList, Given (Dialect.of kind) x

theorem Contained.table (h : Contained ns scope δ kind) (ht : t ∈ δ.tablesChanged) :
    TableContained kind ns scope t where
  comments x hx := h.comments x (List.mem_append_right _ (List.mem_flatMap.mpr ⟨t, ht, hx⟩))
  names x hx := h.names x (List.mem_append_right _ (List.mem_flatMap.mpr ⟨t, ht, hx⟩))
  given c hc x hx := h.given x (List.mem_flatMap.mpr ⟨t, ht, List.mem_flatMap.mpr ⟨c, hc, hx⟩⟩)

theorem head_alter (x y z : Bytes) :
    ∃ p ∈ statementHeads, p <+: ascii "ALTER TABLE " ++ x ++ y ++ z := by
  refine ⟨_, List.mem_cons_self, ?_⟩
  rw [List.append_assoc, List.append_assoc]
  exact List.prefix_append _ _

theorem TableContained.addColumn (h : TableContained kind ns scope t)
    (hc : c ∈ t.columnsAdded) : Spoken (Dialect.of kind) (addColumn (quoter kind) ns t c)
      (columnWords (Dialect.of kind) c) Follows :=
  spoken_addColumn (fun x hx => h.names x (List.mem_append_left _ (List.mem_append_left _
    (List.mem_append_right _ (List.mem_flatMap.mpr ⟨c, hc, hx⟩))))) (h.given c hc)

theorem TableContained.createIndex (h : TableContained kind ns scope t)
    (hi : i ∈ t.indexesAdded) : Spoken (Dialect.of kind) (createIndex (quoter kind) ns t i)
      (indexWords i.unique) Follows :=
  spoken_createIndex fun x hx => h.names x (List.mem_append_left _ (List.mem_append_right _
    (List.mem_flatMap.mpr ⟨i, hi, hx⟩)))

theorem TableContained.addForeignKey (h : TableContained kind ns scope t) {f : ForeignKeyMeta}
    (hf : f ∈ t.fksAdded) : Spoken (Dialect.of kind) (addForeignKey (quoter kind) ns t f)
      [ascii "alter", ascii "table", ascii "add", ascii "foreign", ascii "key", ascii "references"]
      Follows :=
  spoken_addForeignKey fun x hx => h.names x (List.mem_append_right _ (List.mem_flatMap.mpr ⟨f, hf, hx⟩))

theorem head_addColumn (c : ColumnMeta) :
    ∃ p ∈ statementHeads, p <+: addColumn (quoter kind) ns t c := by
  unfold addColumn
  rw [List.append_assoc, List.append_assoc]
  exact head_alter _ _ _

theorem head_createIndex (i : IndexMeta) :
    ∃ p ∈ statementHeads, p <+: createIndex (quoter kind) ns t i := by
  cases hu : i.unique with
  | true =>
    refine ⟨ascii "CREATE UNIQUE INDEX ", by decide, ?_⟩
    have hlead : ascii "CREATE UNIQUE INDEX " = ascii "CREATE " ++ ascii "UNIQUE " ++ ascii "INDEX " := by
      decide
    rw [createIndex, hu, if_pos rfl, hlead]
    simp only [List.append_assoc, List.prefix_append_right_inj, List.prefix_append]
  | false =>
    refine ⟨ascii "CREATE INDEX ", by decide, ?_⟩
    have hlead : ascii "CREATE INDEX " = ascii "CREATE " ++ ([] ++ ascii "INDEX ") := by decide
    rw [createIndex, hu, if_neg Bool.false_ne_true, hlead]
    simp only [List.append_assoc, List.prefix_append_right_inj, List.prefix_append]

theorem head_addForeignKey (f : ForeignKeyMeta) :
    ∃ p ∈ statementHeads, p <+: addForeignKey (quoter kind) ns t f := by
  unfold addForeignKey
  simp only [List.append_assoc]
  exact ⟨_, List.mem_cons_self, List.prefix_append _ _⟩

theorem clean_removedColumn (h : TableContained kind ns scope t) (hc : c ∈ t.columnsRemoved) :
    (dropLine scope (dropColumn (quoter kind) ns t c)).Clean (Dialect.of kind) := by
  have hmem : ∀ x ∈ [ns, t.name, c.name], x ∈ t.columnsRemoved.flatMap (fun c => [ns, t.name, c.name]) ++
      t.indexesRemoved.map IndexMeta.name := fun x hx =>
    List.mem_append_left _ (List.mem_flatMap.mpr ⟨c, hc, hx⟩)
  refine clean_dropLine (fun hscope => ?_) fun hscope => ?_
  · have htexts : ∀ x ∈ [ns, t.name, c.name], OneLine x := fun x hx =>
      h.comments x (List.mem_append_left _ (by rw [if_pos hscope]; exact hmem x hx))
    rw [List.forall_mem_cons, List.forall_mem_cons, List.forall_mem_singleton] at htexts
    have halter : OneLine (ascii "ALTER TABLE ") := by decide
    exact ((halter.append (oneLine_tableRef htexts.1 htexts.2.1)).append (by decide)).append
      (oneLine_quoter htexts.2.2)
  · refine (spoken_dropColumn fun x hx => h.names x (List.mem_append_left _ (List.mem_append_left _
      (List.mem_append_left _ ?_)))).enclosing (head_alter _ _ _)
    rw [if_pos hscope]
    exact hmem x hx

theorem clean_removedIndex (h : TableContained kind ns scope t) (hi : i ∈ t.indexesRemoved) :
    (dropLine scope (dropIndex (quoter kind) i)).Clean (Dialect.of kind) := by
  have hmem : i.name ∈ t.columnsRemoved.flatMap (fun c => [ns, t.name, c.name]) ++
      t.indexesRemoved.map IndexMeta.name := List.mem_append_right _ (List.mem_map_of_mem hi)
  refine clean_dropLine (fun hscope => ?_) fun hscope => ?_
  · have hname : OneLine i.name :=
      h.comments _ (List.mem_append_left _ (by rw [if_pos hscope]; exact hmem))
    have hdrop : OneLine (ascii "DROP INDEX ") := by decide
    exact hdrop.append (oneLine_quoter hname)
  · refine (spoken_dropIndex (h.names _ (List.mem_append_left _ (List.mem_append_left _
      (List.mem_append_left _ ?_))))).enclosing
        ⟨ascii "DROP INDEX ", by decide, List.prefix_append _ _⟩
    rw [if_pos hscope]
    exact hmem

theorem clean_columnChanged (h : TableContained kind ns scope t) {c : ColumnChange}
    (hc : c ∈ t.columnsChanged) (hl : l ∈ columnChanged (quoter kind) ns t c) :
    l.Clean (Dialect.of kind) := by
  have htexts : ∀ x ∈ c.left.name :: c.summary :: c.right.typeName.elim [] fun ty => [ns, t.name, ty],
      OneLine x := fun x hx =>
    h.comments x (List.mem_append_right _ (List.mem_flatMap.mpr ⟨c, hc, hx⟩))
  rw [List.forall_mem_cons, List.forall_mem_cons] at htexts
  obtain ⟨hname, hsummary, htype⟩ := htexts
  rcases List.mem_cons.mp hl with rfl | hl
  · have hnote : OneLine c.confidence.note := by cases c.confidence <;> decide
    exact ((((hname.append (by decide)).append hsummary).append (by decide)).append
      hnote).append (by decide)
  cases hty : c.right.typeName with
  | none =>
    rw [hty] at hl
    exact absurd hl List.not_mem_nil
  | some ty =>
    rw [hty] at hl htype
    obtain rfl := List.mem_singleton.mp hl
    simp only [Option.elim_some, List.forall_mem_cons] at htype
    obtain ⟨hns, ht, hty, -⟩ := htype
    have halter : OneLine (ascii "ALTER TABLE ") := by decide
    exact ((((((halter.append (oneLine_tableRef hns ht)).append (by decide)).append
      (oneLine_quoter hname)).append (by decide)).append hty).append (by decide))

theorem mem_tableLines : l ∈ tableLines (quoter kind) ns scope t ↔
    (∃ c ∈ t.columnsAdded, .live (addColumn (quoter kind) ns t c) = l) ∨
    (∃ c ∈ t.columnsRemoved, dropLine scope (dropColumn (quoter kind) ns t c) = l) ∨
    (∃ c ∈ t.columnsChanged, l ∈ columnChanged (quoter kind) ns t c) ∨
    (∃ i ∈ t.indexesAdded, .live (createIndex (quoter kind) ns t i) = l) ∨
    (∃ i ∈ t.indexesRemoved, dropLine scope (dropIndex (quoter kind) i) = l) ∨
    ∃ f ∈ t.fksAdded, .live (addForeignKey (quoter kind) ns t f) = l := by
  simp only [tableLines, List.mem_append, List.mem_map, List.mem_flatMap, or_assoc]

theorem clean_tableLines (h : TableContained kind ns scope t)
    (hl : l ∈ tableLines (quoter kind) ns scope t) : l.Clean (Dialect.of kind) := by
  rcases mem_tableLines.mp hl with ⟨c, hc, rfl⟩ | ⟨c, hc, rfl⟩ | ⟨c, hc, hl⟩ | ⟨i, hi, rfl⟩ |
    ⟨i, hi, rfl⟩ | ⟨f, hf, rfl⟩
  · exact (h.addColumn hc).enclosing (head_addColumn c)
  · exact clean_removedColumn h hc
  · exact clean_columnChanged h hc hl
  · exact (h.createIndex hi).enclosing (head_createIndex i)
  · exact clean_removedIndex h hi
  · exact (h.addForeignKey hf).enclosing (head_addForeignKey f)

theorem clean_headerLines {crossEngine : Bool} (hl : l ∈ headerLines crossEngine) :
    l.Clean (Dialect.of kind) := by
  simp only [headerLines, List.mem_append, List.mem_cons, List.not_mem_nil, or_false,
    List.mem_ite_nil_right] at hl
  rcases hl with ((rfl | rfl) | ⟨-, rfl | rfl⟩) | rfl
  · show OneLine _
    decide
  · show OneLine _
    decide
  · show OneLine _
    decide
  · show OneLine _
    decide
  · trivial

theorem mem_toSqlLines : l ∈ δ.toSqlLines (quoter kind) ns scope ↔ l ∈ headerLines δ.crossEngine ∨
    (∃ o ∈ δ.objectsAdded, objectAdded ns o = l) ∨
    (∃ o ∈ δ.objectsRemoved, dropLine scope (dropTable (quoter kind) ns o) = l) ∨
    (l = .blank ∧ ¬(δ.objectsAdded.isEmpty && δ.objectsRemoved.isEmpty) = true) ∨
    ∃ t ∈ δ.tablesChanged, l ∈ tableLines (quoter kind) ns scope t := by
  unfold SchemaDelta.toSqlLines
  simp only [List.mem_append, List.mem_map, List.mem_flatMap, or_assoc, List.mem_ite_nil_left,
    List.mem_singleton, and_comm]

/-- Where every text stays in its place, every line is one. -/
theorem clean_lines (h : Contained ns scope δ kind) :
    ∀ l ∈ δ.toSqlLines (quoter kind) ns scope, l.Clean (Dialect.of kind) := by
  intro l hl
  rcases mem_toSqlLines.mp hl with hl | ⟨o, ho, rfl⟩ | ⟨o, ho, rfl⟩ | ⟨rfl, -⟩ | ⟨t, ht, hl⟩
  · exact clean_headerLines hl
  · exact clean_objectAdded fun x hx => h.comments x (List.mem_append_left _ (List.mem_append_left _
      (List.mem_flatMap.mpr ⟨o, ho, hx⟩)))
  · exact clean_removed h ho
  · trivial
  · exact clean_tableLines (h.table ht) hl

end Lines

/-! ## The additive script -/

/-- The words of what drops, and of what changes a type. -/
def destructiveWords : List Bytes := [ascii "drop", ascii "alter", ascii "modify", ascii "change"]

/-- Whether the words begin a `CREATE TABLE`, a `CREATE INDEX` or an `ALTER TABLE … ADD`. -/
def addsHead : List Bytes → Bool
  | verb :: object :: rest =>
    verb == ascii "create" && (object == ascii "table" || object == ascii "index" ||
      (object == ascii "unique" && rest.head? == some (ascii "index"))) ||
    verb == ascii "alter" && object == ascii "table" && rest.head? == some (ascii "add")
  | _ => false

/-- The statement is comments only, or one that adds; outside comments nothing drops or changes. -/
def Adds (d : Dialect) (s : Bytes) : Prop :=
  (∃ rs, Remarks d rs ∧ s = trim (scriptText rs)) ∨
    addsHead (liveWords d s) = true ∧ ∀ w ∈ (liveWords d s).tail, w ∉ destructiveWords

/-- No added column brings a destructive word of its own. -/
def Tame (d : Dialect) (δ : SchemaDelta) : Prop :=
  ∀ x ∈ givenTexts δ, ∀ w ∈ liveWords d x, w ∉ destructiveWords

instance (d : Dialect) (δ : SchemaDelta) : Decidable (Tame d δ) :=
  inferInstanceAs (Decidable (∀ x ∈ givenTexts δ, ∀ w ∈ liveWords d x, w ∉ destructiveWords))

section Additive

variable {kind : DbKind} {ns : Bytes} {δ : SchemaDelta} {t : TableDelta}

theorem adds_addColumn {d : Dialect}
    (h : ∀ x ∈ c.typeName.toList ++ c.default.toList, ∀ w ∈ liveWords d x, w ∉ destructiveWords) :
    addsHead (columnWords d c) = true ∧ ∀ w ∈ (columnWords d c).tail, w ∉ destructiveWords := by
  have hkeywords : ∀ w ∈ [ascii "table", ascii "add", ascii "column", ascii "text", ascii "default",
      ascii "not", ascii "null"], w ∉ destructiveWords := by decide
  simp only [List.forall_mem_cons] at hkeywords
  obtain ⟨htable, hadd, hcolumn, htext, hdefault, hnot, hnull, -⟩ := hkeywords
  have htype : ∀ w ∈ c.typeName.elim [ascii "text"] (liveWords d), w ∉ destructiveWords := by
    cases hty : c.typeName with
    | none => exact List.forall_mem_singleton.mpr htext
    | some ty => exact h ty (by rw [hty]; exact List.mem_append_left _ (List.mem_singleton_self ty))
  have hvalue : ∀ w ∈ (c.default.elim [] fun t => ascii "default" :: liveWords d t),
      w ∉ destructiveWords := by
    cases hd : c.default with
    | none => exact fun w hw => absurd hw List.not_mem_nil
    | some t =>
      refine List.forall_mem_cons.mpr ⟨hdefault, ?_⟩
      exact h t (by rw [hd]; exact List.mem_append_right _ (List.mem_singleton_self t))
  have hnullWords : ∀ w ∈ (if c.notNull then [ascii "not", ascii "null"] else []),
      w ∉ destructiveWords := by
    cases c.notNull with
    | true => exact List.forall_mem_cons.mpr ⟨hnot, List.forall_mem_singleton.mpr hnull⟩
    | false => exact fun w hw => absurd hw List.not_mem_nil
  refine ⟨rfl, ?_⟩
  simp only [columnWords, List.cons_append, List.nil_append, List.tail_cons, List.forall_mem_cons]
  exact ⟨htable, hadd, hcolumn, List.forall_mem_append.mpr
    ⟨List.forall_mem_append.mpr ⟨htype, hvalue⟩, hnullWords⟩⟩

theorem adds_createIndex (unique : Bool) :
    addsHead (indexWords unique) = true ∧ ∀ w ∈ (indexWords unique).tail, w ∉ destructiveWords := by
  cases unique <;> exact ⟨by decide, by decide⟩

/-- What is live in an additive script adds. -/
theorem live_adds (h : Contained ns .additive δ kind) (htame : Tame (Dialect.of kind) δ)
    (hx : .live x ∈ δ.toSqlLines (quoter kind) ns .additive) :
    addsHead (liveWords (Dialect.of kind) x) = true ∧
      ∀ w ∈ (liveWords (Dialect.of kind) x).tail, w ∉ destructiveWords := by
  rcases mem_toSqlLines.mp hx with hx | ⟨o, -, ho⟩ | ⟨o, -, ho⟩ | ⟨hblank, -⟩ | ⟨t, ht, hx⟩
  · simp [headerLines] at hx
  · cases ho
  · cases ho
  · cases hblank
  · have htable := h.table ht
    rcases mem_tableLines.mp hx with ⟨c, hc, heq⟩ | ⟨c, -, heq⟩ | ⟨c, -, hl⟩ | ⟨i, hi, heq⟩ |
      ⟨i, -, heq⟩ | ⟨f, hf, heq⟩
    · rw [← Line.live.inj heq, (htable.addColumn hc).live]
      exact adds_addColumn fun x hx => htame x
        (List.mem_flatMap.mpr ⟨t, ht, List.mem_flatMap.mpr ⟨c, hc, hx⟩⟩)
    · cases heq
    · cases hty : c.right.typeName <;> simp [columnChanged, hty] at hl
    · rw [← Line.live.inj heq, (htable.createIndex hi).live]
      exact adds_createIndex i.unique
    · cases heq
    · rw [← Line.live.inj heq, (htable.addForeignKey hf).live]
      exact ⟨by decide, by decide⟩

/-- **An additive script adds**: each statement the splitter finds in it is comments, or a statement
that adds and in which nothing drops or changes, where no text leaves its place and no type or
default brings such a word. -/
theorem additive_adds (h : Contained ns .additive δ kind) (htame : Tame (Dialect.of kind) δ) :
    ∀ s ∈ splitStatements (δ.toSql (quoter kind) ns .additive) (Dialect.of kind),
      Adds (Dialect.of kind) s := by
  intro s hs
  have hclean := clean_lines h
  obtain ⟨rs, hrs, rfl | ⟨x, hx, rfl⟩⟩ := mem_splitStatements_script hclean hs
  · exact Or.inl ⟨rs, hrs, rfl⟩
  · refine Or.inr ?_
    rw [liveWords_behind hrs (hclean _ hx)]
    exact live_adds h htame hx

/-- A table of which a column is added and an index dropped, and a table that is dropped. -/
def sampleDelta : SchemaDelta where
  objectsAdded := []
  objectsRemoved := [⟨ascii "old\"x", .table⟩]
  tablesChanged := [{
    name := ascii "t"
    columnsAdded := [⟨ascii "c", some (ascii "int"), true, false, some (ascii "'a;b'"), false⟩]
    columnsRemoved := []
    columnsChanged := []
    indexesAdded := []
    indexesRemoved := [⟨ascii "i", false, [ascii "a"]⟩]
    fksAdded := []
    fksRemoved := [] }]
  crossEngine := false

theorem sampleDelta_contained (scope : ScriptScope) :
    Contained (ascii "public") scope sampleDelta .postgres where
  comments := by cases scope <;> decide
  names := by cases scope <;> decide
  given x hx := by
    have hmem : x ∈ [ascii "int", ascii "'a;b'"] := hx
    rcases List.mem_cons.mp hmem with rfl | hmem
    · exact ⟨by decide, noExecutable_of_no_slash (by decide), by decide⟩
    · rw [List.mem_singleton.mp hmem]
      exact ⟨by decide, noExecutable_of_no_slash (by decide), by decide⟩

theorem additive_adds_sample :
    (splitStatements (sampleDelta.toSql (quoter .postgres) (ascii "public") .additive) .postgres).length = 2 ∧
      ∀ s ∈ splitStatements (sampleDelta.toSql (quoter .postgres) (ascii "public") .additive) .postgres,
        Adds .postgres s :=
  ⟨by decide +kernel, additive_adds (sampleDelta_contained .additive) (by decide)⟩

/-- A table whose name goes on in a second line. -/
def brokenName : SchemaDelta where
  objectsAdded := []
  objectsRemoved := [⟨ascii "x\nDROP TABLE y;--", .table⟩]
  tablesChanged := []
  crossEngine := false

/-- The second line of a name is a statement of the additive script. -/
theorem brokenName_drops :
    ¬ ∀ s ∈ splitStatements (brokenName.toSql (quoter .postgres) (ascii "public") .additive) .postgres,
      Adds .postgres s := by
  intro hadds
  have hwords : [ascii "drop", ascii "table", ascii "y"] ∈ (splitStatements
      (brokenName.toSql (quoter .postgres) (ascii "public") .additive) .postgres).map
        (liveWords .postgres) := by decide +kernel
  obtain ⟨s, hs, hlive⟩ := List.mem_map.mp hwords
  rcases hadds s hs with ⟨rs, hrs, rfl⟩ | ⟨hhead, -⟩
  · rw [liveWords_remarks hrs] at hlive
    cases hlive
  · rw [hlive] at hhead
    exact absurd hhead (by decide)

end Additive

/-! ## The full script -/

/-- The splitter finds the statement, behind comments. -/
def Stated (d : Dialect) (script x : Bytes) : Prop :=
  ∃ rs, Remarks d rs ∧ trim (scriptText rs ++ x) ∈ splitStatements script d

/-- A comment of the script names what it has no statement for. -/
def Noted (script t : Bytes) : Prop := ∃ pre post, script = pre ++ (Line.remark t).text ++ post

/-- What a full script says of a delta: a removed table, a column or an index that comes or goes and
a new foreign key have a statement, an object that exists only on the right and a changed column
have a comment. -/
structure States (kind : DbKind) (ns : Bytes) (δ : SchemaDelta) (script : Bytes) : Prop where
  added : ∀ o ∈ δ.objectsAdded, ∃ t, objectAdded ns o = .remark t ∧ Noted script t
  removed : ∀ o ∈ δ.objectsRemoved, o.kind = .table →
    Stated (Dialect.of kind) script (dropTable (quoter kind) ns o)
  columnsAdded : ∀ t ∈ δ.tablesChanged, ∀ c ∈ t.columnsAdded,
    Stated (Dialect.of kind) script (addColumn (quoter kind) ns t c)
  columnsRemoved : ∀ t ∈ δ.tablesChanged, ∀ c ∈ t.columnsRemoved,
    Stated (Dialect.of kind) script (dropColumn (quoter kind) ns t c)
  columnsChanged : ∀ t ∈ δ.tablesChanged, ∀ c ∈ t.columnsChanged, Noted script (changeRemark c)
  indexesAdded : ∀ t ∈ δ.tablesChanged, ∀ i ∈ t.indexesAdded,
    Stated (Dialect.of kind) script (createIndex (quoter kind) ns t i)
  indexesRemoved : ∀ t ∈ δ.tablesChanged, ∀ i ∈ t.indexesRemoved,
    Stated (Dialect.of kind) script (dropIndex (quoter kind) i)
  fksAdded : ∀ t ∈ δ.tablesChanged, ∀ f ∈ t.fksAdded,
    Stated (Dialect.of kind) script (addForeignKey (quoter kind) ns t f)

section Full

variable {kind : DbKind} {ns : Bytes} {δ : SchemaDelta}

theorem noted_of_mem {ls : List Line} {t : Bytes} (h : Line.remark t ∈ ls) : Noted (scriptText ls) t := by
  obtain ⟨pre, post, rfl⟩ := List.append_of_mem h
  refine ⟨scriptText pre, scriptText post, ?_⟩
  simp [scriptText]

theorem stated_of_mem (h : Contained ns .includeDrops δ kind)
    (hx : .live x ∈ δ.toSqlLines (quoter kind) ns .includeDrops) :
    Stated (Dialect.of kind) (δ.toSql (quoter kind) ns .includeDrops) x :=
  live_mem_splitStatements (clean_lines h) hx

theorem table_mem {scope : ScriptScope} (ht : t ∈ δ.tablesChanged)
    (hl : l ∈ tableLines (quoter kind) ns scope t) : l ∈ δ.toSqlLines (quoter kind) ns scope :=
  mem_toSqlLines.mpr (Or.inr (Or.inr (Or.inr (Or.inr ⟨t, ht, hl⟩))))

theorem states_full (h : Contained ns .includeDrops δ kind) :
    States kind ns δ (δ.toSql (quoter kind) ns .includeDrops) where
  added o ho := ⟨_, rfl, noted_of_mem (mem_toSqlLines.mpr (Or.inr (Or.inl ⟨o, ho, rfl⟩)))⟩
  removed o ho _ := stated_of_mem h (mem_toSqlLines.mpr (Or.inr (Or.inr (Or.inl ⟨o, ho, rfl⟩))))
  columnsAdded _ ht c hc := stated_of_mem h (table_mem ht (mem_tableLines.mpr (Or.inl ⟨c, hc, rfl⟩)))
  columnsRemoved _ ht c hc :=
    stated_of_mem h (table_mem ht (mem_tableLines.mpr (Or.inr (Or.inl ⟨c, hc, rfl⟩))))
  columnsChanged _ ht c hc := noted_of_mem (table_mem ht
    (mem_tableLines.mpr (Or.inr (Or.inr (Or.inl ⟨c, hc, List.mem_cons_self⟩)))))
  indexesAdded _ ht i hi := stated_of_mem h (table_mem ht
    (mem_tableLines.mpr (Or.inr (Or.inr (Or.inr (Or.inl ⟨i, hi, rfl⟩))))))
  indexesRemoved _ ht i hi := stated_of_mem h (table_mem ht
    (mem_tableLines.mpr (Or.inr (Or.inr (Or.inr (Or.inr (Or.inl ⟨i, hi, rfl⟩)))))))
  fksAdded _ ht f hf := stated_of_mem h (table_mem ht
    (mem_tableLines.mpr (Or.inr (Or.inr (Or.inr (Or.inr (Or.inr ⟨f, hf, rfl⟩)))))))

/-- A schema with nothing in it. -/
def emptySchema : SchemaSnapshot where
  engine := .postgres
  objects := []
  details _ := none
  relations_nodup := List.nodup_nil
  details_relation _ h := by cases h

/-- What a table that exists only on the right leads to. -/
def addedTable : SchemaDelta := ⟨[⟨ascii "t", .table⟩], [], [], false⟩

theorem compare_emptySchema : compare emptySchema (oneRelation .table rfl [] false) = addedTable := by
  unfold compare addedTable
  rw [show emptySchema.objects = [] from rfl, List.filter_nil, List.filterMap_nil, sortBy, List.mergeSort_nil]
  rfl

end Full

end RedDb.Schema
