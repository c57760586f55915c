import RedDb.Driver.Dsn
import RedDb.Driver.JoinWrap
import RedDb.Lib.Machine
import RedDb.Schema.Compare

/-!
# RedDb — the ids offered for a foreign-key cell

An editor that opens on a foreign-key cell asks for the values of the referenced column and hangs
them off the field. The list is fetched once per referenced table and kept on the connection, and
a reply is matched to the open picker by its epoch and its table. Which column was asked for is
part of neither key.

* `suggest_step` — what a move leaves in the cache, under way and in the pickers;
* `suggestions_iff` — every id offered is one of the referenced column just where no two foreign
  keys into one table ask for columns with different values;
* `names_offered_as_ids` — two keys into `people`, by number and by name.
-/

namespace RedDb.Grid

open ByteText
open RedDb.Driver (FkEdge TableRef Value leads)

/-! ## What is fetched and shown -/

def lookupLimit : Nat := 500

def fkEnumCacheCap : Nat := 256

structure LookupRow where
  id : Value
  label : Option Value

/-- The referenced `(schema, table)`; the schema may be empty. -/
abbrev LookupKey := Bytes × Bytes

/-- The table behind a key: an empty schema is none. -/
def tableRef (key : LookupKey) : TableRef := ⟨if key.1.isEmpty then none else some key.1, key.2⟩

def lookupKey (t : TableRef) : LookupKey := (t.schema.getD [], t.name)

theorem lookupKey_tableRef (key : LookupKey) : lookupKey (tableRef key) = key := by
  obtain ⟨schema, name⟩ := key
  unfold lookupKey tableRef
  cases schema <;> rfl

structure LookupSpec where
  target : LookupKey
  idColumn : Bytes
  labelColumn : Option Bytes

/-- `Command::FetchLookup`. -/
structure FetchLookup where
  epoch : Nat
  target : TableRef
  idColumn : Bytes
  labelColumn : Option Bytes
  limit : Nat

inductive LookupEvent where
  | ready (epoch : Nat) (target : TableRef) (rows : List LookupRow)
  | failed (epoch : Nat) (target : TableRef)

structure CellSuggest where
  epoch : Nat
  target : LookupKey
  items : List LookupRow
  filtered : List Nat
  selected : Option Nat
  query : Bytes
  loading : Bool
  /-- A picker over the values of an enum is not fed by lookups. -/
  fromLookup : Bool

/-- `Display` of a value. -/
def valueText (realText : UInt64 → Bytes) : Value → Bytes
  | .null => ascii "NULL"
  | .integer n => ascii (toString n)
  | .real x => realText x
  | .text s => s
  | .blob b => ascii "<" ++ decimal b.length ++ ascii " bytes>"
  | .capped c =>
    if c.blob then ascii "<" ++ decimal c.len ++ ascii " bytes>" else c.head ++ [0xE2, 0x80, 0xA6]

/-- `"<id> — <label>"`, or the id alone. -/
def display (realText : UInt64 → Bytes) (row : LookupRow) : Bytes :=
  match row.label with
  | none | some .null => valueText realText row.id
  | some l => valueText realText row.id ++ [0x20, 0xE2, 0x80, 0x94, 0x20] ++ valueText realText l

namespace CellSuggest

/-- Filter for what is typed; the first match is highlighted. -/
def recompute (realText : UInt64 → Bytes) (s : CellSuggest) (query : Bytes) : CellSuggest :=
  let q := asciiLower (trim query)
  let filtered := (s.items.zipIdx.filter fun (r, _) =>
    q.isEmpty || RedDb.Driver.Dsn.contains (asciiLower (display realText r)) q).map Prod.snd
  { s with query, filtered, selected := if filtered.isEmpty then none else some 0 }

/-- The rows of the list, as they are shown. -/
def offered (s : CellSuggest) : List LookupRow := s.filtered.filterMap fun i => s.items[i]?

def highlighted (s : CellSuggest) : Option LookupRow :=
  s.selected.bind fun pos => s.filtered[pos]?.bind fun i => s.items[i]?

/-- `suggest_move`: the highlight wraps; from none, down lands on the first row and up on the last. -/
def move (s : CellSuggest) (delta : Int) : CellSuggest :=
  let n := s.filtered.length
  if n = 0 then s
  else
    let next := match s.selected with
      | none => if 0 ≤ delta then 0 else n - 1
      | some c => ((c + delta) % n).toNat
    { s with selected := some next }

theorem filterMap_getElem?_range {α : Type*} (l : List α) :
    (List.range l.length).filterMap (fun i => l[i]?) = l := by
  induction l with
  | nil => rfl
  | cons a l ih =>
    rw [List.length_cons, List.range_succ_eq_map, List.filterMap_cons, List.filterMap_map]
    exact congrArg (a :: ·) ih

theorem offered_subset (s : CellSuggest) : s.offered ⊆ s.items := by
  intro r hr
  obtain ⟨i, -, hi⟩ := List.mem_filterMap.mp hr
  exact List.mem_of_getElem? hi

variable (realText : UInt64 → Bytes) (s : CellSuggest) (query : Bytes) (delta : Int)

@[simp] theorem recompute_items : (s.recompute realText query).items = s.items := rfl

/-- With nothing typed all of the list is shown. -/
theorem offered_recompute_nil : (s.recompute realText []).offered = s.items := by
  have hall : (s.recompute realText []).filtered = List.range s.items.length := by
    unfold recompute
    dsimp only
    have hempty : (asciiLower (trim [])).isEmpty = true := rfl
    simp only [hempty, Bool.true_or, List.filter_true]
    rw [List.zipIdx_map_snd, List.range_eq_range']
  unfold offered
  rw [hall, recompute_items]
  exact filterMap_getElem?_range s.items

@[simp] theorem move_items : (s.move delta).items = s.items := by
  unfold move
  dsimp only
  split <;> rfl

@[simp] theorem move_target : (s.move delta).target = s.target := by
  unfold move
  dsimp only
  split <;> rfl

end CellSuggest

/-! ## Labels -/

def preferredLabels : List Bytes :=
  ["name", "title", "label", "display_name", "full_name", "username", "email", "description",
    "slug", "code"].map ascii

def isTexty (t : Bytes) : Bool :=
  (["char", "text", "string", "clob", "citext"].map ascii).any fun k => RedDb.Driver.Dsn.contains (asciiLower t) k

/-- A well-known name first, else the first text column that is neither the id nor a key. -/
def pickLabelColumn (columns : List Schema.ColumnMeta) (idColumn : Bytes) : Option Bytes :=
  let preferred := preferredLabels.findSome? fun pref =>
    columns.find? fun c => eqIgnoreAsciiCase c.name pref && !eqIgnoreAsciiCase c.name idColumn
  let texty := columns.find? fun c =>
    !eqIgnoreAsciiCase c.name idColumn && !c.primaryKey && c.typeName.any isTexty
  (preferred.or texty).map Schema.ColumnMeta.name

/-! ## The parties -/

/-- The cell an editor is open on: the epoch and base table of its result, and the column. -/
structure EditedCell where
  epoch : Nat
  table : Option LookupKey
  columns : List Bytes
  dataCol : Nat

/-- The inline editor of one grid, with its picker. -/
structure CellEditor where
  cell : Option EditedCell
  suggest : Option CellSuggest

/-- One connection: what is cached and known of its tables, its grids, and the two channels between
them and the service. -/
structure Suggesting where
  lookupCache : List (LookupKey × List LookupRow)
  details : List (LookupKey × List Schema.ColumnMeta)
  editors : Nat → CellEditor
  active : Nat
  commands : List FetchLookup
  events : List LookupEvent

/-- A foreign-key graph, and the database: which values a column of a table ever has. -/
structure Catalog where
  fkGraph : List FkEdge
  holds : TableRef → Bytes → Value → Bool

namespace Catalog

variable (C : Catalog) (realText : UInt64 → Bytes)

/-- The table and the column that the cell's foreign key references. -/
def reference (cell : EditedCell) : Option (LookupKey × Bytes) := do
  let (schema, table) ← cell.table
  let cname ← cell.columns[cell.dataCol]?
  let edge ← C.fkGraph.find? (leads (some schema) table cname)
  let pair ← edge.columns.head?
  pure ((edge.toSchema.getD schema, edge.toTable), pair.2)

def fkLookupSpec (details : List (LookupKey × List Schema.ColumnMeta)) (cell : EditedCell) :
    Option LookupSpec :=
  (C.reference cell).map fun (target, idColumn) =>
    ⟨target, idColumn, (details.lookup target).bind fun columns => pickLabelColumn columns idColumn⟩

def requestLookup (spec : LookupSpec) (epoch : Nat) : FetchLookup :=
  ⟨epoch, tableRef spec.target, spec.idColumn, spec.labelColumn, lookupLimit⟩

/-- `with_grid`, on the editor of the grid in front. -/
def withEditor (s : Suggesting) (f : CellEditor → CellEditor) : Suggesting :=
  { s with editors := Function.update s.editors s.active (f (s.editors s.active)) }

/-- `open_cell_suggest`. `enums` are the allowed values of an enum column, where they are loaded. -/
def openCellSuggest (s : Suggesting) (cell : EditedCell) (seed : Bytes) (enums : Option (List Bytes)) :
    Suggesting :=
  match C.fkLookupSpec s.details cell with
  | some spec =>
    let cached := s.lookupCache.lookup spec.target
    let suggest : CellSuggest :=
      { epoch := cell.epoch, target := spec.target, items := cached.getD [], filtered := [],
        selected := none, query := [], loading := cached.isNone, fromLookup := true }
    let s' := withEditor s fun _ => ⟨some cell, some (suggest.recompute realText seed)⟩
    if cached.isNone then { s' with commands := s.commands ++ [requestLookup spec cell.epoch] } else s'
  | none =>
    match enums with
    | some values =>
      let suggest : CellSuggest :=
        { epoch := cell.epoch, target := ([], []), items := values.map fun v => ⟨.text v, none⟩,
          filtered := [], selected := none, query := [], loading := false, fromLookup := false }
      withEditor s fun _ => ⟨some cell, some (suggest.recompute realText seed)⟩
    | none => withEditor s fun _ => ⟨some cell, none⟩

/-- A full cache loses one of its entries, whichever, to make room. -/
def remember (cache : List (LookupKey × List LookupRow)) (victim key : LookupKey)
    (rows : List LookupRow) : List (LookupKey × List LookupRow) :=
  let kept :=
    if fkEnumCacheCap ≤ cache.length && (cache.lookup key).isNone then
      cache.filter fun e => e.1 != victim
    else cache
  (key, rows) :: kept.filter fun e => e.1 != key

def onLookupReady (s : Suggesting) (victim : LookupKey) (epoch : Nat) (target : TableRef)
    (rows : List LookupRow) : Suggesting :=
  let key := lookupKey target
  withEditor { s with lookupCache := remember s.lookupCache victim key rows } fun e =>
    { e with suggest := e.suggest.map fun p =>
        if p.fromLookup && p.epoch == epoch && p.target == key then
          { p with items := rows, loading := false }.recompute realText p.query
        else p }

def onLookupFailed (s : Suggesting) (epoch : Nat) (target : TableRef) : Suggesting :=
  withEditor s fun e =>
    { e with suggest := e.suggest.map fun p =>
        if p.epoch == epoch && p.target == lookupKey target then { p with loading := false } else p }

/-- A move of one of the parties. -/
inductive SuggestMove where
  | openCell (cell : EditedCell) (seed : Bytes) (enums : Option (List Bytes))
  | change (text : Bytes)
  | highlight (delta : Int)
  | accept (pos : Nat)
  | close
  /-- Another grid comes to the front. -/
  | focus (grid : Nat)
  | describe (table : LookupKey) (columns : List Schema.ColumnMeta)
  /-- The service answers one of the lookups under way. -/
  | fetched (i : Nat) (rows : List LookupRow)
  | fetchFailed (i : Nat)
  /-- A lookup that was superseded is not answered. -/
  | superseded (i : Nat)
  /-- The next event is handled. -/
  | deliver (victim : LookupKey)

/-- `fetch_lookup` answers with values of the column it was asked for, up to its limit. -/
def answers (c : FetchLookup) (rows : List LookupRow) : Bool :=
  rows.length ≤ c.limit && rows.all fun r => C.holds c.target c.idColumn r.id

def step (s : Suggesting) : SuggestMove → Option Suggesting
  | .openCell cell seed enums => some (C.openCellSuggest realText s cell seed enums)
  | .change text => some (withEditor s fun e =>
      { e with suggest := e.suggest.map fun p => p.recompute realText text })
  | .highlight delta => some (withEditor s fun e =>
      { e with suggest := e.suggest.map fun p => p.move delta })
  | .accept pos => some (withEditor s fun e =>
      { e with suggest := e.suggest.map fun p => { p with selected := some pos } })
  | .close => some (withEditor s fun e => { e with suggest := none })
  | .focus grid => some { s with active := grid }
  | .describe table columns => some { s with details := (table, columns) :: s.details }
  | .fetched i rows =>
    match s.commands[i]? with
    | some c =>
      if C.answers c rows then
        some { s with
          commands := s.commands.eraseIdx i
          events := s.events ++ [.ready c.epoch c.target rows] }
      else none
    | none => none
  | .fetchFailed i =>
    s.commands[i]?.map fun c => { s with
      commands := s.commands.eraseIdx i
      events := s.events ++ [.failed c.epoch c.target] }
  | .superseded i => s.commands[i]?.map fun _ => { s with commands := s.commands.eraseIdx i }
  | .deliver victim =>
    match s.events with
    | .ready epoch target rows :: rest =>
      some (onLookupReady realText { s with events := rest } victim epoch target rows)
    | .failed epoch target :: rest => some (onLookupFailed { s with events := rest } epoch target)
    | [] => none

/-- A connection on which nothing was edited yet. -/
def connected : Suggesting where
  lookupCache := []
  details := []
  editors := fun _ => ⟨none, none⟩
  active := 0
  commands := []
  events := []

/-! ## What is promised -/

/-- Every id that is offered for a foreign-key cell is a value of the column its key references. -/
def Sound (s : Suggesting) : Prop :=
  ∀ grid cell suggest target idColumn,
    (s.editors grid).cell = some cell → (s.editors grid).suggest = some suggest →
    C.reference cell = some (target, idColumn) →
    ∀ r ∈ suggest.offered, C.holds (tableRef target) idColumn r.id = true

/-- Foreign keys into one table ask for columns with the same values. -/
def OneColumn : Prop :=
  ∀ cell cell' target idColumn idColumn',
    C.reference cell = some (target, idColumn) → C.reference cell' = some (target, idColumn') →
    ∀ v, C.holds (tableRef target) idColumn v = true → C.holds (tableRef target) idColumn' v = true

/-! ## One move -/

/-- The rows are values of every column that is asked for in the table. -/
def Vouched (key : LookupKey) (rows : List LookupRow) : Prop :=
  ∀ cell idColumn, C.reference cell = some (key, idColumn) →
    ∀ r ∈ rows, C.holds (tableRef key) idColumn r.id = true

/-- What the picker of a cell holds is vouched for; over a foreign-key cell it is fed by lookups. -/
def PickerVouched (e : CellEditor) : Prop :=
  ∀ cell suggest target idColumn, e.cell = some cell → e.suggest = some suggest →
    C.reference cell = some (target, idColumn) →
    suggest.target = target ∧ C.Vouched suggest.target suggest.items

/-- Every list there is, or that may still come, is vouched for. -/
structure AllVouched (s : Suggesting) : Prop where
  cache : ∀ e ∈ s.lookupCache, C.Vouched e.1 e.2
  commands : ∀ c ∈ s.commands, ∀ rows, C.answers c rows = true → C.Vouched (lookupKey c.target) rows
  events : ∀ epoch target rows, .ready epoch target rows ∈ s.events → C.Vouched (lookupKey target) rows
  pickers : ∀ grid, C.PickerVouched (s.editors grid)

variable {C realText}

theorem vouched_nil (key : LookupKey) : C.Vouched key [] :=
  fun _ _ _ _ hr => absurd hr List.not_mem_nil

theorem sound_of_allVouched {s : Suggesting} (h : C.AllVouched s) : C.Sound s := by
  intro grid cell suggest target idColumn hcell hsuggest href r hr
  obtain ⟨rfl, hv⟩ := h.pickers grid cell suggest target idColumn hcell hsuggest href
  exact hv cell idColumn href r (suggest.offered_subset hr)

/-- A change of one picker alone. -/
theorem pickers_update {editors : Nat → CellEditor} {active : Nat} {e : CellEditor}
    (h : ∀ grid, C.PickerVouched (editors grid)) (he : C.PickerVouched e) (grid : Nat) :
    C.PickerVouched (Function.update editors active e grid) := by
  by_cases hg : grid = active
  · rw [hg, Function.update_self]
    exact he
  · rw [Function.update_of_ne hg]
    exact h grid

/-- A picker changed in what it shows, but not in what it holds. -/
theorem pickerVouched_map {e : CellEditor} {f : CellSuggest → CellSuggest} (h : C.PickerVouched e)
    (htarget : ∀ p, (f p).target = p.target) (hitems : ∀ p, (f p).items = p.items) :
    C.PickerVouched { e with suggest := e.suggest.map f } := by
  intro cell suggest target idColumn hcell hsuggest href
  obtain ⟨p, hp, rfl⟩ := Option.map_eq_some_iff.mp hsuggest
  rw [htarget, hitems]
  exact h cell p target idColumn hcell hp href

/-- The rows that answer a lookup for a foreign key are values of every column asked for there. -/
theorem answers_vouched (hone : C.OneColumn) {cell : EditedCell} {spec : LookupSpec}
    {details : List (LookupKey × List Schema.ColumnMeta)}
    (hspec : C.fkLookupSpec details cell = some spec)
    {epoch : Nat} {rows : List LookupRow} (hrows : C.answers (requestLookup spec epoch) rows = true) :
    C.Vouched spec.target rows := by
  obtain ⟨⟨target, idColumn⟩, href, rfl⟩ := Option.map_eq_some_iff.mp hspec
  intro cell' idColumn' href' r hr
  have hall := (Bool.and_eq_true _ _ ▸ hrows).2
  exact hone cell cell' target idColumn idColumn' href href' r.id (List.all_eq_true.mp hall r hr)

theorem openCellSuggest_allVouched (hone : C.OneColumn) {s : Suggesting} (h : C.AllVouched s)
    (cell : EditedCell) (seed : Bytes) (enums : Option (List Bytes)) :
    C.AllVouched (C.openCellSuggest realText s cell seed enums) := by
  -- A cell that is no foreign key is offered nothing the promise speaks of.
  have hother (href : C.fkLookupSpec s.details cell = none) (suggest : Option CellSuggest) :
      C.AllVouched (withEditor s fun _ => ⟨some cell, suggest⟩) := by
    refine ⟨h.cache, h.commands, h.events, pickers_update h.pickers ?_⟩
    intro cell' _ _ _ hcell' _ href'
    obtain rfl := Option.some.inj hcell'
    have hnone := Option.map_eq_none_iff.mp href
    rw [hnone] at href'
    cases href'
  unfold openCellSuggest
  split
  · rename_i spec hspec
    have hitems : C.Vouched spec.target ((s.lookupCache.lookup spec.target).getD []) := by
      cases hcached : s.lookupCache.lookup spec.target with
      | none => exact vouched_nil _
      | some rows =>
        obtain ⟨before, after, heq, -⟩ := List.lookup_eq_some_iff.mp hcached
        exact h.cache _ (heq ▸ List.mem_append_right _ (List.mem_cons_self ..))
    have htarget : ∀ idColumn target, C.reference cell = some (target, idColumn) → spec.target = target := by
      intro idColumn target href
      obtain ⟨⟨target', idColumn'⟩, href', rfl⟩ := Option.map_eq_some_iff.mp hspec
      rw [href'] at href
      exact (Prod.mk.inj (Option.some.inj href)).1
    have hpicker : ∀ suggest : CellSuggest, suggest.target = spec.target →
        suggest.items = (s.lookupCache.lookup spec.target).getD [] →
        C.PickerVouched ⟨some cell, some suggest⟩ := by
      intro suggest hsame hheld cell' _ target idColumn hcell' hsuggest' href
      obtain rfl := Option.some.inj hcell'
      obtain rfl := Option.some.inj hsuggest'
      rw [hsame, hheld]
      exact ⟨htarget idColumn target href, hitems⟩
    dsimp only
    split
    · refine ⟨h.cache, ?_, h.events, pickers_update h.pickers (hpicker _ rfl rfl)⟩
      intro c hc rows hrows
      rcases List.mem_append.mp hc with hc | hc
      · exact h.commands c hc rows hrows
      · obtain rfl := List.mem_singleton.mp hc
        rw [requestLookup, lookupKey_tableRef]
        exact answers_vouched hone hspec hrows
    · exact ⟨h.cache, h.commands, h.events, pickers_update h.pickers (hpicker _ rfl rfl)⟩
  · rename_i hnone
    split
    · exact hother hnone _
    · exact hother hnone _

theorem remember_vouched {cache : List (LookupKey × List LookupRow)} {victim key : LookupKey}
    {rows : List LookupRow} (h : ∀ e ∈ cache, C.Vouched e.1 e.2) (hrows : C.Vouched key rows) :
    ∀ e ∈ remember cache victim key rows, C.Vouched e.1 e.2 := by
  intro e he
  unfold remember at he
  dsimp only at he
  rcases List.mem_cons.mp he with rfl | he
  · exact hrows
  have hmem := (List.mem_filter.mp he).1
  split at hmem
  · exact h e (List.mem_filter.mp hmem).1
  · exact h e hmem

theorem onLookupReady_allVouched {s : Suggesting} (h : C.AllVouched s) (victim : LookupKey)
    {epoch : Nat} {target : TableRef} {rows : List LookupRow} (hrows : C.Vouched (lookupKey target) rows) :
    C.AllVouched (onLookupReady realText s victim epoch target rows) := by
  refine ⟨remember_vouched h.cache hrows, h.commands, h.events, pickers_update h.pickers ?_⟩
  intro cell suggest key idColumn hcell hsuggest href
  obtain ⟨p, hp, rfl⟩ := Option.map_eq_some_iff.mp hsuggest
  obtain ⟨htarget, hitems⟩ := h.pickers s.active cell p key idColumn hcell hp href
  split
  · rename_i hmatch
    have hkey : p.target = lookupKey target := beq_iff_eq.mp (Bool.and_eq_true _ _ ▸ hmatch).2
    refine ⟨htarget, ?_⟩
    show C.Vouched p.target rows
    rw [hkey]
    exact hrows
  · exact ⟨htarget, hitems⟩

theorem mem_eraseIdx_commands {s : Suggesting} (h : C.AllVouched s) (i : Nat) :
    ∀ c ∈ s.commands.eraseIdx i, ∀ rows, C.answers c rows = true → C.Vouched (lookupKey c.target) rows :=
  fun c hc => h.commands c (List.mem_of_mem_eraseIdx hc)

/-- No move leaves a list behind that is not vouched for. -/
theorem suggest_step (hone : C.OneColumn) {s t : Suggesting} {a : SuggestMove} (h : C.AllVouched s)
    (hstep : C.step realText s a = some t) : C.AllVouched t := by
  cases a with
  | openCell cell seed enums =>
    obtain rfl := Option.some.inj hstep
    exact openCellSuggest_allVouched hone h cell seed enums
  | change text =>
    obtain rfl := Option.some.inj hstep
    exact ⟨h.cache, h.commands, h.events, pickers_update h.pickers
      (pickerVouched_map (h.pickers s.active) (fun _ => rfl) fun _ => rfl)⟩
  | highlight delta =>
    obtain rfl := Option.some.inj hstep
    exact ⟨h.cache, h.commands, h.events, pickers_update h.pickers
      (pickerVouched_map (h.pickers s.active) (CellSuggest.move_target · delta)
        (CellSuggest.move_items · delta))⟩
  | accept pos =>
    obtain rfl := Option.some.inj hstep
    exact ⟨h.cache, h.commands, h.events, pickers_update h.pickers
      (pickerVouched_map (h.pickers s.active) (fun _ => rfl) fun _ => rfl)⟩
  | close =>
    obtain rfl := Option.some.inj hstep
    refine ⟨h.cache, h.commands, h.events, pickers_update h.pickers ?_⟩
    intro _ _ _ _ _ hsuggest
    cases hsuggest
  | focus grid | describe table columns =>
    obtain rfl := Option.some.inj hstep
    exact ⟨h.cache, h.commands, h.events, h.pickers⟩
  | fetched i rows =>
    unfold step at hstep
    dsimp only at hstep
    split at hstep
    · rename_i c hc
      split at hstep
      · rename_i hanswers
        obtain rfl := Option.some.inj hstep
        refine ⟨h.cache, mem_eraseIdx_commands h i, ?_, h.pickers⟩
        intro epoch target rows' hmem
        rcases List.mem_append.mp hmem with hmem | hmem
        · exact h.events epoch target rows' hmem
        · obtain ⟨rfl, rfl, rfl⟩ : epoch = c.epoch ∧ target = c.target ∧ rows' = rows := by
            simpa using hmem
          exact h.commands c (List.mem_of_getElem? hc) rows' hanswers
      · cases hstep
    · cases hstep
  | fetchFailed i =>
    obtain ⟨c, -, rfl⟩ := Option.map_eq_some_iff.mp hstep
    refine ⟨h.cache, mem_eraseIdx_commands h i, ?_, h.pickers⟩
    intro epoch target rows hmem
    exact h.events epoch target rows (by simpa using hmem)
  | superseded i =>
    obtain ⟨c, -, rfl⟩ := Option.map_eq_some_iff.mp hstep
    exact ⟨h.cache, mem_eraseIdx_commands h i, h.events, h.pickers⟩
  | deliver victim =>
    unfold step at hstep
    dsimp only at hstep
    split at hstep
    · rename_i epoch target rows rest hevents
      obtain rfl := Option.some.inj hstep
      have hrest : C.AllVouched { s with events := rest } :=
        ⟨h.cache, h.commands, fun e t r hr => h.events e t r (hevents ▸ List.mem_cons_of_mem _ hr), h.pickers⟩
      exact onLookupReady_allVouched hrest victim
        (h.events epoch target rows (hevents ▸ List.mem_cons_self ..))
    · rename_i epoch target rest hevents
      obtain rfl := Option.some.inj hstep
      refine ⟨h.cache, h.commands, fun e t r hr => h.events e t r (hevents ▸ List.mem_cons_of_mem _ hr),
        pickers_update h.pickers (pickerVouched_map (h.pickers s.active) ?_ ?_)⟩
      all_goals
        intro p
        split <;> rfl
    · cases hstep

theorem connected_allVouched : C.AllVouched connected where
  cache := fun _ h => absurd h List.not_mem_nil
  commands := fun _ h => absurd h List.not_mem_nil
  events := fun _ _ _ h => absurd h List.not_mem_nil
  pickers := fun _ _ _ _ _ h => nomatch h

/-! ## Runs -/

/-- Two cells of one parent table: the value of the first one's column answers the second. -/
def answersBoth (cell cell' : EditedCell) (v : Value) : List SuggestMove :=
  [.openCell cell [] none, .fetched 0 [⟨v, none⟩], .deliver ([], []), .openCell cell' [] none]

/-- A picker that does not find its table in the cache asks for it. -/
theorem openCellSuggest_uncached {s : Suggesting} {cell : EditedCell} {spec : LookupSpec}
    (hspec : C.fkLookupSpec s.details cell = some spec) (hnone : s.lookupCache.lookup spec.target = none) :
    let t := C.openCellSuggest realText s cell [] none
    t.commands = s.commands ++ [requestLookup spec cell.epoch] ∧ t.events = s.events ∧
      t.details = s.details ∧ t.active = s.active := by
  unfold openCellSuggest
  simp only [hspec, hnone]
  exact ⟨rfl, rfl, rfl, rfl⟩

/-- A picker that finds its table in the cache offers what is there. -/
theorem openCellSuggest_cached {s : Suggesting} {cell : EditedCell} {spec : LookupSpec}
    {rows : List LookupRow} (hspec : C.fkLookupSpec s.details cell = some spec)
    (hrows : s.lookupCache.lookup spec.target = some rows) :
    ∃ suggest, ((C.openCellSuggest realText s cell [] none).editors s.active) = ⟨some cell, some suggest⟩ ∧
      suggest.offered = rows := by
  unfold openCellSuggest
  simp only [hspec, hrows]
  exact ⟨_, Function.update_self .., CellSuggest.offered_recompute_nil ..⟩

theorem answersBoth_run {cell cell' : EditedCell} {target : LookupKey} {idColumn : Bytes}
    (href : C.reference cell = some (target, idColumn)) {v : Value}
    (hv : C.holds (tableRef target) idColumn v = true) :
    ∃ s, Machine.run (C.step realText) connected (answersBoth cell cell' v) =
        some (C.openCellSuggest realText s cell' [] none) ∧
      s.active = 0 ∧ s.details = [] ∧ s.lookupCache.lookup target = some [⟨v, none⟩] := by
  have hspec : C.fkLookupSpec [] cell = some ⟨target, idColumn, none⟩ := by
    rw [fkLookupSpec, href]
    rfl
  let opened := C.openCellSuggest realText connected cell [] none
  obtain ⟨hcommands, hevents, hdetails, hactive⟩ :
      opened.commands = [requestLookup ⟨target, idColumn, none⟩ cell.epoch] ∧ opened.events = [] ∧
        opened.details = [] ∧ opened.active = 0 :=
    openCellSuggest_uncached hspec rfl
  have hanswers : C.answers (requestLookup ⟨target, idColumn, none⟩ cell.epoch) [⟨v, none⟩] = true := by
    simp [answers, requestLookup, lookupLimit, hv]
  let served : Suggesting :=
    { opened with commands := [], events := [.ready cell.epoch (tableRef target) [⟨v, none⟩]] }
  have hserved : C.step realText opened (.fetched 0 [⟨v, none⟩]) = some served := by
    unfold step
    rw [hcommands]
    dsimp only [List.getElem?_cons_zero]
    rw [if_pos hanswers, hevents]
    rfl
  refine ⟨onLookupReady realText { served with events := [] } ([], []) cell.epoch (tableRef target) [⟨v, none⟩],
    Machine.run_cons.mpr ⟨opened, rfl, Machine.run_cons.mpr ⟨served, hserved,
      Machine.run_cons.mpr ⟨_, rfl, Machine.run_cons.mpr ⟨_, rfl, rfl⟩⟩⟩⟩, hactive, hdetails, ?_⟩
  show (remember _ _ (lookupKey (tableRef target)) _).lookup target = _
  rw [lookupKey_tableRef, remember, List.lookup_cons, beq_self_eq_true]

theorem oneColumn_of_sound
    (h : ∀ moves, Machine.Always (C.step realText) C.Sound connected moves) : C.OneColumn := by
  intro cell cell' target idColumn idColumn' href href' v hv
  obtain ⟨s, hrun, hactive, hdetails, hcached⟩ :
      ∃ s, Machine.run (C.step realText) connected (answersBoth cell cell' v) = _ ∧ _ :=
    answersBoth_run href hv
  have hspec' : C.fkLookupSpec s.details cell' = some ⟨target, idColumn', none⟩ := by
    rw [fkLookupSpec, href', hdetails]
    rfl
  obtain ⟨suggest, hopen, hoffered⟩ :
      ∃ suggest, (C.openCellSuggest realText s cell' [] none).editors s.active = _ ∧ _ :=
    openCellSuggest_cached hspec' hcached
  refine Machine.always_run (h _) hrun s.active cell' suggest target idColumn' ?_ ?_ href' ⟨v, none⟩ ?_
  · rw [hopen]
  · rw [hopen]
  · rw [hoffered]
    exact List.mem_singleton_self _

/-- Every id offered is one of the referenced column, whatever is opened and however the replies come,
exactly when foreign keys into one table ask for columns with the same values. -/
theorem suggestions_iff (C : Catalog) (realText : UInt64 → Bytes) :
    (∀ moves, Machine.Always (C.step realText) C.Sound connected moves) ↔ C.OneColumn := by
  refine ⟨oneColumn_of_sound, fun hone moves => ?_⟩
  exact Machine.always_of_inv (fun s a t h _ hstep => suggest_step hone h hstep)
    (fun _ => sound_of_allVouched) connected_allVouched (Machine.meets_of_forall fun _ _ => trivial)

/-- `orders` refers to `people` by number and by name. -/
def ordersOfPeople : Catalog where
  fkGraph := [⟨some [], ascii "orders", some [], ascii "people", [(ascii "person", ascii "id")]⟩,
    ⟨some [], ascii "orders", some [], ascii "people", [(ascii "called", ascii "name")]⟩]
  holds := fun t column v =>
    t == tableRef ([], ascii "people") &&
      ((column == ascii "id" && v == .integer 7) || (column == ascii "name" && v == .text (ascii "Ann")))

/-- The list fetched for the name is offered where an id is wanted. -/
theorem names_offered_as_ids :
    ¬ ∀ moves, Machine.Always (ordersOfPeople.step fun _ => []) ordersOfPeople.Sound connected moves := by
  intro h
  have hname := oneColumn_of_sound h ⟨0, some ([], ascii "orders"), [ascii "person", ascii "called"], 1⟩
    ⟨0, some ([], ascii "orders"), [ascii "person", ascii "called"], 0⟩ ([], ascii "people") (ascii "name")
    (ascii "id") (by decide) (by decide) (.text (ascii "Ann")) (by decide)
  revert hname
  decide

end Catalog

end RedDb.Grid
