import Mathlib.Data.List.Lex
import Mathlib.Data.List.Perm.Basic
import RedDb.Ai.ReadTools
import RedDb.Driver.Edits
import RedDb.Lib.KeyOrder
import RedDb.Lib.Numerals

/-!
# RedDb — foreign keys expanded in a grid

A browse shows columns of the tables that its foreign keys refer to. `buildJoins` makes a join of every
foreign key that the chosen columns go through, and names each column by the path to it, the steps joined
by dots. `joinWrap` splits the names at their dots again, lists the columns behind the base column that
the first part names, in the order of the parts, and puts those it finds no base column for at the end.

* `buildJoins_tree` — the joins that are built are a tree: every alias once, every name its path;
* `runAfter_projection` — what the projection lists behind a base column;
* `expansion_iff` — when every column stands behind its anchor, depth first.
-/

namespace RedDb.Driver

open ByteText KeyOrder

/-! ## The joins -/

def baseAlias : Bytes := ascii "_red_base"

structure FkEdge where
  fromSchema : Option Bytes
  fromTable : Bytes
  toSchema : Option Bytes
  toTable : Bytes
  columns : List (Bytes × Bytes)

/-- `select` has the column of the referenced table, and its name in the result. -/
structure FkJoin where
  alias' : Bytes
  parentAlias : Bytes
  on : List (Bytes × Bytes)
  toSchema : Option Bytes
  toTable : Bytes
  select : List (Bytes × Bytes)

/-- `ExpandedCol::dotted`. -/
def dotted (path : List Bytes) : Bytes := [dot].intercalate path

/-- A foreign key that is joined already: the path to it, the alias, and the table it refers to. -/
structure Resolved where
  path : List Bytes
  alias' : Bytes
  schema : Option Bytes
  table : Bytes

structure Build where
  resolved : List Resolved
  joins : List FkJoin
  nextAlias : Nat

def joinAlias (n : Nat) : Bytes := ascii "_red_j" ++ ByteText.decimal n

def leads (schema : Option Bytes) (table fkcol : Bytes) (e : FkEdge) : Bool :=
  e.columns.length == 1 && e.fromTable == table && e.fromSchema == schema &&
    (e.columns.head?.map Prod.fst) == some fkcol

/-- The rest of a path behind the foreign keys of `path`: the joins it lacks are added, until a key
resolves to no edge. -/
@[grind =] def walk (graph : List FkEdge) (b : Build) (path : List Bytes) (parent : Bytes) (schema : Option Bytes)
    (table : Bytes) : List Bytes → Build × Option Bytes
  | [] => (b, some parent)
  | fkcol :: rest =>
    match b.resolved.find? fun r => r.path == path ++ [fkcol] with
    | some r => walk graph b (path ++ [fkcol]) r.alias' r.schema r.table rest
    | none =>
      match graph.find? (leads schema table fkcol) with
      | none => (b, none)
      | some edge =>
        let alias' := joinAlias b.nextAlias
        let toSchema := edge.toSchema <|> schema
        let join := ⟨alias', parent, edge.columns, toSchema, edge.toTable, []⟩
        let entry := ⟨path ++ [fkcol], alias', toSchema, edge.toTable⟩
        walk graph ⟨b.resolved ++ [entry], b.joins ++ [join], b.nextAlias + 1⟩ (path ++ [fkcol]) alias'
          toSchema edge.toTable rest

def FkJoin.addSelect (j : FkJoin) (leaf out : Bytes) : FkJoin := { j with select := j.select ++ [(leaf, out)] }

/-- One chosen column. -/
def addColumn (graph : List FkEdge) (schema table : Bytes) (b : Build) (path : List Bytes) : Build :=
  if path.length < 2 then b
  else
    let (b, found) := walk graph b [] baseAlias (some schema) table path.dropLast
    match found with
    | none => b
    | some found =>
      { b with joins := b.joins.map fun j =>
        if j.alias' = found then j.addSelect (path.getLastD []) (dotted path) else j }

def buildJoins (graph : List FkEdge) (schema table : Bytes) (expansion : List (List Bytes)) : List FkJoin :=
  (expansion.foldl (addColumn graph schema table) ⟨[], [], 0⟩).joins

/-! ## The projection -/

/-- A selected column: the table's alias, the column, and its name in the result. -/
structure Joined where
  alias' : Bytes
  leaf : Bytes
  out : Bytes
  deriving DecidableEq

/-- The name, split at its dots. -/
def Joined.segments (g : Joined) : List Bytes := g.out.splitOn dot

/-- The parts as they are compared, byte by byte. -/
def sortKey (parts : List Bytes) : List (List Nat) := parts.map (·.map UInt8.toNat)

def sorted (cols : List Joined) : List Joined := sortBy (fun g => sortKey g.segments) cols

inductive Item where
  | star
  | base (column : Bytes)
  | joined (g : Joined)
  deriving DecidableEq

def selected (joins : List FkJoin) : List Joined :=
  joins.flatMap fun j => j.select.map fun (leaf, out) => ⟨j.alias', leaf, out⟩

/-- The columns that the part in front of the first dot puts behind a base column. -/
def groupOf (cols : List Joined) (bc : Bytes) : List Joined :=
  sorted (cols.filter fun g => g.segments.head? == some bc)

def orphans (cols : List Joined) (baseCols : List Bytes) : List Joined :=
  sorted (cols.filter fun g => !g.segments.head?.any (baseCols.contains ·))

def projection (baseCols : List Bytes) (joins : List FkJoin) : List Item :=
  let cols := selected joins
  if baseCols = [] then .star :: (sorted cols).map .joined
  else
    baseCols.flatMap (fun bc => .base bc :: (groupOf cols bc).map .joined) ++
      (orphans cols baseCols).map .joined

section Text

variable (quote : Bytes → Bytes)

def Item.render : Item → Bytes
  | .star => baseAlias ++ ascii ".*"
  | .base bc => baseAlias ++ [dot] ++ quote bc
  | .joined g => g.alias' ++ [dot] ++ quote g.leaf ++ ascii " AS " ++ quote g.out

def FkJoin.render (j : FkJoin) : Bytes :=
  ascii " LEFT JOIN " ++ qualify quote ⟨j.toSchema, j.toTable⟩ ++ ascii " AS " ++ j.alias' ++ ascii " ON " ++
    (ascii " AND ").intercalate (j.on.map fun (p, c) =>
      j.parentAlias ++ [dot] ++ quote p ++ ascii " = " ++ j.alias' ++ [dot] ++ quote c)

def joinWrap (base : Bytes) (baseCols : List Bytes) (joins : List FkJoin) : Bytes :=
  if joins.isEmpty then base
  else
    ascii "SELECT " ++ (ascii ", ").intercalate ((projection baseCols joins).map (Item.render quote)) ++
      ascii " FROM (" ++ Ai.stripTrailing base ++ ascii ") AS " ++ baseAlias ++
      joins.flatMap (FkJoin.render quote)

end Text

/-! ## Trees of joins -/

/-- Joins with the foreign keys that lead to each: no alias twice, no column twice, and every column
named by its path. -/
structure JoinTree where
  joins : List FkJoin
  path : Bytes → List Bytes
  aliases : (baseAlias :: joins.map FkJoin.alias').Nodup
  named : ∀ g ∈ selected joins, path g.alias' ≠ [] ∧ g.out = dotted (path g.alias' ++ [g.leaf])
  distinct : (selected joins).Nodup

/-- What a resolved key says of its join, the columns of `done` being added. -/
structure Owns (done : List (List Bytes)) (r : Resolved) (j : FkJoin) : Prop where
  same : r.alias' = j.alias'
  path : r.path ≠ []
  nodup : j.select.Nodup
  select : ∀ s ∈ j.select, s.2 = dotted (r.path ++ [s.1]) ∧ r.path ++ [s.1] ∈ done

structure Sound (done : List (List Bytes)) (b : Build) : Prop where
  aliases : b.resolved.map Resolved.alias' = (List.range b.nextAlias).map joinAlias
  owns : List.Forall₂ (Owns done) b.resolved b.joins

theorem joinAlias_inj {m n : Nat} (h : joinAlias m = joinAlias n) : m = n := by
  have hdigits := congrArg ofDigits (List.append_cancel_left h)
  rwa [ofDigits_decimal, ofDigits_decimal] at hdigits

section Build

variable {done : List (List Bytes)} {b : Build} {graph : List FkEdge}

theorem Sound.alias_inj (h : Sound done b) {r s : Resolved} (hr : r ∈ b.resolved) (hs : s ∈ b.resolved)
    (heq : r.alias' = s.alias') : r = s := by
  have hnodup : (b.resolved.map Resolved.alias').Nodup := by
    rw [h.aliases]
    exact List.nodup_range.map fun m n => joinAlias_inj
  exact List.inj_on_of_nodup_map hnodup hr hs heq

theorem Owns.mono {r : Resolved} {j : FkJoin} (h : Owns done r j) (path : List Bytes) :
    Owns (path :: done) r j :=
  ⟨h.same, h.path, h.nodup, fun s hs => ⟨(h.select s hs).1, List.mem_cons_of_mem _ (h.select s hs).2⟩⟩

theorem Sound.mono (h : Sound done b) (path : List Bytes) : Sound (path :: done) b :=
  ⟨h.aliases, h.owns.imp fun _ _ ho => ho.mono path⟩

/-- The joins of a path: still sound, and the table that is reached is the path's. -/
theorem walk_sound {path : List Bytes} {parent : Bytes} {schema : Option Bytes} {table : Bytes}
    (rest : List Bytes) (h : Sound done b)
    (hparent : path ≠ [] → ∃ r ∈ b.resolved, r.alias' = parent ∧ r.path = path) :
    Sound done (walk graph b path parent schema table rest).1 ∧
      ∀ a, (walk graph b path parent schema table rest).2 = some a → path ++ rest ≠ [] →
        ∃ r ∈ (walk graph b path parent schema table rest).1.resolved, r.alias' = a ∧ r.path = path ++ rest := by
  induction rest generalizing b path parent schema table with
  | nil =>
    refine ⟨h, fun a ha hne => ?_⟩
    obtain rfl := Option.some.inj ha
    rw [List.append_nil] at hne ⊢
    exact hparent hne
  | cons fkcol rest ih =>
    have hcons : path ++ fkcol :: rest = path ++ [fkcol] ++ rest := by simp
    rw [walk, hcons]
    split
    · rename_i r hr
      have hpath : r.path = path ++ [fkcol] := by simpa using List.find?_some hr
      exact ih h fun _ => ⟨r, List.mem_of_find?_eq_some hr, rfl, hpath⟩
    split
    · exact ⟨h, fun a ha => by cases ha⟩
    rename_i edge hedge
    refine ih ⟨?_, ?_⟩ fun _ => ⟨_, List.mem_append_right _ List.mem_cons_self, rfl, rfl⟩
    · rw [List.map_append, h.aliases, List.range_succ, List.map_append]
      rfl
    · refine List.rel_append h.owns (List.Forall₂.cons ⟨rfl, by simp, List.nodup_nil, ?_⟩ List.Forall₂.nil)
      intro s hs
      cases hs

theorem addColumn_sound {schema table : Bytes} {path : List Bytes} (h : Sound done b) (hpath : path ∉ done) :
    Sound (path :: done) (addColumn graph schema table b path) := by
  unfold addColumn
  split
  · exact h.mono path
  rename_i hlong
  have hsplit : path.dropLast ++ [path.getLastD []] = path := by
    have hne : path ≠ [] := by
      rintro rfl
      exact hlong (by decide)
    rw [List.getLastD_eq_getLast?, List.getLast?_eq_some_getLast hne, Option.getD_some,
      List.dropLast_append_getLast]
  have hkeys : [] ++ path.dropLast ≠ [] := by
    rw [List.nil_append, ← List.length_pos_iff, List.length_dropLast]
    omega
  obtain ⟨hsound, hfound⟩ := @walk_sound done b graph [] baseAlias (some schema) table path.dropLast h
    (fun hne => absurd rfl hne)
  generalize walk graph b [] baseAlias (some schema) table path.dropLast = w at hsound hfound
  obtain ⟨b', found⟩ := w
  cases found with
  | none => exact hsound.mono path
  | some a =>
    obtain ⟨r, hr, hra, hrpath⟩ := hfound a rfl hkeys
    rw [List.nil_append] at hrpath
    refine ⟨hsound.aliases, ?_⟩
    dsimp only
    rw [List.forall₂_map_right_iff]
    have hboth : List.Forall₂ (fun r' j => r' ∈ b'.resolved ∧ Owns done r' j) b'.resolved b'.joins :=
      (List.forall₂_and_left _ _).mpr ⟨fun _ hr' => hr', hsound.owns⟩
    refine hboth.imp fun r' j ⟨hr', howns⟩ => ?_
    split
    · rename_i halias
      -- the join that is reached is the one whose key has the path
      obtain rfl : r' = r := hsound.alias_inj hr' hr (by rw [howns.same, halias, hra])
      refine ⟨howns.same, howns.path, ?_, fun s hs => ?_⟩
      · refine List.nodup_append.mpr ⟨howns.nodup, List.nodup_singleton _, fun s hs t ht heq => hpath ?_⟩
        have hin := (howns.select s hs).2
        rw [heq, List.mem_singleton.mp ht, hrpath, hsplit] at hin
        exact hin
      · rcases List.mem_append.mp hs with hs | hs
        · exact ⟨(howns.select s hs).1, List.mem_cons_of_mem _ (howns.select s hs).2⟩
        · rw [List.mem_singleton.mp hs, hrpath, hsplit]
          exact ⟨rfl, List.mem_cons_self⟩
    · exact howns.mono path

theorem owner {rs : List Resolved} {js : List FkJoin} (h : List.Forall₂ (Owns done) rs js) :
    js.map FkJoin.alias' = rs.map Resolved.alias' ∧ ∀ j ∈ js, ∃ r ∈ rs, Owns done r j := by
  induction h with
  | nil => exact ⟨rfl, fun j hj => by cases hj⟩
  | @cons r j rs js howns _ ih =>
    obtain ⟨hsame, hall⟩ := ih
    refine ⟨by rw [List.map_cons, List.map_cons, hsame, howns.same], fun i hi => ?_⟩
    rcases List.mem_cons.mp hi with rfl | hi
    · exact ⟨r, List.mem_cons_self, howns⟩
    · obtain ⟨s, hs, hown⟩ := hall i hi
      exact ⟨s, List.mem_cons_of_mem r hs, hown⟩

/-- **What is built is a tree.** -/
theorem buildJoins_tree (graph : List FkEdge) (schema table : Bytes) {expansion : List (List Bytes)}
    (h : expansion.Nodup) : ∃ T : JoinTree, T.joins = buildJoins graph schema table expansion := by
  have hrun : ∀ (rest done : List (List Bytes)) (b : Build), Sound done b → rest.Nodup →
      (∀ path ∈ rest, path ∉ done) →
      ∃ done', Sound done' (rest.foldl (addColumn graph schema table) b) := by
    intro rest
    induction rest with
    | nil => exact fun done b hb _ _ => ⟨done, hb⟩
    | cons path rest ih =>
      intro done b hb hnodup hnew
      obtain ⟨hpath, hnodup⟩ := List.nodup_cons.mp hnodup
      refine ih _ _ (addColumn_sound hb (hnew path List.mem_cons_self)) hnodup fun q hq hdone => ?_
      rcases List.mem_cons.mp hdone with rfl | hdone
      · exact hpath hq
      · exact hnew q (List.mem_cons_of_mem _ hq) hdone
  obtain ⟨done, hb⟩ := hrun expansion [] ⟨[], [], 0⟩ ⟨rfl, List.Forall₂.nil⟩ h fun _ _ hin => by cases hin
  unfold buildJoins
  generalize expansion.foldl (addColumn graph schema table) ⟨[], [], 0⟩ = b at hb
  obtain ⟨haliases, howner⟩ := owner hb.owns
  have hpath : ∀ r ∈ b.resolved,
      ((b.resolved.find? fun s => s.alias' == r.alias').map Resolved.path).getD [] = r.path := by
    intro r hr
    cases hfind : b.resolved.find? fun s => s.alias' == r.alias' with
    | none => exact absurd (beq_self_eq_true r.alias') (List.find?_eq_none.mp hfind r hr)
    | some s =>
      have hs : s.alias' = r.alias' := by simpa using List.find?_some hfind
      rw [hb.alias_inj (List.mem_of_find?_eq_some hfind) hr hs]
      rfl
  have hnodup : (b.joins.map FkJoin.alias').Nodup := by
    rw [haliases, hb.aliases]
    exact List.nodup_range.map fun m n => joinAlias_inj
  refine ⟨⟨b.joins, fun a => ((b.resolved.find? fun s => s.alias' == a).map Resolved.path).getD [],
    List.nodup_cons.mpr ⟨?_, hnodup⟩, fun g hg => ?_, ?_⟩, rfl⟩
  · rw [haliases, hb.aliases]
    intro hbase
    obtain ⟨n, -, hn⟩ := List.mem_map.mp hbase
    have hbyte := congrArg (fun t : Bytes => t[5]?) hn
    exact absurd hbyte (by simp [joinAlias, baseAlias, ascii])
  · obtain ⟨j, hj, hg⟩ := List.mem_flatMap.mp hg
    obtain ⟨⟨leaf, out⟩, hs, rfl⟩ := List.mem_map.mp hg
    obtain ⟨r, hr, howns⟩ := howner j hj
    dsimp only
    rw [← howns.same, hpath r hr]
    exact ⟨howns.path, (howns.select _ hs).1⟩
  · refine List.nodup_flatMap.mpr ⟨fun j hj => ?_, ?_⟩
    · obtain ⟨r, -, howns⟩ := howner j hj
      refine howns.nodup.map fun s s' heq => ?_
      rw [Joined.mk.injEq] at heq
      exact Prod.ext heq.2.1 heq.2.2
    · refine (List.pairwise_map.mp hnodup).imp fun {i j} hne g hi hj => hne ?_
      obtain ⟨s, -, rfl⟩ := List.mem_map.mp hi
      obtain ⟨s', -, heq⟩ := List.mem_map.mp hj
      exact (congrArg Joined.alias' heq).symm

end Build

/-! ## The columns behind a base column -/

def baseOf : Item → Option Bytes
  | .base bc => some bc
  | _ => none

def joinedOf : Item → Option Joined
  | .joined g => some g
  | _ => none

/-- The joined columns that a list opens with. -/
def leading : List Item → List Joined
  | .joined g :: items => g :: leading items
  | _ => []

/-- The joined columns directly behind a base column. -/
@[grind =] def runAfter (bc : Bytes) : List Item → List Joined
  | [] => []
  | .base b :: items => if b = bc then leading items else runAfter bc items
  | _ :: items => runAfter bc items

/-- Base columns, each with a group of joined ones behind it, and more of these at the end. -/
def blocks (bcs : List Bytes) (group : Bytes → List Joined) (rest : List Joined) : List Item :=
  bcs.flatMap (fun bc => .base bc :: (group bc).map .joined) ++ rest.map .joined

section Blocks

variable {group : Bytes → List Joined} {rest : List Joined} {bc : Bytes}

theorem blocks_cons (b : Bytes) (bcs : List Bytes) (group : Bytes → List Joined) (rest : List Joined) :
    blocks (b :: bcs) group rest = .base b :: ((group b).map .joined ++ blocks bcs group rest) := by
  simp [blocks]

theorem bases_joined (gs : List Joined) (items : List Item) :
    (gs.map Item.joined ++ items).filterMap baseOf = items.filterMap baseOf := by
  induction gs with
  | nil => rfl
  | cons g gs ih => exact ih

theorem columns_joined (gs : List Joined) (items : List Item) :
    (gs.map Item.joined ++ items).filterMap joinedOf = gs ++ items.filterMap joinedOf := by
  induction gs with
  | nil => rfl
  | cons g gs ih => exact congrArg (g :: ·) ih

theorem leading_joined (gs : List Joined) (items : List Item) :
    leading (gs.map Item.joined ++ items) = gs ++ leading items := by
  induction gs with
  | nil => rfl
  | cons g gs ih => exact congrArg (g :: ·) ih

theorem runAfter_joined (gs : List Joined) (items : List Item) :
    runAfter bc (gs.map Item.joined ++ items) = runAfter bc items := by
  induction gs with
  | nil => rfl
  | cons g gs ih => exact ih

theorem blocks_parts (bcs : List Bytes) : (blocks bcs group rest).filterMap baseOf = bcs ∧
      (blocks bcs group rest).filterMap joinedOf = bcs.flatMap group ++ rest := by
  induction bcs with
  | nil =>
    have hbases := bases_joined rest []
    have hcolumns := columns_joined rest []
    rw [List.append_nil] at hbases hcolumns
    exact ⟨hbases, hcolumns.trans (List.append_nil _)⟩
  | cons b bcs ih =>
    rw [blocks_cons, List.flatMap_cons, List.append_assoc, ← ih.2]
    exact ⟨congrArg (b :: ·) ((bases_joined _ _).trans ih.1), columns_joined _ _⟩

/-- Behind a base column stands its group, and behind the last one all that is left. -/
theorem runAfter_blocks {bcs : List Bytes} (hn : bcs.Nodup) (hbc : bc ∈ bcs) :
    runAfter bc (blocks bcs group rest) = group bc ++ if bcs.getLast? = some bc then rest else [] := by
  induction bcs with
  | nil => cases hbc
  | cons b bcs ih =>
    obtain ⟨hb, hn⟩ := List.nodup_cons.mp hn
    rw [blocks_cons, runAfter]
    split
    · rename_i heq
      rw [← heq, leading_joined]
      congr 1
      cases bcs with
      | nil =>
        have hrest := leading_joined rest []
        rw [List.append_nil] at hrest
        rw [List.getLast?_singleton, if_pos rfl]
        exact hrest.trans (List.append_nil _)
      | cons b' bcs =>
        rw [blocks_cons, if_neg]
        · rfl
        · intro hlast
          rw [List.getLast?_cons_cons] at hlast
          exact hb (List.mem_of_getLast? hlast)
    · rename_i hne
      have hin := (List.mem_cons.mp hbc).resolve_left fun h => hne h.symm
      rw [runAfter_joined, ih hn hin]
      obtain ⟨b', bcs', rfl⟩ := List.exists_cons_of_ne_nil (List.ne_nil_of_mem hin)
      rw [List.getLast?_cons_cons]

theorem runAfter_absent {bcs : List Bytes} (hbc : bc ∉ bcs) : runAfter bc (blocks bcs group rest) = [] := by
  induction bcs with
  | nil =>
    have hrest := @runAfter_joined bc rest []
    rwa [List.append_nil] at hrest
  | cons b bcs ih =>
    obtain ⟨hne, hbc⟩ := not_or.mp (mt List.mem_cons.mpr hbc)
    rw [blocks_cons, runAfter, if_neg fun h => hne h.symm, runAfter_joined, ih hbc]

/-- Every column is in one group or at the end. -/
theorem groups_perm (cols : List Joined) {bcs : List Bytes} (hn : bcs.Nodup) :
    (bcs.flatMap (groupOf cols) ++ orphans cols bcs).Perm cols := by
  have hfilter : ∀ (bcs : List Bytes) (cols : List Joined), bcs.Nodup →
      (bcs.flatMap (fun bc => cols.filter fun g => g.segments.head? == some bc) ++
        cols.filter fun g => !g.segments.head?.any (bcs.contains ·)).Perm cols := by
    intro bcs
    induction bcs with
    | nil => intro cols _; simp
    | cons b bcs ih =>
      intro cols hn
      obtain ⟨hb, hn⟩ := List.nodup_cons.mp hn
      have hperm := List.filter_append_perm (fun g : Joined => g.segments.head? == some b) cols
      have hrest := ih (cols.filter fun g => !(g.segments.head? == some b)) hn
      have hgroups : bcs.flatMap (fun bc => (cols.filter fun g => !(g.segments.head? == some b)).filter
          fun g => g.segments.head? == some bc) =
            bcs.flatMap fun bc => cols.filter fun g => g.segments.head? == some bc := by
        refine List.flatMap_congr fun bc hbc => ?_
        rw [List.filter_filter]
        refine List.filter_congr fun g _ => ?_
        rw [Bool.eq_iff_iff, Bool.and_eq_true, beq_iff_eq, Bool.not_eq_true', beq_eq_false_iff_ne]
        refine ⟨fun h => h.1, fun h => ⟨h, fun h' => hb ?_⟩⟩
        rw [Option.some.inj (h'.symm.trans h)]
        exact hbc
      have hothers : (cols.filter fun g => !(g.segments.head? == some b)).filter
          (fun g => !g.segments.head?.any (bcs.contains ·)) =
            cols.filter fun g => !g.segments.head?.any ((b :: bcs).contains ·) := by
        rw [List.filter_filter]
        refine List.filter_congr fun g _ => ?_
        cases g.segments.head? with
        | none => rfl
        | some s => by_cases hs : s = b <;> simp [hs]
      rw [hgroups, hothers] at hrest
      rw [List.flatMap_cons, List.append_assoc]
      exact (hrest.append_left _).trans hperm
  exact ((List.Perm.flatMap_left bcs fun bc _ => sortBy_perm _ _).append (sortBy_perm _ _)).trans
    (hfilter bcs cols hn)

end Blocks

/-! ## The expansion -/

namespace JoinTree

variable (T : JoinTree)

/-- The foreign-key column of the base that leads to a column. -/
def anchor (g : Joined) : Option Bytes := (T.path g.alias').head?

/-- The place of a column in the tree. -/
def place (g : Joined) : List Bytes := T.path g.alias' ++ [g.leaf]

/-- The place as its name spells it: the steps, split at the dots in them. -/
def spelled (g : Joined) : List (List Nat) := sortKey ((T.place g).flatMap (·.splitOn dot))

def SpelledBefore (g g' : Joined) : Prop :=
  T.spelled g < T.spelled g' ∨ T.spelled g = T.spelled g' ∧ Before (selected T.joins) g g'

end JoinTree

/-- The base columns once and in their order, the joined columns once, each directly behind its anchor,
and those of an anchor depth first. -/
structure Expanded (baseCols : List Bytes) (T : JoinTree) (items : List Item) : Prop where
  bases : items.filterMap baseOf = baseCols
  once : (items.filterMap joinedOf).Perm (selected T.joins)
  behind : ∀ g ∈ selected T.joins, ∃ a, T.anchor g = some a ∧ g ∈ runAfter a items
  depthFirst : ∀ bc ∈ baseCols, DepthFirst T.place (runAfter bc items)

/-- An anchor that its columns come to stand behind: a base column with no dot in its name, or the last
one, if what stands in front of its first dot names no base column. -/
def Lands (baseCols : List Bytes) (a : Bytes) : Prop :=
  a ∈ baseCols ∧ (dot ∉ a ∨ a.takeWhile (· != dot) ∉ baseCols ∧ baseCols.getLast? = some a)

/-- Every anchor lands, and of the columns of an anchor none is spelled between two of a subtree that it
is not in. -/
structure Placeable (baseCols : List Bytes) (T : JoinTree) : Prop where
  lands : ∀ g ∈ selected T.joins, ∃ a, T.anchor g = some a ∧ Lands baseCols a
  grouped : ∀ g ∈ selected T.joins, ∀ g' ∈ selected T.joins, ∀ g'' ∈ selected T.joins,
    T.anchor g = T.anchor g' → T.anchor g' = T.anchor g'' → T.SpelledBefore g g' →
      T.SpelledBefore g' g'' → ∀ p, p <+: T.place g → p <+: T.place g'' → p <+: T.place g'

theorem splitOn_head (b : Bytes) : (b.splitOn dot).head? = some (b.takeWhile (· != dot)) := by
  induction b with
  | nil => rfl
  | cons c b ih =>
    rw [List.splitOn_cons_eq_if_modifyHead]
    by_cases hc : (c == dot) = true
    · rw [if_pos hc, List.takeWhile_cons_of_neg (by simpa using hc)]
      rfl
    · rw [if_neg hc, List.head?_modifyHead, ih, List.takeWhile_cons_of_pos (by simpa using hc)]
      rfl

theorem splitOn_dotted {path : List Bytes} (h : path ≠ []) :
    (dotted path).splitOn dot = path.flatMap (·.splitOn dot) := by
  induction path with
  | nil => exact absurd rfl h
  | cons a rest ih =>
    cases rest with
    | nil => simp [dotted]
    | cons b rest =>
      have hjoin : dotted (a :: b :: rest) = a ++ dot :: dotted (b :: rest) := by
        simp [dotted, List.intercalate_cons_of_ne_nil]
      rw [hjoin, List.splitOn_append_cons_self, ih (List.cons_ne_nil _ _)]
      rfl

theorem takeWhile_dotless {a : Bytes} (h : dot ∉ a) : a.takeWhile (· != dot) = a := by
  have hrun := @takeWhile_run UInt8 (· != dot) a [] (fun c hc => bne_iff_ne.mpr fun hdot => h (hdot ▸ hc))
    (fun c hc => by cases hc)
  rwa [List.append_nil] at hrun

theorem dot_not_mem_takeWhile (a : Bytes) : dot ∉ a.takeWhile (· != dot) := by
  intro h
  have hall := List.all_eq_true.mp (@List.all_takeWhile _ (· != dot) a) dot h
  exact absurd hall (by decide)

section Expansion

variable {T : JoinTree} {baseCols : List Bytes} {g : Joined} {a : Bytes}

/-- The name of a column, split: the spelling of its place, and the part that it is filed under. -/
theorem segments_spelled (hg : g ∈ selected T.joins) :
    sortKey g.segments = T.spelled g ∧
      ∀ a, T.anchor g = some a → g.segments.head? = some (a.takeWhile (· != dot)) := by
  obtain ⟨hne, hout⟩ := T.named g hg
  have hsplit : g.segments = (T.place g).flatMap (·.splitOn dot) := by
    rw [Joined.segments, hout, splitOn_dotted (by simp)]
    rfl
  refine ⟨congrArg sortKey hsplit, fun a ha => ?_⟩
  obtain ⟨b, rest, hpath⟩ := List.exists_cons_of_ne_nil hne
  obtain rfl : b = a := by
    rw [JoinTree.anchor, hpath] at ha
    exact Option.some.inj ha
  obtain ⟨s, parts, hparts⟩ := List.exists_cons_of_ne_nil (List.splitOn_ne_nil dot b)
  have hhead := splitOn_head b
  rw [hparts] at hhead
  rw [hsplit, JoinTree.place, hpath, List.cons_append, List.flatMap_cons, hparts]
  exact hhead

theorem projection_blocks (h : baseCols ≠ []) : projection baseCols T.joins =
    blocks baseCols (groupOf (selected T.joins)) (orphans (selected T.joins) baseCols) := if_neg h

/-- A column is directly behind its anchor exactly when the anchor lands. -/
theorem behind_iff (hn : baseCols.Nodup) (hg : g ∈ selected T.joins) (ha : T.anchor g = some a) :
    g ∈ runAfter a (projection baseCols T.joins) ↔ Lands baseCols a := by
  have hhead := (segments_spelled hg).2 a ha
  by_cases hempty : baseCols = []
  · subst hempty
    have hnone : runAfter a (projection [] T.joins) = [] := by
      have hrest := @runAfter_joined a (sorted (selected T.joins)) []
      rwa [List.append_nil] at hrest
    rw [hnone]
    exact ⟨fun h => absurd h List.not_mem_nil, fun h => absurd h.1 List.not_mem_nil⟩
  · rw [projection_blocks hempty]
    by_cases hin : a ∈ baseCols
    · rw [runAfter_blocks hn hin, List.mem_append, groupOf, sorted, mem_sortBy, List.mem_filter, hhead,
        beq_iff_eq, Option.some_inj]
      have hself : a.takeWhile (· != dot) = a ↔ dot ∉ a :=
        ⟨fun h => h ▸ dot_not_mem_takeWhile a, takeWhile_dotless⟩
      have horphan : (g ∈ if baseCols.getLast? = some a then orphans (selected T.joins) baseCols else []) ↔
          a.takeWhile (· != dot) ∉ baseCols ∧ baseCols.getLast? = some a := by
        split
        · rename_i hlast
          rw [orphans, sorted, mem_sortBy, List.mem_filter, hhead]
          simp [hg, hlast]
        · rename_i hlast
          simp [hlast]
      rw [horphan, hself]
      exact ⟨fun h => ⟨hin, h.imp And.right id⟩, fun h => h.2.imp (fun hd => ⟨hg, hd⟩) id⟩
    · rw [runAfter_absent hin]
      exact ⟨fun h => absurd h List.not_mem_nil, fun h => absurd h.1 hin⟩

/-- Behind a base column stand the columns that it is the anchor of, if all anchors land. -/
theorem runAfter_projection (hn : baseCols.Nodup)
    (hlands : ∀ g ∈ selected T.joins, ∃ a, T.anchor g = some a ∧ Lands baseCols a) {bc : Bytes}
    (hbc : bc ∈ baseCols) : runAfter bc (projection baseCols T.joins) =
      sorted ((selected T.joins).filter fun g => T.anchor g == some bc) := by
  have hne : baseCols ≠ [] := List.ne_nil_of_mem hbc
  -- what a column of a landed anchor is filed under
  have hfiled : ∀ g ∈ selected T.joins, ∃ a, T.anchor g = some a ∧ Lands baseCols a ∧
      g.segments.head? = some (a.takeWhile (· != dot)) := by
    intro g hg
    obtain ⟨a, ha, hland⟩ := hlands g hg
    exact ⟨a, ha, hland, (segments_spelled hg).2 a ha⟩
  have horphan : ∀ g ∈ selected T.joins, (!g.segments.head?.any (baseCols.contains ·)) = true →
      baseCols.getLast? = T.anchor g ∧ ∃ a, T.anchor g = some a ∧ a.takeWhile (· != dot) ∉ baseCols := by
    intro g hg hout
    obtain ⟨a, ha, ⟨hin, hland⟩, hhead⟩ := hfiled g hg
    rw [hhead] at hout
    have hout : a.takeWhile (· != dot) ∉ baseCols := by simpa using hout
    rcases hland with hdot | ⟨-, hlast⟩
    · rw [takeWhile_dotless hdot] at hout
      exact absurd hin hout
    · exact ⟨hlast.trans ha.symm, a, ha, hout⟩
  rw [projection_blocks hne, runAfter_blocks hn hbc]
  by_cases hcase : dot ∈ bc ∧ bc.takeWhile (· != dot) ∉ baseCols ∧ baseCols.getLast? = some bc
  · -- the columns of the last one, left over
    obtain ⟨hdot, hout, hlast⟩ := hcase
    have hgroup : groupOf (selected T.joins) bc = [] := by
      unfold groupOf
      rw [List.filter_eq_nil_iff.mpr]
      · rfl
      · intro g hg
        obtain ⟨a, -, -, hhead⟩ := hfiled g hg
        rw [hhead, beq_iff_eq, Option.some_inj]
        intro heq
        exact dot_not_mem_takeWhile a (heq ▸ hdot)
    rw [hgroup, if_pos hlast, List.nil_append]
    unfold orphans
    congr 1
    refine List.filter_congr fun g hg => ?_
    rw [Bool.eq_iff_iff, beq_iff_eq]
    constructor
    · intro h
      rw [← (horphan g hg h).1, hlast]
    · intro h
      rw [(segments_spelled hg).2 bc h]
      simpa using hout
  · -- the columns filed under it; none that are left over are its own
    have hrest : (if baseCols.getLast? = some bc then orphans (selected T.joins) baseCols else []) = [] := by
      split
      · rename_i hlast
        unfold orphans
        rw [List.filter_eq_nil_iff.mpr]
        · rfl
        · intro g hg hout
          obtain ⟨hlast', a, ha, hnot⟩ := horphan g hg hout
          obtain rfl : bc = a := Option.some.inj (hlast.symm.trans (hlast'.trans ha))
          refine hcase ⟨?_, hnot, hlast⟩
          by_contra hdot
          rw [takeWhile_dotless hdot] at hnot
          exact hnot hbc
      · rfl
    rw [hrest, List.append_nil]
    unfold groupOf
    congr 1
    refine List.filter_congr fun g hg => ?_
    obtain ⟨a, ha, ⟨hin, hland⟩, hhead⟩ := hfiled g hg
    rw [Bool.eq_iff_iff, beq_iff_eq, beq_iff_eq, hhead, ha, Option.some_inj, Option.some_inj]
    constructor
    · intro heq
      rcases hland with hdot | ⟨hout, -⟩
      · rwa [takeWhile_dotless hdot] at heq
      · exact absurd (heq ▸ hbc) hout
    · rintro rfl
      rcases hland with hdot | ⟨hout, hlast⟩
      · exact takeWhile_dotless hdot
      · by_contra hdot
        exact hcase ⟨by_contra fun h => hdot (takeWhile_dotless h), hout, hlast⟩

theorem spelledBefore_iff (hcols : ((selected T.joins).filter fun g => T.anchor g == some a).Nodup)
    {g g' : Joined} : Before (sorted ((selected T.joins).filter fun g => T.anchor g == some a)) g g' ↔
      (g ∈ selected T.joins ∧ T.anchor g = some a) ∧ (g' ∈ selected T.joins ∧ T.anchor g' = some a) ∧
        T.SpelledBefore g g' := by
  unfold sorted JoinTree.SpelledBefore
  rw [before_sortBy hcols, List.mem_filter, List.mem_filter, beq_iff_eq, beq_iff_eq, and_assoc]
  refine and_congr_right fun ⟨hg, ha⟩ => and_congr_right fun ⟨hg', ha'⟩ => ?_
  rw [(segments_spelled hg).1, (segments_spelled hg').1, before_filter (by rw [ha]; exact beq_self_eq_true _)
    (by rw [ha']; exact beq_self_eq_true _)]

/-- **The projection of a tree.** -/
theorem projection_expanded_iff (hn : baseCols.Nodup) :
    Expanded baseCols T (projection baseCols T.joins) ↔ Placeable baseCols T := by
  have hparts : (projection baseCols T.joins).filterMap baseOf = baseCols ∧
      ((projection baseCols T.joins).filterMap joinedOf).Perm (selected T.joins) := by
    by_cases hne : baseCols = []
    · subst hne
      have hbases := bases_joined (sorted (selected T.joins)) []
      have hcolumns := columns_joined (sorted (selected T.joins)) []
      rw [List.append_nil] at hbases hcolumns
      have hperm : (sorted (selected T.joins)).Perm (selected T.joins) := sortBy_perm _ _
      exact ⟨hbases, by
        show ((sorted (selected T.joins)).map Item.joined).filterMap joinedOf |>.Perm _
        rw [hcolumns]
        simpa using hperm⟩
    · rw [projection_blocks hne]
      obtain ⟨hbases, hcolumns⟩ := @blocks_parts (groupOf (selected T.joins))
        (orphans (selected T.joins) baseCols) baseCols
      exact ⟨hbases, hcolumns ▸ groups_perm _ hn⟩
  have hdistinct : ∀ a, ((selected T.joins).filter fun g => T.anchor g == some a).Nodup := fun a =>
    T.distinct.filter _
  constructor
  · intro h
    have hlands : ∀ g ∈ selected T.joins, ∃ a, T.anchor g = some a ∧ Lands baseCols a := by
      intro g hg
      obtain ⟨a, ha, hrun⟩ := h.behind g hg
      exact ⟨a, ha, (behind_iff hn hg ha).mp hrun⟩
    refine ⟨hlands, fun g hg g' hg' g'' hg'' hsame hsame' hbefore hbefore' => ?_⟩
    obtain ⟨a, ha, hland⟩ := hlands g hg
    have hfirst := h.depthFirst a hland.1
    rw [runAfter_projection hn hlands hland.1] at hfirst
    have ha' := hsame.symm.trans ha
    have ha'' := hsame'.symm.trans ha'
    exact hfirst g g' g'' ((spelledBefore_iff (hdistinct a)).mpr ⟨⟨hg, ha⟩, ⟨hg', ha'⟩, hbefore⟩)
      ((spelledBefore_iff (hdistinct a)).mpr ⟨⟨hg', ha'⟩, ⟨hg'', ha''⟩, hbefore'⟩)
  · intro h
    refine ⟨hparts.1, hparts.2, fun g hg => ?_, fun bc hbc g g' g'' hfront hback => ?_⟩
    · obtain ⟨a, ha, hland⟩ := h.lands g hg
      exact ⟨a, ha, (behind_iff hn hg ha).mpr hland⟩
    · rw [runAfter_projection hn h.lands hbc, spelledBefore_iff (hdistinct bc)] at hfront hback
      obtain ⟨⟨hg, ha⟩, ⟨hg', ha'⟩, hbefore⟩ := hfront
      obtain ⟨-, ⟨hg'', ha''⟩, hbefore'⟩ := hback
      exact h.grouped g hg g' hg' g'' hg'' (ha.trans ha'.symm) (ha'.trans ha''.symm) hbefore hbefore'

end Expansion

/-- **The expansion keeps the grid intact exactly when the tree is placeable**, whatever is built. -/
theorem expansion_iff {baseCols : List Bytes} (hn : baseCols.Nodup) :
    (∀ T : JoinTree, Expanded baseCols T (projection baseCols T.joins) ↔ Placeable baseCols T) ∧
      ∀ (graph : List FkEdge) (schema table : Bytes) (expansion : List (List Bytes)), expansion.Nodup →
        ∃ T : JoinTree, T.joins = buildJoins graph schema table expansion :=
  ⟨fun _ => projection_expanded_iff hn, fun graph schema table _ h => buildJoins_tree graph schema table h⟩

theorem expansion_iff_tier : ∃ T : JoinTree,
    T.joins = buildJoins [⟨none, ascii "channel", none, ascii "tier", [(ascii "tier_id", ascii "id")]⟩]
      (ascii "main") (ascii "channel") [[ascii "tier_id", ascii "name"]] ∧
    (Expanded [ascii "id", ascii "tier_id"] T (projection [ascii "id", ascii "tier_id"] T.joins) ↔
      Placeable [ascii "id", ascii "tier_id"] T) := by
  have hcols : [ascii "id", ascii "tier_id"].Nodup := by decide
  obtain ⟨T, hT⟩ := (expansion_iff hcols).2
    [⟨none, ascii "channel", none, ascii "tier", [(ascii "tier_id", ascii "id")]⟩]
    (ascii "main") (ascii "channel") [[ascii "tier_id", ascii "name"]] (List.nodup_singleton _)
  exact ⟨T, hT, (expansion_iff hcols).1 T⟩

/-- One join on a foreign key with a dot in its name. -/
def dottedTree : JoinTree where
  joins := [⟨ascii "_red_j0", baseAlias, [(ascii "a.b", ascii "id")], none, ascii "t",
    [(ascii "n", ascii "a.b.n")]⟩]
  path := fun _ => [ascii "a.b"]
  aliases := by decide
  named := by decide
  distinct := by decide

/-- Its column comes to stand behind the last base column. -/
theorem dotted_anchor_lost :
    projection [ascii "a.b", ascii "c"] dottedTree.joins =
      [.base (ascii "a.b"), .base (ascii "c"), .joined ⟨ascii "_red_j0", ascii "n", ascii "a.b.n"⟩] ∧
    ¬ Expanded [ascii "a.b", ascii "c"] dottedTree
      (projection [ascii "a.b", ascii "c"] dottedTree.joins) := by
  refine ⟨by decide, fun h => ?_⟩
  obtain ⟨a, ha, hrun⟩ := h.behind ⟨ascii "_red_j0", ascii "n", ascii "a.b.n"⟩ (by decide)
  obtain rfl : ascii "a.b" = a := Option.some.inj ha
  revert hrun
  decide

end RedDb.Driver
