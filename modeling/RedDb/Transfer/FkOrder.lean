import RedDb.Lib.Release
import RedDb.Transfer.Plan

/-!
# RedDb — the tables in foreign-key order

`orderByFk` puts a table out behind the tables its foreign keys refer to. It compares names in
lower case: two tables whose names differ only in case are one to it, and so are a table that was
asked for and one that was not. A run of its loop is a run of `Release`, over the lower-case names.

* `order_by_fk_iff` — when the tables come out once each, the parents first;
* `order_by_fk_of_named` — they do, where the names are told apart by more than their case.
-/

namespace RedDb.Transfer

open ByteText Release

section Keys

variable {tables : List Bytes} {schema : Option Bytes} {fks : List FkEdge} {done : List Bytes}
  {t k p c : Bytes}

/-- The parent of a key, as the loop reads the foreign keys. -/
def KeyParent (tables : List Bytes) (schema : Option Bytes) (fks : List FkEdge) (c p : Bytes) : Prop :=
  p ∈ parentKeys tables schema fks c

theorem nodup_eraseDups {α : Type*} [BEq α] [LawfulBEq α] (l : List α) : l.eraseDups.Nodup := by
  induction h : l.length using Nat.strong_induction_on generalizing l with
  | _ n ih =>
    cases l with
    | nil => exact List.nodup_nil
    | cons a l =>
      rw [List.eraseDups_cons, List.nodup_cons]
      have hlt : (l.filter fun b => !b == a).length < n := by
        have hle := List.length_filter_le (fun b => !b == a) l
        rw [List.length_cons] at h
        omega
      refine ⟨fun hmem => ?_, ih _ hlt _ rfl⟩
      have hkept := (List.mem_filter.mp (List.mem_eraseDups.mp hmem)).2
      rw [beq_self_eq_true] at hkept
      cases hkept

theorem orderKeys_nodup (tables : List Bytes) : (orderKeys tables).Nodup := nodup_eraseDups _

theorem mem_orderKeys : k ∈ orderKeys tables ↔ ∃ t ∈ tables, asciiLower t = k := by
  unfold orderKeys
  rw [List.mem_eraseDups, List.mem_map]

theorem displayName_mem (hk : k ∈ orderKeys tables) :
    displayName tables k ∈ tables ∧ asciiLower (displayName tables k) = k := by
  obtain ⟨t, ht, rfl⟩ := mem_orderKeys.mp hk
  have hmem : t ∈ tables.filter fun s => asciiLower s == asciiLower t :=
    List.mem_filter.mpr ⟨ht, beq_self_eq_true _⟩
  unfold displayName
  rw [List.getLast?_eq_some_getLast (List.ne_nil_of_mem hmem), Option.getD_some]
  have hlast := List.mem_filter.mp (List.getLast_mem (List.ne_nil_of_mem hmem))
  exact ⟨hlast.1, beq_iff_eq.mp hlast.2⟩

theorem KeyParent.mem (h : KeyParent tables schema fks c p) : p ∈ orderKeys tables := by
  obtain ⟨fk, hfk, rfl⟩ := List.mem_map.mp h
  have hkept := (List.mem_filter.mp hfk).2
  simp only [Bool.and_eq_true] at hkept
  exact List.contains_iff_mem.mp hkept.1.1.2

/-! ## The loop -/

/-- A pass keeps what is out, puts out items that are ready, and leaves none that is. -/
theorem sweep_released (l : List Bytes) (hl : l ⊆ orderKeys tables)
    (h : Released (orderKeys tables) (KeyParent tables schema fks) done) :
    ∃ more, l.foldl (fun done k => if done.contains k then done
        else if (parentKeys tables schema fks k).all done.contains then done ++ [k] else done) done =
          done ++ more ∧
      Released (orderKeys tables) (KeyParent tables schema fks) (done ++ more) ∧
      (more = [] → ∀ x ∈ l, x ∉ done → ∃ p, KeyParent tables schema fks x p ∧ p ∉ done) := by
  induction l generalizing done with
  | nil =>
    refine ⟨[], (List.append_nil _).symm, ?_, fun _ x hx => absurd hx List.not_mem_nil⟩
    rwa [List.append_nil]
  | cons k l ih =>
    obtain ⟨hk, hl⟩ := List.cons_subset.mp hl
    rw [List.foldl_cons]
    split_ifs with hout hready
    · obtain ⟨more, hfold, hmore, hleft⟩ := ih hl h
      refine ⟨more, hfold, hmore, fun hnil x hx hnew => ?_⟩
      rcases List.mem_cons.mp hx with rfl | hx
      · exact absurd (List.contains_iff_mem.mp hout) hnew
      · exact hleft hnil x hx hnew
    · have hnew : k ∉ done := fun hmem => hout (List.contains_iff_mem.mpr hmem)
      have hparents (p : Bytes) (hp : KeyParent tables schema fks k p) : p ∈ done :=
        List.contains_iff_mem.mp (List.all_eq_true.mp hready p hp)
      obtain ⟨more, hfold, hmore, -⟩ := ih hl (h.snoc (.ready hk hnew hparents))
      have hshape : done ++ [k] ++ more = done ++ (k :: more) := List.append_cons .. |>.symm
      rw [hshape] at hfold hmore
      exact ⟨k :: more, hfold, hmore, fun hnil => absurd hnil (List.cons_ne_nil _ _)⟩
    · obtain ⟨more, hfold, hmore, hleft⟩ := ih hl h
      refine ⟨more, hfold, hmore, fun hnil x hx hnew => ?_⟩
      rcases List.mem_cons.mp hx with rfl | hx
      · rw [List.all_eq_true] at hready
        push Not at hready
        obtain ⟨p, hp, hpnew⟩ := hready
        exact ⟨p, hp, fun hmem => hpnew (List.contains_iff_mem.mpr hmem)⟩
      · exact hleft hnil x hx hnew

/-- A round is a run of steps, and puts out one item at least while any is left. -/
theorem round_released (h : Released (orderKeys tables) (KeyParent tables schema fks) done) :
    Released (orderKeys tables) (KeyParent tables schema fks) (orderRound tables schema fks done) := by
  obtain ⟨more, hfold, hmore, hleft⟩ := sweep_released (orderKeys tables) (List.Subset.refl _) h
  have hsweep : orderSweep tables schema fks done = done ++ more := hfold
  unfold orderRound
  dsimp only
  rw [hsweep]
  split_ifs with hlength
  · have hnil : more = [] := by
      rw [List.length_append] at hlength
      exact List.length_eq_zero_iff.mp (by omega)
    cases hfind : (orderKeys tables).find? fun k => !done.contains k with
    | none => exact h
    | some k =>
      obtain ⟨hk, u, v, hkeys, hout⟩ := List.find?_eq_some_iff_append.mp hfind
      have hnew : k ∉ done := fun hmem => by
        rw [List.contains_iff_mem.mpr hmem] at hk
        cases hk
      refine h.snoc (.stuck (List.mem_of_find?_eq_some hfind) hnew (fun x hx => ?_) (hleft hnil))
      have hv : k ∉ v := by
        have hnodup := orderKeys_nodup tables
        rw [hkeys] at hnodup
        exact (List.nodup_cons.mp (List.nodup_append.mp hnodup).2.1).1
      have hu : k ∉ u := fun hmem => by
        have hkout := hout k hmem
        rw [hk] at hkout
        cases hkout
      obtain ⟨a, b, hab, hx⟩ := hx
      obtain ⟨rfl, -⟩ := (List.append_cons_inj_of_notMem hu hv).mp (hkeys.symm.trans hab)
      have hxout := hout x hx
      rw [Bool.not_not] at hxout
      exact List.contains_iff_mem.mp hxout
  · exact hmore

theorem length_sweep (done l : List Bytes) :
    done.length ≤ (l.foldl (fun done k => if done.contains k then done
      else if (parentKeys tables schema fks k).all done.contains then done ++ [k] else done)
        done).length := by
  induction l generalizing done with
  | nil => exact Nat.le_refl _
  | cons k l ih =>
    rw [List.foldl_cons]
    refine Nat.le_trans ?_ (ih _)
    split_ifs
    · exact Nat.le_refl _
    · rw [List.length_append]
      exact Nat.le_add_right _ _
    · exact Nat.le_refl _

theorem round_grows (hlt : done.length < (orderKeys tables).length) :
    done.length < (orderRound tables schema fks done).length := by
  have hle : done.length ≤ (orderSweep tables schema fks done).length := length_sweep done _
  unfold orderRound
  dsimp only
  split_ifs with hlength
  · cases hfind : (orderKeys tables).find? fun k => !done.contains k with
    | none =>
      have hsubset : orderKeys tables ⊆ done := by
        intro k hk
        have hout := List.find?_eq_none.mp hfind k hk
        rw [Bool.not_eq_true, Bool.not_eq_false'] at hout
        exact List.contains_iff_mem.mp hout
      have := ((orderKeys_nodup tables).subperm hsubset).length_le
      omega
    | some k =>
      rw [List.length_append, List.length_singleton]
      omega
  · omega

/-- The names in the order in which they come out, in lower case. -/
def releasedKeys (tables : List Bytes) (schema : Option Bytes) (fks : List FkEdge) : List Bytes :=
  WhileLoop.run (fun done => decide (done.length < (orderKeys tables).length))
    (orderRound tables schema fks) (orderKeys tables).length []

variable (tables schema fks)

theorem orderByFk_eq :
    orderByFk tables schema fks = (releasedKeys tables schema fks).map (displayName tables) := rfl

theorem releasedKeys_released :
    Released (orderKeys tables) (KeyParent tables schema fks) (releasedKeys tables schema fks) :=
  WhileLoop.Visits.inv (fun _ _ h => round_released h) (WhileLoop.visits_run _ _) .nil

/-- The loop ends, and has put every key out by then. -/
theorem releasedKeys_perm : (releasedKeys tables schema fks).Perm (orderKeys tables) := by
  have hreleased := releasedKeys_released tables schema fks
  have hshrinks (done : List Bytes) (hleft : decide (done.length < (orderKeys tables).length) = true) :
      (orderKeys tables).length - (orderRound tables schema fks done).length <
        (orderKeys tables).length - done.length := by
    have hlt := of_decide_eq_true hleft
    have hgrows : done.length < (orderRound tables schema fks done).length := round_grows hlt
    omega
  have hdone : decide ((releasedKeys tables schema fks).length < (orderKeys tables).length) = false :=
    WhileLoop.run_done (μ := fun (done : List Bytes) => (orderKeys tables).length - done.length) hshrinks
      (by rw [List.length_nil, Nat.sub_zero])
  have hlength : (orderKeys tables).length ≤ (releasedKeys tables schema fks).length :=
    Nat.le_of_not_lt (of_decide_eq_false hdone)
  exact (hreleased.nodup.subperm hreleased.subset).perm_of_length_le hlength

end Keys

/-! ## The tables -/

section Tables

variable (tables : List Bytes) (schema : Option Bytes) (fks : List FkEdge)

/-- A foreign key from one of the tables to another, in the schema that was asked for. The names are
told apart by their case. -/
def TableParent (c p : Bytes) : Prop :=
  c ∈ tables ∧ p ∈ tables ∧ c ≠ p ∧ ∃ fk ∈ fks, fk.fromTable = c ∧ fk.toTable = p ∧
    inScope schema fk.fromSchema = true ∧ inScope schema fk.toSchema = true

def Acyclic : Prop := ∀ x, ¬ Relation.TransGen (TableParent tables schema fks) x x

/-- Every parent is in front of its children. -/
def ParentsFirst (out : List Bytes) : Prop := ∀ c p, TableParent tables schema fks c p → Before out p c

/-- Every parent comes out before its child without a cycle being cut, in the graph the loop reads. -/
def ParentsSettle : Prop :=
  ∀ c p, TableParent tables schema fks c p →
    Settles (orderKeys tables) (KeyParent tables schema fks) (asciiLower c) (asciiLower p)

variable {tables schema fks} {c p t : Bytes}

theorem before_map {α β : Type*} {l : List α} {x y : α} (f : α → β) (h : Before l x y) :
    Before (l.map f) (f x) (f y) := by
  obtain ⟨u, v, rfl, hx⟩ := h
  exact ⟨u.map f, v.map f, by rw [List.map_append, List.map_cons], List.mem_map_of_mem hx⟩

variable (tables schema fks) in
/-- The keys of the names that come out. -/
theorem map_orderByFk :
    (orderByFk tables schema fks).map asciiLower = releasedKeys tables schema fks := by
  rw [orderByFk_eq, List.map_map]
  refine (List.map_congr_left fun k hk => ?_).trans (List.map_id _)
  exact (displayName_mem ((releasedKeys_perm tables schema fks).subset hk)).2

theorem displayName_lower (hfold : (tables.map asciiLower).Nodup) (ht : t ∈ tables) :
    displayName tables (asciiLower t) = t := by
  obtain ⟨hmem, hlower⟩ := displayName_mem (mem_orderKeys.mpr ⟨t, ht, rfl⟩)
  exact List.inj_on_of_nodup_map hfold hmem ht hlower

theorem orderKeys_of_nodup (hfold : (tables.map asciiLower).Nodup) :
    (orderKeys tables).Perm (tables.map asciiLower) := by
  refine ((List.perm_ext_iff_of_nodup (orderKeys_nodup tables) hfold).mpr fun k => ?_)
  rw [mem_orderKeys, List.mem_map]

variable (tables schema fks) in
/-- Each table comes out once just when no two differ in case only. -/
theorem orderByFk_perm_iff :
    (orderByFk tables schema fks).Perm tables ↔ (tables.map asciiLower).Nodup := by
  constructor
  · intro hperm
    have hkeys := hperm.map asciiLower
    rw [map_orderByFk] at hkeys
    exact hkeys.nodup_iff.mp (releasedKeys_released tables schema fks).nodup
  · intro hfold
    rw [orderByFk_eq]
    have hkeys := (releasedKeys_perm tables schema fks).trans (orderKeys_of_nodup hfold)
    have hnames : (tables.map asciiLower).map (displayName tables) = tables := by
      rw [List.map_map]
      exact (List.map_congr_left fun t ht => displayName_lower hfold ht).trans (List.map_id _)
    have hperm := hkeys.map (displayName tables)
    rwa [hnames] at hperm

theorem TableParent.key (hfold : (tables.map asciiLower).Nodup) (h : TableParent tables schema fks c p) :
    KeyParent tables schema fks (asciiLower c) (asciiLower p) := by
  obtain ⟨hc, hp, hne, fk, hfk, rfl, rfl, hfrom, hto⟩ := h
  have hkeys : asciiLower fk.fromTable ≠ asciiLower fk.toTable := fun heq =>
    hne (List.inj_on_of_nodup_map hfold hc hp heq)
  have hchild := List.contains_iff_mem.mpr (mem_orderKeys.mpr ⟨_, hc, rfl⟩)
  have hparent := List.contains_iff_mem.mpr (mem_orderKeys.mpr ⟨_, hp, rfl⟩)
  refine List.mem_map.mpr ⟨fk, List.mem_filter.mpr ⟨hfk, ?_⟩, rfl⟩
  simp only [Bool.and_eq_true]
  exact ⟨⟨⟨⟨⟨beq_self_eq_true _, bne_iff_ne.mpr hkeys⟩, hchild⟩, hparent⟩, hfrom⟩, hto⟩

/-- A parent is in front of its child just when it settles before it. -/
theorem precedes_orderByFk_iff (hfold : (tables.map asciiLower).Nodup)
    (h : TableParent tables schema fks c p) : Before (orderByFk tables schema fks) p c ↔
      Settles (orderKeys tables) (KeyParent tables schema fks) (asciiLower c) (asciiLower p) := by
  have hc : asciiLower c ∈ releasedKeys tables schema fks :=
    (releasedKeys_perm tables schema fks).symm.subset (mem_orderKeys.mpr ⟨c, h.1, rfl⟩)
  rw [← (releasedKeys_released tables schema fks).precedes_iff hc (h.key hfold)]
  constructor
  · intro hbefore
    have hkeys := before_map asciiLower hbefore
    rwa [map_orderByFk] at hkeys
  · intro hbefore
    have hnames := before_map (displayName tables) hbefore
    rwa [displayName_lower hfold h.1, displayName_lower hfold h.2.1, ← orderByFk_eq] at hnames

/-- **The tables come out once each, the parents first,** just when no two names differ in case only,
and each parent settles before its child in the graph as the loop reads it. -/
theorem order_by_fk_iff (tables : List Bytes) (schema : Option Bytes) (fks : List FkEdge) :
    ((orderByFk tables schema fks).Perm tables ∧
      (Acyclic tables schema fks → ParentsFirst tables schema fks (orderByFk tables schema fks))) ↔
    (tables.map asciiLower).Nodup ∧ (Acyclic tables schema fks → ParentsSettle tables schema fks) := by
  rw [orderByFk_perm_iff]
  refine and_congr_right fun hfold => imp_congr_right fun _ => ?_
  exact forall₂_congr fun c p => forall_congr' fun h => precedes_orderByFk_iff hfold h

/-- Of two tables whose names differ in case the first is lost. -/
theorem case_variant_lost :
    ¬ ((orderByFk [ascii "Users", ascii "users"] none []).Perm [ascii "Users", ascii "users"] ∧
      (Acyclic [ascii "Users", ascii "users"] none [] →
        ParentsFirst [ascii "Users", ascii "users"] none []
          (orderByFk [ascii "Users", ascii "users"] none []))) := by
  intro h
  have hlength := h.1.length_eq
  rw [orderByFk_eq, List.length_map, (releasedKeys_perm _ _ _).length_eq] at hlength
  exact absurd hlength (by decide)

/-- A foreign key names the tables at its ends as they were asked for. -/
def Named (tables : List Bytes) (fk : FkEdge) : Prop :=
  ∀ t ∈ tables, (asciiLower fk.fromTable = asciiLower t → fk.fromTable = t) ∧
    (asciiLower fk.toTable = asciiLower t → fk.toTable = t)

theorem KeyParent.table (hnamed : ∀ fk ∈ fks, Named tables fk) {k q : Bytes}
    (h : KeyParent tables schema fks k q) :
    TableParent tables schema fks (displayName tables k) (displayName tables q) := by
  obtain ⟨fk, hfk, rfl⟩ := List.mem_map.mp h
  obtain ⟨hmem, hkept⟩ := List.mem_filter.mp hfk
  simp only [Bool.and_eq_true, beq_iff_eq, bne_iff_ne] at hkept
  obtain ⟨⟨⟨⟨⟨rfl, hne⟩, hfrom⟩, hto⟩, hfromScope⟩, htoScope⟩ := hkept
  obtain ⟨hfromMem, hfromLower⟩ := displayName_mem (List.contains_iff_mem.mp hfrom)
  obtain ⟨htoMem, htoLower⟩ := displayName_mem (List.contains_iff_mem.mp hto)
  have hfromName := (hnamed fk hmem _ hfromMem).1 hfromLower.symm
  have htoName := (hnamed fk hmem _ htoMem).2 htoLower.symm
  refine ⟨hfromMem, htoMem, fun heq => hne ?_, fk, hmem, hfromName, htoName, hfromScope, htoScope⟩
  rw [← hfromLower, ← htoLower, heq]

/-- Where case alone tells no two names apart, the tables come out once each, the parents first. -/
theorem order_by_fk_of_named (hfold : (tables.map asciiLower).Nodup)
    (hnamed : ∀ fk ∈ fks, Named tables fk) : (orderByFk tables schema fks).Perm tables ∧
      (Acyclic tables schema fks → ParentsFirst tables schema fks (orderByFk tables schema fks)) := by
  refine ⟨(orderByFk_perm_iff tables schema fks).mpr hfold, fun hacyclic c p h => ?_⟩
  refine (precedes_orderByFk_iff hfold h).mpr ?_
  refine settles_of_acyclic (fun _ _ hkey => hkey.mem) (fun k hcycle => ?_) (h.key hfold).mem
  exact hacyclic _ (hcycle.lift (displayName tables) fun _ _ hkey => hkey.table hnamed)

end Tables

theorem orders_and_lines :
    let tables := [ascii "Lines", ascii "Orders"]
    let fks : List FkEdge := [⟨none, ascii "Lines", none, ascii "Orders", [(ascii "order", ascii "id")]⟩]
    (orderByFk tables none fks).Perm tables ∧
      (Acyclic tables none fks → ParentsFirst tables none fks (orderByFk tables none fks)) :=
  order_by_fk_of_named (by decide) (by unfold Named; decide)

end RedDb.Transfer
