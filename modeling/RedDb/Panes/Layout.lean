import RedDb.Lib.Machine
import RedDb.Panes.Edits

/-!
# RedDb — the layout of a workspace

A workspace has a tree of panes, one of which has the focus and one of which may be
zoomed. The ids of panes are counted up in a `u32` from the one that a fresh layout has,
and are never to come back.

* `valid_step_iff` — the operations that keep the layout valid;
* `layout_iff` — and so the runs that keep it throughout, in each of which a pane
  that comes and goes leaves the shape as it was;
* `counter_wraps` — the counter comes back to its first id.
-/

namespace RedDb.Panes

/-! ## The layout -/

structure PaneTree where
  root : Node
  focus : PaneId
  next : Nat
  zoom : Option PaneId

namespace PaneTree

/-- `PaneTree::new`. -/
def init : PaneTree := ⟨.leaf 0, 0, 1, none⟩

variable (t : PaneTree)

def panes : List PaneId := t.root.panes

def isSplit : Bool := t.root.axis.isSome

def normalize : PaneTree :=
  let root := normalizeNode t.root
  { t with
    root := root
    focus := if t.focus ∈ root.panes then t.focus else root.panes.head?.getD 0
    zoom := if t.zoom.any (fun z => !root.panes.contains z) || !root.axis.isSome then none
      else t.zoom }

def setFocus (pane : PaneId) : PaneTree :=
  if t.focus ≠ pane ∧ pane ∈ t.panes then { t with focus := pane } else t

def zoomToggle (pane : PaneId) : PaneTree :=
  { t with
    zoom := if t.zoom = some pane then none
      else if pane ∈ t.panes ∧ t.isSplit then some pane else none }

/-- The counter wraps as a `u32` does. -/
def insert (target : PaneId) (zone : DropZone) : Option (PaneTree × PaneId) :=
  match zone.split with
  | none => none
  | some (axis, before) =>
    if target ∈ t.panes then
      let root := (insertAt target axis before t.next t.root).getD t.root
      some (PaneTree.normalize ⟨root, t.focus, (t.next + 1) % 2 ^ 32, none⟩, t.next)
    else none

/-- The new tree, and the pane next to the one that goes. -/
def remove (pane : PaneId) : Option (PaneTree × PaneId) :=
  let order := t.panes
  if pane ∈ order ∧ 2 ≤ order.length then
    let pos := order.idxOf pane
    let heir := (if 0 < pos then order[pos - 1]? else order[pos + 1]?).getD 0
    let root := (removeAt pane t.root).getD t.root
    some (PaneTree.normalize ⟨root, if t.focus = pane then heir else t.focus, t.next,
      if t.zoom = some pane then none else t.zoom⟩, heir)
  else none

def setWeight (path : List Nat) (gutter : Nat) (leading least : ℚ) : PaneTree :=
  { t with root := (setWeightAt gutter leading least path t.root).getD t.root }

def equalize : PaneTree := { t with root := equalizeNode t.root }

end PaneTree

/-! ## Runs -/

/-- `issued` are the ids that have been given to panes, for the record. -/
structure Layout where
  tree : PaneTree
  issued : List PaneId

def Layout.init : Layout := ⟨.init, [0]⟩

/-- The operations. A tab that is moved to a new pane is an insert, and the pane that it
leaves empty a remove. -/
inductive Op where
  | insert (target : PaneId) (zone : DropZone)
  | remove (pane : PaneId)
  | setFocus (pane : PaneId)
  | zoomToggle (pane : PaneId)
  | setWeight (path : List Nat) (gutter : Nat) (leading least : ℚ)
  | equalize

/-- An operation that is refused changes nothing. -/
def step (s : Layout) : Op → Option Layout
  | .insert target zone => some <|
    match s.tree.insert target zone with
    | some (t, new) => ⟨t, s.issued ++ [new]⟩
    | none => s
  | .remove pane => some { s with tree := ((s.tree.remove pane).map Prod.fst).getD s.tree }
  | .setFocus pane => some { s with tree := s.tree.setFocus pane }
  | .zoomToggle pane => some { s with tree := s.tree.zoomToggle pane }
  | .setWeight path gutter leading least =>
    some { s with tree := s.tree.setWeight path gutter leading least }
  | .equalize => some { s with tree := s.tree.equalize }

structure Valid (s : Layout) : Prop where
  ok : s.tree.root.Ok
  unique : s.tree.panes.Nodup
  fresh : s.issued.Nodup
  known : ∀ p ∈ s.tree.panes, p ∈ s.issued
  focus : s.tree.focus ∈ s.tree.panes
  zoom : ∀ z, s.tree.zoom = some z → z ∈ s.tree.panes

/-- There is an id left for a new pane, and a divider stays inside its pair. -/
def Keeps (s : Layout) : Op → Prop
  | .insert target zone =>
    zone.split.isSome = true → target ∈ s.tree.panes → s.issued.length < 2 ^ 32
  | .setWeight path gutter leading least =>
    ∀ pair, pairAt gutter path s.tree.root = some pair → Within leading least pair
  | _ => True

/-- The counter and what it has given out. -/
structure Counted (s : Layout) : Prop where
  next : s.tree.next = s.issued.length % 2 ^ 32
  issued : s.issued = (List.range s.issued.length).map (· % 2 ^ 32)

variable {zone : DropZone} {new target : PaneId} {t' : PaneTree}

section Proofs

variable {s t : Layout}

/-! ## The counter -/

theorem Counted.init : Counted .init := ⟨rfl, rfl⟩

/-- The counter comes back to an id when all of them have been given out. -/
theorem Counted.next_fresh_iff (h : Counted s) :
    s.tree.next ∉ s.issued ↔ s.issued.length < 2 ^ 32 := by
  have hmem : s.tree.next ∈ s.issued ↔
      ∃ k < s.issued.length, k % 2 ^ 32 = s.issued.length % 2 ^ 32 := by
    rw [h.next]
    conv_lhs => rw [h.issued]
    simp
  rw [hmem]
  constructor
  · intro hnone
    by_contra hall
    have hlen := not_lt.mp hall
    have hpos : 0 < 2 ^ 32 := by norm_num
    refine hnone ⟨s.issued.length % 2 ^ 32, ?_, Nat.mod_mod _ _⟩
    exact Nat.lt_of_lt_of_le (Nat.mod_lt _ hpos) hlen
  · rintro hlen ⟨k, hk, heq⟩
    rw [Nat.mod_eq_of_lt hlen, Nat.mod_eq_of_lt (hk.trans hlen)] at heq
    exact Nat.lt_irrefl _ (heq ▸ hk)

theorem insert_some {t : PaneTree}
    (h : t.insert target zone = some (t', new)) : ∃ axis before, zone.split = some (axis, before) ∧
      target ∈ t.panes ∧ new = t.next ∧ t' = PaneTree.normalize
        ⟨(insertAt target axis before t.next t.root).getD t.root, t.focus,
          (t.next + 1) % 2 ^ 32, none⟩ := by
  unfold PaneTree.insert at h
  split at h
  · exact absurd h.symm (Option.some_ne_none _)
  rename_i axis before hsplit
  obtain ⟨hmem, h⟩ := Option.ite_none_right_eq_some.mp h
  obtain ⟨rfl, rfl⟩ := Prod.mk.inj (Option.some.inj h)
  exact ⟨axis, before, hsplit, hmem, rfl, rfl⟩

theorem remove_next (t : PaneTree) (pane : PaneId) :
    (((t.remove pane).map Prod.fst).getD t).next = t.next := by
  unfold PaneTree.remove
  simp only
  split <;> rfl

theorem Counted.step {op : Op} (h : Counted s) (hstep : step s op = some t) : Counted t := by
  cases op with
  | insert target zone =>
    obtain rfl := Option.some.inj hstep
    split
    · rename_i t' new hinsert
      obtain ⟨axis, before, -, -, rfl, rfl⟩ := insert_some hinsert
      constructor
      · show (s.tree.next + 1) % 2 ^ 32 = (s.issued ++ [s.tree.next]).length % 2 ^ 32
        rw [h.next, List.length_append, List.length_singleton, Nat.mod_add_mod]
      · show s.issued ++ [s.tree.next] =
          (List.range (s.issued ++ [s.tree.next]).length).map (· % 2 ^ 32)
        rw [List.length_append, List.length_singleton, List.range_succ, List.map_append, ← h.issued,
          h.next]
        rfl
    · exact h
  | remove pane =>
    obtain rfl := Option.some.inj hstep
    exact ⟨(remove_next s.tree pane).trans h.next, h.issued⟩
  | setFocus pane =>
    obtain rfl := Option.some.inj hstep
    refine ⟨Eq.trans ?_ h.next, h.issued⟩
    show (s.tree.setFocus pane).next = _
    unfold PaneTree.setFocus
    split <;> rfl
  | zoomToggle pane | setWeight path gutter leading least | equalize =>
    obtain rfl := Option.some.inj hstep
    exact ⟨h.next, h.issued⟩

/-! ## The operations that keep the layout valid -/

theorem Node.Ok.panes_ne_nil {n : Node} (h : n.Ok) : n.panes ≠ [] := by
  induction h with
  | leaf id => exact List.cons_ne_nil id []
  | split a children two shares flat nodes ih =>
    obtain ⟨c, hc⟩ := List.exists_mem_of_ne_nil children shares.ne_nil
    obtain ⟨p, hp⟩ := List.exists_mem_of_ne_nil _ (ih c hc)
    rw [panes_split]
    exact List.ne_nil_of_mem (List.mem_flatMap.mpr ⟨c, hc, hp⟩)

/-- What `normalize` leaves is valid, if its panes are. -/
theorem normalize_valid {t : PaneTree} {issued : List PaneId} (hloose : t.root.Loose)
    (hunique : t.root.panes.Nodup) (hfresh : issued.Nodup)
    (hknown : ∀ p ∈ t.root.panes, p ∈ issued) : Valid ⟨t.normalize, issued⟩ := by
  obtain ⟨hok, hpanes⟩ := normalizeNode_ok hloose
  have hroot : t.normalize.panes = t.root.panes := hpanes
  refine ⟨hok, hroot ▸ hunique, hfresh, hroot ▸ hknown, ?_, fun z hz => ?_⟩
  · show (if t.focus ∈ (normalizeNode t.root).panes then t.focus
      else (normalizeNode t.root).panes.head?.getD 0) ∈ (normalizeNode t.root).panes
    split
    · assumption
    · obtain ⟨p, rest, hcons⟩ := List.exists_cons_of_ne_nil hok.panes_ne_nil
      rw [hcons]
      exact List.mem_cons_self
  · have hzoom : (if t.zoom.any (fun z => !(normalizeNode t.root).panes.contains z) ||
        !(normalizeNode t.root).axis.isSome then none else t.zoom) = some z := hz
    split at hzoom
    · exact absurd hzoom.symm (Option.some_ne_none z)
    rename_i hcond
    rw [hzoom] at hcond
    rw [Bool.or_eq_true, not_or] at hcond
    show z ∈ (normalizeNode t.root).panes
    simpa using hcond.1

theorem insert_safe (h : Valid s)
    (hinsert : s.tree.insert target zone = some (t', new)) (hnew : new ∉ s.issued) :
    Valid ⟨t', s.issued ++ [new]⟩ := by
  obtain ⟨axis, before, -, hmem, rfl, rfl⟩ := insert_some hinsert
  obtain ⟨n, hn⟩ := Option.isSome_iff_exists.mp (insertAt_isSome axis before s.tree.next
    h.ok hmem)
  have hgrown := insertAt_ok h.ok hn
  have hperm : n.panes.Perm (s.tree.next :: s.tree.panes) := hgrown.panes
  have hroot : (insertAt target axis before s.tree.next s.tree.root).getD s.tree.root = n := by
    rw [hn]
    rfl
  rw [hroot]
  refine normalize_valid hgrown.ok.loose ?_ ?_ fun p hp => ?_
  · exact hperm.nodup_iff.mpr (List.nodup_cons.mpr
      ⟨fun hin => hnew (h.known _ hin), h.unique⟩)
  · exact (List.perm_append_singleton _ _).nodup_iff.mpr (List.nodup_cons.mpr ⟨hnew, h.fresh⟩)
  · rcases List.mem_cons.mp (hperm.subset hp) with rfl | hp
    · exact List.mem_append_right _ List.mem_cons_self
    · exact List.mem_append_left _ (h.known p hp)

theorem insert_valid_iff (hcount : Counted s) (h : Valid s)
    (hstep : step s (.insert target zone) = some t) : Valid t ↔ Keeps s (.insert target zone) := by
  obtain rfl := Option.some.inj hstep
  split
  · rename_i t' new hinsert
    obtain ⟨axis, before, hsplit, hmem, hnext, -⟩ := insert_some hinsert
    have hkeeps : Keeps s (.insert target zone) ↔ new ∉ s.issued := by
      rw [hnext, hcount.next_fresh_iff]
      exact ⟨fun hk => hk (by rw [hsplit]; rfl) hmem, fun hk _ _ => hk⟩
    rw [hkeeps]
    constructor
    · intro ht
      have hnodup : (new :: s.issued).Nodup :=
        (List.perm_append_singleton new s.issued).nodup_iff.mp ht.fresh
      exact (List.nodup_cons.mp hnodup).1
    · exact insert_safe h hinsert
  · rename_i hnone
    refine iff_of_true h fun hzone hmem => ?_
    unfold PaneTree.insert at hnone
    split at hnone
    · rename_i hsplit
      rw [hsplit] at hzone
      exact absurd hzone Bool.false_ne_true
    · rw [if_pos hmem] at hnone
      exact absurd hnone (Option.some_ne_none _)

theorem remove_valid (h : Valid s) (pane : PaneId) :
    Valid { s with tree := ((s.tree.remove pane).map Prod.fst).getD s.tree } := by
  unfold PaneTree.remove
  simp only
  split
  · rename_i hcond
    obtain ⟨hmem, htwo⟩ := hcond
    have hnot : s.tree.root ≠ .leaf pane := by
      intro hleaf
      have hlen : s.tree.panes.length = 1 := by
        unfold PaneTree.panes
        rw [hleaf]
        rfl
      omega
    obtain ⟨n, hn⟩ := Option.isSome_iff_exists.mp (removeAt_isSome h.ok hmem hnot)
    obtain ⟨hloose, hperm⟩ := removeAt_loose h.ok hn
    have hroot : (removeAt pane s.tree.root).getD s.tree.root = n := by
      rw [hn]
      rfl
    rw [hroot]
    have hnodup := hperm.nodup_iff.mp h.unique
    exact normalize_valid hloose (List.nodup_cons.mp hnodup).2 h.fresh
      fun p hp => h.known p (hperm.symm.subset (List.mem_cons_of_mem pane hp))
  · exact h

theorem setWeight_valid_iff {path : List Nat} {gutter : Nat} {leading least : ℚ} (h : Valid s) :
    Valid { s with tree := s.tree.setWeight path gutter leading least } ↔
      Keeps s (.setWeight path gutter leading least) := by
  show _ ↔ ∀ pair, pairAt gutter path s.tree.root = some pair → Within leading least pair
  unfold PaneTree.setWeight
  cases hset : setWeightAt gutter leading least path s.tree.root with
  | none =>
    refine iff_of_true ⟨h.ok, h.unique, h.fresh, h.known, h.focus, h.zoom⟩ fun pair hpair => ?_
    have hsome : (setWeightAt gutter leading least path s.tree.root).isSome = true :=
      setWeightAt_isSome hpair
    rw [hset] at hsome
    exact absurd hsome Bool.false_ne_true
  | some n =>
    obtain ⟨hpanes, -, pair, hpair, hiff⟩ := setWeightAt_ok h.ok hset
    rw [hpair]
    have hwithin : (∀ p, some pair = some p → Within leading least p) ↔ n.Ok := by
      rw [hiff]
      constructor
      · exact fun hall => hall pair rfl
      · rintro hw p hp
        obtain rfl := Option.some.inj hp
        exact hw
    rw [hwithin]
    refine ⟨fun ht => ht.ok, fun hok => ⟨hok, ?_, h.fresh, ?_, ?_, ?_⟩⟩
    · show n.panes.Nodup
      rw [hpanes]
      exact h.unique
    · show ∀ p ∈ n.panes, p ∈ s.issued
      rw [hpanes]
      exact h.known
    · show s.tree.focus ∈ n.panes
      rw [hpanes]
      exact h.focus
    · show ∀ z, s.tree.zoom = some z → z ∈ n.panes
      rw [hpanes]
      exact h.zoom

/-- **The operations that keep the layout valid.** -/
theorem valid_step_iff {op : Op} (hcount : Counted s) (h : Valid s)
    (hstep : step s op = some t) : Valid t ↔ Keeps s op := by
  cases op with
  | insert target zone => exact insert_valid_iff hcount h hstep
  | remove pane =>
    obtain rfl := Option.some.inj hstep
    exact iff_of_true (remove_valid h pane) trivial
  | setFocus pane =>
    obtain rfl := Option.some.inj hstep
    refine iff_of_true ?_ trivial
    show Valid { s with tree := s.tree.setFocus pane }
    unfold PaneTree.setFocus
    split
    · rename_i hcond
      exact ⟨h.ok, h.unique, h.fresh, h.known, hcond.2, h.zoom⟩
    · exact h
  | zoomToggle pane =>
    obtain rfl := Option.some.inj hstep
    refine iff_of_true ⟨h.ok, h.unique, h.fresh, h.known, h.focus, fun z hz => ?_⟩ trivial
    have hzoom : (if s.tree.zoom = some pane then none
      else if pane ∈ s.tree.panes ∧ s.tree.isSplit then some pane else none) = some z := hz
    split at hzoom
    · exact absurd hzoom.symm (Option.some_ne_none z)
    · obtain ⟨hcond, hz⟩ := Option.ite_none_right_eq_some.mp hzoom
      obtain rfl := Option.some.inj hz
      exact hcond.1
  | setWeight path gutter leading least =>
    obtain rfl := Option.some.inj hstep
    exact setWeight_valid_iff h
  | equalize =>
    obtain rfl := Option.some.inj hstep
    refine iff_of_true ?_ trivial
    obtain ⟨hok, hpanes, -⟩ := equalizeNode_ok h.ok
    have hroot : s.tree.equalize.panes = s.tree.panes := hpanes
    exact ⟨hok, hroot ▸ h.unique, h.fresh, hroot ▸ h.known, hroot ▸ h.focus, hroot ▸ h.zoom⟩

theorem init_valid : Valid .init where
  ok := .leaf 0
  unique := List.pairwise_singleton _ 0
  fresh := List.pairwise_singleton _ 0
  known _ hp := hp
  focus := List.mem_cons_self
  zoom _ hz := absurd hz.symm (Option.some_ne_none _)

/-- A pane that comes and goes. -/
theorem remove_insert (h : Valid s)
    (hinsert : s.tree.insert target zone = some (t', new)) (hnew : new ∉ s.issued) :
    ∃ t'' heir, t'.remove new = some (t'', heir) ∧ t''.root.shape = s.tree.root.shape := by
  have hvalid := insert_safe h hinsert hnew
  obtain ⟨axis, before, -, hmem, rfl, rfl⟩ := insert_some hinsert
  have habsent : s.tree.next ∉ s.tree.root.panes := fun hin => hnew (h.known _ hin)
  obtain ⟨n, hn⟩ := Option.isSome_iff_exists.mp (insertAt_isSome axis before s.tree.next
    h.ok hmem)
  have hgrown := insertAt_ok h.ok hn
  obtain ⟨n', hn', hrestored⟩ := removeAt_insertAt h.ok habsent hn
  rw [hn] at hvalid ⊢
  show ∃ t'' heir, (PaneTree.normalize ⟨n, _, _, none⟩).remove s.tree.next = _ ∧ _
  have hroot : (PaneTree.normalize ⟨n, s.tree.focus, (s.tree.next + 1) % 2 ^ 32, none⟩).root = n :=
    hgrown.ok.normalize
  have hin : s.tree.next ∈ n.panes := hgrown.panes.symm.subset List.mem_cons_self
  have htwo : 2 ≤ n.panes.length := by
    rw [hgrown.panes.length_eq, List.length_cons]
    have hpos := List.length_pos_iff.mpr h.ok.panes_ne_nil
    omega
  unfold PaneTree.remove
  simp only [PaneTree.panes, hroot]
  rw [if_pos ⟨hin, htwo⟩, hn']
  exact ⟨_, _, rfl, hrestored.shape⟩

theorem keeps_of_idle {op : Op} (h : step s op = none) : Keeps s op := by
  cases op <;> exact absurd h (Option.some_ne_none _)

end Proofs

/-- **A layout stays valid exactly in the runs in which** no pane is made once all ids
have been given out, and every divider stays inside its pair. In these a pane that comes
and goes leaves the shape as it was. -/
theorem layout_iff (ops : List Op) :
    (Machine.Always step Valid .init ops ↔ Machine.Meets step Keeps .init ops) ∧
      (Machine.Meets step Keeps .init ops → ∀ s, Machine.run step .init ops = some s →
        ∀ target zone t new, Keeps s (.insert target zone) →
          s.tree.insert target zone = some (t, new) →
            ∃ t' heir, t.remove new = some (t', heir) ∧ t'.root.shape = s.tree.root.shape) := by
  have hiff : Machine.Always step Valid .init ops ↔ Machine.Meets step Keeps .init ops :=
    Machine.always_iff_of_inv (fun _ _ _ hcount hstep => hcount.step hstep)
      (fun _ _ _ hcount h hstep => valid_step_iff hcount h hstep) (fun _ _ h => keeps_of_idle h)
      Counted.init init_valid
  refine ⟨hiff, fun hmeets s hs target zone t new hkeeps hinsert => ?_⟩
  have hvalid : Valid s := Machine.always_run (hiff.mpr hmeets) hs
  have hcount : Counted s := Machine.run_invariant
    (fun _ _ _ hcount _ hstep => hcount.step hstep) Counted.init hmeets hs
  refine remove_insert hvalid hinsert ?_
  obtain ⟨axis, before, hsplit, hmem, rfl, -⟩ := insert_some hinsert
  exact hcount.next_fresh_iff.mpr (hkeeps (by rw [hsplit]; rfl) hmem)

/-! ## The counter comes back -/

/-- A pane is split off to the right and closed again, `n` times from id `k` on. -/
def churn : Nat → Nat → List Op
  | _, 0 => []
  | k, n + 1 => .insert 0 .right :: .remove k :: churn (k + 1) n

/-- A valid layout with the first pane alone. -/
structure Alone (k : Nat) (s : Layout) : Prop where
  counted : Counted s
  valid : Valid s
  root : s.tree.root = .leaf 0
  issued : s.issued.length = k

theorem eq_leaf_of_shape {n : Node} {id : PaneId} (h : n.shape = .leaf id) : n = .leaf id := by
  cases n with
  | leaf pane => exact h
  | split a children => exact Node.noConfusion h

theorem Alone.round {k : Nat} {s : Layout} (h : Alone k s) (hk : k < 2 ^ 32) :
    ∃ t, Machine.run step s [.insert 0 .right, .remove k] = some t ∧ Alone (k + 1) t := by
  have hfresh : s.tree.next ∉ s.issued := h.counted.next_fresh_iff.mpr (h.issued.symm ▸ hk)
  have hnext : s.tree.next = k := by
    rw [h.counted.next, h.issued, Nat.mod_eq_of_lt hk]
  have hmem : 0 ∈ s.tree.panes := by
    unfold PaneTree.panes
    rw [h.root]
    exact List.mem_cons_self
  obtain ⟨t, hinsert⟩ : ∃ t, s.tree.insert 0 .right = some (t, s.tree.next) :=
    ⟨_, if_pos hmem⟩
  obtain ⟨t', heir, hremove, hshape⟩ := remove_insert h.valid hinsert hfresh
  have hstep : step s (.insert 0 .right) = some ⟨t, s.issued ++ [s.tree.next]⟩ := by
    simp only [step, hinsert]
  have hstep' : step ⟨t, s.issued ++ [s.tree.next]⟩ (.remove k) =
      some ⟨t', s.issued ++ [s.tree.next]⟩ := by
    rw [hnext] at hremove
    simp only [step, hremove, Option.map_some, Option.getD_some]
  have hvalid : Valid ⟨t, s.issued ++ [s.tree.next]⟩ := insert_safe h.valid hinsert hfresh
  have hcount : Counted ⟨t, s.issued ++ [s.tree.next]⟩ := h.counted.step hstep
  have hroot : t'.root = .leaf 0 := by
    rw [h.root] at hshape
    exact eq_leaf_of_shape hshape
  have hlength : (s.issued ++ [s.tree.next]).length = k + 1 := by
    rw [List.length_append, List.length_singleton, h.issued]
  refine ⟨⟨t', s.issued ++ [s.tree.next]⟩, ?_, hcount.step hstep', ?_, hroot, hlength⟩
  · exact Machine.run_cons.mpr ⟨_, hstep, Machine.run_cons.mpr ⟨_, hstep', Machine.run_nil.mpr rfl⟩⟩
  · exact (valid_step_iff hcount hvalid hstep').mpr trivial

theorem Alone.churn {k n : Nat} {s : Layout} (h : Alone k s) (hn : k + n ≤ 2 ^ 32) :
    ∃ t, Machine.run step s (churn k n) = some t ∧ Alone (k + n) t := by
  induction n generalizing k s with
  | zero => exact ⟨s, Machine.run_nil.mpr rfl, h⟩
  | succ n ih =>
    obtain ⟨t, ht, halone⟩ := h.round (by omega)
    obtain ⟨u, hu, hlast⟩ := ih halone (by omega)
    refine ⟨u, ?_, by rw [Nat.add_succ, ← Nat.succ_add]; exact hlast⟩
    exact Machine.run_append.mpr ⟨t, ht, hu⟩

/-- **The counter comes back** to the id of the first pane, which is still there. -/
theorem counter_wraps : ¬Machine.Always step Valid .init
    (churn 1 (2 ^ 32 - 1) ++ [.insert 0 .right]) := by
  intro h
  have hinit : Alone 1 .init := ⟨Counted.init, init_valid, rfl, rfl⟩
  obtain ⟨s, hs, halone⟩ := hinit.churn (n := 2 ^ 32 - 1) (by omega)
  have hmem : 0 ∈ s.tree.panes := by
    unfold PaneTree.panes
    rw [halone.root]
    exact List.mem_cons_self
  obtain ⟨t, hstep⟩ : ∃ t, step s (.insert 0 .right) = some t := ⟨_, rfl⟩
  have hvalid := Machine.always_run h (Machine.run_append.mpr
    ⟨s, hs, Machine.run_cons.mpr ⟨t, hstep, Machine.run_nil.mpr rfl⟩⟩)
  have hkeeps : s.issued.length < 2 ^ 32 :=
    (valid_step_iff halone.counted halone.valid hstep).mp hvalid rfl hmem
  rw [halone.issued] at hkeeps
  omega

end RedDb.Panes
