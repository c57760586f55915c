import Mathlib.Data.List.Perm.Basic
import Mathlib.Tactic.Ring
import RedDb.Panes.Tree

/-!
# RedDb — panes that come and go

* `insertAt_ok` — a new leaf keeps the tree in order;
* `removeAt_loose` — a leaf that goes leaves a loose tree behind;
* `setWeightAt_ok` — a divider that moves within its pair keeps the tree in order;
* `equalizeNode_ok` — and so do even shares;
* `removeAt_insertAt` — a leaf that comes and goes leaves the shape as it was.
-/

namespace RedDb.Panes

/-! ## A new leaf -/

variable {c : Child} {children post pre : List Child} {n : Node} {a : SplitAxis}

section Insert

variable {target : PaneId} {axis : SplitAxis} {before : Bool} {new : PaneId}

/-- A new leaf next to a leaf of the split. -/
theorem insertAt_beside (hpre : ∀ d ∈ pre, d.node ≠ .leaf target) (hc : c.node = .leaf target) :
    insertAt target axis before new (.split axis (pre ++ c :: post)) =
      some (.split axis (pre ++ pairOf (c.weight * (1 / 2)) target before new ++ post)) := by
  rw [insertAt, span_at hpre hc, beq_self_eq_true]

theorem insertAt_inside (h : a ≠ axis ∨ ∀ c ∈ children, c.node ≠ .leaf target) :
    insertAt target axis before new (.split a children) =
      (editFirst (insertAt target axis before new) children).map (.split a) := by
  rw [insertAt, ← insertAny_eq]
  rcases h with h | h
  · rw [beq_eq_false_iff_ne.mpr h]
  · rw [span_none h]
    cases a == axis <;> rfl

theorem pairOf_nodes {w : ℚ} (h : c ∈ pairOf w target before new) :
    c.weight = w ∧ (c.node = .leaf target ∨ c.node = .leaf new) := by
  cases before with
  | true =>
    rcases List.mem_cons.mp h with rfl | h
    · exact ⟨rfl, Or.inr rfl⟩
    · rw [List.mem_singleton.mp h]
      exact ⟨rfl, Or.inl rfl⟩
  | false =>
    rcases List.mem_cons.mp h with rfl | h
    · exact ⟨rfl, Or.inl rfl⟩
    · rw [List.mem_singleton.mp h]
      exact ⟨rfl, Or.inr rfl⟩

theorem pairOf_weight (w : ℚ) : totalWeight (pairOf w target before new) = w + w := by
  cases before with
  | true | false => exact congrArg (w + ·) (add_zero w)

theorem pairOf_panes (w : ℚ) :
    ((pairOf w target before new).flatMap fun c => c.node.panes).Perm [new, target] := by
  cases before with
  | true => exact List.Perm.refl _
  | false => exact List.Perm.swap _ _ _

/-- What a new leaf makes of a tree in order. -/
structure Grown (n n' : Node) (axis : SplitAxis) (new : PaneId) : Prop where
  ok : n'.Ok
  panes : n'.panes.Perm (new :: n.panes)
  axis : n'.axis = some axis ∧ n.axis = none ∨ n'.axis = n.axis ∧ n.axis ≠ none

theorem Shares.replace {pre post : List Child} {c : Child} {n : Node}
    (h : Shares (pre ++ c :: post)) : Shares (pre ++ .mk c.weight n :: post) := by
  constructor
  · intro d hd
    rcases List.mem_append.mp hd with hd | hd
    · exact h.positive d (List.mem_append_left _ hd)
    · rcases List.mem_cons.mp hd with rfl | hd
      · exact h.positive c List.mem_append_cons_self
      · exact h.positive d (List.mem_append_right _ (List.mem_cons_of_mem c hd))
  · have htotal := h.total
    rw [totalWeight_append, totalWeight_cons] at htotal ⊢
    exact htotal

theorem mem_replaced {d : Child}
    (h : d ∈ pre ++ .mk c.weight n :: post) : d = .mk c.weight n ∨ d ∈ pre ++ c :: post := by
  rcases List.mem_append.mp h with h | h
  · exact Or.inr (List.mem_append_left _ h)
  · rcases List.mem_cons.mp h with rfl | h
    · exact Or.inl rfl
    · exact Or.inr (List.mem_append_right _ (List.mem_cons_of_mem c h))

theorem panes_replaced {new : PaneId} (h : n.panes.Perm (new :: c.node.panes)) :
    (Node.split a (pre ++ .mk c.weight n :: post)).panes.Perm
      (new :: (Node.split a (pre ++ c :: post)).panes) := by
  rw [panes_split, panes_split, List.flatMap_append, List.flatMap_append, List.flatMap_cons,
    List.flatMap_cons]
  show (_ ++ (n.panes ++ _)).Perm _
  refine ((h.append_right _).append_left _).trans ?_
  exact List.perm_middle

theorem grown_beside (hc : c.node = .leaf target) (shares : Shares (pre ++ c :: post))
    (flat : ∀ d ∈ pre ++ c :: post, d.node.axis ≠ some axis)
    (nodes : ∀ d ∈ pre ++ c :: post, d.node.Ok) : Grown (.split axis (pre ++ c :: post))
      (.split axis (pre ++ pairOf (c.weight * (1 / 2)) target before new ++ post)) axis new := by
  have hcase : ∀ d ∈ pre ++ pairOf (c.weight * (1 / 2)) target before new ++ post,
      d ∈ pre ++ c :: post ∨
        d.weight = c.weight * (1 / 2) ∧ (d.node = .leaf target ∨ d.node = .leaf new) := by
    intro d hd
    rcases List.mem_append.mp hd with hd | hd
    · rcases List.mem_append.mp hd with hd | hd
      · exact Or.inl (List.mem_append_left _ hd)
      · exact Or.inr (pairOf_nodes hd)
    · exact Or.inl (List.mem_append_right _ (List.mem_cons_of_mem c hd))
  have hpos := shares.positive c List.mem_append_cons_self
  refine ⟨.split axis _ ?_ ⟨fun d hd => ?_, ?_⟩ (fun d hd => ?_) fun d hd => ?_, ?_,
    Or.inr ⟨rfl, (Option.some_ne_none axis)⟩⟩
  · have hlen : (pairOf (c.weight * (1 / 2)) target before new).length = 2 := by
      cases before <;> rfl
    rw [List.length_append, List.length_append, hlen]
    omega
  · rcases hcase d hd with hd | ⟨hw, -⟩
    · exact shares.positive d hd
    · rw [hw]
      linarith
  · have htotal := shares.total
    rw [totalWeight_append, totalWeight_cons] at htotal
    rw [totalWeight_append, totalWeight_append, pairOf_weight]
    linarith
  · rcases hcase d hd with hd | ⟨-, hleaf | hleaf⟩
    · exact flat d hd
    · rw [hleaf]
      exact (Option.some_ne_none axis).symm
    · rw [hleaf]
      exact (Option.some_ne_none axis).symm
  · rcases hcase d hd with hd | ⟨-, hleaf | hleaf⟩
    · exact nodes d hd
    · rw [hleaf]
      exact .leaf target
    · rw [hleaf]
      exact .leaf new
  · rw [panes_split, panes_split, List.flatMap_append, List.flatMap_append, List.flatMap_append,
      List.flatMap_cons, hc, List.append_assoc]
    refine (((pairOf_panes _).append_right _).append_left _).trans ?_
    exact List.perm_middle

/-- **A new leaf keeps the tree in order.** -/
theorem insertAt_ok (h : n.Ok) : ∀ {n' : Node},
    insertAt target axis before new n = some n' → Grown n n' axis new := by
  induction h with
  | leaf id =>
    intro n' hn
    obtain ⟨rfl, hn⟩ := Option.ite_none_right_eq_some.mp hn
    cases hn
    refine ⟨.split axis _ ?_ ⟨fun d hd => ?_, ?_⟩ (fun d hd => ?_) fun d hd => ?_, ?_,
      Or.inl ⟨rfl, rfl⟩⟩
    · cases before <;> exact Nat.le_refl 2
    · rw [(pairOf_nodes hd).1]
      norm_num
    · rw [pairOf_weight]
      norm_num
    · rcases (pairOf_nodes hd).2 with hleaf | hleaf
      · rw [hleaf]
        exact (Option.some_ne_none axis).symm
      · rw [hleaf]
        exact (Option.some_ne_none axis).symm
    · rcases (pairOf_nodes hd).2 with hleaf | hleaf
      · rw [hleaf]
        exact .leaf _
      · rw [hleaf]
        exact .leaf _
    · rw [panes_split]
      exact pairOf_panes _
  | split a children two shares flat nodes ih =>
    intro n' hn
    by_cases hbeside : a = axis ∧ ∃ c ∈ children, c.node = .leaf target
    · obtain ⟨rfl, hleaf⟩ := hbeside
      obtain ⟨pre, c, post, rfl, hpre, hc⟩ := exists_first hleaf
      rw [insertAt_beside hpre hc] at hn
      cases hn
      exact grown_beside hc shares flat nodes
    have hinside : a ≠ axis ∨ ∀ c ∈ children, c.node ≠ .leaf target := by
      by_contra hnot
      push Not at hnot
      exact hbeside hnot
    rw [insertAt_inside hinside] at hn
    obtain ⟨slots, hslots, rfl⟩ := Option.map_eq_some_iff.mp hn
    obtain ⟨pre, c, m, post, rfl, -, hm, rfl⟩ := editFirst_some hslots
    have hmem : c ∈ pre ++ c :: post := List.mem_append_cons_self
    have hgrown := ih c hmem hm
    refine ⟨.split a _ ?_ shares.replace (fun d hd => ?_) fun d hd => ?_,
      panes_replaced hgrown.panes, Or.inr ⟨rfl, Option.some_ne_none a⟩⟩
    · rw [List.length_append, List.length_cons] at two ⊢
      exact two
    · rcases mem_replaced hd with rfl | hd
      · -- below a split of this axis there is a split already, or a leaf elsewhere
        show m.axis ≠ some a
        rcases hgrown.axis with ⟨hnew, hold⟩ | ⟨hsame, -⟩
        · rw [hnew]
          rintro heq
          cases heq
          rcases hinside with hne | hnone
          · exact hne rfl
          cases hnode : c.node with
          | leaf id =>
            rw [hnode] at hm
            obtain ⟨rfl, -⟩ := Option.ite_none_right_eq_some.mp hm
            exact hnone c hmem hnode
          | split b inner =>
            rw [hnode] at hold
            cases hold
        · rw [hsame]
          exact flat c hmem
      · exact flat d hd
    · rcases mem_replaced hd with rfl | hd
      · exact hgrown.ok
      · exact nodes d hd

theorem insertAt_isSome (axis : SplitAxis) (before : Bool) (new : PaneId) (h : n.Ok) (hmem : target ∈ n.panes) :
    (insertAt target axis before new n).isSome = true := by
  induction h with
  | leaf id =>
    have hid : id = target := (List.mem_singleton.mp hmem).symm
    rw [insertAt, if_pos hid]
    rfl
  | split a children two shares flat nodes ih =>
    by_cases hbeside : a = axis ∧ ∃ c ∈ children, c.node = .leaf target
    · obtain ⟨rfl, hleaf⟩ := hbeside
      obtain ⟨pre, c, post, rfl, hpre, hc⟩ := exists_first hleaf
      rw [insertAt_beside hpre hc]
      rfl
    have hinside : a ≠ axis ∨ ∀ c ∈ children, c.node ≠ .leaf target := by
      by_contra hnot
      push Not at hnot
      exact hbeside hnot
    rw [panes_split] at hmem
    obtain ⟨c, hc, hin⟩ := List.mem_flatMap.mp hmem
    obtain ⟨pre, d, m, post, rfl, hpre, hd⟩ := exists_edited ⟨c, hc, ih c hc hin⟩
    rw [insertAt_inside hinside, editFirst_at hpre hd]
    rfl

end Insert

/-! ## A leaf that goes -/

variable {freed : ℚ}

section Remove

variable {pane : PaneId}

theorem removeAt_here (a : SplitAxis) {pre : List Child} (post : List Child) {c : Child}
    (hpre : ∀ d ∈ pre, d.node ≠ .leaf pane) (hc : c.node = .leaf pane) :
    removeAt pane (.split a (pre ++ c :: post)) =
      some (.split a (share c.weight (pre ++ post))) := by
  rw [removeAt, span_at hpre hc]

theorem removeAt_inside (h : ∀ c ∈ children, c.node ≠ .leaf pane) :
    removeAt pane (.split a children) = (editFirst (removeAt pane) children).map (.split a) := by
  rw [removeAt, span_none h, ← removeAny_eq]

theorem totalWeight_share (h : 0 < totalWeight children) :
    totalWeight (share freed children) = totalWeight children + freed := by
  have hsum : (share freed children).map Child.weight =
      children.map fun c => c.weight + freed / totalWeight children * c.weight := by
    unfold share
    rw [if_pos h, List.map_map]
    refine List.map_congr_left fun c _ => ?_
    show c.weight + freed * c.weight / totalWeight children = _
    ring
  unfold totalWeight at hsum h ⊢
  rw [hsum, List.sum_map_add, List.sum_map_mul_left]
  show (children.map Child.weight).sum +
    freed / (children.map Child.weight).sum * (children.map Child.weight).sum = _
  rw [div_mul_cancel₀ freed h.ne']

theorem share_nodes : (share freed children).map Child.node = children.map Child.node := by
  unfold share
  split
  · rw [List.map_map]
    rfl
  · rfl

theorem share_spec (hpos : ∀ c ∈ children, 0 < c.weight)
    (hne : children ≠ []) (hfreed : 0 < freed) (htotal : totalWeight children + freed = 1) :
    Shares (share freed children) := by
  have hsum := totalWeight_pos hpos hne
  refine ⟨fun c hc => ?_, (totalWeight_share hsum).trans htotal⟩
  unfold share at hc
  rw [if_pos hsum] at hc
  obtain ⟨d, hd, rfl⟩ := List.mem_map.mp hc
  have hd := hpos d hd
  exact add_pos hd (div_pos (mul_pos hfreed hd) hsum)

theorem mem_share (h : c ∈ share freed children) : ∃ d ∈ children, d.node = c.node := by
  have hnode : c.node ∈ (share freed children).map Child.node := List.mem_map_of_mem h
  rw [share_nodes] at hnode
  exact List.mem_map.mp hnode

theorem flatMap_nodes (children : List Child) :
    (children.flatMap fun c => c.node.panes) =
      (children.map Child.node).flatMap Node.panes := (List.flatMap_map ..).symm

/-- Without one of two children or more there are shares for the rest. -/
theorem share_rest (two : 2 ≤ (pre ++ c :: post).length)
    (shares : Shares (pre ++ c :: post)) : Shares (share c.weight (pre ++ post)) := by
  have htotal := shares.total
  rw [totalWeight_append, totalWeight_cons] at htotal
  refine share_spec (fun d hd => shares.positive d ?_) (fun hnil => ?_)
    (shares.positive c List.mem_append_cons_self) ?_
  · exact ((List.sublist_cons_self c post).append_left pre).subset hd
  · rw [List.length_append, List.length_cons] at two
    have hlen := congrArg List.length hnil
    rw [List.length_append, List.length_nil] at hlen
    omega
  · rw [totalWeight_append]
    linarith

/-- **A leaf that goes** leaves a loose tree, without its pane. -/
theorem removeAt_loose (h : n.Ok) : ∀ {n' : Node}, removeAt pane n = some n' →
    n'.Loose ∧ n.panes.Perm (pane :: n'.panes) := by
  induction h with
  | leaf id =>
    intro n' hn
    cases hn
  | split a children two shares flat nodes ih =>
    intro n' hn
    by_cases hleaf : ∃ c ∈ children, c.node = .leaf pane
    · obtain ⟨pre, c, post, rfl, hpre, hc⟩ := exists_first hleaf
      rw [removeAt_here _ _ hpre hc] at hn
      cases hn
      have hshares := share_rest two shares
      refine ⟨.split a _ hshares.ne_nil hshares fun d hd => ?_, ?_⟩
      · obtain ⟨e, he, heq⟩ := mem_share hd
        rw [← heq]
        exact (nodes e (((List.sublist_cons_self c post).append_left pre).subset he)).loose
      · rw [panes_split, panes_split, flatMap_nodes (share _ _), share_nodes, ← flatMap_nodes,
          List.flatMap_append, List.flatMap_append, List.flatMap_cons, hc]
        exact List.perm_middle
    · have hnone : ∀ c ∈ children, c.node ≠ .leaf pane := fun c hc heq => hleaf ⟨c, hc, heq⟩
      rw [removeAt_inside hnone] at hn
      obtain ⟨slots, hslots, rfl⟩ := Option.map_eq_some_iff.mp hn
      obtain ⟨pre, c, m, post, rfl, -, hm, rfl⟩ := editFirst_some hslots
      have hmem : c ∈ pre ++ c :: post := List.mem_append_cons_self
      obtain ⟨hloose, hperm⟩ := ih c hmem hm
      refine ⟨.split a _ (by simp) shares.replace fun d hd => ?_, ?_⟩
      · rcases mem_replaced hd with rfl | hd
        · exact hloose
        · exact (nodes d hd).loose
      · rw [panes_split, panes_split, List.flatMap_append, List.flatMap_append, List.flatMap_cons,
          List.flatMap_cons]
        exact ((hperm.append_right _).append_left _).trans List.perm_middle

theorem removeAt_isSome (h : n.Ok) (hmem : pane ∈ n.panes) (hnot : n ≠ .leaf pane) :
    (removeAt pane n).isSome = true := by
  induction h with
  | leaf id => exact absurd (congrArg Node.leaf (List.mem_singleton.mp hmem).symm) hnot
  | split a children two shares flat nodes ih =>
    by_cases hleaf : ∃ c ∈ children, c.node = .leaf pane
    · obtain ⟨pre, c, post, rfl, hpre, hc⟩ := exists_first hleaf
      rw [removeAt_here _ _ hpre hc]
      rfl
    have hnone : ∀ c ∈ children, c.node ≠ .leaf pane := fun c hc heq => hleaf ⟨c, hc, heq⟩
    rw [panes_split] at hmem
    obtain ⟨c, hc, hin⟩ := List.mem_flatMap.mp hmem
    obtain ⟨pre, d, m, post, rfl, hpre, hd⟩ := exists_edited ⟨c, hc, ih c hc hin (hnone c hc)⟩
    rw [removeAt_inside hnone, editFirst_at hpre hd]
    rfl

theorem removeAt_absent (h : n.Ok) (hmem : pane ∉ n.panes) : removeAt pane n = none := by
  cases hn : removeAt pane n with
  | none => rfl
  | some n' =>
    exact absurd ((removeAt_loose h hn).2.symm.subset List.mem_cons_self) hmem

end Remove

/-! ## A divider that moves -/

variable {slots : List Child}

section Divider

variable {gutter : Nat} {leading least : ℚ}

/-- Other weights for the same nodes. -/
theorem Node.Ok.reweigh (h : (Node.split a children).Ok) (hshares : Shares slots)
    (hnodes : slots.map Child.node = children.map Child.node) :
    (Node.split a slots).Ok ∧ (Node.split a slots).shape = (Node.split a children).shape := by
  cases h with
  | split a children two shares flat nodes =>
    have hmem : ∀ d ∈ slots, ∃ c ∈ children, c.node = d.node := by
      intro d hd
      have hnode : d.node ∈ slots.map Child.node := List.mem_map_of_mem hd
      rw [hnodes] at hnode
      exact List.mem_map.mp hnode
    refine ⟨.split a slots ?_ hshares (fun d hd => ?_) fun d hd => ?_, ?_⟩
    · have hlen := congrArg List.length hnodes
      rw [List.length_map, List.length_map] at hlen
      rw [hlen]
      exact two
    · obtain ⟨c, hc, heq⟩ := hmem d hd
      rw [← heq]
      exact flat c hc
    · obtain ⟨c, hc, heq⟩ := hmem d hd
      rw [← heq]
      exact nodes c hc
    · have hshape : ∀ cs : List Child, (cs.map fun c => Child.mk 0 c.node.shape) =
          (cs.map Child.node).map fun n => .mk 0 n.shape := by
        intro cs
        rw [List.map_map]
        rfl
      rw [shape_split, shape_split, hshape, hshape, hnodes]

/-- The divider stays inside its pair: some share is to be kept on both sides, or the one
asked for is one. -/
def Within (leading least pair : ℚ) : Prop := 0 < least ∨ 0 < leading ∧ leading < pair

theorem dragged_within {pair : ℚ} (hpair : 0 < pair) :
    0 < dragged leading least pair ∧ dragged leading least pair < pair ↔
      Within leading least pair := by
  unfold dragged Within
  simp only
  have hhalf : 0 < pair / 2 := by linarith
  rcases lt_or_ge 0 least with hleast | hleast
  · refine iff_of_true ?_ (Or.inl hleast)
    have hkept : 0 < min (max least 0) (pair / 2) := lt_min (lt_max_of_lt_left hleast) hhalf
    have hhalf : min (max least 0) (pair / 2) ≤ pair / 2 := min_le_right _ _
    constructor
    · exact lt_min (lt_max_of_lt_right hkept) (by linarith)
    · exact lt_of_le_of_lt (min_le_right _ _) (by linarith)
  · rw [max_eq_right hleast, min_eq_left hhalf.le, sub_zero, lt_min_iff, min_lt_iff,
      lt_max_iff, max_lt_iff]
    simp [hpair, hleast.not_gt]

theorem slot_at {i : Nat} (h : children[i]? = some c) :
    ∃ pre post, children = pre ++ c :: post ∧ pre.length = i := by
  obtain ⟨hi, rfl⟩ := List.getElem?_eq_some_iff.mp h
  refine ⟨children.take i, children.drop (i + 1), ?_, List.length_take_of_le hi.le⟩
  rw [List.cons_getElem_drop_succ, List.take_append_drop]

/-- The slots on both sides of a divider. -/
theorem pair_at {d : Child} (hc : children[gutter]? = some c)
    (hd : children[gutter + 1]? = some d) :
    ∃ pre post, children = pre ++ c :: d :: post ∧ pre.length = gutter := by
  obtain ⟨pre, rest, rfl, rfl⟩ := slot_at hc
  rw [List.getElem?_append_right (Nat.le_add_right _ 1)] at hd
  have hhead : rest.head? = some d := by simpa [List.head?_eq_getElem?] using hd
  obtain ⟨post, rfl⟩ := List.head?_eq_some_iff.mp hhead
  exact ⟨pre, post, rfl, rfl⟩

theorem setGutter_ok
    (h : (Node.split a children).Ok) (hset : setGutter gutter leading least children = some slots) :
    slots.map Child.node = children.map Child.node ∧
      ∃ pair, pairAt gutter [] (.split a children) = some pair ∧
        ((Node.split a slots).Ok ↔ Within leading least pair) := by
  unfold setGutter at hset
  split at hset
  · rename_i c d hc hd
    obtain ⟨pre, post, rfl, rfl⟩ := pair_at hc hd
    have hslots : slots = pre ++ .mk (dragged leading least (c.weight + d.weight)) c.node ::
        .mk (c.weight + d.weight - dragged leading least (c.weight + d.weight)) d.node :: post := by
      rw [← Option.some.inj hset]
      simp
    have hnodes : slots.map Child.node = (pre ++ c :: d :: post).map Child.node := by
      rw [hslots]
      simp [Child.node]
    have hpair : pairAt pre.length [] (.split a (pre ++ c :: d :: post)) =
        some (c.weight + d.weight) := by
      simp [pairAt, nodeAt]
    refine ⟨hnodes, _, hpair, ?_⟩
    obtain ⟨two, shares, flat, nodes⟩ : 2 ≤ (pre ++ c :: d :: post).length ∧
        Shares (pre ++ c :: d :: post) ∧ (∀ e ∈ pre ++ c :: d :: post, e.node.axis ≠ some a) ∧
          ∀ e ∈ pre ++ c :: d :: post, e.node.Ok := by
      cases h with
      | split a children two shares flat nodes => exact ⟨two, shares, flat, nodes⟩
    have hc := shares.positive c (by simp)
    have hd := shares.positive d (by simp)
    rw [← dragged_within (add_pos hc hd)]
    constructor
    · intro hok
      cases hok with
      | split a slots two' shares' flat' nodes' =>
        have hfirst := shares'.positive (.mk (dragged leading least (c.weight + d.weight)) c.node)
          (by rw [hslots]; simp)
        have hsecond := shares'.positive (.mk (c.weight + d.weight -
          dragged leading least (c.weight + d.weight)) d.node) (by rw [hslots]; simp)
        exact ⟨hfirst, sub_pos.mp hsecond⟩
    · rintro ⟨hfirst, hsecond⟩
      refine (h.reweigh ⟨fun e he => ?_, ?_⟩ hnodes).1
      · rw [hslots] at he
        rcases List.mem_append.mp he with he | he
        · exact shares.positive e (List.mem_append_left _ he)
        rcases List.mem_cons.mp he with rfl | he
        · exact hfirst
        rcases List.mem_cons.mp he with rfl | he
        · exact sub_pos.mpr hsecond
        · exact shares.positive e (by simp [he])
      · have htotal := shares.total
        rw [totalWeight_append, totalWeight_cons, totalWeight_cons] at htotal
        rw [hslots, totalWeight_append, totalWeight_cons, totalWeight_cons]
        show _ + (dragged _ _ _ + (c.weight + d.weight - dragged _ _ _ + _)) = _
        linarith
  · cases hset

theorem panes_of_nodes {b : SplitAxis} (h : slots.map Child.node = children.map Child.node) :
    (Node.split a slots).panes = (Node.split b children).panes := by
  rw [panes_split, panes_split, flatMap_nodes, flatMap_nodes, h]

/-- **A divider that moves** leaves the panes where they are, and the tree in order if it
stays inside its pair. -/
theorem setWeightAt_ok {path : List Nat} (h : n.Ok) : ∀ {n' : Node},
    setWeightAt gutter leading least path n = some n' → n'.panes = n.panes ∧
      n'.axis = n.axis ∧ ∃ pair, pairAt gutter path n = some pair ∧
        (n'.Ok ↔ Within leading least pair) := by
  induction path generalizing n with
  | nil =>
    intro n' hn
    cases n with
    | leaf id => exact absurd hn.symm (Option.some_ne_none n')
    | split a children =>
      obtain ⟨slots, hslots, rfl⟩ := Option.map_eq_some_iff.mp hn
      obtain ⟨hnodes, hpair⟩ := setGutter_ok h hslots
      exact ⟨panes_of_nodes hnodes, rfl, hpair⟩
  | cons i path ih =>
    intro n' hn
    cases n with
    | leaf id => exact absurd hn.symm (Option.some_ne_none n')
    | split a children =>
      obtain ⟨c, hc, hn⟩ := Option.bind_eq_some_iff.mp hn
      obtain ⟨m, hm, rfl⟩ := Option.map_eq_some_iff.mp hn
      obtain ⟨pre, post, rfl, rfl⟩ := slot_at hc
      cases h with
      | split a children two shares flat nodes =>
        have hmem : c ∈ pre ++ c :: post := List.mem_append_cons_self
        obtain ⟨hpanes, haxis, pair, hpair, hiff⟩ := ih (nodes c hmem) hm
        have hset : (pre ++ c :: post).set pre.length (.mk c.weight m) =
            pre ++ .mk c.weight m :: post := by simp
        rw [hset]
        refine ⟨?_, rfl, pair, ?_, Iff.trans ⟨fun hok => ?_, fun hok => ?_⟩ hiff⟩
        · rw [panes_split, panes_split, List.flatMap_append, List.flatMap_append, List.flatMap_cons,
            List.flatMap_cons]
          show _ ++ (m.panes ++ _) = _
          rw [hpanes]
        · have hnode : nodeAt (pre.length :: path) (.split a (pre ++ c :: post)) =
              nodeAt path c.node := by simp [nodeAt]
          unfold pairAt at hpair ⊢
          rw [hnode]
          exact hpair
        · cases hok with
          | split a slots two' shares' flat' nodes' =>
            exact nodes' (.mk c.weight m) List.mem_append_cons_self
        · refine .split a _ (by simpa using two) shares.replace (fun d hd => ?_) fun d hd => ?_
          · rcases mem_replaced hd with rfl | hd
            · show m.axis ≠ some a
              rw [haxis]
              exact flat c hmem
            · exact flat d hd
          · rcases mem_replaced hd with rfl | hd
            · exact hok
            · exact nodes d hd

/-- Where there is a divider, it is set. -/
theorem setWeightAt_isSome {path : List Nat} {pair : ℚ} (h : pairAt gutter path n = some pair) :
    (setWeightAt gutter leading least path n).isSome = true := by
  induction path generalizing n with
  | nil =>
    cases n with
    | leaf id => exact absurd h.symm (Option.some_ne_none pair)
    | split a children =>
      simp only [pairAt, nodeAt] at h
      simp only [setWeightAt, setGutter]
      split at h
      · rfl
      · cases h
  | cons i path ih =>
    cases n with
    | leaf id => exact absurd h.symm (Option.some_ne_none pair)
    | split a children =>
      cases hc : children[i]? with
      | none =>
        simp only [pairAt, nodeAt, hc, Option.bind_none] at h
        cases h
      | some c =>
        have hinner : pairAt gutter path c.node = some pair := by
          simpa only [pairAt, nodeAt, hc, Option.bind_some] using h
        simp only [setWeightAt, hc, Option.bind_some, Option.isSome_map]
        exact ih hinner

end Divider

/-! ## Even shares -/

theorem equalizeAll_eq (even : ℚ) (children : List Child) :
    equalizeAll even children = children.map fun c => .mk even (equalizeNode c.node) := by
  induction children with
  | nil => rfl
  | cons c rest ih =>
    obtain ⟨w, n⟩ := c
    rw [equalizeAll, ih]
    rfl

theorem equalizeNode_ok (h : n.Ok) :
    (equalizeNode n).Ok ∧ (equalizeNode n).panes = n.panes ∧ (equalizeNode n).axis = n.axis := by
  induction h with
  | leaf id => exact ⟨.leaf id, rfl, rfl⟩
  | split a children two shares flat nodes ih =>
    have hlen : (0 : ℚ) < children.length := Nat.cast_pos.mpr (Nat.lt_of_lt_of_le Nat.two_pos two)
    rw [equalizeNode, equalizeAll_eq]
    refine ⟨.split a _ (by simpa using two) ⟨fun c hc => ?_, ?_⟩ (fun c hc => ?_) fun c hc => ?_,
      ?_, rfl⟩
    · obtain ⟨d, -, rfl⟩ := List.mem_map.mp hc
      exact one_div_pos.mpr hlen
    · unfold totalWeight
      rw [List.map_map]
      show (children.map fun _ => (1 / children.length : ℚ)).sum = 1
      rw [List.map_const', List.sum_replicate, nsmul_eq_mul, mul_one_div_cancel hlen.ne']
    · obtain ⟨d, hd, rfl⟩ := List.mem_map.mp hc
      show (equalizeNode d.node).axis ≠ some a
      rw [(ih d hd).2.2]
      exact flat d hd
    · obtain ⟨d, hd, rfl⟩ := List.mem_map.mp hc
      exact (ih d hd).1
    · rw [panes_split, panes_split, List.flatMap_map]
      exact List.flatMap_congr fun c hc => (ih c hc).2.1

/-! ## A leaf that comes and goes -/

section RoundTrip

variable {target : PaneId} {axis : SplitAxis} {before : Bool} {new : PaneId}

/-- The shape is that of the tree before the leaf came. -/
structure Restored (n n'' : Node) : Prop where
  loose : n''.Loose
  shape : (normalizeNode n'').shape = n.shape

theorem insertAt_ne_leaf {n' : Node} (h : n.Ok)
    (hn : insertAt target axis before new n = some n') (id : PaneId) : n' ≠ .leaf id := by
  rintro rfl
  rcases (insertAt_ok h hn).axis with ⟨heq, -⟩ | ⟨heq, hne⟩
  · exact Option.some_ne_none axis heq.symm
  · exact hne heq.symm

/-- The slot of the target keeps half of its share, and gets back the other. -/
theorem restored_beside (hok : (Node.split a (pre ++ c :: post)).Ok) (hc : c.node = .leaf target)
    (hnew : new ∉ (Node.split a (pre ++ c :: post)).panes) : ∃ n'',
      removeAt new (.split a (pre ++ pairOf (c.weight * (1 / 2)) target before new ++ post)) =
        some n'' ∧ Restored (.split a (pre ++ c :: post)) n'' := by
  cases hok with
  | split a children two shares flat nodes =>
  have hnot : ∀ d ∈ pre ++ c :: post, d.node ≠ .leaf new := by
    intro d hd heq
    rw [panes_split] at hnew
    exact hnew (List.mem_flatMap.mpr ⟨d, hd, heq ▸ List.mem_singleton.mpr rfl⟩)
  have hpre : ∀ d ∈ pre, d.node ≠ .leaf new := fun d hd => hnot d (List.mem_append_left _ hd)
  have hslot : removeAt new (.split a (pre ++ pairOf (c.weight * (1 / 2)) target before new ++ post)) =
      some (.split a (share (c.weight * (1 / 2))
        (pre ++ .mk (c.weight * (1 / 2)) (.leaf target) :: post))) := by
    have htarget : Node.leaf target ≠ .leaf new := by
      rw [← hc]
      exact hnot c List.mem_append_cons_self
    cases before with
    | true =>
      show removeAt new (.split a (pre ++ [_, _] ++ post)) = _
      rw [List.append_assoc]
      exact removeAt_here _ _ (c := .mk (c.weight * (1 / 2)) (.leaf new)) hpre rfl
    | false =>
      show removeAt new (.split a (pre ++ [_, _] ++ post)) = _
      rw [List.append_assoc]
      have hlonger : ∀ d ∈ pre ++ [.mk (c.weight * (1 / 2)) (.leaf target)],
          d.node ≠ .leaf new := by
        intro d hd
        rcases List.mem_append.mp hd with hd | hd
        · exact hpre d hd
        · rw [List.mem_singleton.mp hd]
          exact htarget
      have hremove := removeAt_here a post
        (c := .mk (c.weight * (1 / 2)) (.leaf new)) hlonger rfl
      rw [List.append_assoc, List.append_assoc] at hremove
      exact hremove
  have hpos : 0 < c.weight := shares.positive c List.mem_append_cons_self
  have hhalf : Shares (share (c.weight * (1 / 2))
      (pre ++ .mk (c.weight * (1 / 2)) (.leaf target) :: post)) := by
    refine share_spec (fun d hd => ?_) (by simp) (by linarith) ?_
    · rcases List.mem_append.mp hd with hd | hd
      · exact shares.positive d (List.mem_append_left _ hd)
      rcases List.mem_cons.mp hd with rfl | hd
      · show 0 < c.weight * (1 / 2)
        linarith
      · exact shares.positive d (List.mem_append_right _ (List.mem_cons_of_mem c hd))
    · have htotal := shares.total
      rw [totalWeight_append, totalWeight_cons] at htotal ⊢
      show totalWeight pre + (c.weight * (1 / 2) + totalWeight post) + c.weight * (1 / 2) = 1
      linarith
  have hnodes : (share (c.weight * (1 / 2))
      (pre ++ .mk (c.weight * (1 / 2)) (.leaf target) :: post)).map Child.node =
        (pre ++ c :: post).map Child.node := by
    rw [share_nodes, List.map_append, List.map_append, List.map_cons, List.map_cons, hc]
    rfl
  obtain ⟨hok, hshape⟩ := (Node.Ok.split a _ two shares flat nodes).reweigh hhalf hnodes
  exact ⟨_, hslot, hok.loose, by rw [hok.normalize, hshape]⟩

/-- **A leaf that comes and goes** leaves the shape as it was. -/
theorem removeAt_insertAt (h : n.Ok) (hnew : new ∉ n.panes) : ∀ {n' : Node},
    insertAt target axis before new n = some n' →
      ∃ n'', removeAt new n' = some n'' ∧ Restored n n'' := by
  induction h with
  | leaf id =>
    intro n' hn
    obtain ⟨rfl, hn⟩ := Option.ite_none_right_eq_some.mp hn
    cases hn
    have hne : id ≠ new := fun heq => hnew (List.mem_singleton.mpr heq.symm)
    have hshares : Shares (share (1 / 2) [.mk (1 / 2) (.leaf id)]) := by
      refine share_spec (fun d hd => ?_) (List.cons_ne_nil _ _) (by norm_num) ?_
      · rw [List.mem_singleton.mp hd]
        show (0 : ℚ) < 1 / 2
        norm_num
      · show (1 / 2 : ℚ) + 0 + 1 / 2 = 1
        norm_num
    refine ⟨.split axis (share (1 / 2) [.mk (1 / 2) (.leaf id)]), ?_,
      .split axis _ hshares.ne_nil hshares fun d hd => ?_, ?_⟩
    · cases before with
      | true =>
        exact removeAt_here axis [.mk (1 / 2) (.leaf id)]
          (c := .mk (1 / 2) (.leaf new)) (fun _ hd => absurd hd List.not_mem_nil) rfl
      | false =>
        refine @removeAt_here new axis [.mk (1 / 2) (.leaf id)] [] (.mk (1 / 2) (.leaf new))
          (fun d hd => ?_) rfl
        rw [List.mem_singleton.mp hd]
        exact fun heq => hne (Node.leaf.inj heq)
    · obtain ⟨e, he, heq⟩ := mem_share hd
      rw [← heq, List.mem_singleton.mp he]
      exact .leaf id
    · obtain ⟨w, hw⟩ : ∃ w, share (1 / 2) [.mk (1 / 2) (.leaf id)] = [.mk w (.leaf id)] := by
        unfold share
        split <;> exact ⟨_, rfl⟩
      rw [hw] at hshares ⊢
      show (collapse axis (renormalize [.mk w (.leaf id)])).shape = .leaf id
      rw [renormalize_eq hshares]
      rfl
  | split a children two shares flat nodes ih =>
    intro n' hn
    by_cases hbeside : a = axis ∧ ∃ c ∈ children, c.node = .leaf target
    · obtain ⟨rfl, hleaf⟩ := hbeside
      obtain ⟨pre, c, post, rfl, hpre, hc⟩ := exists_first hleaf
      rw [insertAt_beside hpre hc] at hn
      cases hn
      exact restored_beside (.split a _ two shares flat nodes) hc hnew
    have hinside : a ≠ axis ∨ ∀ c ∈ children, c.node ≠ .leaf target := by
      by_contra hnot
      push Not at hnot
      exact hbeside hnot
    rw [insertAt_inside hinside] at hn
    obtain ⟨slots, hslots, rfl⟩ := Option.map_eq_some_iff.mp hn
    obtain ⟨pre, c, m, post, rfl, -, hm, rfl⟩ := editFirst_some hslots
    have hmem : c ∈ pre ++ c :: post := List.mem_append_cons_self
    have habsent : ∀ d ∈ pre ++ c :: post, new ∉ d.node.panes := by
      intro d hd hin
      rw [panes_split] at hnew
      exact hnew (List.mem_flatMap.mpr ⟨d, hd, hin⟩)
    obtain ⟨m', hm', hrestored⟩ := ih c hmem (habsent c hmem) hm
    have hnone : ∀ d ∈ pre ++ .mk c.weight m :: post, d.node ≠ .leaf new := by
      intro d hd
      rcases mem_replaced hd with rfl | hd
      · exact insertAt_ne_leaf (nodes c hmem) hm new
      · intro heq
        exact habsent d hd (heq ▸ List.mem_singleton.mpr rfl)
    have hfirst : ∀ d ∈ pre, removeAt new d.node = none := fun d hd =>
      removeAt_absent (nodes d (List.mem_append_left _ hd)) (habsent d (List.mem_append_left _ hd))
    have hremove : removeAt new (.split a (pre ++ .mk c.weight m :: post)) =
        some (.split a (pre ++ .mk c.weight m' :: post)) := by
      rw [removeAt_inside hnone, editFirst_at (c := .mk c.weight m) hfirst hm']
      rfl
    have hnormal : normalizeAll (pre ++ .mk c.weight m' :: post) =
        pre ++ .mk c.weight (normalizeNode m') :: post := by
      have hself : ∀ cs : List Child, (∀ d ∈ cs, d ∈ pre ++ c :: post) → normalizeAll cs = cs :=
        fun cs hcs => normalizeAll_self fun d hd => (nodes d (hcs d hd)).normalize
      have hpre := hself pre fun d hd => List.mem_append_left _ hd
      have hpost := hself post fun d hd =>
        List.mem_append_right _ (List.mem_cons_of_mem c hd)
      rw [normalizeAll_eq] at hpre hpost ⊢
      rw [List.map_append, List.map_cons, hpre, hpost]
      rfl
    have haxis : (normalizeNode m').axis = c.node.axis := by
      rw [← axis_shape, hrestored.shape, axis_shape]
    refine ⟨_, hremove, .split a _ (by simp) shares.replace fun d hd => ?_, ?_⟩
    · rcases mem_replaced hd with rfl | hd
      · exact hrestored.loose
      · exact (nodes d hd).loose
    · rw [normalizeNode_split (by simpa using two) (by rw [hnormal]; exact shares.replace)
        (fun d hd => ?_), hnormal, shape_split, shape_split]
      · rw [List.map_append, List.map_append, List.map_cons, List.map_cons]
        show Node.split a (_ ++ Child.mk 0 (normalizeNode m').shape :: _) = _
        rw [hrestored.shape]
      · rw [hnormal] at hd
        rcases mem_replaced hd with rfl | hd
        · show (normalizeNode m').axis ≠ some a
          rw [haxis]
          exact flat c hmem
        · exact flat d hd

end RoundTrip

end RedDb.Panes
