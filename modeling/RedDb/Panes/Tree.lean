import Mathlib.Algebra.BigOperators.Ring.List
import Mathlib.Algebra.Order.BigOperators.Group.List
import Mathlib.Algebra.Order.Field.Rat
import Mathlib.Data.List.TakeWhile
import Mathlib.Tactic.FieldSimp
import Mathlib.Tactic.Linarith

/-!
# RedDb — the tree of panes

The work area is a tree: its leaves are panes, and a split divides its share among its
children along one axis, by weights. An edit of the tree may leave a split with one
child, or one below a split of the same axis; `normalize_node` collapses the one and
splices in the other. Weights are exact here.

* `Node.Ok` — what a tree in place satisfies at every split;
* `editFirst_some` — an edit of the children edits one of them;
* `normalizeNode_ok` — a loose tree is put in order;
* `Node.Ok.normalize` — and one in order stays as it is.
-/

namespace RedDb.Panes

/-- A `u32`. -/
abbrev PaneId := Nat

inductive SplitAxis where
  | horizontal
  | vertical
  deriving DecidableEq

inductive DropZone where
  | center
  | left
  | right
  | top
  | bottom

/-- The axis, and whether the new pane goes before the target. -/
def DropZone.split : DropZone → Option (SplitAxis × Bool)
  | .center => none
  | .left => some (.horizontal, true)
  | .right => some (.horizontal, false)
  | .top => some (.vertical, true)
  | .bottom => some (.vertical, false)

mutual

inductive Node where
  | leaf (id : PaneId)
  | split (axis : SplitAxis) (children : List Child)

inductive Child where
  | mk (weight : ℚ) (node : Node)

end

def Child.weight : Child → ℚ
  | .mk w _ => w

def Child.node : Child → Node
  | .mk _ n => n

def Child.isLeaf (pane : PaneId) : Child → Bool
  | .mk _ (.leaf id) => id == pane
  | .mk _ (.split _ _) => false

@[grind =] def Node.axis : Node → Option SplitAxis
  | .leaf _ => none
  | .split a _ => some a

/-! ## Walks -/

mutual

/-- `collect`: the panes in visual order. -/
def Node.panes : Node → List PaneId
  | .leaf id => [id]
  | .split _ children => childPanes children

@[grind =] def childPanes : List Child → List PaneId
  | [] => []
  | .mk _ n :: rest => n.panes ++ childPanes rest

end

mutual

/-- The tree without its weights. -/
def Node.shape : Node → Node
  | .leaf id => .leaf id
  | .split a children => .split a (childShapes children)

def childShapes : List Child → List Child
  | [] => []
  | .mk _ n :: rest => .mk 0 n.shape :: childShapes rest

end

/-! ## Edits -/

/-- The two slots that a target's slot becomes. -/
def pairOf (weight : ℚ) (target : PaneId) (before : Bool) (new : PaneId) : List Child :=
  if before then [.mk weight (.leaf new), .mk weight (.leaf target)]
  else [.mk weight (.leaf target), .mk weight (.leaf new)]

section Insert

variable (target : PaneId) (axis : SplitAxis) (before : Bool) (new : PaneId)

mutual

/-- `insert_at`, with none where the target is not found. -/
@[grind =] def insertAt : Node → Option Node
  | .leaf id => if id = target then some (.split axis (pairOf (1 / 2) target before new)) else none
  | .split a children =>
    match a == axis, children.span fun c => !c.isLeaf target with
    | true, (pre, c :: post) =>
      some (.split a (pre ++ pairOf (c.weight * (1 / 2)) target before new ++ post))
    | _, _ => (insertAny children).map (.split a)

def insertAny : List Child → Option (List Child)
  | [] => none
  | .mk w n :: rest =>
    match insertAt n with
    | some n' => some (.mk w n' :: rest)
    | none => (insertAny rest).map (.mk w n :: ·)

end

end Insert

def totalWeight (children : List Child) : ℚ := (children.map Child.weight).sum

/-- The weight that is freed goes to the siblings in proportion. -/
def share (freed : ℚ) (children : List Child) : List Child :=
  if 0 < totalWeight children then
    children.map fun c => .mk (c.weight + freed * c.weight / totalWeight children) c.node
  else children

section Remove

variable (pane : PaneId)

mutual

/-- `remove_at`, with none where the pane is not found. -/
def removeAt : Node → Option Node
  | .leaf _ => none
  | .split a children =>
    match children.span fun c => !c.isLeaf pane with
    | (pre, c :: post) => some (.split a (share c.weight (pre ++ post)))
    | (_, []) => (removeAny children).map (.split a)

def removeAny : List Child → Option (List Child)
  | [] => none
  | .mk w n :: rest =>
    match removeAt n with
    | some n' => some (.mk w n' :: rest)
    | none => (removeAny rest).map (.mk w n :: ·)

end

end Remove

/-- `f32::EPSILON`. -/
def f32Epsilon : ℚ := 1 / 2 ^ 23

def renormalize (children : List Child) : List Child :=
  let total := (children.map fun c => max c.weight 0).sum
  if total ≤ f32Epsilon then children.map fun c => .mk (1 / children.length) c.node
  else children.map fun c => .mk (max c.weight 0 / total) c.node

/-- The slots of a child of the same axis take its place. -/
def splice (axis : SplitAxis) : Child → List Child
  | .mk w (.split a inner) =>
    if a = axis then inner.map fun g => .mk (g.weight * w) g.node else [.mk w (.split a inner)]
  | .mk w (.leaf id) => [.mk w (.leaf id)]

/-- A split with one child is that child. -/
def collapse (axis : SplitAxis) : List Child → Node
  | [only] => only.node
  | flat => .split axis flat

mutual

def normalizeNode : Node → Node
  | .leaf id => .leaf id
  | .split a children => collapse a (renormalize ((normalizeAll children).flatMap (splice a)))

def normalizeAll : List Child → List Child
  | [] => []
  | .mk w n :: rest => .mk w (normalizeNode n) :: normalizeAll rest

end

mutual

def equalizeNode : Node → Node
  | .leaf id => .leaf id
  | .split a children => .split a (equalizeAll (1 / children.length) children)

def equalizeAll (even : ℚ) : List Child → List Child
  | [] => []
  | .mk _ n :: rest => .mk even (equalizeNode n) :: equalizeAll even rest

end

/-- `node_at_mut`. -/
@[grind =] def nodeAt : List Nat → Node → Option Node
  | [], n => some n
  | i :: path, .split _ children => (children[i]?).bind fun c => nodeAt path c.node
  | _ :: _, .leaf _ => none

/-- The share of the slot before a divider that is dragged to `leading`. -/
def dragged (leading least pair : ℚ) : ℚ :=
  let least := min (max least 0) (pair / 2)
  min (max leading least) (pair - least)

/-- The slots on both sides of the divider behind `gutter`. -/
def setGutter (gutter : Nat) (leading least : ℚ) (children : List Child) : Option (List Child) :=
  match children[gutter]?, children[gutter + 1]? with
  | some c, some d =>
    let pair := c.weight + d.weight
    let first := dragged leading least pair
    some ((children.set gutter (.mk first c.node)).set (gutter + 1) (.mk (pair - first) d.node))
  | _, _ => none

/-- `set_weight` at the split that the path leads to; `least` is `min`. -/
def setWeightAt (gutter : Nat) (leading least : ℚ) : List Nat → Node → Option Node
  | [], .split a children => (setGutter gutter leading least children).map (.split a)
  | i :: path, .split a children => (children[i]?).bind fun c =>
      (setWeightAt gutter leading least path c.node).map fun n =>
        .split a (children.set i (.mk c.weight n))
  | _, .leaf _ => none

/-- The share that the two slots at a divider have together. -/
def pairAt (gutter : Nat) (path : List Nat) (n : Node) : Option ℚ :=
  match nodeAt path n with
  | some (.split _ children) =>
    match children[gutter]?, children[gutter + 1]? with
    | some c, some d => some (c.weight + d.weight)
    | _, _ => none
  | _ => none

/-! ## What a tree satisfies -/

/-- Shares of a split. -/
structure Shares (children : List Child) : Prop where
  positive : ∀ c ∈ children, 0 < c.weight
  total : totalWeight children = 1

/-- Every split has two children or more, none of them a split along its own axis. -/
inductive Node.Ok : Node → Prop where
  | leaf (id : PaneId) : Ok (.leaf id)
  | split (a : SplitAxis) (children : List Child) (two : 2 ≤ children.length)
      (shares : Shares children) (flat : ∀ c ∈ children, c.node.axis ≠ some a)
      (nodes : ∀ c ∈ children, Ok c.node) : Ok (.split a children)

/-- A tree that is to be put in order: no split is empty. -/
inductive Node.Loose : Node → Prop where
  | leaf (id : PaneId) : Loose (.leaf id)
  | split (a : SplitAxis) (children : List Child) (some : children ≠ [])
      (shares : Shares children) (nodes : ∀ c ∈ children, Loose c.node) : Loose (.split a children)

variable {n : Node}

theorem Node.Ok.loose (h : n.Ok) : n.Loose := by
  induction h with
  | leaf id => exact .leaf id
  | split a children two shares flat nodes ih =>
    refine .split a children (fun hnil => ?_) shares ih
    rw [hnil] at two
    exact absurd two (by decide)

/-! ## Lists of children -/

@[simp] theorem Child.eta (c : Child) : Child.mk c.weight c.node = c := by
  obtain ⟨w, n⟩ := c
  rfl

theorem childPanes_eq (children : List Child) :
    childPanes children = children.flatMap fun c => c.node.panes := by
  induction children with
  | nil => rfl
  | cons c rest ih =>
    obtain ⟨w, n⟩ := c
    rw [childPanes, ih]
    rfl

theorem childShapes_eq (children : List Child) :
    childShapes children = children.map fun c => .mk 0 c.node.shape := by
  induction children with
  | nil => rfl
  | cons c rest ih =>
    obtain ⟨w, n⟩ := c
    rw [childShapes, ih]
    rfl

theorem normalizeAll_eq (children : List Child) :
    normalizeAll children = children.map fun c => .mk c.weight (normalizeNode c.node) := by
  induction children with
  | nil => rfl
  | cons c rest ih =>
    obtain ⟨w, n⟩ := c
    rw [normalizeAll, ih]
    rfl

theorem panes_split (a : SplitAxis) (children : List Child) :
    (Node.split a children).panes = children.flatMap fun c => c.node.panes := by
  rw [Node.panes, childPanes_eq]

theorem shape_split (a : SplitAxis) (children : List Child) :
    (Node.split a children).shape = .split a (children.map fun c => .mk 0 c.node.shape) := by
  rw [Node.shape, childShapes_eq]

theorem axis_shape (n : Node) : n.shape.axis = n.axis := by
  cases n with
  | leaf id => rfl
  | split a children => rfl

variable {c : Child} {pane : PaneId}

theorem Child.isLeaf_iff : c.isLeaf pane = true ↔ c.node = .leaf pane := by
  obtain ⟨w, n⟩ := c
  cases n with
  | leaf id =>
    show (id == pane) = true ↔ Node.leaf id = .leaf pane
    rw [beq_iff_eq, Node.leaf.injEq]
  | split a children =>
    exact iff_of_false Bool.false_ne_true fun h => Node.noConfusion h

theorem totalWeight_append (cs ds : List Child) :
    totalWeight (cs ++ ds) = totalWeight cs + totalWeight ds := by
  unfold totalWeight
  rw [List.map_append, List.sum_append]

theorem totalWeight_cons (c : Child) (cs : List Child) :
    totalWeight (c :: cs) = c.weight + totalWeight cs := rfl

variable {children : List Child}

theorem totalWeight_pos (hpos : ∀ c ∈ children, 0 < c.weight)
    (hne : children ≠ []) : 0 < totalWeight children := by
  refine List.sum_pos _ (fun w hw => ?_) (fun h => hne (List.map_eq_nil_iff.mp h))
  obtain ⟨c, hc, rfl⟩ := List.mem_map.mp hw
  exact hpos c hc

/-- The first leaf of a pane among the children. -/
theorem exists_first
    (h : ∃ c ∈ children, c.node = .leaf pane) : ∃ pre c post, children = pre ++ c :: post ∧
      (∀ d ∈ pre, d.node ≠ .leaf pane) ∧ c.node = .leaf pane := by
  induction children with
  | nil =>
    obtain ⟨c, hc, -⟩ := h
    exact absurd hc List.not_mem_nil
  | cons d rest ih =>
    by_cases hd : d.node = .leaf pane
    · exact ⟨[], d, rest, rfl, fun _ he => absurd he List.not_mem_nil, hd⟩
    obtain ⟨c, hc, hleaf⟩ := h
    have hrest : c ∈ rest := by
      rcases List.mem_cons.mp hc with rfl | hrest
      · exact absurd hleaf hd
      · exact hrest
    obtain ⟨pre, e, post, rfl, hpre, he⟩ := ih ⟨c, hrest, hleaf⟩
    refine ⟨d :: pre, e, post, rfl, fun x hx => ?_, he⟩
    rcases List.mem_cons.mp hx with rfl | hx
    · exact hd
    · exact hpre x hx

theorem not_isLeaf (h : c.node ≠ .leaf pane) : (!c.isLeaf pane) = true := by
  rw [Bool.not_eq_true', Bool.eq_false_iff]
  exact fun hleaf => h (Child.isLeaf_iff.mp hleaf)

theorem span_at {pre post : List Child}
    (hpre : ∀ d ∈ pre, d.node ≠ .leaf pane) (hc : c.node = .leaf pane) :
    (pre ++ c :: post).span (fun c => !c.isLeaf pane) = (pre, c :: post) := by
  have hstop : (!c.isLeaf pane) = false := by rw [Child.isLeaf_iff.mpr hc]; rfl
  have hkeep : ∀ d ∈ pre, (!d.isLeaf pane) = true := fun d hd => not_isLeaf (hpre d hd)
  rw [List.span_eq_takeWhile_dropWhile, List.takeWhile_append_of_pos hkeep,
    List.dropWhile_append_of_pos hkeep, List.takeWhile_cons, List.dropWhile_cons, hstop]
  simp

theorem span_none (h : ∀ c ∈ children, c.node ≠ .leaf pane) :
    children.span (fun c => !c.isLeaf pane) = (children, []) := by
  have hkeep : ∀ c ∈ children, (!c.isLeaf pane) = true := fun c hc => not_isLeaf (h c hc)
  rw [List.span_eq_takeWhile_dropWhile, List.takeWhile_eq_self_iff.mpr hkeep,
    List.dropWhile_eq_nil_iff.mpr hkeep]

/-- The first child that an edit applies to is edited. -/
@[grind =] def editFirst (f : Node → Option Node) : List Child → Option (List Child)
  | [] => none
  | .mk w n :: rest =>
    match f n with
    | some n' => some (.mk w n' :: rest)
    | none => (editFirst f rest).map (.mk w n :: ·)

theorem insertAny_eq {target : PaneId} {axis : SplitAxis} {before : Bool} {new : PaneId}
    (children : List Child) : insertAny target axis before new children =
      editFirst (insertAt target axis before new) children := by
  induction children with
  | nil => rfl
  | cons c rest ih =>
    obtain ⟨w, n⟩ := c
    rw [insertAny, editFirst, ih]

theorem removeAny_eq (children : List Child) :
    removeAny pane children = editFirst (removeAt pane) children := by
  induction children with
  | nil => rfl
  | cons c rest ih =>
    obtain ⟨w, n⟩ := c
    rw [removeAny, editFirst, ih]

variable {f : Node → Option Node}

theorem editFirst_at {pre post : List Child}
    (hpre : ∀ d ∈ pre, f d.node = none) (hc : f c.node = some n) :
    editFirst f (pre ++ c :: post) = some (pre ++ .mk c.weight n :: post) := by
  induction pre with
  | nil =>
    obtain ⟨w, m⟩ := c
    show (match f m with | some n' => _ | none => _) = _
    rw [show f m = some n from hc]
    rfl
  | cons d pre ih =>
    obtain ⟨w, m⟩ := d
    have hd : f m = none := hpre _ List.mem_cons_self
    rw [List.cons_append, editFirst, hd, ih fun e he => hpre e (List.mem_cons_of_mem _ he)]
    rfl

theorem exists_edited (h : ∃ c ∈ children, (f c.node).isSome = true) : ∃ pre c n post,
      children = pre ++ c :: post ∧ (∀ d ∈ pre, f d.node = none) ∧ f c.node = some n := by
  induction children with
  | nil =>
    obtain ⟨c, hc, -⟩ := h
    exact absurd hc List.not_mem_nil
  | cons d rest ih =>
    cases hd : f d.node with
    | some n => exact ⟨[], d, n, rest, rfl, fun _ he => absurd he List.not_mem_nil, hd⟩
    | none =>
      obtain ⟨c, hc, hsome⟩ := h
      have hrest : c ∈ rest := by
        rcases List.mem_cons.mp hc with rfl | hrest
        · rw [hd] at hsome
          exact absurd hsome Bool.false_ne_true
        · exact hrest
      obtain ⟨pre, e, n, post, rfl, hpre, he⟩ := ih ⟨c, hrest, hsome⟩
      refine ⟨d :: pre, e, n, post, rfl, fun x hx => ?_, he⟩
      rcases List.mem_cons.mp hx with rfl | hx
      · exact hd
      · exact hpre x hx

/-- What an edit of the children is. -/
theorem editFirst_some {slots : List Child}
    (h : editFirst f children = some slots) : ∃ pre c n post, children = pre ++ c :: post ∧
      (∀ d ∈ pre, f d.node = none) ∧ f c.node = some n ∧ slots = pre ++ .mk c.weight n :: post := by
  have hsome : ∃ c ∈ children, (f c.node).isSome = true := by
    by_contra hnone
    have hall : editFirst f children = none := by
      clear h
      induction children with
      | nil => rfl
      | cons d rest ih =>
        obtain ⟨w, m⟩ := d
        have hm : f m = none := by
          by_contra hne
          exact hnone ⟨_, List.mem_cons_self, Option.isSome_iff_ne_none.mpr hne⟩
        rw [editFirst, hm, ih fun ⟨c, hc, hs⟩ => hnone ⟨c, List.mem_cons_of_mem _ hc, hs⟩]
        rfl
    rw [hall] at h
    exact absurd h.symm (Option.some_ne_none slots)
  obtain ⟨pre, c, n, post, rfl, hpre, hc⟩ := exists_edited hsome
  rw [editFirst_at hpre hc] at h
  exact ⟨pre, c, n, post, rfl, hpre, hc, (Option.some.inj h).symm⟩

/-! ## Putting a tree in order -/

theorem Shares.ne_nil (h : Shares children) : children ≠ [] := by
  rintro rfl
  exact absurd h.total (by decide)

/-- Where the shares are right there is nothing to scale. -/
theorem renormalize_eq (h : Shares children) : renormalize children = children := by
  have hmax : (children.map fun c => max c.weight 0) = children.map Child.weight :=
    List.map_congr_left fun c hc => max_eq_left (h.positive c hc).le
  have htotal : (children.map fun c => max c.weight 0).sum = 1 := by
    rw [hmax]
    exact h.total
  unfold renormalize
  simp only
  rw [htotal, if_neg (by unfold f32Epsilon; norm_num)]
  refine (List.map_congr_left fun c hc => ?_).trans (List.map_id children)
  rw [max_eq_left (h.positive c hc).le, div_one, Child.eta]
  rfl

/-- The slots that a child in order becomes. -/
structure Spliced (a : SplitAxis) (c : Child) (slots : List Child) : Prop where
  positive : ∀ g ∈ slots, 0 < g.weight
  total : totalWeight slots = c.weight
  flat : ∀ g ∈ slots, g.node.axis ≠ some a
  nodes : ∀ g ∈ slots, g.node.Ok
  panes : slots.flatMap (fun g => g.node.panes) = c.node.panes

variable {a : SplitAxis}

theorem splice_self (h : c.node.axis ≠ some a) : splice a c = [c] := by
  obtain ⟨w, n⟩ := c
  cases n with
  | leaf id => rfl
  | split b inner => exact if_neg fun hba => h (congrArg some hba)

theorem splice_spec (hpos : 0 < c.weight) (hok : c.node.Ok) : Spliced a c (splice a c) := by
  by_cases haxis : c.node.axis = some a
  · obtain ⟨w, n⟩ := c
    cases hok with
    | leaf id => exact absurd haxis (Option.some_ne_none a).symm
    | split b inner two shares flat nodes =>
      obtain rfl : b = a := Option.some.inj haxis
      have hslots : splice b (.mk w (.split b inner)) =
          inner.map fun g => .mk (g.weight * w) g.node := if_pos rfl
      have hpos : 0 < w := hpos
      rw [hslots]
      constructor
      · intro g hg
        obtain ⟨d, hd, rfl⟩ := List.mem_map.mp hg
        exact mul_pos (shares.positive d hd) hpos
      · unfold totalWeight
        rw [List.map_map]
        show (inner.map fun d => d.weight * w).sum = w
        rw [List.sum_map_mul_right, show (inner.map fun d => d.weight).sum = 1 from shares.total,
          one_mul]
      · intro g hg
        obtain ⟨d, hd, rfl⟩ := List.mem_map.mp hg
        exact flat d hd
      · intro g hg
        obtain ⟨d, hd, rfl⟩ := List.mem_map.mp hg
        exact nodes d hd
      · rw [List.flatMap_map]
        exact (panes_split b inner).symm
  · rw [splice_self haxis]
    constructor
    · rintro g hg
      rwa [List.mem_singleton.mp hg]
    · exact add_zero _
    · rintro g hg
      rwa [List.mem_singleton.mp hg]
    · rintro g hg
      rwa [List.mem_singleton.mp hg]
    · exact List.append_nil _

/-- All children in order, with their same-axis splits spliced in. -/
structure FlatShares (a : SplitAxis) (children slots : List Child) : Prop where
  shares : Shares slots
  flat : ∀ c ∈ slots, c.node.axis ≠ some a
  nodes : ∀ c ∈ slots, c.node.Ok
  panes : slots.flatMap (fun c => c.node.panes) = children.flatMap fun c => c.node.panes

theorem flatten_spec (hshares : Shares children) (hnodes : ∀ c ∈ children, c.node.Ok) :
    FlatShares a children (children.flatMap (splice a)) := by
  have hall : ∀ c ∈ children, Spliced a c (splice a c) := fun c hc =>
    splice_spec (hshares.positive c hc) (hnodes c hc)
  have htotal : ∀ cs : List Child, (∀ c ∈ cs, Spliced a c (splice a c)) →
      totalWeight (cs.flatMap (splice a)) = totalWeight cs := by
    intro cs hcs
    induction cs with
    | nil => rfl
    | cons c cs ih =>
      rw [List.flatMap_cons, totalWeight_append, totalWeight_cons,
        (hcs c List.mem_cons_self).total, ih fun d hd => hcs d (List.mem_cons_of_mem c hd)]
  refine ⟨⟨fun g hg => ?_, (htotal children hall).trans hshares.total⟩, fun g hg => ?_,
    fun g hg => ?_, ?_⟩
  · obtain ⟨c, hc, hg⟩ := List.mem_flatMap.mp hg
    exact (hall c hc).positive g hg
  · obtain ⟨c, hc, hg⟩ := List.mem_flatMap.mp hg
    exact (hall c hc).flat g hg
  · obtain ⟨c, hc, hg⟩ := List.mem_flatMap.mp hg
    exact (hall c hc).nodes g hg
  · rw [List.flatMap_assoc]
    exact List.flatMap_congr fun c hc => (hall c hc).panes

theorem collapse_ok {flat : List Child} (hshares : Shares flat)
    (hflat : ∀ c ∈ flat, c.node.axis ≠ some a) (hnodes : ∀ c ∈ flat, c.node.Ok) :
    (collapse a flat).Ok ∧ (collapse a flat).panes = flat.flatMap fun c => c.node.panes := by
  match flat with
  | [] => exact absurd rfl hshares.ne_nil
  | [only] => exact ⟨hnodes only List.mem_cons_self, (List.append_nil _).symm⟩
  | c :: d :: rest =>
    refine ⟨.split a _ (Nat.le_add_left 2 rest.length) hshares hflat hnodes, panes_split a _⟩

/-- **A loose tree is put in order**, with the same panes. -/
theorem normalizeNode_ok (h : n.Loose) :
    (normalizeNode n).Ok ∧ (normalizeNode n).panes = n.panes := by
  induction h with
  | leaf id => exact ⟨.leaf id, rfl⟩
  | split a children some shares nodes ih =>
    have hshares : Shares (normalizeAll children) := by
      rw [normalizeAll_eq]
      constructor
      · intro c hc
        obtain ⟨d, hd, rfl⟩ := List.mem_map.mp hc
        exact shares.positive d hd
      · unfold totalWeight
        rw [List.map_map]
        exact shares.total
    have hnodes : ∀ c ∈ normalizeAll children, c.node.Ok := by
      rw [normalizeAll_eq]
      intro c hc
      obtain ⟨d, hd, rfl⟩ := List.mem_map.mp hc
      exact (ih d hd).1
    have hflat := flatten_spec (a := a) hshares hnodes
    rw [normalizeNode, renormalize_eq hflat.shares]
    obtain ⟨hok, hpanes⟩ := collapse_ok hflat.shares hflat.flat hflat.nodes
    refine ⟨hok, hpanes.trans (hflat.panes.trans ?_)⟩
    rw [normalizeAll_eq, List.flatMap_map, panes_split]
    exact List.flatMap_congr fun c hc => (ih c hc).2

/-- What is in order once its children are, is put in order by these. -/
theorem normalizeNode_split (two : 2 ≤ children.length) (hshares : Shares (normalizeAll children))
    (hflat : ∀ c ∈ normalizeAll children, c.node.axis ≠ some a) :
    normalizeNode (.split a children) = .split a (normalizeAll children) := by
  have hsplice : (normalizeAll children).flatMap (splice a) = normalizeAll children := by
    have hself : ∀ cs : List Child, (∀ c ∈ cs, c.node.axis ≠ some a) →
        cs.flatMap (splice a) = cs := by
      intro cs hcs
      induction cs with
      | nil => rfl
      | cons c cs ih =>
        rw [List.flatMap_cons, splice_self (hcs c List.mem_cons_self),
          ih fun d hd => hcs d (List.mem_cons_of_mem c hd)]
        rfl
    exact hself _ hflat
  rw [normalizeNode, hsplice, renormalize_eq hshares]
  have htwo : 2 ≤ (normalizeAll children).length := by
    rw [normalizeAll_eq, List.length_map]
    exact two
  match normalizeAll children, htwo with
  | c :: d :: rest, _ => rfl

theorem normalizeAll_self
    (h : ∀ c ∈ children, normalizeNode c.node = c.node) : normalizeAll children = children := by
  rw [normalizeAll_eq]
  refine (List.map_congr_left fun c hc => ?_).trans (List.map_id children)
  rw [h c hc, Child.eta]
  rfl

/-- A tree in order stays as it is. -/
theorem Node.Ok.normalize (h : n.Ok) : normalizeNode n = n := by
  induction h with
  | leaf id => rfl
  | split a children two shares flat nodes ih =>
    have hself := normalizeAll_self ih
    rw [normalizeNode_split two (by rw [hself]; exact shares) (by rw [hself]; exact flat), hself]

end RedDb.Panes
