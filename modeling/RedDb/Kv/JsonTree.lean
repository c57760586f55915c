import RedDb.Kv.Reads
import RedDb.Lib.Machine
import Mathlib.Data.Finset.Basic
import Mathlib.Data.List.Nodup

/-!
# RedDb — the levels of a JSON document

The inspector reads a large JSON document one level at a time, each level a window of its
children. A reply that starts where the level ends is appended; any other one takes the
level's place. Replies arrive in the order of their requests, and some do not arrive.

* `windowed_step` — every level is a window of its container, whatever arrives;
* `contiguous_iff_meets` — the levels are read from their first child on exactly as long
  as every window behind the first meets the end of its level.
-/

namespace RedDb.Kv

/-! ## Documents -/

inductive JsonSeg where
  | member (name : String)
  | index (i : Nat)
  deriving DecidableEq

/-- The steps from the root. -/
abbrev JsonPath := List JsonSeg

inductive JsonKind where
  | object
  | array
  | string
  | number
  | boolean
  | null

structure JsonNode where
  seg : JsonSeg
  kind : JsonKind
  len : Option Nat
  preview : Option String

inductive JsonNodeView where
  | scalar (kind : JsonKind) (value : ReadText)
  | container (kind : JsonKind) (len offset : Nat) (children : List JsonNode)

/-- A container's elements in order: each has a step of its own. -/
structure JsonContainer where
  kind : JsonKind
  elements : List JsonNode
  distinct : (elements.map JsonNode.seg).Nodup

/-- What stands at a path of the document on the server. -/
abbrev JsonDocument := JsonPath → Option (JsonContainer ⊕ (JsonKind × ReadText))

def jsonNodeWindow : Nat := 100

/-- One node: its value, or a window of its children. -/
def readNode (doc : JsonDocument) (path : JsonPath) (offset count : Nat) : Option JsonNodeView :=
  match doc path with
  | none => none
  | some (.inr (kind, value)) => some (.scalar kind value)
  | some (.inl c) =>
    some (.container c.kind c.elements.length offset ((c.elements.drop offset).take (max count 1)))

/-! ## The tree -/

structure JsonTreeState where
  nodes : JsonPath → Option JsonNodeView
  expanded : Finset JsonPath
  loading : Finset JsonPath

namespace JsonTreeState

def default : JsonTreeState := ⟨fun _ => none, ∅, ∅⟩

/-- The tree of a value just read: its root level, or nothing when it came as text. -/
def fromDoc (root : Option JsonNodeView) : JsonTreeState :=
  match root with
  | none => default
  | some root => ⟨Function.update (fun _ => none) [] (some root), {[]}, ∅⟩

/-- A window that starts where the level ends is appended, another one replaces it. -/
def merge : Option JsonNodeView → JsonNodeView → JsonNodeView
  | some (.container kind _ offset have_), .container kind' len nextOffset more =>
    if nextOffset = offset + have_.length then .container kind len offset (have_ ++ more)
    else .container kind' len nextOffset more
  | _, fresh => fresh

/-- `KvJsonNodeReady`: fold one level into the tree. -/
def nodeReady (json : JsonTreeState) (path : JsonPath) (view : Option JsonNodeView) :
    JsonTreeState :=
  let loading := json.loading.erase path
  match view with
  | none => ⟨Function.update json.nodes path none, json.expanded.erase path, loading⟩
  | some fresh =>
    ⟨Function.update json.nodes path (some (merge (json.nodes path) fresh)), json.expanded, loading⟩

end JsonTreeState

/-- The tree, and the requests that no reply has arrived for, oldest first. -/
structure JsonInspector where
  json : JsonTreeState
  sent : List (JsonPath × Nat)

namespace JsonInspector

def request (w : JsonInspector) (path : JsonPath) (offset : Nat) : JsonInspector :=
  ⟨{ w.json with loading := insert path w.json.loading }, w.sent ++ [(path, offset)]⟩

def loadMore (w : JsonInspector) (path : JsonPath) : JsonInspector :=
  match w.json.nodes path with
  | some (.container _ _ offset children) => w.request path (offset + children.length)
  | _ => w

def toggle (w : JsonInspector) (path : JsonPath) : JsonInspector :=
  if path ∈ w.json.expanded then
    { w with json := { w.json with expanded := w.json.expanded.erase path } }
  else
    let opened := { w with json := { w.json with expanded := insert path w.json.expanded } }
    if (w.json.nodes path).isNone then opened.request path 0 else opened

/-- The tree instead of the raw text: asks for the root level if it was never read. -/
def showTree (w : JsonInspector) : JsonInspector :=
  if (w.json.nodes []).isNone && [] ∉ w.json.loading then
    { w with json := { w.json with expanded := insert [] w.json.expanded } }.request [] 0
  else w

end JsonInspector

/-! ## The machine -/

/-- The inspector opens, the value arrives, the user asks for a level, the oldest request is
answered, or it never is. -/
inductive JsonEvent where
  | opened
  | valueReady (lazily : Bool)
  | toggle (path : JsonPath)
  | loadMore (path : JsonPath)
  | showTree
  | answered
  | lost

variable {path : JsonPath} {children : List JsonNode} {offset : Nat}

section Levels

variable (doc : JsonDocument)

def JsonInspector.step (w : JsonInspector) : JsonEvent → Option JsonInspector
  | .opened => some { w with json := .default }
  | .valueReady lazily =>
    some { w with json := .fromDoc (if lazily then readNode doc [] 0 jsonNodeWindow else none) }
  | .toggle path => some (w.toggle path)
  | .loadMore path => some (w.loadMore path)
  | .showTree => some w.showTree
  | .answered => w.sent.head?.map fun (path, offset) =>
    ⟨w.json.nodeReady path (readNode doc path offset jsonNodeWindow), w.sent.tail⟩
  | .lost => w.sent.head?.map fun _ => { w with sent := w.sent.tail }

/-! ## What is promised -/

/-- The children shown for a level are the first ones of its container, each once. -/
structure Contiguous (json : JsonTreeState) : Prop where
  leading : ∀ path kind len offset children,
    json.nodes path = some (.container kind len offset children) →
      ∃ c, doc path = some (.inl c) ∧ children <+: c.elements
  once : ∀ path kind len offset children,
    json.nodes path = some (.container kind len offset children) →
      (children.map JsonNode.seg).Nodup

/-- A window of the container at a path, empty only behind its end. -/
def Window (path : JsonPath) (offset : Nat) (children : List JsonNode) : Prop :=
  ∃ c, doc path = some (.inl c) ∧ children <+: c.elements.drop offset ∧
    (children = [] → c.elements.length ≤ offset)

/-- What holds of the levels whatever arrives. -/
def Windowed (json : JsonTreeState) : Prop :=
  ∀ path kind len offset children,
    json.nodes path = some (.container kind len offset children) → Window doc path offset children

/-- A window behind the first one meets the end of its level, or has nothing in it. -/
def Meets (json : JsonTreeState) (path : JsonPath) (offset : Nat) : Prop :=
  ∀ c, doc path = some (.inl c) → 0 < offset → offset < c.elements.length →
    ∃ kind len first children,
      json.nodes path = some (.container kind len first children) ∧
        offset = first + children.length

/-- The next reply meets the end of its level. -/
def JsonInspector.Keeps (w : JsonInspector) : JsonEvent → Prop
  | .answered => ∀ request ∈ w.sent.head?, Meets doc w.json request.1 request.2
  | _ => True

variable {doc} {json : JsonTreeState}

theorem window_fetched {c : JsonContainer} (hc : doc path = some (.inl c))
    (offset count : Nat) :
    Window doc path offset ((c.elements.drop offset).take (max count 1)) := by
  refine ⟨c, hc, List.take_prefix _ _, fun hnil => ?_⟩
  rcases List.take_eq_nil_iff.mp hnil with hzero | hdrop
  · omega
  · exact List.drop_eq_nil_iff.mp hdrop

/-- Two windows end to end are one. -/
theorem Window.append {more : List JsonNode}
    (h : Window doc path offset children)
    (hmore : Window doc path (offset + children.length) more) :
    Window doc path offset (children ++ more) := by
  obtain ⟨c, hc, hfront, hempty⟩ := h
  obtain ⟨c', hc', hfront', -⟩ := hmore
  obtain rfl : c = c' := Sum.inl.inj (Option.some.inj (hc.symm.trans hc'))
  refine ⟨c, hc, ?_, fun hnil => hempty (List.append_eq_nil_iff.mp hnil).1⟩
  obtain ⟨tail, htail⟩ := hfront
  have hrest : c.elements.drop (offset + children.length) = tail := by
    rw [← List.drop_drop, ← htail, List.drop_left]
  rw [hrest] at hfront'
  rw [← htail]
  exact (List.prefix_append_right_inj _).mpr hfront'

/-- A window is read from the first child on when it starts there or holds nothing. -/
theorem Window.leading_iff
    (h : Window doc path offset children) :
    (∃ c, doc path = some (.inl c) ∧ children <+: c.elements) ↔ offset = 0 ∨ children = [] := by
  obtain ⟨c, hc, hfront, -⟩ := h
  constructor
  · rintro ⟨c', hc', hlead⟩
    obtain rfl : c = c' := Sum.inl.inj (Option.some.inj (hc.symm.trans hc'))
    cases children with
    | nil => exact Or.inr rfl
    | cons node rest =>
      refine Or.inl ?_
      obtain ⟨tail, htail⟩ := hfront
      obtain ⟨all, hall⟩ := hlead
      have hhere : c.elements[offset]? = some node := by
        rw [← List.head?_drop, ← htail]
        rfl
      have hfirst : c.elements[0]? = some node := by
        rw [← hall]
        rfl
      obtain ⟨ho, hhere⟩ := List.getElem?_eq_some_iff.mp hhere
      obtain ⟨h0, hfirst⟩ := List.getElem?_eq_some_iff.mp hfirst
      exact c.distinct.of_map.getElem_inj_iff.mp (hhere.trans hfirst.symm)
  · rintro (rfl | rfl)
    · exact ⟨c, hc, hfront⟩
    · exact ⟨c, hc, List.nil_prefix⟩

theorem Window.once
    (h : Window doc path offset children) : (children.map JsonNode.seg).Nodup := by
  obtain ⟨c, -, hfront, -⟩ := h
  exact c.distinct.sublist
    ((hfront.sublist.trans (List.drop_sublist _ _)).map JsonNode.seg)

/-- The promise, level by level. -/
theorem contiguous_iff (h : Windowed doc json) :
    Contiguous doc json ↔ ∀ path kind len offset children,
      json.nodes path = some (.container kind len offset children) → offset = 0 ∨ children = [] := by
  constructor
  · intro hcont path kind len offset children hnode
    exact (h _ _ _ _ _ hnode).leading_iff.mp (hcont.leading _ _ _ _ _ hnode)
  · intro hall
    refine ⟨fun path kind len offset children hnode => ?_, fun path kind len offset children hnode =>
      (h _ _ _ _ _ hnode).once⟩
    exact (h _ _ _ _ _ hnode).leading_iff.mpr (hall _ _ _ _ _ hnode)

/-! ## One reply -/

/-- Where a window lands: at the end of the level, or in its place. -/
theorem merge_container (held : Option JsonNodeView) (kind : JsonKind) (len offset : Nat)
    (more : List JsonNode) :
    (∃ kind' len' first children, held = some (.container kind' len' first children) ∧
        offset = first + children.length ∧
        JsonTreeState.merge held (.container kind len offset more) =
          .container kind' len first (children ++ more)) ∨
      ((∀ kind' len' first children, held = some (.container kind' len' first children) →
          offset ≠ first + children.length) ∧
        JsonTreeState.merge held (.container kind len offset more) =
          .container kind len offset more) := by
  cases held with
  | none =>
    refine Or.inr ⟨?_, rfl⟩
    rintro _ _ _ _ ⟨⟩
  | some view =>
    cases view with
    | scalar kind' value =>
      refine Or.inr ⟨?_, rfl⟩
      rintro _ _ _ _ ⟨⟩
    | container kind' len' first children =>
      by_cases hmeet : offset = first + children.length
      · exact Or.inl ⟨kind', len', first, children, rfl, hmeet, if_pos hmeet⟩
      · refine Or.inr ⟨?_, if_neg hmeet⟩
        rintro _ _ _ _ ⟨⟩
        exact hmeet

theorem merge_scalar (held : Option JsonNodeView) (kind : JsonKind) (value : ReadText) :
    JsonTreeState.merge held (.scalar kind value) = .scalar kind value := by
  cases held with
  | none => rfl
  | some view => cases view <;> rfl

/-- A level after a reply is the reply's or one that stood before. -/
theorem nodeReady_nodes (json : JsonTreeState) (path : JsonPath) (view : Option JsonNodeView) :
    (json.nodeReady path view).nodes =
      Function.update json.nodes path (view.map (JsonTreeState.merge (json.nodes path))) := by
  cases view <;> rfl

theorem windowed_nodeReady (h : Windowed doc json) (path : JsonPath) (offset count : Nat) :
    Windowed doc (json.nodeReady path (readNode doc path offset count)) := by
  intro p kind len first children hnode
  rw [nodeReady_nodes] at hnode
  by_cases hp : p = path
  · subst hp
    rw [Function.update_self] at hnode
    obtain ⟨view, hview, hmerged⟩ := Option.map_eq_some_iff.mp hnode
    unfold readNode at hview
    split at hview
    · cases hview
    · obtain rfl := Option.some.inj hview
      rw [merge_scalar] at hmerged
      cases hmerged
    · rename_i c hc
      obtain rfl := Option.some.inj hview
      have hfetched := window_fetched hc offset count
      rcases merge_container (json.nodes p) c.kind c.elements.length offset
          ((c.elements.drop offset).take (max count 1)) with
        ⟨kind', len', first', held, hheld, rfl, hmerge⟩ | ⟨-, hmerge⟩
      · obtain ⟨-, -, rfl, rfl⟩ := JsonNodeView.container.inj (hmerge.symm.trans hmerged)
        exact (h _ _ _ _ _ hheld).append hfetched
      · obtain ⟨-, -, rfl, rfl⟩ := JsonNodeView.container.inj (hmerge.symm.trans hmerged)
        exact hfetched
  · rw [Function.update_of_ne hp] at hnode
    exact h _ _ _ _ _ hnode

/-- Every level starts at its first child, or holds nothing. -/
def Led (json : JsonTreeState) : Prop :=
  ∀ path kind len offset children,
    json.nodes path = some (.container kind len offset children) → offset = 0 ∨ children = []

theorem led_update {nodes : JsonPath → Option JsonNodeView}
    {view : Option JsonNodeView} {expanded loading : Finset JsonPath} (h : Led ⟨nodes, expanded, loading⟩) :
    Led ⟨Function.update nodes path view, expanded, loading⟩ ↔
      ∀ kind len offset children, view = some (.container kind len offset children) →
        offset = 0 ∨ children = [] := by
  constructor
  · intro hled kind len offset children hview
    refine hled path kind len offset children ?_
    show Function.update nodes path view path = _
    rw [Function.update_self, hview]
  · intro hview p kind len offset children hnode
    by_cases hp : p = path
    · subst hp
      exact hview kind len offset children (by rwa [← Function.update_self p view nodes])
    · refine h p kind len offset children ?_
      rw [← hnode]
      exact (Function.update_of_ne hp view nodes).symm

/-- A reply keeps the levels led exactly when it meets the end of its own. -/
theorem led_nodeReady_iff (hwindow : Windowed doc json) (h : Led json) (path : JsonPath)
    (offset : Nat) {count : Nat} :
    Led (json.nodeReady path (readNode doc path offset count)) ↔ Meets doc json path offset := by
  have hnodes : Led (json.nodeReady path (readNode doc path offset count)) ↔
      Led ⟨Function.update json.nodes path
        ((readNode doc path offset count).map (JsonTreeState.merge (json.nodes path))),
        json.expanded, json.loading⟩ := by
    unfold Led
    rw [nodeReady_nodes]
  rw [hnodes, led_update h]
  unfold readNode
  cases hdoc : doc path with
  | none =>
    refine iff_of_true (fun _ _ _ _ hview => by cases hview) fun c hc => ?_
    rw [hdoc] at hc
    cases hc
  | some source =>
    cases source with
    | inr leaf =>
      refine iff_of_true (fun _ _ _ _ hview => ?_) fun c hc => ?_
      · rw [Option.map_some, merge_scalar] at hview
        cases hview
      · rw [hdoc] at hc
        cases hc
    | inl c =>
      dsimp only
      rw [Option.map_some]
      have hempty : (c.elements.drop offset).take (max count 1) = [] ↔ c.elements.length ≤ offset := by
        rw [List.take_eq_nil_iff, List.drop_eq_nil_iff]
        omega
      rcases merge_container (json.nodes path) c.kind c.elements.length offset
          ((c.elements.drop offset).take (max count 1)) with
        ⟨kind', len', first, held, hheld, hmeet, hmerge⟩ | ⟨hmiss, hmerge⟩
      · rw [hmerge]
        refine iff_of_true ?_ fun _ _ _ _ => ⟨kind', len', first, held, hheld, hmeet⟩
        intro kind len offset' children hview
        obtain ⟨-, -, rfl, rfl⟩ := JsonNodeView.container.inj (Option.some.inj hview)
        rcases h _ _ _ _ _ hheld with hzero | hnil
        · exact Or.inl hzero
        -- An empty level stands behind the end, and so does what is appended to it.
        obtain ⟨c', hc', -, hend⟩ := hwindow _ _ _ _ _ hheld
        obtain rfl : c = c' := Sum.inl.inj (Option.some.inj (hdoc.symm.trans hc'))
        have hle := hend hnil
        rw [hnil, List.length_nil, Nat.add_zero] at hmeet
        exact Or.inr (by rw [hnil, hempty.mpr (by omega)]; rfl)
      · rw [hmerge]
        have hone : (∀ kind len offset' children, some (JsonNodeView.container c.kind
            c.elements.length offset ((c.elements.drop offset).take (max count 1))) =
              some (.container kind len offset' children) → offset' = 0 ∨ children = []) ↔
            offset = 0 ∨ c.elements.length ≤ offset := by
          rw [← hempty]
          refine ⟨fun hall => hall _ _ _ _ rfl, ?_⟩
          rintro hor _ _ _ _ ⟨⟩
          exact hor
        rw [hone]
        constructor
        · rintro hor c' hc' hpos hlt
          obtain rfl : c = c' := Sum.inl.inj (Option.some.inj (hdoc.symm.trans hc'))
          omega
        · intro hmeets
          by_contra hnot
          obtain ⟨kind, len, first, children, hheld, hmeet⟩ :=
            hmeets c hdoc (by omega) (by omega)
          exact hmiss kind len first children hheld hmeet

/-! ## Runs -/

variable {w t : JsonInspector} {e : JsonEvent}

theorem loadMore_nodes (path : JsonPath) : (w.loadMore path).json.nodes = w.json.nodes := by
  unfold JsonInspector.loadMore
  split <;> rfl

theorem toggle_nodes (path : JsonPath) : (w.toggle path).json.nodes = w.json.nodes := by
  unfold JsonInspector.toggle
  split
  · rfl
  · dsimp only
    split <;> rfl

theorem showTree_nodes : w.showTree.json.nodes = w.json.nodes := by
  unfold JsonInspector.showTree
  split <;> rfl

theorem windowed_congr {json' : JsonTreeState} (h : json'.nodes = json.nodes) :
    Windowed doc json' ↔ Windowed doc json := by
  unfold Windowed
  rw [h]

theorem led_congr {json' : JsonTreeState} (h : json'.nodes = json.nodes) : Led json' ↔ Led json := by
  unfold Led
  rw [h]

theorem windowed_default : Windowed doc .default := fun _ _ _ _ _ hnode => by cases hnode

/-- A tree just opened on a value is one that a reply for the root came to. -/
theorem fromDoc_nodes (root : Option JsonNodeView) :
    (JsonTreeState.fromDoc root).nodes = (JsonTreeState.default.nodeReady [] root).nodes := by
  cases root with
  | none =>
    exact (Function.update_eq_self (f := fun _ : JsonPath => (none : Option JsonNodeView)) []).symm
  | some root => cases root <;> rfl

/-- Whatever arrives, every level is a window of its container. -/
theorem windowed_step (h : Windowed doc w.json) (hstep : w.step doc e = some t) :
    Windowed doc t.json := by
  cases e with
  | opened =>
    obtain rfl := Option.some.inj hstep
    exact windowed_default
  | valueReady lazily =>
    obtain rfl := Option.some.inj hstep
    rw [windowed_congr (fromDoc_nodes _)]
    cases lazily with
    | true => exact windowed_nodeReady windowed_default [] 0 jsonNodeWindow
    | false => exact (windowed_congr (fromDoc_nodes none)).mp windowed_default
  | toggle path =>
    obtain rfl := Option.some.inj hstep
    exact (windowed_congr (toggle_nodes path)).mpr h
  | loadMore path =>
    obtain rfl := Option.some.inj hstep
    exact (windowed_congr (loadMore_nodes path)).mpr h
  | showTree =>
    obtain rfl := Option.some.inj hstep
    exact (windowed_congr showTree_nodes).mpr h
  | answered =>
    obtain ⟨⟨path, offset⟩, -, rfl⟩ := Option.map_eq_some_iff.mp hstep
    exact windowed_nodeReady h _ _ _
  | lost =>
    obtain ⟨_, -, rfl⟩ := Option.map_eq_some_iff.mp hstep
    exact h

theorem led_default : Led .default := fun _ _ _ _ _ hnode => by cases hnode

/-- One step keeps the levels led exactly when its reply meets the end of its level. -/
theorem led_step_iff (hwindow : Windowed doc w.json) (h : Led w.json)
    (hstep : w.step doc e = some t) : Led t.json ↔ w.Keeps doc e := by
  cases e with
  | opened =>
    obtain rfl := Option.some.inj hstep
    exact iff_of_true led_default trivial
  | valueReady lazily =>
    obtain rfl := Option.some.inj hstep
    refine iff_of_true ((led_congr (fromDoc_nodes _)).mpr ?_) trivial
    cases lazily with
    | true =>
      refine (led_nodeReady_iff windowed_default led_default [] 0).mpr fun c _ hpos => ?_
      exact absurd hpos (Nat.lt_irrefl 0)
    | false => exact (led_congr (fromDoc_nodes none)).mp led_default
  | toggle path =>
    obtain rfl := Option.some.inj hstep
    exact iff_of_true ((led_congr (toggle_nodes path)).mpr h) trivial
  | loadMore path =>
    obtain rfl := Option.some.inj hstep
    exact iff_of_true ((led_congr (loadMore_nodes path)).mpr h) trivial
  | showTree =>
    obtain rfl := Option.some.inj hstep
    exact iff_of_true ((led_congr showTree_nodes).mpr h) trivial
  | answered =>
    obtain ⟨⟨path, offset⟩, hsent, rfl⟩ := Option.map_eq_some_iff.mp hstep
    refine (led_nodeReady_iff hwindow h path offset).trans ?_
    show _ ↔ ∀ request ∈ w.sent.head?, _
    rw [hsent]
    refine ⟨?_, fun hkeeps => hkeeps (path, offset) rfl⟩
    rintro hmeets _ ⟨⟩
    exact hmeets
  | lost =>
    obtain ⟨_, -, rfl⟩ := Option.map_eq_some_iff.mp hstep
    exact iff_of_true h trivial

def JsonInspector.fresh : JsonInspector := ⟨.default, []⟩

/-- **Paged levels.** Whatever the user asks for, and whichever requests are answered, the
levels show the first children of their containers throughout exactly when every answered
window meets the end of its level. -/
theorem contiguous_iff_meets (doc : JsonDocument) (events : List JsonEvent) :
    Machine.Always (JsonInspector.step doc) (fun w => Contiguous doc w.json) .fresh events ↔
      Machine.Meets (JsonInspector.step doc) (JsonInspector.Keeps doc) .fresh events := by
  refine Machine.always_iff_of_inv (I := fun w => Windowed doc w.json)
    (fun _ _ _ => windowed_step) ?_ ?_ windowed_default ?_
  · intro w e t hwindow hcont hstep
    have hled : Led w.json := (contiguous_iff hwindow).mp hcont
    exact (contiguous_iff (windowed_step hwindow hstep)).trans (led_step_iff hwindow hled hstep)
  · intro w e hnone
    cases e with
    | answered =>
      have hsent : w.sent.head? = none := Option.map_eq_none_iff.mp hnone
      show ∀ request ∈ w.sent.head?, _
      rw [hsent]
      exact fun _ hmem => by cases hmem
    | opened | valueReady _ | toggle _ | loadMore _ | showTree | lost => trivial
  · exact (contiguous_iff windowed_default).mpr led_default

end Levels

/-- An array of 150 numbers at the root. -/
def numbers : JsonDocument := fun path =>
  if path = [] then some (.inl
    { kind := .array
      elements := (List.range 150).map fun i => ⟨.index i, .number, none, some (toString i)⟩
      distinct := by
        rw [List.map_map]
        exact List.nodup_range.map fun _ _ h => JsonSeg.index.inj h })
  else none

/-- More is asked for twice before it arrives: the second half takes the level's place. -/
def asksTwice : List JsonEvent :=
  [.valueReady true, .loadMore [], .loadMore [], .answered, .answered]

/-- The step of the first child shown under the root. -/
def firstShown (json : JsonTreeState) : Option JsonSeg :=
  match json.nodes [] with
  | some (.container _ _ _ children) => children.head?.map JsonNode.seg
  | _ => none

theorem numbers_skipped :
    ¬ Machine.Always (JsonInspector.step numbers) (fun w => Contiguous numbers w.json) .fresh
      asksTwice := by
  intro h
  have hrun : (Machine.run (JsonInspector.step numbers) .fresh asksTwice).map
      (fun w => firstShown w.json) = some (some (.index 100)) := by
    decide +kernel
  obtain ⟨w, hw, hfirst⟩ := Option.map_eq_some_iff.mp hrun
  have hcont := Machine.always_run h hw
  unfold firstShown at hfirst
  split at hfirst
  · rename_i kind len offset children hnode
    obtain ⟨node, hnode', hseg⟩ := Option.map_eq_some_iff.mp hfirst
    obtain ⟨c, hc, tail, htail⟩ := hcont.leading _ _ _ _ _ hnode
    have hzero : c.elements.head?.map JsonNode.seg = some (.index 0) := by
      obtain rfl := Sum.inl.inj (Option.some.inj hc)
      rfl
    rw [← htail, List.head?_append, hnode'] at hzero
    have hsame : node.seg = .index 0 := Option.some.inj hzero
    rw [hseg] at hsame
    cases hsame
  · cases hfirst

end RedDb.Kv
