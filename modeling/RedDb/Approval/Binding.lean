import RedDb.Approval.DocBinding

/-!
# RedDb — approval and execution

The user allows a write by its prompt, and what runs is read from the input once more. The prompt
binds the input when every input with the same verdict does the same, with the keys and patterns that
the gate has judged.

* `approval_binds` — when it does;
* `padded_name_unbound` — a rename of another key has the same prompt.
-/

namespace RedDb.Approval

open TextCodec JsonText
open RedDb.Docs (DocValue)

inductive WriteTool where
  | kv (tool : KvTool)
  | doc (tool : DocTool)

inductive Operation where
  | kv (calls : List Call)
  | doc (call : DocCall)

/-- The keys and patterns of a call. -/
def Call.names : Call → List Text
  | .deleteKeys keys => keys
  | .deleteMatching pattern | .setTtlMatching pattern _ => [pattern]
  | .setString key .. | .setField key .. | .setAdd key _ | .zsetAdd key .. | .listPush key _ | .streamAdd key _
  | .setTtl key _ | .jsonSet key .. => [key]
  | .renameKey src dst | .copyKey src dst .. => [src, dst]
  | .clientKill .. | .command _ => []

def Operation.names : Operation → List Text
  | .kv calls => calls.flatMap Call.names
  | .doc _ => []

section Binding

variable (floats : Floats) (validateJson : Text → Option Text) (parseExtJson : Text → Option DocValue)

/-- Vet a write. -/
def assess : WriteTool → Json → WriteAssessment
  | .kv tool, input => assessKvWrite floats validateJson tool input
  | .doc tool, input => assessDocWrite tool input

/-- Run a write that was allowed. -/
def run : WriteTool → Json → Option Operation
  | .kv tool, input => (kvRunTool floats validateJson tool input).map .kv
  | .doc tool, input => (docRunTool parseExtJson tool input).map .doc

/-- The keys and patterns that the gate looks at. -/
def judgedNames : WriteTool → Json → List Text
  | .kv .set, input =>
    match kvSetPlan floats input with
    | .ok plan => [plan.key]
    | .error _ => []
  | .kv .jsonSet, input => (trimmedField "key" input).toList
  | .kv .expire, input =>
    match trimmedField "key" input with
    | some key => [key]
    | none => (trimmedField "pattern" input).toList
  | .kv .delete, input =>
    if kvDeleteTargets input = [] then (trimmedField "pattern" input).toList else kvDeleteTargets input
  | .kv .rename, input | .kv .copyKey, input =>
    (trimmedField "from" input).toList ++ (trimmedField "to" input).toList
  | .kv .configSet, _ | .kv .clientKill, _ | .kv .command, _ | .doc _, _ => []

/-- The prompt of an input binds what runs. -/
structure Binds (tool : WriteTool) (input : Json) : Prop where
  same : Bound (assess floats validateJson tool) (run floats validateJson parseExtJson tool) input
  named : ∀ op, run floats validateJson parseExtJson tool input = some op →
    ∀ name ∈ op.names, name ∈ judgedNames floats tool input

/-- The inputs whose prompt says what they do. -/
def Legible : WriteTool → Json → Prop
  | .kv tool, input => KvLegible floats tool input
  | .doc tool, input => DocLegible tool input

variable {floats validateJson parseExtJson} {tool : WriteTool} {input : Json} {op : Operation}

theorem bound_map {α β : Type} {verdict : Json → WriteAssessment} {f : Json → Option α} {g : α → β}
    (hg : Function.Injective g) : Bound verdict (fun i => (f i).map g) input ↔ Bound verdict f input :=
  forall₃_congr fun _ _ _ => (Option.map_injective hg).eq_iff

theorem planned_names (plan : KvSetPlan) : ∀ name ∈ plan.calls.flatMap Call.names, name = plan.key := by
  intro name hname
  obtain ⟨call, hcall, hname⟩ := List.mem_flatMap.mp hname
  unfold KvSetPlan.calls at hcall
  rw [List.mem_append, List.mem_append] at hcall
  obtain (hcall | hcall) | hcall := hcall
  · split at hcall
    · rw [List.mem_singleton.mp hcall] at hname
      exact List.mem_singleton.mp hname
    · cases hcall
  · cases hbody : plan.body with
    | str _ _ | set _ | stream _ =>
      rw [hbody] at hcall
      rw [List.mem_singleton.mp hcall] at hname
      exact List.mem_singleton.mp hname
    | hash _ | zset _ | list _ =>
      rw [hbody] at hcall
      obtain ⟨_, -, rfl⟩ := List.mem_map.mp hcall
      exact List.mem_singleton.mp hname
  · split at hcall
    · rw [List.mem_singleton.mp hcall] at hname
      exact List.mem_singleton.mp hname
    · cases hcall

/-- The names a legible prompt was judged by are the ones that are used. -/
theorem legible_names {tool : KvTool} {calls : List Call} (hlegible : KvLegible floats tool input)
    (hrun : kvRunTool floats validateJson tool input = some calls) :
    ∀ name ∈ calls.flatMap Call.names, name ∈ judgedNames floats (.kv tool) input := by
  obtain ⟨-, hcalls⟩ := kvRunTool_some hrun
  cases tool with
  | jsonSet | expire | rename | copyKey | configSet | clientKill => exact hlegible.elim
  | set =>
    rw [kvCalls] at hcalls
    split at hcalls
    · rename_i plan hplan
      intro name hname
      rw [← Option.some.inj hcalls] at hname
      rw [judgedNames, hplan]
      exact List.mem_singleton.mpr (planned_names plan name hname)
    · cases hcalls
  | delete =>
    have hne : kvDeleteTargets input ≠ [] := fun hnil => by
      rw [KvLegible, hnil] at hlegible
      exact hlegible
    rw [kvCalls, if_neg hne] at hcalls
    intro name hname
    rw [judgedNames, if_neg hne]
    rw [← Option.some.inj hcalls] at hname
    simpa [Call.names] using hname
  | command =>
    rw [kvCalls] at hcalls
    split at hcalls
    · intro name hname
      rw [← Option.some.inj hcalls] at hname
      exact absurd hname (by simp [Call.names])
    · cases hcalls

end Binding

/-- **When an approval binds**: the executor does for every input with the prompt of this one what it does
for this one, with the keys and patterns judged, when the prompt is legible; and not otherwise, but that
of a document write whose payload is cut nothing is said. -/
theorem approval_binds (floats : Floats) (validateJson : Text → Option Text) (parseExtJson : Text → Option DocValue)
    (tool : WriteTool) {input : Json} {op : Operation} (hlex : Lexical input)
    (hrun : run floats validateJson parseExtJson tool input = some op) :
    (Legible floats tool input → Binds floats validateJson parseExtJson tool input) ∧
      (Binds floats validateJson parseExtJson tool input →
        Legible floats tool input ∨ tool = .doc .docWrite ∧ ¬ PayloadWhole input) := by
  have hkv : Function.Injective Operation.kv := fun _ _ h => Operation.kv.inj h
  have hdoc : Function.Injective Operation.doc := fun _ _ h => Operation.doc.inj h
  cases tool with
  | kv tool =>
    obtain ⟨calls, hcalls, rfl⟩ := Option.map_eq_some_iff.mp hrun
    refine ⟨fun hlegible => ⟨(bound_map hkv).mpr ((kv_bound_iff hlex hcalls).mpr hlegible), ?_⟩,
      fun hbinds => Or.inl ((kv_bound_iff hlex hcalls).mp ((bound_map hkv).mp hbinds.same))⟩
    intro op hop
    rw [run, hcalls] at hop
    rw [← Option.some.inj hop]
    exact legible_names hlegible hcalls
  | doc tool =>
    obtain ⟨call, hcall, rfl⟩ := Option.map_eq_some_iff.mp hrun
    refine ⟨fun hlegible => ⟨(bound_map hdoc).mpr ((doc_bound hlex hcall).1 hlegible), ?_⟩, fun hbinds => ?_⟩
    · intro op hop
      rw [run, hcall] at hop
      rw [← Option.some.inj hop]
      exact nofun
    · obtain h | ⟨rfl, hcut⟩ := (doc_bound hlex hcall).2 ((bound_map hdoc).mp hbinds.same)
      · exact Or.inl h
      · exact Or.inr ⟨rfl, hcut⟩

/-- Floats by their bits, which are whole numbers. -/
def bitFloats : Floats where
  asF64 token := UInt64.ofNat (numeral token)
  display x := natText x.toNat
  display_chars _ c hc := by
    rw [isNumberChar, natText_digits c hc]
    rfl
  display_inj _ _ h := UInt64.toNat_inj.mp (natText_inj h)

/-- A deletion of two keys is bound by its prompt. -/
theorem approval_binds_two_keys :
    Binds bitFloats (fun _ => none) (fun _ => none) (.kv .delete) (keysInput ["user:1".toList, "user:2".toList]) :=
  (approval_binds bitFloats (fun _ => none) (fun _ => none) (.kv .delete) (lexical_keysInput _)
    (show run _ _ _ _ _ = some (.kv [.deleteKeys ["user:1".toList, "user:2".toList]]) from rfl)).1
    (show Listed (kvDeleteTargets (keysInput ["user:1".toList, "user:2".toList])) by
      rw [kvDeleteTargets_keysInput]
      exact fun k hk => by revert k; decide)

/-- A rename from a key to `done`. -/
def renameInput (key : String) : Json := .object [("from", .string key), ("to", .string "done")]

/-- With the prompt of a rename of `job`, the key that is renamed is ` job`. -/
theorem padded_name_unbound : ¬ ∀ (tool : WriteTool) (a b : Json), Lexical a → Lexical b →
      assess bitFloats (fun _ => none) tool a = assess bitFloats (fun _ => none) tool b →
      run bitFloats (fun _ => none) (fun _ => none) tool a = run bitFloats (fun _ => none) (fun _ => none) tool b := by
  intro h
  have hsame := h (.kv .rename) (renameInput "job") (renameInput " job") ⟨trivial, trivial, trivial⟩
    ⟨trivial, trivial, trivial⟩ (by decide)
  have hmap : (kvRunTool bitFloats (fun _ => none) .rename (renameInput "job")).map Operation.kv =
      (kvRunTool bitFloats (fun _ => none) .rename (renameInput " job")).map Operation.kv := hsame
  have hcalls := Option.map_injective (fun _ _ h => Operation.kv.inj h) hmap
  revert hcalls
  decide

end RedDb.Approval
