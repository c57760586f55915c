import RedDb.Approval.Commands
import RedDb.Approval.KvWrites

/-!
# RedDb — what the prompt of a Redis write binds

An approval is of a prompt. It binds the call when every input with this prompt makes the same calls.
A name that the gate trims and the executor does not is bound by no prompt; keys in a list are told
apart unless one of them holds the separator; a plan is told from its commands when none is cut.

* `kv_bound_iff` — which calls of the Redis tools their prompts bind.
-/

namespace RedDb.Approval

open TextCodec JsonText Delimited

/-- Whatever has the verdict of this input, the text of the prompt with it, does the same. -/
def Bound {α : Type} (assess : Json → WriteAssessment) (run : Json → Option α) (input : Json) : Prop :=
  ∀ other, Lexical other → assess other = assess input → run other = run input

section Kv

variable (floats : Floats) (validateJson : Text → Option Text)

/-- The keys of a list can be told from the list. -/
def Listed : List Text → Prop
  | [] => False
  | [_] => True
  | keys => ∀ k ∈ keys, ¬ [',', ' '] <:+: k

/-- The inputs whose prompt says what they do. -/
def KvLegible : KvTool → Json → Prop
  | .command, _ => True
  | .delete, input => Listed (kvDeleteTargets input)
  | .set, input => ∀ plan, kvSetPlan floats input = .ok plan →
      (plan.commandsText floats).length ≤ kvSetPromptChars
  | .jsonSet, _ | .expire, _ | .rename, _ | .copyKey, _ | .configSet, _ | .clientKill, _ => False

variable {floats validateJson} {tool : KvTool} {input other : Json} {calls : List Call}

theorem kvRunTool_some (h : kvRunTool floats validateJson tool input = some calls) :
    (∀ why, assessKvWrite floats validateJson tool input ≠ .reject why) ∧
      kvCalls floats validateJson tool input = some calls := by
  unfold kvRunTool at h
  split at h
  · cases h
  · rename_i hverdict
    exact ⟨hverdict, h⟩

theorem kvRunTool_eq (h : ∀ why, assessKvWrite floats validateJson tool input ≠ .reject why) :
    kvRunTool floats validateJson tool input = kvCalls floats validateJson tool input := by
  unfold kvRunTool
  split
  · exact absurd ‹_› (h _)
  · rfl

/-- Another input with the same prompt and other calls. -/
theorem not_bound (hrun : kvRunTool floats validateJson tool input = some calls) (hlex : Lexical other)
    (hassess : assessKvWrite floats validateJson tool other = assessKvWrite floats validateJson tool input)
    (hcalls : kvCalls floats validateJson tool other ≠ some calls) :
    ¬ Bound (assessKvWrite floats validateJson tool) (kvRunTool floats validateJson tool) input := by
  intro h
  have hother := h other hlex hassess
  rw [hrun, kvRunTool_eq fun why => hassess ▸ (kvRunTool_some hrun).1 why] at hother
  exact hcalls hother

/-! ## Names with a blank behind them -/

theorem lexical_padField (key : String) (h : Lexical input) : Lexical (padField key input) :=
  lexical_put key h trivial

theorem names_some {first second : String} {f t : Text} (h : names first second input = some (f, t)) :
    filledField first input = some f ∧ filledField second input = some t := by
  unfold names at h
  split at h
  · rename_i hf ht
    cases h
    exact ⟨hf, ht⟩
  · cases h

theorem names_padField {second : String} (hne : second ≠ "from") {f t : Text}
    (h : names "from" second input = some (f, t)) :
    names "from" second (padField "from" input) = some (pad f, t) := by
  obtain ⟨hf, ht⟩ := names_some h
  have hobject := isObject_of_strField (strField_of_filled hf)
  have hsecond : filledField second (padField "from" input) = some t := by
    rw [filledField_put_ne hne]
    exact ht
  rw [names, filledField_padField hobject, hsecond, strField_of_filled hf]
  rfl

theorem rename_not_bound (hlex : Lexical input)
    (hrun : kvRunTool floats validateJson .rename input = some calls) :
    ¬ Bound (assessKvWrite floats validateJson .rename) (kvRunTool floats validateJson .rename) input := by
  obtain ⟨-, hcalls⟩ := kvRunTool_some hrun
  obtain ⟨⟨f, t⟩, hnames, rfl⟩ := Option.map_eq_some_iff.mp hcalls
  have hobject := isObject_of_strField (strField_of_filled (names_some hnames).1)
  refine not_bound hrun (lexical_padField "from" hlex) ?_ ?_
  · simp only [assessKvWrite, assessRename, trimmedField_padField hobject]
    rw [trimmedField_put_ne (by decide)]
  · rw [kvCalls, names_padField (by decide) hnames]
    simp [pad_ne]

theorem copyKey_not_bound (hlex : Lexical input)
    (hrun : kvRunTool floats validateJson .copyKey input = some calls) :
    ¬ Bound (assessKvWrite floats validateJson .copyKey) (kvRunTool floats validateJson .copyKey) input := by
  obtain ⟨-, hcalls⟩ := kvRunTool_some hrun
  obtain ⟨⟨f, t⟩, hnames, rfl⟩ := Option.map_eq_some_iff.mp hcalls
  have hobject := isObject_of_strField (strField_of_filled (names_some hnames).1)
  refine not_bound hrun (lexical_padField "from" hlex) ?_ ?_
  · simp only [assessKvWrite, assessCopyKey, trimmedField_padField hobject]
    rw [trimmedField_put_ne (by decide), boolField_put_ne (by decide)]
  · rw [kvCalls, names_padField (by decide) hnames]
    simp [pad_ne]

theorem configSet_not_bound (hlex : Lexical input)
    (hrun : kvRunTool floats validateJson .configSet input = some calls) :
    ¬ Bound (assessKvWrite floats validateJson .configSet) (kvRunTool floats validateJson .configSet) input := by
  obtain ⟨-, hcalls⟩ := kvRunTool_some hrun
  obtain ⟨p, hp, rfl⟩ := Option.map_eq_some_iff.mp hcalls
  have hobject := isObject_of_strField (strField_of_filled hp)
  refine not_bound hrun (lexical_padField "parameter" hlex) ?_ ?_
  · simp only [assessKvWrite, assessConfigSet, trimmedField_padField hobject]
    rw [strField_put_ne (by decide)]
  · rw [kvCalls, filledField_padField hobject, strField_of_filled hp]
    simp [pad_ne]

theorem clientKill_not_bound (hlex : Lexical input)
    (hrun : kvRunTool floats validateJson .clientKill input = some calls) :
    ¬ Bound (assessKvWrite floats validateJson .clientKill) (kvRunTool floats validateJson .clientKill) input := by
  obtain ⟨-, hcalls⟩ := kvRunTool_some hrun
  obtain ⟨id, hid, rfl⟩ := Option.map_eq_some_iff.mp hcalls
  obtain ⟨v, hv, -⟩ := Option.bind_eq_some_iff.mp hid
  have hobject := isObject_of_get (Option.isSome_of_eq_some hv)
  have hsame : intField "id" (padField "addr" input) = some id := by
    rw [intField_put_ne (by decide)]
    exact hid
  refine not_bound hrun (lexical_padField "addr" hlex) ?_ ?_
  · simp only [assessKvWrite, assessClientKill, trimmedField_padField hobject, hsame, hid]
    rw [trimmedField_put_ne (by decide)]
  · rw [kvCalls, hsame, Option.map_some]
    simp [filledField_padField_ne hobject]

theorem expire_not_bound (hlex : Lexical input)
    (hrun : kvRunTool floats validateJson .expire input = some calls) :
    ¬ Bound (assessKvWrite floats validateJson .expire) (kvRunTool floats validateJson .expire) input := by
  obtain ⟨-, hcalls⟩ := kvRunTool_some hrun
  have hcalls' := hcalls
  rw [kvCalls] at hcalls
  cases hkey : filledField "key" input with
  | some key =>
    rw [hkey] at hcalls
    have hobject := isObject_of_strField (strField_of_filled hkey)
    refine not_bound hrun (lexical_padField "key" hlex) ?_ ?_
    · simp only [assessKvWrite, assessExpire, trimmedField_padField hobject]
      rw [trimmedField_put_ne (by decide), secondsField, intField_put_ne (by decide), ← secondsField]
    · rw [← Option.some.inj hcalls, kvCalls, filledField_padField hobject, strField_of_filled hkey]
      simp [pad_ne]
  | none =>
    rw [hkey] at hcalls
    obtain ⟨pattern, hpattern, rfl⟩ := Option.map_eq_some_iff.mp hcalls
    have hobject := isObject_of_strField (strField_of_filled hpattern)
    have hother : filledField "key" (padField "pattern" input) = none := by
      rw [filledField_put_ne (by decide)]
      exact hkey
    refine not_bound hrun (lexical_padField "pattern" hlex) ?_ ?_
    · simp only [assessKvWrite, assessExpire, trimmedField_padField hobject]
      rw [trimmedField_put_ne (by decide), secondsField, intField_put_ne (by decide), ← secondsField]
    · rw [kvCalls, hother, filledField_padField hobject, strField_of_filled hpattern]
      simp [pad_ne]

theorem jsonSet_not_bound (hlex : Lexical input)
    (hrun : kvRunTool floats validateJson .jsonSet input = some calls) :
    ¬ Bound (assessKvWrite floats validateJson .jsonSet) (kvRunTool floats validateJson .jsonSet) input := by
  obtain ⟨-, hcalls⟩ := kvRunTool_some hrun
  rw [kvCalls] at hcalls
  split at hcalls
  · rename_i key path value hkey hpath hvalue
    split at hcalls
    · have hobject := isObject_of_strField (strField_of_filled hkey)
      have hothervalue : kvJsonSetValue validateJson (padField "key" input) = kvJsonSetValue validateJson input := by
        rw [kvJsonSetValue, get_put_ne (by decide), kvJsonSetValue]
      refine not_bound hrun (lexical_padField "key" hlex) ?_ ?_
      · simp only [assessKvWrite, assessJsonSet, trimmedField_padField hobject, hothervalue]
        rw [trimmedField_put_ne (by decide)]
      · rw [← Option.some.inj hcalls, kvCalls, filledField_padField hobject, strField_of_filled hkey, hothervalue]
        rw [strField_put_ne (by decide), hpath, hvalue]
        simp [pad_ne]
    · cases hcalls
  · cases hcalls

/-! ## Keys in a list -/

theorem prefix_of_append_eq {a b x y : Text} (h : a ++ x = b ++ y) : a <+: b ∨ b <+: a :=
  List.prefix_or_prefix_of_prefix (List.prefix_append a x) (h ▸ List.prefix_append b y)

/-- What the prompt of a deletion says behind its verb. -/
inductive DeletePrompt (targets : List Text) : Text → Prop where
  | one {k : Text} (h : targets = [k]) : DeletePrompt targets ("key ".toList ++ ticked k)
  | many (h : 2 ≤ targets.length) : DeletePrompt targets
      (natText targets.length ++ ' ' :: ("key(s): ".toList ++ [',', ' '].intercalate targets))
  | pattern {p : Text} (h : targets = []) : DeletePrompt targets ("all keys matching ".toList ++ ticked p)

theorem assessDelete_many (h : 2 ≤ (kvDeleteTargets input).length) :
    assessDelete input = .needsApproval ("DELETE ".toList ++ (natText (kvDeleteTargets input).length ++
      ' ' :: ("key(s): ".toList ++ [',', ' '].intercalate (kvDeleteTargets input)))) := by
  unfold assessDelete
  split
  · rename_i hone
    rw [hone] at h
    simp at h
  · rename_i one two more htargets
    have hwords : " key(s): ".toList = ' ' :: "key(s): ".toList := by decide
    rw [htargets, hwords]
    simp only [List.append_assoc, List.cons_append]
  · rename_i hnil
    rw [hnil] at h
    cases h

theorem assessDelete_prompt {sql : Text} (h : assessDelete input = .needsApproval sql) :
    ∃ rest, sql = "DELETE ".toList ++ rest ∧ DeletePrompt (kvDeleteTargets input) rest := by
  by_cases hmany : 2 ≤ (kvDeleteTargets input).length
  · rw [assessDelete_many hmany] at h
    exact ⟨_, (WriteAssessment.needsApproval.inj h).symm, .many hmany⟩
  unfold assessDelete at h
  split at h
  · rename_i one hone
    have hwords : "DELETE key ".toList = "DELETE ".toList ++ "key ".toList := by decide
    refine ⟨_, ?_, .one hone⟩
    rw [← WriteAssessment.needsApproval.inj h, hwords, List.append_assoc]
  · rename_i hmore
    rw [hmore] at hmany
    exact absurd (by simp) hmany
  · rename_i hnil
    split at h
    · cases h
    split at h
    · cases h
    rename_i p _ _
    have hwords : "DELETE all keys matching ".toList = "DELETE ".toList ++ "all keys matching ".toList := by
      decide
    refine ⟨_, ?_, .pattern (p := p) hnil⟩
    rw [← WriteAssessment.needsApproval.inj h, hwords, List.append_assoc]

/-- Keys that can be told from their list are the keys of every list with the prompt. -/
theorem DeletePrompt.inj {targets others : List Text} {rest : Text} (hlisted : Listed targets)
    (h : DeletePrompt targets rest) (hother : DeletePrompt others rest) : others = targets := by
  have hletter {n : Nat} {x y : Text} {c : Char} (hc : c.isDigit = false) : natText n ++ x ≠ c :: y := by
    intro heq
    cases hdigits : natText n with
    | nil => exact Nat.toDigits_ne_nil hdigits
    | cons d digits =>
      rw [hdigits] at heq
      have hd := natText_digits (n := n) d (by rw [hdigits]; exact List.mem_cons_self)
      rw [(List.cons.inj heq).1, hc] at hd
      exact Bool.false_ne_true hd
  have hkey : "key ".toList = 'k' :: "ey ".toList := by decide
  have hall : "all keys matching ".toList = 'a' :: "ll keys matching ".toList := by decide
  cases h with
  | @one k htargets =>
    generalize hrest : "key ".toList ++ ticked k = rest at hother
    cases hother with
    | @one k' hothers =>
      have hticked := List.append_cancel_left hrest
      unfold ticked at hticked
      rw [List.append_assoc, List.append_assoc] at hticked
      rw [htargets, hothers, List.append_cancel_right (List.append_cancel_left hticked)]
    | many _ =>
      rw [hkey] at hrest
      exact absurd hrest.symm (hletter (by decide))
    | pattern _ => exact absurd (prefix_of_append_eq hrest) (by decide)
  | many hmany =>
    generalize hrest : natText targets.length ++ ' ' :: ("key(s): ".toList ++ [',', ' '].intercalate targets) = rest
      at hother
    cases hother with
    | one _ =>
      rw [hkey] at hrest
      exact absurd hrest (hletter (by decide))
    | many hmany' =>
      obtain ⟨hlength, hjoined⟩ := bare_append_inj (p := Char.isDigit) (by decide) natText_digits natText_digits
        (wordEnds_cons _) (wordEnds_cons _) hrest
      have hfree : ∀ k ∈ targets, ¬ [',', ' '] <:+: k := by
        cases targets with
        | nil => exact absurd hmany (by simp)
        | cons a targets =>
          cases targets with
          | nil => exact absurd hmany (by simp)
          | cons b targets => exact hlisted
      have hne : targets ≠ [] := fun hnil => by
        rw [hnil] at hmany
        cases hmany
      exact intercalate_inj (noOverlap_pair (by decide)) hfree (Nat.le_of_eq (natText_inj hlength))
        (List.append_cancel_left (List.cons.inj hjoined).2) hne
    | pattern _ =>
      rw [hall] at hrest
      exact absurd hrest (hletter (by decide))
  | pattern htargets =>
    rw [htargets] at hlisted
    exact hlisted.elim

theorem kvDeleteTargets_put_ne {key : String} (hkey : "key" ≠ key) (hkeys : "keys" ≠ key) (value : Json) :
    kvDeleteTargets (put key value input) = kvDeleteTargets input := by
  rw [kvDeleteTargets, filledField_put_ne hkey, get_put_ne hkeys, kvDeleteTargets]

/-- An input that names just these keys. -/
def keysInput (keys : List Text) : Json :=
  .object [("keys", .array (keys.map fun k => .string (String.ofList k)))]

theorem lexical_keysInput (keys : List Text) : Lexical (keysInput keys) := by
  refine ⟨?_, trivial⟩
  induction keys with
  | nil => exact trivial
  | cons k keys ih => exact ⟨trivial, ih⟩

theorem kvDeleteTargets_keysInput (keys : List Text) : kvDeleteTargets (keysInput keys) = keys := by
  have hkeys : (keys.map fun k => Json.string (String.ofList k)).filterMap asStr = keys := by
    rw [List.filterMap_map]
    induction keys with
    | nil => rfl
    | cons k keys ih => simpa [asStr] using ih
  exact hkeys

theorem delete_bound_iff (hlex : Lexical input)
    (hrun : kvRunTool floats validateJson .delete input = some calls) :
    Bound (assessKvWrite floats validateJson .delete) (kvRunTool floats validateJson .delete) input ↔
      Listed (kvDeleteTargets input) := by
  obtain ⟨hverdict, hcalls⟩ := kvRunTool_some hrun
  obtain ⟨sql, hsql⟩ : ∃ sql, assessDelete input = .needsApproval sql := by
    cases hassess : assessDelete input with
    | notWrite =>
      unfold assessDelete at hassess
      split at hassess
      · cases hassess
      · cases hassess
      split at hassess
      · cases hassess
      split at hassess <;> exact absurd hassess (by simp)
    | reject why => exact absurd hassess (hverdict why)
    | needsApproval sql => exact ⟨sql, rfl⟩
  obtain ⟨rest, rfl, hprompt⟩ := assessDelete_prompt hsql
  constructor
  · intro hbound
    cases hprompt with
    | one h =>
      rw [h]
      trivial
    | many hmany =>
      by_contra hlisted
      obtain ⟨k, hk, hseparator⟩ : ∃ k ∈ kvDeleteTargets input, [',', ' '] <:+: k := by
        cases htargets : kvDeleteTargets input with
        | nil => rw [htargets] at hmany; exact absurd hmany (by simp)
        | cons a targets =>
          cases targets with
          | nil => rw [htargets] at hmany; exact absurd hmany (by simp)
          | cons b targets =>
            rw [htargets] at hlisted
            by_contra hnone
            exact hlisted fun k hk hin => hnone ⟨k, hk, hin⟩
      obtain ⟨others, hlength, hne, hjoined⟩ := exists_intercalate_eq (by decide) hmany hk hseparator
      have htargets := kvDeleteTargets_keysInput others
      refine not_bound hrun (lexical_keysInput others) ?_ ?_ hbound
      · rw [assessKvWrite, assessKvWrite, hsql, assessDelete_many (by rw [htargets, hlength]; exact hmany), htargets,
          hlength, hjoined]
      · have hempty {l : List Text} (h : 2 ≤ l.length) : l ≠ [] := fun hnil => by
          rw [hnil] at h
          cases h
        rw [← hcalls, kvCalls, kvCalls, htargets, if_neg (hempty (hlength ▸ hmany)), if_neg (hempty hmany)]
        simp [hne]
    | @pattern p hnil =>
      exfalso
      rw [kvCalls, if_pos hnil] at hcalls
      obtain ⟨pattern, hpattern, rfl⟩ := Option.map_eq_some_iff.mp hcalls
      have hobject := isObject_of_strField (strField_of_filled hpattern)
      have htargets : kvDeleteTargets (padField "pattern" input) = [] := by
        rw [kvDeleteTargets_put_ne (by decide) (by decide)]
        exact hnil
      refine not_bound hrun (lexical_padField "pattern" hlex) ?_ ?_ hbound
      · rw [assessKvWrite, assessKvWrite, assessDelete, assessDelete, htargets, hnil, trimmedField_padField hobject]
      · rw [kvCalls, if_pos htargets, filledField_padField hobject, strField_of_filled hpattern]
        simp [pad_ne]
  · intro hlisted other _ hassess
    obtain ⟨rest', hrest', hother⟩ := assessDelete_prompt (hassess.trans hsql)
    rw [List.append_cancel_left hrest'] at hprompt
    have htargets := hprompt.inj hlisted hother
    have hne : kvDeleteTargets input ≠ [] := fun hnil => by rw [hnil] at hlisted; exact hlisted
    rw [kvRunTool_eq fun why => hassess ▸ hverdict why, kvRunTool_eq hverdict, kvCalls, kvCalls, htargets,
      if_neg hne, if_neg hne]

/-! ## Arguments of a command -/

theorem words_join {args : List Text} : ' ' :: [' '].intercalate (args.map respArg) = words (args.map respArg) ∨
    args = [] := by
  induction args with
  | nil => exact Or.inr rfl
  | cons a args ih =>
    refine Or.inl ?_
    cases args with
    | nil => simp [words]
    | cons b args =>
      obtain h | h := ih
      · rw [List.map_cons, List.map_cons, List.intercalate_cons_cons, ← List.map_cons, words, List.flatMap_cons,
          ← words, ← h, List.append_assoc]
        rfl
      · cases h

/-- The arguments of a command can be told from its line. -/
theorem command_bound (hrun : kvRunTool floats validateJson .command input = some calls) :
    Bound (assessKvWrite floats validateJson .command) (kvRunTool floats validateJson .command) input := by
  obtain ⟨hverdict, -⟩ := kvRunTool_some hrun
  intro other _ hassess
  have hallowed {i : Json} (h : ∀ why, assessCommand i ≠ .reject why) :
      kvAllowedCommand (kvCommandArgv i) = .ok () ∧ kvCommandArgv i ≠ [] ∧
        assessCommand i = .needsApproval ([' '].intercalate ((kvCommandArgv i).map respArg)) := by
    unfold assessCommand at h ⊢
    cases hargv : kvAllowedCommand (kvCommandArgv i) with
    | error why => exact absurd (by rw [hargv]) (h why)
    | ok u =>
      refine ⟨rfl, fun hnil => ?_, rfl⟩
      rw [hnil] at hargv
      exact absurd hargv (by simp [kvAllowedCommand])
  obtain ⟨hok, hne, hprompt⟩ := hallowed hverdict
  obtain ⟨hok', hne', hprompt'⟩ := hallowed (i := other) fun why h => hverdict why (hassess.symm.trans h)
  have hargv : kvCommandArgv other = kvCommandArgv input := by
    have htext : [' '].intercalate ((kvCommandArgv other).map respArg) =
        [' '].intercalate ((kvCommandArgv input).map respArg) :=
      WriteAssessment.needsApproval.inj (hprompt'.symm.trans (hassess.trans hprompt))
    refine words_map_inj ?_
    rw [← words_join.resolve_right hne, ← words_join.resolve_right hne', htext]
  rw [kvRunTool_eq fun why => hassess ▸ hverdict why, kvRunTool_eq hverdict, kvCalls, kvCalls, hargv]

/-! ## Plans -/

theorem map_map_except {ε α β γ : Type} (x : Except ε α) (f : α → β) (g : β → γ) :
    (x.map f).map g = x.map fun a => g (f a) := by
  cases x <;> rfl

/-- A time to live is not looked at but to be put into the plan. -/
theorem kvSetBody_ttl (floats : Floats) (kind : Text) (value : Option Json) (field : Option Text) (replace : Bool)
    (ttl old : Option Nat) : kvSetBody floats kind value field replace ttl =
      (kvSetBody floats kind value field replace old).map fun (body, clear) => (body.withTtl ttl, clear) := by
  unfold kvSetBody
  split_ifs
  · cases value with
    | none => rfl
    | some v => rw [map_map_except]; rfl
  · cases field with
    | some field =>
      cases value with
      | none => rfl
      | some v => rw [map_map_except]; rfl
    | none => rw [map_map_except]; rfl
  · rw [map_map_except]; rfl
  · rw [map_map_except]; rfl
  · rw [map_map_except]; rfl
  · rw [map_map_except]; rfl
  · rfl
  · rfl

theorem kvSetPlan_ok {plan : KvSetPlan} (h : kvSetPlan floats input = .ok plan) :
    ∃ replace body clear, kvSetKey input = .ok plan.key ∧ kvSetMode input = .ok replace ∧
      kvSetBody floats (((strField "type" input).map Transfer.trimmed).getD []) (get "value" input)
        (filledField "field" input) replace (secondsField "ttl_seconds" input) = .ok (body, clear) ∧
      sizeRefusal (((strField "type" input).map Transfer.trimmed).getD []) body.sizes = none ∧
      plan = ⟨plan.key, clear, body, body.expiry (secondsField "ttl_seconds" input)⟩ := by
  unfold kvSetPlan at h
  split at h
  · cases h
  rename_i key hkey
  dsimp only at h
  split at h
  · cases h
  rename_i replace hmode
  split at h
  · cases h
  rename_i body clear hbody
  split at h
  · cases h
  · rename_i hsize
    rw [← Except.ok.inj h]
    exact ⟨replace, body, clear, hkey, hmode, hbody, hsize, rfl⟩

theorem sizes_withTtl (body : KvSetBody) (ttl : Option Nat) : (body.withTtl ttl).sizes = body.sizes := by
  cases body <;> rfl

theorem expiry_withTtl (body : KvSetBody) (ttl old : Option Nat) : (body.withTtl old).expiry ttl = body.expiry ttl := by
  cases body <;> rfl

/-- The plan of an input, and of the input with another time to live. -/
theorem kvSetPlan_ttl {plan : KvSetPlan} (h : kvSetPlan floats input = .ok plan) :
    plan.withTtl (secondsField "ttl_seconds" input) = plan ∧
      ∀ secs : Nat, 0 < secs → secs < 2 ^ 61 →
        kvSetPlan floats (put "ttl_seconds" (.number (intText secs)) input) = .ok (plan.withTtl (some secs)) := by
  obtain ⟨replace, body, clear, hkey, hmode, hbody, hsize, hplan⟩ := kvSetPlan_ok h
  constructor
  · have hsame := kvSetBody_ttl floats (((strField "type" input).map Transfer.trimmed).getD [])
      (get "value" input) (filledField "field" input) replace (secondsField "ttl_seconds" input)
      (secondsField "ttl_seconds" input)
    rw [hbody] at hsame
    have hbodysame : body = body.withTtl (secondsField "ttl_seconds" input) :=
      (Prod.mk.inj (Except.ok.inj hsame)).1
    rw [hplan, KvSetPlan.withTtl, ← hbodysame]
  · intro secs hpos hlt
    have hobject : (asObject input).isSome := by
      unfold kvSetKey at hkey
      split at hkey
      · cases hkey
      rename_i key htrimmed
      obtain ⟨htrimmed, -⟩ := Option.filter_eq_some_iff.mp htrimmed
      obtain ⟨t, ht, -⟩ := Option.map_eq_some_iff.mp htrimmed
      exact isObject_of_strField ht
    have httl : secondsField "ttl_seconds" (put "ttl_seconds" (.number (intText secs)) input) = some secs := by
      rw [secondsField, intField, get_put_same hobject, Option.bind_some, asI64, intOfText_intText,
        Option.filter_some, if_pos (by simp; omega), Option.filter_some, if_pos (by simp; omega)]
      rfl
    have hkey' : kvSetKey (put "ttl_seconds" (.number (intText secs)) input) = kvSetKey input := by
      rw [kvSetKey, trimmedField_put_ne (by decide), kvSetKey]
    have hmode' : kvSetMode (put "ttl_seconds" (.number (intText secs)) input) = kvSetMode input := by
      rw [kvSetMode, strField_put_ne (by decide), kvSetMode]
    rw [kvSetPlan, hkey', hkey]
    dsimp only
    rw [hmode', hmode]
    dsimp only
    rw [strField_put_ne (by decide), get_put_ne (by decide), filledField_put_ne (by decide), httl,
      kvSetBody_ttl _ _ _ _ _ (some secs) (secondsField "ttl_seconds" input), hbody]
    dsimp only [Except.map]
    rw [sizes_withTtl, hsize, expiry_withTtl, KvSetPlan.withTtl, hplan]

theorem calls_ne_nil {plan : KvSetPlan} (h : kvSetPlan floats input = .ok plan) : plan.calls ≠ [] := by
  obtain ⟨replace, body, clear, -, -, -, hsize, hplan⟩ := kvSetPlan_ok h
  have hsizes : body.sizes ≠ [] := fun hnil => by
    rw [hnil] at hsize
    exact absurd hsize (by simp [sizeRefusal])
  rw [hplan, KvSetPlan.calls]
  intro hnil
  have hbody := (List.append_eq_nil_iff.mp (List.append_eq_nil_iff.mp hnil).1).2
  cases body with
  | str value ttl | set members | stream fields => exact absurd hbody (List.cons_ne_nil _ _)
  | hash fields | zset fields | list fields =>
    rw [List.map_eq_nil_iff.mp hbody] at hsizes
    exact hsizes rfl

theorem truncateSummary_whole {t u : Text} {max : Nat} (ht : t.length ≤ max) (hlast : t.getLast? ≠ some '…')
    (h : truncateSummary u max = truncateSummary t max) : u = t := by
  rw [truncateSummary, truncateSummary, if_pos ht] at h
  split at h
  · exact h
  · rw [← h] at hlast
    exact absurd (by simp) hlast

theorem set_bound_iff (hlex : Lexical input) (hrun : kvRunTool floats validateJson .set input = some calls) :
    Bound (assessKvWrite floats validateJson .set) (kvRunTool floats validateJson .set) input ↔
      ∀ plan, kvSetPlan floats input = .ok plan → (plan.commandsText floats).length ≤ kvSetPromptChars := by
  obtain ⟨hverdict, hcalls⟩ := kvRunTool_some hrun
  have hassess {i : Json} {plan : KvSetPlan} (h : kvSetPlan floats i = .ok plan) :
      assessKvWrite floats validateJson .set i =
        .needsApproval (truncateSummary (plan.commandsText floats) kvSetPromptChars) := by
    rw [assessKvWrite, h, KvSetPlan.commandsText]
  obtain ⟨plan, hplan⟩ : ∃ plan, kvSetPlan floats input = .ok plan := by
    cases h : kvSetPlan floats input with
    | error why => exact absurd (by rw [assessKvWrite, h]) (hverdict why)
    | ok plan => exact ⟨plan, rfl⟩
  rw [kvCalls, hplan] at hcalls
  constructor
  · intro hbound plan' hplan'
    rw [← Except.ok.inj (hplan.symm.trans hplan')]
    by_contra hcut
    obtain ⟨hsame, hother⟩ := kvSetPlan_ttl hplan
    rw [Nat.not_le, ← hsame] at hcut
    obtain ⟨secs, hpos, hlt, htext, hne⟩ := exists_other_ttl floats hcut
    rw [hsame] at htext hne
    have hlexical : Lexical (.number (intText secs)) :=
      RedDb.Docs.lexical_intText secs
    refine not_bound hrun (lexical_put "ttl_seconds" hlex hlexical) ?_ ?_ hbound
    · rw [hassess (hother secs hpos hlt), hassess hplan, htext]
    · rw [kvCalls, hother secs hpos hlt, ← Option.some.inj hcalls]
      exact fun h => hne (Option.some.inj h)
  · intro hwhole other _ hsame
    obtain ⟨plan', hplan'⟩ : ∃ plan', kvSetPlan floats other = .ok plan' := by
      cases h : kvSetPlan floats other with
      | error why => exact absurd (hsame.symm.trans (by rw [assessKvWrite, h])) (hverdict why)
      | ok plan' => exact ⟨plan', rfl⟩
    have htext := WriteAssessment.needsApproval.inj ((hassess hplan').symm.trans (hsame.trans (hassess hplan)))
    have hcommands := truncateSummary_whole (hwhole plan hplan) (commandsText_last plan) htext
    rw [kvRunTool_eq fun why => hsame ▸ hverdict why, kvRunTool_eq hverdict, kvCalls, kvCalls, hplan, hplan']
    exact congrArg some (commandsText_inj (calls_ne_nil hplan') (calls_ne_nil hplan) hcommands)

/-- **Which calls of the Redis tools their prompts bind**. -/
theorem kv_bound_iff (hlex : Lexical input) (hrun : kvRunTool floats validateJson tool input = some calls) :
    Bound (assessKvWrite floats validateJson tool) (kvRunTool floats validateJson tool) input ↔
      KvLegible floats tool input := by
  cases tool with
  | set => exact set_bound_iff hlex hrun
  | delete => exact delete_bound_iff hlex hrun
  | command => exact iff_of_true (command_bound hrun) trivial
  | jsonSet => exact iff_of_false (jsonSet_not_bound hlex hrun) id
  | expire => exact iff_of_false (expire_not_bound hlex hrun) id
  | rename => exact iff_of_false (rename_not_bound hlex hrun) id
  | copyKey => exact iff_of_false (copyKey_not_bound hlex hrun) id
  | configSet => exact iff_of_false (configSet_not_bound hlex hrun) id
  | clientKill => exact iff_of_false (clientKill_not_bound hlex hrun) id

end Kv

end RedDb.Approval
