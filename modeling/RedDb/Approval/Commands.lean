import RedDb.Approval.KvSet
import RedDb.Lib.Delimited

/-!
# RedDb — the commands of a plan

The prompt of a `kv_set` shows the commands of its plan. Each is the echo of one call of the
executor, and as long as none of the text is cut, it is the text of one list of calls only. Once it is
cut, another time to live has the same prompt.

* `commands_eq` — each command of a plan is the echo of one of its calls;
* `commandsText_inj` — from the text of the commands the calls can be told;
* `exists_other_ttl` — a text that is cut is the text of other calls too.
-/

namespace RedDb.Approval

open TextCodec JsonText
open RedDb.Docs (isFinite)

/-! ## The commands tell the calls -/

section Echo

variable (floats : Floats)

/-- The calls a plan is made of. -/
def Call.Planned : Call → Prop
  | .deleteKeys _ | .setString .. | .setField .. | .setAdd .. | .zsetAdd .. | .listPush .. | .streamAdd ..
  | .setTtl _ (some _) => True
  | _ => False

/-- The commands a plan is made of. -/
inductive Verb where
  | del | set | hset | sadd | zadd | rpush | xadd | pexpire | other

def Verb.text : Verb → Text
  | .del => "DEL".toList
  | .set => "SET".toList
  | .hset => "HSET".toList
  | .sadd => "SADD".toList
  | .zadd => "ZADD".toList
  | .rpush => "RPUSH".toList
  | .xadd => "XADD".toList
  | .pexpire => "PEXPIRE".toList
  | .other => []

theorem Verb.text_inj {a b : Verb} (h : a.text = b.text) : a = b := by
  cases a <;> cases b <;> first | rfl | exact absurd h (by decide)

theorem Verb.text_letters (a : Verb) : ∀ c ∈ a.text, c.isAlpha = true := by
  cases a <;> decide

def Call.verb : Call → Verb
  | .deleteKeys _ => .del
  | .setString .. => .set
  | .setField .. => .hset
  | .setAdd .. => .sadd
  | .zsetAdd .. => .zadd
  | .listPush .. => .rpush
  | .streamAdd .. => .xadd
  | .setTtl .. => .pexpire
  | _ => .other

/-- The names and values of a stream's entry, in turn. -/
def flatPairs (fields : List (Text × Text)) : List Text := fields.flatMap fun (f, v) => [f, v]

def Call.args : Call → List Text
  | .deleteKeys keys => keys.map respArg
  | .setString key value px => [respArg key, respArg value] ++
      match px with
      | some n => ["PX".toList, natText n]
      | none => []
  | .setField key field value => [respArg key, respArg field, respArg value]
  | .setAdd key members => respArg key :: members.map respArg
  | .zsetAdd key member score => [respArg key, floats.display score.1, respArg member]
  | .listPush key value => [respArg key, respArg value]
  | .streamAdd key fields => respArg key :: "*".toList :: (flatPairs fields).map respArg
  | .setTtl key (some n) => [respArg key, natText n]
  | _ => []

/-- The command that is the same as a call. -/
def Call.echo (call : Call) : Text := call.verb.text ++ words (call.args floats)

theorem words_append (a b : List Text) : words (a ++ b) = words a ++ words b := List.flatMap_append

/-- Each command of a plan is the echo of one of its calls. -/
theorem commands_eq (plan : KvSetPlan) : plan.commands floats = plan.calls.map (Call.echo floats) := by
  have hbody : plan.body.commands floats (respArg plan.key) =
      (plan.body.calls plan.key).map (Call.echo floats) := by
    cases plan.body with
    | str value ttl =>
      cases ttl with
      | none => simp [KvSetBody.commands, KvSetBody.calls, Call.echo, Call.verb, Verb.text, Call.args]
      | some secs =>
        simp only [KvSetBody.commands, KvSetBody.calls, Option.map_some, List.map_cons, List.map_nil, Call.echo,
          Call.verb, Verb.text, Call.args, words_append, List.append_assoc]
    | hash fields | zset fields | list fields =>
      simp [KvSetBody.commands, KvSetBody.calls, Call.echo, Call.verb, Verb.text, Call.args]
    | set members => rfl
    | stream fields =>
      have hpairs : (flatPairs fields).map respArg = fields.flatMap fun (f, v) => [respArg f, respArg v] := by
        rw [flatPairs, List.map_flatMap]
        rfl
      simp only [KvSetBody.commands, KvSetBody.calls, List.map_cons, List.map_nil, Call.echo, Call.verb,
        Verb.text, Call.args, hpairs]
  unfold KvSetPlan.commands KvSetPlan.calls
  rw [hbody, List.map_append, List.map_append]
  congr 1
  · congr 1
    split <;> rfl
  · cases plan.expire <;> rfl

theorem calls_planned (plan : KvSetPlan) : ∀ call ∈ plan.calls, call.Planned := by
  intro call hcall
  unfold KvSetPlan.calls at hcall
  rw [List.mem_append, List.mem_append] at hcall
  obtain (hcall | hcall) | hcall := hcall
  · split at hcall
    · rw [List.mem_singleton.mp hcall]
      trivial
    · cases hcall
  · cases hbody : plan.body with
    | str value ttl | set members | stream fields =>
      rw [hbody] at hcall
      rw [List.mem_singleton.mp hcall]
      trivial
    | hash fields | zset fields | list fields =>
      rw [hbody] at hcall
      obtain ⟨field, -, rfl⟩ := List.mem_map.mp hcall
      trivial
  · split at hcall
    · rw [List.mem_singleton.mp hcall]
      trivial
    · cases hcall

variable {floats}

theorem wordEnds_words (args : List Text) : WordEnds (words args) := by
  cases args with
  | nil => exact wordEnds_nil
  | cons a args => exact wordEnds_cons _

/-- The first word of a line, when it is an argument. -/
theorem words_respArg {s t : Text} {args args' : List Text}
    (h : words (respArg s :: args) = words (respArg t :: args')) : s = t ∧ words args = words args' :=
  respArg_append_inj (wordEnds_words args) (wordEnds_words args') (List.cons.inj h).2

/-- The first word of a line, when it is bare. -/
theorem words_bare {p : Char → Bool} (hp : p ' ' = false) {s t : Text} {args args' : List Text}
    (hs : ∀ c ∈ s, p c = true) (ht : ∀ c ∈ t, p c = true) (h : words (s :: args) = words (t :: args')) :
    s = t ∧ words args = words args' :=
  bare_append_inj hp hs ht (wordEnds_words args) (wordEnds_words args') (List.cons.inj h).2

theorem words_map_inj {l l' : List Text} (h : words (l.map respArg) = words (l'.map respArg)) : l = l' := by
  induction l generalizing l' with
  | nil =>
    cases l' with
    | nil => rfl
    | cons t l' => exact absurd h.symm (List.cons_ne_nil _ _)
  | cons s l ih =>
    cases l' with
    | nil => exact absurd h (List.cons_ne_nil _ _)
    | cons t l' =>
      obtain ⟨rfl, hrest⟩ := words_respArg h
      rw [ih hrest]

theorem flatPairs_inj {l l' : List (Text × Text)} (h : flatPairs l = flatPairs l') : l = l' := by
  induction l generalizing l' with
  | nil =>
    cases l' with
    | nil => rfl
    | cons t l' => exact absurd h.symm (List.cons_ne_nil _ _)
  | cons s l ih =>
    cases l' with
    | nil => exact absurd h (List.cons_ne_nil _ _)
    | cons t l' =>
      obtain ⟨hfirst, h⟩ := List.cons.inj h
      obtain ⟨hsecond, h⟩ := List.cons.inj h
      rw [ih h, Prod.ext hfirst hsecond]

theorem natText_inj {n m : Nat} (h : natText n = natText m) : n = m := by
  have hnumeral := congrArg numeral h
  rwa [natText, natText, numeral_toDigits, numeral_toDigits] at hnumeral

theorem natText_digits {n : Nat} : ∀ c ∈ natText n, c.isDigit = true := fun _ => toDigits_isDigit

/-- A planned call is told by its echo. -/
theorem echo_inj {a b : Call} (ha : a.Planned) (hb : b.Planned) (h : a.echo floats = b.echo floats) :
    a = b := by
  obtain ⟨htext, hargs⟩ := bare_append_inj (p := Char.isAlpha) (by decide) a.verb.text_letters
    b.verb.text_letters (wordEnds_words _) (wordEnds_words _) h
  have hverb : a.verb = b.verb := Verb.text_inj htext
  have hpx {n : Nat} : words [] ≠ words ["PX".toList, natText n] := List.cons_ne_nil _ _ |>.symm
  cases a with
  | deleteKeys keys =>
    cases b with
    | deleteKeys keys' => rw [words_map_inj hargs]
    | _ => first | exact hb.elim | cases hverb
  | setString key value px =>
    cases b with
    | setString key' value' px' =>
      obtain ⟨rfl, hrest⟩ := words_respArg hargs
      obtain ⟨rfl, hmore⟩ := words_respArg hrest
      cases px with
      | none =>
        cases px' with
        | none => rfl
        | some n => exact absurd hmore hpx
      | some m =>
        cases px' with
        | none => exact absurd hmore.symm hpx
        | some n =>
          obtain ⟨-, hlast⟩ := words_bare (p := Char.isAlpha) (by decide) (by decide) (by decide) hmore
          obtain ⟨hn, -⟩ := words_bare (p := Char.isDigit) (by decide) natText_digits natText_digits hlast
          rw [natText_inj hn]
    | _ => first | exact hb.elim | cases hverb
  | setField key field value =>
    cases b with
    | setField key' field' value' =>
      obtain ⟨rfl, hrest⟩ := words_respArg hargs
      obtain ⟨rfl, hmore⟩ := words_respArg hrest
      obtain ⟨rfl, -⟩ := words_respArg hmore
      rfl
    | _ => first | exact hb.elim | cases hverb
  | setAdd key members =>
    cases b with
    | setAdd key' members' =>
      obtain ⟨rfl, hrest⟩ := words_respArg hargs
      rw [words_map_inj hrest]
    | _ => first | exact hb.elim | cases hverb
  | zsetAdd key member score =>
    cases b with
    | zsetAdd key' member' score' =>
      obtain ⟨rfl, hrest⟩ := words_respArg hargs
      obtain ⟨hscore, hrest⟩ := words_bare (p := isNumberChar) (by decide) (floats.display_chars score.2)
        (floats.display_chars score'.2) hrest
      obtain ⟨rfl, -⟩ := words_respArg hrest
      rw [Subtype.ext (floats.display_inj score.2 score'.2 hscore)]
    | _ => first | exact hb.elim | cases hverb
  | listPush key value =>
    cases b with
    | listPush key' value' =>
      obtain ⟨rfl, hrest⟩ := words_respArg hargs
      obtain ⟨rfl, -⟩ := words_respArg hrest
      rfl
    | _ => first | exact hb.elim | cases hverb
  | streamAdd key fields =>
    cases b with
    | streamAdd key' fields' =>
      obtain ⟨rfl, hrest⟩ := words_respArg hargs
      obtain ⟨-, hmore⟩ := words_bare (p := fun c => c == '*') (by decide) (by decide) (by decide) hrest
      rw [flatPairs_inj (words_map_inj hmore)]
    | _ => first | exact hb.elim | cases hverb
  | setTtl key ttl =>
    cases b with
    | setTtl key' ttl' =>
      cases ttl with
      | none => exact ha.elim
      | some n =>
        cases ttl' with
        | none => exact hb.elim
        | some m =>
          obtain ⟨rfl, hrest⟩ := words_respArg hargs
          obtain ⟨hn, -⟩ := words_bare (p := Char.isDigit) (by decide) natText_digits natText_digits hrest
          rw [natText_inj hn]
    | _ => first | exact hb.elim | cases hverb
  | _ => exact ha.elim

/-! ## The text of the commands -/

/-- A text on one line that no ellipsis ends. -/
structure Uncut (t : Text) : Prop where
  line : '\n' ∉ t
  last : t.getLast? ≠ some '…'

theorem Uncut.append {a b : Text} (ha : Uncut a) (hb : Uncut b) : Uncut (a ++ b) := by
  refine ⟨fun h => (List.mem_append.mp h).elim ha.line hb.line, fun h => ?_⟩
  rw [List.getLast?_append] at h
  cases hlast : b.getLast? with
  | none => exact ha.last (by rwa [hlast, Option.none_or] at h)
  | some c => exact hb.last (by rwa [hlast, Option.some_or, ← hlast] at h)

theorem uncut_of_chars {p : Char → Bool} (hnewline : p '\n' = false) (hellipsis : p '…' = false) {t : Text}
    (h : ∀ c ∈ t, p c = true) : Uncut t := by
  refine ⟨fun hmem => ?_, fun hlast => ?_⟩
  · exact absurd (h _ hmem) (by rw [hnewline]; exact Bool.false_ne_true)
  · exact absurd (h _ (List.mem_of_getLast? hlast)) (by rw [hellipsis]; exact Bool.false_ne_true)

theorem uncut_respArg (s : Text) : Uncut (respArg s) := by
  unfold respArg
  split
  · rename_i h
    rw [Bool.and_eq_true, List.all_eq_true] at h
    exact uncut_of_chars (by decide) (by decide) h.2
  refine ⟨fun h => ?_, by rw [List.getLast?_append]; simp⟩
  simp only [List.mem_append, List.mem_cons, List.mem_flatMap, List.not_mem_nil, or_false] at h
  obtain (h | ⟨c, -, hc⟩) | h := h
  · cases h
  · have hescape : '\n' ∉ respEscape c := by
      unfold respEscape
      split_ifs with _ _ hnewline <;> simp [eq_comm]
      exact fun h => hnewline h
    exact hescape hc
  · cases h

theorem uncut_natText (n : Nat) : Uncut (natText n) :=
  uncut_of_chars (p := Char.isDigit) (by decide) (by decide) natText_digits

theorem uncut_words {args : List Text} (h : ∀ a ∈ args, Uncut a) : Uncut (words args) := by
  induction args with
  | nil => exact ⟨List.not_mem_nil, fun h => by cases h⟩
  | cons a args ih =>
    have hblank : Uncut [' '] := ⟨by decide, by decide⟩
    exact (hblank.append (h a List.mem_cons_self)).append (ih fun b hb => h b (List.mem_cons_of_mem a hb))

variable (floats)

theorem uncut_echo (call : Call) : Uncut (call.echo floats) := by
  have hlist (l : List Text) : ∀ a ∈ l.map respArg, Uncut a := fun a ha => by
    obtain ⟨s, -, rfl⟩ := List.mem_map.mp ha
    exact uncut_respArg s
  have hscore (score : Score) : Uncut (floats.display score.1) :=
    uncut_of_chars (by decide) (by decide) (floats.display_chars score.2)
  refine (uncut_of_chars (by decide) (by decide) call.verb.text_letters).append (uncut_words ?_)
  cases call with
  | deleteKeys keys => exact hlist keys
  | setString key value px =>
    cases px <;> simp [Call.args, uncut_respArg, uncut_natText]
    exact ⟨by decide, by decide⟩
  | setField key field value | listPush key value => simp [Call.args, uncut_respArg]
  | setAdd key members => exact List.forall_mem_cons.mpr ⟨uncut_respArg key, hlist members⟩
  | zsetAdd key member score => simp [Call.args, uncut_respArg, hscore]
  | streamAdd key fields =>
    refine List.forall_mem_cons.mpr ⟨uncut_respArg key, List.forall_mem_cons.mpr ⟨⟨by decide, by decide⟩, ?_⟩⟩
    exact hlist _
  | setTtl key ttl => cases ttl <;> simp [Call.args, uncut_respArg, uncut_natText]
  | _ => simp [Call.args]

/-- The text of the commands of a plan. -/
def KvSetPlan.commandsText (plan : KvSetPlan) : Text := ['\n'].intercalate (plan.commands floats)

variable {floats}

theorem map_echo_inj {l l' : List Call} (hl : ∀ a ∈ l, a.Planned) (hl' : ∀ a ∈ l', a.Planned)
    (h : l.map (Call.echo floats) = l'.map (Call.echo floats)) : l = l' := by
  induction l generalizing l' with
  | nil => exact (List.map_eq_nil_iff.mp h.symm).symm
  | cons a l ih =>
    cases l' with
    | nil => exact absurd h (by simp)
    | cons b l' =>
      rw [List.map_cons, List.map_cons, List.cons.injEq] at h
      rw [List.forall_mem_cons] at hl hl'
      rw [echo_inj hl.1 hl'.1 h.1, ih hl.2 hl'.2 h.2]

/-- From the text of the commands the calls can be told. -/
theorem commandsText_inj {plan other : KvSetPlan} (hplan : plan.calls ≠ []) (hother : other.calls ≠ [])
    (h : plan.commandsText floats = other.commandsText floats) : plan.calls = other.calls := by
  have hsplit {p : KvSetPlan} (hp : p.calls ≠ []) :
      (p.commandsText floats).splitOn '\n' = p.calls.map (Call.echo floats) := by
    rw [KvSetPlan.commandsText, commands_eq]
    refine List.splitOn_intercalate '\n' (fun l hl => ?_) (fun hnil => hp (List.map_eq_nil_iff.mp hnil))
    obtain ⟨call, -, rfl⟩ := List.mem_map.mp hl
    exact (uncut_echo floats call).line
  refine map_echo_inj (calls_planned plan) (calls_planned other) (?_ : _ = other.calls.map (Call.echo floats))
  rw [← hsplit hplan, ← hsplit hother, h]

theorem intercalate_last {ls : List Text} (h : ∀ l ∈ ls, Uncut l) :
    (['\n'].intercalate ls).getLast? ≠ some '…' := by
  induction ls with
  | nil => simp
  | cons l ls ih =>
    cases ls with
    | nil =>
      rw [List.intercalate_singleton]
      exact (h l List.mem_cons_self).last
    | cons l' ls =>
      have hrest := ih fun a ha => h a (List.mem_cons_of_mem l ha)
      rw [List.intercalate_cons_cons]
      intro hlast
      rw [List.getLast?_append] at hlast
      cases hend : (['\n'].intercalate (l' :: ls)).getLast? with
      | none => simp [hend] at hlast
      | some c => exact hrest (by rwa [hend, Option.some_or, ← hend] at hlast)

/-- No ellipsis ends the text of the commands. -/
theorem commandsText_last (plan : KvSetPlan) : (plan.commandsText floats).getLast? ≠ some '…' := by
  refine intercalate_last fun l hl => ?_
  rw [commands_eq] at hl
  obtain ⟨call, -, rfl⟩ := List.mem_map.mp hl
  exact uncut_echo floats call

end Echo

/-! ## Another time to live -/

def KvSetBody.withTtl (ttl : Option Nat) : KvSetBody → KvSetBody
  | .str value _ => .str value ttl
  | body => body

/-- The same plan with this time to live. -/
@[grind =] def KvSetPlan.withTtl (ttl : Option Nat) (plan : KvSetPlan) : KvSetPlan :=
  { plan with body := plan.body.withTtl ttl, expire := plan.body.expiry ttl }

theorem kvMillis_lt (secs : Nat) : kvMillis secs < 2 ^ 64 := by
  unfold kvMillis
  omega

theorem millis_eq {k m : Nat} (h : k * 125 % 2 ^ 61 = m) : k * 1000 % 2 ^ 64 = 8 * m := by
  rw [← h]
  omega

/-- Every positive multiple of eight is sent for some number of seconds. -/
theorem exists_kvMillis {m : Nat} (hpos : 0 < m) (hlt : m < 2 ^ 61) :
    ∃ secs, 0 < secs ∧ secs < 2 ^ 61 ∧ kvMillis secs = 8 * m := by
  -- the inverse of 125
  obtain ⟨k, hk⟩ : ∃ k : Nat, k * 125 % 2 ^ 61 = 1 := ⟨2066035336255469781, by norm_num⟩
  have hsecs : m * k % 2 ^ 61 * 125 % 2 ^ 61 = m := by
    rw [Nat.mod_mul_mod, Nat.mul_assoc, Nat.mul_mod, hk, Nat.mul_one, Nat.mod_mod, Nat.mod_eq_of_lt hlt]
  refine ⟨m * k % 2 ^ 61, Nat.pos_of_ne_zero fun hzero => ?_, Nat.mod_lt _ (by decide), ?_⟩
  · rw [hzero, Nat.zero_mul, Nat.zero_mod] at hsecs
    omega
  · rw [kvMillis, millis_eq hsecs]
    omega

/-- Another number that is sent for some seconds differs in the last two digits only. -/
theorem exists_near_kvMillis {n : Nat} (hpos : 0 < n) (hlt : n < 2 ^ 64) :
    ∃ secs, 0 < secs ∧ secs < 2 ^ 61 ∧ kvMillis secs ≠ n ∧ kvMillis secs / 100 = n / 100 ∧
      (n < 100 → n < 10 ∨ 10 ≤ kvMillis secs) := by
  obtain ⟨m, hm, hmlt, hne, hdiv, hsmall⟩ : ∃ m, 0 < m ∧ m < 2 ^ 61 ∧ 8 * m ≠ n ∧ 8 * m / 100 = n / 100 ∧
      (n < 100 → n < 10 ∨ 10 ≤ 8 * m) := by
    by_cases hnext : n % 100 < 92 ∧ n + 8 < 2 ^ 64
    · exact ⟨n / 8 + 1, by omega, by omega, by omega, by omega, by omega⟩
    · exact ⟨n / 8 - 1, by omega, by omega, by omega, by omega, by omega⟩
  obtain ⟨secs, hsecs, hsecslt, hmillis⟩ := exists_kvMillis hm hmlt
  exact ⟨secs, hsecs, hsecslt, by rwa [hmillis], by rwa [hmillis], by rwa [hmillis]⟩

/-- Numbers of one hundred share all but two of their digits. -/
theorem natText_hundred {n m : Nat} (h : n / 100 = m / 100) (hsmall : n < 100 → n < 10 ∨ 10 ≤ m) :
    ∃ d e e', natText n = d ++ e ∧ natText m = d ++ e' ∧ e.length ≤ 2 ∧ e.length ≤ e'.length := by
  have hlast {k : Nat} (hk : 10 ≤ k) : natText k = natText (k / 10) ++ [(k % 10).digitChar] :=
    Nat.toDigits_of_base_le (by decide) hk
  have hone {k : Nat} (hk : k < 10) : natText k = [k.digitChar] := Nat.toDigits_of_lt_base hk
  by_cases hhundred : n < 100
  · refine ⟨[], natText n, natText m, rfl, rfl, ?_⟩
    by_cases hten : n < 10
    · rw [hone hten]
      exact ⟨Nat.le_succ 1, List.length_pos_iff.mpr Nat.toDigits_ne_nil⟩
    · rw [hlast (by omega), hone (k := n / 10) (by omega), hlast (k := m) (by omega), hone (k := m / 10) (by omega)]
      exact ⟨Nat.le_refl 2, Nat.le_refl 2⟩
  · refine ⟨natText (n / 100), [(n / 10 % 10).digitChar, (n % 10).digitChar],
      [(m / 10 % 10).digitChar, (m % 10).digitChar], ?_, ?_, Nat.le_refl 2, Nat.le_refl 2⟩
    · rw [hlast (by omega), hlast (k := n / 10) (by omega), Nat.div_div_eq_div_mul, List.append_assoc]
      rfl
    · rw [hlast (by omega), hlast (k := m / 10) (by omega), Nat.div_div_eq_div_mul, List.append_assoc, h]
      rfl

section Ttl

variable (floats : Floats)

/-- One line more. -/
theorem intercalate_snoc (l : List Text) (y : Text) :
    ['\n'].intercalate (l ++ [y]) = (if l = [] then [] else ['\n'].intercalate l ++ ['\n']) ++ y := by
  induction l with
  | nil => rw [if_pos rfl, List.nil_append, List.nil_append, List.intercalate_singleton]
  | cons a l ih =>
    rw [if_neg (List.cons_ne_nil a l)]
    cases l with
    | nil => simp [List.intercalate_cons_cons]
    | cons b l =>
      rw [List.cons_append, List.cons_append, List.intercalate_cons_cons, ← List.cons_append, ih,
        if_neg (List.cons_ne_nil b l), List.intercalate_cons_cons]
      simp only [List.append_assoc]

/-- The time to live is the last number of the text. -/
theorem commandsText_withTtl (plan : KvSetPlan) : ∃ base mark, ∀ ttl : Option Nat,
    (plan.withTtl ttl).commandsText floats =
      base ++ (ttl.map fun secs => mark ++ natText (kvMillis secs)).getD [] := by
  have hwords (key : Text) (n : Nat) : words [key, natText n] = words [key] ++ [' '] ++ natText n := by
    simp [words]
  cases hbody : plan.body with
  | str value old =>
    have hcommands (ttl : Option Nat) : (plan.withTtl ttl).commands floats =
        (if plan.clearFirst then ["DEL".toList ++ words [respArg plan.key]] else []) ++
          ["SET".toList ++ words [respArg plan.key, respArg value] ++
            (ttl.map fun secs => words ["PX".toList, natText (kvMillis secs)]).getD []] := by
      cases ttl <;> simp [KvSetPlan.commands, KvSetPlan.withTtl, KvSetBody.withTtl, KvSetBody.expiry,
        KvSetBody.commands, hbody]
    generalize (if plan.clearFirst then ["DEL".toList ++ words [respArg plan.key]] else []) = lines at hcommands
    refine ⟨(if lines = [] then [] else ['\n'].intercalate lines ++ ['\n']) ++
      ("SET".toList ++ words [respArg plan.key, respArg value]), words ["PX".toList] ++ [' '], fun ttl => ?_⟩
    rw [KvSetPlan.commandsText, hcommands, intercalate_snoc, ← List.append_assoc]
    cases ttl with
    | none => rfl
    | some secs => rw [Option.map_some, Option.map_some, hwords]
  | hash _ | set _ | zset _ | list _ | stream _ =>
    have hcommands (ttl : Option Nat) : (plan.withTtl ttl).commands floats =
        ((if plan.clearFirst then ["DEL".toList ++ words [respArg plan.key]] else []) ++
          plan.body.commands floats (respArg plan.key)) ++
          (ttl.map fun secs => ["PEXPIRE".toList ++ words [respArg plan.key, natText (kvMillis secs)]]).getD [] := by
      cases ttl <;> simp [KvSetPlan.commands, KvSetPlan.withTtl, KvSetBody.withTtl, KvSetBody.expiry, hbody]
    generalize ((if plan.clearFirst then ["DEL".toList ++ words [respArg plan.key]] else []) ++
      plan.body.commands floats (respArg plan.key)) = lines at hcommands
    refine ⟨['\n'].intercalate lines, (if lines = [] then [] else ['\n']) ++
      ("PEXPIRE".toList ++ words [respArg plan.key] ++ [' ']), fun ttl => ?_⟩
    rw [KvSetPlan.commandsText, hcommands]
    cases ttl with
    | none => simp
    | some secs =>
      rw [Option.map_some, Option.getD_some, intercalate_snoc, hwords]
      cases lines with
      | nil => simp
      | cons a lines => simp

theorem calls_withTtl_inj {plan : KvSetPlan} {a b : Option Nat}
    (h : (plan.withTtl a).calls = (plan.withTtl b).calls) : a.map kvMillis = b.map kvMillis := by
  cases hbody : plan.body with
  | str value old =>
    simpa [KvSetPlan.calls, KvSetPlan.withTtl, KvSetBody.withTtl, KvSetBody.expiry, KvSetBody.calls, hbody] using h
  | hash _ | set _ | zset _ | list _ | stream _ =>
    cases a <;> cases b <;> simp [KvSetPlan.calls, KvSetPlan.withTtl, KvSetBody.withTtl, KvSetBody.expiry,
      hbody] at h ⊢
    exact h

/-- A text that is cut is, cut, the text of a plan with another time to live. -/
theorem exists_other_ttl {plan : KvSetPlan} {ttl : Option Nat}
    (hcut : kvSetPromptChars < ((plan.withTtl ttl).commandsText floats).length) :
    ∃ secs, 0 < secs ∧ secs < 2 ^ 61 ∧
      truncateSummary ((plan.withTtl (some secs)).commandsText floats) kvSetPromptChars =
        truncateSummary ((plan.withTtl ttl).commandsText floats) kvSetPromptChars ∧
      (plan.withTtl (some secs)).calls ≠ (plan.withTtl ttl).calls := by
  have hsame {a b c : Text} (hlength : kvSetPromptChars < (a ++ b).length) (htake : kvSetPromptChars - 1 ≤ a.length)
      (hlonger : b.length ≤ c.length) :
      truncateSummary (a ++ c) kvSetPromptChars = truncateSummary (a ++ b) kvSetPromptChars := by
    rw [List.length_append] at hlength
    rw [truncateSummary, truncateSummary, if_neg (by rw [List.length_append]; omega),
      if_neg (by rw [List.length_append]; omega), List.take_append_of_le_length htake,
      List.take_append_of_le_length htake]
  obtain ⟨base, mark, htext⟩ := commandsText_withTtl floats plan
  rw [htext] at hcut
  cases ttl with
  | none =>
    refine ⟨1, by decide, by decide, ?_, fun h => absurd (calls_withTtl_inj h) (by simp)⟩
    rw [htext, htext]
    exact hsame hcut (by simp only [Option.map_none, Option.getD_none, List.append_nil] at hcut; omega)
      (Nat.zero_le _)
  | some old =>
    obtain ⟨secs, hpos, hlt, hne, hhundred, hsmall⟩ := exists_near_kvMillis (n := kvMillis old)
      (Nat.lt_of_lt_of_le Nat.zero_lt_one (Nat.le_max_right _ _)) (kvMillis_lt old)
    refine ⟨secs, hpos, hlt, ?_, fun h => hne (Option.some.inj (calls_withTtl_inj h))⟩
    obtain ⟨d, e, e', hd, hd', htwo, hlonger⟩ := natText_hundred hhundred.symm hsmall
    rw [Option.map_some, Option.getD_some, hd] at hcut
    rw [htext, htext, Option.map_some, Option.getD_some, Option.map_some, Option.getD_some, hd, hd',
      ← List.append_assoc, ← List.append_assoc, ← List.append_assoc, ← List.append_assoc]
    rw [← List.append_assoc, ← List.append_assoc] at hcut
    refine hsame hcut ?_ hlonger
    simp only [List.length_append] at hcut ⊢
    omega

end Ttl

end RedDb.Approval
