import RedDb.Approval.Binding

/-!
# RedDb — a time to live as it is sent

The user gives a time to live in seconds in the editor of a key, the agent in a field of
`kv_expire` or `kv_set`. It goes to the server in milliseconds, as the signed 64-bit number
that `PEXPIRE` and `PX` take.

* `millis_withTtl` — what the calls of a plan send is its time to live;
* `ttl_exact_iff` — when a call sends what it was given.
-/

namespace RedDb.Approval

open TextCodec JsonText RedDb.Docs

variable {floats : Floats} {validateJson : Text → Option Text}

/-- The calls that take a time to live: that of the editor, and those of the agent. -/
inductive TtlCall where
  | edit (key : Text) (ttl : Option Nat)
  | tool (tool : KvTool) (input : Json)

/-- What goes to the server, or none where the call is refused. -/
def TtlCall.calls (floats : Floats) (validateJson : Text → Option Text) : TtlCall → Option (List Call)
  | .edit key ttl => some [.setTtl key (ttl.map kvMillis)]
  | .tool name input => kvRunTool floats validateJson name input

/-- The field of a tool that holds seconds. -/
def KvTool.ttlKey : KvTool → Option String
  | .expire => some "seconds"
  | .set => some "ttl_seconds"
  | _ => none

/-- The call is given `n` seconds, a number that a `u64` or an `i64` holds. -/
inductive TtlCall.Gives : TtlCall → Int → Prop where
  | edit (key : Text) {secs : Nat} (h : secs < 2 ^ 64) : Gives (.edit key (some secs)) secs
  | tool {tool : KvTool} {input : Json} {key : String} {token : Text} {n : Int} (hkey : tool.ttlKey = some key)
      (hget : get key input = some (.number token)) (hn : intOfText token = some n) (hlo : -2 ^ 63 ≤ n)
      (hhi : n < 2 ^ 64) : Gives (.tool tool input) n

def TtlCall.isEdit : TtlCall → Bool
  | .edit .. => true
  | .tool .. => false

/-- The milliseconds that a call sets, if it sets any. -/
def Call.millis? : Call → Option Nat
  | .setString _ _ px => px
  | .setTtl _ ttl | .setTtlMatching _ ttl => ttl
  | _ => none

/-- The milliseconds are those of the seconds and fit the server's field; none are sent where there is
no time to live. -/
def SentExactly (n : Int) (calls : List Call) : Prop :=
  calls.filterMap Call.millis? = (if 0 < n then [(n * 1000).toNat] else []) ∧ n * 1000 < 2 ^ 63

/-- What `secondsField` makes of a number. -/
def secondsOf (n : Int) : Option Nat := if 0 < n ∧ n < 2 ^ 63 then some n.toNat else none

theorem secondsField_of_number {key : String} {input : Json} {token : Text} {n : Int}
    (hget : get key input = some (.number token)) (hn : intOfText token = some n) (hlo : -2 ^ 63 ≤ n) :
    secondsField key input = secondsOf n := by
  rw [secondsField, intField, hget, Option.bind_some, asI64, hn, secondsOf]
  by_cases hhi : n < 2 ^ 63
  · rw [Option.filter_some, if_pos (decide_eq_true ⟨hlo, hhi⟩), Option.filter_some]
    by_cases hpos : 0 < n
    · rw [if_pos (decide_eq_true hpos), if_pos ⟨hpos, hhi⟩]
      rfl
    · rw [if_neg (by simpa using hpos), if_neg (fun h => hpos h.1)]
      rfl
  · rw [Option.filter_some, if_neg (by simp; omega), if_neg (fun h => hhi h.2)]
    rfl

theorem kvMillis_exact {secs : Nat} (hpos : 0 < secs) (hlt : secs * 1000 < 2 ^ 63) : kvMillis secs = secs * 1000 := by
  unfold kvMillis
  omega

theorem secondsOf_exact {n : Int} (h : n * 1000 < 2 ^ 63) :
    ((secondsOf n).map kvMillis).toList = if 0 < n then [(n * 1000).toNat] else [] := by
  unfold secondsOf
  by_cases hpos : 0 < n
  · rw [if_pos ⟨hpos, by omega⟩, if_pos hpos, Option.map_some, kvMillis_exact (by omega) (by omega)]
    show [_] = [_]
    congr 1
    omega
  · rw [if_neg (fun hn => hpos hn.1), if_neg hpos]
    rfl

theorem millis_withTtl (plan : KvSetPlan) (ttl : Option Nat) :
    (plan.withTtl ttl).calls.filterMap Call.millis? = (ttl.map kvMillis).toList := by
  have hclear : (if plan.clearFirst then [Call.deleteKeys [plan.key]] else []).filterMap Call.millis? = [] := by
    split <;> rfl
  rw [KvSetPlan.calls, KvSetPlan.withTtl, List.filterMap_append, List.filterMap_append, hclear, List.nil_append]
  cases plan.body with
  | str value old => cases ttl <;> rfl
  | set members | stream fields => cases ttl <;> rfl
  | hash fields | zset fields | list fields =>
    have hbody {α : Type} (f : α → Call) (hf : ∀ a, (f a).millis? = none) (l : List α) :
        (l.map f).filterMap Call.millis? = [] := by
      simp [List.filterMap_map, hf]
    simp only [KvSetBody.withTtl, KvSetBody.calls]
    rw [hbody _ fun _ => rfl]
    cases ttl <;> rfl

theorem tool_millis {tool : KvTool} {input : Json} {key : String} {calls : List Call} (hkey : tool.ttlKey = some key)
    (hrun : kvRunTool floats validateJson tool input = some calls) :
    calls.filterMap Call.millis? = ((secondsField key input).map kvMillis).toList := by
  obtain ⟨-, hcalls⟩ := kvRunTool_some hrun
  cases tool with
  | expire =>
    obtain rfl := Option.some.inj hkey
    simp only [kvCalls] at hcalls
    split at hcalls
    · rw [← Option.some.inj hcalls]
      cases secondsField "seconds" input <;> rfl
    · obtain ⟨pattern, -, hcalls⟩ := Option.map_eq_some_iff.mp hcalls
      rw [← hcalls]
      cases secondsField "seconds" input <;> rfl
  | set =>
    obtain rfl := Option.some.inj hkey
    simp only [kvCalls] at hcalls
    split at hcalls
    · rename_i plan hplan
      rw [← Option.some.inj hcalls, ← (kvSetPlan_ttl hplan).1, millis_withTtl]
    · cases hcalls
  | _ => cases hkey

/-- A call that is not refused sends the time to live it was given exactly when the milliseconds fit a
signed 64-bit number, and in the editor when there are any. -/
theorem ttl_exact_iff {c : TtlCall} {n : Int} {calls : List Call} (hn : c.Gives n)
    (hcalls : c.calls floats validateJson = some calls) :
    SentExactly n calls ↔ n * 1000 < 2 ^ 63 ∧ (c.isEdit = true → 0 < n) := by
  unfold SentExactly
  cases hn with
  | @edit key secs h =>
    rw [← Option.some.inj hcalls]
    show [kvMillis secs] = _ ∧ _ ↔ _ ∧ (true = true → _)
    by_cases hpos : 0 < secs
    · rw [if_pos (by omega), and_comm, and_congr_right_iff]
      intro hlt
      rw [kvMillis_exact hpos (by omega)]
      simp [hpos]
      omega
    · rw [if_neg (by omega)]
      simp [hpos]
  | tool hkey hget hn hlo hhi =>
    rw [tool_millis hkey hcalls, secondsField_of_number hget hn hlo, and_comm, and_congr_right_iff]
    intro hlt
    simp [secondsOf_exact hlt, TtlCall.isEdit]

/-- `kvMillis` for one minute, in the editor. -/
theorem ttl_exact_minute : SentExactly 60 [.setTtl "job".toList (some 60000)] :=
  (@ttl_exact_iff bitFloats (fun _ => none) _ 60 _ (.edit "job".toList (by decide)) rfl).mpr
    ⟨by decide, fun _ => by decide⟩

def expireInput (seconds : String) : Json :=
  .object [("key", .string "job"), ("seconds", .number seconds.toList)]

/-- A time to live of half a billion years is sent as 384 milliseconds. -/
theorem ttl_wraps : (TtlCall.tool .expire (expireInput "18446744073709552")).Gives 18446744073709552 ∧
    (TtlCall.tool .expire (expireInput "18446744073709552")).calls bitFloats (fun _ => none) =
      some [.setTtl "job".toList (some 384)] ∧
    ¬ SentExactly 18446744073709552 [.setTtl "job".toList (some 384)] := by
  refine ⟨.tool rfl rfl (by decide) (by decide) (by decide), by decide +kernel, fun h => absurd h.2 (by decide)⟩

end RedDb.Approval
