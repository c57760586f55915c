import RedDb.Sql.Grading
import RedDb.Sql.LiveWords

/-!
# RedDb — an EXPLAIN and what it wraps

`explain_risk` takes an `EXPLAIN` for a plan unless the bare word `analyze` stands somewhere in
the text, and takes the first word that begins a statement for the beginning of the statement it
wraps. What an engine runs is decided by the options in front of that statement (`Head.active`):
`ANALYSE` is the same option, a value can turn it off, and a statement may begin with other words.

* `innerStatementAt_behind` — the search passes a head that names no verb;
* `gradeOne_explain` — the grade of an `EXPLAIN`, head and statement apart;
* `explain_graded` — exactly when it is the grade of what is run.
-/

namespace RedDb.Sql

open ByteText

/-! ## Finding the wrapped statement -/

section Search

variable {pre c w y rest : Bytes} {fuel i at' : Nat}

theorem innerStatementFrom_shift (fuel i : Nat) :
    innerStatementFrom (pre ++ y) fuel (pre.length + i) = (innerStatementFrom y fuel i).map (pre.length + ·) := by
  induction fuel generalizing i with
  | zero => rfl
  | succ fuel ih =>
    unfold innerStatementFrom
    rw [getElem?_shift, wordEnd_shift, slice_shift, ih, Nat.add_assoc, ih]
    cases y[i]? with
    | none => rfl
    | some c =>
      dsimp only
      split_ifs <;> rfl

/-- Enough rounds for the text that is left find the statement. -/
theorem innerStatementFrom_fuel (fuel fuel' i : Nat) (h : y.length - i < fuel) (h' : y.length - i < fuel') :
    innerStatementFrom y fuel i = innerStatementFrom y fuel' i := by
  induction fuel generalizing fuel' i with
  | zero => omega
  | succ fuel ih =>
    obtain ⟨k, rfl⟩ : ∃ k, fuel' = k + 1 := ⟨fuel' - 1, by omega⟩
    unfold innerStatementFrom
    cases hc : y[i]? with
    | none => rfl
    | some c =>
      have hi := lt_of_getElem?_eq_some hc
      dsimp only
      rw [ih k (i + 1) (by omega) (by omega)]
      by_cases hw : isWordByte c = true
      · have hword := lt_wordEnd hc hw
        rw [ih k (wordEnd y i) (by omega) (by omega)]
      · rw [if_neg hw, if_neg hw]

theorem wordEnd_word (hw : IsWord w) (hrest : StartsClear rest) : wordEnd (w ++ rest) 0 = w.length := by
  unfold wordEnd
  rw [List.drop_zero, takeWhile_append_of_stop hrest, Nat.zero_add, List.takeWhile_eq_self_iff.mpr hw.bytes]

theorem innerStatementAt_gap {b : UInt8} (h : isWordByte b = false) :
    innerStatementAt (b :: y) = (innerStatementAt y).map (1 + ·) := by
  have hshift := @innerStatementFrom_shift [b] y (y.length + 1) 0
  unfold innerStatementAt
  rw [List.length_cons, innerStatementFrom]
  simp only [List.getElem?_cons_zero, h, Bool.false_eq_true, if_false]
  exact hshift

theorem innerStatementAt_word (hw : IsWord w) (hrest : StartsClear rest) :
    innerStatementAt (w ++ rest) =
      if asciiLower w ∈ explainVerbs then some 0 else (innerStatementAt rest).map (w.length + ·) := by
  obtain ⟨b, v, rfl⟩ := List.exists_cons_of_ne_nil hw.nonempty
  have hb : isWordByte b = true := hw.bytes b List.mem_cons_self
  have hslice : slice ((b :: v) ++ rest) 0 (b :: v).length = b :: v := by
    unfold slice
    rw [List.take_left, List.drop_zero]
  have hverbs : explainVerbs.any (eqIgnoreAsciiCase (b :: v)) = true ↔ asciiLower (b :: v) ∈ explainVerbs := by
    have hlower : ∀ verb ∈ explainVerbs, asciiLower verb = verb := by decide
    rw [List.any_eq_true]
    constructor
    · rintro ⟨verb, hverb, heq⟩
      rw [eqIgnoreAsciiCase, hlower verb hverb, beq_iff_eq] at heq
      rwa [heq]
    · intro hmem
      exact ⟨_, hmem, by rw [eqIgnoreAsciiCase, hlower _ hmem, beq_self_eq_true]⟩
  unfold innerStatementAt
  rw [List.length_append, innerStatementFrom]
  simp only [List.cons_append, List.getElem?_cons_zero, hb, if_true]
  rw [← List.cons_append, wordEnd_word hw hrest, hslice]
  by_cases hmem : asciiLower (b :: v) ∈ explainVerbs
  · rw [if_pos (hverbs.mpr hmem), if_pos hmem]
  rw [if_neg (fun h => hmem (hverbs.mp h)), if_neg hmem]
  have hshift := @innerStatementFrom_shift (b :: v) rest ((b :: v).length + rest.length) 0
  rw [Nat.add_zero] at hshift
  rw [hshift, innerStatementFrom_fuel (y := rest) _ (rest.length + 1) 0 (by simp) (by omega)]

theorem Opens.of_append_right {u v : Bytes} (h : Opens (u ++ v)) : Opens v := by
  intro x hx
  refine h x ?_
  cases v with
  | nil => exact absurd hx.symm (Option.some_ne_none x)
  | cons b v => rwa [List.getLast?_append_of_ne_nil _ (List.cons_ne_nil b v)]

theorem wordsOf_solo (hw : IsWord w) : wordsOf w = [asciiLower w] := by
  unfold wordsOf
  rw [List.splitOnP_eq_singleton fun x hx => by rw [hw.lower.bytes x hx]; rfl]
  have hne : (asciiLower w).isEmpty = false := by
    rw [List.isEmpty_eq_false_iff]
    exact hw.lower.nonempty
  rw [List.filter_cons_of_pos (by rw [hne]; rfl), List.filter_nil]

/-- **A head without a verb is passed.** -/
theorem innerStatementAt_behind (hopens : Opens c) (hnone : ∀ w ∈ wordsOf c, w ∉ explainVerbs) (y : Bytes) :
    innerStatementAt (c ++ y) = (innerStatementAt y).map (c.length + ·) := by
  induction c using words_induction with
  | nil =>
    rw [List.nil_append]
    cases innerStatementAt y with
    | none => rfl
    | some at' => rw [Option.map_some, List.length_nil, Nat.zero_add]
  | gap b rest hb ih =>
    have hcut := wordsOf_cut hb [] rest
    rw [wordsOf_nil, List.nil_append, List.nil_append] at hcut
    rw [List.cons_append, innerStatementAt_gap hb, ih (Opens.of_append_right (u := [b]) hopens) (hcut ▸ hnone), Option.map_map]
    congr 1
    funext k
    simp only [Function.comp_apply, List.length_cons]
    omega
  | word w v hw hv ih =>
    rw [wordsOf_append (Or.inr hv), wordsOf_solo hw] at hnone
    have hopen : StartsClear (v ++ y) := by
      cases v with
      | cons x v => exact fun z hz => hv z hz
      | nil =>
        rw [List.append_nil] at hopens
        have hlast := hopens _ (List.getLast?_eq_getLast_of_ne_nil hw.nonempty)
        rw [hw.bytes _ (List.getLast_mem _)] at hlast
        exact Bool.noConfusion hlast
    rw [List.append_assoc, innerStatementAt_word hw hopen, if_neg (hnone _ (List.mem_append_left _ List.mem_cons_self)),
      ih hopens.of_append_right (fun x hx => hnone x (List.mem_append_right _ hx)), Option.map_map]
    congr 1
    funext k
    simp only [Function.comp_apply, List.length_append]
    omega

theorem innerStatementAt_none (hnone : ∀ w ∈ wordsOf y, w ∉ explainVerbs) : innerStatementAt y = none := by
  induction y using words_induction with
  | nil => rfl
  | gap b rest hb ih =>
    have hcut := wordsOf_cut hb [] rest
    rw [wordsOf_nil, List.nil_append, List.nil_append] at hcut
    rw [innerStatementAt_gap hb, ih (hcut ▸ hnone)]
    rfl
  | word w v hw hv ih =>
    rw [wordsOf_append (Or.inr hv), wordsOf_solo hw] at hnone
    rw [innerStatementAt_word hw hv, if_neg (hnone _ (List.mem_append_left _ List.mem_cons_self)),
      ih fun x hx => hnone x (List.mem_append_right _ hx)]
    rfl

/-- What is found begins with a verb. -/
theorem innerStatementAt_verb (h : innerStatementAt y = some at') :
    ∃ w rest, y.drop at' = w ++ rest ∧ IsWord w ∧ StartsClear rest ∧ asciiLower w ∈ explainVerbs := by
  induction y using words_induction generalizing at' with
  | nil => exact absurd h.symm (Option.some_ne_none at')
  | gap b rest hb ih =>
    rw [innerStatementAt_gap hb] at h
    obtain ⟨k, hk, rfl⟩ := Option.map_eq_some_iff.mp h
    rw [Nat.add_comm, List.drop_succ_cons]
    exact ih hk
  | word w v hw hv ih =>
    rw [innerStatementAt_word hw hv] at h
    split at h
    · rename_i hverb
      obtain rfl := Option.some.inj h
      exact ⟨w, v, rfl, hw, hv, hverb⟩
    · obtain ⟨k, hk, rfl⟩ := Option.map_eq_some_iff.mp h
      rw [drop_shift]
      exact ih hk

end Search

/-! ## The keyword table -/

section Table

variable {y : Bytes}

theorem ite_level {p : Prop} [Decidable p] {a a' b b' : RiskLevel × List Risk} (ha : a.1 = a'.1) (hb : b.1 = b'.1) :
    (if p then a else b).1 = (if p then a' else b').1 := by
  split
  · exact ha
  · exact hb

/-- The object a statement names is no part of its level. -/
theorem gradeKeyed_level (lower : Bytes) (t t' : Option Bytes) : (gradeKeyed lower t).1 = (gradeKeyed lower t').1 := by
  unfold gradeKeyed
  dsimp only
  repeat' apply ite_level
  all_goals rfl

/-- The level of what is found as the wrapped statement; an `EXPLAIN` of nothing that is known is a write. -/
def foundLevel (y : Bytes) : RiskLevel :=
  match innerStatementAt y with
  | some at' => (gradeKeyed (gradedText (y.drop at')) none).1
  | none => .write

theorem isKeyword_of_lower {w : Bytes} (h : IsKeyword (asciiLower w)) : IsKeyword w := by
  cases w with
  | nil => exact absurd rfl h.nonempty
  | cons c w =>
    refine ⟨⟨List.cons_ne_nil c w, fun x hx => ?_⟩, fun x hx => ?_⟩
    · rw [← isWordByte_lower]
      exact h.bytes _ (List.mem_map_of_mem hx)
    · obtain rfl := Option.some.inj hx
      rw [← isAsciiAlphabetic_lower]
      exact h.letter _ rfl

theorem isKeyword_of_verb {w : Bytes} (h : asciiLower w ∈ ascii "explain" :: explainVerbs) : IsKeyword w := by
  refine isKeyword_of_lower ?_
  have hall : ∀ v ∈ ascii "explain" :: explainVerbs, IsWord v ∧ v.head?.all isAsciiAlphabetic = true := by decide
  obtain ⟨hword, hletter⟩ := hall _ h
  refine ⟨hword, fun c hc => ?_⟩
  rw [Option.mem_def.mp hc] at hletter
  exact hletter

/-- The keyword of a text that a verb leads is the verb. -/
theorem keyword_of_verb {w : Bytes} (h : asciiLower w ∈ ascii "explain" :: explainVerbs) (hled : LedBy w y) :
    firstKeyword (gradedText y) = asciiLower w := by
  have hall : ∀ v ∈ ascii "explain" :: explainVerbs, v.takeWhile isAsciiAlphabetic = v := by decide
  rw [hled.gradedKeyword (isKeyword_of_verb h), hall _ h]

theorem runnable_of_verb {w : Bytes} (h : asciiLower w ∈ ascii "explain" :: explainVerbs) (hled : LedBy w y) :
    firstKeyword y ≠ [] := by
  have hword := isKeyword_of_verb h
  rw [hled.firstKeyword hword]
  obtain ⟨c, v, rfl⟩ := List.exists_cons_of_ne_nil hword.nonempty
  rw [List.takeWhile_cons, if_pos (hword.letter c rfl)]
  exact List.cons_ne_nil _ _

theorem verb_ne_explain {w : Bytes} (h : w ∈ explainVerbs) : w ≠ ascii "explain" := by
  have hall : ∀ v ∈ explainVerbs, v ≠ ascii "explain" := by decide
  exact hall w h

/-- The graders read the same text behind blanks. -/
theorem gradedText_behind {lead : Bytes} (h : Blank lead) (y : Bytes) : gradedText (lead ++ y) = gradedText y := by
  unfold gradedText trim
  rw [trimStart_append h]

theorem safe_of_query {lower : Bytes} (h : firstKeyword lower ∈ [ascii "select", ascii "values", ascii "pragma"]) :
    (gradeKeyed lower none).1 = .safe := by
  unfold gradeKeyed
  dsimp only
  rw [if_pos]
  simpa only [List.mem_cons, List.not_mem_nil, or_false, Bool.or_eq_true, beq_iff_eq, or_assoc] using h

theorem safe_of_cte {lower : Bytes} (h : firstKeyword lower = ascii "with")
    (hverbs : ∀ verb ∈ cteVerbs, hasWord lower verb = false) : (gradeKeyed lower none).1 = .safe := by
  have hnone : [ascii "insert", ascii "update", ascii "delete", ascii "merge"].any (hasWord lower) = false := by
    rw [List.any_eq_false]
    exact fun verb hverb => Bool.eq_false_iff.mp (hverbs verb hverb)
  unfold gradeKeyed
  rw [h, if_neg (by decide), if_pos (by decide), hnone]
  rfl

/-- A keyed statement is `safe` when it reads, and only then. -/
theorem keyed_safe_iff (hplain : firstKeyword (gradedText y) ≠ ascii "explain") :
    (gradeKeyed (gradedText y) none).1 = .safe ↔ Reads y := by
  constructor
  · intro h
    rcases gradeKeyed_safe h with hquery | ⟨hcte, hverbs⟩
    · exact Reads.query hquery
    · exact Reads.cte hcte hverbs
  · intro h
    cases h with
    | query hquery => exact safe_of_query hquery
    | cte hcte hverbs => exact safe_of_cte hcte hverbs
    | plan hexplain _ | analyze hexplain _ _ => exact absurd hexplain hplain

end Table

/-! ## Heads -/

/-- A word as it is written, bare or in quotes. -/
inductive Said where
  | bare (word : Bytes)
  | quoted (word : Bytes)

/-- An option of a parenthesised list, with the value it is given. -/
structure Setting where
  option : Said
  value : Option Said

/-- What stands between `EXPLAIN` and the statement: words, or a parenthesised list. -/
inductive Head where
  | words (ws : List Bytes)
  | settings (ss : List Setting)

/-- The two spellings of the option. -/
def analyzeSpellings : List Bytes := [ascii "analyze", ascii "analyse"]

/-- The values that turn an option off. -/
def offValues : List Bytes := [ascii "false", ascii "off", ascii "0"]

/-- Quotes keep the case, and know the one spelling. -/
def Said.isAnalyze : Said → Bool
  | .bare w => analyzeSpellings.contains (asciiLower w)
  | .quoted w => w == ascii "analyze"

def Said.isOff : Said → Bool
  | .bare w | .quoted w => offValues.contains (asciiLower w)

/-- Whether the statement is run: the last setting of the option decides. -/
def Head.active : Head → Bool
  | .words ws => ws.any fun w => analyzeSpellings.contains (asciiLower w)
  | .settings ss => ((ss.filter fun s => s.option.isAnalyze).getLast?).any fun s => !s.value.any Said.isOff

/-- The bare words, in lower case: quoted ones are blanked in the copy. -/
def Said.live : Said → List Bytes
  | .bare w => [asciiLower w]
  | .quoted _ => []

def Head.live : Head → List Bytes
  | .words ws => ws.map asciiLower
  | .settings ss => ss.flatMap fun s => s.option.live ++ s.value.elim [] Said.live

/-- `sql` is one statement, an `EXPLAIN` with the options `h` in front of `x`, and `inner` is `x`
alone. A dialect reads the two parts apart, and no option is called like a statement. -/
structure Explains (d : Dialect) (sql inner head x : Bytes) (h : Head) : Prop where
  wrapped : splitStatements sql d = [head ++ x]
  alone : splitStatements inner d = [x]
  apart : stripNoise (head ++ x) d = stripNoise head d ++ stripNoise x d
  opens : Opens (stripNoise head d)
  leads : ∃ w, asciiLower w = ascii "explain" ∧ LedBy w (stripNoise head d)
  words : wordsOf (stripNoise head d) = ascii "explain" :: h.live
  verbless : ∀ w ∈ h.live, w ∉ explainVerbs

/-- The word the code looks for stands bare in the head or in the statement. -/
def ShowsAnalyze (d : Dialect) (h : Head) (x : Bytes) : Prop :=
  ascii "analyze" ∈ h.live ∨ ascii "analyze" ∈ liveWords d x

instance (d : Dialect) (h : Head) (x : Bytes) : Decidable (ShowsAnalyze d h x) :=
  inferInstanceAs (Decidable (_ ∨ _))

/-- One of the thirteen words leads the statement. -/
def VerbLed (d : Dialect) (x : Bytes) : Prop := ∃ w, asciiLower w ∈ explainVerbs ∧ LedBy w (stripNoise x d)

/-- The level the claim is about: the statement's where it is run, else `safe`. -/
def ranLevel (d : Dialect) (h : Head) (inner : Bytes) : RiskLevel :=
  if h.active then (assess inner d).level else .safe

theorem opens_of_last {x : Bytes} {c : UInt8} (h : x.getLast? = some c) (hc : isWordByte c = false) : Opens x := by
  intro b hb
  rw [h] at hb
  rw [← Option.some.inj hb, hc]

section Explained

variable {d : Dialect} {sql inner head x : Bytes} {h : Head}

theorem assess_single {stmt : Bytes} (hone : splitStatements sql d = [stmt])
    (hword : firstKeyword (stripNoise stmt d) ≠ []) : (assess sql d).level = (gradeOne d stmt).1 := by
  have hrun : runnableStatements sql d = [stmt] := by
    unfold runnableStatements
    rw [hone, List.filter_cons_of_pos, List.filter_nil]
    simpa using hword
  unfold assess
  simp only [hrun, List.map_cons, List.map_nil, List.foldl_cons, List.foldl_nil]
  exact max_eq_right (RiskLevel.safe_le _)

theorem Explains.led (hx : Explains d sql inner head x h) :
    ∃ w, asciiLower w = ascii "explain" ∧ LedBy w (stripNoise (head ++ x) d) := by
  obtain ⟨w, hw, hled⟩ := hx.leads
  obtain ⟨lead, rest, hlead, hrest, hcut⟩ := hled.cut
  have hword := isKeyword_of_verb (w := w) (by rw [hw]; exact List.mem_cons_self)
  refine ⟨w, hw, ⟨lead, rest ++ stripNoise x d, hlead, ?_, by rw [hx.apart, hcut]; simp⟩⟩
  cases rest with
  | cons c rest => exact fun y hy => hrest y hy
  | nil =>
    have hopens := hx.opens
    rw [hcut, List.append_nil] at hopens
    have hlast := Opens.of_append_right hopens _ (List.getLast?_eq_getLast_of_ne_nil hword.nonempty)
    rw [hword.bytes _ (List.getLast_mem _)] at hlast
    exact Bool.noConfusion hlast

theorem hasWord_iff_words {word : Bytes} (hne : word ≠ []) (t : Bytes) :
    hasWord (asciiLower t) word = true ↔ word ∈ wordsOf t := by
  unfold hasWord wordsOf
  rw [List.contains_iff_mem, List.mem_filter]
  exact ⟨fun hmem => ⟨hmem, by simpa using hne⟩, And.left⟩

theorem Explains.shows_iff (hx : Explains d sql inner head x h) :
    hasWord (gradedText (stripNoise (head ++ x) d)) (ascii "analyze") = true ↔ ShowsAnalyze d h x := by
  have hne : ascii "analyze" ≠ ascii "explain" := by decide
  rw [hasWord_gradedText _ (by decide), hasWord_iff_words (by decide), hx.apart, wordsOf_append (Or.inl hx.opens), hx.words,
    List.mem_append, List.mem_cons, or_iff_right hne]
  rfl

/-- **The grade of an `EXPLAIN`.** -/
theorem Explains.level (hx : Explains d sql inner head x h) :
    (assess sql d).level = if ShowsAnalyze d h x then foundLevel (stripNoise x d) else .safe := by
  obtain ⟨w, hw, hled⟩ := hx.led
  have hmem : asciiLower w ∈ ascii "explain" :: explainVerbs := by
    rw [hw]
    exact List.mem_cons_self
  rw [assess_single hx.wrapped (runnable_of_verb hmem hled), gradeOne, assessOne,
    if_pos (by rw [keyword_of_verb hmem hled, hw]; rfl)]
  by_cases hshows : ShowsAnalyze d h x
  · rw [if_pos hshows, hx.shows_iff.mpr hshows, if_neg (by decide), hx.apart]
    have hhead : ∀ v ∈ wordsOf (stripNoise head d), v ∉ explainVerbs := by
      intro v hv
      rw [hx.words] at hv
      rcases List.mem_cons.mp hv with rfl | hv
      · exact fun hverb => verb_ne_explain hverb rfl
      · exact hx.verbless v hv
    rw [innerStatementAt_behind hx.opens hhead, foundLevel]
    cases hfound : innerStatementAt (stripNoise x d) with
    | none => rfl
    | some at' =>
      obtain ⟨v, rest, hcut, hv, hrest, hverb⟩ := innerStatementAt_verb hfound
      have hlen : (head ++ x).length ≠ 0 := by
        intro hzero
        rw [List.length_eq_zero_iff.mp hzero] at hled
        exact runnable_of_verb hmem hled rfl
      obtain ⟨k, hk⟩ := Nat.exists_eq_succ_of_ne_zero hlen
      simp only [Option.map_some]
      rw [hk, drop_shift, assessOne, if_neg]
      · exact gradeKeyed_level _ _ _
      · rw [beq_iff_eq, keyword_of_verb (List.mem_cons_of_mem _ hverb) ⟨[], rest, Blank.nil, hrest, hcut⟩]
        exact verb_ne_explain hverb
  · rw [if_neg hshows, if_pos]
    rw [Bool.not_eq_true']
    exact Bool.eq_false_iff.mpr fun hword => hshows (hx.shows_iff.mp hword)

theorem verbLed_level (hone : splitStatements inner d = [x]) (hled : VerbLed d x) :
    (assess inner d).level = foundLevel (stripNoise x d) ∧ (foundLevel (stripNoise x d) = .safe ↔ Reads (stripNoise x d)) := by
  obtain ⟨w, hverb, hled⟩ := hled
  have hmem : asciiLower w ∈ ascii "explain" :: explainVerbs := List.mem_cons_of_mem _ hverb
  have hplain : firstKeyword (gradedText (stripNoise x d)) ≠ ascii "explain" := by
    rw [keyword_of_verb hmem hled]
    exact verb_ne_explain hverb
  have hfound : foundLevel (stripNoise x d) = (gradeKeyed (gradedText (stripNoise x d)) none).1 := by
    obtain ⟨lead, rest, hlead, hrest, hcut⟩ := hled.cut
    have hsilent : ∀ c ∈ lead, isWordByte c = false := fun c hc => not_word_of_blank (hlead.bytes c hc)
    have hat : innerStatementAt (stripNoise x d) = some lead.length := by
      rw [hcut, innerStatementAt_behind (opens_silent hsilent) (by rw [wordsOf_silent hsilent]; exact fun v hv => absurd hv List.not_mem_nil),
        innerStatementAt_word (isKeyword_of_verb hmem).toIsWord hrest, if_pos hverb]
      rfl
    rw [foundLevel, hat]
    simp only
    rw [hcut, List.drop_left, gradedText_behind hlead]
  refine ⟨?_, hfound ▸ keyed_safe_iff hplain⟩
  rw [assess_single hone (runnable_of_verb hmem hled), gradeOne, assessOne, if_neg (by simpa using hplain), hfound]
  exact gradeKeyed_level _ _ _

/-- A prepared statement may be anything; red cannot look into it. -/
theorem execute_level {w : Bytes} (hone : splitStatements inner d = [x]) (hw : asciiLower w = ascii "execute")
    (hled : LedBy w (stripNoise x d)) : (assess inner d).level = .risky := by
  have hword : IsKeyword w := isKeyword_of_lower (hw ▸ ⟨by decide, by rintro c ⟨⟩; rfl⟩)
  have hkey : firstKeyword (gradedText (stripNoise x d)) = ascii "execute" := by
    rw [hled.gradedKeyword hword, hw]
    decide
  have hrun : firstKeyword (stripNoise x d) ≠ [] := by
    rw [hled.firstKeyword hword]
    obtain ⟨c, v, rfl⟩ := List.exists_cons_of_ne_nil hword.nonempty
    rw [List.takeWhile_cons, if_pos (hword.letter c rfl)]
    exact List.cons_ne_nil _ _
  rw [assess_single hone hrun, gradeOne, assessOne, hkey, if_neg (by decide)]
  unfold gradeKeyed
  rw [hkey]
  rfl

end Explained

/-- **What is run is what is graded**, exactly when the option shows as the word the code looks
for, or what is run only reads. Behind other words than the thirteen it is, exactly when the
level of what is found is the one that is due; for an `EXECUTE` that is when nothing is run, and
nothing shows. -/
theorem explain_graded (d : Dialect) (sql inner head x : Bytes) (h : Head) (hx : Explains d sql inner head x h) :
    (VerbLed d x → ((assess sql d).level = ranLevel d h inner ↔
      (ShowsAnalyze d h x ↔ h.active = true) ∨ Reads (stripNoise x d))) ∧
      (¬ VerbLed d x → ((assess sql d).level = ranLevel d h inner ↔
        (if ShowsAnalyze d h x then foundLevel (stripNoise x d) else .safe) = ranLevel d h inner)) ∧
      (∀ w, asciiLower w = ascii "execute" → LedBy w (stripNoise x d) → (∀ v ∈ liveWords d x, v ∉ explainVerbs) →
        ((assess sql d).level = ranLevel d h inner ↔ h.active = false ∧ ¬ ShowsAnalyze d h x)) := by
  rw [hx.level]
  refine ⟨fun hled => ?_, fun _ => Iff.rfl, fun w hw hled hnone => ?_⟩
  · obtain ⟨hinner, hsafe⟩ := verbLed_level hx.alone hled
    unfold ranLevel
    rw [hinner]
    by_cases hshows : ShowsAnalyze d h x
    · rw [if_pos hshows, ← hsafe]
      cases hactive : h.active with
      | true | false => simp [hshows]
    · rw [if_neg hshows, ← hsafe]
      cases hactive : h.active with
      | true => simp [hshows, eq_comm]
      | false => simp [hshows]
  · have hfound : foundLevel (stripNoise x d) = .write := by
      rw [foundLevel, innerStatementAt_none hnone]
    unfold ranLevel
    rw [hfound, execute_level hx.alone hw hled]
    by_cases hshows : ShowsAnalyze d h x
    · rw [if_pos hshows]
      cases hactive : h.active with
      | true | false => simp [hshows]
    · rw [if_neg hshows]
      cases hactive : h.active with
      | true => simp
      | false => simp [hshows]

theorem deleteText_explains : Explains .postgres (ascii "EXPLAIN (ANALYZE, BUFFERS) DELETE FROM t;")
    (ascii "DELETE FROM t") (ascii "EXPLAIN (ANALYZE, BUFFERS) ") (ascii "DELETE FROM t")
    (.settings [⟨.bare (ascii "ANALYZE"), none⟩, ⟨.bare (ascii "BUFFERS"), none⟩]) where
  wrapped := by decide
  alone := by decide
  apart := by decide
  opens := opens_of_last (c := 32) (by decide) (by decide)
  leads := ⟨ascii "EXPLAIN", by decide, [], ascii " (ANALYZE, BUFFERS) ", Blank.nil, by rintro c ⟨⟩; rfl, by decide⟩
  words := by decide
  verbless := by decide

/-- A DELETE that is run, in the option list's spelling. -/
theorem deleteText_graded :
    (assess (ascii "EXPLAIN (ANALYZE, BUFFERS) DELETE FROM t;") .postgres).level =
      ranLevel .postgres (.settings [⟨.bare (ascii "ANALYZE"), none⟩, ⟨.bare (ascii "BUFFERS"), none⟩]) (ascii "DELETE FROM t") :=
  ((explain_graded _ _ _ _ _ _ deleteText_explains).1
    ⟨ascii "DELETE", by decide, [], ascii " FROM t", Blank.nil, by rintro c ⟨⟩; rfl, by decide⟩).mpr
    (Or.inl (by decide))

/-- The other spelling of the option: the DELETE is run, and graded a plan. -/
theorem analyse_ungraded :
    Explains .postgres (ascii "EXPLAIN ANALYSE DELETE FROM t") (ascii "DELETE FROM t") (ascii "EXPLAIN ANALYSE ")
        (ascii "DELETE FROM t") (.words [ascii "ANALYSE"]) ∧
      (Head.words [ascii "ANALYSE"]).active = true ∧
      (assess (ascii "EXPLAIN ANALYSE DELETE FROM t") .postgres).level = .safe ∧
      (assess (ascii "DELETE FROM t") .postgres).level = .risky where
  left :=
    { wrapped := by decide
      alone := by decide
      apart := by decide
      opens := opens_of_last (c := 32) (by decide) (by decide)
      leads := ⟨ascii "EXPLAIN", by decide, [], ascii " ANALYSE ", Blank.nil, by rintro c ⟨⟩; rfl, by decide⟩
      words := by decide
      verbless := by decide }
  right := by decide

end RedDb.Sql
