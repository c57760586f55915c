import RedDb.Sql.Leading

/-!
# RedDb — a whole table's UPDATE or DELETE

`assess_one` takes an UPDATE or DELETE for filtered when the word `where` stands anywhere in the
stripped copy. A sub-select's `WHERE` is such a word, and says nothing about the rows the
statement touches.

* `splitWhitespaceFrom_at` — where a blank-separated word stands;
* `not_alwaysTrue_inside` — the always-true forms need a `where` of the statement's own;
* `wholeTable_risky` — exactly when a statement without one is graded `risky`.
-/

namespace RedDb.Sql

open ByteText

/-! ## Blank-separated words -/

section Tokens

variable {skip : Nat} {acc b : Bytes}

theorem bracketDepth_blank {c : UInt8} (h : isBlankByte c = true) : bracketDepth [c] = 0 := by
  unfold bracketDepth
  rw [List.count_singleton, List.count_singleton, if_neg, if_neg]
  · rfl
  · simpa using ne_of_blank h (x := closeParen) (by decide)
  · simpa using ne_of_blank h (x := openParen) (by decide)

/-- The bytes of the blank a text begins with. -/
theorem wsLen_bytes {c : UInt8} {rest : Bytes} {k : Nat} (h : wsLen (c :: rest) = k + 1) :
    isBlankByte c = true ∧ ∀ x ∈ rest.take k, isBlankByte x = true := by
  rcases wsLen_cases (c :: rest) with hz | ⟨e, behind, he, hcut⟩
  · rw [hz] at h
    exact absurd h.symm (Nat.succ_ne_zero k)
  rw [hcut, he.wsLen] at h
  cases e with
  | nil => exact absurd h.symm (Nat.succ_ne_zero k)
  | cons x e =>
    obtain ⟨rfl, hrest⟩ := List.cons.inj hcut
    have hk : e.length = k := Nat.succ.inj h
    refine ⟨he.bytes c List.mem_cons_self, fun y hy => he.bytes y (List.mem_cons_of_mem _ ?_)⟩
    rw [hrest, ← hk] at hy
    rwa [← @List.take_left _ e behind]

theorem getLast?_blank {c x : UInt8} {p : Bytes} (hc : isBlankByte c = true)
    (hp : ∀ y ∈ p.getLast?, isBlankByte y = true) (hx : x ∈ (c :: p).getLast?) : isBlankByte x = true := by
  cases p with
  | nil => rwa [← Option.some.inj hx]
  | cons y p => exact hp x (by rwa [List.getLast?_cons_cons] at hx)

-- `skip` bytes of a blank are still to go, and behind a blank no word is open
variable (hskip : skip ≠ 0 → acc = []) (hblank : ∀ c ∈ b.take skip, isBlankByte c = true)

include hskip hblank

/-- The blanks between words hold no parenthesis. -/
theorem bracketDepth_words :
    bracketDepth (splitWhitespaceFrom skip acc b).flatten = bracketDepth (acc.reverse ++ b) := by
  induction b generalizing skip acc with
  | nil =>
    unfold splitWhitespaceFrom
    cases acc with
    | nil => rfl
    | cons x acc => simp
  | cons c rest ih =>
    cases skip with
    | succ skip =>
      obtain rfl := hskip (Nat.succ_ne_zero skip)
      rw [splitWhitespaceFrom, ih (fun _ => rfl) fun x hx => hblank x (List.mem_cons_of_mem _ hx), List.reverse_nil,
        List.nil_append, List.nil_append, bracketDepth_cons, bracketDepth_blank (hblank c List.mem_cons_self), Int.zero_add]
    | zero =>
      rw [splitWhitespaceFrom]
      cases hws : wsLen (c :: rest) with
      | zero =>
        simp only
        rw [ih (fun h => absurd rfl h) fun x hx => absurd hx (by simp), List.reverse_cons, List.append_assoc,
          List.singleton_append]
      | succ k =>
        obtain ⟨hc, hk⟩ := wsLen_bytes hws
        have hrest := @ih k [] (fun _ => rfl) hk
        rw [List.reverse_nil, List.nil_append] at hrest
        simp only
        rw [bracketDepth_append, bracketDepth_cons c, bracketDepth_blank hc, Int.zero_add, ← hrest]
        split
        · rename_i hacc
          rw [List.isEmpty_iff.mp hacc]
          exact (Int.zero_add _).symm
        · rw [List.flatten_cons, bracketDepth_append]

/-- A word stands between blanks, the words behind it behind it. -/
theorem splitWhitespaceFrom_at {us vs : List Bytes} {w : Bytes} (h : splitWhitespaceFrom skip acc b = us ++ w :: vs) :
    ∃ p q, acc.reverse ++ b = p ++ (w ++ q) ∧ (∀ c ∈ p.getLast?, isBlankByte c = true) ∧
      (∀ c ∈ q.head?, isBlankByte c = true) ∧ bracketDepth q = bracketDepth vs.flatten := by
  induction b generalizing skip acc us with
  | nil =>
    unfold splitWhitespaceFrom at h
    split at h
    · exact absurd (congrArg List.length h) (by simp)
    rw [List.append_nil]
    cases us with
    | nil =>
      obtain ⟨rfl, rfl⟩ := List.cons.inj h
      exact ⟨[], [], by simp, fun c hc => absurd hc (by simp), fun c hc => absurd hc (by simp), rfl⟩
    | cons u us =>
      exact absurd (congrArg List.length h) (by simp)
  | cons c rest ih =>
    cases skip with
    | succ skip =>
      obtain rfl := hskip (Nat.succ_ne_zero skip)
      rw [splitWhitespaceFrom] at h
      obtain ⟨p, q, hcut, hp, hq, hdepth⟩ := ih (fun _ => rfl) (fun x hx => hblank x (List.mem_cons_of_mem _ hx)) h
      rw [List.reverse_nil, List.nil_append] at hcut ⊢
      refine ⟨c :: p, q, by rw [hcut, List.cons_append], fun x hx => ?_, hq, hdepth⟩
      exact getLast?_blank (hblank c List.mem_cons_self) hp hx
    | zero =>
      rw [splitWhitespaceFrom] at h
      cases hws : wsLen (c :: rest) with
      | zero =>
        rw [hws] at h
        obtain ⟨p, q, hcut, hp, hq, hdepth⟩ := ih (fun h => absurd rfl h) (fun x hx => absurd hx (by simp)) h
        rw [List.reverse_cons, List.append_assoc, List.singleton_append] at hcut
        exact ⟨p, q, hcut, hp, hq, hdepth⟩
      | succ k =>
        obtain ⟨hc, hk⟩ := wsLen_bytes hws
        rw [hws] at h
        simp only at h
        -- the words behind the blank
        have hbehind : ∀ us, splitWhitespaceFrom k [] rest = us ++ w :: vs →
            ∃ p q, acc.reverse ++ c :: rest = p ++ (w ++ q) ∧ (∀ c ∈ p.getLast?, isBlankByte c = true) ∧
              (∀ c ∈ q.head?, isBlankByte c = true) ∧ bracketDepth q = bracketDepth vs.flatten := by
          intro us hus
          obtain ⟨p, q, hcut, hp, hq, hdepth⟩ := ih (fun _ => rfl) hk hus
          rw [List.reverse_nil, List.nil_append] at hcut
          refine ⟨acc.reverse ++ c :: p, q, by rw [hcut, List.append_assoc, List.cons_append], fun x hx => ?_, hq, hdepth⟩
          rw [List.getLast?_append_of_ne_nil _ (List.cons_ne_nil c p)] at hx
          exact getLast?_blank hc hp hx
        split at h
        · exact hbehind us h
        cases us with
        | nil =>
          obtain ⟨rfl, hvs⟩ := List.cons.inj h
          refine ⟨[], c :: rest, rfl, fun x hx => absurd hx (by simp), fun x hx => ?_, ?_⟩
          · rwa [← Option.some.inj hx]
          · have hrest := @bracketDepth_words k [] rest (fun _ => rfl) hk
            rw [hvs] at hrest
            rw [hrest, bracketDepth_cons, bracketDepth_blank hc, Int.zero_add]
            rfl
        | cons u us =>
          obtain ⟨-, hus⟩ := List.cons.inj h
          exact hbehind us hus

end Tokens

/-! ## Statements without a `WHERE` of their own -/

/-- The text of a statement the graders look at: its copy, without the final `;`, in lower case. -/
def graded (d : Dialect) (stmt : Bytes) : Bytes := gradedText (stripNoise stmt d)

/-- `sql` is the one statement `stmt`, an UPDATE or DELETE, and no `where` outside its literals
and comments stands behind as many `(` as `)`. -/
structure WholeTable (d : Dialect) (sql stmt : Bytes) : Prop where
  single : runnableStatements sql d = [stmt]
  verb : LedBy (ascii "update") (graded d stmt) ∨ LedBy (ascii "delete") (graded d stmt)
  unfiltered : ∀ pre post, Stands (ascii "where") (graded d stmt) pre post → bracketDepth pre ≠ 0

theorem tautology_flat {predicate : Bytes}
    (h : [ascii "1=1", ascii "true", ascii "1<>0", ascii "1!=0"].contains predicate = true) : bracketDepth predicate = 0 := by
  have hall : ∀ p ∈ [ascii "1=1", ascii "true", ascii "1<>0", ascii "1!=0"], bracketDepth p = 0 := by decide
  exact hall predicate (List.contains_iff_mem.mp h)

/-- An always-true `where` stands as deep as the text ends. -/
theorem alwaysTrue_depth {lower : Bytes} (h : alwaysTrueWhere lower = true) :
    ∃ pre post, Stands (ascii "where") lower pre post ∧ bracketDepth pre = bracketDepth lower := by
  unfold alwaysTrueWhere splitWhitespace at h
  simp only at h
  cases hdrop : (splitWhitespaceFrom 0 [] lower).dropWhile (· != ascii "where") with
  | nil => rw [hdrop] at h; exact Bool.noConfusion h
  | cons w predicate =>
    rw [hdrop] at h
    have hw : w = ascii "where" := by
      have hhead := List.head?_dropWhile_not (· != ascii "where") (splitWhitespaceFrom 0 [] lower)
      rw [hdrop] at hhead
      simpa using hhead
    have hsplit := List.takeWhile_append_dropWhile (p := (· != ascii "where")) (l := splitWhitespaceFrom 0 [] lower)
    rw [hdrop, hw] at hsplit
    obtain ⟨p, q, hcut, hp, hq, hdepth⟩ :=
      splitWhitespaceFrom_at (fun h => absurd rfl h) (fun c hc => absurd hc (by simp)) hsplit.symm
    rw [List.reverse_nil, List.nil_append] at hcut
    refine ⟨p, q, ⟨hcut, fun c hc => not_word_of_blank (hp c hc), fun c hc => not_word_of_blank (hq c hc)⟩, ?_⟩
    rw [hcut, bracketDepth_append, bracketDepth_append, hdepth, tautology_flat h,
      bracketDepth_word (by decide : IsWord (ascii "where"))]
    omega

theorem isKeyword_verb {w : Bytes} (h : w = ascii "update" ∨ w = ascii "delete") : IsKeyword w := by
  rcases h with rfl | rfl
  · exact ⟨by decide, by rintro c ⟨⟩; rfl⟩
  · exact ⟨by decide, by rintro c ⟨⟩; rfl⟩

theorem gradeOne_mutation {d : Dialect} {stmt : Bytes}
    (h : LedBy (ascii "update") (graded d stmt) ∨ LedBy (ascii "delete") (graded d stmt)) :
    RiskLevel.risky ≤ (gradeOne d stmt).1 ↔
      hasWord (graded d stmt) (ascii "where") = false ∨ alwaysTrueWhere (graded d stmt) = true := by
  have hkey : firstKeyword (graded d stmt) = ascii "update" ∨ firstKeyword (graded d stmt) = ascii "delete" :=
    h.imp (LedBy.firstKeyword (isKeyword_verb (Or.inl rfl))) (LedBy.firstKeyword (isKeyword_verb (Or.inr rfl)))
  have hgrade : (gradeOne d stmt).1 =
      if !hasWord (graded d stmt) (ascii "where") then RiskLevel.risky
      else if alwaysTrueWhere (graded d stmt) then .risky else .write := by
    unfold gradeOne assessOne
    change (if firstKeyword (graded d stmt) == ascii "explain" then _ else gradeKeyed (graded d stmt) _).1 = _
    unfold gradeKeyed
    rcases hkey with hkey | hkey
    all_goals
      rw [hkey, if_neg (by decide), if_neg (by decide), if_neg (by decide), if_neg (by decide), if_pos (by decide)]
      split_ifs <;> rfl
  rw [hgrade]
  cases hword : hasWord (graded d stmt) (ascii "where") with
  | false => simp
  | true =>
    cases htrue : alwaysTrueWhere (graded d stmt) with
    | true => simp
    | false => simp; decide

/-- **Whole tables.** An UPDATE or DELETE without a `WHERE` of its own is graded `risky` exactly
when it holds no `where` at all, not even a sub-select's, or, its parentheses not matching, ends
in an always-true one. -/
theorem wholeTable_risky (d : Dialect) (sql stmt : Bytes) (h : WholeTable d sql stmt) :
    (RiskLevel.risky ≤ (assess sql d).level ↔
      (¬ ∃ pre post, Stands (ascii "where") (graded d stmt) pre post) ∨ alwaysTrueWhere (graded d stmt) = true) ∧
      (bracketDepth (graded d stmt) = 0 →
        (RiskLevel.risky ≤ (assess sql d).level ↔ ¬ ∃ pre post, Stands (ascii "where") (graded d stmt) pre post)) := by
  have hlevel : (assess sql d).level = (gradeOne d stmt).1 := by
    unfold assess
    simp only [h.single, List.map_cons, List.map_nil, List.foldl_cons, List.foldl_nil]
    exact max_eq_right (RiskLevel.safe_le _)
  have hexact : RiskLevel.risky ≤ (assess sql d).level ↔
      (¬ ∃ pre post, Stands (ascii "where") (graded d stmt) pre post) ∨ alwaysTrueWhere (graded d stmt) = true := by
    rw [hlevel, gradeOne_mutation h.verb, ← hasWord_iff (by decide), Bool.not_eq_true]
  refine ⟨hexact, fun hbalanced => hexact.trans ⟨?_, Or.inl⟩⟩
  rintro (hnone | htrue)
  · exact hnone
  · obtain ⟨pre, post, hstands, hdepth⟩ := alwaysTrue_depth htrue
    exact absurd (hdepth.trans hbalanced) (h.unfiltered pre post hstands)

theorem unfiltered_of_search {lower : Bytes} (h : topLevelWord lower (ascii "where") = none) :
    ∀ pre post, Stands (ascii "where") lower pre post → bracketDepth pre ≠ 0 := by
  intro pre post hstands hdepth
  have hsome := (topLevelWord_isSome_iff (by decide)).mpr ⟨pre, post, hstands, hdepth⟩
  rw [h] at hsome
  exact Bool.noConfusion hsome

/-- A DELETE of every row. -/
theorem deleteAll_risky :
    (RiskLevel.risky ≤ (assess (ascii "DELETE FROM t;") .postgres).level ↔
      (¬ ∃ pre post, Stands (ascii "where") (graded .postgres (ascii "DELETE FROM t")) pre post) ∨
        alwaysTrueWhere (graded .postgres (ascii "DELETE FROM t")) = true) ∧
      (bracketDepth (graded .postgres (ascii "DELETE FROM t")) = 0 →
        (RiskLevel.risky ≤ (assess (ascii "DELETE FROM t;") .postgres).level ↔
          ¬ ∃ pre post, Stands (ascii "where") (graded .postgres (ascii "DELETE FROM t")) pre post)) :=
  wholeTable_risky .postgres (ascii "DELETE FROM t;") (ascii "DELETE FROM t")
    ⟨by decide, Or.inr ⟨[], ascii " from t", Blank.nil, by rintro c ⟨⟩; rfl, by decide⟩,
      unfiltered_of_search (by decide)⟩

/-- An UPDATE of every row that takes its values from a filtered sub-select. -/
theorem updateAll_write :
    WholeTable .postgres (ascii "UPDATE t SET a = (SELECT b FROM u WHERE u.id = 1)")
        (ascii "UPDATE t SET a = (SELECT b FROM u WHERE u.id = 1)") ∧
      ¬ RiskLevel.risky ≤ (assess (ascii "UPDATE t SET a = (SELECT b FROM u WHERE u.id = 1)") .postgres).level :=
  ⟨⟨by decide, Or.inl ⟨[], ascii " t set a = (select b from u where u.id = 1)", Blank.nil,
      by rintro c ⟨⟩; rfl, by decide⟩, unfiltered_of_search (by decide)⟩, by decide⟩

end RedDb.Sql
