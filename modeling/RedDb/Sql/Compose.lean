import RedDb.Sql.Locality

/-!
# RedDb — the statements of two scripts joined by a `;`

Behind a cut the splitter starts afresh, so what follows is split as a script of
its own, at an offset (`scanStep_shift`, `scanRun_shift`). A script that leaves
nothing open (`Complete`) is cut by the `;` after it, and the joined script has
the statements of the first and then of the second (`splitStatements_join`).
-/

namespace RedDb.Sql

open ByteText

/-! ## Lookaheads at an offset -/

section Shift

variable {pre y : Bytes}

theorem nextWord_shift (i : Nat) : nextWord (pre ++ y) (pre.length + i) =
      (nextWord y i).map fun p => (p.1, pre.length + p.2) := by
  unfold nextWord
  simp only [drop_shift, Nat.add_assoc, getElem?_shift, wordEnd_shift, slice_shift]
  split
  · rfl
  · split
    · rfl
    · rfl

theorem nextHeaderWord_shift (i : Nat) : nextHeaderWord (pre ++ y) (pre.length + i) =
      (nextHeaderWord y i).map fun p => (p.1, pre.length + p.2) := by
  unfold nextHeaderWord
  simp only [drop_shift, Nat.add_assoc, getElem?_shift, wordEnd_shift, slice_shift]
  split
  · rfl
  · split
    · rfl
    · rfl

theorem restOfLine_shift (i : Nat) : restOfLine (pre ++ y) (pre.length + i) =
      ((restOfLine y i).1, pre.length + (restOfLine y i).2) := by
  unfold restOfLine
  simp only [drop_shift, List.length_append]
  congr 1
  omega

theorem ifExistsHeader_shift (i : Nat) :
    ifExistsHeader (pre ++ y) (pre.length + i) = ifExistsHeader y i := by
  unfold ifExistsHeader
  rw [nextWord_shift]
  cases nextWord y i with
  | none => rfl
  | some p =>
    obtain ⟨w, e⟩ := p
    simp only [Option.map_some, nextWord_shift]
    cases nextWord y e with
    | none => rfl
    | some q => rfl

theorem headerNamesRoutine_shift (k i : Nat) :
    headerNamesRoutine (pre ++ y) k (pre.length + i) = headerNamesRoutine y k i := by
  induction k generalizing i with
  | zero => rfl
  | succ k ih =>
    unfold headerNamesRoutine
    rw [nextHeaderWord_shift]
    cases nextHeaderWord y i with
    | none => rfl
    | some p =>
      obtain ⟨w, e⟩ := p
      simp only [Option.map_some, ih]

theorem routineDdlAt_shift (i : Nat) :
    routineDdlAt (pre ++ y) (pre.length + i) = routineDdlAt y i := by
  unfold routineDdlAt
  rw [nextWord_shift]
  cases nextWord y i with
  | none => rfl
  | some p =>
    obtain ⟨w, e⟩ := p
    simp only [Option.map_some, headerNamesRoutine_shift]

theorem endClause_shift (i : Nat) :
    endClause (pre ++ y) (pre.length + i) = pre.length + endClause y i := by
  unfold endClause
  rw [nextWord_shift]
  cases nextWord y i with
  | none => rfl
  | some p =>
    obtain ⟨w, e⟩ := p
    simp only [Option.map_some]
    split
    · rfl
    · rfl

/-- Enough rounds for the text that is left decide a `THEN`. -/
theorem thenFollowsFrom_fuel {d : Dialect} {b : Bytes} (fuel fuel' i depth : Nat)
    (h : b.length - i < fuel) (h' : b.length - i < fuel') :
    thenFollowsFrom d b fuel i depth = thenFollowsFrom d b fuel' i depth := by
  induction fuel generalizing fuel' i depth with
  | zero => omega
  | succ fuel ih =>
    obtain ⟨k, rfl⟩ : ∃ k, fuel' = k + 1 := ⟨fuel' - 1, by omega⟩
    unfold thenFollowsFrom
    cases hc : b[i]? with
    | none => rfl
    | some c =>
      have hi := lt_of_getElem?_eq_some hc
      have hnext : ∀ j depth, i < j →
          thenFollowsFrom d b fuel j depth = thenFollowsFrom d b k j depth :=
        fun j depth hj => ih k j depth (by omega) (by omega)
      have hq : i < skipQuoted b i c (quoteEscapes b i c d) := by unfold skipQuoted; omega
      have hb : i < skipBlockComment b i d := by unfold skipBlockComment; omega
      have hh : i < lineCommentEnd b (i + 1) := by unfold lineCommentEnd; omega
      have hw : isWordByte c = true → i < wordEnd b i := lt_wordEnd hc
      have hd : d.dashCommentAt b i = true → i < lineCommentEnd b (i + 2) := by
        intro h
        have := dashCommentAt_lt h
        unfold lineCommentEnd
        omega
      simp only [hnext (i + 1) _ (by omega), hnext _ _ hq, hnext _ _ hb, hnext _ _ hh]
      by_cases hdash : d.dashCommentAt b i = true
      · simp only [hdash, if_true, hnext _ _ (hd hdash)]
      · by_cases hword : isWordByte c = true
        · simp only [hdash, hword, if_true, Bool.false_eq_true, if_false, hnext _ _ (hw hword)]
        · simp only [hdash, hword, Bool.false_eq_true, if_false]

variable (hpre : Opens pre)

include hpre

theorem thenFollowsFrom_shift (d : Dialect) (fuel i depth : Nat) :
    thenFollowsFrom d (pre ++ y) fuel (pre.length + i) depth =
      thenFollowsFrom d y fuel i depth := by
  induction fuel generalizing i depth with
  | zero => rfl
  | succ fuel ih =>
    unfold thenFollowsFrom
    simp only [getElem?_shift, Nat.add_assoc, ih, quoteEscapes_shift hpre, skipQuoted_shift,
      dashCommentAt_shift, lineCommentEnd_shift, skipBlockComment_shift, wordEnd_shift,
      slice_shift]

theorem thenFollows_shift {d : Dialect} {i : Nat} :
    thenFollows (pre ++ y) (pre.length + i) d = thenFollows y i d := by
  unfold thenFollows
  rw [thenFollowsFrom_shift hpre]
  exact thenFollowsFrom_fuel _ _ _ _ (by rw [List.length_append]; omega) (by omega)

theorem opensBlock_shift {d : Dialect} (word : Bytes) (i : Nat) :
    opensBlock (pre ++ y) word (pre.length + i) d = opensBlock y word i d := by
  unfold opensBlock
  simp only [getElem?_shift, drop_shift, Nat.add_assoc, ifExistsHeader_shift,
    thenFollows_shift hpre]

theorem bodyWord_shift {d : Dialect} (i depth : Nat) :
    bodyWord d (pre ++ y) (pre.length + i) depth =
      (pre.length + (bodyWord d y i depth).1, (bodyWord d y i depth).2) := by
  unfold bodyWord
  rw [wordEnd_shift, slice_shift, endClause_shift, opensBlock_shift hpre]
  split
  · rfl
  · rfl

end Shift

/-! ## The loop at an offset -/

/-- A range `k` bytes further on. -/
def shiftRange (k : Nat) (r : Nat × Nat) : Nat × Nat := (k + r.1, k + r.2)

/-- A state `k` bytes further on, behind the ranges `out`. -/
def Scan.shift (k : Nat) (out : List (Nat × Nat)) (s : Scan) : Scan :=
  { s with i := k + s.i, start := k + s.start, out := out ++ s.out.map (shiftRange k) }

section ScanShift

variable {d : Dialect} {pre y : Bytes} (hpre : Opens pre) (out : List (Nat × Nat))

theorem atDelimiter_shift (s : Scan) :
    atDelimiter (pre ++ y) (s.shift pre.length out) = atDelimiter y s := by
  unfold atDelimiter Scan.shift
  simp only [drop_shift]

theorem cut_shift (s : Scan) : (s.shift pre.length out).cut = (s.cut).shift pre.length out := by
  unfold Scan.cut Scan.shift
  simp [shiftRange, Nat.add_assoc]

theorem onDirective_shift (s : Scan) :
    onDirective (pre ++ y) (s.shift pre.length out) = onDirective y s := by
  unfold onDirective Scan.shift
  simp only [wordEnd_shift, slice_shift]

theorem bodyMode_shift (s : Scan) :
    bodyMode (pre ++ y) (s.shift pre.length out) = bodyMode y s := by
  unfold bodyMode Scan.shift
  simp only [routineDdlAt_shift]

include hpre

theorem lexNext_shift (i : Nat) : lexNext d (pre ++ y) (pre ++ y).length (pre.length + i) =
      pre.length + lexNext d y y.length i := by
  unfold lexNext
  rw [List.length_append, noiseEnd_shift hpre]
  cases noiseEnd d y y.length i with
  | none => simp [Nat.add_assoc]
  | some e => rfl

theorem isLead_shift (i : Nat) : isLead d (pre ++ y) (pre.length + i) = isLead d y i := by
  unfold isLead
  rw [getElem?_shift, List.length_append, noiseEnd_shift hpre, Option.isSome_map]

/-- **A round at an offset** is the round of the text from there on. -/
theorem scanStep_shift {s : Scan} (hi : s.i < y.length) :
    scanStep d (pre ++ y) (s.shift pre.length out) = (scanStep d y s).shift pre.length out := by
  have hat : atDelimiter (pre ++ y) (s.shift pre.length out) = atDelimiter y s :=
    atDelimiter_shift out s
  cases h : atDelimiter y s with
  | true => rw [scanStep_cut (hat.trans h), scanStep_cut h, cut_shift]
  | false =>
    have hc : y[s.i]? = some y[s.i] := List.getElem?_eq_getElem hi
    have hc' : (pre ++ y)[(s.shift pre.length out).i]? = some y[s.i] :=
      (getElem?_shift s.i).trans hc
    cases hw : isWordByte y[s.i] with
    | false =>
      rw [scanStep_lexeme (hat.trans h) hc' hw, scanStep_lexeme h hc hw]
      unfold Scan.shift
      simp only [lexNext_shift hpre, isLead_shift hpre]
    | true =>
      have hdir : onDirective (pre ++ y) (s.shift pre.length out) = onDirective y s :=
        onDirective_shift out s
      cases hd : onDirective y s with
      | true =>
        rw [scanStep_directive (hat.trans h) hc' hw (hdir.trans hd),
          scanStep_directive h hc hw hd]
        unfold Scan.shift
        simp only [wordEnd_shift, restOfLine_shift]
      | false =>
        rw [scanStep_word (hat.trans h) hc' hw (hdir.trans hd), scanStep_word h hc hw hd,
          bodyMode_shift]
        unfold Scan.afterWord Scan.shift
        simp only [wordEnd_shift, bodyWord_shift hpre]
        split
        · rfl
        · rfl

/-- **The run at an offset.** -/
theorem scanRun_shift {s : Scan} (hi : s.i ≤ y.length) :
    scanRun d (pre ++ y) (s.shift pre.length out) = (scanRun d y s).shift pre.length out := by
  have hscan : ∀ t, scanning y t = true → scanning (pre ++ y) (t.shift pre.length out) = true ∧
      scanStep d (pre ++ y) (t.shift pre.length out) = (scanStep d y t).shift pre.length out := by
    intro t ht
    have hlt : t.i < y.length := of_decide_eq_true ht
    refine ⟨decide_eq_true ?_, scanStep_shift hpre out hlt⟩
    rw [List.length_append]
    exact Nat.add_lt_add_left hlt _
  have hv : ScanVisits d (pre ++ y) (s.shift pre.length out)
      ((scanRun d y s).shift pre.length out) :=
    WhileLoop.Visits.map (I := fun _ => True) (Scan.shift pre.length out)
      (fun _ _ _ => trivial) (fun t ht _ => hscan t ht) (scanRun_visits d y s) trivial
  rw [scanRun_of_visits hv]
  refine WhileLoop.run_of_done _ (decide_eq_false ?_)
  have := scanRun_done d y s hi
  simp only [Scan.shift, List.length_append]
  omega

end ScanShift

/-! ## Joined scripts -/

/-- A script that leaves no literal, comment or routine body open: a `;` after it is
scanned in the state its own scan ends in, outside blocks and under the separator
`;`. -/
def Complete (d : Dialect) (a : Bytes) : Prop :=
  ∃ s, ScanVisits d a .init s ∧ ScanVisits d (a ++ [semicolon]) .init s ∧ s.i = a.length ∧
    s.depth = 0 ∧ s.delim = .semicolon

section Join

variable {d : Dialect} {a b : Bytes}

/-- The ranges of a joined script. -/
theorem statementRanges_join (ha : Complete d a) (hlocal : LooksLocalRun d (a ++ [semicolon]) b) :
    statementRanges (a ++ [semicolon] ++ b) d =
      statementRanges a d ++ (statementRanges b d).map (shiftRange (a ++ [semicolon]).length) := by
  obtain ⟨s, hva, hvs, hi, hdepth, hdelim⟩ := ha
  have hend : scanRun d a .init = s := by
    rw [scanRun_of_visits hva]
    exact WhileLoop.run_of_done _ (decide_eq_false (by omega))
  have hat : atDelimiter (a ++ [semicolon]) s = true := by
    unfold atDelimiter
    rw [hdepth, hdelim, hi, List.drop_left]
    rfl
  have hcut := scanVisits_append hvs (by rw [List.length_append, hi]; simp) hat
    (by rw [hdelim, hi, List.length_append]; rfl) hlocal
  have hfresh : s.cut =
      Scan.init.shift (a ++ [semicolon]).length (s.out ++ [(s.start, s.i)]) := by
    unfold Scan.cut Scan.shift Scan.init
    rw [hdelim, hdepth, hi]
    simp [Delimiter.semicolon]
  have hopens : Opens (a ++ [semicolon]) := by
    intro c hc
    rw [List.getLast?_concat] at hc
    obtain rfl := Option.some.inj hc
    decide
  rw [statementRanges, scanRun_of_visits hcut, hfresh,
    scanRun_shift hopens _ (Nat.zero_le _), statementRanges, hend, statementRanges]
  simp only [Scan.shift, shiftRange, hi, List.append_assoc, List.map_append, List.map_cons,
    List.map_nil, List.length_append, Nat.add_assoc]

theorem splitStatements_join (ha : Complete d a) (hlocal : LooksLocalRun d (a ++ [semicolon]) b) :
    splitStatements (a ++ [semicolon] ++ b) d = splitStatements a d ++ splitStatements b d := by
  unfold splitStatements
  rw [statementRanges_join ha hlocal, List.map_append, List.filter_append, List.map_map]
  congr 2
  · refine List.map_congr_left fun r hr => ?_
    rw [List.append_assoc, slice_append _ (statementRanges_le hr)]
  · refine List.map_congr_left fun r _ => ?_
    simp only [Function.comp_apply, shiftRange, slice_shift]

end Join

end RedDb.Sql
