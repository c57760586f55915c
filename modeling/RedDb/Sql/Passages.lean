import RedDb.Lib.Numerals
import RedDb.Sql.Agreement
import RedDb.Sql.Compose
import RedDb.Sql.Names

/-!
# RedDb — texts the scan passes

A script that a program writes is known piece by piece: keywords and punctuation, quoted
names, line comments, and texts it was given. `Passes` says of a piece that the scan stands
right behind it, whatever the rest is, and what the stripper leaves of it; pieces in a row are
passed one after the other.

* `Passes.append` — two pieces in a row;
* `passes_calm` — keywords, blanks and punctuation;
* `passes_quoted` — a quoted name;
* `passes_remark` — a line comment, up to its line feed;
* `passes_settled` — a settled text.
-/

namespace RedDb.Sql

open ByteText

/-- In front of `rest` the scan stands right behind `x`, of which the stripper leaves `c`, and
meets no executable comment in it. -/
structure Passes (d : Dialect) (x c rest : Bytes) : Prop where
  reaches : Reaches d (x ++ rest) (x ++ rest).length 0 x.length
  copy : stripNoise (x ++ rest) d = c ++ strip d (x ++ rest) x.length (x ++ rest).length
  live : ∀ i, Reaches d (x ++ rest) (x ++ rest).length 0 i → i < x.length →
    d.executableCommentAt (x ++ rest) i = false

section Append

variable {d : Dialect} {x y c c' rest : Bytes}

theorem reaches_shift {pre : Bytes} (hpre : Opens pre) {i j : Nat} (h : Reaches d y y.length i j) :
    Reaches d (pre ++ y) (pre ++ y).length (pre.length + i) (pre.length + j) := by
  refine WhileLoop.Visits.map (I := fun _ => True) (pre.length + ·) (fun _ _ _ => trivial)
    (fun k hk _ => ⟨?_, lexNext_shift hpre k⟩) h trivial
  have hlt : k < y.length := of_decide_eq_true hk
  rw [List.length_append]
  exact decide_eq_true (by omega)

/-- What the scan of a suffix stands on is what it stands on at the offset. -/
theorem reaches_of_shift {pre : Bytes} (hpre : Opens pre) {k : Nat}
    (h : Reaches d (pre ++ y) (pre ++ y).length pre.length k) :
    ∃ j, k = pre.length + j ∧ Reaches d y y.length 0 j := by
  induction h with
  | refl => exact ⟨0, rfl, Relation.ReflTransGen.refl⟩
  | tail _ hr ih =>
    obtain ⟨j, rfl, hj⟩ := ih
    obtain ⟨hlt, rfl⟩ := hr
    have hlt : pre.length + j < (pre ++ y).length := of_decide_eq_true hlt
    rw [List.length_append] at hlt
    exact ⟨_, lexNext_shift hpre j, hj.trans (Reaches.next (by omega))⟩

theorem Passes.stripNoise_eq (h : Passes d x c rest) (hopens : Opens x) :
    stripNoise (x ++ rest) d = c ++ stripNoise rest d := by
  have hshift := strip_shift (d := d) (y := rest) hopens rest.length 0 rest.length (Nat.le_refl _)
    (by omega)
  rw [Nat.add_zero, ← List.length_append] at hshift
  rw [h.copy, hshift, ← Sql.stripNoise_eq]

/-- Before the place behind `x` the scan is in `x`, and from there on in the rest. -/
theorem Passes.cases (h : Passes d x c rest) (hopens : Opens x) {i : Nat}
    (hi : Reaches d (x ++ rest) (x ++ rest).length 0 i) :
    i < x.length ∨ ∃ j, i = x.length + j ∧ Reaches d rest rest.length 0 j := by
  rcases hi.total h.reaches with hto | hbehind
  · have hle := (Reaches.bounds (Nat.le_refl _) hto (Reaches.bounds (Nat.le_refl _) hi (Nat.zero_le _)).2).1
    rcases Nat.lt_or_eq_of_le hle with hlt | rfl
    · exact Or.inl hlt
    · exact Or.inr ⟨0, rfl, Relation.ReflTransGen.refl⟩
  · exact Or.inr (reaches_of_shift hopens hbehind)

/-- **Two pieces in a row.** -/
theorem Passes.append (hx : Passes d x c (y ++ rest)) (hopens : Opens x) (hy : Passes d y c' rest) :
    Passes d (x ++ y) (c ++ c') rest := by
  have hshape : x ++ y ++ rest = x ++ (y ++ rest) := List.append_assoc x y rest
  refine ⟨?_, ?_, fun i hi hlt => ?_⟩
  · rw [hshape, show (x ++ y).length = x.length + y.length from List.length_append]
    exact hx.reaches.trans (reaches_shift hopens hy.reaches)
  · have htail := strip_shift (d := d) (y := y ++ rest) hopens (y ++ rest).length y.length
      (y ++ rest).length (Nat.le_refl _) (by omega)
    rw [← @List.length_append _ x (y ++ rest)] at htail
    rw [hshape, show (x ++ y).length = x.length + y.length from List.length_append, htail,
      hx.stripNoise_eq hopens, hy.copy, List.append_assoc]
  · rw [hshape] at hi ⊢
    rcases hx.cases hopens hi with hin | ⟨j, rfl, hj⟩
    · exact hx.live i hi hin
    · rw [executableCommentAt_shift]
      rw [List.length_append] at hlt
      exact hy.live j hj (by omega)

/-- What is passed to its end is scanned whole. -/
theorem Passes.whole (h : Passes d x c []) : stripNoise x d = c ∧ NoExecutableComment d x := by
  have hnil : x ++ [] = x := List.append_nil x
  constructor
  · have hcopy := h.copy
    rwa [hnil, strip_done (Nat.le_refl _), List.append_nil] at hcopy
  · intro i hi
    rcases Nat.lt_or_ge i x.length with hlt | hge
    · have hlive := h.live i (by rwa [hnil]) hlt
      rwa [hnil] at hlive
    cases hx : d.executableCommentAt x i with
    | false => rfl
    | true =>
      have hbyte := (executableCommentAt_bytes hx).2.1
      rw [List.getElem?_eq_none hge] at hbyte
      cases hbyte

end Append

/-! ## Keywords, blanks and punctuation -/

/-- A byte at which no lexeme opens. -/
def isCalm (c : UInt8) : Bool :=
  !(isQuote c || c == dash || c == ByteText.hash || c == slash || c == dollar)

section Pieces

variable {d : Dialect} {x rest : Bytes}

theorem noiseEnd_calm {b : Bytes} {stop i : Nat} {c : UInt8} (hc : b[i]? = some c)
    (h : isCalm c = true) : noiseEnd d b stop i = none := by
  simp only [isCalm, Bool.not_eq_true', Bool.or_eq_false_iff, beq_eq_false_iff_ne] at h
  obtain ⟨⟨⟨⟨hquote, hdash⟩, hhash⟩, hslash⟩, hdollar⟩ := h
  simp [noiseEnd, hc, hquote, hdash, hhash, hslash, hdollar, Dialect.dashCommentAt]

theorem ne_slash_of_calm {c : UInt8} (h : isCalm c = true) : c ≠ slash := by
  rintro rfl
  exact absurd h (by decide)

theorem passes_calm (h : ∀ c ∈ x, isCalm c = true) (rest : Bytes) : Passes d x x rest := by
  have hbyte : ∀ i, (hi : i < x.length) → ∃ c, (x ++ rest)[i]? = some c ∧ x[i] = c ∧ isCalm c = true :=
    fun i hi => ⟨x[i], by rw [List.getElem?_append_left hi, List.getElem?_eq_getElem hi], rfl,
      h _ (List.getElem_mem hi)⟩
  have hreach : ∀ i ≤ x.length, Reaches d (x ++ rest) (x ++ rest).length 0 i := by
    intro i
    induction i with
    | zero => exact fun _ => Relation.ReflTransGen.refl
    | succ i ih =>
      intro hi
      obtain ⟨c, hc, -, hcalm⟩ := hbyte i hi
      have hnext := Reaches.next (d := d) (b := x ++ rest) (lt_of_getElem?_eq_some hc)
      rw [lexNext, noiseEnd_calm hc hcalm] at hnext
      exact (ih (by omega)).trans hnext
  refine ⟨hreach _ (Nat.le_refl _), ?_, fun i _ hi => ?_⟩
  · have hstrip : ∀ k i, i + k = x.length → strip d (x ++ rest) i (x ++ rest).length =
        x.drop i ++ strip d (x ++ rest) x.length (x ++ rest).length := by
      intro k
      induction k with
      | zero =>
        intro i hi
        rw [Nat.add_zero] at hi
        rw [hi, List.drop_length, List.nil_append]
      | succ k ih =>
        intro i hi
        have hlt : i < x.length := by omega
        obtain ⟨c, hc, hget, hcalm⟩ := hbyte i hlt
        rw [strip_live (lt_of_getElem?_eq_some hc) (Nat.le_refl _) hc
          (exec_of_ne_slash hc (ne_slash_of_calm hcalm)) (noiseEnd_calm hc hcalm), ih (i + 1) (by omega),
          List.drop_eq_getElem_cons hlt, hget, List.cons_append]
    rw [Sql.stripNoise_eq, hstrip x.length 0 (by omega), List.drop_zero]
  · obtain ⟨c, hc, -, hcalm⟩ := hbyte i hi
    exact exec_of_ne_slash hc (ne_slash_of_calm hcalm)

/-- A calm byte is passed behind anything. -/
theorem Passes.calm_next {c : Bytes} {e : UInt8} (h : Passes d x c (e :: rest)) (he : isCalm e = true) :
    Passes d (x ++ [e]) (c ++ [e]) rest := by
  have hshape : x ++ [e] ++ rest = x ++ e :: rest := by simp
  have hbyte : (x ++ e :: rest)[x.length]? = some e := by
    rw [List.getElem?_append_right (Nat.le_refl _), Nat.sub_self]
    rfl
  have hlt := lt_of_getElem?_eq_some hbyte
  have hexec : d.executableCommentAt (x ++ e :: rest) x.length = false :=
    exec_of_ne_slash hbyte (ne_slash_of_calm he)
  have hnext : Reaches d (x ++ e :: rest) (x ++ e :: rest).length x.length (x.length + 1) := by
    have hnext := Reaches.next (d := d) (b := x ++ e :: rest) hlt
    rwa [lexNext, noiseEnd_calm hbyte he] at hnext
  have hlen : (x ++ [e]).length = x.length + 1 := by simp
  refine ⟨?_, ?_, fun i hi hi' => ?_⟩
  · rw [hshape, hlen]
    exact h.reaches.trans hnext
  · rw [hshape, hlen, h.copy, strip_live hlt (Nat.le_refl _) hbyte hexec (noiseEnd_calm hbyte he),
      List.append_assoc, List.singleton_append]
  · rw [hshape] at hi ⊢
    rw [hlen] at hi'
    rcases Nat.lt_or_eq_of_le (Nat.le_of_lt_succ hi') with hin | rfl
    · exact h.live i hi hin
    · exact hexec

theorem Passes.append_calm {c p : Bytes} (h : Passes d x c (p ++ rest)) (hp : ∀ e ∈ p, isCalm e = true) :
    Passes d (x ++ p) (c ++ p) rest := by
  induction p generalizing x c with
  | nil => rwa [List.append_nil, List.append_nil]
  | cons e p ih =>
    have hnext := ih (h.calm_next (hp e List.mem_cons_self)) fun e' he' => hp e' (List.mem_cons_of_mem e he')
    rwa [List.append_assoc, List.append_assoc] at hnext

/-! ## Quoted names and line comments -/

/-- A piece that is one lexeme. -/
theorem passes_lexeme (hne : x ≠ []) (hexec : d.executableCommentAt (x ++ rest) 0 = false)
    (hnoise : noiseEnd d (x ++ rest) (x ++ rest).length 0 = some x.length) :
    Passes d x (blankSpan (x ++ rest) 0 x.length) rest := by
  have hpos : 0 < (x ++ rest).length := by
    rw [List.length_append]
    have := List.length_pos_iff.mpr hne
    omega
  have hnext : Reaches d (x ++ rest) (x ++ rest).length 0 x.length := by
    have hnext := Reaches.next (d := d) (b := x ++ rest) hpos
    rwa [lexNext, hnoise, Option.getD_some] at hnext
  refine ⟨hnext, ?_, fun i hi hlt => ?_⟩
  · rw [Sql.stripNoise_eq, strip_noise hpos (Nat.le_refl _) hexec hnoise]
  · rcases Relation.ReflTransGen.cases_head hi with rfl | ⟨k, ⟨hk, rfl⟩, hrest⟩
    · exact hexec
    · rw [lexNext, hnoise, Option.getD_some] at hrest
      have hbounds := Reaches.bounds (Nat.le_refl _) hrest (by rw [List.length_append]; omega)
      omega

/-- A name between quotes, each of its own written twice. -/
def quotedBy (q : UInt8) (name : Bytes) : Bytes := q :: (doubled q name ++ [q])

/-- No backslash of the name takes a quote with it: where a dialect escapes with backslashes, the
name is read back as it was written. -/
def escapesSafely (q : UInt8) : Bytes → Bool
  | [] => true
  | c :: rest =>
    if c == backslash then
      match rest with
      | [] => false
      | e :: rest' => e != q && escapesSafely q rest'
    else escapesSafely q rest

theorem escapesSafely_plain {q c : UInt8} {name : Bytes} (h : ¬(c == backslash) = true) :
    escapesSafely q (c :: name) = escapesSafely q name := by
  rw [escapesSafely.eq_def]
  exact if_neg h

theorem quotedLen_close {q : UInt8} {escapes : Bool} (hrest : rest.head? ≠ some q) :
    quotedLen q escapes (q :: rest) = 1 := by
  cases rest with
  | nil => simp [quotedLen]
  | cons c rest =>
    have hne : (c == q) = false := beq_false_of_ne fun h => hrest (by rw [h]; rfl)
    simp [quotedLen, hne]

theorem quotedLen_doubled {q : UInt8} {escapes : Bool} {name : Bytes} (hq : q ≠ backslash)
    (hescapes : escapes = true → escapesSafely q name = true) (hrest : rest.head? ≠ some q) :
    quotedLen q escapes (doubled q name ++ q :: rest) = (doubled q name).length + 1 := by
  induction hlen : name.length using Nat.strong_induction_on generalizing name with
  | _ n ih =>
    cases name with
    | nil => exact quotedLen_close hrest
    | cons c name =>
      by_cases hc : (c == q) = true
      · obtain rfl : c = q := beq_iff_eq.mp hc
        have hback : ¬(c == backslash) = true := fun h => hq (beq_iff_eq.mp h)
        have hescapes' : escapes = true → escapesSafely c name = true := fun h => by
          have hsafe := hescapes h
          rwa [escapesSafely_plain hback] at hsafe
        have ih := ih name.length (by rw [← hlen]; exact Nat.lt_succ_self _) hescapes' rfl
        simp only [doubled, beq_self_eq_true, if_true, List.cons_append, quotedLen, List.length_cons, ih]
        omega
      · by_cases hback : (c == backslash && escapes) = true
        · obtain ⟨hbyte, hesc⟩ := Bool.and_eq_true_iff.mp hback
          have hsafe := hescapes hesc
          rw [escapesSafely.eq_def] at hsafe
          dsimp only at hsafe
          rw [if_pos hbyte] at hsafe
          cases name with
          | nil => exact Bool.noConfusion hsafe
          | cons e name =>
            -- the byte behind the backslash is no quote, so it stands there once
            obtain ⟨hne, hsafe⟩ := Bool.and_eq_true_iff.mp hsafe
            have hne : ¬(e == q) = true := fun h => bne_iff_ne.mp hne (beq_iff_eq.mp h)
            have hlt : name.length < n := by
              rw [← hlen]
              exact Nat.lt_succ_of_lt (Nat.lt_succ_self _)
            have ih := ih name.length hlt (fun _ => hsafe) rfl
            rw [doubled, if_neg hc, doubled, if_neg hne, List.cons_append, List.cons_append, quotedLen,
              if_neg hc, if_pos hback, ih, List.length_cons, List.length_cons]
            omega
        · have hescapes' : escapes = true → escapesSafely q name = true := fun h => by
            have hplain : ¬(c == backslash) = true := fun hb => hback (by rw [hb, h]; rfl)
            have hsafe := hescapes h
            rwa [escapesSafely_plain hplain] at hsafe
          have ih := ih name.length (by rw [← hlen]; exact Nat.lt_succ_self _) hescapes' rfl
          rw [doubled, if_neg hc, List.cons_append, quotedLen_plain hc hback, ih, List.length_cons]
          omega

/-- A name of which the dialect reads what is written between the quotes. -/
def Quotable (d : Dialect) (q : UInt8) (name : Bytes) : Prop :=
  q = doubleQuote → d.backslashInStrings = true → escapesSafely q name = true

instance (d : Dialect) (q : UInt8) (name : Bytes) : Decidable (Quotable d q name) :=
  inferInstanceAs (Decidable (_ → _ → _))

theorem blankSpan_append (x rest : Bytes) :
    blankSpan (x ++ rest) 0 x.length = blankSpan x 0 x.length := by
  unfold blankSpan slice
  rw [List.take_left, List.take_length]

/-- **A quoted name**, where a backslash in it takes no quote with it. -/
theorem passes_quoted {q : UInt8} (hq : q = doubleQuote ∨ q = backtick) {name : Bytes}
    (hname : Quotable d q name) (hrest : rest.head? ≠ some q) :
    Passes d (quotedBy q name) (blankSpan (quotedBy q name) 0 (quotedBy q name).length) rest := by
  have hquote : isQuote q = true := by rcases hq with rfl | rfl <;> decide
  have hslash : q ≠ slash := by rcases hq with rfl | rfl <;> decide
  have hback : q ≠ backslash := by rcases hq with rfl | rfl <;> decide
  have hhead : (quotedBy q name ++ rest)[0]? = some q := rfl
  have hesc : quoteEscapes (quotedBy q name ++ rest) 0 q d = true → escapesSafely q name = true := by
    intro h
    rcases hq with rfl | rfl
    · cases hd : d.backslashInStrings with
      | true => exact hname rfl hd
      | false => simp [quoteEscapes, hd, doubleQuote, backtick, singleQuote] at h
    · simp [quoteEscapes] at h
  have hlen : skipQuoted (quotedBy q name ++ rest) 0 q (quoteEscapes (quotedBy q name ++ rest) 0 q d) =
      (quotedBy q name).length := by
    have hdrop : (quotedBy q name ++ rest).drop (0 + 1) = doubled q name ++ q :: rest := by
      show doubled q name ++ [q] ++ rest = _
      rw [List.append_assoc]
      rfl
    rw [skipQuoted, hdrop, quotedLen_doubled hback hesc hrest, quotedBy, List.length_cons,
      List.length_append, List.length_singleton]
    omega
  rw [← blankSpan_append _ rest]
  refine passes_lexeme (List.cons_ne_nil _ _) (exec_of_ne_slash hhead hslash) ?_
  unfold noiseEnd
  rw [hhead]
  dsimp only
  rw [if_pos hquote, hlen, List.length_append, Nat.min_eq_left (by omega)]

theorem noiseEnd_remark {t : Bytes} (ht : newline ∉ t) (rest : Bytes) :
    noiseEnd d (dash :: dash :: space :: t ++ newline :: rest)
      (dash :: dash :: space :: t ++ newline :: rest).length 0 = some (t.length + 3) := by
  have hdash : d.dashCommentAt (dash :: dash :: space :: t ++ newline :: rest) 0 = true := by
    cases d <;> rfl
  have hline : lineCommentEnd (dash :: dash :: space :: t ++ newline :: rest) 2 = t.length + 3 := by
    have hrun : (space :: t ++ newline :: rest).takeWhile (· != newline) = space :: t := by
      refine takeWhile_run (fun a ha => ?_) fun a ha => ?_
      · rcases List.mem_cons.mp ha with rfl | ha
        · decide
        · exact bne_iff_ne.mpr fun h => ht (h ▸ ha)
      · rw [← Option.some.inj ha]
        decide
    show min 2 _ + ((space :: t ++ newline :: rest).takeWhile (· != newline)).length = _
    rw [hrun, List.length_cons, Nat.min_eq_left (by simp)]
    omega
  unfold noiseEnd
  rw [List.cons_append, List.getElem?_cons_zero]
  dsimp only
  rw [← List.cons_append, if_neg (by decide), if_pos hdash, hline]
  simp

/-- **A line comment**, up to the line feed behind it. -/
theorem passes_remark {t : Bytes} (ht : newline ∉ t) (rest : Bytes) :
    Passes d (dash :: dash :: space :: t)
      (blankSpan (dash :: dash :: space :: t ++ newline :: rest) 0 (t.length + 3)) (newline :: rest) :=
  passes_lexeme (List.cons_ne_nil _ _) (exec_of_ne_slash rfl (by decide)) (noiseEnd_remark ht rest)

/-! ## Settled texts -/

/-- The scan of a settled text alone stands where the scan in front of a follower does. -/
theorem Settled.reaches_of_append {s : UInt8} (h : Settled d x) (hs : s ∈ followers) {i : Nat}
    (hi : Reaches d (x ++ s :: rest) (x ++ s :: rest).length 0 i) (hle : i ≤ x.length) :
    Reaches d x x.length 0 i := by
  have hbreaks : Breaks (s :: rest) := by
    intro c hc
    rw [← Option.some.inj hc]
    exact follower_breaks hs
  induction hi with
  | refl => exact Relation.ReflTransGen.refl
  | @tail j k hj hr ih =>
    obtain ⟨hlt, rfl⟩ := hr
    have hlt : j < (x ++ s :: rest).length := of_decide_eq_true hlt
    have hbounds := lexNext_bounds (d := d) (Nat.le_refl _) hlt
    have hjx : j < x.length := by omega
    have hnext : lexNext d x x.length j = lexNext d (x ++ s :: rest) (x ++ s :: rest).length j := by
      rw [lexNext, lexNext, ← noiseEnd_take hbreaks hjx (Nat.le_refl _) (h.no_cut j),
        noiseEnd_stop hjx (by rw [List.length_append]; omega) hle]
    rw [← hnext]
    exact (ih (by omega)).trans (Reaches.next hjx)

/-- What may stand behind a settled text: nothing, a blank or a `;`. -/
def Follows (rest : Bytes) : Prop := ∀ c ∈ rest.head?, c ∈ followers

/-- **A settled text** without an executable comment. -/
theorem passes_settled (h : Settled d x) (hexec : NoExecutableComment d x) (hrest : Follows rest) :
    Passes d x (stripNoise x d) rest := by
  cases rest with
  | nil =>
    have hspace : space ∈ followers := by decide
    have hreach := h.reaches_of_append hspace (h.reaches_append hspace []) (Nat.le_refl _)
    refine ⟨?_, ?_, fun i hi hlt => ?_⟩
    · rwa [List.append_nil]
    · rw [List.append_nil, strip_done (Nat.le_refl _), List.append_nil]
    · rw [List.append_nil] at hi ⊢
      exact hexec i hi
  | cons s rest =>
    have hs : s ∈ followers := hrest s rfl
    refine ⟨h.reaches_append hs rest, h.stripNoise_cut hs rest, fun i hi hlt => ?_⟩
    have hbreaks : Breaks (s :: rest) := by
      intro c hc
      rw [← Option.some.inj hc]
      exact follower_breaks hs
    rw [executableCommentAt_take hbreaks hlt]
    exact hexec i (h.reaches_of_append hs hi (by omega))

end Pieces

end RedDb.Sql
