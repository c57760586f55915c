import RedDb.Grid.KeySpec
import RedDb.Sql.Passages

/-!
# RedDb — queries wrapped in a filter and an order

`wrap_where` and `wrap_sorted` put a query between the parentheses of a sub-select, cut of the
blanks and terminators at its end. What the query leaves open takes the closing parenthesis and all
that stands behind it along: a line comment on its last line does, for no line feed is put behind it.
And a terminator in front of a comment is not at the end, so it stays.

* `lexNext_cut` — a lexeme that ends in front of a parenthesis, whatever stands behind that;
* `shut_iff` — the scan of a text that leaves nothing open;
* `wrapped_live_iff` — when the wrappers stay live.
-/

namespace RedDb.Service

open ByteText RedDb.Sql
open RedDb.Grid (SortDirection)

/-! ## The wrappers -/

/-- What both wrappers cut off a query. -/
def unterminated (base : Bytes) : Bytes := trimEnd (trimEndMatches semicolon (trimEnd base))

def subSelect : Bytes := ascii "SELECT * FROM ("

def sortTail (position : Nat) (direction : SortDirection) : Bytes :=
  ascii ") AS _red_sort ORDER BY " ++ decimal position ++ [space] ++ ascii direction.sql

def wrapSorted (base : Bytes) (position : Nat) (direction : SortDirection) : Bytes :=
  subSelect ++ unterminated base ++ sortTail position direction

def filterTail : Bytes := ascii ") AS _red_filter WHERE ("

def wrapWhere (base pred : Bytes) : Bytes :=
  subSelect ++ unterminated base ++ filterTail ++ pred ++ [closeParen]

/-! ## Live wrappers -/

/-- The place stands outside every comment and literal of the text. -/
abbrev Outside (d : Dialect) (t : Bytes) (i : Nat) : Prop := Reaches d t t.length 0 i

/-- No terminator stands outside. -/
def Unbroken (d : Dialect) (t : Bytes) : Prop := ∀ i, Outside d t i → t[i]? ≠ some semicolon

/-- The sub-select is closed and ordered outside every comment and literal, and one statement. -/
def SortLive (d : Dialect) (base : Bytes) (position : Nat) (direction : SortDirection) : Prop :=
  let t := wrapSorted base position direction
  (∀ i, (subSelect ++ unterminated base).length ≤ i → i ≤ t.length → Outside d t i) ∧ Unbroken d t

/-- The sub-select is closed and filtered outside every comment and literal, the parentheses around
the predicate are too, and it is one statement. -/
def FilterLive (d : Dialect) (base pred : Bytes) : Prop :=
  let t := wrapWhere base pred
  let k := (subSelect ++ unterminated base).length
  (∀ i, k ≤ i → i ≤ k + filterTail.length → Outside d t i) ∧
    Outside d t (k + filterTail.length + pred.length) ∧ Unbroken d t

/-- With a parenthesis behind it, every comment, literal and quoted name that begins in the text ends
in it, and no terminator stands outside of them. -/
def Shut (d : Dialect) (x : Bytes) : Prop :=
  ∀ i < x.length, Outside d (x ++ [closeParen]) i →
    lexNext d (x ++ [closeParen]) (x.length + 1) i ≤ x.length ∧ x[i]? ≠ some semicolon

section Scan

variable {d : Dialect} {x rest : Bytes}

/-- Cut behind the parenthesis, the text has the lexemes of the whole. -/
theorem lexNext_cut (hrest : Breaks rest) {i : Nat} (hi : i < x.length) :
    lexNext d (x ++ [closeParen]) (x.length + 1) i =
      min (lexNext d (x ++ closeParen :: rest) (x ++ closeParen :: rest).length i) (x.length + 1) := by
  have hshape : x ++ closeParen :: rest = x ++ [closeParen] ++ rest := by simp
  have hlen : (x ++ [closeParen]).length = x.length + 1 := by simp
  have hcut : ¬ CutDashes d (x ++ [closeParen]) rest i := by
    rintro ⟨-, hi', -, hlast, -⟩
    have hplace : i + 1 = x.length := by omega
    rw [hplace, List.getElem?_append_right (Nat.le_refl _), Nat.sub_self] at hlast
    exact absurd hlast (by decide)
  have htake := @noiseEnd_take (x ++ [closeParen]) rest hrest d i (x.length + 1) (by omega) (by omega) hcut
  have hclip := @noiseEnd_clip d (x ++ [closeParen] ++ rest) (x.length + 1) i
    (by rw [List.length_append, hlen]; omega) (fun _ => by omega)
  rw [hshape, lexNext, ← htake, hclip, lexNext]
  cases noiseEnd d (x ++ [closeParen] ++ rest) (x ++ [closeParen] ++ rest).length i with
  | none =>
    show i + 1 = min (i + 1) _
    omega
  | some e => rfl

/-- In front of the parenthesis the two scans stand at the same places. -/
theorem outside_cut (hrest : Breaks rest) {i : Nat} (hi : i ≤ x.length) :
    Outside d (x ++ [closeParen]) i ↔ Outside d (x ++ closeParen :: rest) i := by
  have hlen : (x ++ [closeParen]).length = x.length + 1 := by simp
  have hlong : x.length + 1 ≤ (x ++ closeParen :: rest).length := by simp
  unfold Outside
  rw [hlen]
  constructor
  · intro h
    induction h with
    | refl => exact Relation.ReflTransGen.refl
    | @tail j k hj hstep ih =>
      obtain ⟨hlt, rfl⟩ := hstep
      have hlt : j < x.length + 1 := of_decide_eq_true hlt
      have hbounds := lexNext_bounds (d := d) (Nat.le_of_eq hlen.symm) hlt
      have hnext := @lexNext_cut d x rest hrest j (by omega)
      refine (ih (by omega)).tail ⟨decide_eq_true (by omega), ?_⟩
      omega
  · intro h
    induction h with
    | refl => exact Relation.ReflTransGen.refl
    | @tail j k hj hstep ih =>
      obtain ⟨hlt, rfl⟩ := hstep
      have hlt : j < (x ++ closeParen :: rest).length := of_decide_eq_true hlt
      have hbounds := lexNext_bounds (d := d) (Nat.le_refl _) hlt
      have hnext := @lexNext_cut d x rest hrest j (by omega)
      refine (ih (by omega)).tail ⟨decide_eq_true (by omega), ?_⟩
      omega

/-- **A text is shut exactly when the scan gets behind it**, over no terminator. -/
theorem shut_iff (hrest : Breaks rest) : (Outside d (x ++ closeParen :: rest) x.length ∧
      ∀ i < x.length, Outside d (x ++ closeParen :: rest) i → x[i]? ≠ some semicolon) ↔ Shut d x := by
  have hlong : x.length + 1 ≤ (x ++ closeParen :: rest).length := by simp
  constructor
  · rintro ⟨hend, hclear⟩ i hi hcut
    have hvisit := (outside_cut hrest (Nat.le_of_lt hi)).mp hcut
    refine ⟨?_, hclear i hi hvisit⟩
    -- the scan that gets to the end goes on from here, and past no end
    rcases WhileLoop.Visits.total hvisit hend with hon | hback
    · rcases Relation.ReflTransGen.cases_head hon with heq | ⟨k, ⟨-, rfl⟩, hrest'⟩
      · omega
      have hbounds := Reaches.bounds (Nat.le_refl _) hrest'
        (lexNext_bounds (d := d) (Nat.le_refl _) (by omega)).2
      rw [lexNext_cut hrest hi]
      omega
    · have hbounds := Reaches.bounds (Nat.le_refl _) hback (by omega)
      omega
  · intro hshut
    refine ⟨?_, fun i hi hvisit => (hshut i hi ((outside_cut hrest (Nat.le_of_lt hi)).mpr hvisit)).2⟩
    rw [← outside_cut hrest (Nat.le_refl _)]
    -- the scan of a shut text, round by round
    have hgo : ∀ n i, x.length - i ≤ n → i ≤ x.length → Outside d (x ++ [closeParen]) i →
        Outside d (x ++ [closeParen]) x.length := by
      intro n
      induction n with
      | zero =>
        intro i hn hi h
        obtain rfl : i = x.length := by omega
        exact h
      | succ n ih =>
        intro i hn hi h
        rcases Nat.lt_or_eq_of_le hi with hlt | rfl
        · have hlen : (x ++ [closeParen]).length = x.length + 1 := by simp
          have hnext := (hshut i hlt h).1
          have hstep := Reaches.next (d := d) (b := x ++ [closeParen])
            (show i < (x ++ [closeParen]).length by omega)
          rw [hlen] at hstep
          have hbounds := lexNext_bounds (d := d) (Nat.le_of_eq hlen.symm) (show i < x.length + 1 by omega)
          refine ih _ (by omega) hnext ?_
          unfold Outside at h ⊢
          rw [hlen] at h ⊢
          exact h.trans hstep
        · exact h
    exact hgo x.length 0 (by omega) (Nat.zero_le _) Relation.ReflTransGen.refl

/-! ## Pieces in a row -/

variable {p y : Bytes}

/-- Behind a place that the scan stands on, it stands where the scan of the rest does. -/
theorem outside_behind (hopens : Opens p) (h : Outside d (p ++ y) p.length) (j : Nat) :
    Outside d (p ++ y) (p.length + j) ↔ Outside d y j := by
  constructor
  · intro hj
    rcases WhileLoop.Visits.total h hj with hon | hback
    · obtain ⟨k, hk, hvisit⟩ := reaches_of_shift hopens hon
      obtain rfl : j = k := by omega
      exact hvisit
    have hle : p.length + j ≤ p.length := by
      rcases Nat.lt_or_ge (p ++ y).length (p.length + j) with hout | hin
      · have hbounds := Reaches.bounds (Nat.le_refl _) hj (Nat.zero_le _)
        omega
      · exact (Reaches.bounds (Nat.le_refl _) hback hin).1
    obtain rfl : j = 0 := by omega
    exact Relation.ReflTransGen.refl
  · intro hj
    exact h.trans (reaches_shift hopens hj)

theorem unbroken_behind (hopens : Opens p) (h : Outside d (p ++ y) p.length) : Unbroken d (p ++ y) ↔
      (∀ i < p.length, Outside d (p ++ y) i → p[i]? ≠ some semicolon) ∧ Unbroken d y := by
  constructor
  · intro hclear
    refine ⟨fun i hi hvisit => ?_, fun j hvisit => ?_⟩
    · have hbyte := hclear i hvisit
      rwa [List.getElem?_append_left hi] at hbyte
    · have hbyte := hclear _ ((outside_behind hopens h j).mpr hvisit)
      rwa [getElem?_shift] at hbyte
  · rintro ⟨hfront, hback⟩ i hvisit
    rcases Nat.lt_or_ge i p.length with hi | hi
    · rw [List.getElem?_append_left hi]
      exact hfront i hi hvisit
    · obtain ⟨j, rfl⟩ := Nat.exists_eq_add_of_le hi
      rw [getElem?_shift]
      exact hback j ((outside_behind hopens h j).mp hvisit)

/-- Bytes at which nothing opens, and no terminator. -/
def Dull (p : Bytes) : Prop := ∀ c ∈ p, isCalm c = true ∧ c ≠ semicolon

instance (p : Bytes) : Decidable (Dull p) := inferInstanceAs (Decidable (∀ c ∈ p, _ ∧ _))

theorem Dull.outside (h : Dull p) (y : Bytes) {i : Nat} (hi : i ≤ p.length) : Outside d (p ++ y) i := by
  have hcut : p ++ y = p.take i ++ (p.drop i ++ y) := by rw [← List.append_assoc, List.take_append_drop]
  have hcalm : ∀ c ∈ p.take i, isCalm c = true := fun c hc => (h c (List.mem_of_mem_take hc)).1
  have hreach := (passes_calm (d := d) hcalm (p.drop i ++ y)).reaches
  rwa [← hcut, List.length_take, Nat.min_eq_left hi] at hreach

theorem Dull.no_terminator (h : Dull p) (i : Nat) : p[i]? ≠ some semicolon :=
  fun hi => (h semicolon (List.mem_of_getElem? hi)).2 rfl

theorem Dull.unbroken (h : Dull p) : Unbroken d p := fun i _ => h.no_terminator i

/-- **A text between a dull opening and a parenthesis.** -/
theorem framed (hdull : Dull p) (hopens : Opens p) (hrest : Breaks rest) :
    Outside d (p ++ (x ++ closeParen :: rest)) (p ++ x).length ∧
        Unbroken d (p ++ (x ++ closeParen :: rest)) ↔ Shut d x ∧ Unbroken d rest := by
  have hfront := hdull.outside (d := d) (x ++ closeParen :: rest) (Nat.le_refl _)
  have hshape : x ++ closeParen :: rest = x ++ [closeParen] ++ rest := by simp
  have hclosed : Opens (x ++ [closeParen]) := by
    intro c hc
    rw [List.getLast?_concat] at hc
    rw [← Option.some.inj hc]
    decide
  rw [List.length_append, outside_behind hopens hfront, unbroken_behind hopens hfront, ← @shut_iff d x rest hrest]
  have hparen : (x ++ closeParen :: rest)[x.length]? = some closeParen := by
    rw [List.getElem?_append_right (Nat.le_refl _), Nat.sub_self]
    rfl
  have hbehind : Outside d (x ++ closeParen :: rest) x.length →
      Outside d (x ++ [closeParen] ++ rest) (x ++ [closeParen]).length := by
    intro hend
    have hnext := Reaches.next (d := d) (b := x ++ closeParen :: rest) (lt_of_getElem?_eq_some hparen)
    rw [lexNext, noiseEnd_calm hparen (by decide)] at hnext
    rw [← hshape, List.length_append]
    exact hend.trans hnext
  constructor
  · rintro ⟨hend, -, hclear⟩
    refine ⟨⟨hend, fun i hi hvisit => ?_⟩, ?_⟩
    · have hbyte := hclear i hvisit
      rwa [List.getElem?_append_left hi] at hbyte
    · rw [hshape] at hclear
      exact ((unbroken_behind hclosed (hbehind hend)).mp hclear).2
  · rintro ⟨⟨hend, hclear⟩, htail⟩
    refine ⟨hend, fun i _ _ => hdull.no_terminator i, ?_⟩
    rw [hshape, unbroken_behind hclosed (hbehind hend)]
    refine ⟨fun i hi hvisit => ?_, htail⟩
    rw [← hshape] at hvisit
    rw [List.length_append, List.length_singleton] at hi
    rcases Nat.lt_or_eq_of_le (Nat.le_of_lt_succ hi) with hin | rfl
    · rw [List.getElem?_append_left hin]
      exact hclear i hin hvisit
    · rw [List.getElem?_append_right (Nat.le_refl _), Nat.sub_self]
      decide

/-- Dull bytes are passed one by one. -/
theorem outside_run {b : Bytes} (hdull : Dull x) (h : Outside d (p ++ (x ++ b)) p.length) {i : Nat}
    (hi : p.length ≤ i) (hi' : i ≤ p.length + x.length) : Outside d (p ++ (x ++ b)) i := by
  obtain ⟨j, rfl⟩ := Nat.exists_eq_add_of_le hi
  induction j with
  | zero => exact h
  | succ j ih =>
    have hj : j < x.length := by omega
    have hbyte : (p ++ (x ++ b))[p.length + j]? = some x[j] := by
      rw [getElem?_shift, List.getElem?_append_left hj, List.getElem?_eq_getElem hj]
    have hcalm := (hdull _ (List.getElem_mem hj)).1
    have hnext := Reaches.next (d := d) (b := p ++ (x ++ b)) (lt_of_getElem?_eq_some hbyte)
    rw [lexNext, noiseEnd_calm hbyte hcalm] at hnext
    exact (ih (by omega) (by omega)).trans hnext

end Scan

/-! ## The two wrappers -/

theorem dull_decimal (n : Nat) : Dull (decimal n) := by
  intro c hc
  have hdigit := decimal_digits hc
  have hplain : isPlain c = true := by simp [isPlain, isWordByte, isAsciiAlphanumeric, hdigit]
  obtain ⟨hquote, hdash, hhash, hslash, hdollar, hsemicolon, -⟩ := isPlain_spec hplain
  exact ⟨by simp [isCalm, hquote, hdash, hhash, hslash, hdollar], hsemicolon⟩

theorem Dull.append {p q : Bytes} (hp : Dull p) (hq : Dull q) : Dull (p ++ q) := by
  intro c hc
  rcases List.mem_append.mp hc with hc | hc
  · exact hp c hc
  · exact hq c hc

theorem dull_sortTail (position : Nat) (direction : SortDirection) : Dull (sortTail position direction) := by
  have hdirection : Dull (ascii direction.sql) := by cases direction <;> decide
  have hwords : Dull (ascii ") AS _red_sort ORDER BY ") := by decide
  have hspace : Dull [space] := by decide
  exact ((hwords.append (dull_decimal position)).append hspace).append hdirection

theorem dull_subSelect : Dull subSelect := by decide

theorem dull_filterTail : Dull filterTail := by decide

theorem opens_subSelect : Opens subSelect := by
  intro c hc
  rw [← Option.some.inj hc]
  decide

theorem breaks_space (rest : Bytes) : Breaks (space :: rest) := by
  intro c hc
  rw [← Option.some.inj hc]
  decide

theorem sort_live_iff (d : Dialect) (base : Bytes) (position : Nat) (direction : SortDirection) :
    SortLive d base position direction ↔ Shut d (unterminated base) := by
  obtain ⟨rest, hrest⟩ : ∃ rest, sortTail position direction = closeParen :: space :: rest := ⟨_, rfl⟩
  have hdull := dull_sortTail position direction
  have hbehind : Dull (space :: rest) := fun c hc => hdull c (by rw [hrest]; exact List.mem_cons_of_mem _ hc)
  have hframe := @framed d (unterminated base) (space :: rest) subSelect dull_subSelect opens_subSelect
    (breaks_space rest)
  have hshape : wrapSorted base position direction =
      subSelect ++ (unterminated base ++ closeParen :: space :: rest) := by
    rw [wrapSorted, hrest, List.append_assoc]
  unfold SortLive
  dsimp only
  rw [hshape]
  constructor
  · rintro ⟨hrun, hclear⟩
    exact (hframe.mp ⟨hrun _ (Nat.le_refl _) (by simp), hclear⟩).1
  · intro hshut
    obtain ⟨hend, hclear⟩ := hframe.mpr ⟨hshut, hbehind.unbroken⟩
    refine ⟨fun i hi hi' => ?_, hclear⟩
    have hwhole : subSelect ++ (unterminated base ++ closeParen :: space :: rest) =
        subSelect ++ unterminated base ++ (sortTail position direction ++ []) := by
      rw [hrest, List.append_nil, List.append_assoc]
    rw [hwhole] at hend hi' ⊢
    exact outside_run hdull hend hi (by simp only [List.length_append, List.length_nil] at hi' ⊢; omega)

theorem filter_live_iff (d : Dialect) (base pred : Bytes) :
    FilterLive d base pred ↔ Shut d (unterminated base) ∧ Shut d pred := by
  obtain ⟨mid, hmid⟩ : ∃ mid, filterTail = closeParen :: space :: mid := ⟨_, rfl⟩
  have hdull : Dull (space :: mid) := fun c hc =>
    dull_filterTail c (by rw [hmid]; exact List.mem_cons_of_mem _ hc)
  have hopens : Opens (space :: mid) := by
    have hlast : (closeParen :: space :: mid).getLast? = some openParen := by rw [← hmid]; rfl
    intro c hc
    rw [List.getLast?_cons_cons] at hlast
    rw [hlast] at hc
    rw [← Option.some.inj hc]
    decide
  -- the text from the blank behind the sub-select's parenthesis on
  obtain ⟨rest, hrest⟩ : ∃ rest, rest = space :: mid ++ (pred ++ [closeParen]) := ⟨_, rfl⟩
  have hbreaks : Breaks rest := hrest ▸ breaks_space _
  have houter := @framed d (unterminated base) rest subSelect dull_subSelect opens_subSelect hbreaks
  have hinner := @framed d pred [] (space :: mid) hdull hopens (fun c hc => by cases hc)
  rw [← hrest] at hinner
  have hshape : wrapWhere base pred = subSelect ++ (unterminated base ++ closeParen :: rest) := by
    rw [wrapWhere, hrest, hmid]
    simp only [List.append_assoc, List.cons_append]
  have hnone : Unbroken d [] := fun i _ => by simp
  have hclosed : Opens (subSelect ++ unterminated base ++ [closeParen]) := by
    intro c hc
    rw [List.getLast?_concat] at hc
    rw [← Option.some.inj hc]
    decide
  have hwhole : subSelect ++ (unterminated base ++ closeParen :: rest) =
      subSelect ++ unterminated base ++ (filterTail ++ (pred ++ [closeParen])) := by
    rw [hrest, hmid]
    simp only [List.append_assoc, List.cons_append]
  have hsplit : subSelect ++ (unterminated base ++ closeParen :: rest) =
      subSelect ++ unterminated base ++ [closeParen] ++ rest := by
    simp only [List.append_assoc, List.cons_append, List.nil_append]
  have hplace : (subSelect ++ unterminated base).length + filterTail.length + pred.length =
      (subSelect ++ unterminated base ++ [closeParen]).length + (space :: mid ++ pred).length := by
    rw [hmid]
    simp only [List.length_append, List.length_cons, List.length_nil]
    omega
  -- behind the sub-select the scan is that of the rest
  have hpred : Outside d (subSelect ++ (unterminated base ++ closeParen :: rest))
      (subSelect ++ unterminated base).length →
      (Outside d (subSelect ++ (unterminated base ++ closeParen :: rest))
        ((subSelect ++ unterminated base).length + filterTail.length + pred.length) ↔
          Outside d rest (space :: mid ++ pred).length) := by
    intro hend
    rw [hwhole] at hend
    have hone := outside_run dull_filterTail hend (Nat.le_succ _)
      (by rw [hmid]; simp only [List.length_cons]; omega)
    rw [← hwhole, hsplit] at hone
    rw [hsplit, hplace, outside_behind hclosed (by rw [List.length_append]; exact hone)]
  unfold FilterLive
  dsimp only
  rw [hshape]
  constructor
  · rintro ⟨hrun, hpredEnd, hclear⟩
    have hend := hrun _ (Nat.le_refl _) (Nat.le_add_right _ _)
    obtain ⟨hshut, htail⟩ := houter.mp ⟨hend, hclear⟩
    exact ⟨hshut, (hinner.mp ⟨(hpred hend).mp hpredEnd, htail⟩).1⟩
  · rintro ⟨hshut, hshutPred⟩
    obtain ⟨hpredEnd, htail⟩ := hinner.mpr ⟨hshutPred, hnone⟩
    obtain ⟨hend, hclear⟩ := houter.mpr ⟨hshut, htail⟩
    refine ⟨fun i hi hi' => ?_, (hpred hend).mpr hpredEnd, hclear⟩
    rw [hwhole] at hend ⊢
    exact outside_run dull_filterTail hend hi hi'

/-- **The wrappers stay live exactly when nothing is left open**, in the query without the blanks and
terminators at its end and in the predicate. -/
theorem wrapped_live_iff (d : Dialect) (base pred : Bytes) (position : Nat) (direction : SortDirection) :
    (SortLive d base position direction ↔ Shut d (unterminated base)) ∧
      (FilterLive d base pred ↔ Shut d (unterminated base) ∧ Shut d pred) :=
  ⟨sort_live_iff d base position direction, filter_live_iff d base pred⟩

/-- A comment behind a query takes the parenthesis along, and one behind a terminator keeps that. -/
theorem comment_swallows :
    ¬ SortLive .postgres (ascii "SELECT 1 -- one") 1 .asc ∧
      ¬ FilterLive .sqlite (ascii "SELECT 1; /* one */") (ascii "x = 1") := by
  constructor
  · rw [sort_live_iff]
    intro hshut
    have hbase : unterminated (ascii "SELECT 1 -- one") = ascii "SELECT 1 " ++ ascii "-- one" := by decide
    have hdull : Dull (ascii "SELECT 1 ") := by decide
    have hvisit : Outside .postgres (ascii "SELECT 1 " ++ (ascii "-- one" ++ [closeParen])) 9 :=
      hdull.outside _ (Nat.le_refl _)
    rw [hbase] at hshut
    rw [← List.append_assoc] at hvisit
    exact absurd (hshut 9 (by decide) hvisit).1 (by decide)
  · rw [filter_live_iff]
    rintro ⟨hshut, -⟩
    have hbase : unterminated (ascii "SELECT 1; /* one */") = ascii "SELECT 1" ++ ascii "; /* one */" := by
      decide
    have hdull : Dull (ascii "SELECT 1") := by decide
    have hvisit : Outside .sqlite (ascii "SELECT 1" ++ (ascii "; /* one */" ++ [closeParen])) 8 :=
      hdull.outside _ (Nat.le_refl _)
    rw [hbase] at hshut
    rw [← List.append_assoc] at hvisit
    exact (hshut 8 (by decide) hvisit).2 (by decide)

end RedDb.Service
