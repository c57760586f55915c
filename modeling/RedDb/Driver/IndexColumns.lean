import Mathlib
import RedDb.Lib.Delimited
import RedDb.Sql.Passages

/-!
# RedDb — the key columns of an index

The columns of a Postgres index are read out of its definition's text: what stands between the
first opening and the last closing parenthesis, cut at the commas.

* `parseIndexColumns_iff` — they are the key columns exactly where no other parenthesis is met,
  and every key column stands bare, with no comma in it.
-/

namespace RedDb.Driver

open ByteText RedDb.Sql

/-- The items between commas, trimmed. -/
def listed (b : Bytes) : List Bytes := ((b.splitOn 44).map trim).filter (· ≠ [])

def parseIndexColumns (definition : Bytes) : List Bytes :=
  match Delimited.splitOnce 40 definition with
  | none => []
  | some (_, behind) =>
    match Delimited.rsplitOnce 41 behind with
    | none => []
    | some (inside, _) => listed inside

/-! ## Definitions -/

/-- A byte that is neither a blank nor a comma. -/
def isGraphic (c : UInt8) : Bool := 33 ≤ c && c ≤ 126 && c != 44

/-- A key column as the server prints it: a name, in quotes where it needs them, or an
expression; and its collation, operator class and order. -/
structure KeyElement where
  column : Bytes
  quoted : Bool
  suffix : Bytes
  trimmed : quoted = false → trim column = column ∧ column ≠ []
  said : suffix ≠ [] → ∃ c ∈ suffix, isGraphic c = true

def KeyElement.text (e : KeyElement) : Bytes :=
  (if e.quoted then quotedBy doubleQuote e.column else e.column) ++ e.suffix

/-- The text ahead of the key columns, the key columns, and the clauses behind them. -/
structure IndexDef where
  head : Bytes
  elements : List KeyElement
  clauses : Bytes

@[grind =] def separated : List Bytes → Bytes
  | [] => []
  | [t] => t
  | t :: rest => t ++ 44 :: 32 :: separated rest

def IndexDef.text (d : IndexDef) : Bytes :=
  d.head ++ 40 :: (separated (d.elements.map KeyElement.text) ++ 41 :: d.clauses)

/-! ## Items -/

theorem listed_comma (p q : Bytes) : listed (p ++ 44 :: q) = listed p ++ listed q := by
  rw [listed, List.splitOn_append_cons_self, List.map_append, List.filter_append]
  rfl

theorem listed_item {b : Bytes} (h : 44 ∉ b) : listed b = if trim b = [] then [] else [trim b] := by
  rw [listed, List.splitOn_eq_singleton h]
  by_cases hb : trim b = []
  · simp [hb]
  · simp [hb]

/-- Over the items of a text, one by one. -/
theorem items_induction {P : Bytes → Prop} (item : ∀ b, 44 ∉ b → P b)
    (comma : ∀ p q, P p → P q → P (p ++ 44 :: q)) (b : Bytes) : P b := by
  induction hn : b.length using Nat.strong_induction_on generalizing b with
  | _ n ih =>
    by_cases hb : 44 ∈ b
    · obtain ⟨p, q, rfl, hp⟩ := List.eq_append_cons_of_mem hb
      refine comma p q (item p hp) (ih q.length ?_ q rfl)
      rw [← hn, List.length_append, List.length_cons]
      omega
    · exact item b hb

def weight (b : Bytes) : Nat := b.countP isGraphic

theorem not_graphic_blank {c : UInt8} (h : isBlankByte c = true) : isGraphic c = false := by
  simp only [isBlankByte, ws1, Bool.or_eq_true, Bool.and_eq_true, decide_eq_true_eq, beq_iff_eq,
    UInt8.le_iff_toNat_le] at h
  have hlow : c.toNat < 33 ∨ 126 < c.toNat := by
    rcases h with (⟨-, h⟩ | rfl) | h
    · exact .inl (Nat.lt_of_le_of_lt h (by decide))
    · exact .inl (by decide)
    · exact .inr (Nat.lt_of_lt_of_le (by decide) h)
  simp only [isGraphic, Bool.and_eq_false_iff, decide_eq_false_iff_not, UInt8.le_iff_toNat_le]
  rcases hlow with h | h
  · exact .inl (.inl (Nat.not_le.mpr h))
  · exact .inl (.inr (Nat.not_le.mpr h))

theorem weight_blank {b : Bytes} (h : Blank b) : weight b = 0 :=
  List.countP_eq_zero.mpr fun c hc => by simp [not_graphic_blank (h.bytes c hc)]

theorem weight_append (a b : Bytes) : weight (a ++ b) = weight a + weight b := List.countP_append

theorem weight_trim (b : Bytes) : weight (trim b) = weight b := by
  obtain ⟨p, q, hp, hq, hb⟩ := trim_spec b
  conv_rhs => rw [hb, weight_append, weight_append, weight_blank hp, weight_blank hq]
  omega

/-- Neither the cuts nor the trimming take anything that counts. -/
theorem weight_listed (b : Bytes) :
    ((listed b).map weight).sum = weight b ∧ ∀ item ∈ listed b, 44 ∉ item := by
  induction b using items_induction with
  | item b hb =>
    rw [listed_item hb]
    by_cases hnil : trim b = []
    · rw [if_pos hnil, ← weight_trim, hnil]
      exact ⟨rfl, fun _ h => absurd h List.not_mem_nil⟩
    rw [if_neg hnil]
    refine ⟨by simp [weight_trim], fun item hitem => ?_⟩
    rw [List.mem_singleton.mp hitem]
    intro hmem
    obtain ⟨p, q, -, -, htext⟩ := trim_spec b
    exact hb (htext ▸ List.mem_append_right _ (List.mem_append_left _ hmem))
  | comma p q hp hq =>
    rw [listed_comma, List.map_append, List.sum_append, hp.1, hq.1, weight_append]
    refine ⟨rfl, fun item hitem => ?_⟩
    rcases List.mem_append.mp hitem with h | h
    · exact hp.2 item h
    · exact hq.2 item h

theorem listed_space (b : Bytes) : listed (32 :: b) = listed b := by
  have hblank : Blank [32] := .cons (.one rfl) .nil
  have hpiece : ∀ {p : Bytes}, 44 ∉ p → listed (32 :: p) = listed p := by
    intro p hp
    have hspace : (44 : UInt8) ∉ 32 :: p := by simpa using hp
    rw [listed_item hspace, listed_item hp, trim, trim, ← List.singleton_append, trimStart_append hblank]
  by_cases hb : 44 ∈ b
  · obtain ⟨p, q, rfl, hp⟩ := List.eq_append_cons_of_mem hb
    rw [← List.cons_append, listed_comma, listed_comma, hpiece hp]
  · exact hpiece hb

theorem listed_separated {names : List Bytes}
    (h : ∀ name ∈ names, 44 ∉ name ∧ trim name = name ∧ name ≠ []) : listed (separated names) = names := by
  have hname : ∀ name ∈ names, listed name = [name] := by
    intro name hmem
    obtain ⟨hcomma, htrim, hne⟩ := h name hmem
    rw [listed_item hcomma, htrim, if_neg hne]
  induction names with
  | nil => rfl
  | cons name rest ih =>
    cases rest with
    | nil => exact hname name List.mem_cons_self
    | cons next rest =>
      have htail := ih (fun n hn => h n (.tail _ hn)) fun n hn => hname n (.tail _ hn)
      rw [separated, listed_comma, listed_space, htail, hname name List.mem_cons_self]
      · rfl
      · exact fun h => absurd h (List.cons_ne_nil _ _)

/-! ## What stands between the parentheses -/

/-- The text between the parentheses is the list of the key columns, and whatever of the rest
stands between other parentheses. -/
theorem parseIndexColumns_text (head list clauses : Bytes) :
    ∃ before after, parseIndexColumns (head ++ 40 :: (list ++ 41 :: clauses)) =
        listed (before ++ (list ++ after)) ∧ (40 ∈ head → 40 ∈ before) ∧ (40 ∉ head → before = []) ∧
      (41 ∈ clauses → 41 ∈ after) ∧ (41 ∉ clauses → after = []) := by
  obtain ⟨before, hsplit, hin, hout⟩ : ∃ before,
      (Delimited.splitOnce 40 (head ++ 40 :: (list ++ 41 :: clauses))).map Prod.snd =
        some (before ++ (list ++ 41 :: clauses)) ∧ (40 ∈ head → 40 ∈ before) ∧ (40 ∉ head → before = []) := by
    by_cases hmem : 40 ∈ head
    · obtain ⟨p, q, rfl, hp⟩ := List.eq_append_cons_of_mem hmem
      refine ⟨q ++ [40], ?_, fun _ => by simp, fun h => absurd hmem h⟩
      rw [List.append_assoc, List.cons_append, Delimited.splitOnce_append hp]
      simp
    · exact ⟨[], by rw [Delimited.splitOnce_append hmem]; rfl, fun h => absurd h hmem, fun _ => rfl⟩
  obtain ⟨after, hrsplit, hin', hout'⟩ : ∃ after,
      (Delimited.rsplitOnce 41 (before ++ (list ++ 41 :: clauses))).map Prod.fst = some (before ++ (list ++ after)) ∧
        (41 ∈ clauses → 41 ∈ after) ∧ (41 ∉ clauses → after = []) := by
    rw [← List.append_assoc]
    rcases Delimited.rsplitOnce_cases 41 clauses with ⟨-, hmem⟩ | ⟨p, q, -, rfl, hq⟩
    · exact ⟨[], by rw [Delimited.rsplitOnce_append _ hmem]; simp, fun h => absurd h hmem, fun _ => rfl⟩
    refine ⟨41 :: p, ?_, fun _ => List.mem_cons_self, fun h => absurd (by simp) h⟩
    have htext : before ++ list ++ 41 :: (p ++ 41 :: q) = (before ++ list ++ 41 :: p) ++ 41 :: q := by simp
    rw [htext, Delimited.rsplitOnce_append _ hq]
    simp
  refine ⟨before, after, ?_, hin, hout, hin', hout'⟩
  obtain ⟨⟨x, behind⟩, hx, hbehind⟩ := Option.map_eq_some_iff.mp hsplit
  obtain ⟨⟨inside, y⟩, hy, hinside⟩ := Option.map_eq_some_iff.mp hrsplit
  obtain rfl : behind = _ := hbehind
  obtain rfl : inside = _ := hinside
  rw [parseIndexColumns, hx]
  dsimp only
  rw [hy]

theorem weight_separated (texts : List Bytes) : weight (separated texts) = (texts.map weight).sum := by
  induction texts with
  | nil => rfl
  | cons t rest ih =>
    cases rest with
    | nil => simp [separated]
    | cons next rest =>
      rw [separated, weight_append, List.map_cons, List.sum_cons, ← ih]
      · rfl
      · exact fun h => absurd h (List.cons_ne_nil _ _)

theorem weight_doubled (q : UInt8) (name : Bytes) : weight name ≤ weight (doubled q name) := by
  induction name with
  | nil => exact Nat.le_refl 0
  | cons c name ih =>
    rw [doubled]
    simp only [weight] at ih ⊢
    split <;> simp only [List.countP_cons] <;> omega

/-- What is printed of a key column counts for more than it, unless it is all that is printed. -/
theorem KeyElement.weight_text (e : KeyElement) : weight e.column ≤ weight e.text ∧
    (weight e.text = weight e.column → e.quoted = false ∧ e.suffix = []) := by
  have hquoted : weight e.column + (if e.quoted then 2 else 0) + weight e.suffix ≤ weight e.text := by
    rw [KeyElement.text, weight_append]
    cases e.quoted with
    | false => simp
    | true =>
      have hdoubled := weight_doubled doubleQuote e.column
      have hquotes : weight (quotedBy doubleQuote e.column) = weight (doubled doubleQuote e.column) + 2 := by
        rw [quotedBy, ← List.singleton_append, weight_append, weight_append]
        show 1 + (_ + 1) = _
        omega
      simp only [if_true]
      omega
  refine ⟨by omega, fun heq => ⟨?_, ?_⟩⟩
  · cases hq : e.quoted with
    | false => rfl
    | true =>
      rw [hq, if_pos rfl] at hquoted
      omega
  · by_contra hne
    obtain ⟨c, hc, hgraphic⟩ := e.said hne
    have hpos : 0 < weight e.suffix := List.countP_pos_iff.mpr ⟨c, hc, hgraphic⟩
    omega

/-- Sums that are no greater, of terms that are no less, are of equal terms. -/
theorem sum_eq_of_le {α : Type*} {f g : α → Nat} {l : List α} (hle : ∀ a ∈ l, f a ≤ g a) {k : Nat}
    (hsum : (l.map g).sum + k ≤ (l.map f).sum) : k = 0 ∧ ∀ a ∈ l, g a = f a := by
  induction l generalizing k with
  | nil => exact ⟨by simpa using hsum, fun _ h => absurd h List.not_mem_nil⟩
  | cons a l ih =>
    simp only [List.map_cons, List.sum_cons] at hsum
    have ha := hle a List.mem_cons_self
    obtain ⟨hk, hrest⟩ := ih (fun b hb => hle b (.tail _ hb)) (show _ + (g a - f a + k) ≤ _ by omega)
    refine ⟨by omega, fun b hb => ?_⟩
    rcases List.mem_cons.mp hb with rfl | hb
    · omega
    · exact hrest b hb

/-- The key columns are read exactly where no parenthesis stands ahead of their list and none is
closed behind it, and each of them is all that is printed, with no comma. -/
theorem parseIndexColumns_iff (d : IndexDef) :
    parseIndexColumns d.text = d.elements.map KeyElement.column ↔ 40 ∉ d.head ∧ 41 ∉ d.clauses ∧
        ∀ e ∈ d.elements, e.quoted = false ∧ e.suffix = [] ∧ 44 ∉ e.column := by
  obtain ⟨before, after, hparse, hin, hout, hin', hout'⟩ :=
    parseIndexColumns_text d.head (separated (d.elements.map KeyElement.text)) d.clauses
  rw [IndexDef.text, hparse]
  constructor
  · intro hcolumns
    obtain ⟨hweight, hcomma⟩ := weight_listed (before ++ (separated (d.elements.map KeyElement.text) ++ after))
    rw [hcolumns, weight_append, weight_append, weight_separated, List.map_map, List.map_map] at hweight
    obtain ⟨hrest, hterms⟩ := sum_eq_of_le (fun e _ => (KeyElement.weight_text e).1)
      (show (d.elements.map (weight ∘ KeyElement.text)).sum + (weight before + weight after) ≤
        (d.elements.map (weight ∘ KeyElement.column)).sum by omega)
    have hnone : ∀ {c : UInt8} {b : Bytes}, isGraphic c = true → weight b = 0 → c ∉ b := by
      intro c b hc hb hmem
      exact List.countP_eq_zero.mp hb c hmem hc
    refine ⟨fun hmem => ?_, fun hmem => ?_, fun e he => ?_⟩
    · exact hnone (by decide) (show weight before = 0 by omega) (hin hmem)
    · exact hnone (by decide) (show weight after = 0 by omega) (hin' hmem)
    · obtain ⟨hquoted, hsuffix⟩ := (KeyElement.weight_text e).2 (hterms e he)
      refine ⟨hquoted, hsuffix, hcomma e.column ?_⟩
      rw [hcolumns]
      exact List.mem_map_of_mem he
  · rintro ⟨hhead, hclauses, hbare⟩
    have htexts : d.elements.map KeyElement.text = d.elements.map KeyElement.column := by
      refine List.map_congr_left fun e he => ?_
      obtain ⟨hquoted, hsuffix, -⟩ := hbare e he
      rw [KeyElement.text, hquoted, hsuffix, if_neg Bool.false_ne_true, List.append_nil]
    rw [hout hhead, hout' hclauses, List.nil_append, List.append_nil, htexts]
    refine listed_separated fun name hname => ?_
    obtain ⟨e, he, rfl⟩ := List.mem_map.mp hname
    obtain ⟨hquoted, -, hcomma⟩ := hbare e he
    exact ⟨hcomma, e.trimmed hquoted⟩

/-- `CREATE INDEX i ON t USING btree (a) WHERE (b)` -/
def partialIndex : IndexDef where
  head := ascii "CREATE INDEX i ON t USING btree "
  elements := [⟨ascii "a", false, [], fun _ => by decide, fun h => absurd rfl h⟩]
  clauses := ascii " WHERE (b)"

/-- A predicate goes into the columns. -/
theorem predicate_listed : parseIndexColumns partialIndex.text = [ascii "a) WHERE (b"] ∧
    parseIndexColumns partialIndex.text ≠ partialIndex.elements.map KeyElement.column := by
  decide

end RedDb.Driver
