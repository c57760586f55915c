import Mathlib.Data.List.Range
import RedDb.Driver.Edits
import RedDb.Lib.Numerals

/-!
# RedDb — the placeholders of an edit

`editSql` and `insertSql` push a value to the list of bound values as they write its placeholder, and
write a null into the text. `holes` reads the text as a server does: a mark inside a quoted name is
part of the name, any other one stands for a value.

* `Fits` — a piece of text whose marks count on from a number;
* `statements_aligned` — the placeholders of a statement are its values, one by one, each beside its
  own column.
-/

namespace RedDb.Driver

open ByteText

abbrev questionMark : UInt8 := 63

/-- The engines whose edits are rendered with bound values. -/
inductive EditDialect where
  | postgres
  | mysql
  | sqlite

namespace EditDialect

def quoteByte : EditDialect → UInt8
  | .mysql => backtick
  | .postgres | .sqlite => doubleQuote

def mark : EditDialect → UInt8
  | .postgres => dollar
  | .mysql | .sqlite => questionMark

/-- An identifier in quotes, the quotes inside it doubled. -/
def quote (d : EditDialect) (ident : Bytes) : Bytes :=
  d.quoteByte :: ident.flatMap (fun c => if c = d.quoteByte then [c, c] else [c]) ++ [d.quoteByte]

def placeholder : EditDialect → Nat → ColumnValue → Bytes
  | .postgres, i, cv => pgPlaceholder i cv
  | .mysql, _, _ | .sqlite, _, _ => [questionMark]

/-- What stands behind the mark of the `i`-th placeholder. -/
def label : EditDialect → Nat → Bytes
  | .postgres, i => ByteText.decimal (i + 1)
  | .mysql, _ | .sqlite, _ => []

end EditDialect

/-- The marks outside quoted names, each as the digits behind it. -/
@[grind =] def holes (d : EditDialect) : Bool → Bytes → List Bytes
  | _, [] => []
  | true, c :: rest => holes d (c != d.quoteByte) rest
  | false, c :: rest =>
    if c = d.quoteByte then holes d true rest
    else if c = d.mark then rest.takeWhile isAsciiDigit :: holes d false rest
    else holes d false rest

def labels (d : EditDialect) (start n : Nat) : List Bytes := (List.range' start n).map d.label

/-! ## The statements, their placeholders numbered -/

/-- The pairs, each with the number of values bound before it. -/
def numbered (start : Nat) : List ColumnValue → List (Nat × ColumnValue)
  | [] => []
  | cv :: cvs => (start, cv) :: numbered (start + (bound [cv]).length) cvs

def numberedRows (columns : List Column) (start : Nat) :
    List (List Value) → List (List (Nat × ColumnValue))
  | [] => []
  | row :: rows =>
    numbered start (cells columns row) ::
      numberedRows columns (start + (bound (cells columns row)).length) rows

/-- A null is written, any other value has its placeholder. -/
def slotText (d : EditDialect) (p : Nat × ColumnValue) : Bytes :=
  if p.2.value.isNull then ascii "NULL" else d.placeholder p.1 p.2

def assignText (d : EditDialect) (p : Nat × ColumnValue) : Bytes :=
  d.quote p.2.column ++ (ascii " = " ++ slotText d p)

/-- A member of the identity; a null is compared with `IS NULL`. -/
def memberText (d : EditDialect) (p : Nat × ColumnValue) : Bytes :=
  if p.2.value.isNull then d.quote p.2.column ++ ascii " IS NULL" else assignText d p

def tupleText (d : EditDialect) (row : List (Nat × ColumnValue)) : Bytes :=
  ascii "(" ++ ((ascii ", ").intercalate (row.map (slotText d)) ++ ascii ")")

/-- The numbered pairs of an edit: the assignments or values, and the members of the identity. -/
def EditOp.slots : EditOp → List (Nat × ColumnValue) × List (Nat × ColumnValue)
  | .update _ keys set => (numbered 0 set, numbered (bound set).length keys)
  | .delete _ keys => ([], numbered 0 keys)
  | .insert _ values => (numbered 0 values, [])

def EditOp.text (d : EditDialect) (op : EditOp) : Bytes :=
  match op with
  | .update table _ _ =>
    ascii "UPDATE " ++ (qualify d.quote table ++ (ascii " SET " ++
      ((ascii ", ").intercalate (op.slots.1.map (assignText d)) ++ (ascii " WHERE " ++
        (ascii " AND ").intercalate (op.slots.2.map (memberText d))))))
  | .delete table _ =>
    ascii "DELETE FROM " ++ (qualify d.quote table ++ (ascii " WHERE " ++
      (ascii " AND ").intercalate (op.slots.2.map (memberText d))))
  | .insert table values =>
    ascii "INSERT INTO " ++ (qualify d.quote table ++ (ascii " (" ++
      ((ascii ", ").intercalate (values.map fun cv => d.quote cv.column) ++ (ascii ") VALUES (" ++
        ((ascii ", ").intercalate (op.slots.1.map (slotText d)) ++ ascii ")")))))

def insertText (d : EditDialect) (table : TableRef) (columns : List Column)
    (rows : List (List (Nat × ColumnValue))) : Bytes :=
  ascii "INSERT INTO " ++ (qualify d.quote table ++ (ascii " (" ++
    ((ascii ", ").intercalate (columns.map fun c => d.quote c.name) ++ (ascii ") VALUES " ++
      (ascii ", ").intercalate (rows.map (tupleText d))))))

/-- A statement's placeholders and its bound values belong together. -/
structure Aligned (d : EditDialect) (statement : Bytes × List Value) (text : Bytes)
    (slots : List (Nat × ColumnValue)) : Prop where
  text : statement.1 = text
  /-- The `i`-th placeholder of the text is the one of the `i`-th value, and there are no others. -/
  marks : holes d false statement.1 = labels d 0 statement.2.length
  /-- A placeholder's value is the one of its own pair. -/
  values : ∀ p ∈ slots, p.2.value.isNull = false → statement.2[p.1]? = some p.2.value

/-! ## Pieces of text -/

/-- What follows does not go on with a number. -/
def Ends (rest : Bytes) : Prop := ∀ c ∈ rest.head?, isAsciiDigit c = false

/-- A piece of text with `n` marks outside names, labelled from `start` on. -/
structure Fits (d : EditDialect) (start n : Nat) (t : Bytes) : Prop where
  marks : ∀ rest, Ends rest → holes d false (t ++ rest) = labels d start n ++ holes d false rest
  clear : ∀ rest, Ends rest → Ends (t ++ rest)

section Pieces

variable {d : EditDialect} {start n k : Nat} {s t : Bytes} {cv : ColumnValue}

theorem ends_cons {c : UInt8} (hc : isAsciiDigit c = false) (rest : Bytes) : Ends (c :: rest) := by
  intro e he
  rwa [← Option.some.inj he]

theorem Fits.append (hs : Fits d start n s) (ht : Fits d (start + n) k t) :
    Fits d start (n + k) (s ++ t) where
  marks rest hrest := by
    rw [List.append_assoc, hs.marks _ (ht.clear rest hrest), ht.marks rest hrest, ← List.append_assoc]
    unfold labels
    rw [← List.map_append, List.range'_append_1]
  clear rest hrest := by
    rw [List.append_assoc]
    exact hs.clear _ (ht.clear rest hrest)

/-- Text in front of the first mark. -/
theorem Fits.after (hs : Fits d start 0 s) (ht : Fits d start k t) : Fits d start k (s ++ t) := by
  have happend := hs.append ht
  rwa [Nat.zero_add] at happend

/-- Text behind the last mark. -/
theorem Fits.before (hs : Fits d start n s) (ht : Fits d (start + n) 0 t) : Fits d start n (s ++ t) :=
  hs.append ht

theorem fits_nil : Fits d start 0 [] := ⟨fun _ _ => rfl, fun _ h => h⟩

/-- Words and punctuation between names and marks. -/
theorem fits_plain (h : ∀ c ∈ t, c ≠ d.quoteByte ∧ c ≠ d.mark) (hhead : Ends t) : Fits d start 0 t where
  marks rest _ := by
    show holes d false (t ++ rest) = holes d false rest
    clear hhead
    induction t with
    | nil => rfl
    | cons c t ih =>
      obtain ⟨hc, ht⟩ := List.forall_mem_cons.mp h
      rw [List.cons_append, holes, if_neg hc.1, if_neg hc.2, ih ht]
  clear rest hrest := by
    cases t with
    | nil => exact hrest
    | cons c t => exact ends_cons (hhead c rfl) _

theorem holes_name (ident rest : Bytes) :
    holes d true (ident.flatMap (fun c => if c = d.quoteByte then [c, c] else [c]) ++ d.quoteByte :: rest) =
      holes d false rest := by
  induction ident with
  | nil => rw [List.flatMap_nil, List.nil_append, holes, bne_self_eq_false]
  | cons c ident ih =>
    rw [List.flatMap_cons, List.append_assoc]
    by_cases hc : c = d.quoteByte
    · rw [if_pos hc, hc, List.cons_append, List.cons_append, holes, bne_self_eq_false, holes, if_pos rfl]
      exact ih
    · rw [if_neg hc, List.cons_append, holes, bne_iff_ne.mpr hc]
      exact ih

theorem quoteByte_digit (d : EditDialect) : isAsciiDigit d.quoteByte = false := by
  cases d <;> rfl

theorem fits_quote (ident : Bytes) : Fits d start 0 (d.quote ident) where
  marks rest _ := by
    show holes d false (d.quote ident ++ rest) = holes d false rest
    rw [EditDialect.quote, List.cons_append, List.cons_append, holes, if_pos rfl, List.append_assoc]
    exact holes_name ident rest
  clear rest _ := ends_cons (quoteByte_digit d) _

theorem fits_cast (value : Value) (declType : Option Bytes) :
    Fits .postgres start 0 (pgCast value declType) := by
  have hword {t : Bytes} (h : ∀ c ∈ t, c ≠ doubleQuote ∧ c ≠ dollar) :
      Fits .postgres start 0 (58 :: t) := by
    refine fits_plain ?_ (ends_cons (by decide) t)
    exact List.forall_mem_cons.mpr ⟨by decide, h⟩
  cases value with
  | null | capped c => exact fits_nil
  | real bits | blob b => exact hword (by decide)
  | integer n =>
    unfold pgCast
    dsimp only
    split
    · exact hword (by decide)
    · exact hword (by decide)
  | text s =>
    cases declType with
    | none => exact hword (by decide)
    | some type =>
      unfold pgCast
      dsimp only
      split
      · exact hword (by decide)
      · exact (hword (t := ascii ":text::") (by decide)).after (fits_quote (d := .postgres) type)

theorem holes_digits {t : Bytes} (h : ∀ c ∈ t, isAsciiDigit c = true) (rest : Bytes) :
    holes .postgres false (t ++ rest) = holes .postgres false rest := by
  induction t with
  | nil => rfl
  | cons c t ih =>
    obtain ⟨hc, ht⟩ := List.forall_mem_cons.mp h
    have hname : c ≠ doubleQuote := by
      rintro rfl
      cases hc
    have hmark : c ≠ dollar := by
      rintro rfl
      cases hc
    show holes .postgres false (c :: (t ++ rest)) = _
    rw [holes]
    refine (if_neg hname).trans ((if_neg hmark).trans (ih ht))

theorem digits_before {t rest : Bytes} (h : ∀ c ∈ t, isAsciiDigit c = true) (hrest : Ends rest) :
    (t ++ rest).takeWhile isAsciiDigit = t := by
  rw [List.takeWhile_append_of_pos h]
  cases rest with
  | nil => exact List.append_nil t
  | cons c rest =>
    rw [List.takeWhile_cons_of_neg (Bool.eq_false_iff.mp (hrest c rfl)), List.append_nil]

theorem fits_placeholder (d : EditDialect) (i : Nat) (cv : ColumnValue) :
    Fits d i 1 (d.placeholder i cv) := by
  have hquestion (e : EditDialect) (hmark : e.mark = questionMark) (hlabel : e.label i = []) :
      Fits e i 1 [questionMark] := by
    refine ⟨fun rest hrest => ?_, fun rest _ => ends_cons (by decide) rest⟩
    have hname : questionMark ≠ e.quoteByte := by cases e <;> decide
    show holes e false (questionMark :: rest) = _
    rw [holes, if_neg hname, if_pos hmark.symm, ← List.nil_append rest,
      digits_before (fun c hc => absurd hc List.not_mem_nil) hrest]
    show _ = [e.label i] ++ _
    rw [hlabel]
    rfl
  cases d with
  | mysql => exact hquestion .mysql rfl rfl
  | sqlite => exact hquestion .sqlite rfl rfl
  | postgres =>
    refine ⟨fun rest hrest => ?_, fun rest _ => ends_cons (by decide) _⟩
    have hcast : Fits .postgres i 0 (pgCast cv.value cv.declType) := fits_cast cv.value cv.declType
    have hdigits : ∀ c ∈ ByteText.decimal (i + 1), isAsciiDigit c = true := fun c hc => decimal_digits hc
    show holes .postgres false
      (dollar :: (ByteText.decimal (i + 1) ++ pgCast cv.value cv.declType ++ rest)) = _
    rw [holes, List.append_assoc, digits_before hdigits (hcast.clear rest hrest), holes_digits hdigits,
      hcast.marks rest hrest]
    rfl

theorem bound_null (h : cv.value.isNull = true) : bound [cv] = [] := by
  unfold bound
  rw [List.map_singleton, List.filter_singleton, h]
  rfl

theorem bound_value (h : cv.value.isNull = false) : bound [cv] = [cv.value] := by
  unfold bound
  rw [List.map_singleton, List.filter_singleton, h]
  rfl

theorem fits_slot (d : EditDialect) (p : Nat × ColumnValue) :
    Fits d p.1 (bound [p.2]).length (slotText d p) := by
  unfold slotText
  split_ifs with hnull
  · rw [bound_null hnull]
    exact fits_plain (by cases d <;> decide) (ends_cons (by decide) _)
  · rw [bound_value (Bool.eq_false_iff.mpr hnull)]
    exact fits_placeholder d p.1 p.2

/-- A word between the names and the marks, whatever the dialect's quote and mark are. -/
theorem fits_word (d : EditDialect) (w : Bytes)
    (h : ∀ c ∈ w, c ≠ doubleQuote ∧ c ≠ backtick ∧ c ≠ dollar ∧ c ≠ questionMark)
    (hhead : ∀ c ∈ w.head?, isAsciiDigit c = false) : Fits d start 0 w := by
  refine fits_plain (fun c hc => ?_) hhead
  obtain ⟨hquote, htick, hdollar, hquestion⟩ := h c hc
  cases d with
  | postgres => exact ⟨hquote, hdollar⟩
  | mysql => exact ⟨htick, hquestion⟩
  | sqlite => exact ⟨hquote, hquestion⟩

theorem fits_assign (d : EditDialect) (p : Nat × ColumnValue) :
    Fits d p.1 (bound [p.2]).length (assignText d p) :=
  (fits_quote p.2.column).after ((fits_word d (ascii " = ") (by decide) (by decide)).after (fits_slot d p))

theorem fits_member (d : EditDialect) (p : Nat × ColumnValue) :
    Fits d p.1 (bound [p.2]).length (memberText d p) := by
  unfold memberText
  split_ifs with hnull
  · rw [bound_null hnull]
    exact (fits_quote p.2.column).after (fits_word d (ascii " IS NULL") (by decide) (by decide))
  · exact fits_assign d p

/-- Pieces with a separator between them, numbered through. -/
inductive FitsAll (d : EditDialect) : Nat → Nat → List Bytes → Prop
  | nil {start : Nat} : FitsAll d start 0 []
  | cons {start n k : Nat} {t : Bytes} {ts : List Bytes} (h : Fits d start n t)
      (hts : FitsAll d (start + n) k ts) : FitsAll d start (n + k) (t :: ts)

theorem FitsAll.joined {ts : List Bytes} (sep : Bytes) (hsep : ∀ start, Fits d start 0 sep)
    (h : FitsAll d start n ts) : Fits d start n (sep.intercalate ts) := by
  induction h with
  | nil => exact fits_nil
  | @cons start n k t ts h hts ih =>
    cases ts with
    | nil =>
      have hk : Fits d (start + n) k [] := ih
      have hjoined := h.append hk
      rw [List.append_nil] at hjoined
      rwa [List.intercalate_singleton]
    | cons t' ts =>
      rw [List.intercalate_cons_cons]
      exact (h.before (hsep _)).append ih

theorem fitsAll_pairs {render : Nat × ColumnValue → Bytes}
    (hrender : ∀ p, Fits d p.1 (bound [p.2]).length (render p)) (cvs : List ColumnValue) (start : Nat) :
    FitsAll d start (bound cvs).length ((numbered start cvs).map render) := by
  induction cvs generalizing start with
  | nil => exact .nil
  | cons cv cvs ih =>
    rw [bound_cons, List.length_append]
    exact .cons (hrender (start, cv)) (ih _)

theorem fitsAll_names {α : Type*} (d : EditDialect) (start : Nat) (name : α → Bytes) (xs : List α) :
    FitsAll d start 0 (xs.map fun x => d.quote (name x)) := by
  induction xs with
  | nil => exact .nil
  | cons x xs ih => exact .cons (n := 0) (k := 0) (fits_quote _) ih

theorem fits_qualify (d : EditDialect) (table : TableRef) : Fits d start 0 (qualify d.quote table) := by
  unfold qualify
  split
  · split_ifs
    · exact fits_quote _
    · exact ((fits_quote _).after (fits_word d [dot] (by decide) (by decide))).after (fits_quote _)
  · exact fits_quote _

end Pieces

/-! ## Statements -/

section Statements

variable {d : EditDialect} {cvs : List ColumnValue} {params : List Value} {start : Nat}

/-- Rendering pairs one after the other is rendering them with their numbers. -/
theorem renderEach_numbered {render : ColumnValue → List Value → Bytes × List Value}
    {text : Nat × ColumnValue → Bytes} (hbinds : Binds render)
    (htext : ∀ cv params, (render cv params).1 = text (params.length, cv)) (cvs : List ColumnValue)
    (params : List Value) :
    renderEach render cvs params = ((numbered params.length cvs).map text, params ++ bound cvs) := by
  refine Prod.ext ?_ (renderEach_params hbinds cvs params)
  induction cvs generalizing params with
  | nil => rfl
  | cons cv cvs ih =>
    show (render cv params).1 :: (renderEach render cvs (render cv params).2).1 = _
    rw [ih, htext, hbinds cv params, List.length_append]
    rfl

theorem slot_text (d : EditDialect) (cv : ColumnValue) (params : List Value) :
    (slot d.placeholder cv params).1 = slotText d (params.length, cv) := by
  unfold slot slotText
  split <;> rfl

theorem assign_text (d : EditDialect) (cv : ColumnValue) (params : List Value) :
    (assign d.quote d.placeholder cv params).1 = assignText d (params.length, cv) := by
  show d.quote cv.column ++ ascii " = " ++ (slot d.placeholder cv params).1 = _
  rw [slot_text, List.append_assoc]
  rfl

theorem member_text (d : EditDialect) (cv : ColumnValue) (params : List Value) :
    (identity d.quote d.placeholder cv params).1 = memberText d (params.length, cv) := by
  unfold identity memberText
  split
  · rfl
  · exact assign_text d cv params

/-- The value of a pair is bound under its number. -/
theorem numbered_value {p : Nat × ColumnValue} (hp : p ∈ numbered start cvs)
    (hvalue : p.2.value.isNull = false) (before after : List Value) (hbefore : before.length = start) :
    (before ++ (bound cvs ++ after))[p.1]? = some p.2.value := by
  induction cvs generalizing start before with
  | nil => exact absurd hp List.not_mem_nil
  | cons cv cvs ih =>
    rw [bound_cons]
    rcases List.mem_cons.mp hp with rfl | hp
    · rw [bound_value hvalue, ← hbefore, List.getElem?_append_right (Nat.le_refl _), Nat.sub_self]
      rfl
    have hshape : before ++ (bound [cv] ++ bound cvs ++ after) =
        (before ++ bound [cv]) ++ (bound cvs ++ after) := by
      rw [List.append_assoc, List.append_assoc]
    rw [hshape]
    exact ih hp _ (by rw [List.length_append, hbefore])

theorem holes_statement {n : Nat} {t : Bytes} (h : Fits d 0 n t) : holes d false t = labels d 0 n := by
  have hmarks := h.marks [] (fun c hc => by cases hc)
  rwa [List.append_nil, holes, List.append_nil] at hmarks

theorem update_aligned (d : EditDialect) (table : TableRef) (keys set : List ColumnValue) :
    Aligned d (editSql d.quote d.placeholder (.update table keys set))
      (EditOp.text d (.update table keys set)) (numbered 0 set ++ numbered (bound set).length keys) := by
  have hassigns := renderEach_numbered (binds_assign d.quote d.placeholder) (assign_text d) set []
  have hmembers :=
    renderEach_numbered (binds_identity d.quote d.placeholder) (member_text d) keys ([] ++ bound set)
  have heq : editSql d.quote d.placeholder (.update table keys set) =
      (EditOp.text d (.update table keys set), bound set ++ bound keys) := by
    unfold editSql
    dsimp only
    rw [hassigns, hmembers]
    simp only [EditOp.text, EditOp.slots, List.append_assoc, List.nil_append, List.length_nil]
  rw [heq]
  refine ⟨rfl, holes_statement ?_, fun p hp hvalue => ?_⟩
  · have hset := (fitsAll_pairs (fits_assign d) set 0).joined (ascii ", ")
      fun start => fits_word d _ (by decide) (by decide)
    have hkeys := (fitsAll_pairs (fits_member d) keys (0 + (bound set).length)).joined (ascii " AND ")
      fun start => fits_word d _ (by decide) (by decide)
    have hrest := hset.append ((fits_word d (ascii " WHERE ") (by decide) (by decide)).after hkeys)
    rw [Nat.zero_add] at hrest
    rw [List.length_append]
    exact (fits_word d _ (by decide) (by decide)).after ((fits_qualify d table).after
      ((fits_word d _ (by decide) (by decide)).after hrest))
  · rcases List.mem_append.mp hp with hp | hp
    · exact numbered_value hp hvalue [] (bound keys) rfl
    · have hkeys := numbered_value hp hvalue (bound set) [] rfl
      rwa [List.append_nil] at hkeys

theorem delete_aligned (d : EditDialect) (table : TableRef) (keys : List ColumnValue) :
    Aligned d (editSql d.quote d.placeholder (.delete table keys))
      (EditOp.text d (.delete table keys)) (numbered 0 keys) := by
  have hmembers := renderEach_numbered (binds_identity d.quote d.placeholder) (member_text d) keys []
  have heq : editSql d.quote d.placeholder (.delete table keys) =
      (EditOp.text d (.delete table keys), bound keys) := by
    unfold editSql
    dsimp only
    rw [hmembers]
    simp only [EditOp.text, EditOp.slots, List.append_assoc, List.nil_append, List.length_nil]
  rw [heq]
  refine ⟨rfl, holes_statement ?_, fun p hp hvalue => ?_⟩
  · have hkeys := (fitsAll_pairs (fits_member d) keys 0).joined (ascii " AND ")
      fun start => fits_word d _ (by decide) (by decide)
    exact (fits_word d _ (by decide) (by decide)).after ((fits_qualify d table).after
      ((fits_word d _ (by decide) (by decide)).after hkeys))
  · have hkeys := numbered_value hp hvalue [] [] rfl
    rwa [List.append_nil] at hkeys

theorem insert_aligned (d : EditDialect) (table : TableRef) (values : List ColumnValue) :
    Aligned d (editSql d.quote d.placeholder (.insert table values))
      (EditOp.text d (.insert table values)) (numbered 0 values) := by
  have hslots := renderEach_numbered (binds_slot d.placeholder) (slot_text d) values []
  have heq : editSql d.quote d.placeholder (.insert table values) =
      (EditOp.text d (.insert table values), bound values) := by
    unfold editSql
    dsimp only
    rw [hslots]
    simp only [EditOp.text, EditOp.slots, List.append_assoc, List.nil_append, List.length_nil]
  rw [heq]
  refine ⟨rfl, holes_statement ?_, fun p hp hvalue => ?_⟩
  · have hnames := (fitsAll_names d 0 ColumnValue.column values).joined (ascii ", ")
      fun start => fits_word d _ (by decide) (by decide)
    have hvalues := (fitsAll_pairs (fits_slot d) values 0).joined (ascii ", ")
      fun start => fits_word d _ (by decide) (by decide)
    have hclosed := hvalues.before (fits_word d (ascii ")") (by decide) (by decide))
    exact (fits_word d _ (by decide) (by decide)).after ((fits_qualify d table).after
      ((fits_word d _ (by decide) (by decide)).after (hnames.after
        ((fits_word d _ (by decide) (by decide)).after hclosed))))
  · have hvalues := numbered_value hp hvalue [] [] rfl
    rwa [List.append_nil] at hvalues

/-- The bound values of rows. -/
def boundRows (columns : List Column) (rows : List (List Value)) : List Value :=
  bound (rows.flatMap (cells columns))

theorem boundRows_cons (columns : List Column) (row : List Value) (rows : List (List Value)) :
    boundRows columns (row :: rows) = bound (cells columns row) ++ boundRows columns rows := by
  unfold boundRows
  rw [List.flatMap_cons, bound_append]

theorem tuple_numbered (d : EditDialect) (columns : List Column) (row params : List Value) :
    tuple d.placeholder columns row params =
      (tupleText d (numbered params.length (cells columns row)), params ++ bound (cells columns row)) := by
  unfold tuple
  rw [renderEach_numbered (binds_slot d.placeholder) (slot_text d)]
  dsimp only
  rw [List.append_assoc]
  rfl

theorem foldl_tuples (d : EditDialect) (columns : List Column) (rows : List (List Value)) (texts : List Bytes)
    (params : List Value) :
    rows.foldl (fun acc row => (acc.1 ++ [(tuple d.placeholder columns row acc.2).1],
        (tuple d.placeholder columns row acc.2).2)) (texts, params) =
      (texts ++ (numberedRows columns params.length rows).map (tupleText d),
        params ++ boundRows columns rows) := by
  induction rows generalizing texts params with
  | nil =>
    show (texts, params) = (texts ++ [], params ++ [])
    rw [List.append_nil, List.append_nil]
  | cons row rows ih =>
    rw [List.foldl_cons]
    dsimp only
    rw [tuple_numbered, ih, boundRows_cons, List.append_assoc, List.append_assoc, List.length_append]
    rfl

theorem fitsAll_rows (d : EditDialect) (columns : List Column) (rows : List (List Value)) (start : Nat) :
    FitsAll d start (boundRows columns rows).length
      ((numberedRows columns start rows).map (tupleText d)) := by
  induction rows generalizing start with
  | nil => exact .nil
  | cons row rows ih =>
    rw [boundRows_cons, List.length_append]
    refine .cons ?_ (ih _)
    have hvalues := (fitsAll_pairs (fits_slot d) (cells columns row) start).joined (ascii ", ")
      fun start => fits_word d _ (by decide) (by decide)
    exact (fits_word d _ (by decide) (by decide)).after
      (hvalues.before (fits_word d (ascii ")") (by decide) (by decide)))

theorem numberedRows_value {columns : List Column} {rows : List (List Value)} {p : Nat × ColumnValue}
    (hp : p ∈ (numberedRows columns start rows).flatten) (hvalue : p.2.value.isNull = false)
    (before : List Value) (hbefore : before.length = start) :
    (before ++ boundRows columns rows)[p.1]? = some p.2.value := by
  induction rows generalizing start before with
  | nil => exact absurd hp List.not_mem_nil
  | cons row rows ih =>
    rw [boundRows_cons]
    rcases List.mem_append.mp hp with hp | hp
    · exact numbered_value hp hvalue before _ hbefore
    · rw [← List.append_assoc]
      exact ih hp _ (by rw [List.length_append, hbefore])

theorem insertSql_aligned (d : EditDialect) (table : TableRef) (columns : List Column)
    (rows : List (List Value)) : Aligned d (insertSql d.quote d.placeholder table columns rows)
      (insertText d table columns (numberedRows columns 0 rows)) (numberedRows columns 0 rows).flatten := by
  have heq : insertSql d.quote d.placeholder table columns rows =
      (insertText d table columns (numberedRows columns 0 rows), boundRows columns rows) := by
    unfold insertSql
    dsimp only
    rw [foldl_tuples]
    simp only [insertText, List.append_assoc, List.nil_append, List.length_nil]
  rw [heq]
  refine ⟨rfl, holes_statement ?_, fun p hp hvalue => ?_⟩
  · have hnames := (fitsAll_names d 0 Column.name columns).joined (ascii ", ")
      fun start => fits_word d _ (by decide) (by decide)
    have hrows := (fitsAll_rows d columns rows 0).joined (ascii ", ")
      fun start => fits_word d _ (by decide) (by decide)
    exact (fits_word d _ (by decide) (by decide)).after ((fits_qualify d table).after
      ((fits_word d _ (by decide) (by decide)).after (hnames.after
        ((fits_word d _ (by decide) (by decide)).after hrows))))
  · exact numberedRows_value hp hvalue [] rfl

/-- The numbered pairs of a whole edit. -/
def EditOp.allSlots (op : EditOp) : List (Nat × ColumnValue) := op.slots.1 ++ op.slots.2

/-- **The placeholders of a statement are its values**, one by one, each beside its own column; a null is
written into the text, and the row is named by all the columns of its key. -/
theorem statements_aligned (d : EditDialect) :
    (∀ op, Aligned d (editSql d.quote d.placeholder op) (op.text d) op.allSlots) ∧
      ∀ table columns rows, Aligned d (insertSql d.quote d.placeholder table columns rows)
        (insertText d table columns (numberedRows columns 0 rows)) (numberedRows columns 0 rows).flatten := by
  refine ⟨fun op => ?_, insertSql_aligned d⟩
  cases op with
  | update table keys set => exact update_aligned d table keys set
  | delete table keys => exact delete_aligned d table keys
  | insert table values =>
    have haligned := insert_aligned d table values
    unfold EditOp.allSlots
    rwa [← List.append_nil (numbered 0 values)] at haligned

end Statements

end RedDb.Driver
