import Mathlib
import RedDb.Lib.ByteText
import RedDb.Lib.TextLines

/-!
# RedDb — the rows of a ClickHouse answer

An answer has its column names in the first line, their types in the second, and a row in
every other one. The cursor and the export read it as it comes in, chunk by chunk, behind a
buffer; `parse_block` reads it whole.

* `readRows_spec` — what a reader leaves are the rows it has not read;
* `readers_body` — how an answer is cut into chunks does not show;
* `readers_iff` — which answers the three readers read the same.
-/

namespace RedDb.Driver

open ByteText TextLines

/-- The JSON library on a line of strings and on a row: it fails on a line of nothing but white space,
and the carriage return behind a row is white space to it. -/
structure LineReader (R : Type*) where
  strings : Bytes → Option (List Bytes)
  row : Bytes → Option R
  strings_blank : ∀ l, l.all isAsciiWhitespace = true → strings l = none
  row_blank : ∀ l, l.all isAsciiWhitespace = true → row l = none
  row_return : ∀ l, row (l ++ [carriageReturn]) = row l

abbrev blank (l : Bytes) : Bool := l.all isAsciiWhitespace

abbrev BlockHeader := List Bytes × List Bytes

/-- The first line that has ended, and what is behind it. -/
def cutLine : Bytes → Option (Bytes × Bytes)
  | [] => none
  | c :: rest => if c = newline then some ([], rest) else (cutLine rest).map fun l => (c :: l.1, l.2)

def takeLine (buf : Bytes) : Option (Bytes × Bytes) :=
  (cutLine buf).map fun l => (stripLast carriageReturn l.1, l.2)

/-- What is still to come, and what has come and is not read. -/
structure ChStream where
  chunks : List Bytes
  buf : Bytes

def ChStream.text (s : ChStream) : Bytes := s.buf ++ s.chunks.flatten

structure RowWindow (R : Type*) where
  rows : List R
  exhausted : Bool

section Readers

variable {R : Type*} (r : LineReader R)

/-- The two header lines, with the text behind them in place of the bytes consumed. -/
def tryHeader (buf : Bytes) : Option (BlockHeader × Bytes) :=
  (cutLine buf).bind fun first => (cutLine first.2).bind fun second =>
    (r.strings first.1).bind fun names => (r.strings second.1).map fun types => ((names, types), second.2)

def openStream : List Bytes → Bytes → Option (BlockHeader × ChStream)
  | chunks, buf =>
    match tryHeader r buf with
    | some (h, rest) => some (h, ⟨chunks, rest⟩)
    | none =>
      match chunks with
      | [] => none
      | c :: chunks => openStream chunks (buf ++ c)

/-- The complete lines of the buffer, as long as there is room for a row. -/
def readLines : Nat → Option Nat → Bytes → Option (List R × Bytes)
  | 0, _, buf => some ([], buf)
  | fuel + 1, room, buf =>
    if room = some 0 then some ([], buf)
    else match takeLine buf with
      | none => some ([], buf)
      | some (line, rest) =>
        if line = [] then readLines fuel room rest
        else (r.row line).bind fun row =>
          (readLines fuel (room.map (· - 1)) rest).map fun read => (row :: read.1, read.2)

/-- The loop of the cursor and of the export. Behind the last chunk a line may have no end. -/
def readRows : Option Nat → List Bytes → Bytes → Option (RowWindow R × ChStream)
  | room, chunks, buf =>
    (readLines r buf.length room buf).bind fun (rows, buf) =>
      if room = some rows.length then some (⟨rows, false⟩, ⟨chunks, buf⟩)
      else match chunks with
        | [] =>
          if blank buf then some (⟨rows, true⟩, ⟨[], buf⟩)
          else (r.row buf).map fun row => (⟨rows ++ [row], true⟩, ⟨[], []⟩)
        | c :: chunks => (readRows (room.map (· - rows.length)) chunks (buf ++ c)).map fun w =>
            (⟨rows ++ w.1.rows, w.1.exhausted⟩, w.2)

def nextWindow (max : Nat) (s : ChStream) : Option (RowWindow R × ChStream) := readRows r (some max) s.chunks s.buf

/-- The windows of these sizes, up to one that is exhausted, and whether there is one. -/
def cursorRows : List Nat → ChStream → Option (List R × Bool)
  | [], _ => some ([], false)
  | max :: sizes, s => (nextWindow r max s).bind fun w =>
      if w.1.exhausted then some (w.1.rows, true)
      else (cursorRows sizes w.2).map fun rest => (w.1.rows ++ rest.1, rest.2)

def cursored (sizes : List Nat) (chunks : List Bytes) : Option (BlockHeader × List R × Bool) :=
  (openStream r chunks []).bind fun o => (cursorRows r sizes o.2).map (o.1, ·)

def exported (chunks : List Bytes) : Option (BlockHeader × List R) :=
  (openStream r chunks []).bind fun o => (readRows r none o.2.chunks o.2.buf).map fun w => (o.1, w.1.rows)

def parseBlock (body : Bytes) : Option (BlockHeader × List R) :=
  match (body.splitOn newline).filter fun l => !blank l with
  | names :: types :: rows =>
    (r.strings names).bind fun names => (r.strings types).bind fun types =>
      (rows.mapM r.row).map ((names, types), ·)
  | _ => none

/-- The rows of what stands behind the header, line by line. -/
def restRows : List Bytes → Option (List R)
  | [] => some []
  | [last] => if blank last then some [] else (r.row last).map ([·])
  | line :: lines =>
    if stripLast carriageReturn line = [] then restRows lines
    else (r.row line).bind fun row => (restRows lines).map (row :: ·)

def textRows (text : Bytes) : Option (List R) := restRows r (text.splitOn newline)

/-- Every line that is not blank is what it stands for. -/
def Legible (body : Bytes) : Prop :=
  ∃ names types rows, ((body.splitOn newline).filter fun l => !blank l) = names :: types :: rows ∧
    (r.strings names).isSome ∧ (r.strings types).isSome ∧ ∀ l ∈ rows, (r.row l).isSome

/-- The two header lines come first and have ended, and no line that has ended is blank but for a
carriage return. -/
def Framed (body : Bytes) : Prop :=
  ∃ names types lines last, body.splitOn newline = names :: types :: (lines ++ [last]) ∧
    blank names = false ∧ blank types = false ∧
      ∀ l ∈ lines, blank l = true → stripLast carriageReturn l = []

end Readers

/-! ## Lines -/

theorem cutLine_line {line : Bytes} (h : newline ∉ line) (rest : Bytes) :
    cutLine (line ++ newline :: rest) = some (line, rest) := by
  induction line with
  | nil => exact if_pos rfl
  | cons c line ih =>
    obtain ⟨hc, hline⟩ := not_or.mp (List.mem_cons.not.mp h)
    rw [List.cons_append, cutLine, if_neg (Ne.symm hc), ih hline]
    rfl

theorem cutLine_spec (buf : Bytes) : (newline ∉ buf ∧ cutLine buf = none) ∨
      ∃ line rest, newline ∉ line ∧ buf = line ++ newline :: rest ∧ cutLine buf = some (line, rest) := by
  by_cases h : newline ∈ buf
  · obtain ⟨line, rest, rfl, hline⟩ := List.eq_append_cons_of_mem h
    exact .inr ⟨line, rest, hline, rfl, cutLine_line hline rest⟩
  refine .inl ⟨h, ?_⟩
  induction buf with
  | nil => rfl
  | cons c buf ih =>
    obtain ⟨hc, hbuf⟩ := not_or.mp (List.mem_cons.not.mp h)
    rw [cutLine, if_neg (Ne.symm hc), ih hbuf]
    rfl

theorem splitOn_line {line : Bytes} (h : newline ∉ line) (rest : Bytes) :
    (line ++ newline :: rest).splitOn newline = line :: rest.splitOn newline :=
  List.splitOnP_append_cons_of_forall_mem (fun _ hc => beq_false_of_ne (ne_of_mem_of_not_mem hc h)) _
    (beq_self_eq_true _) _

theorem splitOn_last {line : Bytes} (h : newline ∉ line) : line.splitOn newline = [line] :=
  List.splitOnP_eq_singleton fun _ hc => beq_false_of_ne (ne_of_mem_of_not_mem hc h)

section Reading

variable {R : Type*} {r : LineReader R}

theorem row_strip (line : Bytes) : r.row (stripLast carriageReturn line) = r.row line := by
  rcases stripLast_spec carriageReturn line with h | h
  · rw [h]
  · conv_rhs => rw [h, r.row_return]

theorem textRows_line {line : Bytes} (h : newline ∉ line) (rest : Bytes) :
    textRows r (line ++ newline :: rest) =
      if stripLast carriageReturn line = [] then textRows r rest
      else (r.row line).bind fun row => (textRows r rest).map (row :: ·) := by
  obtain ⟨first, lines, hlines⟩ := List.exists_cons_of_ne_nil (List.splitOnP_ne_nil (· == newline) rest)
  rw [textRows, splitOn_line h, textRows, show rest.splitOn newline = _ from hlines, restRows]
  exact List.cons_ne_nil _ _

theorem textRows_last {last : Bytes} (h : newline ∉ last) :
    textRows r last = if blank last then some [] else (r.row last).map ([·]) := by
  rw [textRows, splitOn_last h, restRows]

/-- What the lines taken out leave: the rows behind them, whatever else comes in. -/
theorem readLines_spec {fuel : Nat} {room : Option Nat} {buf : Bytes} (hfuel : buf.length ≤ fuel) :
    match readLines r fuel room buf with
    | none => ∀ tail, textRows r (buf ++ tail) = none
    | some (rows, left) =>
      (∀ tail, textRows r (buf ++ tail) = (textRows r (left ++ tail)).map (rows ++ ·)) ∧
        (∀ n ∈ room, rows.length ≤ n) ∧ (room ≠ some rows.length → newline ∉ left) := by
  have hsame (buf : Bytes) (tail : Bytes) :
      textRows r (buf ++ tail) = (textRows r (buf ++ tail)).map (([] : List R) ++ ·) := by simp
  induction fuel generalizing room buf with
  | zero =>
    obtain rfl := List.length_eq_zero_iff.mp (Nat.le_zero.mp hfuel)
    exact ⟨hsame [], fun _ _ => Nat.zero_le _, fun _ => List.not_mem_nil⟩
  | succ fuel ih =>
    rw [readLines]
    by_cases hroom : room = some 0
    · rw [if_pos hroom]
      exact ⟨hsame buf, fun _ _ => Nat.zero_le _, fun h => absurd hroom h⟩
    rw [if_neg hroom, takeLine]
    rcases cutLine_spec buf with ⟨hnone, hcut⟩ | ⟨line, rest, hline, rfl, hcut⟩
    · rw [hcut]
      exact ⟨hsame buf, fun _ _ => Nat.zero_le _, fun _ => hnone⟩
    rw [hcut, Option.map_some]
    dsimp only
    have hshort : rest.length ≤ fuel := by
      rw [List.length_append, List.length_cons] at hfuel
      omega
    have htext (tail : Bytes) := textRows_line (r := r) hline (rest ++ tail)
    simp only [List.append_assoc, List.cons_append]
    by_cases hempty : stripLast carriageReturn line = []
    · simp only [htext, if_pos hempty]
      exact ih hshort
    simp only [htext, if_neg hempty, row_strip]
    cases r.row line with
    | none => exact fun _ => rfl
    | some row =>
      have hrest := @ih (room.map (· - 1)) rest hshort
      cases hread : readLines r fuel (room.map (· - 1)) rest with
      | none =>
        rw [hread] at hrest
        exact fun tail => by rw [Option.bind_some, hrest tail]; rfl
      | some read =>
        obtain ⟨rows, left⟩ := read
        rw [hread] at hrest
        obtain ⟨hrows, hfits, hdone⟩ := hrest
        refine ⟨fun tail => ?_, fun n hn => ?_, fun hmore => hdone fun hfull => hmore ?_⟩
        · rw [Option.bind_some, hrows tail, Option.map_map]
          rfl
        · obtain rfl : room = some n := hn
          have hle : rows.length ≤ n - 1 := hfits (n - 1) rfl
          have : n ≠ 0 := fun hzero => hroom (congrArg some hzero)
          exact Nat.add_le_of_le_sub (Nat.one_le_iff_ne_zero.mpr this) hle
        · obtain ⟨n, rfl, hn⟩ := Option.map_eq_some_iff.mp hfull
          have : n ≠ 0 := fun hzero => hroom (congrArg some hzero)
          rw [List.length_cons, ← hn, Nat.sub_add_cancel (Nat.one_le_iff_ne_zero.mpr this)]

/-- What a reader leaves: the rows behind those it has read, and none behind the last window. One that is
not the last is full. -/
theorem readRows_spec (room : Option Nat) (chunks : List Bytes) (buf : Bytes) :
    match readRows r room chunks buf with
    | none => textRows r (buf ++ chunks.flatten) = none
    | some (w, s) =>
      textRows r (buf ++ chunks.flatten) = (textRows r s.text).map (w.rows ++ ·) ∧
        if w.exhausted then textRows r s.text = some [] else room = some w.rows.length := by
  have hread := @readLines_spec _ r
  induction chunks generalizing room buf
  all_goals
    specialize @hread buf.length room buf (Nat.le_refl _)
    rw [readRows]
    rcases hlines : readLines r buf.length room buf with _ | ⟨rows, left⟩ <;> rw [hlines] at hread
    · exact hread _
    obtain ⟨hrows, hfits, hdone⟩ := hread
    rw [Option.bind_some, hrows]
    dsimp only
    by_cases hfull : room = some rows.length
    · rw [if_pos hfull]
      exact ⟨rfl, hfull⟩
    rw [if_neg hfull]
  · have hlast := textRows_last (r := r) (hdone hfull)
    rw [List.flatten_nil, List.append_nil, hlast]
    by_cases hblank : blank left = true
    · rw [if_pos hblank, if_pos hblank]
      refine ⟨?_, ?_⟩ <;> rw [ChStream.text, List.flatten_nil, List.append_nil, hlast, if_pos hblank]
      rfl
    rw [if_neg hblank, if_neg hblank]
    cases r.row left with
    | none => rfl
    | some row =>
      have hnil : textRows r (ChStream.text ⟨[], []⟩) = some [] := textRows_last List.not_mem_nil
      exact ⟨by rw [hnil]; simp, hnil⟩
  · rename_i c chunks ih
    rw [List.flatten_cons, ← List.append_assoc]
    have hrest := ih (room.map (· - rows.length)) (left ++ c)
    rcases hmore : readRows r (room.map (· - rows.length)) chunks (left ++ c) with _ | ⟨w, s⟩ <;> rw [hmore] at hrest
    · rw [show textRows r _ = none from hrest]
      rfl
    obtain ⟨hsame, hends⟩ := hrest
    refine ⟨?_, ?_⟩
    · rw [hsame, Option.map_map]
      exact congrArg (Option.map · _) (funext fun l => (List.append_assoc ..).symm)
    · dsimp only at hends ⊢
      split at hends
      · rename_i hex
        rwa [if_pos hex]
      rename_i hopen
      rw [if_neg hopen, List.length_append]
      obtain ⟨n, rfl, hn⟩ := Option.map_eq_some_iff.mp hends
      have hle : rows.length ≤ n := hfits n rfl
      exact congrArg some (by omega)

theorem cutLine_append {buf line rest : Bytes} (h : cutLine buf = some (line, rest)) (tail : Bytes) :
    cutLine (buf ++ tail) = some (line, rest ++ tail) := by
  rcases cutLine_spec buf with ⟨-, hnone⟩ | ⟨line', rest', hline, rfl, hcut⟩
  · rw [hnone] at h
    cases h
  · obtain ⟨rfl, rfl⟩ := Prod.mk.inj (Option.some.inj (hcut.symm.trans h))
    rw [List.append_assoc]
    exact cutLine_line hline _

theorem tryHeader_eq_some {buf rest : Bytes} {h : BlockHeader} : tryHeader r buf = some (h, rest) ↔
    ∃ first second behind, cutLine buf = some (first, behind) ∧ cutLine behind = some (second, rest) ∧
      r.strings first = some h.1 ∧ r.strings second = some h.2 := by
  simp only [tryHeader, Option.bind_eq_some_iff, Option.map_eq_some_iff]
  constructor
  · rintro ⟨⟨first, behind⟩, hfirst, ⟨second, rest⟩, hsecond, names, hnames, types, htypes, heq⟩
    cases heq
    exact ⟨first, second, behind, hfirst, hsecond, hnames, htypes⟩
  · rintro ⟨first, second, behind, hfirst, hsecond, hnames, htypes⟩
    exact ⟨(first, behind), hfirst, (second, rest), hsecond, h.1, hnames, h.2, htypes, rfl⟩

theorem openStream_spec (chunks : List Bytes) (buf : Bytes) :
    (openStream r chunks buf).map (fun o => (o.1, o.2.text)) = tryHeader r (buf ++ chunks.flatten) := by
  induction chunks generalizing buf with
  | nil =>
    rw [openStream, List.flatten_nil, List.append_nil]
    split
    · rename_i h rest hheader
      rw [hheader, Option.map_some, ChStream.text, List.flatten_nil, List.append_nil]
    · rename_i hnone
      exact hnone.symm
  | cons c chunks ih =>
    rw [openStream]
    split
    · rename_i h rest hheader
      obtain ⟨first, second, behind, hfirst, hsecond, hstrings⟩ := tryHeader_eq_some.mp hheader
      exact (tryHeader_eq_some.mpr
        ⟨first, second, _, cutLine_append hfirst _, cutLine_append hsecond _, hstrings⟩).symm
    · rw [List.flatten_cons, ← List.append_assoc]
      exact ih _

/-- The header and the rows of an answer that is all there. -/
def streamed (r : LineReader R) (body : Bytes) : Option (BlockHeader × List R) :=
  (tryHeader r body).bind fun h => (textRows r h.2).map (h.1, ·)

/-- What the windows read come to: all rows of the answer, or as many as there is room for. -/
def Reads (sizes : List Nat) (all : Option (BlockHeader × List R)) :
    Option (BlockHeader × List R × Bool) → Prop
  | none => all = none
  | some (h, rows, true) => all = some (h, rows)
  | some (h, rows, false) => rows.length = sizes.sum ∧ ∀ block ∈ all, block.1 = h ∧ rows <+: block.2

theorem cursorRows_reads (h : BlockHeader) (sizes : List Nat) (s : ChStream) :
    Reads sizes ((textRows r s.text).map (h, ·)) ((cursorRows r sizes s).map (h, ·)) := by
  induction sizes generalizing s with
  | nil =>
    refine ⟨rfl, fun block hblock => ?_⟩
    obtain ⟨rows, -, rfl⟩ := Option.map_eq_some_iff.mp hblock
    exact ⟨rfl, List.nil_prefix⟩
  | cons max sizes ih =>
    have hread := readRows_spec (r := r) (some max) s.chunks s.buf
    rw [cursorRows, nextWindow]
    cases hwindow : readRows r (some max) s.chunks s.buf with
    | none =>
      rw [hwindow] at hread
      exact congrArg (Option.map _) hread
    | some read =>
      obtain ⟨w, left⟩ := read
      rw [hwindow] at hread
      obtain ⟨hsame, hends⟩ := hread
      rw [Option.bind_some, ChStream.text, hsame]
      dsimp only at hends ⊢
      split at hends
      · rename_i hex
        rw [if_pos hex, hends, Option.map_some, Option.map_some, List.append_nil]
        rfl
      rename_i hopen
      rw [if_neg hopen]
      have hrest := ih left
      rcases hcursor : cursorRows r sizes left with _ | ⟨rows, _ | _⟩ <;> rw [hcursor] at hrest
      · rw [Option.map_eq_none_iff.mp hrest]
        rfl
      · obtain ⟨hsum, hshorter⟩ := hrest
        refine ⟨?_, fun block hblock => ?_⟩
        · rw [List.length_append, List.sum_cons, hsum, Option.some.inj hends]
        · simp only [Option.map_map, Option.mem_def, Option.map_eq_some_iff] at hblock
          obtain ⟨all, hall, rfl⟩ := hblock
          refine ⟨rfl, (List.prefix_append_right_inj _).mpr (hshorter (h, all) ?_).2⟩
          rw [hall]
          rfl
      · obtain ⟨all, hall, heq⟩ := Option.map_eq_some_iff.mp hrest
        rw [hall]
        cases heq
        rfl

/-- How an answer is cut into chunks does not show. -/
theorem readers_body (r : LineReader R) (chunks : List Bytes) :
    exported r chunks = streamed r chunks.flatten ∧
      ∀ sizes, Reads sizes (streamed r chunks.flatten) (cursored r sizes chunks) := by
  have hopened := openStream_spec (r := r) chunks []
  rw [List.nil_append] at hopened
  rw [exported, streamed, ← hopened]
  unfold cursored
  cases openStream r chunks [] with
  | none => exact ⟨rfl, fun _ => rfl⟩
  | some o =>
    simp only [Option.map_some, Option.bind_some]
    refine ⟨?_, fun sizes => cursorRows_reads o.1 sizes o.2⟩
    have hread := readRows_spec (r := r) none o.2.chunks o.2.buf
    cases hrows : readRows r none o.2.chunks o.2.buf with
    | none =>
      rw [hrows] at hread
      exact (congrArg (Option.map _) hread).symm
    | some read =>
      obtain ⟨w, left⟩ := read
      rw [hrows] at hread
      obtain ⟨hsame, hends⟩ := hread
      split at hends
      · rw [ChStream.text, hsame, hends]
        simp
      · cases hends

end Reading

/-! ## The whole answer -/

section Block

variable {R : Type*} {r : LineReader R}

theorem blank_strip {line : Bytes} (h : stripLast carriageReturn line = []) : blank line = true := by
  rcases stripLast_spec carriageReturn line with hsame | hsame
  · rw [hsame.symm.trans h]
    rfl
  · rw [hsame, h]
    rfl

theorem restRows_cons (line : Bytes) {lines : List Bytes} (h : lines ≠ []) :
    restRows r (line :: lines) = if stripLast carriageReturn line = [] then restRows r lines
      else (r.row line).bind fun row => (restRows r lines).map (row :: ·) := by
  rw [restRows]
  exact h

theorem restRows_framed (lines : List Bytes) (last : Bytes) :
    (∀ l ∈ lines, blank l = true → stripLast carriageReturn l = []) ∧
        restRows r (lines ++ [last]) = ((lines ++ [last]).filter fun l => !blank l).mapM r.row ∨
      restRows r (lines ++ [last]) = none ∧ ∃ l ∈ lines, blank l = true ∧ stripLast carriageReturn l ≠ [] := by
  induction lines with
  | nil =>
    refine .inl ⟨List.forall_mem_nil _, ?_⟩
    rw [List.nil_append, restRows, List.filter_singleton]
    cases blank last
    · simp [Option.map_eq_bind, Function.comp_def]
    · simp
  | cons line lines ih =>
    rw [List.cons_append, restRows_cons _ (List.append_ne_nil_of_right_ne_nil _ (List.cons_ne_nil _ _))]
    by_cases hempty : stripLast carriageReturn line = []
    · rw [if_pos hempty, List.filter_cons_of_neg (by simp [blank_strip hempty])]
      refine ih.imp (fun h => ⟨List.forall_mem_cons.mpr ⟨fun _ => hempty, h.1⟩, h.2⟩) fun ⟨hnone, l, hl, hbad⟩ => ?_
      exact ⟨hnone, l, List.mem_cons_of_mem _ hl, hbad⟩
    rw [if_neg hempty]
    by_cases hblank : blank line = true
    · refine .inr ⟨?_, line, List.mem_cons_self, hblank, hempty⟩
      rw [r.row_blank line hblank]
      rfl
    rw [List.filter_cons_of_pos (by simpa using hblank), List.mapM_cons]
    refine ih.imp (fun h => ⟨List.forall_mem_cons.mpr ⟨fun h => absurd h hblank, h.1⟩, ?_⟩)
      fun ⟨hnone, l, hl, hbad⟩ => ⟨?_, l, List.mem_cons_of_mem _ hl, hbad⟩
    · rw [h.2]
      cases r.row line <;> cases List.mapM r.row (List.filter (fun l => !blank l) (lines ++ [last])) <;> rfl
    · rw [hnone]
      cases r.row line <;> rfl

theorem mapM_isSome (lines : List Bytes) : (lines.mapM r.row).isSome ↔ ∀ l ∈ lines, (r.row l).isSome := by
  induction lines with
  | nil => simp
  | cons l lines ih =>
    rw [List.forall_mem_cons, ← ih, List.mapM_cons]
    cases r.row l <;> cases lines.mapM r.row <;> simp

theorem parseBlock_isSome (body : Bytes) : (parseBlock r body).isSome ↔ Legible r body := by
  unfold parseBlock Legible
  split
  · rename_i names types rows hlines
    simp only [hlines, List.cons.injEq]
    constructor
    · intro h
      obtain ⟨block, hblock⟩ := Option.isSome_iff_exists.mp h
      simp only [Option.bind_eq_some_iff, Option.map_eq_some_iff] at hblock
      obtain ⟨_, hnames, _, htypes, _, hrows, -⟩ := hblock
      exact ⟨names, types, rows, ⟨rfl, rfl, rfl⟩, by rw [hnames]; rfl, by rw [htypes]; rfl,
        (mapM_isSome rows).mp (by rw [hrows]; rfl)⟩
    · rintro ⟨_, _, _, ⟨rfl, rfl, rfl⟩, hnames, htypes, hrows⟩
      obtain ⟨names, hnames⟩ := Option.isSome_iff_exists.mp hnames
      obtain ⟨types, htypes⟩ := Option.isSome_iff_exists.mp htypes
      obtain ⟨rows, hrows⟩ := Option.isSome_iff_exists.mp ((mapM_isSome _).mpr hrows)
      rw [hnames, htypes, hrows]
      rfl
  · rename_i hshort
    exact iff_of_false Bool.false_ne_true fun ⟨names, types, rows, hlines, _⟩ => hshort names types rows hlines

/-- Where an answer is framed as its format has it, the readers agree; otherwise those that stream fail. -/
theorem streamed_framed (body : Bytes) :
    Framed body ∧ streamed r body = parseBlock r body ∨ ¬ Framed body ∧ streamed r body = none := by
  rcases cutLine_spec body with ⟨hend, hcut⟩ | ⟨names, behind, hnames, rfl, hcut⟩
  · refine .inr ⟨fun ⟨_, _, _, _, hlines, _⟩ => ?_, by rw [streamed, tryHeader, hcut]; rfl⟩
    rw [splitOn_last hend] at hlines
    cases hlines
  rcases cutLine_spec behind with ⟨hend, hcut'⟩ | ⟨types, rest, htypes, rfl, hcut'⟩
  · refine .inr ⟨fun ⟨_, _, lines, _, hlines, _⟩ => ?_, by rw [streamed, tryHeader, hcut, Option.bind_some, hcut']; rfl⟩
    rw [splitOn_line hnames, splitOn_last hend] at hlines
    exact List.append_ne_nil_of_right_ne_nil lines (List.cons_ne_nil _ _) (List.cons.inj (List.cons.inj hlines).2).2.symm
  obtain ⟨lines, last, hrest⟩ : ∃ lines last, rest.splitOn newline = lines ++ [last] :=
    ⟨_, _, (List.dropLast_append_getLast (List.splitOnP_ne_nil (· == newline) rest)).symm⟩
  have hlines : (names ++ newline :: (types ++ newline :: rest)).splitOn newline = names :: types :: (lines ++ [last]) := by
    rw [splitOn_line hnames, splitOn_line htypes, hrest]
  have hframed : Framed (names ++ newline :: (types ++ newline :: rest)) ↔ blank names = false ∧ blank types = false ∧
      ∀ l ∈ lines, blank l = true → stripLast carriageReturn l = [] := by
    constructor
    · rintro ⟨_, _, _, _, heq, h⟩
      obtain ⟨hfirst, hbehind⟩ := List.cons.inj (hlines.symm.trans heq)
      obtain ⟨hsecond, hrows⟩ := List.cons.inj hbehind
      rwa [hfirst, hsecond, (List.append_inj' hrows rfl).1]
    · exact fun h => ⟨names, types, lines, last, hlines, h⟩
  have hstream : streamed r (names ++ newline :: (types ++ newline :: rest)) = (r.strings names).bind fun names =>
      (r.strings types).bind fun types => (restRows r (lines ++ [last])).map ((names, types), ·) := by
    rw [streamed, tryHeader, hcut, Option.bind_some, hcut', ← hrest]
    dsimp only [Option.bind_some]
    cases r.strings names <;> cases r.strings types <;> rfl
  rw [hframed, hstream]
  cases hn : blank names with
  | true => exact .inr ⟨fun h => Bool.false_ne_true h.1.symm, by rw [r.strings_blank names hn]; rfl⟩
  | false =>
    cases ht : blank types with
    | true =>
      refine .inr ⟨fun h => Bool.false_ne_true h.2.1.symm, ?_⟩
      rw [r.strings_blank types ht]
      cases r.strings names <;> rfl
    | false =>
      rcases restRows_framed (r := r) lines last with ⟨hlast, hrows⟩ | ⟨hrows, l, hl, hbad, hne⟩
      · refine .inl ⟨⟨rfl, rfl, hlast⟩, ?_⟩
        rw [parseBlock, hlines, List.filter_cons_of_pos (by rw [hn]; rfl), List.filter_cons_of_pos (by rw [ht]; rfl),
          hrows]
      · refine .inr ⟨fun h => hne (h.2.2 l hl hbad), ?_⟩
        rw [hrows]
        cases r.strings names <;> cases r.strings types <;> rfl

end Block

/-- The three readers have the same header and the same rows of an answer, in windows of any sizes, exactly
when it is framed as the format has it or has a line that none of them can read; and a window that is not
the last is full. -/
theorem readers_iff {R : Type*} (r : LineReader R) (chunks : List Bytes) :
    ((exported r chunks = parseBlock r chunks.flatten ∧
        ∀ sizes, Reads sizes (parseBlock r chunks.flatten) (cursored r sizes chunks)) ↔
      (Legible r chunks.flatten → Framed chunks.flatten)) ∧
    ∀ max s w s', nextWindow r max s = some (w, s') → w.exhausted = false → w.rows.length = max := by
  obtain ⟨hexport, hcursor⟩ := readers_body r chunks
  refine ⟨⟨fun ⟨hsame, _⟩ hlegible => ?_, fun h => ?_⟩, fun max s w s' hwindow hopen => ?_⟩
  · rcases streamed_framed (r := r) chunks.flatten with ⟨hframed, -⟩ | ⟨-, hnone⟩
    · exact hframed
    · rw [← parseBlock_isSome, ← hsame, hexport, hnone] at hlegible
      cases hlegible
  · have hsame : streamed r chunks.flatten = parseBlock r chunks.flatten := by
      rcases streamed_framed (r := r) chunks.flatten with ⟨-, hsame⟩ | ⟨hframed, hnone⟩
      · exact hsame
      · rw [hnone, eq_comm, ← Option.not_isSome_iff_eq_none, parseBlock_isSome]
        exact mt h hframed
    exact ⟨hexport.trans hsame, hsame ▸ hcursor⟩
  · have hread := readRows_spec (r := r) (some max) s.chunks s.buf
    rw [nextWindow] at hwindow
    rw [hwindow] at hread
    have hends := hread.2
    rw [hopen] at hends
    exact (Option.some.inj hends).symm

/-- A JSON library that knows one line of strings and one row. -/
def oneRow : LineReader Nat where
  strings l := if TextLines.trimEnd isAsciiWhitespace l = ascii "[\"n\"]" then some [ascii "n"] else none
  row l := if TextLines.trimEnd isAsciiWhitespace l = ascii "[1]" then some 1 else none
  strings_blank l h := if_neg fun heq => by
    rw [TextLines.trimEnd, List.rdropWhile_eq_nil_iff.mpr (List.all_eq_true.mp h)] at heq
    exact absurd heq (by decide)
  row_blank l h := if_neg fun heq => by
    rw [TextLines.trimEnd, List.rdropWhile_eq_nil_iff.mpr (List.all_eq_true.mp h)] at heq
    exact absurd heq (by decide)
  row_return l := by rw [TextLines.trimEnd_append (by decide)]

/-- A blank between two rows fails the cursor and the export, and `parse_block` passes it over. -/
theorem blank_line_fails :
    exported oneRow [ascii "[\"n\"]\n[\"n\"]\n[1]\n \n[1]\n"] = none ∧
      parseBlock oneRow (ascii "[\"n\"]\n[\"n\"]\n[1]\n \n[1]\n") = some (([ascii "n"], [ascii "n"]), [1, 1]) := by
  decide +kernel

end RedDb.Driver
