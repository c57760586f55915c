import Mathlib
import RedDb.Config.Queries

/-!
# RedDb — the header of a saved query

The header that is written in front of a text is read back as it was meant if its name and its
description are one line each; no line of the text behind it is read with it.

* `lines_body` — the first line that is left of a text is not one of a header;
* `readHeader_saved` — what is read back of the header that is written;
* `readHeader_clear` — nothing that is read holds a line feed.
-/

namespace RedDb.Config.Queries

open TextCodec JsonText Delimited
open RedDb.Transfer (isWhite)

/-- The lines of a text that are read as its header. -/
def headerLines (t : Text) : List Text := (lines t).takeWhile inHeader

/-- The text that is left to the engine when the managed lines at the head and the blanks at the
end are left out and all lines end alike. -/
def body (t : Text) : Text := trimEnd (stripManagedHeader t) ++ ['\n']

/-! ## Texts -/

theorem stripPrefix_append (p t : Text) : stripPrefix p (p ++ t) = some t := by
  unfold stripPrefix
  rw [if_pos (List.prefix_append p t), List.drop_left]

theorem stripPrefix_eq {p t u : Text} (h : stripPrefix p t = some u) : t = p ++ u := by
  unfold stripPrefix at h
  split_ifs at h with hp
  obtain ⟨v, rfl⟩ := hp
  rw [List.drop_left] at h
  rw [Option.some.inj h]

theorem stripPrefix_none {p t : Text} (h : ¬p <+: t) : stripPrefix p t = none := if_neg h

theorem isWhite_return : isWhite '\r' = true := by decide

theorem slug_ne_nil (name : Text) : slug name ≠ [] := by
  unfold slug
  dsimp only
  split
  · decide
  · next h => exact h

/-- A slug is made of letters, digits and dashes. -/
theorem mem_slug {name : Text} {c : Char} (h : c ∈ slug name) :
    c = '-' ∨ (∃ d : Char, d.isAlphanum = true ∧ c = d.toLower) := by
  unfold slug at h
  dsimp only at h
  split at h
  · refine .inr ⟨c, ?_⟩
    revert h
    revert c
    decide
  · have hmem := (List.dropWhile_sublist _).subset ((List.rdropWhile_prefix _ _).subset h)
    obtain ⟨d, -, rfl⟩ := List.mem_map.mp hmem
    split
    · next hd => exact .inr ⟨d, hd, rfl⟩
    · exact .inl rfl

theorem isAlphanum_toLower {d : Char} (h : d.isAlphanum = true) : d.toLower.isAlphanum = true := by
  unfold Char.toLower
  split
  · next hu =>
    have hlow : 'a'.val ≤ d.val + ('a'.val - 'A'.val) ∧ d.val + ('a'.val - 'A'.val) ≤ 'z'.val := by
      obtain ⟨hge, hle⟩ := hu
      rw [ge_iff_le, UInt32.le_iff_toNat_le] at hge
      rw [UInt32.le_iff_toNat_le] at hle
      have hge' : 65 ≤ d.val.toNat := hge
      have hle' : d.val.toNat ≤ 90 := hle
      have hsum : (d.val + ('a'.val - 'A'.val)).toNat = d.val.toNat + 32 := by
        rw [UInt32.toNat_add]
        exact Nat.mod_eq_of_lt (show d.val.toNat + 32 < 2 ^ 32 by omega)
      rw [UInt32.le_iff_toNat_le, UInt32.le_iff_toNat_le, hsum]
      exact ⟨show 97 ≤ d.val.toNat + 32 by omega, show d.val.toNat + 32 ≤ 122 by omega⟩
    simp only [Char.isAlphanum, Char.isAlpha, Char.isLower, Bool.or_eq_true, Bool.and_eq_true,
      decide_eq_true_eq]
    exact .inl (.inr hlow)
  · exact h

theorem slug_clear {c : Char} (h : c.isAlphanum = false) (hdash : c ≠ '-') (name : Text) : c ∉ slug name := by
  intro hmem
  rcases mem_slug hmem with rfl | ⟨d, hd, rfl⟩
  · exact hdash rfl
  · rw [isAlphanum_toLower hd] at h
    exact absurd h (by decide)

theorem unslug_ne_nil {stem : Text} (h : stem ≠ []) : unslug stem ≠ [] := by
  unfold unslug
  dsimp only
  split
  · exact h
  · next h => exact h

theorem unslug_clear {stem : Text} (h : '\n' ∉ stem) : '\n' ∉ unslug stem := by
  unfold unslug
  dsimp only
  split
  · exact h
  intro hmem
  obtain ⟨c, hc, heq⟩ := List.mem_map.mp (TextLines.mem_of_mem_trim hmem)
  split at heq
  · exact absurd heq (by decide)
  · exact h (heq ▸ hc)

/-- The name that is shown: what the header says, or the slug's. -/
theorem shownName_spec {name : Option Text} {stem : Text} (hstem : stem ≠ []) (hclear : '\n' ∉ stem)
    (hname : ∀ n, name = some n → '\n' ∉ n) :
    (name.filter fun s => !s.isEmpty).getD (unslug stem) ≠ [] ∧
      '\n' ∉ (name.filter fun s => !s.isEmpty).getD (unslug stem) := by
  cases name with
  | none => exact ⟨unslug_ne_nil hstem, unslug_clear hclear⟩
  | some n =>
    rw [Option.filter_some]
    split
    · next hn => exact ⟨by simpa using hn, hname n rfl⟩
    · exact ⟨unslug_ne_nil hstem, unslug_clear hclear⟩

/-! ## Header lines -/

/-- Whether a line belongs to the header is seen on it trimmed. -/
theorem inHeader_congr {a b : Text} (h : trim a = trim b) : inHeader a = inHeader b := by
  unfold inHeader
  rw [h]

theorem readHeader_blank {line : Text} (h : trim line = []) (hdr : Header) (rest : List Text) :
    readHeader hdr (line :: rest) = readHeader hdr rest := by
  rw [readHeader]
  dsimp only
  rw [if_pos h]

/-- The first line that is not managed ends the header. -/
theorem readHeader_stop {line : Text} (h : inHeader line = false) (hdr : Header) (rest : List Text) :
    readHeader hdr (line :: rest) = hdr := by
  unfold inHeader at h
  dsimp only at h
  rw [Bool.or_eq_false_iff] at h
  obtain ⟨hne, hmanaged⟩ := h
  rw [readHeader]
  dsimp only
  rw [if_neg (by simpa using hne)]
  cases hcomment : stripPrefix dashes (trim line) with
  | none => rfl
  | some comment =>
    rw [hcomment] at hmanaged
    dsimp only at hmanaged
    rw [Bool.or_eq_false_iff, Bool.or_eq_false_iff, decide_eq_false_iff_not, decide_eq_false_iff_not,
      decide_eq_false_iff_not] at hmanaged
    obtain ⟨⟨hname, hdescription⟩, htags⟩ := hmanaged
    dsimp only
    rw [stripPrefix_none hname]
    dsimp only
    rw [stripPrefix_none hdescription]
    dsimp only
    rw [stripPrefix_none htags]

/-- A text behind another ends as it does alone. -/
theorem last_behind {p t : Text} (hne : t ≠ []) (h : ∀ c ∈ t.getLast?, isWhite c = false) :
    ∀ c ∈ (p ++ t).getLast?, isWhite c = false := by
  rw [List.getLast?_append_of_ne_nil p hne]
  exact h

theorem trim_space (t : Text) : trim (' ' :: t) = trim t :=
  TextLines.trim_front (u := [' ']) (by decide)

/-- A comment line of a key and a trimmed text is read as the two. -/
theorem keyed_line (key : Text) {n : Text} (hkey : ∀ c ∈ key.head?, isWhite c = false) (hne : key ≠ [])
    (hcolon : ∀ c ∈ key.getLast?, isWhite c = false) (hn : trim n = n) :
    ∃ w, trim (dashes ++ [' '] ++ key ++ ' ' :: n) = dashes ++ (' ' :: (key ++ w)) ∧
      trim (' ' :: (key ++ w)) = key ++ w ∧ trim w = n := by
  have hfirst (w : Text) : ∀ c ∈ (key ++ w).head?, isWhite c = false := by
    obtain ⟨k, key, rfl⟩ := List.exists_cons_of_ne_nil hne
    rintro c ⟨⟩
    exact hkey _ rfl
  have hdash (w : Text) : ∀ c ∈ (dashes ++ [' '] ++ w).head?, isWhite c = false := by
    rintro c ⟨⟩
    decide
  by_cases hnil : n = []
  · subst hnil
    refine ⟨[], ?_, ?_, rfl⟩
    · refine (TextLines.trim_append (u := [' ']) (by decide)).trans ?_
      rw [List.append_nil]
      exact (TextLines.trim_ends (hdash key) (last_behind hne hcolon)).trans (List.append_assoc _ _ _)
    · rw [trim_space, List.append_nil]
      exact TextLines.trim_ends hkey hcolon
  · have hlast : ∀ c ∈ (' ' :: n).getLast?, isWhite c = false :=
      last_behind (p := [' ']) hnil (hn ▸ TextLines.last_trim isWhite n)
    refine ⟨' ' :: n, ?_, ?_, (trim_space n).trans hn⟩
    · refine (TextLines.trim_ends ?_ (last_behind (List.cons_ne_nil _ _) hlast)).trans ?_
      · rw [List.append_assoc]
        exact hdash _
      · simp
    · rw [trim_space]
      exact TextLines.trim_ends (hfirst _) (last_behind (List.cons_ne_nil _ _) hlast)

theorem keyed_name {n : Text} (hn : trim n = n) :
    ∃ w, trim ("-- name: ".toList ++ n) = dashes ++ (' ' :: (nameKey ++ w)) ∧
      trim (' ' :: (nameKey ++ w)) = nameKey ++ w ∧ trim w = n :=
  keyed_line nameKey (by decide) (by decide) (by decide) hn

theorem keyed_description {d : Text} (hd : trim d = d) :
    ∃ w, trim ("-- description: ".toList ++ d) = dashes ++ (' ' :: (descriptionKey ++ w)) ∧
      trim (' ' :: (descriptionKey ++ w)) = descriptionKey ++ w ∧ trim w = d :=
  keyed_line descriptionKey (by decide) (by decide) (by decide) hd

theorem readHeader_name {n : Text} (hn : trim n = n) (hdr : Header) (rest : List Text) :
    readHeader hdr (("-- name: ".toList ++ n) :: rest) = readHeader { hdr with name := some n } rest := by
  obtain ⟨w, hline, hcomment, hw⟩ := keyed_name hn
  rw [readHeader]
  dsimp only
  rw [hline, if_neg (by simp [dashes]), stripPrefix_append]
  dsimp only
  rw [hcomment, stripPrefix_append]
  dsimp only
  rw [hw]

theorem readHeader_description {d : Text} (hd : trim d = d) (hne : d ≠ []) (hdr : Header) (rest : List Text) :
    readHeader hdr (("-- description: ".toList ++ d) :: rest) =
      readHeader { hdr with description := some d } rest := by
  obtain ⟨w, hline, hcomment, hw⟩ := keyed_description hd
  have hname : ¬nameKey <+: descriptionKey ++ w := by
    rintro ⟨v, hv⟩
    have hn : nameKey = 'n' :: "ame:".toList := by decide
    have hd : descriptionKey = 'd' :: "escription:".toList := by decide
    rw [hn, hd, List.cons_append, List.cons_append] at hv
    exact absurd (List.cons.inj hv).1 (by decide)
  rw [readHeader]
  dsimp only
  rw [hline, if_neg (by simp [dashes]), stripPrefix_append]
  dsimp only
  rw [hcomment, stripPrefix_none hname]
  dsimp only
  rw [stripPrefix_append]
  dsimp only
  rw [hw, Option.filter_some, if_pos (by simpa using hne)]

theorem inHeader_name {n : Text} (hn : trim n = n) : inHeader ("-- name: ".toList ++ n) = true := by
  obtain ⟨w, hline, hcomment, -⟩ := keyed_name hn
  unfold inHeader
  dsimp only
  rw [hline, stripPrefix_append]
  dsimp only
  rw [hcomment]
  simp only [List.prefix_append, decide_true, Bool.true_or, Bool.or_true]

theorem inHeader_description {d : Text} (hd : trim d = d) : inHeader ("-- description: ".toList ++ d) = true := by
  obtain ⟨w, hline, hcomment, -⟩ := keyed_description hd
  unfold inHeader
  dsimp only
  rw [hline, stripPrefix_append]
  dsimp only
  rw [hcomment]
  simp only [List.prefix_append, decide_true, Bool.true_or, Bool.or_true]

/-- A trimmed text behind another does not end in a carriage return. -/
theorem lines_trimmed {p n : Text} (hp : '\n' ∉ p ++ n) (hlast : p.getLast? ≠ some '\r') (hn : trim n = n)
    (rest : Text) : lines (p ++ n ++ '\n' :: rest) = (p ++ n) :: lines rest := by
  refine (TextLines.lines_line hp rest).trans ?_
  rw [TextLines.stripLast_last]
  by_cases hnil : n = []
  · rwa [hnil, List.append_nil]
  rw [List.getLast?_append_of_ne_nil p hnil]
  intro hr
  have hwhite := TextLines.last_trim isWhite n '\r'
  rw [show TextLines.trim isWhite n = n from hn] at hwhite
  exact absurd (hwhite hr) (by decide)

/-! ## The text behind the header -/

/-- The first line that is left of a text is not one of a header. -/
theorem lines_body (t : Text) :
    lines (body t) = [[]] ∨ ∃ line rest, lines (body t) = line :: rest ∧ inHeader line = false := by
  unfold body stripManagedHeader
  cases hls : (lines t).dropWhile inHeader with
  | nil => exact .inl rfl
  | cons first ls =>
    right
    have hfirst : inHeader first = false := by
      have hne : (lines t).dropWhile inHeader ≠ [] := by rw [hls]; exact List.cons_ne_nil first ls
      have := List.head_dropWhile_not inHeader hne
      simpa [hls] using this
    have hclear : '\n' ∉ first := by
      refine TextLines.lines_clear '\n' '\r' t ?_
      exact (List.dropWhile_sublist inHeader).subset (hls ▸ List.mem_cons_self)
    have htrimmed : ∃ u, (∀ c ∈ u, isWhite c = true) ∧ first = trimEnd first ++ u :=
      (TextLines.trimEnd_spec isWhite first).imp fun u hu => ⟨hu.1, hu.2.1⟩
    obtain ⟨u, hu, hsplit⟩ := htrimmed
    have hsame : trim (trimEnd first) = trim first := by
      conv_rhs => rw [hsplit]
      exact (TextLines.trim_append hu).symm
    have hclear' : '\n' ∉ trimEnd first := fun h => hclear (hsplit ▸ List.mem_append_left u h)
    -- The first line is there, perhaps without the blanks at its end.
    obtain ⟨line, rest, hbody, hline, htrim⟩ : ∃ line rest,
        trimEnd (['\n'].intercalate (first :: ls)) ++ ['\n'] = line ++ '\n' :: rest ∧ '\n' ∉ line ∧
          trim line = trim first := by
      cases ls with
      | nil =>
        refine ⟨trimEnd first, [], ?_, hclear', hsame⟩
        rw [List.intercalate_singleton]
      | cons second ls =>
        rw [List.intercalate_cons_cons]
        have hshape : first ++ ['\n'] ++ ['\n'].intercalate (second :: ls) =
            first ++ '\n' :: ['\n'].intercalate (second :: ls) := by simp
        rw [hshape]
        rcases TextLines.trimEnd_first isWhite first '\n'
          (['\n'].intercalate (second :: ls)) with h | ⟨rest, h⟩
        · exact ⟨trimEnd first, [], congrArg (· ++ ['\n']) h, hclear', hsame⟩
        · refine ⟨first, rest ++ ['\n'], ?_, hclear, rfl⟩
          exact (congrArg (· ++ ['\n']) h).trans (by simp)
    rw [hbody]
    refine ⟨_, _, TextLines.lines_line hline rest, ?_⟩
    rw [inHeader_congr ((TextLines.trim_stripLast isWhite_return line).trans htrim)]
    exact hfirst

theorem readHeader_body (t : Text) (hdr : Header) : readHeader hdr (lines (body t)) = hdr := by
  rcases lines_body t with h | ⟨line, rest, h, hline⟩
  · rw [h]
    rfl
  · rw [h]
    exact readHeader_stop hline hdr rest

theorem headerLines_body (t : Text) {line : Text} (h : line ∈ headerLines (body t)) : line = [] := by
  unfold headerLines at h
  rcases lines_body t with hb | ⟨first, rest, hb, hfirst⟩
  · rw [hb] at h
    exact List.mem_singleton.mp ((List.takeWhile_sublist _).subset h)
  · rw [hb, List.takeWhile_cons_of_neg (by rw [hfirst]; exact Bool.false_ne_true)] at h
    exact absurd h List.not_mem_nil

/-! ## The header that is written -/

theorem trim_trim (t : Text) : trim (trim t) = trim t := TextLines.trim_trim t

theorem filled_spec {t : Option Text} {d : Text} (h : filled t = some d) : trim d = d ∧ d ≠ [] := by
  obtain ⟨hd, hne⟩ := Option.filter_eq_some_iff.mp h
  obtain ⟨u, -, rfl⟩ := Option.map_eq_some_iff.mp hd
  exact ⟨trim_trim u, by simpa using hne⟩

/-- The comment lines of the header. -/
def headerRows (name : Text) (description : Option Text) : List Text :=
  ("-- name: ".toList ++ trim name) ::
    ((filled description).map fun d => "-- description: ".toList ++ d).toList

theorem name_row (name : Text) (description : Option Text) :
    "-- name: ".toList ++ trim name ∈ headerRows name description := List.mem_cons_self

theorem description_row (name : Text) {description : Option Text} {d : Text} (h : filled description = some d) :
    "-- description: ".toList ++ d ∈ headerRows name description := by
  unfold headerRows
  rw [h]
  exact List.mem_cons_of_mem _ List.mem_cons_self

theorem headerRows_cases {name : Text} {description : Option Text} {line : Text}
    (h : line ∈ headerRows name description) :
    line = "-- name: ".toList ++ trim name ∨
      ∃ d, filled description = some d ∧ line = "-- description: ".toList ++ d := by
  rcases List.mem_cons.mp h with rfl | h
  · exact .inl rfl
  · obtain ⟨d, hd, rfl⟩ := Option.map_eq_some_iff.mp (Option.mem_toList.mp h)
    exact .inr ⟨d, hd, rfl⟩

theorem sqlContents_eq (name : Text) (description : Option Text) (sql : Text) :
    sqlContents name description sql = sqlHeader name description ++ body sql := by
  unfold sqlContents body
  rw [List.append_assoc]

theorem sqlContents_rows (name : Text) (description : Option Text) (sql : Text) :
    sqlContents name description sql = "-- name: ".toList ++ trim name ++ '\n' ::
      (filled description).elim ('\n' :: body sql) fun d =>
        "-- description: ".toList ++ d ++ '\n' :: '\n' :: body sql := by
  rw [sqlContents_eq]
  unfold sqlHeader
  cases filled description <;> simp

theorem lines_contents {name : Text} {description : Option Text} (sql : Text) (hname : '\n' ∉ trim name)
    (hdescription : ∀ d ∈ filled description, '\n' ∉ d) :
    lines (sqlContents name description sql) = headerRows name description ++ [] :: lines (body sql) := by
  have hclear {p n : Text} (hp : '\n' ∉ p) (hn : '\n' ∉ n) : '\n' ∉ p ++ n :=
    fun h => (List.mem_append.mp h).elim hp hn
  have hname' := lines_trimmed (hclear (p := "-- name: ".toList) (by decide) hname) (by decide) (trim_trim name)
  have hblank : lines ('\n' :: body sql) = [] :: lines (body sql) :=
    TextLines.lines_line (t := []) List.not_mem_nil _
  rw [sqlContents_rows, hname']
  unfold headerRows
  cases hd : filled description with
  | none =>
    rw [Option.elim_none, hblank]
    rfl
  | some d =>
    have hrow := lines_trimmed (hclear (p := "-- description: ".toList) (by decide) (hdescription d hd))
      (by decide) (filled_spec hd).1
    rw [Option.elim_some, hrow, hblank]
    rfl

/-- What is read back of the header that is written. -/
theorem readHeader_saved {name : Text} {description : Option Text} (sql : Text) (hname : '\n' ∉ trim name)
    (hdescription : ∀ d ∈ filled description, '\n' ∉ d) :
    readHeader ⟨none, none, []⟩ (lines (sqlContents name description sql)) =
      ⟨some (trim name), filled description, []⟩ := by
  rw [lines_contents sql hname hdescription]
  unfold headerRows
  rw [List.cons_append, readHeader_name (trim_trim name)]
  cases hd : filled description with
  | none => exact (readHeader_blank rfl _ _).trans (readHeader_body sql _)
  | some d =>
    obtain ⟨htrim, hne⟩ := filled_spec hd
    exact (readHeader_description htrim hne _ _).trans
      ((readHeader_blank rfl _ _).trans (readHeader_body sql _))

theorem headerLines_saved {name : Text} {description : Option Text} (sql : Text) (hname : '\n' ∉ trim name)
    (hdescription : ∀ d ∈ filled description, '\n' ∉ d) :
    headerLines (sqlContents name description sql) =
      headerRows name description ++ [] :: headerLines (body sql) := by
  have hrows : ∀ line ∈ headerRows name description, inHeader line = true := by
    intro line hline
    rcases headerRows_cases hline with rfl | ⟨d, hd, rfl⟩
    · exact inHeader_name (trim_trim name)
    · exact inHeader_description (filled_spec hd).1
  unfold headerLines
  rw [lines_contents sql hname hdescription, List.takeWhile_append_of_pos hrows]
  rfl

/-- Nothing that is read of a line holds a line feed. -/
theorem readHeader_clear {ls : List Text} (hls : ∀ l ∈ ls, '\n' ∉ l) {hdr : Header}
    (hname : ∀ n, hdr.name = some n → '\n' ∉ n) (hdescription : ∀ d, hdr.description = some d → '\n' ∉ d) :
    (∀ n, (readHeader hdr ls).name = some n → '\n' ∉ n) ∧
      ∀ d, (readHeader hdr ls).description = some d → '\n' ∉ d := by
  induction ls generalizing hdr with
  | nil => exact ⟨hname, hdescription⟩
  | cons line ls ih =>
    have hline : '\n' ∉ line := hls line List.mem_cons_self
    have hrest : ∀ l ∈ ls, '\n' ∉ l := fun l hl => hls l (List.mem_cons_of_mem line hl)
    rw [readHeader]
    dsimp only
    split
    · exact ih hrest hname hdescription
    split
    · exact ⟨hname, hdescription⟩
    next comment hcomment =>
    have hclear : '\n' ∉ comment := fun h =>
      hline (TextLines.mem_of_mem_trim (stripPrefix_eq hcomment ▸ List.mem_append_right dashes h))
    have hvalue {key v : Text} (hv : stripPrefix key (trim comment) = some v) : '\n' ∉ trim v := fun h =>
      hclear (TextLines.mem_of_mem_trim
        (stripPrefix_eq hv ▸ List.mem_append_right key (TextLines.mem_of_mem_trim h)))
    split
    · next v hv =>
      refine ih hrest ?_ hdescription
      rintro n ⟨⟩
      exact hvalue hv
    split
    · next v hv =>
      refine ih hrest hname fun d hd => ?_
      have hd : (some (trim v)).filter (fun s => !s.isEmpty) = some d := hd
      obtain ⟨hvd, -⟩ := Option.filter_eq_some_iff.mp hd
      cases hvd
      exact hvalue hv
    split
    · exact ih hrest hname hdescription
    · exact ⟨hname, hdescription⟩

theorem readHeader_lines_clear (contents : Text) :
    (∀ n, (readHeader ⟨none, none, []⟩ (lines contents)).name = some n → '\n' ∉ n) ∧
      ∀ d, (readHeader ⟨none, none, []⟩ (lines contents)).description = some d → '\n' ∉ d :=
  readHeader_clear (fun _ hl => TextLines.lines_clear '\n' '\r' contents hl)
    (fun _ h => absurd h.symm (Option.some_ne_none _)) fun _ h => absurd h.symm (Option.some_ne_none _)

end RedDb.Config.Queries
