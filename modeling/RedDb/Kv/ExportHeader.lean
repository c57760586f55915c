import RedDb.Kv.Export
import RedDb.Lib.Numerals
import RedDb.Lib.TextLines

/-!
# RedDb — the header of a commands export

A commands export opens with comment lines that say where it came from, and an import skips comments.
The source's label and the scope's description stand in these lines as they were given: what such a
text holds behind a line feed is a line of its own.

* `importCommands_header` — what an import makes of the header;
* `header_inert_iff` — when that is nothing.
-/

namespace RedDb.Kv

open ByteText

/-! ## The header -/

inductive KvExportScope where
  | selection (keys : List Bytes)
  | matching (pattern typeFilter : Option Bytes)
  | database

def KvExportScope.describe : KvExportScope → Bytes
  | .selection keys => ByteText.decimal keys.length ++ ascii " selected key(s)"
  | .matching pattern typeFilter =>
    let p := pattern.getD (ascii "*")
    match typeFilter with
    | some t => ascii "keys matching `" ++ p ++ ascii "` of type " ++ t
    | none => ascii "keys matching `" ++ p ++ ascii "`"
  | .database => ascii "the whole database"

def expiryNote (ttls : Bool) : Bytes :=
  if ttls then ascii "included as absolute PEXPIREAT" else ascii "not included; imported keys will not expire"

def deletionNote (delFirst : Bool) : Bytes :=
  if delFirst then
    ascii "WARNING: each key is DELeted before it is written. " ++
      ascii "Importing this file destroys those keys on the target."
  else ascii "no DEL: importing merges into whatever the target already holds"

def commandsHeader (source : Bytes) (scope : KvExportScope) (opts : KvExportOptions) (taken : Bytes) : Bytes :=
  ascii "# RED Redis key export" ++ newline ::
    (ascii "# source: " ++ source ++ newline ::
      (ascii "# scope:  " ++ scope.describe ++ newline ::
        (ascii "# taken:  " ++ taken ++ newline ::
          (ascii "# expiry: " ++ expiryNote opts.ttls ++ newline ::
            (ascii "# " ++ deletionNote opts.delFirst ++ [newline])))))

/-! ## The import -/

/-- The commands of the lines: blank lines and comments are skipped. -/
def lineCommands (ls : List Bytes) : List (List Bytes) :=
  (((ls.map trim).filter fun l => !l.isEmpty && l.head? != some hash).map tokenizeCommand).filter
    fun argv => !argv.isEmpty

def importCommands (text : Bytes) : List (List Bytes) :=
  lineCommands (TextLines.lines newline carriageReturn text)

/-- The line is no command's. -/
def Inert (l : Bytes) : Prop := trim l = [] ∨ (trim l).head? = some hash

/-- What a text brings into a comment besides the comment: its lines behind the first. -/
def furtherLines (t : Bytes) : List Bytes := (TextLines.lines newline carriageReturn (t ++ [newline])).tail

instance (l : Bytes) : Decidable (Inert l) := inferInstanceAs (Decidable (_ ∨ _))

section Lines

variable {t p rest : Bytes}

theorem lineCommands_append (ls ms : List Bytes) : lineCommands (ls ++ ms) = lineCommands ls ++ lineCommands ms := by
  simp only [lineCommands, List.map_append, List.filter_append]

theorem lines_append (t rest : Bytes) :
    TextLines.lines newline carriageReturn (t ++ newline :: rest) =
      TextLines.lines newline carriageReturn (t ++ [newline]) ++ TextLines.lines newline carriageReturn rest := by
  induction hn : t.length using Nat.strongRecOn generalizing t with
  | _ n ih =>
    subst hn
    by_cases hmem : newline ∈ t
    · obtain ⟨line, more, rfl, hline⟩ := List.eq_append_cons_of_mem hmem
      have ih := ih more.length (by rw [List.length_append, List.length_cons]; omega) more rfl
      rw [List.append_assoc, List.cons_append, TextLines.lines_line hline, ih, List.append_assoc,
        List.cons_append, TextLines.lines_line hline, List.cons_append]
    · rw [TextLines.lines_line hmem, TextLines.lines_line hmem]
      rfl

/-- A text behind the words of a line brings the lines behind its own first. -/
theorem lines_behind (hp : newline ∉ p) (t : Bytes) : ∃ line,
    TextLines.lines newline carriageReturn (p ++ t ++ [newline]) =
      TextLines.stripLast carriageReturn (p ++ line) :: furtherLines t := by
  unfold furtherLines
  by_cases hmem : newline ∈ t
  · obtain ⟨line, more, rfl, hline⟩ := List.eq_append_cons_of_mem hmem
    refine ⟨line, ?_⟩
    have hfirst : newline ∉ p ++ line := fun h => (List.mem_append.mp h).elim hp hline
    rw [← List.append_assoc, List.append_assoc _ _ [newline], List.cons_append, TextLines.lines_line hfirst,
      List.append_assoc, List.cons_append, TextLines.lines_line hline, List.tail_cons]
  · refine ⟨t, ?_⟩
    have hfirst : newline ∉ p ++ t := fun h => (List.mem_append.mp h).elim hp hmem
    rw [TextLines.lines_line hfirst, TextLines.lines_line hmem, List.tail_cons]

/-- A text that begins with a number sign does so without the blanks around it. -/
theorem inert_comment (t : Bytes) : Inert (TextLines.stripLast carriageReturn (hash :: t)) := by
  have hhead : ∀ u : Bytes, (trim (hash :: u)).head? = some hash := by
    intro u
    rw [trim, trimStart_none (wsLen_ascii (by decide) u)]
    obtain ⟨kept, -, -, -, hkept⟩ := trimEnd_behind [] (c := hash) (by decide) u
    rw [List.nil_append] at hkept
    rw [hkept]
    rfl
  rcases TextLines.stripLast_spec carriageReturn (hash :: t) with h | h
  · rw [h]
    exact Or.inr (hhead t)
  cases hs : TextLines.stripLast carriageReturn (hash :: t) with
  | nil =>
    rw [hs] at h
    cases h
  | cons c u =>
    rw [hs] at h
    obtain ⟨rfl, -⟩ := List.cons.inj h
    exact Or.inr (hhead u)

/-- In an argument the splitter hands out at least that argument. -/
theorem tokenizeFrom_ne_nil (b : Bytes) : (∀ tok, tokenizeFrom (.bare tok) b ≠ []) ∧
    (∀ tok, tokenizeFrom (.single tok) b ≠ []) ∧ ∀ skip tok, tokenizeFrom (.quoted skip tok) b ≠ [] := by
  induction b with
  | nil =>
    refine ⟨fun tok => ?_, fun tok => ?_, fun skip tok => ?_⟩ <;>
      (rw [tokenizeFrom]; exact List.cons_ne_nil _ _)
  | cons c rest ih =>
    obtain ⟨hbare, hsingle, hquoted⟩ := ih
    refine ⟨fun tok => ?_, fun tok => ?_, fun skip tok => ?_⟩
    · rw [tokenizeFrom]
      split
      · exact List.cons_ne_nil _ _
      · exact hbare _
    · rw [tokenizeFrom]
      split
      · exact List.cons_ne_nil _ _
      · exact hsingle _
    · cases skip with
      | succ skip =>
        rw [tokenizeFrom]
        exact hquoted skip tok
      | zero =>
        rw [tokenizeFrom]
        split
        · exact List.cons_ne_nil _ _
        · split
          · exact hquoted _ _
          · exact hquoted _ _

theorem tokenizeCommand_ne_nil {b : Bytes} (hne : b ≠ []) (h : wsLen b = 0) : tokenizeCommand b ≠ [] := by
  obtain ⟨c, rest, rfl⟩ := List.exists_cons_of_ne_nil hne
  obtain ⟨hbare, hsingle, hquoted⟩ := tokenizeFrom_ne_nil rest
  rw [tokenizeCommand, tokenizeFrom, h]
  dsimp only
  split
  · exact hsingle _
  · split
    · exact hquoted _ _
    · exact hbare _

theorem wsLen_trim (b : Bytes) : wsLen (trim b) = 0 := by
  rcases wsLen_cases (trim b) with h | ⟨e, rest, he, hshape⟩
  · exact h
  have hstart : trimStart (trim b) = trim b := trimStart_of_trim (trim_trim b)
  have hblank : Blank e := by simpa using Blank.cons he Blank.nil
  obtain ⟨p, -, hp, -⟩ := trimStart_spec rest
  rw [hshape, trimStart_append hblank] at hstart
  have hlen := congrArg List.length hstart
  have hpos := he.pos
  have hrest := congrArg List.length hp
  rw [List.length_append] at hlen hrest
  omega

theorem lineCommands_eq_nil_iff {ls : List Bytes} : lineCommands ls = [] ↔ ∀ l ∈ ls, Inert l := by
  induction ls with
  | nil => exact ⟨fun _ l hl => absurd hl List.not_mem_nil, fun _ => rfl⟩
  | cons l ls ih =>
    have hone : lineCommands [l] = [] ↔ Inert l := by
      constructor
      · intro h
        by_contra hinert
        obtain ⟨hne, hhead⟩ := not_or.mp hinert
        have htoken := tokenizeCommand_ne_nil hne (wsLen_trim l)
        have hkept : (!(trim l).isEmpty && (trim l).head? != some hash) = true := by simp [hne, hhead]
        have htaken : (!(tokenizeCommand (trim l)).isEmpty) = true := by simp [htoken]
        rw [lineCommands, List.map_singleton, List.filter_cons, if_pos hkept, List.filter_nil, List.map_singleton,
          List.filter_cons, if_pos htaken] at h
        cases h
      · rintro (h | h)
        · simp [lineCommands, h]
        · simp [lineCommands, h]
    have hsplit := lineCommands_append [l] ls
    rw [List.singleton_append] at hsplit
    rw [hsplit, List.append_eq_nil_iff, hone, ih, List.forall_mem_cons]

/-- A comment line with a given text. -/
theorem importCommands_comment {p : Bytes} (hp : newline ∉ p) (t rest : Bytes) :
    importCommands (hash :: p ++ t ++ newline :: rest) = lineCommands (furtherLines t) ++ importCommands rest := by
  have hfirst : newline ∉ hash :: p := by
    rw [List.mem_cons, not_or]
    exact ⟨by decide, hp⟩
  obtain ⟨line, hlines⟩ := lines_behind hfirst t
  have hcomment := lineCommands_eq_nil_iff.mpr (List.forall_mem_singleton.mpr (inert_comment (p ++ line)))
  have hsplit := lineCommands_append [TextLines.stripLast carriageReturn (hash :: (p ++ line))] (furtherLines t)
  rw [List.singleton_append, hcomment, List.nil_append] at hsplit
  rw [importCommands, lines_append, lineCommands_append, hlines]
  exact congrArg (· ++ importCommands rest) hsplit

/-- A comment line of the writer's own words. -/
theorem importCommands_note {p : Bytes} (hp : newline ∉ p) (rest : Bytes) :
    importCommands (hash :: p ++ newline :: rest) = importCommands rest := by
  have h := importCommands_comment hp [] rest
  rw [List.append_nil] at h
  exact h

end Lines

/-- What an import makes of the header: the further lines of what it was given. -/
theorem importCommands_header (source : Bytes) (scope : KvExportScope) (opts : KvExportOptions)
    (taken body : Bytes) : importCommands (commandsHeader source scope opts taken ++ body) =
      lineCommands (furtherLines source) ++ (lineCommands (furtherLines scope.describe) ++
        (lineCommands (furtherLines taken) ++ importCommands body)) := by
  have hexpiry : newline ∉ ascii " expiry: " ++ expiryNote opts.ttls := by
    cases opts.ttls <;> decide
  have hdeletion : newline ∉ ascii " " ++ deletionNote opts.delFirst := by
    cases opts.delFirst <;> decide
  have hlast := importCommands_note hdeletion body
  have hnotes := importCommands_note hexpiry
    (hash :: (ascii " " ++ deletionNote opts.delFirst) ++ newline :: body)
  have htaken := importCommands_comment (p := ascii " taken:  ") (by decide) taken
    (hash :: (ascii " expiry: " ++ expiryNote opts.ttls) ++ newline ::
      (hash :: (ascii " " ++ deletionNote opts.delFirst) ++ newline :: body))
  rw [hnotes, hlast] at htaken
  have hscope := importCommands_comment (p := ascii " scope:  ") (by decide) scope.describe
    (hash :: ascii " taken:  " ++ taken ++ newline ::
      (hash :: (ascii " expiry: " ++ expiryNote opts.ttls) ++ newline ::
        (hash :: (ascii " " ++ deletionNote opts.delFirst) ++ newline :: body)))
  rw [htaken] at hscope
  have hsource := importCommands_comment (p := ascii " source: ") (by decide) source
    (hash :: ascii " scope:  " ++ scope.describe ++ newline ::
      (hash :: ascii " taken:  " ++ taken ++ newline ::
        (hash :: (ascii " expiry: " ++ expiryNote opts.ttls) ++ newline ::
          (hash :: (ascii " " ++ deletionNote opts.delFirst) ++ newline :: body))))
  rw [hscope, ← importCommands_note (p := ascii " RED Redis key export") (by decide)] at hsource
  rw [← hsource]
  refine congrArg importCommands ?_
  have hwords : ascii "# RED Redis key export" = hash :: ascii " RED Redis key export" ∧
      ascii "# source: " = hash :: ascii " source: " ∧ ascii "# scope:  " = hash :: ascii " scope:  " ∧
      ascii "# taken:  " = hash :: ascii " taken:  " ∧ ascii "# expiry: " = hash :: ascii " expiry: " ∧
      ascii "# " = hash :: ascii " " := by decide
  obtain ⟨h1, h2, h3, h4, h5, h6⟩ := hwords
  rw [commandsHeader, h1, h2, h3, h4, h5, h6]
  simp only [List.append_assoc, List.cons_append, List.nil_append]

/-- **The header is inert** exactly if no text it was given has a command in a further line. -/
theorem header_inert_iff (source : Bytes) (scope : KvExportScope) (opts : KvExportOptions)
    (taken body : Bytes) :
    importCommands (commandsHeader source scope opts taken ++ body) = importCommands body ↔
      ∀ t ∈ [source, scope.describe, taken], ∀ l ∈ furtherLines t, Inert l := by
  rw [importCommands_header, ← List.append_assoc, ← List.append_assoc, List.append_left_eq_self,
    List.append_eq_nil_iff, List.append_eq_nil_iff, lineCommands_eq_nil_iff, lineCommands_eq_nil_iff,
    lineCommands_eq_nil_iff, List.forall_mem_cons, List.forall_mem_cons, List.forall_mem_singleton, and_assoc]

/-- A label of two lines. -/
theorem header_runs_flushall :
    importCommands (commandsHeader (ascii "prod" ++ newline :: ascii "FLUSHALL") .database ⟨false, true⟩
        (ascii "2026-08-14") ++ []) = [[ascii "FLUSHALL"]] ∧ importCommands [] = [] := by
  rw [importCommands_header]
  decide

end RedDb.Kv
