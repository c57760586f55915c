import RedDb.Lib.Blanks
import RedDb.Sql.Lexemes

/-!
# RedDb — the permission requests of an external agent

An external agent asks before it runs a tool, and names the tool in the request's title only. A title
that names one of RED's read-only tools, as the agent's convention qualifies it, runs without a prompt.
The name is taken from the end of the title; what stands in front of it is not looked at.

* `toolName_suffix` — the name stands at the end of the title;
* `toolName_qualified` — the name of a title that is qualified by a server;
* `own_iff` — when only RED's own tools run unprompted.
-/

namespace RedDb.Ai

open ByteText

/-! ## The decision -/

inductive ToolKind where
  | read | edit | delete | move | search | execute | think | fetch | switchMode | other
  deriving DecidableEq

structure ToolCall where
  kind : Option ToolKind
  title : Option Bytes

def ToolCall.toolTitle (c : ToolCall) : Bytes := c.title.getD (ascii "a tool")

def ToolCall.isMutating (c : ToolCall) : Bool :=
  c.kind == some .edit || c.kind == some .delete || c.kind == some .move || c.kind == some .execute

/-- What stands behind the last byte of the class. -/
def behindByte (p : UInt8 → Bool) (b : Bytes) : Bytes := (b.reverse.takeWhile fun c => !p c).reverse

/-- What stands behind the last `sep`, if there is one. -/
def behindText? (sep : Bytes) : Bytes → Option Bytes
  | [] => none
  | c :: rest =>
    match behindText? sep rest with
    | some t => some t
    | none => if sep.isPrefixOf (c :: rest) then some ((c :: rest).drop sep.length) else none

def behindText (sep b : Bytes) : Bytes := (behindText? sep b).getD b

/-- The colon behind a server's name. -/
abbrev serverMark : UInt8 := 58

def isSeparator (c : UInt8) : Bool := c == serverMark || c == slash

def doubleUnderscore : Bytes := [underscore, underscore]

/-- The name at the end of a title. -/
def toolIdent (title : Bytes) : Bytes :=
  trim (behindText doubleUnderscore (trim (behindByte isSeparator (asciiLower title))))

def titleNamesTool (title tool : Bytes) : Bool := toolIdent title == asciiLower tool

def isAutoAllowed (c : ToolCall) (allowTools : List Bytes) : Bool :=
  if c.isMutating then false else allowTools.any fun name => titleNamesTool c.toolTitle name

/-! ## Names and titles -/

def isNameByte (c : UInt8) : Bool := isAsciiAlphanumeric c || c == underscore || c == dash

/-- A tool's name: letters, digits, dashes and single underscores behind a letter. -/
structure ToolName (n : Bytes) : Prop where
  head : n.head?.any isAsciiAlphabetic = true
  bytes : ∀ c ∈ n, isNameByte c = true
  single : behindText? doubleUnderscore n = none

/-- A server's identifier. -/
structure ServerName (s : Bytes) : Prop where
  nonempty : s ≠ []
  bytes : ∀ c ∈ s, isNameByte c = true ∨ c = dot

/-- What a name is qualified with: nothing, `server: `, or `mcp__server__`. -/
inductive Qualifier : Bytes → Prop
  | none : Qualifier []
  | server {s blanks : Bytes} : ServerName s → Blank blanks → Qualifier (s ++ serverMark :: blanks)
  | mcp {s : Bytes} : ServerName s → Qualifier (ascii "mcp" ++ doubleUnderscore ++ s ++ doubleUnderscore)

/-- The title without case and outer blanks. -/
def plainTitle (title : Bytes) : Bytes := trim (asciiLower title)

/-- The whole title is an allowed name, alone or qualified, and the kind mutates nothing. -/
def Own (c : ToolCall) (allowTools : List Bytes) : Prop :=
  c.isMutating = false ∧ ∃ tool ∈ allowTools, ∃ q, Qualifier q ∧ plainTitle c.toolTitle = q ++ asciiLower tool

/-- What stands in front of the name at the title's end. -/
def frontOf (title : Bytes) : Bytes :=
  (plainTitle title).take ((plainTitle title).length - (toolIdent title).length)

section Title

variable {b n t q : Bytes}

theorem behindByte_suffix (p : UInt8 → Bool) (b : Bytes) : behindByte p b <:+ b := by
  have h : b.reverse.takeWhile (fun c => !p c) <+: b.reverse := List.takeWhile_prefix _
  have hreverse := List.reverse_suffix.mpr h
  rwa [List.reverse_reverse] at hreverse

theorem behindByte_none {p : UInt8 → Bool} (h : ∀ c ∈ b, p c = false) : behindByte p b = b := by
  have hall : ∀ c ∈ b.reverse, (!p c) = true := fun c hc => by simp [h c (List.mem_reverse.mp hc)]
  have hwhole : (b.reverse ++ []).takeWhile (fun c => !p c) = _ := List.takeWhile_append_of_pos hall
  rw [List.append_nil, List.takeWhile_nil, List.append_nil] at hwhole
  rw [behindByte, hwhole, List.reverse_reverse]

theorem behindByte_last {p : UInt8 → Bool} {c : UInt8} (hc : p c = true) (h : ∀ e ∈ t, p e = false) (b : Bytes) :
    behindByte p (b ++ c :: t) = t := by
  have hall : ∀ e ∈ t.reverse, (!p e) = true := fun e he => by simp [h e (List.mem_reverse.mp he)]
  have hstop : (c :: b.reverse).takeWhile (fun c => !p c) = [] := by simp [hc]
  rw [behindByte, List.reverse_append, List.reverse_cons, List.append_assoc, List.singleton_append,
    List.takeWhile_append_of_pos hall, hstop, List.append_nil, List.reverse_reverse]

theorem behindText?_suffix {sep : Bytes} (h : behindText? sep b = some t) : t <:+ b := by
  induction b with
  | nil => cases h
  | cons c rest ih =>
    unfold behindText? at h
    cases hrest : behindText? sep rest with
    | some u =>
      rw [hrest] at h
      cases h
      exact (ih hrest).trans (List.suffix_cons c rest)
    | none =>
      rw [hrest] at h
      dsimp only at h
      split at h
      · cases h
        exact List.drop_suffix _ _
      · cases h

theorem behindText_suffix (sep b : Bytes) : behindText sep b <:+ b := by
  unfold behindText
  cases h : behindText? sep b with
  | none => exact List.suffix_refl b
  | some t => exact behindText?_suffix h

/-- Behind the last double underscore stands a text that holds none and begins with none. -/
theorem behindText_last (h : behindText? doubleUnderscore t = none) (hhead : t.head? ≠ some underscore)
    (b : Bytes) : behindText doubleUnderscore (b ++ doubleUnderscore ++ t) = t := by
  have hsecond : behindText? doubleUnderscore (underscore :: t) = none := by
    rw [behindText?, h]
    refine if_neg fun hprefix => hhead ?_
    cases t with
    | nil => simp [doubleUnderscore] at hprefix
    | cons c t =>
      simp only [doubleUnderscore, List.isPrefixOf, Bool.and_eq_true, beq_iff_eq] at hprefix
      rw [← hprefix.2.1]
      rfl
  have hsome : ∀ b, behindText? doubleUnderscore (b ++ (underscore :: underscore :: t)) = some t := by
    intro b
    induction b with
    | nil =>
      rw [List.nil_append, behindText?, hsecond]
      exact if_pos rfl
    | cons c b ih => rw [List.cons_append, behindText?, ih]
  have hshape : doubleUnderscore ++ t = underscore :: underscore :: t := rfl
  rw [behindText, List.append_assoc, hshape, hsome b, Option.getD_some]

theorem nameByte_plain {c : UInt8} (h : isNameByte c = true) : isBlankByte c = false ∧ isSeparator c = false := by
  have hall : ∀ n < 256, (!isNameByte (UInt8.ofNat n) ||
      (!isBlankByte (UInt8.ofNat n) && !isSeparator (UInt8.ofNat n))) = true := by decide +kernel
  have hbyte := hall c.toNat c.toNat_lt
  rw [UInt8.ofNat_toNat, h] at hbyte
  simpa using hbyte

theorem blank_separator (h : Blank b) : ∀ c ∈ b, isSeparator c = false := by
  intro c hc
  have hblank := h.bytes c hc
  cases hsep : isSeparator c with
  | false => rfl
  | true =>
    simp only [isSeparator, Bool.or_eq_true, beq_iff_eq] at hsep
    rcases hsep with rfl | rfl <;> exact absurd hblank (by decide)

theorem ToolName.cons (h : ToolName n) : ∃ c rest, n = c :: rest ∧ isBlankByte c = false ∧ c ≠ underscore := by
  cases n with
  | nil => exact absurd h.head (by decide)
  | cons c rest =>
    refine ⟨c, rest, rfl, (nameByte_plain (h.bytes c List.mem_cons_self)).1, ?_⟩
    rintro rfl
    exact absurd h.head (by simp [isAsciiAlphabetic, underscore])

/-- A name keeps its place at the end when blanks are taken away. -/
theorem ToolName.trim_behind (h : ToolName n) (hq : Blank q) (b : Bytes) : ∃ front,
    front <:+ b ∧ trim (b ++ n ++ q) = front ++ n := by
  obtain ⟨c, rest, hn, hc, -⟩ := h.cons
  obtain ⟨p, hp, hstart, -⟩ := trimStart_spec (b ++ n ++ q)
  obtain ⟨front, hfront, hcut⟩ : ∃ front, front <:+ b ∧ trimStart (b ++ n ++ q) = front ++ n ++ q := by
    have hshape : p ++ trimStart (b ++ n ++ q) = b ++ (n ++ q) := by rw [← hstart, List.append_assoc]
    rcases List.append_eq_append_iff.mp hshape with ⟨a, hb, ha⟩ | ⟨a, hpa, ha⟩
    · exact ⟨a, ⟨p, hb.symm⟩, by rw [ha, List.append_assoc]⟩
    -- no blank takes a byte of the name
    cases a with
    | nil =>
      rw [List.nil_append] at ha
      exact ⟨[], List.nil_suffix, by rw [← ha]; rfl⟩
    | cons e a =>
      rw [hn, List.cons_append, List.cons_append] at ha
      obtain ⟨rfl, -⟩ := List.cons.inj ha
      have hblank := hp.bytes c (by rw [hpa]; simp)
      rw [hc] at hblank
      cases hblank
  obtain ⟨init, last, hlast⟩ : ∃ init last, n = init ++ [last] := by
    rcases List.eq_nil_or_concat n with hnil | ⟨init, last, hconcat⟩
    · rw [hnil] at hn
      cases hn
    · exact ⟨init, last, by rw [hconcat, List.concat_eq_append]⟩
  have hbyte := (nameByte_plain (h.bytes last (by rw [hlast]; simp))).1
  refine ⟨front, hfront, ?_⟩
  obtain ⟨kept, q', -, hnil, hkept⟩ := trimEnd_behind (front ++ init) hbyte []
  obtain ⟨rfl, -⟩ := List.append_eq_nil_iff.mp hnil.symm
  rw [trim, hcut, trimEnd_append hq, hlast, ← List.append_assoc]
  exact hkept

theorem ToolName.trim_between (h : ToolName n) (hb : Blank b) (hq : Blank q) : trim (b ++ n ++ q) = n := by
  obtain ⟨front, hfront, htrim⟩ := h.trim_behind hq []
  rw [List.suffix_nil.mp hfront] at htrim
  rw [trim, List.append_assoc, trimStart_append hb]
  exact htrim

/-- **The name stands at the end of the title.** -/
theorem toolName_suffix {title : Bytes} (h : ToolName (toolIdent title)) :
    plainTitle title = frontOf title ++ toolIdent title := by
  obtain ⟨a, ha⟩ := behindByte_suffix isSeparator (asciiLower title)
  obtain ⟨p, q, hp, hq, htrim⟩ := trim_spec (behindByte isSeparator (asciiLower title))
  obtain ⟨u, hu⟩ := behindText_suffix doubleUnderscore (trim (behindByte isSeparator (asciiLower title)))
  obtain ⟨p', q', hp', hq', htrim'⟩ := trim_spec
    (behindText doubleUnderscore (trim (behindByte isSeparator (asciiLower title))))
  have hshape : asciiLower title = (a ++ p ++ u ++ p') ++ toolIdent title ++ (q' ++ q) := by
    rw [← ha, htrim, ← hu, htrim']
    simp [toolIdent]
  obtain ⟨front, -, hfront⟩ := h.trim_behind (hq'.append hq) (a ++ p ++ u ++ p')
  have hplain : plainTitle title = front ++ toolIdent title := by rw [plainTitle, hshape, hfront]
  rw [frontOf, hplain, List.length_append, Nat.add_sub_cancel, List.take_left]

theorem ToolName.separators (h : ToolName n) : ∀ c ∈ n, isSeparator c = false := fun c hc =>
  (nameByte_plain (h.bytes c hc)).2

theorem ServerName.separators {s : Bytes} (h : ServerName s) : ∀ c ∈ s, isSeparator c = false := by
  intro c hc
  rcases h.bytes c hc with hname | rfl
  · exact (nameByte_plain hname).2
  · decide

/-- **The name of a qualified title.** -/
theorem toolName_qualified {title : Bytes} (hn : ToolName n) (hq : Qualifier q)
    (h : plainTitle title = q ++ n) : toolIdent title = n := by
  obtain ⟨p, e, hp, he, hshape⟩ := trim_spec (asciiLower title)
  rw [show trim (asciiLower title) = q ++ n from h] at hshape
  obtain ⟨c, rest, hcons, -, hunder⟩ := hn.cons
  have hhead : n.head? ≠ some underscore := by
    rw [hcons]
    exact fun heq => hunder (Option.some.inj heq)
  have hself : trim n = n := by
    have := hn.trim_between Blank.nil Blank.nil
    rwa [List.nil_append, List.append_nil] at this
  have hwhole : behindText doubleUnderscore n = n := by rw [behindText, hn.single, Option.getD_none]
  have hsep : (∀ c ∈ q, isSeparator c = false) → behindByte isSeparator (asciiLower title) = asciiLower title := by
    intro hsep
    refine behindByte_none fun c hc => ?_
    rw [hshape, List.mem_append, List.mem_append, List.mem_append] at hc
    rcases hc with hc | (hc | hc) | hc
    · exact blank_separator hp c hc
    · exact hsep c hc
    · exact hn.separators c hc
    · exact blank_separator he c hc
  unfold toolIdent
  cases hq with
  | none =>
    rw [hsep nofun, show trim (asciiLower title) = n from h, hwhole, hself]
  | @server s blanks hs hblanks =>
    have htail : ∀ c ∈ blanks ++ n ++ e, isSeparator c = false := by
      intro c hc
      rw [List.mem_append, List.mem_append] at hc
      rcases hc with (hc | hc) | hc
      · exact blank_separator hblanks c hc
      · exact hn.separators c hc
      · exact blank_separator he c hc
    have hcut : asciiLower title = (p ++ s) ++ serverMark :: (blanks ++ n ++ e) := by
      rw [hshape]
      simp
    rw [hcut, behindByte_last (by decide) htail, hn.trim_between hblanks he, hwhole, hself]
  | @mcp s hs =>
    have hmcp : ∀ c ∈ ascii "mcp" ++ doubleUnderscore, isSeparator c = false := by decide
    rw [hsep fun c hc => ?_, show trim (asciiLower title) = _ from h, behindText_last hn.single hhead, hself]
    rw [List.mem_append, List.mem_append] at hc
    rcases hc with (hc | hc) | hc
    · exact hmcp c hc
    · exact hs.separators c hc
    · exact hmcp c (List.mem_append_right _ hc)

end Title

theorem isAutoAllowed_iff {c : ToolCall} {allowTools : List Bytes} :
    isAutoAllowed c allowTools = true ↔
      c.isMutating = false ∧ ∃ tool ∈ allowTools, toolIdent c.toolTitle = asciiLower tool := by
  unfold isAutoAllowed titleNamesTool
  cases c.isMutating with
  | true => simp
  | false => simp

/-- **Only RED's own tools run unprompted** exactly if the title of no call that mutates nothing has more
than a qualifier in front of an allowed name at its end. -/
theorem own_iff {allowTools : List Bytes} (hnames : ∀ tool ∈ allowTools, ToolName (asciiLower tool))
    (c : ToolCall) : (isAutoAllowed c allowTools = true → Own c allowTools) ↔
      (c.isMutating = false → toolIdent c.toolTitle ∈ allowTools.map asciiLower →
        Qualifier (frontOf c.toolTitle)) := by
  constructor
  · intro h hkind hname
    obtain ⟨tool, htool, hident⟩ := List.mem_map.mp hname
    obtain ⟨-, own, hown, q, hq, htitle⟩ := h (isAutoAllowed_iff.mpr ⟨hkind, tool, htool, hident.symm⟩)
    have hown' := toolName_qualified (hnames own hown) hq htitle
    have htool : ToolName (toolIdent c.toolTitle) := by
      rw [hown']
      exact hnames own hown
    have hfront := toolName_suffix htool
    rw [htitle, hown'] at hfront
    rwa [← List.append_cancel_right hfront]
  · intro h hallowed
    obtain ⟨hkind, tool, htool, hident⟩ := isAutoAllowed_iff.mp hallowed
    have hq := h hkind (List.mem_map.mpr ⟨tool, htool, hident.symm⟩)
    refine ⟨hkind, tool, htool, frontOf c.toolTitle, hq, ?_⟩
    rw [← hident]
    exact toolName_suffix (by rw [hident]; exact hnames tool htool)

theorem runSelect_name : ToolName (asciiLower (ascii "run_select")) :=
  ⟨by decide, by decide, by decide⟩

/-- The tool of a server that is named in front. -/
theorem own_iff_server :
    isAutoAllowed ⟨some .read, some (ascii "red-db: run_select")⟩ [ascii "run_select"] = true ∧
      ((isAutoAllowed ⟨some .read, some (ascii "red-db: run_select")⟩ [ascii "run_select"] = true →
        Own ⟨some .read, some (ascii "red-db: run_select")⟩ [ascii "run_select"]) ↔
      ((ToolCall.mk (some .read) (some (ascii "red-db: run_select"))).isMutating = false →
        toolIdent (ascii "red-db: run_select") ∈ [asciiLower (ascii "run_select")] →
          Qualifier (frontOf (ascii "red-db: run_select")))) :=
  ⟨by decide, own_iff (List.forall_mem_singleton.mpr runSelect_name) ⟨some .read, some (ascii "red-db: run_select")⟩⟩

/-- A page whose address ends like one of the tools. -/
theorem fetched_page_unprompted :
    isAutoAllowed ⟨some .fetch, some (ascii "fetch https://example.com/run_select")⟩ [ascii "run_select"] = true ∧
      ¬ Own ⟨some .fetch, some (ascii "fetch https://example.com/run_select")⟩ [ascii "run_select"] := by
  refine ⟨by decide, ?_⟩
  rintro ⟨-, tool, htool, q, hq, htitle⟩
  obtain rfl := List.mem_singleton.mp htool
  have hplain : plainTitle (ascii "fetch https://example.com/run_select") =
      ascii "fetch https://example.com/" ++ asciiLower (ascii "run_select") := by decide
  have hfront : q = ascii "fetch https://example.com/" :=
    List.append_cancel_right (htitle.symm.trans hplain)
  have hslash : ∀ c ∈ q, c ≠ slash := by
    intro c hc
    cases hq with
    | none => cases hc
    | server hs hblanks =>
      rcases List.mem_append.mp hc with hc | hc
      · rintro rfl
        exact absurd (hs.separators _ hc) (by decide)
      rcases List.mem_cons.mp hc with hmark | hc
      · rw [hmark]
        decide
      · rintro rfl
        exact absurd (blank_separator hblanks _ hc) (by decide)
    | mcp hs =>
      have hmcp : ∀ c ∈ ascii "mcp" ++ doubleUnderscore, c ≠ slash := by decide
      rw [List.mem_append, List.mem_append] at hc
      rcases hc with (hc | hc) | hc
      · exact hmcp c hc
      · rintro rfl
        exact absurd (hs.separators _ hc) (by decide)
      · exact hmcp c (List.mem_append_right _ hc)
  rw [hfront] at hslash
  exact absurd hslash (by decide)

end RedDb.Ai
