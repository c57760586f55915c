import Mathlib.Algebra.Order.Ring.Nat
import RedDb.Ai.Gate
import RedDb.Lib.Blanks
import RedDb.Lib.Numerals

/-!
# RedDb — the statements a write tool has run

A review transaction keeps a log of its statements with the rows each affected. What
goes into it is read back from a tool call: the statements from its input, the rows
from the text of its result, which may have been cut on the way. A changeset reports
one total, which goes to its first statement.

* `rowsReported_counted` — the total is read back from a result that still has it;
* `capResultBytes_keeps` — what a cut keeps;
* `ranStatements_exact` — when the entries are the statements with their rows.
-/

namespace RedDb.Ai

open ByteText

structure SandboxEntry where
  sql : Bytes
  rows : Nat
  deriving DecidableEq

/-- The same entry, blanks around its statement aside. -/
def SandboxEntry.trimmed (e : SandboxEntry) : SandboxEntry := ⟨trim e.sql, e.rows⟩

def totalRows (log : List SandboxEntry) : Nat := (log.map SandboxEntry.rows).sum

/-- The write tools that run in a review transaction. -/
inductive ReviewTool where
  | proposeWrite
  | proposeChangeset

def ReviewTool.name : ReviewTool → String
  | .proposeWrite => "propose_write"
  | .proposeChangeset => "propose_changeset"

/-! ## The result's text -/

def phrase : Bytes := ascii "row(s) affected"

/-- What a result says ahead of the rows: a changeset counts its statements too. -/
def lead (tool : ReviewTool) (count : Nat) : Bytes :=
  match tool with
  | .proposeWrite => ascii "Ran the write inside the review transaction:"
  | .proposeChangeset =>
    ascii "Ran the changeset inside the review transaction: " ++ decimal count ++
      ascii " statement(s),"

/-- The result's text up to its row count. -/
def counted (tool : ReviewTool) (count total : Nat) : Bytes :=
  lead tool count ++ [space] ++ (decimal total ++ [space]) ++ phrase

/-- The rest of it. -/
def caution (tool : ReviewTool) : Bytes :=
  match tool with
  | .proposeWrite =>
    ascii ". NOTHING IS COMMITTED yet - the user reviews every change at the end of this turn and can roll it all back. Do not tell them it is done."
  | .proposeChangeset =>
    ascii ". NOTHING IS COMMITTED yet - the user reviews it at the end of this turn and can roll it all back. Do not tell them it is done."

def resultText (tool : ReviewTool) (count total : Nat) : Bytes :=
  counted tool count total ++ caution tool

/-- `is_char_boundary`. -/
def isCharBoundary (b : Bytes) (i : Nat) : Bool :=
  i == 0 || i == b.length || (b[i]?).any fun c => c < 0x80 || 0xC0 ≤ c

/-- The last boundary at or before a place. -/
def floorBoundary (b : Bytes) : Nat → Nat
  | 0 => 0
  | n + 1 => if isCharBoundary b (n + 1) then n + 1 else floorBoundary b n

def cutNote : Bytes :=
  [newline] ++ ellipsis ++ ascii "(result truncated: it exceeded the size cap; narrow the query)"

/-- Cap a tool result; `0` disables the cap. -/
def capResultBytes (content : Bytes) (max : Nat) : Bytes :=
  if max = 0 ∨ content.length ≤ max then content
  else content.take (floorBoundary content max) ++ cutNote

/-- The rows that a result's text reports. -/
def rowsReported (content : Bytes) : Nat :=
  match splitOnce phrase content with
  | some (head, _) => lastNumber head
  | none => 0

/-- The statements a completed write tool ran, for the log. -/
def ranStatements (tool : ReviewTool) (input : Json) (content : Bytes) : List SandboxEntry :=
  match tool with
  | .proposeWrite =>
    match (input.get "sql").bind Json.asStr with
    | some sql => [⟨sql, rowsReported content⟩]
    | none => []
  | .proposeChangeset =>
    (changesetStatements input).zipIdx.map fun (sql, i) =>
      ⟨sql, if i = 0 then rowsReported content else 0⟩

/-! ## Reading it back -/

theorem lead_clear (tool : ReviewTool) (count : Nat) : clearOf phrase (lead tool count) = true := by
  cases tool with
  | proposeWrite =>
    show clearOf phrase (ascii "Ran the write inside the review transaction:") = true
    decide
  | proposeChangeset =>
    have hdigits : clearOf phrase (decimal count) = true :=
      clearOf_of_head fun h => absurd (decimal_digits h) (by decide)
    exact clearOf_append (clearOf_append (by decide) hdigits) (by decide)

/-- **The total is read back**, whatever follows it. -/
theorem rowsReported_counted (tool : ReviewTool) (count total : Nat) (rest : Bytes) :
    rowsReported (counted tool count total ++ rest) = total := by
  have hdigits : clearOf phrase (decimal total) = true :=
    clearOf_of_head fun h => absurd (decimal_digits h) (by decide)
  have hclear : clearOf phrase (lead tool count ++ [space] ++ (decimal total ++ [space])) = true :=
    clearOf_append (clearOf_append (lead_clear tool count) (by decide))
      (clearOf_append hdigits (by decide))
  unfold rowsReported counted
  rw [List.append_assoc _ phrase rest, splitOnce_clear hclear,
    splitOnce_here (by decide) rest, Option.map_some]
  show lastNumber (lead tool count ++ [space] ++ (decimal total ++ [space]) ++ []) = total
  rw [List.append_nil]
  exact lastNumber_decimal (lead tool count) total (by decide) (by decide)

theorem floorBoundary_ascii {b : Bytes} {i : Nat} {c : UInt8} (hi : b[i]? = some c)
    (hc : c < 0x80) : floorBoundary b i = i := by
  cases i with
  | zero => rfl
  | succ i =>
    have hb : isCharBoundary b (i + 1) = true := by
      unfold isCharBoundary
      rw [hi, Option.any_some, decide_eq_true hc, Bool.true_or, Bool.or_true]
    rw [floorBoundary, if_pos hb]

/-- A cut keeps what fits under the cap. -/
theorem capResultBytes_keeps {p q : Bytes} {max : Nat} (hfits : max = 0 ∨ p.length ≤ max)
    (hq : ∀ c ∈ q, c < 0x80) : ∃ rest, capResultBytes (p ++ q) max = p ++ rest := by
  unfold capResultBytes
  split
  · exact ⟨q, rfl⟩
  rename_i hcut
  rw [not_or, Nat.not_le, List.length_append] at hcut
  have hlen : p.length ≤ max := hfits.resolve_left hcut.1
  have hlt : max - p.length < q.length := by omega
  have hget : (p ++ q)[max]? = some (q[max - p.length]) := by
    rw [List.getElem?_append_right hlen, List.getElem?_eq_getElem hlt]
  rw [floorBoundary_ascii hget (hq _ (List.getElem_mem hlt)), List.take_append,
    List.take_of_length_le hlen, List.append_assoc]
  exact ⟨_, rfl⟩

/-- The row count of a result that is not cut ahead of it. -/
theorem rowsReported_resultText (tool : ReviewTool) {count total max : Nat}
    (hfits : max = 0 ∨ (counted tool count total).length ≤ max) :
    rowsReported (capResultBytes (resultText tool count total) max) = total := by
  have hascii : ∀ c ∈ caution tool, c < 0x80 := by
    cases tool <;> decide +kernel
  obtain ⟨rest, hrest⟩ := capResultBytes_keeps hfits hascii
  unfold resultText
  rw [hrest]
  exact rowsReported_counted tool count total rest

/-! ## The entries -/

/-- A proposal that passed the gate has a text. -/
theorem proposedSql_some {kv doc : String → Json → WriteAssessment} {input : Json}
    {policy : AiPolicy} {body : Bytes}
    (h : assessWrite kv doc "propose_write" input policy .postgres = .needsApproval body) :
    ∃ sql, (input.get "sql").bind Json.asStr = some sql := by
  cases hsql : (input.get "sql").bind Json.asStr with
  | some sql => exact ⟨sql, rfl⟩
  | none =>
    have hshape := (assessWrite_proposal (Or.inl rfl) h).2.2 (proposedSql input)
      (List.mem_singleton_self _)
    have hempty : proposedSql input = [] := by
      unfold proposedSql
      rw [hsql]
      rfl
    rw [hempty] at hshape
    exact absurd (by decide) hshape.nonempty

theorem changesetStatements_trimmed {input : Json} {sql : Bytes}
    (h : sql ∈ changesetStatements input) : trim sql = sql := by
  unfold changesetStatements Json.trimmedItems at h
  split at h
  · cases h
  · obtain ⟨raw, -, rfl⟩ := List.mem_map.mp (List.mem_filter.mp h).1
    exact trim_trim raw

/-- The entries behind a changeset's first. -/
theorem laterEntries {ran : List SandboxEntry} (n k : Nat) (htrim : ∀ e ∈ ran, trim e.sql = e.sql)
    (hzero : ∀ e ∈ ran, e.rows = 0) : (((ran.map SandboxEntry.sql).zipIdx (k + 1)).map
      (fun (sql, i) => (⟨sql, if i = 0 then n else 0⟩ : SandboxEntry))).map SandboxEntry.trimmed =
        ran := by
  induction ran generalizing k with
  | nil => rfl
  | cons e ran ih =>
    have hhead : (⟨trim e.sql, 0⟩ : SandboxEntry) = e := by
      rw [htrim e List.mem_cons_self, ← hzero e List.mem_cons_self]
    have hrest := ih (k + 1) (fun d hd => htrim d (List.mem_cons_of_mem e hd))
      (fun d hd => hzero d (List.mem_cons_of_mem e hd))
    rw [List.map_cons, List.zipIdx_cons, List.map_cons, List.map_cons, hrest]
    exact congrArg (· :: ran) hhead

/-- **The entries are the statements with their rows**, if the result still reports
their total and no statement but the first affected any. -/
theorem ranStatements_exact {tool : ReviewTool} {input : Json} {content : Bytes}
    {ran : List SandboxEntry} (hran : ran.map SandboxEntry.sql = submitted tool.name input)
    (htext : tool = .proposeWrite → ∃ sql, (input.get "sql").bind Json.asStr = some sql)
    (hrows : rowsReported content = totalRows ran) (hrest : ∀ e ∈ ran.tail, e.rows = 0) :
    (ranStatements tool input content).map SandboxEntry.trimmed = ran := by
  have htotal : ∀ e rest, ran = e :: rest → totalRows ran = e.rows := by
    rintro e rest rfl
    have hzero : (rest.map SandboxEntry.rows).sum = 0 := by
      rw [List.sum_eq_zero_iff_forall_eq_nat]
      intro n hn
      obtain ⟨d, hd, rfl⟩ := List.mem_map.mp hn
      exact hrest d hd
    unfold totalRows
    rw [List.map_cons, List.sum_cons, hzero, Nat.add_zero]
  cases tool with
  | proposeWrite =>
    obtain ⟨sql, hsql⟩ := htext rfl
    have hsub : submitted ReviewTool.proposeWrite.name input = [trim sql] := by
      show [proposedSql input] = _
      unfold proposedSql
      rw [hsql]
      rfl
    rw [hsub] at hran
    obtain ⟨e, rfl, he⟩ := List.map_eq_singleton_iff.mp hran
    unfold ranStatements
    rw [hsql, hrows, htotal e [] rfl]
    show [(⟨trim sql, e.rows⟩ : SandboxEntry)] = [e]
    rw [← he]
  | proposeChangeset =>
    have hsub : submitted ReviewTool.proposeChangeset.name input = changesetStatements input := rfl
    rw [hsub] at hran
    have htrim : ∀ e ∈ ran, trim e.sql = e.sql := fun e he =>
      changesetStatements_trimmed (hran ▸ List.mem_map_of_mem he)
    unfold ranStatements
    rw [← hran]
    cases ran with
    | nil => rfl
    | cons e rest =>
      have hhead : (⟨trim e.sql, e.rows⟩ : SandboxEntry) = e := by
        rw [htrim e List.mem_cons_self]
      have hlater := laterEntries e.rows 0 (fun d hd => htrim d (List.mem_cons_of_mem e hd)) hrest
      rw [hrows, htotal e rest rfl, List.map_cons, List.zipIdx_cons, List.map_cons, List.map_cons]
      exact congrArg₂ List.cons hhead hlater

end RedDb.Ai
