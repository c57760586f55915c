import Mathlib.Logic.Function.Basic

/-!
# Files that are replaced as a whole

A directory names inodes, and a handle stays with the inode it was opened on. Writers that
share a temporary name open it empty, write their text, sync and rename it over the target,
in any order of their steps.

* `Dir` — names, inodes and their contents;
* `Shared.step` — one step of one writer;
* `Sound.step` — what it keeps, when no text is written over a longer one and the file is
  not renamed under a writer that has still to write it;
* `Sound.read` — and then the target holds a whole text.
-/

namespace Files

variable {P α : Type*}

structure Dir (P α : Type*) where
  inode : P → Option Nat
  content : Nat → List α
  fresh : Nat

namespace Dir

def read (d : Dir P α) (p : P) : Option (List α) := (d.inode p).map d.content

/-- Open for writing, created if it is not there and emptied if it is. -/
def openTruncate [DecidableEq P] (d : Dir P α) (p : P) : Nat × Dir P α :=
  match d.inode p with
  | some i => (i, { d with content := Function.update d.content i [] })
  | none => (d.fresh, ⟨Function.update d.inode p (some d.fresh), Function.update d.content d.fresh [], d.fresh + 1⟩)

/-- Write at the start of the file: what reaches further stays. -/
def write (d : Dir P α) (i : Nat) (text : List α) : Dir P α :=
  { d with content := Function.update d.content i (text ++ (d.content i).drop text.length) }

/-- Rename to another name, none if there is no such file. -/
def rename [DecidableEq P] (d : Dir P α) (src dst : P) : Option (Dir P α) :=
  (d.inode src).map fun i => { d with inode := Function.update (Function.update d.inode dst (some i)) src none }

end Dir

/-- How far a writer has come, with the inode its handle is on. -/
inductive Stage where
  | started
  | opened (i : Nat)
  | written (i : Nat)
  | synced (i : Nat)
  | ended (ok : Bool)

structure Writer (α : Type*) where
  text : List α
  stage : Stage

structure Shared (P α : Type*) where
  dir : Dir P α
  writers : List (Writer α)

namespace Shared

def start (s : Shared P α) (text : List α) : Shared P α := { s with writers := s.writers ++ [⟨text, .started⟩] }

/-- Writer `k` takes its next step. -/
def step [DecidableEq P] (tmp dst : P) (s : Shared P α) (k : Nat) : Shared P α :=
  match s.writers[k]? with
  | none => s
  | some w =>
    match w.stage with
    | .started =>
      let (i, dir) := s.dir.openTruncate tmp
      ⟨dir, s.writers.set k { w with stage := .opened i }⟩
    | .opened i => ⟨s.dir.write i w.text, s.writers.set k { w with stage := .written i }⟩
    | .written i => ⟨s.dir, s.writers.set k { w with stage := .synced i }⟩
    | .synced _ =>
      match s.dir.rename tmp dst with
      | some dir => ⟨dir, s.writers.set k { w with stage := .ended true }⟩
      | none => ⟨s.dir, s.writers.set k { w with stage := .ended false }⟩
    | .ended _ => s

/-- The step writes over no longer text, or renames a file that every writer which has it open
has written. -/
def Clear (s : Shared P α) (k : Nat) : Prop :=
  match s.writers[k]? with
  | some ⟨text, .opened i⟩ => (s.dir.content i).length ≤ text.length
  | some ⟨_, .synced _⟩ => ∀ w ∈ s.writers, ∀ i, w.stage ≠ .opened i
  | _ => True

end Shared

/-- The texts are good ones, and so is what the target holds. What the temporary file holds is
good but for a writer that has it open and has still to write it. -/
structure Sound (tmp dst : P) (Good : List α → Prop) (s : Shared P α) : Prop where
  texts : ∀ w ∈ s.writers, Good w.text
  target : ∀ i, s.dir.inode dst = some i → Good (s.dir.content i)
  temp : ∀ i, s.dir.inode tmp = some i → Good (s.dir.content i) ∨ ∃ w ∈ s.writers, w.stage = .opened i
  opened : ∀ w ∈ s.writers, ∀ i, w.stage = .opened i → s.dir.inode tmp = some i
  apart : ∀ i, s.dir.inode tmp = some i → s.dir.inode dst ≠ some i
  below : ∀ p i, s.dir.inode p = some i → i < s.dir.fresh

variable {tmp dst : P} {Good Good' : List α → Prop} {s : Shared P α} {k : Nat} {w : Writer α} {d : Dir P α}

theorem Sound.read (h : Sound tmp dst Good s) {text : List α} (hread : s.dir.read dst = some text) : Good text := by
  obtain ⟨i, hi, rfl⟩ := Option.map_eq_some_iff.mp hread
  exact h.target i hi

theorem Sound.mono (h : Sound tmp dst Good s) (hgood : ∀ text, Good text → Good' text) : Sound tmp dst Good' s where
  texts w hw := hgood _ (h.texts w hw)
  target i hi := hgood _ (h.target i hi)
  temp i hi := (h.temp i hi).imp_left (hgood _)
  opened := h.opened
  apart := h.apart
  below := h.below

theorem Sound.start (h : Sound tmp dst Good s) {text : List α} (hgood : Good text) : Sound tmp dst Good (s.start text) where
  texts w hw := by
    obtain hw | hw := List.mem_append.mp hw
    · exact h.texts w hw
    · rw [List.mem_singleton.mp hw]
      exact hgood
  target := h.target
  temp i hi := (h.temp i hi).imp_right fun ⟨w, hw, ho⟩ => ⟨w, List.mem_append_left _ hw, ho⟩
  opened w hw i ho := by
    obtain hw | hw := List.mem_append.mp hw
    · exact h.opened w hw i ho
    · rw [List.mem_singleton.mp hw] at ho
      exact Stage.noConfusion ho
  apart := h.apart
  below := h.below

/-! ## One writer goes on -/

theorem mem_set_stage {l : List (Writer α)} {stage : Stage} {v : Writer α}
    (hv : v ∈ l.set k { w with stage }) : v ∈ l ∨ v = { w with stage } := List.mem_or_eq_of_mem_set hv

/-- The texts stay good when a writer changes its stage. -/
theorem Sound.texts_set (h : Sound tmp dst Good s) (hk : s.writers[k]? = some w) (stage : Stage) :
    ∀ v ∈ s.writers.set k { w with stage }, Good v.text := by
  intro v hv
  obtain hv | rfl := mem_set_stage hv
  · exact h.texts v hv
  · exact h.texts w (List.mem_of_getElem? hk)

/-- Another writer is still there. -/
theorem mem_set_of_stage_ne {l : List (Writer α)} {stage : Stage} {v : Writer α} (hk : l[k]? = some w) (hv : v ∈ l)
    (hne : v.stage ≠ w.stage) : v ∈ l.set k { w with stage } := by
  obtain ⟨j, hj⟩ := List.mem_iff_getElem?.mp hv
  have hjk : k ≠ j := by
    rintro rfl
    exact hne (congrArg Writer.stage (Option.some.inj (hj.symm.trans hk)))
  exact List.mem_iff_getElem?.mpr ⟨j, by rw [List.getElem?_set_ne hjk, hj]⟩

theorem mem_set_self {l : List (Writer α)} (hk : l[k]? = some w) (stage : Stage) :
    ({ w with stage } : Writer α) ∈ l.set k { w with stage } :=
  List.mem_iff_getElem?.mpr ⟨k, by rw [List.getElem?_set_self (List.getElem?_eq_some_iff.mp hk).1]⟩

/-- A step that leaves the files alone and opens nothing. -/
theorem Sound.quiet (h : Sound tmp dst Good s) (hk : s.writers[k]? = some w) {stage : Stage}
    (hw : ∀ i, w.stage ≠ .opened i) (hstage : ∀ i, stage ≠ .opened i) :
    Sound tmp dst Good ⟨s.dir, s.writers.set k { w with stage }⟩ where
  texts := h.texts_set hk stage
  target := h.target
  temp i hi := (h.temp i hi).imp_right fun ⟨v, hv, ho⟩ =>
    ⟨v, mem_set_of_stage_ne hk hv fun heq => hw i (heq.symm.trans ho), ho⟩
  opened v hv i ho := by
    obtain hv | rfl := mem_set_stage hv
    · exact h.opened v hv i ho
    · exact absurd ho (hstage i)
  apart := h.apart
  below := h.below

theorem Sound.write (h : Sound tmp dst Good s) (hk : s.writers[k]? = some w) {i : Nat} (hw : w.stage = .opened i)
    (hlen : (s.dir.content i).length ≤ w.text.length) :
    Sound tmp dst Good ⟨s.dir.write i w.text, s.writers.set k { w with stage := .written i }⟩ := by
  have hmem : w ∈ s.writers := List.mem_of_getElem? hk
  have htmp : s.dir.inode tmp = some i := h.opened w hmem i hw
  have htext : w.text ++ (s.dir.content i).drop w.text.length = w.text := by
    rw [List.drop_eq_nil_of_le hlen, List.append_nil]
  refine ⟨h.texts_set hk _, fun j hj => ?_, fun j hj => Or.inl ?_, fun v hv j ho => ?_, h.apart, h.below⟩
  · have hij : j ≠ i := by
      rintro rfl
      exact h.apart j htmp hj
    show Good (Function.update s.dir.content i _ j)
    rw [Function.update_of_ne hij]
    exact h.target j hj
  · obtain rfl := Option.some.inj (htmp.symm.trans hj)
    show Good (Function.update s.dir.content i _ i)
    rw [Function.update_self, htext]
    exact h.texts w hmem
  · obtain hv | rfl := mem_set_stage hv
    · exact h.opened v hv j ho
    · exact Stage.noConfusion ho

variable [DecidableEq P]

theorem Sound.open (h : Sound tmp dst Good s) (hne : tmp ≠ dst) (hk : s.writers[k]? = some w) :
    Sound tmp dst Good ⟨(s.dir.openTruncate tmp).2, s.writers.set k { w with stage := .opened (s.dir.openTruncate tmp).1 }⟩ := by
  unfold Dir.openTruncate
  cases htmp : s.dir.inode tmp with
  | some j =>
    refine ⟨h.texts_set hk _, fun i hi => ?_, fun i hi => ?_, fun v hv i ho => ?_, h.apart, h.below⟩
    · have hij : i ≠ j := by
        rintro rfl
        exact h.apart i htmp hi
      show Good (Function.update s.dir.content j [] i)
      rw [Function.update_of_ne hij]
      exact h.target i hi
    · obtain rfl := Option.some.inj (htmp.symm.trans hi)
      exact Or.inr ⟨_, mem_set_self hk _, rfl⟩
    · obtain hv | rfl := mem_set_stage hv
      · exact h.opened v hv i ho
      · rw [← Stage.opened.inj ho]
        exact htmp
  | none =>
    have hinode : Function.update s.dir.inode tmp (some s.dir.fresh) dst = s.dir.inode dst :=
      Function.update_of_ne hne.symm _ _
    have hself : Function.update s.dir.inode tmp (some s.dir.fresh) tmp = some s.dir.fresh := Function.update_self ..
    refine ⟨h.texts_set hk _, fun i hi => ?_, fun i hi => ?_, fun v hv i ho => ?_, fun i hi hdst => ?_, fun p i hi => ?_⟩
    · have hi' : s.dir.inode dst = some i := hinode.symm.trans hi
      have hij : i ≠ s.dir.fresh := Nat.ne_of_lt (h.below dst i hi')
      show Good (Function.update s.dir.content s.dir.fresh [] i)
      rw [Function.update_of_ne hij]
      exact h.target i hi'
    · obtain rfl := Option.some.inj (hself.symm.trans hi)
      exact Or.inr ⟨_, mem_set_self hk _, rfl⟩
    · obtain hv | rfl := mem_set_stage hv
      · exact absurd ((h.opened v hv i ho).symm.trans htmp) (Option.some_ne_none _)
      · rw [← Stage.opened.inj ho]
        exact hself
    · have hlt := h.below dst i (hinode.symm.trans hdst)
      have := Option.some.inj (hself.symm.trans hi)
      omega
    · show i < s.dir.fresh + 1
      have hi' : Function.update s.dir.inode tmp (some s.dir.fresh) p = some i := hi
      by_cases hp : p = tmp
      · rw [hp, Function.update_self] at hi'
        have := Option.some.inj hi'
        omega
      · rw [Function.update_of_ne hp] at hi'
        have := h.below p i hi'
        omega

theorem Sound.rename (h : Sound tmp dst Good s) (hne : tmp ≠ dst) (hk : s.writers[k]? = some w)
    (hopened : ∀ v ∈ s.writers, ∀ i, v.stage ≠ .opened i) (hd : s.dir.rename tmp dst = some d) :
    Sound tmp dst Good ⟨d, s.writers.set k { w with stage := .ended true }⟩ := by
  obtain ⟨j, hj, rfl⟩ := Option.map_eq_some_iff.mp hd
  have htmp : Function.update (Function.update s.dir.inode dst (some j)) tmp none tmp = none :=
    Function.update_self ..
  refine ⟨h.texts_set hk _, fun i hi => ?_, fun i hi => ?_, fun v hv i ho => ?_, fun i hi => ?_, fun p i hi => ?_⟩
  · have hi' : some j = some i := by
      rw [← hi]
      show _ = Function.update (Function.update s.dir.inode dst (some j)) tmp none dst
      rw [Function.update_of_ne hne.symm, Function.update_self]
    obtain rfl := Option.some.inj hi'
    exact (h.temp j hj).resolve_right fun ⟨v, hv, ho⟩ => hopened v hv j ho
  · exact absurd (hi.symm.trans htmp) (Option.some_ne_none _)
  · obtain hv | rfl := mem_set_stage hv
    · exact absurd ho (hopened v hv i)
    · exact Stage.noConfusion ho
  · exact absurd (hi.symm.trans htmp) (Option.some_ne_none _)
  · have hi' : Function.update (Function.update s.dir.inode dst (some j)) tmp none p = some i := hi
    by_cases hp : p = tmp
    · rw [hp, Function.update_self] at hi'
      exact absurd hi'.symm (Option.some_ne_none _)
    rw [Function.update_of_ne hp] at hi'
    by_cases hp' : p = dst
    · rw [hp', Function.update_self] at hi'
      rw [← Option.some.inj hi']
      exact h.below tmp j hj
    · rw [Function.update_of_ne hp'] at hi'
      exact h.below p i hi'

/-- **One step of one writer** keeps the files sound. -/
theorem Sound.step (h : Sound tmp dst Good s) (hne : tmp ≠ dst) (hclear : s.Clear k) :
    Sound tmp dst Good (s.step tmp dst k) := by
  unfold Shared.step
  unfold Shared.Clear at hclear
  split
  · exact h
  rename_i w hk
  rw [hk] at hclear
  obtain ⟨text, stage⟩ := w
  cases stage with
  | started => exact h.open hne hk
  | opened i => exact h.write hk rfl hclear
  | written i => exact h.quiet hk (fun j => Stage.noConfusion) fun j => Stage.noConfusion
  | synced i =>
    dsimp only
    split
    · rename_i d hd
      exact h.rename hne hk hclear hd
    · exact h.quiet hk (fun j => Stage.noConfusion) fun j => Stage.noConfusion
  | ended ok => exact h

end Files
