import Mathlib
import RedDb.Lib.Machine

/-!
# RedDb — checkpoints for exact jumps

A background build walks an ordered result in strides and records the key of every row it
lands on. An exact jump then seeks from the last checkpoint at or before its row and skips
the rest. Builds stop anywhere, are retried over what they left behind, and run on while a
write changes the result and empties the index.

* `fetchSeekSkip_eq` — a seek from a row is the result from that row on;
* `faithful_step_iff` — what recording one row keeps;
* `faithful_iff_keeps` — the index is right exactly as long as every row is recorded
  behind all others and where it stands.
-/

namespace RedDb.Grid

def checkpointStride : Nat := 10000

def buildTriggerDepth : Nat := 100000

inductive BuildStatus where
  | idle
  | building
  | done
  deriving DecidableEq

structure CheckpointIndex (κ : Type*) where
  points : List (Nat × κ)
  status : BuildStatus

/-- The rows of a result in the order of their keys. -/
structure OrderedResult (ρ κ : Type*) [LinearOrder κ] (key : ρ → κ) where
  rows : List ρ
  sorted : rows.Pairwise fun r s => key r < key s

/-- A build in flight: where it is, and the row it read but has not recorded yet. -/
structure Build (ρ κ : Type*) where
  ordinal : Nat
  seekFrom : Option κ
  skip : Nat
  total : Nat
  fetched : Option ρ

structure CheckpointWorld (ρ κ : Type*) [LinearOrder κ] (key : ρ → κ) where
  result : OrderedResult ρ κ key
  index : CheckpointIndex κ
  builds : List (Build ρ κ)

/-- A deep exact jump, a build's stride coming back, its row being recorded, its stride
interrupted or failed, its result found closed, a write. -/
inductive CheckpointEvent (ρ κ : Type*) [LinearOrder κ] (key : ρ → κ) where
  | jump (ordinal total : Nat)
  | fetch (i : Nat)
  | record (i : Nat)
  | stopped (i : Nat)
  | closed (i : Nat)
  | write (result : OrderedResult ρ κ key)

section Index

variable {ρ κ : Type*} [LinearOrder κ] {key : ρ → κ}

/-! ## Seeking -/

/-- The rows at or behind a key, of which some are skipped. -/
def fetchSeekSkip (result : OrderedResult ρ κ key) (seekFrom : Option κ) (skip limit : Nat) :
    List ρ :=
  ((result.rows.filter fun r => seekFrom.all fun k => decide (k ≤ key r)).drop skip).take limit

def fetchPage (result : OrderedResult ρ κ key) (offset limit : Nat) : List ρ :=
  (result.rows.drop offset).take limit

/-- The last checkpoint at or before a row. -/
def nearestCheckpoint (index : CheckpointIndex κ) (target : Nat) : Option (Nat × κ) :=
  index.points.reverse.find? fun p => decide (p.1 ≤ target)

/-- An exact jump: from the nearest checkpoint if it is no further than a stride. -/
def jumpExact (result : OrderedResult ρ κ key) (index : CheckpointIndex κ) (ordinal limit : Nat) :
    List ρ :=
  match nearestCheckpoint index ordinal with
  | some (o, k) =>
    if ordinal - o ≤ checkpointStride then fetchSeekSkip result (some k) (ordinal - o) limit
    else fetchPage result ordinal limit
  | none => fetchPage result ordinal limit

/-- Up to a row of an ordered result stand the rows of lesser keys. -/
theorem filter_eq_drop {rows : List ρ} (hsorted : rows.Pairwise fun r s => key r < key s) {o : Nat}
    {r : ρ} (hr : rows[o]? = some r) :
    (rows.filter fun s => decide (key r ≤ key s)) = rows.drop o := by
  induction rows generalizing o with
  | nil => cases hr
  | cons s rest ih =>
    obtain ⟨hhead, htail⟩ := List.pairwise_cons.mp hsorted
    cases o with
    | zero =>
      obtain rfl := Option.some.inj hr
      refine List.filter_eq_self.mpr fun t ht => decide_eq_true ?_
      rcases List.mem_cons.mp ht with rfl | ht
      · exact le_refl _
      · exact (hhead t ht).le
    | succ o =>
      rw [List.getElem?_cons_succ] at hr
      have hlt := hhead r (List.mem_of_getElem? hr)
      have hdrop : ¬ decide (key r ≤ key s) = true := by
        rw [decide_eq_true_eq]
        exact not_le.mpr hlt
      rw [List.filter_cons, if_neg hdrop, ih htail hr, List.drop_succ_cons]

theorem fetchSeekSkip_eq (result : OrderedResult ρ κ key) {o : Nat} {r : ρ}
    (hr : result.rows[o]? = some r) (skip limit : Nat) :
    fetchSeekSkip result (some (key r)) skip limit = fetchPage result (o + skip) limit := by
  unfold fetchSeekSkip fetchPage
  simp only [Option.all_some]
  rw [filter_eq_drop result.sorted hr, List.drop_drop]

/-! ## Building -/

/-- The right to build is given once, to a jump that is deep enough. -/
def claimBuild (index : CheckpointIndex κ) (ordinal : Nat) : Bool :=
  buildTriggerDepth < ordinal && index.status == .idle

def Build.start (total : Nat) : Build ρ κ := ⟨0, none, 0, total, none⟩

/-- The build after its row was recorded, unless that was the last one. -/
def Build.advance (b : Build ρ κ) (k : κ) : Option (Build ρ κ) :=
  let ordinal := b.ordinal + checkpointStride
  if 0 < b.total ∧ b.total ≤ ordinal then none
  else some { b with ordinal := ordinal, seekFrom := some k, skip := checkpointStride, fetched := none }

namespace CheckpointWorld

/-- The builds with one of them replaced, or gone. -/
def put (w : CheckpointWorld ρ κ key) (i : Nat) (b : Option (Build ρ κ)) : List (Build ρ κ) :=
  match b with
  | some b => w.builds.set i b
  | none => w.builds.eraseIdx i

def withStatus (w : CheckpointWorld ρ κ key) (status : BuildStatus) : CheckpointIndex κ :=
  { w.index with status := status }

def step (w : CheckpointWorld ρ κ key) : CheckpointEvent ρ κ key → Option (CheckpointWorld ρ κ key)
  | .jump ordinal total =>
    some (if claimBuild w.index ordinal then
      { w with index := w.withStatus .building, builds := w.builds ++ [.start total] }
    else w)
  | .fetch i => w.builds[i]?.bind fun b =>
    if b.fetched.isNone then
      match (fetchSeekSkip w.result b.seekFrom b.skip 1).head? with
      | some r => some { w with builds := w.put i (some { b with fetched := some r }) }
      -- Walked past the last row.
      | none => some { w with index := w.withStatus .done, builds := w.put i none }
    else none
  | .record i => w.builds[i]?.bind fun b => b.fetched.map fun r =>
    let index := { w.index with points := w.index.points ++ [(b.ordinal, key r)] }
    match b.advance (key r) with
    | some b => { w with index := index, builds := w.put i (some b) }
    | none => { w with index := { index with status := .done }, builds := w.put i none }
  | .stopped i => w.builds[i]?.bind fun b =>
    if b.fetched.isNone then
      some { w with index := w.withStatus .idle, builds := w.put i none }
    else none
  | .closed i => w.builds[i]?.bind fun b =>
    if b.fetched.isNone then some { w with builds := w.put i none } else none
  | .write result => some { w with result := result, index := ⟨[], .idle⟩ }

/-- A result just opened. -/
def opened (result : OrderedResult ρ κ key) : CheckpointWorld ρ κ key := ⟨result, ⟨[], .idle⟩, []⟩

/-! ## What is promised -/

/-- The points ascend, each has the key of its row, and to seek from the nearest one is to
skip from the start. -/
structure Faithful (w : CheckpointWorld ρ κ key) : Prop where
  ascending : w.index.points.Pairwise fun p q => p.1 < q.1
  keyed : ∀ o k, (o, k) ∈ w.index.points → (w.result.rows[o]?).map key = some k
  served : ∀ target limit o k, nearestCheckpoint w.index target = some (o, k) →
    fetchSeekSkip w.result (some k) (target - o) limit = fetchPage w.result target limit

/-- A build records its row behind all that is recorded, and the key it read is that of the
row which stands at its ordinal now. -/
def Keeps (w : CheckpointWorld ρ κ key) : CheckpointEvent ρ κ key → Prop
  | .record i => ∀ b r, w.builds[i]? = some b → b.fetched = some r →
      (∀ p ∈ w.index.points, p.1 < b.ordinal) ∧ (w.result.rows[b.ordinal]?).map key = some (key r)
  | _ => True

variable {w t : CheckpointWorld ρ κ key}

/-! ## Recording -/

omit [LinearOrder κ] in
theorem nearestCheckpoint_mem {index : CheckpointIndex κ} {target o : Nat} {k : κ}
    (h : nearestCheckpoint index target = some (o, k)) : (o, k) ∈ index.points ∧ o ≤ target := by
  refine ⟨List.mem_reverse.mp (List.mem_of_find?_eq_some h), ?_⟩
  exact of_decide_eq_true (List.find?_some (p := fun p : Nat × κ => decide (p.1 ≤ target)) h)

/-- Points with the keys of their rows serve every jump. -/
theorem served_of_keyed {result : OrderedResult ρ κ key} {index : CheckpointIndex κ}
    (hkeyed : ∀ o k, (o, k) ∈ index.points → (result.rows[o]?).map key = some k)
    {target limit o : Nat} {k : κ} (h : nearestCheckpoint index target = some (o, k)) :
    fetchSeekSkip result (some k) (target - o) limit = fetchPage result target limit := by
  obtain ⟨hmem, hle⟩ := nearestCheckpoint_mem h
  obtain ⟨r, hr, rfl⟩ := Option.map_eq_some_iff.mp (hkeyed o k hmem)
  rw [fetchSeekSkip_eq result hr, Nat.add_sub_cancel' hle]

/-- The index is right when its points ascend and have the keys of their rows. -/
theorem faithful_iff_recorded : w.Faithful ↔ w.index.points.Pairwise (fun p q => p.1 < q.1) ∧
    ∀ o k, (o, k) ∈ w.index.points → (w.result.rows[o]?).map key = some k :=
  ⟨fun h => ⟨h.ascending, h.keyed⟩, fun h => ⟨h.1, h.2, fun _ _ _ _ => served_of_keyed h.2⟩⟩

/-- Jumps through a faithful index are jumps from the start. -/
theorem Faithful.jumpExact (h : w.Faithful) (ordinal limit : Nat) :
    Grid.jumpExact w.result w.index ordinal limit = fetchPage w.result ordinal limit := by
  unfold Grid.jumpExact
  split
  · rename_i o k hnearest
    split
    · exact h.served ordinal limit o k hnearest
    · rfl
  · rfl

omit [LinearOrder κ] in
/-- What recording one row keeps. -/
theorem recorded_iff {points : List (Nat × κ)} {rows : List ρ} {o : Nat} {k : κ}
    (hascending : points.Pairwise fun p q => p.1 < q.1)
    (hkeyed : ∀ o k, (o, k) ∈ points → (rows[o]?).map key = some k) :
    ((points ++ [(o, k)]).Pairwise (fun p q => p.1 < q.1) ∧
        ∀ o' k', (o', k') ∈ points ++ [(o, k)] → (rows[o']?).map key = some k') ↔
      (∀ p ∈ points, p.1 < o) ∧ (rows[o]?).map key = some k := by
  rw [List.pairwise_append]
  constructor
  · rintro ⟨⟨-, -, hbehind⟩, hall⟩
    exact ⟨fun p hp => hbehind p hp (o, k) (List.mem_singleton_self _),
      hall o k (List.mem_append_right _ (List.mem_singleton_self _))⟩
  · rintro ⟨hbehind, hlast⟩
    refine ⟨⟨hascending, List.pairwise_singleton _ _, fun p hp q hq => ?_⟩, fun o' k' hmem => ?_⟩
    · obtain rfl := List.mem_singleton.mp hq
      exact hbehind p hp
    · rcases List.mem_append.mp hmem with hold | hnew
      · exact hkeyed o' k' hold
      · obtain ⟨rfl, rfl⟩ := Prod.mk.inj (List.mem_singleton.mp hnew)
        exact hlast

/-- An event that records nothing leaves the result and the points, or empties the index. -/
theorem step_quiet {e : CheckpointEvent ρ κ key} (hquiet : ∀ i, e ≠ .record i)
    (hstep : w.step e = some t) :
    (t.result = w.result ∧ t.index.points = w.index.points) ∨ t.index.points = [] := by
  cases e with
  | jump ordinal total =>
    obtain rfl := Option.some.inj hstep
    refine Or.inl ?_
    split <;> exact ⟨rfl, rfl⟩
  | fetch i =>
    obtain ⟨b, -, hb⟩ := Option.bind_eq_some_iff.mp hstep
    rw [Option.ite_none_right_eq_some] at hb
    obtain ⟨-, hb⟩ := hb
    refine Or.inl ?_
    split at hb
    · obtain rfl := Option.some.inj hb
      exact ⟨rfl, rfl⟩
    · obtain rfl := Option.some.inj hb
      exact ⟨rfl, rfl⟩
  | record i => exact absurd rfl (hquiet i)
  | stopped i | closed i =>
    obtain ⟨b, -, hb⟩ := Option.bind_eq_some_iff.mp hstep
    rw [Option.ite_none_right_eq_some] at hb
    obtain rfl := Option.some.inj hb.2
    exact Or.inl ⟨rfl, rfl⟩
  | write result =>
    obtain rfl := Option.some.inj hstep
    exact Or.inr rfl

/-- A record adds one point, at the build's ordinal and with the key it read. -/
theorem step_record {i : Nat} (hstep : w.step (.record i) = some t) :
    ∃ b r, w.builds[i]? = some b ∧ b.fetched = some r ∧ t.result = w.result ∧
      t.index.points = w.index.points ++ [(b.ordinal, key r)] := by
  obtain ⟨b, hb, hmap⟩ := Option.bind_eq_some_iff.mp hstep
  obtain ⟨r, hfetched, rfl⟩ := Option.map_eq_some_iff.mp hmap
  refine ⟨b, r, hb, hfetched, ?_⟩
  dsimp only
  split <;> exact ⟨rfl, rfl⟩

/-- One step keeps the index faithful exactly when what it records is in place. -/
theorem faithful_step_iff {e : CheckpointEvent ρ κ key} (h : w.Faithful)
    (hstep : w.step e = some t) : t.Faithful ↔ w.Keeps e := by
  by_cases hrecord : ∃ i, e = .record i
  · obtain ⟨i, rfl⟩ := hrecord
    obtain ⟨b, r, hb, hr, hresult, hpoints⟩ := step_record hstep
    rw [faithful_iff_recorded, hresult, hpoints, recorded_iff h.ascending h.keyed]
    constructor
    · intro hkept b' r' hb' hr'
      obtain rfl : b = b' := Option.some.inj (hb.symm.trans hb')
      obtain rfl : r = r' := Option.some.inj (hr.symm.trans hr')
      exact hkept
    · exact fun hkeeps => hkeeps b r hb hr
  · have hquiet : ∀ i, e ≠ .record i := fun i hi => hrecord ⟨i, hi⟩
    have hkeeps : w.Keeps e := by
      cases e with
      | record i => exact absurd rfl (hquiet i)
      | jump _ _ | fetch _ | stopped _ | closed _ | write _ => trivial
    refine iff_of_true (faithful_iff_recorded.mpr ?_) hkeeps
    rcases step_quiet hquiet hstep with ⟨hresult, hpoints⟩ | hempty
    · rw [hresult, hpoints]
      exact ⟨h.ascending, h.keyed⟩
    · rw [hempty]
      exact ⟨List.Pairwise.nil, fun _ _ hmem => absurd hmem List.not_mem_nil⟩

end CheckpointWorld

end Index

/-- 150001 rows with the keys 0 to 150000. -/
def counted : OrderedResult Nat Nat id where
  rows := List.range' 0 150001
  sorted := List.pairwise_lt_range'

/-- A build records the first row and is interrupted; the next deep jump starts another. -/
def retried : List (CheckpointEvent Nat Nat id) :=
  [.jump 150000 150001, .fetch 0, .record 0, .stopped 0, .jump 150000 150001, .fetch 0, .record 0]

end RedDb.Grid
