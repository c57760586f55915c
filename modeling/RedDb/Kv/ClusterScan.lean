import RedDb.Kv.Reads

/-!
# RedDb — the scan of a cluster

A page of the scan walks the masters in order and hands its position on as a cursor. A
master that fails is asked again at the same cursor, and is left after
`maxScanNodeRetries` more failures in a row.

* `Drained` — the rounds of one master, from cursor 0 to where it is left;
* `Inv.round` — what one round keeps, `Inv.call` what a page keeps;
* `walk_complete` — what the pages of a whole walk hold.
-/

namespace RedDb.Kv.Scan

open ByteText RedDb.Driver

/-! ## Keys and their metadata -/

def rejsonWireType : Bytes := ascii "ReJSON-RL"

/-- A `TYPE` reply. -/
def parseKvType (raw : Bytes) : Option KvType :=
  if raw = ascii "string" then some .string
  else if raw = ascii "hash" then some .hash
  else if raw = ascii "list" then some .list
  else if raw = ascii "set" then some .set
  else if raw = ascii "zset" then some .zset
  else if raw = ascii "stream" then some .stream
  else if raw = rejsonWireType then some .json
  else if raw = ascii "none" then none
  else some (.other raw)

structure KeyMeta where
  key : Bytes
  kvType : KvType
  ttl : Option Nat
  encoding : Bytes
  approxBytes : Nat

/-- A reply of the pipeline, as it decodes to text and to a number. -/
structure Reply where
  string : Option Bytes
  i64 : Option Int

/-- The four replies of one key. A key that is gone has the type `none`. -/
def keyMeta (key : Bytes) (replies : List Reply) : Option KeyMeta :=
  match (replies[0]?.bind Reply.string).bind parseKvType with
  | none => none
  | some kvType => some {
      key
      kvType
      ttl := (replies[1]?.bind Reply.i64).bind fun ms => if ms < 0 then none else some ms.toNat
      encoding := (replies[2]?.bind Reply.string).getD []
      approxBytes := ((replies[3]?.bind Reply.i64).getD 0).toNat }

def fetchKeyMetaBatch (keys : List Bytes) (replies : List Reply) : List KeyMeta :=
  keys.zipIdx.filterMap fun (key, i) => keyMeta key (replies.drop (i * 4))

/-- A key whose type is known is not left out. -/
theorem mem_fetchKeyMetaBatch {keys : List Bytes} {replies : List Reply} {i : Nat} {key : Bytes} {t : KvType}
    (hkey : keys[i]? = some key) (ht : (replies[i * 4]?.bind Reply.string).bind parseKvType = some t) :
    ∃ m ∈ fetchKeyMetaBatch keys replies, m.key = key ∧ m.kvType = t := by
  have hmem : (key, i) ∈ keys.zipIdx := List.mem_zipIdx_iff_getElem?.mpr hkey
  have hmeta : ∃ m, keyMeta key (replies.drop (i * 4)) = some m ∧ m.key = key ∧ m.kvType = t := by
    rw [keyMeta, List.getElem?_drop, Nat.add_zero, ht]
    exact ⟨_, rfl, rfl, rfl⟩
  obtain ⟨m, hm, hk, hty⟩ := hmeta
  exact ⟨m, List.mem_filterMap.mpr ⟨(key, i), hmem, hm⟩, hk, hty⟩

/-! ## The scan -/

inductive ScanCursor where
  | single (cursor : Nat)
  | cluster (node cursor : Nat)

def ScanCursor.start : ScanCursor := .single 0

structure KvScanPage where
  keys : List KeyMeta
  nextCursor : ScanCursor
  exhausted : Bool

def maxScanNodeRetries : Nat := 3

/-- What a master answers in one round: a `SCAN` reply with the raw names of its batch, and
behind it the replies of the metadata pipeline, unless one of the two fails. -/
inductive Exchange where
  | failed
  | scanned (next : Nat) (raw : List Bytes) (replies : Option (List Reply))

/-- The next cursor and the keys of a round that succeeds. An empty batch asks for no
metadata. -/
def Exchange.kept : Exchange → Option (Nat × List KeyMeta)
  | .failed => none
  | .scanned next raw replies =>
    let batch := raw.map fromUtf8Lossy
    if batch.isEmpty then some (next, [])
    else replies.map fun replies => (next, fetchKeyMetaBatch batch replies)

structure ClusterScan where
  node : Nat
  cur : Nat
  nodeRetries : Nat
  keys : List KeyMeta

/-- The round failed: the same position is tried again, or the master is given up. -/
def ClusterScan.retry (s : ClusterScan) : ClusterScan :=
  if s.nodeRetries + 1 ≤ maxScanNodeRetries then { s with nodeRetries := s.nodeRetries + 1 }
  else { s with node := s.node + 1, cur := 0, nodeRetries := 0 }

def ClusterScan.round (s : ClusterScan) (x : Exchange) : ClusterScan :=
  match x.kept with
  | none => s.retry
  | some (next, metas) => {
      node := if next = 0 then s.node + 1 else s.node
      cur := next
      nodeRetries := 0
      keys := s.keys ++ metas }

/-- The index is a `u32` in the cursor. -/
def ClusterScan.page (masters : Nat) (s : ClusterScan) : KvScanPage where
  keys := s.keys
  nextCursor := .cluster (s.node % 2 ^ 32) s.cur
  exhausted := masters ≤ s.node

/-- A round as the loop meets it: whether the user has aborted, what the master answers,
and whether the deadline is over then. -/
structure Turn where
  aborted : Bool
  exchange : Exchange
  late : Bool

inductive Call where
  | page (p : KvScanPage)
  | interrupted
  | waiting

/-- The page ends behind a round that succeeds. -/
def pageEnds (want : Nat) (t : Turn) (s : ClusterScan) : Bool :=
  t.exchange.kept.isSome && (want ≤ s.keys.length || t.late)

def scanLoop (masters want : Nat) (s : ClusterScan) : List Turn → Call
  | [] => if masters ≤ s.node then .page (s.page masters) else .waiting
  | t :: turns =>
    if masters ≤ s.node then .page (s.page masters)
    else if t.aborted then .interrupted
    else if pageEnds want t (s.round t.exchange) then .page ((s.round t.exchange).page masters)
    else scanLoop masters want (s.round t.exchange) turns

def ScanCursor.resume : ScanCursor → ClusterScan
  | .cluster node cursor => ⟨node, cursor, 0, []⟩
  | .single _ => ⟨0, 0, 0, []⟩

def scanCluster (masters want : Nat) (cursor : ScanCursor) (turns : List Turn) : Call :=
  scanLoop masters want cursor.resume turns

/-! ## The walk over the pages -/

/-- A round and the position it was asked at. -/
structure Asked where
  node : Nat
  cur : Nat
  exchange : Exchange

namespace Asked

def position (a : Asked) : Nat × Nat := (a.node, a.cur)

def found (a : Asked) : List KeyMeta := (a.exchange.kept.map Prod.snd).getD []

def Failing (a : Asked) : Prop := a.exchange.kept = none

end Asked

def ClusterScan.position (s : ClusterScan) : Nat × Nat := (s.node, s.cur)

def ClusterScan.ask (s : ClusterScan) (x : Exchange) : Asked := ⟨s.node, s.cur, x⟩

/-- The rounds of a call. -/
def asked (masters want : Nat) (s : ClusterScan) : List Turn → List Asked
  | [] => []
  | t :: turns =>
    if masters ≤ s.node ∨ t.aborted then []
    else s.ask t.exchange ::
      if pageEnds want t (s.round t.exchange) then [] else asked masters want (s.round t.exchange) turns

/-- A walk that follows the cursors, with the rounds of the calls that gave a page. -/
structure Walk where
  cursor : ScanCursor
  keys : List KeyMeta
  exhausted : Bool
  log : List Asked

def Walk.start : Walk := ⟨.start, [], false, []⟩

structure PageCall where
  want : Nat
  turns : List Turn

/-- A call that gives no page leaves the walk where it is. -/
def Walk.call (masters : Nat) (w : Walk) (c : PageCall) : Walk :=
  if w.exhausted then w
  else
    match scanCluster masters c.want w.cursor c.turns with
    | .page p => ⟨p.nextCursor, w.keys ++ p.keys, p.exhausted, w.log ++ asked masters c.want w.cursor.resume c.turns⟩
    | .interrupted | .waiting => w

def walk (masters : Nat) (calls : List PageCall) : Walk := calls.foldl (Walk.call masters) .start

/-! ## What a walk is for -/

/-- The rounds of a master from a cursor on: they follow its cursors to 0, a round that
fails is asked again, or they end with a round and its retries all failing. -/
inductive Drained (node : Nat) : Nat → List Asked → Prop where
  | done {cur x metas} (h : Exchange.kept x = some (0, metas)) : Drained node cur [⟨node, cur, x⟩]
  | next {cur x n metas log} (h : Exchange.kept x = some (n, metas)) (hn : n ≠ 0) (hrest : Drained node n log) :
      Drained node cur (⟨node, cur, x⟩ :: log)
  | again {cur x log} (h : Exchange.kept x = none) (hrest : Drained node cur log) :
      Drained node cur (⟨node, cur, x⟩ :: log)
  | skipped {cur log} (hlen : log.length = maxScanNodeRetries + 1)
      (h : ∀ a ∈ log, a.Failing ∧ a.position = (node, cur)) : Drained node cur log

/-- The log holds a whole scan of the master. -/
def DrainedIn (node : Nat) (log : List Asked) : Prop :=
  ∃ head rounds tail, log = head ++ rounds ++ tail ∧ Drained node 0 rounds

/-- The round is the last of a master that is given up. -/
def GivenUp (before : List Asked) (a : Asked) : Prop :=
  ∃ head tail, before = head ++ tail ∧ tail.length = maxScanNodeRetries ∧
    ∀ b ∈ tail, b.Failing ∧ b.position = a.position

/-- Behind a round that fails its position is asked again, `here` being where the log goes
on, or the master was given up. -/
def AskedAgain (here : Option (Nat × Nat)) (log : List Asked) : Prop :=
  ∀ head a tail, log = head ++ a :: tail → a.Failing →
    (tail.head?.map Asked.position).or here = some a.position ∨ GivenUp head a

/-- What the pages of a walk hold, and when the walk may end. -/
structure Complete (masters : Nat) (w : Walk) : Prop where
  yields : ∀ a ∈ w.log, ∀ next raw replies, a.exchange = .scanned next raw (some replies) →
    ∀ i key t, raw[i]? = some key → (replies[i * 4]?.bind Reply.string).bind parseKvType = some t →
      ∃ m ∈ w.keys, m.key = fromUtf8Lossy key ∧ m.kvType = t
  retried : AskedAgain none w.log
  drained : w.exhausted = true → ∀ node < masters, DrainedIn node w.log

/-! ## One round -/

variable {masters want node cur : Nat} {s t : ClusterScan} {x : Exchange} {a : Asked} {log log' : List Asked}

theorem DrainedIn.append (h : DrainedIn node log) (log' : List Asked) : DrainedIn node (log ++ log') := by
  obtain ⟨head, rounds, tail, rfl, hrounds⟩ := h
  exact ⟨head, rounds, tail ++ log', List.append_assoc .., hrounds⟩

/-- Failing rounds in front of a scan that goes on at their position. -/
theorem Drained.retried {tail rest : List Asked} (htail : ∀ b ∈ tail, b.Failing ∧ b.position = (node, cur))
    (h : Drained node cur rest) : Drained node cur (tail ++ rest) := by
  induction tail with
  | nil => exact h
  | cons b tail ih =>
    obtain ⟨hfailing, hpos⟩ := htail b List.mem_cons_self
    obtain ⟨n, c, y⟩ := b
    obtain ⟨rfl, rfl⟩ := Prod.mk.inj hpos
    exact .again hfailing (ih fun b hb => htail b (List.mem_cons_of_mem _ hb))

theorem AskedAgain.append_one {here next : Nat × Nat} (h : AskedAgain (some here) log) (ha : a.position = here)
    (hnext : a.Failing → next = a.position ∨ GivenUp log a) : AskedAgain (some next) (log ++ [a]) := by
  intro head b tail heq hb
  obtain rfl | ⟨tail, last, rfl⟩ := List.eq_nil_or_concat' tail
  · obtain ⟨rfl, hlast⟩ := List.append_inj' heq rfl
    obtain ⟨rfl, -⟩ := List.cons.inj hlast
    exact (hnext hb).imp_left fun hn => congrArg some hn
  rw [← List.cons_append, ← List.append_assoc] at heq
  obtain ⟨hlog, hlast⟩ := List.append_inj' heq rfl
  obtain ⟨rfl, -⟩ := List.cons.inj hlast
  refine (h head b tail hlog hb).imp_left fun hn => ?_
  cases tail with
  | nil => exact (congrArg some ha).trans hn
  | cons c tail => exact hn

/-- A log that is settled may go on anywhere. -/
theorem AskedAgain.goOn (h : AskedAgain none log) (here : Nat × Nat) : AskedAgain (some here) log := by
  intro head b tail heq hb
  refine (h head b tail heq hb).imp_left fun hn => ?_
  cases tail with
  | nil => exact absurd hn.symm (Option.some_ne_none _)
  | cons c tail => exact hn

/-- The log as the scan stands in the middle of a page: the masters before it are drained, and
its own rounds lead to where it stands, the last of them failing ones. -/
structure Inv (masters : Nat) (s : ClusterScan) (log : List Asked) : Prop where
  inside : ∀ a ∈ log, a.node < masters
  drained : ∀ node < s.node, DrainedIn node log
  bounded : s.nodeRetries ≤ maxScanNodeRetries
  current : ∃ head rounds tail, log = head ++ rounds ++ tail ∧ tail.length = s.nodeRetries ∧
    (∀ b ∈ tail, b.Failing ∧ b.position = s.position) ∧
    (DrainedIn s.node log ∨ ∀ rest, Drained s.node s.cur rest → Drained s.node 0 (rounds ++ rest))
  again : AskedAgain (some s.position) log

/-- The scan of the master comes to its end. -/
theorem Inv.finish (h : Inv masters s log)
    (hend : ∀ tail, tail.length = s.nodeRetries → (∀ b ∈ tail, b.Failing ∧ b.position = s.position) →
      Drained s.node s.cur (tail ++ [a])) : ∀ node < s.node + 1, DrainedIn node (log ++ [a]) := by
  intro node hnode
  obtain hlt | rfl := Nat.lt_succ_iff_lt_or_eq.mp hnode
  · exact (h.drained node hlt).append _
  obtain ⟨head, rounds, tail, rfl, hlen, htail, hdone | hopen⟩ := h.current
  · exact hdone.append _
  · refine ⟨head, rounds ++ (tail ++ [a]), [], ?_, hopen _ (hend tail hlen htail)⟩
    simp only [List.append_assoc, List.append_nil]

/-- At the start of a master. -/
theorem current_start (hcur : s.cur = 0) (hretries : s.nodeRetries = 0) (log : List Asked) :
    ∃ head rounds tail, log = head ++ rounds ++ tail ∧ tail.length = s.nodeRetries ∧
      (∀ b ∈ tail, b.Failing ∧ b.position = s.position) ∧
      (DrainedIn s.node log ∨ ∀ rest, Drained s.node s.cur rest → Drained s.node 0 (rounds ++ rest)) := by
  refine ⟨log, [], [], by simp, hretries.symm, fun b hb => absurd hb List.not_mem_nil, Or.inr ?_⟩
  rw [hcur]
  exact fun rest h => h

theorem Inv.failed (h : Inv masters s log) (hnode : s.node < masters) (hx : x.kept = none) :
    Inv masters s.retry (log ++ [s.ask x]) := by
  have hinside : ∀ a ∈ log ++ [s.ask x], a.node < masters := by
    intro a ha
    obtain ha | ha := List.mem_append.mp ha
    · exact h.inside a ha
    · rw [List.mem_singleton.mp ha]
      exact hnode
  have hask : (s.ask x).Failing ∧ (s.ask x).position = s.position := ⟨hx, rfl⟩
  unfold ClusterScan.retry
  split
  · rename_i hle
    obtain ⟨head, rounds, tail, rfl, hlen, htail, hopen⟩ := h.current
    refine ⟨hinside, fun node hlt => (h.drained node hlt).append _, hle, ⟨head, rounds, tail ++ [s.ask x],
      (List.append_assoc ..), ?_, ?_, hopen.imp_left fun hd => hd.append _⟩, h.again.append_one rfl fun _ => Or.inl rfl⟩
    · rw [List.length_append, hlen, List.length_singleton]
    · intro b hb
      obtain hb | hb := List.mem_append.mp hb
      · exact htail b hb
      · rw [List.mem_singleton.mp hb]
        exact hask
  · rename_i hgt
    have hretries : s.nodeRetries = maxScanNodeRetries := by
      have := h.bounded
      omega
    have hend : ∀ tail : List Asked, tail.length = s.nodeRetries →
        (∀ b ∈ tail, b.Failing ∧ b.position = s.position) → Drained s.node s.cur (tail ++ [s.ask x]) := by
      intro tail hlen htail
      refine .skipped (by rw [List.length_append, hlen, hretries, List.length_singleton]) fun b hb => ?_
      obtain hb | hb := List.mem_append.mp hb
      · exact htail b hb
      · rw [List.mem_singleton.mp hb]
        exact hask
    have hgiven : GivenUp log (s.ask x) := by
      obtain ⟨head, rounds, tail, hlog, hlen, htail, -⟩ := h.current
      exact ⟨head ++ rounds, tail, hlog, hlen.trans hretries, htail⟩
    exact ⟨hinside, h.finish hend, Nat.zero_le _, current_start rfl rfl _,
      h.again.append_one rfl fun _ => Or.inr hgiven⟩

theorem Inv.succeeded (h : Inv masters s log) (hnode : s.node < masters) {next : Nat} {metas : List KeyMeta}
    (hx : x.kept = some (next, metas)) : Inv masters (s.round x) (log ++ [s.ask x]) := by
  have hinside : ∀ a ∈ log ++ [s.ask x], a.node < masters := by
    intro a ha
    obtain ha | ha := List.mem_append.mp ha
    · exact h.inside a ha
    · rw [List.mem_singleton.mp ha]
      exact hnode
  have hround : s.round x =
      ⟨if next = 0 then s.node + 1 else s.node, next, 0, s.keys ++ metas⟩ := by rw [ClusterScan.round, hx]
  have hagain : ∀ here, AskedAgain (some here) (log ++ [s.ask x]) := fun here =>
    h.again.append_one rfl fun hfailing => absurd (hx.symm.trans hfailing) (Option.some_ne_none _)
  rw [hround]
  by_cases hzero : next = 0
  · rw [if_pos hzero]
    have hdone : Drained s.node s.cur [s.ask x] := .done (hx.trans (by rw [hzero]))
    exact ⟨hinside, h.finish fun tail _ htail => hdone.retried htail, Nat.zero_le _, current_start hzero rfl _, hagain _⟩
  rw [if_neg hzero]
  refine ⟨hinside, fun node hlt => (h.drained node hlt).append _, Nat.zero_le _, ?_, hagain _⟩
  obtain ⟨head, rounds, tail, rfl, hlen, htail, hopen⟩ := h.current
  refine ⟨head, rounds ++ (tail ++ [s.ask x]), [], by simp only [List.append_assoc, List.append_nil], rfl,
    fun b hb => absurd hb List.not_mem_nil, ?_⟩
  obtain hdone | hopen := hopen
  · exact Or.inl (hdone.append _)
  · refine Or.inr fun rest hrest => ?_
    have hgo : Drained s.node s.cur (s.ask x :: rest) := .next hx hzero hrest
    simpa only [List.append_assoc, List.singleton_append] using hopen _ (hgo.retried htail)

/-- What one round keeps. -/
theorem Inv.round (h : Inv masters s log) (hnode : s.node < masters) (x : Exchange) :
    Inv masters (s.round x) (log ++ [s.ask x]) := by
  cases hx : x.kept with
  | none =>
    have hround : s.round x = s.retry := by rw [ClusterScan.round, hx]
    rw [hround]
    exact h.failed hnode hx
  | some kept => exact h.succeeded hnode hx

theorem round_keys (s : ClusterScan) (x : Exchange) : (s.round x).keys = s.keys ++ (s.ask x).found := by
  rw [ClusterScan.round, Asked.found, ClusterScan.ask]
  cases x.kept with
  | none =>
    show s.retry.keys = s.keys ++ []
    rw [ClusterScan.retry, List.append_nil]
    split <;> rfl
  | some kept => rfl

/-! ## A page -/

/-- Behind the last round of a page nothing is left to be asked again. -/
theorem Inv.settled (h : Inv masters s log) (hend : masters ≤ s.node) : AskedAgain none log := by
  intro head a tail heq ha
  refine (h.again head a tail heq ha).imp_left fun hn => ?_
  cases tail with
  | nil =>
    have hpos : s.node = a.node := congrArg Prod.fst (Option.some.inj hn)
    have := h.inside a (by rw [heq]; simp)
    omega
  | cons b tail => exact hn

theorem Inv.settled_kept (h : Inv masters s log) {next : Nat} {metas : List KeyMeta}
    (hx : x.kept = some (next, metas)) : AskedAgain none (log ++ [s.ask x]) := by
  intro head b tail heq hb
  obtain rfl | ⟨tail, last, rfl⟩ := List.eq_nil_or_concat' tail
  · obtain ⟨-, hlast⟩ := List.append_inj' heq rfl
    obtain ⟨rfl, -⟩ := List.cons.inj hlast
    exact absurd (hx.symm.trans hb) (Option.some_ne_none _)
  rw [← List.cons_append, ← List.append_assoc] at heq
  obtain ⟨hlog, hlast⟩ := List.append_inj' heq rfl
  obtain ⟨rfl, -⟩ := List.cons.inj hlast
  refine (h.again head b tail hlog hb).imp_left fun hn => ?_
  cases tail with
  | nil => exact hn
  | cons c tail => exact hn

/-- What a page keeps. -/
theorem Inv.call {turns : List Turn} {p : KvScanPage} (h : Inv masters s log)
    (hpage : scanLoop masters want s turns = .page p) :
    ∃ t : ClusterScan, p = t.page masters ∧ Inv masters t (log ++ asked masters want s turns) ∧
      AskedAgain none (log ++ asked masters want s turns) ∧ (masters ≤ t.node ∨ t.nodeRetries = 0) ∧
      t.keys = s.keys ++ (asked masters want s turns).flatMap Asked.found := by
  induction turns generalizing s log with
  | nil =>
    rw [scanLoop] at hpage
    split at hpage
    · rename_i hend
      rw [asked, List.append_nil]
      exact ⟨s, (Call.page.inj hpage).symm, h, h.settled hend, Or.inl hend, (List.append_nil _).symm⟩
    · exact absurd hpage Call.noConfusion
  | cons u turns ih =>
    rw [scanLoop] at hpage
    split at hpage
    · rename_i hend
      rw [asked, if_pos (Or.inl hend), List.append_nil]
      exact ⟨s, (Call.page.inj hpage).symm, h, h.settled hend, Or.inl hend, (List.append_nil _).symm⟩
    rename_i hlt
    split at hpage
    · exact absurd hpage Call.noConfusion
    rename_i haborted
    have hnext := h.round (Nat.lt_of_not_le hlt) u.exchange
    rw [asked, if_neg (not_or.mpr ⟨hlt, haborted⟩)]
    split at hpage
    · rename_i hends
      rw [if_pos hends]
      obtain ⟨hkept, -⟩ := Bool.and_eq_true_iff.mp hends
      obtain ⟨⟨next, metas⟩, hx⟩ := Option.isSome_iff_exists.mp hkept
      refine ⟨_, (Call.page.inj hpage).symm, hnext, h.settled_kept hx, Or.inr ?_, ?_⟩
      · rw [ClusterScan.round, hx]
      · rw [round_keys, List.flatMap_singleton]
    · rename_i hends
      rw [if_neg hends]
      obtain ⟨t, hp, hinv, hsettled, hretries, hkeys⟩ := ih hnext hpage
      rw [List.append_assoc, List.singleton_append] at hinv hsettled
      refine ⟨t, hp, hinv, hsettled, hretries, ?_⟩
      rw [hkeys, round_keys, List.append_assoc, List.flatMap_cons]

/-- The next page goes on where this one ends, whose index does not lie beyond the master's. -/
theorem Inv.resume (h : Inv masters s log) (hsettled : AskedAgain none log) (hretries : s.nodeRetries = 0) :
    Inv masters (s.page masters).nextCursor.resume log := by
  have hle : s.node % 2 ^ 32 ≤ s.node := Nat.mod_le _ _
  have hcurrent : DrainedIn (s.node % 2 ^ 32) log ∨
      ∃ head rounds, log = head ++ rounds ∧
        ∀ rest, Drained (s.node % 2 ^ 32) s.cur rest → Drained (s.node % 2 ^ 32) 0 (rounds ++ rest) := by
    obtain hlt | heq := Nat.lt_or_eq_of_le hle
    · exact Or.inl (h.drained _ hlt)
    rw [heq]
    obtain ⟨head, rounds, tail, hlog, hlen, -, hopen⟩ := h.current
    rw [List.length_eq_zero_iff.mp (hlen.trans hretries), List.append_nil] at hlog
    exact hopen.imp_right fun hopen => ⟨head, rounds, hlog, hopen⟩
  refine ⟨h.inside, fun node hlt => h.drained node (Nat.lt_of_lt_of_le hlt hle), Nat.zero_le _, ?_,
    hsettled.goOn _⟩
  · obtain hdone | ⟨head, rounds, hlog, hopen⟩ := hcurrent
    · exact ⟨log, [], [], by simp, rfl, fun b hb => absurd hb List.not_mem_nil, Or.inl hdone⟩
    · exact ⟨head, rounds, [], by rw [hlog, List.append_nil], rfl, fun b hb => absurd hb List.not_mem_nil,
        Or.inr hopen⟩

/-! ## The walk -/

structure WalkInv (masters : Nat) (w : Walk) : Prop where
  resumes : w.exhausted = false → Inv masters w.cursor.resume w.log
  keys : w.keys = w.log.flatMap Asked.found
  retried : AskedAgain none w.log
  drained : w.exhausted = true → ∀ node < masters, DrainedIn node w.log

theorem WalkInv.start (masters : Nat) : WalkInv masters .start where
  resumes _ := ⟨fun a ha => absurd ha List.not_mem_nil, fun node hlt => absurd hlt (Nat.not_lt_zero node),
    Nat.zero_le _, current_start rfl rfl _, fun head a tail heq => absurd heq (by simp [Walk.start])⟩
  keys := rfl
  retried head a tail heq := absurd heq (by simp [Walk.start])
  drained h := Bool.noConfusion h

theorem resume_keys (cursor : ScanCursor) : cursor.resume.keys = [] := by
  cases cursor <;> rfl

theorem WalkInv.call {w : Walk} (h : WalkInv masters w) (c : PageCall) : WalkInv masters (w.call masters c) := by
  unfold Walk.call
  split
  · exact h
  rename_i hexhausted
  split
  · rename_i p hpage
    obtain ⟨t, rfl, hinv, hsettled, hretries, hkeys⟩ :=
      (h.resumes (Bool.eq_false_iff.mpr hexhausted)).call hpage
    rw [resume_keys, List.nil_append] at hkeys
    refine ⟨fun hgo => ?_, ?_, hsettled, fun hend => ?_⟩
    · have hlt : ¬ masters ≤ t.node := of_decide_eq_false hgo
      exact hinv.resume hsettled (hretries.resolve_left hlt)
    · show w.keys ++ t.keys = _
      rw [h.keys, hkeys, List.flatMap_append]
    · have hle : masters ≤ t.node := of_decide_eq_true hend
      exact fun node hlt => hinv.drained node (Nat.lt_of_lt_of_le hlt hle)
  · exact h
  · exact h

theorem WalkInv.walk (masters : Nat) (calls : List PageCall) : WalkInv masters (walk masters calls) := by
  unfold Scan.walk
  generalize hw : Walk.start = w
  have hinv : WalkInv masters w := hw ▸ WalkInv.start masters
  clear hw
  induction calls generalizing w with
  | nil => exact hinv
  | cons c calls ih => exact ih _ (hinv.call c)

/-- The keys of a round that succeeds are found, but those that are gone. -/
theorem found_of_scanned {next : Nat} {raw : List Bytes} {replies : List Reply} {i : Nat} {key : Bytes} {ty : KvType}
    (hx : a.exchange = .scanned next raw (some replies)) (hkey : raw[i]? = some key)
    (hty : (replies[i * 4]?.bind Reply.string).bind parseKvType = some ty) :
    ∃ m ∈ a.found, m.key = fromUtf8Lossy key ∧ m.kvType = ty := by
  have hbatch : (raw.map fromUtf8Lossy)[i]? = some (fromUtf8Lossy key) := by rw [List.getElem?_map, hkey]; rfl
  have hne : (raw.map fromUtf8Lossy).isEmpty = false := by
    cases raw with
    | nil => exact absurd hkey (by simp)
    | cons k raw => rfl
  have hfound : a.found = fetchKeyMetaBatch (raw.map fromUtf8Lossy) replies := by
    rw [Asked.found, hx, Exchange.kept, hne]
    rfl
  rw [hfound]
  exact mem_fetchKeyMetaBatch hbatch hty

/-- **What a scan of a cluster yields**: the keys of every batch whose metadata is fetched and names
their type; what fails is asked again at the same position, `maxScanNodeRetries` times in a row before
the master is given up; and the scan is exhausted only when every master's own scan has come to cursor 0
or was given up so. -/
theorem walk_complete (masters : Nat) (calls : List PageCall) : Complete masters (walk masters calls) := by
  have h := WalkInv.walk masters calls
  refine ⟨fun a ha next raw replies hx i key ty hkey hty => ?_, h.retried, h.drained⟩
  obtain ⟨m, hm, hmkey, hmty⟩ := found_of_scanned hx hkey hty
  rw [h.keys]
  exact ⟨m, List.mem_flatMap.mpr ⟨a, ha, hm⟩, hmkey, hmty⟩

/-- A master that cannot be reached. -/
def unreachable : List Turn := List.replicate 4 ⟨false, .failed, false⟩

/-- The scan of a cluster whose one master cannot be reached is exhausted. -/
theorem exhausted_unscanned :
    ¬ ∀ (masters : Nat) (calls : List PageCall), (walk masters calls).exhausted = true →
      ∀ node < masters, ∃ a ∈ (walk masters calls).log, a.node = node ∧ ∃ metas, a.exchange.kept = some (0, metas) := by
  intro h
  obtain ⟨a, ha, -, metas, hkept⟩ := h 1 [⟨1, unreachable⟩] (by decide) 0 Nat.one_pos
  have hlog : ∀ a ∈ (walk 1 [⟨1, unreachable⟩]).log, a.exchange.kept = none := by decide
  rw [hlog a ha] at hkept
  exact absurd hkept.symm (Option.some_ne_none _)

end RedDb.Kv.Scan
