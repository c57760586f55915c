import RedDb.Kv.Restore
import RedDb.Lib.Numerals
import Mathlib.Data.List.Induction
import Mathlib.Logic.Equiv.Nat

/-!
# RedDb — faithful exports

A whole export file, run on an empty server.

* `get_exported` — what every key holds then, by the visits of its walk;
* `faithful_iff` — every key that counts as written is recreated exactly when its value
  is one that the commands can say.
-/

namespace RedDb.Kv

open ByteText RedDb.Driver

variable {σ J : Type} (text : KvText σ J)

/-! ## The walk -/

/-- The keys a walk hands out, in its order. The time to live is what the source says. -/
structure Scan (src : Source σ J) where
  metas : List KeyMeta
  ttl_eq : ∀ m ∈ metas, ∀ e, src.get m.key = some e → m.ttl = e.expireAt.map (· - src.now)

/-- The key counts as written. -/
def wrote (src : Source σ J) (m : KeyMeta) : Bool :=
  match collectCommands text src m with
  | .ok (some _) => true
  | _ => false

def keyCommands (src : Source σ J) (opts : KvExportOptions) (m : KeyMeta) : List (List Bytes) :=
  match collectCommands text src m with
  | .ok (some argvs) => visitCommands text src opts m argvs
  | _ => []

variable {m : KeyMeta} {src : Source σ J}

theorem wrote_iff_collected :
    wrote text src m = true ↔ ∃ argvs, collectCommands text src m = .ok (some argvs) := by
  rw [wrote]
  constructor
  · intro h
    split at h
    · rename_i argvs heq
      exact ⟨argvs, heq⟩
    · cases h
  · rintro ⟨argvs, h⟩
    rw [h]

variable {opts : KvExportOptions} {metas : List KeyMeta}

/-- The file holds the commands of the keys in their order, and each key is counted. -/
theorem exportCommands_lines {acc res : List Bytes × ExportState}
    (h : metas.foldlM (writeCommandsKey text src opts) acc = .ok res) :
    res.1 = acc.1 ++ (metas.flatMap (keyCommands text src opts)).map commandLine ∧
      res.2.written = acc.2.written + metas.countP (wrote text src) ∧
      res.2.skipped = acc.2.skipped + metas.countP (fun m => !wrote text src m) := by
  induction metas generalizing acc with
  | nil =>
    obtain rfl := Except.ok.inj h
    rw [List.flatMap_nil, List.map_nil, List.append_nil]
    exact ⟨rfl, rfl, rfl⟩
  | cons m metas ih =>
    rw [List.foldlM_cons, writeCommandsKey] at h
    rw [List.flatMap_cons, List.map_append, List.countP_cons, List.countP_cons, keyCommands, wrote]
    cases hc : collectCommands text src m with
    | error e =>
      rw [hc] at h
      cases h
    | ok found =>
      rw [hc] at h
      cases found with
      | none =>
        obtain ⟨hout, hwritten, hskipped⟩ := ih h
        refine ⟨hout, ?_, ?_⟩
        · rw [hwritten]
          rfl
        · rw [hskipped]
          show _ + 1 + _ = _ + (_ + 1)
          omega
      | some argvs =>
        obtain ⟨hout, hwritten, hskipped⟩ := ih h
        refine ⟨?_, ?_, ?_⟩
        · rw [hout, ← List.append_assoc]
          rfl
        · rw [hwritten]
          show _ + 1 + _ = _ + (_ + 1)
          omega
        · rw [hskipped]
          rfl

/-! ## The server -/

/-- How often the walk writes the key. -/
def visits (src : Source σ J) (key : Bytes) (metas : List KeyMeta) : Nat :=
  metas.countP fun m => m.key == key && wrote text src m

/-- What the key holds once the lines of the walk have run. -/
def expected (src : Source σ J) (opts : KvExportOptions) (metas : List KeyMeta) (key : Bytes) :
    Option (Entry σ J) :=
  (src.get key).bind fun e => left opts e (visits text src key metas)

theorem visits_concat (src : Source σ J) (key : Bytes) (metas : List KeyMeta) (m : KeyMeta) :
    visits text src key (metas ++ [m]) =
      visits text src key metas + if m.key = key ∧ wrote text src m = true then 1 else 0 := by
  rw [visits, visits, List.countP_append, List.countP_singleton]
  congr 2
  simp only [Bool.and_eq_true, beq_iff_eq]

variable {text}

/-- One key of the walk. -/
theorem get_keyCommands (r : Redis text)
    (httl : ∀ e, src.get m.key = some e → m.ttl = e.expireAt.map (· - src.now)) {s : r.State}
    (hs : ∀ k, r.get s k = expected text src opts metas k) (k : Bytes) :
    r.get (r.runLines s ((keyCommands text src opts m).map commandLine)) k =
      expected text src opts (metas ++ [m]) k := by
  rw [expected, visits_concat]
  cases hwrote : wrote text src m with
  | false =>
    have hnil : keyCommands text src opts m = [] := by
      rw [keyCommands]
      split
      · rename_i argvs heq
        rw [(wrote_iff_collected text).mpr ⟨argvs, heq⟩] at hwrote
        cases hwrote
      · rfl
    rw [hnil, if_neg (fun h => Bool.noConfusion h.2), Nat.add_zero]
    exact hs k
  | true =>
    obtain ⟨argvs, hargvs⟩ := (wrote_iff_collected text).mp hwrote
    have hcommands : keyCommands text src opts m = visitCommands text src opts m argvs := by
      rw [keyCommands, hargvs]
    rw [hcommands]
    have hkey := hs m.key
    rw [expected] at hkey
    cases hget : src.get m.key with
    | some e =>
      obtain ⟨-, htext, rfl⟩ := (collectCommands_found text hget).mp hargvs
      have hbuild := valueCommands_rebuild text m.valid hget htext
      have hvisit := foldlM_visit text opts hget (httl e hget) hbuild
        (visits text src m.key metas)
      rw [hget, Option.bind_some] at hkey
      rw [← hkey] at hvisit
      rw [r.get_runLines (visitCommands_names text hbuild.names) hvisit]
      by_cases hk : k = m.key
      · rw [if_pos hk, hk, hget, if_pos ⟨rfl, rfl⟩]
        rfl
      · rw [if_neg hk, if_neg (fun h => hk h.1.symm), Nat.add_zero]
        exact hs k
    | none =>
      obtain ⟨-, rfl⟩ := (collectCommands_gone text hget).mp hargvs
      rw [hget, Option.bind_none] at hkey
      have hnothing : (visitCommands text src opts m []).foldlM
          (fun e argv => effect text argv e) (r.get s m.key) = some none := by
        rw [hkey]
        exact foldlM_gone text src opts m
      rw [r.get_runLines (visitCommands_names text (fun _ h => absurd h List.not_mem_nil)) hnothing]
      by_cases hk : k = m.key
      · rw [if_pos hk, hk, hget]
        rfl
      · rw [if_neg hk, if_neg (fun h => hk h.1.symm), Nat.add_zero]
        exact hs k

theorem runLines_append (r : Redis text) (s : r.State) (a b : List Bytes) :
    r.runLines s (a ++ b) = r.runLines (r.runLines s a) b := List.foldl_append

/-- **Exports.** What each key of an empty server holds once the file has run. -/
theorem get_exported (r : Redis text)
    (httl : ∀ m ∈ metas, ∀ e, src.get m.key = some e → m.ttl = e.expireAt.map (· - src.now))
    (k : Bytes) :
    r.get (r.runLines r.empty ((metas.flatMap (keyCommands text src opts)).map commandLine)) k =
      expected text src opts metas k := by
  induction metas using List.reverseRecOn generalizing k with
  | nil =>
    show r.get r.empty k = (src.get k).bind fun e => left opts e 0
    rw [r.get_empty]
    cases src.get k <;> rfl
  | append_singleton metas m ih =>
    rw [List.flatMap_append, List.flatMap_singleton, List.map_append, runLines_append]
    exact get_keyCommands r (httl m (by simp))
      (fun k => ih (fun m hm => httl m (List.mem_append_left _ hm)) k) k

/-! ## What the commands can say -/

variable (text)

/-- The key counts as written: it is gone, or it is read as what it holds and that is
text. -/
def Sayable (src : Source σ J) (m : KeyMeta) : Prop :=
  match src.get m.key with
  | none => ∀ name, m.kvType ≠ .other name
  | some e => m.kvType = e.data.kvType ∧ Textual text e.data

theorem wrote_iff : wrote text src m = true ↔ Sayable text src m := by
  rw [wrote_iff_collected, Sayable]
  cases hget : src.get m.key with
  | none => simp only [collectCommands_gone text hget, exists_and_left, exists_eq, and_true]
  | some e => simp only [collectCommands_found text hget, exists_and_left, exists_eq, and_true]

/-- How often the walk hands the key out as what it holds. -/
def copies (metas : List KeyMeta) (key : Bytes) (e : Entry σ J) : Nat :=
  metas.countP fun m => m.key == key && m.kvType == e.data.kvType

theorem visits_eq_copies {key : Bytes} {e : Entry σ J}
    (hget : src.get key = some e) (htext : Textual text e.data) :
    visits text src key metas = copies metas key e := by
  refine List.countP_congr fun m _ => ?_
  rw [Bool.and_eq_true, Bool.and_eq_true, wrote_iff, beq_iff_eq, beq_iff_eq]
  refine and_congr_right fun hkey => ?_
  rw [Sayable, hkey, hget]
  exact and_iff_left htext

/-- The commands can say the whole of the entry: its expiry is written where it has one; a
list is what the windows of its visits hold together; a stream has no group, no entry that
is not text, and its last entry is the last that was added. -/
def Carried (opts : KvExportOptions) (visits : Nat) (e : Entry σ J) : Prop :=
  (opts.ttls = true ∨ e.expireAt = none) ∧
    match e.data with
    | .list items =>
      (List.replicate (if opts.delFirst then 1 else visits) (items.take listWindow)).flatten = items
    | .stream s => s.groups = [] ∧ (∀ x ∈ s.entries, x.isText = true) ∧
        s.entries.getLast?.map (·.id) = some s.lastId
    | _ => True

theorem restoredStream_eq_iff {s : Stream} :
    restoredStream s.entries = some s ↔ s.groups = [] ∧ (∀ x ∈ s.entries, x.isText = true) ∧
      s.entries.getLast?.map (·.id) = some s.lastId := by
  rw [restoredStream, Option.map_eq_some_iff]
  constructor
  · rintro ⟨last, hlast, heq⟩
    have hfilter := congrArg Stream.entries heq
    refine ⟨(congrArg Stream.groups heq).symm, List.filter_eq_self.mp hfilter, ?_⟩
    rw [← hfilter]
    show (s.entries.filter StreamEntry.isText).getLast?.map _ = _
    rw [hlast, ← congrArg Stream.lastId heq]
    rfl
  · rintro ⟨hgroups, htext, hlast⟩
    obtain ⟨last, hmem, hid⟩ := Option.map_eq_some_iff.mp hlast
    have hfilter := List.filter_eq_self.mpr htext
    refine ⟨last, by rw [hfilter]; exact hmem, ?_⟩
    rw [hfilter, hid, ← hgroups]

/-- A key that was visited is what the source holds exactly when the commands can say it. -/
theorem left_eq_iff {e : Entry σ J} {visits : Nat} (h : visits ≠ 0) :
    left opts e visits = some e ↔ Carried opts visits e := by
  obtain ⟨data, expireAt⟩ := e
  have hexpire : (if opts.ttls then expireAt else none) = expireAt ↔
      opts.ttls = true ∨ expireAt = none := by
    cases opts.ttls with
    | true => simp
    | false => simp [eq_comm]
  rw [left, if_neg h, Carried, ← hexpire, Option.map_eq_some_iff]
  simp only [Entry.mk.injEq]
  have hdata : (∃ d, rebuilt (if opts.delFirst then 1 else visits) data = some d ∧ d = data ∧
      (if opts.ttls then expireAt else none) = expireAt) ↔
      (if opts.ttls then expireAt else none) = expireAt ∧
        rebuilt (if opts.delFirst then 1 else visits) data = some data := by
    constructor
    · rintro ⟨d, hd, rfl, he⟩
      exact ⟨he, hd⟩
    · rintro ⟨he, hd⟩
      exact ⟨data, hd, rfl, he⟩
  rw [hdata]
  refine and_congr_right fun _ => ?_
  cases data with
  | list items =>
    rw [rebuilt, Option.some.injEq, KvData.list.injEq]
  | stream s =>
    rw [rebuilt, Option.map_eq_some_iff]
    simp only [KvData.stream.injEq, exists_eq_right]
    exact restoredStream_eq_iff
  | _ => exact iff_of_true rfl trivial

/-! ## Faithfulness -/

/-- The file recreates the key, as the source holds it. -/
def Recreates (r : Redis text) (src : Source σ J) (out : List Bytes) (key : Bytes) : Prop :=
  ∃ e, src.get key = some e ∧ r.get (r.runLines r.empty out) key = some e

/-- Every key is counted, as written only where the file recreates it. -/
def Faithful (r : Redis text) (src : Source σ J) (opts : KvExportOptions) (metas : List KeyMeta) :
    Prop :=
  ∀ out st, exportCommands text src opts metas = .ok (out, st) →
    st.written = metas.countP (wrote text src) ∧ st.written + st.skipped = metas.length ∧
      ∀ m ∈ metas, wrote text src m = true → Recreates text r src out m.key

variable {text}

theorem recreates_iff (r : Redis text) {scan : Scan src} {out : List Bytes} {st : ExportState}
    (h : exportCommands text src opts scan.metas = .ok (out, st))
    (hm : m ∈ scan.metas) (hwrote : wrote text src m = true) : Recreates text r src out m.key ↔
      ∃ e, src.get m.key = some e ∧ Carried opts (copies scan.metas m.key e) e := by
  have hout : out = [] ++ (scan.metas.flatMap (keyCommands text src opts)).map commandLine :=
    (exportCommands_lines text h).1
  rw [Recreates, hout, List.nil_append, get_exported r scan.ttl_eq, expected]
  refine exists_congr fun e => and_congr_right fun hget => ?_
  have htext : Textual text e.data := by
    have hsay := (wrote_iff text).mp hwrote
    rw [Sayable, hget] at hsay
    exact hsay.2
  have hpos : visits text src m.key scan.metas ≠ 0 := by
    rw [visits, Nat.ne_zero_iff_zero_lt, List.countP_pos_iff]
    exact ⟨m, hm, by rw [beq_self_eq_true, hwrote]; rfl⟩
  rw [hget, Option.bind_some, ← visits_eq_copies text hget htext]
  exact left_eq_iff hpos

/-- **Faithfulness.** Every key that counts as written is recreated exactly when each of
them is still there and the commands can say what it holds. -/
theorem faithful_iff (r : Redis text) (src : Source σ J) (opts : KvExportOptions)
    (scan : Scan src) : Faithful text r src opts scan.metas ↔
      ((∃ res, exportCommands text src opts scan.metas = .ok res) →
        ∀ m ∈ scan.metas, Sayable text src m →
          ∃ e, src.get m.key = some e ∧ Carried opts (copies scan.metas m.key e) e) := by
  constructor
  · rintro h ⟨⟨out, st⟩, hok⟩ m hm hsay
    have hwrote := (wrote_iff text).mpr hsay
    exact (recreates_iff r hok hm hwrote).mp ((h out st hok).2.2 m hm hwrote)
  · intro h out st hok
    obtain ⟨-, hwritten, hskipped⟩ := exportCommands_lines text hok
    rw [Nat.zero_add] at hwritten hskipped
    refine ⟨hwritten, ?_, ?_⟩
    · rw [hwritten, hskipped, List.length_eq_countP_add_countP (p := wrote text src)]
      congr 2
      funext m
      cases wrote text src m <;> rfl
    · intro m hm hwrote
      exact (recreates_iff r hok hm hwrote).mpr (h ⟨_, hok⟩ m hm ((wrote_iff text).mp hwrote))

/-! ## An entry that is not text -/

theorem validUtf8_ascii {b : Bytes} (h : ∀ c ∈ b, c.toNat < 0x80) : validUtf8 b = true := by
  have hfrom : ∀ fuel, validFrom fuel b = true := by
    intro fuel
    induction fuel generalizing b with
    | zero => rfl
    | succ fuel ih =>
      cases b with
      | nil => rfl
      | cons c rest =>
        have hchar : utf8Char (c :: rest) = (1, true) := if_pos (h c List.mem_cons_self)
        rw [validFrom, hchar, Bool.true_and]
        exact ih fun d hd => h d (List.mem_cons_of_mem _ hd)
  exact hfrom b.length

def decimalSpelling : Spelling Nat where
  text := ByteText.decimal
  read b := some (ofDigits b)
  valid n := by
    refine validUtf8_ascii fun c hc => ?_
    have hdigit := decimal_digits hc
    rw [isAsciiDigit, Bool.and_eq_true, decide_eq_true_eq, decide_eq_true_eq] at hdigit
    exact Nat.lt_of_le_of_lt (UInt8.le_iff_toNat_le.mp hdigit.2) (by decide)
  read_text n := congrArg some (ofDigits_decimal n)

/-- Integers by their place in the list 0, -1, 1, -2, 2 and on. -/
def integerSpelling : Spelling Int where
  text n := ByteText.decimal (Equiv.intEquivNat n)
  read b := some (Equiv.intEquivNat.symm (ofDigits b))
  valid n := decimalSpelling.valid _
  read_text n := by rw [ofDigits_decimal, Equiv.symm_apply_apply]

def plainText : KvText Nat Nat := ⟨decimalSpelling, decimalSpelling, integerSpelling, decimalSpelling⟩

/-- A server with nothing but its keys. -/
def Redis.plain (text : KvText σ J) : Redis text where
  State := Bytes → Option (Entry σ J)
  empty _ := none
  get s key := s key
  exec s argv :=
    match argv with
    | cmd :: key :: args => ((effect text (cmd :: key :: args) (s key)).map (Function.update s key)).getD s
    | _ => s
  get_empty _ := rfl
  get_exec s cmd key args e' h k := by
    show ((effect text (cmd :: key :: args) (s key)).map (Function.update s key)).getD s k = _
    rw [h, Option.map_some, Option.getD_some, Function.update_apply]

/-- A stream of one entry, the photo of which is not text. -/
def photoStream : Entry Nat Nat := ⟨.stream ⟨[⟨1, [(ascii "photo", [0xFF])]⟩], 1, []⟩, none⟩

def photoSource : Source Nat Nat where
  now := 0
  get key := if key = ascii "events" then some photoStream else none
  pages _ := []
  sound key e h := by
    split at h
    · obtain rfl := Option.some.inj h
      refine ⟨List.pairwise_singleton _ _, ?_⟩
      simp
    · cases h
  expireAt_le key e h t ht := by
    split at h
    · obtain rfl := Option.some.inj h
      cases ht
    · cases h
  mem_pages key e kind content h hdata := by
    split at h
    · obtain rfl := Option.some.inj h
      cases hdata
    · cases h

def photoScan : Scan photoSource where
  metas := [⟨ascii "events", .stream, none, by decide⟩]
  ttl_eq m hm e h := by
    obtain rfl := List.mem_singleton.mp hm
    obtain rfl : photoStream = e := Option.some.inj h
    rfl

/-- The entry is written as a line without fields and counts as written; no server has it
after that. -/
theorem photo_lost : ¬ Faithful plainText (Redis.plain plainText) photoSource ⟨false, true⟩
    photoScan.metas := by
  intro h
  have hwrote : wrote plainText photoSource ⟨ascii "events", .stream, none, by decide⟩ = true := by
    rw [wrote_iff]
    refine ⟨rfl, ?_⟩
    intro e he
    obtain rfl := List.mem_singleton.mp he
    decide
  obtain ⟨argvs, hargvs⟩ := (wrote_iff_collected plainText).mp hwrote
  obtain ⟨out, st, hok⟩ : ∃ out st,
      exportCommands plainText photoSource ⟨false, true⟩ photoScan.metas = .ok (out, st) := by
    rw [exportCommands, photoScan, List.foldlM_cons, writeCommandsKey, hargvs]
    exact ⟨_, _, rfl⟩
  have hm : _ ∈ photoScan.metas := List.mem_singleton.mpr rfl
  obtain ⟨e, hget, hcarried⟩ :=
    (recreates_iff (Redis.plain plainText) hok hm hwrote).mp ((h out st hok).2.2 _ hm hwrote)
  obtain rfl : photoStream = e := Option.some.inj hget
  have htext := hcarried.2.2.1 _ List.mem_cons_self
  exact absurd htext (by decide)

end RedDb.Kv
