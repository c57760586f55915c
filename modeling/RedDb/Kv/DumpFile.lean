import RedDb.Kv.CommandLine
import RedDb.Lib.PullReader

/-!
# RedDb — key dumps

A dump export is a row of frames: the key, its expiry and its `DUMP` payload, key and payload with their
lengths in front. The reader takes frames until one is not whole, and says no more about why it stopped.

* `readDumpFrame_cut` — one frame, cut at any place;
* `dumpEntries_cut` — a whole file, cut at any place.
-/

namespace RedDb.Kv

open ByteText RedDb.Driver

/-! ## Numbers -/

/-- The lowest `k` bytes of a number, the lowest first. -/
def leBytes : Nat → Nat → Bytes
  | 0, _ => []
  | k + 1, n => UInt8.ofNat n :: leBytes k (n / 256)

def fromLeBytes : Bytes → Nat
  | [] => 0
  | c :: rest => c.toNat + 256 * fromLeBytes rest

@[simp] theorem length_leBytes (k n : Nat) : (leBytes k n).length = k := by
  induction k generalizing n with
  | zero => rfl
  | succ k ih => rw [leBytes, List.length_cons, ih]

theorem fromLeBytes_leBytes {k n : Nat} (h : n < 256 ^ k) : fromLeBytes (leBytes k n) = n := by
  induction k generalizing n with
  | zero =>
    rw [pow_zero, Nat.lt_one_iff] at h
    rw [h]
    rfl
  | succ k ih =>
    have hdiv : n / 256 < 256 ^ k := Nat.div_lt_of_lt_mul (by rwa [← pow_succ'])
    have hbyte : (UInt8.ofNat n).toNat = n % 256 := UInt8.toNat_ofNat'
    rw [leBytes, fromLeBytes, ih hdiv, hbyte, Nat.mod_add_div]

/-! ## Frames -/

structure KvDumpEntry where
  key : Bytes
  ttlMs : UInt64
  payload : Bytes
  deriving DecidableEq

/-- A length is written as the 32 bits of it that fit. -/
def dumpFrame (key : Bytes) (ttlMs : UInt64) (payload : Bytes) : Bytes :=
  leBytes 4 (key.length % 2 ^ 32) ++ (key ++ (leBytes 8 ttlMs.toNat ++
    (leBytes 4 (payload.length % 2 ^ 32) ++ payload)))

/-- `bytes.get(i..j)`. -/
def getRange (b : Bytes) (i j : Nat) : Option Bytes := if i ≤ j ∧ j ≤ b.length then some (slice b i j) else none

def u32At (b : Bytes) (i : Nat) : Option Nat := (getRange b i (i + 4)).map fromLeBytes

/-- The frame that starts at `start`, and the place behind it. -/
def readDumpFrame (b : Bytes) (start : Nat) : Option (KvDumpEntry × Nat) :=
  (u32At b start).bind fun keyLen =>
    (getRange b (start + 4) (start + 4 + keyLen)).bind fun key =>
      (getRange b (start + 4 + keyLen) (start + 4 + keyLen + 8)).bind fun ttl =>
        (u32At b (start + 4 + keyLen + 8)).bind fun payloadLen =>
          (getRange b (start + 4 + keyLen + 8 + 4) (start + 4 + keyLen + 8 + 4 + payloadLen)).map fun payload =>
            (⟨fromUtf8Lossy key, UInt64.ofNat (fromLeBytes ttl), payload⟩, start + 4 + keyLen + 8 + 4 + payloadLen)

theorem readDumpFrame_lt {b : Bytes} {start next : Nat} {e : KvDumpEntry}
    (h : readDumpFrame b start = some (e, next)) : start < next ∧ next ≤ b.length := by
  simp only [readDumpFrame, Option.bind_eq_some_iff, Option.map_eq_some_iff] at h
  obtain ⟨keyLen, -, key, -, ttl, -, payloadLen, -, payload, hpayload, heq⟩ := h
  obtain ⟨-, rfl⟩ := Prod.mk.inj heq
  unfold getRange at hpayload
  split at hpayload
  · next hbounds => exact ⟨by omega, hbounds.2⟩
  · cases hpayload

/-- The loop of an import: it reads frames as long as there is one. -/
def dumpFrames (b : Bytes) : PullReader Nat KvDumpEntry Empty where
  next start :=
    match readDumpFrame b start with
    | some (e, next) => (.ok (some e), next)
    | none => (.ok none, start)
  size start := b.length - start
  next_lt := by
    intro start e h
    cases hread : readDumpFrame b start with
    | none =>
      rw [hread] at h
      cases h
    | some p =>
      have hlt := @readDumpFrame_lt b start p.2 p.1 hread
      dsimp only
      omega

def dumpEntries (b : Bytes) (start : Nat) : List KvDumpEntry := ((dumpFrames b).items start).1

/-! ## A file cut at any place -/

/-- The key is text, and both lengths fit their 32 bits. -/
structure KvDumpEntry.Framed (e : KvDumpEntry) : Prop where
  key : validUtf8 e.key = true
  keyLen : e.key.length < 2 ^ 32
  payloadLen : e.payload.length < 2 ^ 32

def KvDumpEntry.frame (e : KvDumpEntry) : Bytes := dumpFrame e.key e.ttlMs e.payload

/-- The entries of the frames that are whole within `k` bytes. -/
def wholeEntries : Nat → List KvDumpEntry → List KvDumpEntry
  | _, [] => []
  | k, e :: rest => if e.frame.length ≤ k then e :: wholeEntries (k - e.frame.length) rest else []

section Cut

variable {b x y : Bytes} {p m : Nat}

/-- A field, where the file is cut behind `m` bytes. -/
theorem getRange_cut (hp : p ≤ b.length) (hb : b.drop p = (x ++ y).take m) :
    (m < x.length → getRange b p (p + x.length) = none) ∧
      (x.length ≤ m → getRange b p (p + x.length) = some x ∧ p + x.length ≤ b.length ∧
        b.drop (p + x.length) = y.take (m - x.length)) := by
  have hlen := congrArg List.length hb
  rw [List.length_drop, List.length_take, List.length_append] at hlen
  constructor
  · intro hm
    exact if_neg (by omega)
  · intro hm
    have hbound : p + x.length ≤ b.length := by omega
    have hshape : b.drop p = x ++ y.take (m - x.length) := by rw [hb, List.take_append, List.take_of_length_le hm]
    refine ⟨?_, hbound, ?_⟩
    · rw [getRange, if_pos ⟨Nat.le_add_right p x.length, hbound⟩, slice, List.drop_take, hshape,
        Nat.add_sub_cancel_left, List.take_left]
    · rw [← List.drop_drop, hshape, List.drop_left]

/-- **A frame, cut at any place**, is read if it is whole. -/
theorem readDumpFrame_cut {e : KvDumpEntry} (he : e.Framed) (hp : p ≤ b.length)
    (hb : b.drop p = (e.frame ++ y).take m) : (m < e.frame.length → readDumpFrame b p = none) ∧
      (e.frame.length ≤ m → readDumpFrame b p = some (e, p + e.frame.length) ∧
        p + e.frame.length ≤ b.length ∧ b.drop (p + e.frame.length) = y.take (m - e.frame.length)) := by
  obtain ⟨key, ttlMs, payload⟩ := e
  obtain ⟨hkey, hkeyLen, hpayloadLen⟩ := he
  have hlen : (KvDumpEntry.mk key ttlMs payload).frame.length = 4 + key.length + 8 + 4 + payload.length := by
    simp only [KvDumpEntry.frame, dumpFrame, List.length_append, length_leBytes]
    omega
  have hfour : ∀ n < 2 ^ 32, fromLeBytes (leBytes 4 (n % 2 ^ 32)) = n := by
    intro n hn
    rw [Nat.mod_eq_of_lt hn]
    exact fromLeBytes_leBytes hn
  have height : UInt64.ofNat (fromLeBytes (leBytes 8 ttlMs.toNat)) = ttlMs := by
    rw [fromLeBytes_leBytes ttlMs.toNat_lt, UInt64.ofNat_toNat]
  rw [hlen]
  simp only [KvDumpEntry.frame, dumpFrame, List.append_assoc] at hb
  have h1 := getRange_cut hp hb
  rw [length_leBytes] at h1
  by_cases hm1 : m < 4
  · refine ⟨fun _ => ?_, fun h => absurd h (by omega)⟩
    rw [readDumpFrame, u32At, h1.1 hm1]
    rfl
  obtain ⟨hget1, hp1, hb1⟩ := h1.2 (by omega)
  have h2 := getRange_cut hp1 hb1
  have hkeyLen' := hfour _ hkeyLen
  by_cases hm2 : m - 4 < key.length
  · refine ⟨fun _ => ?_, fun h => absurd h (by omega)⟩
    rw [readDumpFrame, u32At, hget1, Option.map_some, Option.bind_some, hkeyLen', h2.1 hm2]
    rfl
  obtain ⟨hget2, hp2, hb2⟩ := h2.2 (by omega)
  have h3 := getRange_cut hp2 hb2
  rw [length_leBytes] at h3
  by_cases hm3 : m - 4 - key.length < 8
  · refine ⟨fun _ => ?_, fun h => absurd h (by omega)⟩
    rw [readDumpFrame, u32At, hget1, Option.map_some, Option.bind_some, hkeyLen', hget2, Option.bind_some,
      h3.1 hm3]
    rfl
  obtain ⟨hget3, hp3, hb3⟩ := h3.2 (by omega)
  have h4 := getRange_cut hp3 hb3
  rw [length_leBytes] at h4
  by_cases hm4 : m - 4 - key.length - 8 < 4
  · refine ⟨fun _ => ?_, fun h => absurd h (by omega)⟩
    rw [readDumpFrame, u32At, hget1, Option.map_some, Option.bind_some, hkeyLen', hget2, Option.bind_some,
      hget3, Option.bind_some, u32At, h4.1 hm4]
    rfl
  obtain ⟨hget4, hp4, hb4⟩ := h4.2 (by omega)
  have h5 := getRange_cut hp4 hb4
  have hpayloadLen' := hfour _ hpayloadLen
  have hread : readDumpFrame b p =
      (getRange b (p + 4 + key.length + 8 + 4) (p + 4 + key.length + 8 + 4 + payload.length)).map fun payload' =>
        (⟨key, ttlMs, payload'⟩, p + 4 + key.length + 8 + 4 + payload.length) := by
    rw [readDumpFrame, u32At, hget1, Option.map_some, Option.bind_some, hkeyLen', hget2, Option.bind_some,
      hget3, Option.bind_some, u32At, hget4, Option.map_some, Option.bind_some, hpayloadLen', height,
      fromUtf8Lossy_valid hkey]
  constructor
  · intro hm
    rw [hread, h5.1 (by omega)]
    rfl
  · intro hm
    obtain ⟨hget5, hp5, hb5⟩ := h5.2 (by omega)
    have hplace : p + 4 + key.length + 8 + 4 + payload.length = p + (4 + key.length + 8 + 4 + payload.length) := by
      omega
    have hrest : m - 4 - key.length - 8 - 4 - payload.length = m - (4 + key.length + 8 + 4 + payload.length) := by
      omega
    rw [hplace, hrest] at hb5
    rw [hplace] at hp5
    refine ⟨?_, hp5, hb5⟩
    rw [hread, hget5, Option.map_some, hplace]

end Cut

theorem wholeEntries_all {entries : List KvDumpEntry} {k : Nat}
    (h : (entries.flatMap KvDumpEntry.frame).length ≤ k) : wholeEntries k entries = entries := by
  induction entries generalizing k with
  | nil => rfl
  | cons e rest ih =>
    rw [List.flatMap_cons, List.length_append] at h
    rw [wholeEntries, if_pos (by omega), ih (by omega)]

theorem dumpEntries_from {entries : List KvDumpEntry} (h : ∀ e ∈ entries, e.Framed) {b : Bytes} {p m : Nat}
    (hp : p ≤ b.length) (hb : b.drop p = (entries.flatMap KvDumpEntry.frame).take m) :
    dumpEntries b p = wholeEntries m entries := by
  induction entries generalizing p m with
  | nil =>
    have hnone : readDumpFrame b p = none := by
      have hlen := congrArg List.length hb
      rw [List.flatMap_nil, List.take_nil, List.length_drop, List.length_nil] at hlen
      rw [readDumpFrame, u32At, getRange, if_neg (by omega)]
      rfl
    have hend : ((dumpFrames b).next p).1 = .ok none := by
      unfold dumpFrames
      dsimp only
      rw [hnone]
    rw [dumpEntries, PullReader.items_end hend]
    rfl
  | cons e rest ih =>
    rw [List.flatMap_cons] at hb
    obtain ⟨hcut, hwhole⟩ := readDumpFrame_cut (h e List.mem_cons_self) hp hb
    by_cases hm : e.frame.length ≤ m
    · obtain ⟨hread, hp', hb'⟩ := hwhole hm
      have hnext : (dumpFrames b).next p = (.ok (some e), p + e.frame.length) := by
        unfold dumpFrames
        dsimp only
        rw [hread]
      have ih := ih (fun e' he' => h e' (List.mem_cons_of_mem e he')) hp' hb'
      rw [dumpEntries, PullReader.items_cons (congrArg Prod.fst hnext), hnext, wholeEntries, if_pos hm, ← ih]
      rfl
    · have hend : ((dumpFrames b).next p).1 = .ok none := by
        unfold dumpFrames
        dsimp only
        rw [hcut (by omega)]
      rw [dumpEntries, PullReader.items_end hend, wholeEntries, if_neg hm]

/-- **A dump, cut at any place**: the entries whose frames are whole are read, and all of them where
nothing is cut; in both cases reading then ends. -/
theorem dumpEntries_cut {entries : List KvDumpEntry} (h : ∀ e ∈ entries, e.Framed) (head : Bytes) (k : Nat) :
    dumpEntries (head ++ (entries.flatMap KvDumpEntry.frame).take k) head.length = wholeEntries k entries ∧
      dumpEntries (head ++ entries.flatMap KvDumpEntry.frame) head.length = entries := by
  have hcut : ∀ m, dumpEntries (head ++ (entries.flatMap KvDumpEntry.frame).take m) head.length =
      wholeEntries m entries := by
    intro m
    refine dumpEntries_from h ?_ ?_
    · rw [List.length_append]
      exact Nat.le_add_right _ _
    · exact List.drop_left
  refine ⟨hcut k, ?_⟩
  have hall := hcut (entries.flatMap KvDumpEntry.frame).length
  rwa [List.take_length, wholeEntries_all (Nat.le_refl _)] at hall

theorem dumpEntries_cut_two :
    dumpEntries ([] ++ ([⟨ascii "a", 5, [1]⟩, ⟨ascii "b", 0, []⟩] : List KvDumpEntry).flatMap KvDumpEntry.frame)
      ([] : Bytes).length = [⟨ascii "a", 5, [1]⟩, ⟨ascii "b", 0, []⟩] ∧
    dumpEntries ([] ++ (([⟨ascii "a", 5, [1]⟩, ⟨ascii "b", 0, []⟩] : List KvDumpEntry).flatMap
      KvDumpEntry.frame).take 20) ([] : Bytes).length = [⟨ascii "a", 5, [1]⟩] := by
  have hframed : ∀ e ∈ ([⟨ascii "a", 5, [1]⟩, ⟨ascii "b", 0, []⟩] : List KvDumpEntry), e.Framed := by
    rw [List.forall_mem_cons, List.forall_mem_singleton]
    exact ⟨⟨by decide, by decide, by decide⟩, ⟨by decide, by decide, by decide⟩⟩
  have hwhole : wholeEntries 20 [⟨ascii "a", 5, [1]⟩, ⟨ascii "b", 0, []⟩] = [⟨ascii "a", 5, [1]⟩] := by decide
  exact ⟨(dumpEntries_cut hframed [] 20).2, hwhole ▸ (dumpEntries_cut hframed [] 20).1⟩

/-- A torn frame is read as the end of a whole file is. -/
theorem torn_frame_unreported :
    ((KvDumpEntry.mk (ascii "a") 5 [1]).frame.take 5) ≠ [] ∧
      readDumpFrame ((KvDumpEntry.mk (ascii "a") 5 [1]).frame.take 5) 0 = none ∧ readDumpFrame [] 0 = none := by
  decide

end RedDb.Kv
