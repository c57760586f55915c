import Mathlib
import RedDb.Kv.DumpFile

/-!
# RedDb — the container of a workbook

A workbook is an archive of stored parts: each behind a header of its own, then a directory, then the
end record it is read from. Sizes and places are written in fields of 32 bits, counts and the lengths
of names in 16.

* `crc32_chunks` — the table gives the checksum that dividing bit by bit gives;
* `archive_reads_back` — an archive that is written is read back part by part.
-/

namespace RedDb.Transfer

open RedDb.Kv

/-! ## The checksum -/

def crcPoly : BitVec 32 := 0xEDB88320

/-- One bit of the division. -/
def crcShift (c : BitVec 32) : BitVec 32 :=
  if c.getLsbD 0 then crcPoly ^^^ (c >>> 1) else c >>> 1

def crcTable : List (BitVec 32) := (List.range 256).map fun i => crcShift^[8] (BitVec.ofNat 32 i)

/-- `Crc32::update`. -/
def crcUpdate (state : BitVec 32) (bytes : Bytes) : BitVec 32 :=
  bytes.foldl (fun c b =>
    (c >>> 8) ^^^ crcTable[((c ^^^ b.toBitVec.setWidth 32) &&& 0xFF).toNat]?.getD 0) state

def crc32 (bytes : Bytes) : BitVec 32 := crcUpdate 0xFFFFFFFF bytes ^^^ 0xFFFFFFFF

theorem crcShift_xor (x y : BitVec 32) : crcShift (x ^^^ y) = crcShift x ^^^ crcShift y := by
  unfold crcShift
  rw [BitVec.getLsbD_xor]
  ext i hi
  cases x.getLsbD 0 <;> cases y.getLsbD 0 <;> simp <;> grind

theorem crcShift_iterate_xor (n : Nat) (x y : BitVec 32) :
    crcShift^[n] (x ^^^ y) = crcShift^[n] x ^^^ crcShift^[n] y := by
  induction n generalizing x y with
  | zero => rfl
  | succ n ih => rw [Function.iterate_succ_apply, crcShift_xor, ih]; rfl

/-- Where the lowest bits are clear they are shifted out. -/
theorem crcShift_iterate {n : Nat} {x : BitVec 32} (h : ∀ i < n, x.getLsbD i = false) :
    crcShift^[n] x = x >>> n := by
  induction n generalizing x with
  | zero => rw [BitVec.ushiftRight_zero]; rfl
  | succ n ih =>
    have hfirst : crcShift x = x >>> 1 := by rw [crcShift, h 0 n.succ_pos]; rfl
    rw [Function.iterate_succ_apply, hfirst, ih fun i hi => ?_, ← BitVec.shiftRight_add, Nat.add_comm]
    rw [BitVec.getLsbD_ushiftRight]
    exact h (1 + i) (by omega)

/-- A look-up in the table is eight bits of the division. -/
theorem crcShift_eight (x : BitVec 32) :
    (x >>> 8) ^^^ crcTable[(x &&& 0xFF).toNat]?.getD 0 = crcShift^[8] x := by
  have hlt : (x &&& 0xFF).toNat < 256 := by
    rw [BitVec.toNat_and]
    exact Nat.lt_succ_of_le Nat.and_le_right
  have hhigh : crcShift^[8] ((x >>> 8) <<< 8) = x >>> 8 := by
    rw [crcShift_iterate fun i hi => by simp [hi]]
    ext i hi
    simp
    grind
  have hsplit : x = (x >>> 8) <<< 8 ^^^ (x &&& 0xFF) := by
    ext i hi
    interval_cases i <;> simp
  rw [crcTable, List.getElem?_map, List.getElem?_range hlt, Option.map_some, Option.getD_some,
    BitVec.ofNat_toNat, BitVec.setWidth_eq, ← hhigh, ← crcShift_iterate_xor, ← hsplit]

theorem crcUpdate_eq (state : BitVec 32) (bytes : Bytes) : crcUpdate state bytes =
    bytes.foldl (fun c b => crcShift^[8] (c ^^^ b.toBitVec.setWidth 32)) state := by
  have hhigh : ∀ b : BitVec 8, b.setWidth 32 >>> 8 = 0 := by decide
  refine congrArg (fun f => bytes.foldl f state) (funext₂ fun c b => ?_)
  rw [← crcShift_eight, BitVec.ushiftRight_xor_distrib, hhigh]
  exact congrArg (· ^^^ _) BitVec.xor_zero.symm

/-- **The checksum of a body, in whatever chunks it comes**, is the remainder that dividing it bit by
bit leaves. -/
theorem crc32_chunks (chunks : List Bytes) : chunks.foldl crcUpdate 0xFFFFFFFF ^^^ 0xFFFFFFFF =
    chunks.flatten.foldl (fun c b => crcShift^[8] (c ^^^ b.toBitVec.setWidth 32)) 0xFFFFFFFF ^^^
      0xFFFFFFFF := by
  rw [← crcUpdate_eq, crcUpdate, List.foldl_flatten]
  rfl

example : crc32 [49, 50, 51, 52, 53, 54, 55, 56, 57] = 0xCBF43926 := by decide +kernel

/-! ## The archive -/

structure ZipEntryMeta where
  name : Bytes
  crc : BitVec 32
  size : Nat
  offset : Nat

structure ZipWriter where
  out : Bytes
  offset : Nat
  entries : List ZipEntryMeta

/-- A number that has to fit `k` bytes. -/
def fieldOf (k n : Nat) (error : String) : Except String Nat :=
  if n < 256 ^ k then .ok n else .error error

def zipSize (len : Nat) : Except String Nat := fieldOf 4 len
  "the sheet exceeds 4 GiB, which this ZIP container cannot address; export CSV instead"

def advance (offset step : Nat) : Except String Nat :=
  fieldOf 4 (offset + step) "the workbook exceeds 4 GiB; export CSV instead"

def nameLen (name : Bytes) : Except String Nat := fieldOf 2 name.length "entry name"

/-- Numbers behind one another, each in its width. -/
def fields (l : List (Nat × Nat)) : Bytes := l.flatMap fun f => leBytes f.1 f.2

/-- The time is none, the date the first there is. -/
def localFields (e : ZipEntryMeta) : List (Nat × Nat) :=
  [(4, 0x04034B50), (2, 20), (2, 0), (2, 0), (2, 0), (2, 0x21), (4, e.crc.toNat), (4, e.size),
    (4, e.size), (2, e.name.length), (2, 0)]

def localHeader (e : ZipEntryMeta) : Bytes := fields (localFields e) ++ e.name

def centralFields (e : ZipEntryMeta) : List (Nat × Nat) :=
  [(4, 0x02014B50), (2, 20), (2, 20), (2, 0), (2, 0), (2, 0), (2, 0x21), (4, e.crc.toNat), (4, e.size),
    (4, e.size), (2, e.name.length), (2, 0), (2, 0), (2, 0), (2, 0), (4, 0), (4, e.offset)]

def centralHeader (e : ZipEntryMeta) : Bytes := fields (centralFields e) ++ e.name

def endFields (count size start : Nat) : List (Nat × Nat) :=
  [(4, 0x06054B50), (2, 0), (2, 0), (2, count), (2, count), (4, size), (4, start), (2, 0)]

namespace ZipWriter

variable (z : ZipWriter)

def header (name : Bytes) (crc : BitVec 32) (size : Nat) : Except String ZipWriter := do
  let e := ⟨name, crc, size, z.offset⟩
  let offset ← advance z.offset (30 + (← nameLen name))
  return ⟨z.out ++ localHeader e, offset, z.entries ++ [e]⟩

def add (name body : Bytes) : Except String ZipWriter := do
  let size ← zipSize body.length
  let z ← z.header name (crc32 body) size
  return { z with out := z.out ++ body, offset := ← advance z.offset size }

/-- The body comes in chunks; its checksum and length are known before. -/
def addStreamed (name : Bytes) (crc : BitVec 32) (size : Nat) (reader : List Bytes) :
    Except String ZipWriter := do
  let z ← z.header name crc size
  let copied := reader.flatten
  if copied.length = size then
    return { z with out := z.out ++ copied, offset := ← advance z.offset size }
  else throw ("sheet spool changed size while writing (" ++ toString copied.length ++
    " bytes, expected " ++ toString size ++ ")")

def directory (e : ZipEntryMeta) : Except String ZipWriter := do
  let offset ← advance z.offset (46 + (← nameLen e.name))
  return { z with out := z.out ++ centralHeader e, offset := offset }

def finish : Except String Bytes := do
  let last ← z.entries.foldlM directory z
  let count ← fieldOf 2 z.entries.length "entries"
  return last.out ++ fields (endFields count (last.offset - z.offset) z.offset)

end ZipWriter

inductive Part where
  | whole (name body : Bytes)
  | streamed (name : Bytes) (crc : BitVec 32) (size : Nat) (reader : List Bytes)

def ZipWriter.put (z : ZipWriter) : Part → Except String ZipWriter
  | .whole name body => z.add name body
  | .streamed name crc size reader => z.addStreamed name crc size reader

def archive (parts : List Part) : Except String Bytes := do
  (← parts.foldlM ZipWriter.put ⟨[], 0, []⟩).finish

/-! ## Reading an archive -/

/-- Numbers of these widths, and what is left. -/
def readFields : List Nat → Bytes → Option (List Nat × Bytes)
  | [], b => some ([], b)
  | k :: ks, b =>
    if k ≤ b.length then
      (readFields ks (b.drop k)).map fun r => (fromLeBytes (b.take k) :: r.1, r.2)
    else none

/-- The body behind the local header of an entry, which says the same of it. -/
def readBody (file : Bytes) (e : ZipEntryMeta) : Option Bytes :=
  match readFields [4, 2, 2, 2, 2, 2, 4, 4, 4, 2, 2] (file.drop e.offset) with
  | some ([mark, _, _, method, _, _, crc, packed, size, n, extra], rest) =>
    if mark = 0x04034B50 ∧ method = 0 ∧ crc = e.crc.toNat ∧ packed = e.size ∧ size = e.size ∧
      rest.take n = e.name ∧ n + extra + size ≤ rest.length
    then some ((rest.drop (n + extra)).take size) else none
  | _ => none

def readDirectory (file : Bytes) : Nat → Bytes → Option (List (ZipEntryMeta × Bytes))
  | 0, _ => some []
  | count + 1, b =>
    match readFields [4, 2, 2, 2, 2, 2, 2, 4, 4, 4, 2, 2, 2, 2, 2, 4, 4] b with
    | some ([mark, _, _, _, method, _, _, crc, packed, size, n, extra, comment, _, _, _, offset],
        rest) =>
      if mark = 0x02014B50 ∧ method = 0 ∧ packed = size ∧ n + extra + comment ≤ rest.length then
        let e := ⟨rest.take n, BitVec.ofNat 32 crc, size, offset⟩
        (readBody file e).bind fun body =>
          (readDirectory file count (rest.drop (n + extra + comment))).map ((e, body) :: ·)
      else none
    | _ => none

/-- An archive without a comment, from its end. -/
def readArchive (file : Bytes) : Option (List (ZipEntryMeta × Bytes)) :=
  match readFields [4, 2, 2, 2, 2, 4, 4, 2] (file.drop (file.length - 22)) with
  | some ([mark, _, _, here, count, size, start, comment], _) =>
    if mark = 0x06054B50 ∧ here = count ∧ comment = 0 ∧ start + size + 22 = file.length then
      readDirectory file count (file.drop start)
    else none
  | _ => none

/-! ## What is written -/

def Part.body : Part → Bytes
  | whole _ body => body
  | streamed _ _ _ reader => reader.flatten

def Part.entry (offset : Nat) : Part → ZipEntryMeta
  | whole name body => ⟨name, crc32 body, body.length, offset⟩
  | streamed name crc size _ => ⟨name, crc, size, offset⟩

def Part.record (p : Part) : Bytes := localHeader (p.entry 0) ++ p.body

/-- The name fits its field, and the size is that of the body. -/
def Part.Fits (p : Part) : Prop :=
  (p.entry 0).name.length < 2 ^ 16 ∧ p.body.length = (p.entry 0).size

theorem Part.entry_eq (p : Part) (offset : Nat) : p.entry offset = { p.entry 0 with offset := offset } := by
  cases p <;> rfl

/-- The entries of parts that are written from `offset` on. -/
def entriesFrom : Nat → List Part → List ZipEntryMeta
  | _, [] => []
  | offset, p :: rest => p.entry offset :: entriesFrom (offset + p.record.length) rest

section Proofs

variable {k n : Nat} {error : String} {β : Type} {z z' : ZipWriter} {parts : List Part}

theorem bind_eq_ok_iff {α : Type} {x : Except String α} {f : α → Except String β} {r : β} :
    (x >>= f) = .ok r ↔ ∃ a, x = .ok a ∧ f a = .ok r := by
  cases x <;> simp [bind, Except.bind]

theorem fieldOf_bind {f : Nat → Except String β} {r : β} :
    (fieldOf k n error >>= f) = .ok r ↔ n < 256 ^ k ∧ f n = .ok r := by
  unfold fieldOf
  split <;> simp_all [bind, Except.bind]

theorem fieldOf_map {f : Nat → β} {r : β} :
    f <$> fieldOf k n error = .ok r ↔ n < 256 ^ k ∧ r = f n := by
  unfold fieldOf
  split <;> simp_all [Functor.map, Except.map, eq_comm]

@[simp] theorem length_fields (l : List (Nat × Nat)) : (fields l).length = (l.map Prod.fst).sum := by
  simp [fields, List.length_flatMap]

/-- What is written of a part, and what has to fit for it. -/
theorem put_ok {p : Part} (h : z.put p = .ok z') : p.Fits ∧ z.offset + p.record.length < 2 ^ 32 ∧
    z' = ⟨z.out ++ p.record, z.offset + p.record.length, z.entries ++ [p.entry z.offset]⟩ := by
  have hrecord : p.record.length = 30 + (p.entry 0).name.length + p.body.length := by
    simp [Part.record, localHeader, localFields, Nat.add_assoc]
  rw [hrecord]
  cases p with
  | whole name body =>
    simp [ZipWriter.put, ZipWriter.add, ZipWriter.header, zipSize, advance, nameLen, fieldOf_bind,
      fieldOf_map, localHeader, localFields] at h
    simp [Part.Fits, Part.body, Part.record, Part.entry, localHeader, localFields]
    grind
  | streamed name crc size reader =>
    simp [ZipWriter.put, ZipWriter.addStreamed, ZipWriter.header, advance, nameLen, fieldOf_bind] at h
    split at h
    · simp [fieldOf_map, localHeader, localFields] at h
      simp [Part.Fits, Part.body, Part.record, Part.entry, localHeader, localFields]
      grind
    · simp [throw, throwThe, MonadExceptOf.throw] at h

theorem puts_ok (hz : z.offset < 2 ^ 32) (h : parts.foldlM ZipWriter.put z = .ok z') :
    (∀ p ∈ parts, p.Fits) ∧ z'.offset < 2 ^ 32 ∧ z' = ⟨z.out ++ parts.flatMap Part.record,
      z.offset + (parts.flatMap Part.record).length, z.entries ++ entriesFrom z.offset parts⟩ := by
  induction parts generalizing z with
  | nil =>
    cases h
    simpa [entriesFrom] using hz
  | cons p parts ih =>
    obtain ⟨a, ha, hrest⟩ := bind_eq_ok_iff.mp h
    obtain ⟨hp, hlt, rfl⟩ := put_ok ha
    obtain ⟨hall, hend, heq⟩ := ih hlt hrest
    refine ⟨List.forall_mem_cons.mpr ⟨hp, hall⟩, hend, ?_⟩
    simp [heq, entriesFrom, Nat.add_assoc]

theorem directories_ok {entries : List ZipEntryMeta} (hz : z.offset < 2 ^ 32)
    (h : entries.foldlM ZipWriter.directory z = .ok z') : z'.offset < 2 ^ 32 ∧
      z' = ⟨z.out ++ entries.flatMap centralHeader,
        z.offset + (entries.flatMap centralHeader).length, z.entries⟩ := by
  induction entries generalizing z with
  | nil =>
    cases h
    simpa using hz
  | cons e entries ih =>
    obtain ⟨a, ha, hrest⟩ := bind_eq_ok_iff.mp h
    simp only [ZipWriter.directory, advance, nameLen, fieldOf_bind] at ha
    obtain ⟨-, hlt, ⟨⟩⟩ := ha
    obtain ⟨hend, heq⟩ := ih hlt hrest
    exact ⟨hend, by simp [heq, centralHeader, centralFields, Nat.add_assoc]⟩

@[simp] theorem length_entriesFrom (offset : Nat) (parts : List Part) :
    (entriesFrom offset parts).length = parts.length := by
  induction parts generalizing offset with
  | nil => rfl
  | cons p parts ih => rw [entriesFrom, List.length_cons, ih, List.length_cons]

/-! ## What is written is read back -/

theorem readFields_fields {l : List (Nat × Nat)} (h : ∀ f ∈ l, f.2 < 256 ^ f.1) (rest : Bytes) :
    readFields (l.map Prod.fst) (fields l ++ rest) = some (l.map Prod.snd, rest) := by
  induction l with
  | nil => rfl
  | cons f l ih =>
    obtain ⟨hf, hl⟩ := List.forall_mem_cons.mp h
    have hcons : fields (f :: l) ++ rest = leBytes f.1 f.2 ++ (fields l ++ rest) := by
      simp [fields]
    rw [hcons, List.map_cons, readFields, if_pos (by simp), List.drop_left' (length_leBytes ..),
      List.take_left' (length_leBytes ..), ih hl, fromLeBytes_leBytes hf]
    rfl

theorem readBody_record {file rest : Bytes} {p : Part} {offset : Nat} (hp : p.Fits)
    (hlt : p.body.length < 2 ^ 32) (hfile : file.drop offset = p.record ++ rest) :
    readBody file (p.entry offset) = some p.body := by
  obtain ⟨hname, hsize⟩ := hp
  have hread := readFields_fields (l := localFields (p.entry 0)) (by simp [localFields]; omega)
    ((p.entry 0).name ++ (p.body ++ rest))
  simp only [localFields, List.map_cons, List.map_nil] at hread
  rw [p.entry_eq, readBody, hfile, Part.record, localHeader, localFields, List.append_assoc,
    List.append_assoc, hread]
  simp [← hsize]

/-- A directory is read back if its records stand behind what was written before them. -/
theorem readDirectory_centrals (pre : Bytes) {file more tail : Bytes} {parts : List Part}
    (hfits : ∀ p ∈ parts, p.Fits) (hfile : file = pre ++ (parts.flatMap Part.record ++ more))
    (hlt : (pre ++ parts.flatMap Part.record).length < 2 ^ 32) :
    readDirectory file parts.length ((entriesFrom pre.length parts).flatMap centralHeader ++ tail) =
      some ((entriesFrom pre.length parts).zip (parts.map Part.body)) := by
  induction parts generalizing pre with
  | nil => rfl
  | cons p parts ih =>
    obtain ⟨hp, hfits⟩ := List.forall_mem_cons.mp hfits
    have hlen : pre.length + p.body.length < 2 ^ 32 := by
      simp [Part.record] at hlt
      omega
    have hbehind : file.drop pre.length = p.record ++ (parts.flatMap Part.record ++ more) := by
      simp [hfile]
    have hbody := readBody_record hp (by omega) hbehind
    have hrest := ih (pre ++ p.record) hfits (by simp [hfile]) (by simpa using hlt)
    rw [p.entry_eq] at hbody
    rw [List.length_append] at hrest
    obtain ⟨hname, hsize⟩ := hp
    have hread := readFields_fields (l := centralFields (p.entry pre.length))
      (by simp [p.entry_eq pre.length, centralFields]; omega)
    simp only [p.entry_eq pre.length, centralFields, List.map_cons, List.map_nil] at hread
    rw [entriesFrom, List.length_cons, List.flatMap_cons, p.entry_eq, centralHeader, centralFields,
      List.append_assoc, List.append_assoc, readDirectory, hread]
    simp [hbody, hrest]

theorem readArchive_end {records directory : Bytes} {count : Nat} (hcount : count < 2 ^ 16)
    (hlt : records.length + directory.length < 2 ^ 32) {last : Bytes}
    (hlast : last = fields (endFields count directory.length records.length)) :
    readArchive (records ++ (directory ++ last)) =
      readDirectory (records ++ (directory ++ last)) count (directory ++ last) := by
  have hlen : last.length = 22 := by simp [hlast, endFields]
  have hread := readFields_fields (l := endFields count directory.length records.length)
    (by simp [endFields]; omega) []
  have hdrop : (records ++ (directory ++ last)).length - 22 = (records ++ directory).length := by
    simp only [List.length_append, hlen]
    omega
  rw [← hlast, List.append_nil] at hread
  simp only [endFields, List.map_cons, List.map_nil] at hread
  unfold readArchive
  rw [hdrop, ← List.append_assoc, List.drop_left, hread]
  simp [hlen, Nat.add_assoc]

/-- **An archive that is written is read back**: the name, checksum, size and place of every part,
and its body there. -/
theorem archive_reads_back {parts : List Part} {file : Bytes} (h : archive parts = .ok file) :
    readArchive file = some ((entriesFrom 0 parts).zip (parts.map Part.body)) := by
  obtain ⟨z, hz, hfinish⟩ := bind_eq_ok_iff.mp h
  obtain ⟨hfits, hlt, rfl⟩ := puts_ok (by decide) hz
  obtain ⟨last, hlast, hfile⟩ := bind_eq_ok_iff.mp hfinish
  obtain ⟨hend, rfl⟩ := directories_ok hlt hlast
  obtain ⟨hcount, ⟨⟩⟩ := fieldOf_bind.mp hfile
  simp only [List.nil_append, Nat.zero_add, Nat.add_sub_cancel_left, length_entriesFrom,
    List.append_assoc] at hcount hend hlt ⊢
  rw [readArchive_end hcount hend rfl]
  exact readDirectory_centrals [] hfits rfl hlt

/-- A part in one piece, and one in two. -/
def twoParts : List Part := [.whole [97] [1, 2], .streamed [98] (crc32 [3, 4]) 2 [[3], [4]]]

theorem archive_reads_back_two : (archive twoParts).map readArchive =
    .ok (some [(⟨[97], crc32 [1, 2], 2, 0⟩, [1, 2]), (⟨[98], crc32 [3, 4], 2, 33⟩, [3, 4])]) := by
  have hok : (archive twoParts).isOk = true := by decide +kernel
  cases h : archive twoParts with
  | error e =>
    rw [h] at hok
    cases hok
  | ok file => exact congrArg Except.ok (archive_reads_back h)

end Proofs

end RedDb.Transfer
