import Mathlib.Data.List.Forall2
import Mathlib.Data.List.Induction
import RedDb.Kv.CommandLine
import RedDb.Lib.Numerals

/-!
# RedDb — MessagePack values

The lens of the inspector shows a value of bytes as the tree it encodes. The first byte of a value says
which arm reads it, and the arms of collections read values again, one level deeper.

* `arm_formats` — the arms are the formats of MessagePack;
* `msgpackValue_iff` — an arm reads just what its format lays down;
* `reserved_bounded` — no announced length is asked for in full before its items are there;
* `decodeMsgpack_shows` — so a tree is shown of every whole value within the limit and of nothing else,
  its strings as far as they are UTF-8;
* `broken_text_shown` — a string that is not.
-/

namespace RedDb.Kv.MsgPack

open ByteText
open RedDb.Driver (fromUtf8Lossy validUtf8)

/-- A decoded value; `F` are the numbers with a fraction. -/
inductive Decoded (F : Type) where
  | null
  | bool (b : Bool)
  | int (n : Int)
  | uint (n : Nat)
  | float (x : F)
  | str (s : Bytes)
  | bytes (b : Bytes)
  | array (items : List (Decoded F))
  | map (pairs : List (Decoded F × Decoded F))
  | other (s : Bytes)

def maxDepth : Nat := 64

/-! ## The cursor -/

def take (n : Nat) (b : Bytes) : Option (Bytes × Bytes) :=
  if n ≤ b.length then some (b.take n, b.drop n) else none

/-- In 64 bits. -/
def beUint (n : Nat) (b : Bytes) : Option (Nat × Bytes) :=
  (take n b).map fun (s, rest) => (s.foldl (fun v c => v <<< 8 % 2 ^ 64 ||| c.toNat) 0, rest)

/-- The sign is extended by a shift to the left and back. -/
def signExtend (bits raw : Nat) : Int :=
  let shifted : Nat := raw <<< (64 - bits) % 2 ^ 64
  (if shifted < 2 ^ 63 then (shifted : Int) else shifted - 2 ^ 64) / 2 ^ (64 - bits)

/-! ## The arms -/

/-- A length that is part of the tag, or one that is read from some bytes. -/
inductive Length where
  | now (n : Nat)
  | read (width : Nat)
  deriving DecidableEq

def Length.get : Length → Bytes → Option (Nat × Bytes)
  | .now n, b => some (n, b)
  | .read width, b => beUint width b

inductive Arm where
  | null
  | bool (b : Bool)
  | posFix (n : Nat)
  | negFix (n : Int)
  | uint (width : Nat)
  | int (width : Nat)
  | float (width : Nat)
  | str (len : Length)
  | bytes (len : Length)
  | array (len : Length)
  | map (len : Length)
  | ext (len : Length)
  deriving DecidableEq

/-- The `match` on the tag. -/
def arm (tag : Nat) : Option Arm :=
  if tag ≤ 0x7f then some (.posFix tag)
  else if 0xe0 ≤ tag then some (.negFix (tag - 256))
  else if tag ≤ 0x8f then some (.map (.now (tag &&& 0x0f)))
  else if tag ≤ 0x9f then some (.array (.now (tag &&& 0x0f)))
  else if tag ≤ 0xbf then some (.str (.now (tag &&& 0x1f)))
  else match tag with
    | 0xc0 => some .null
    | 0xc2 => some (.bool false)
    | 0xc3 => some (.bool true)
    | 0xcc => some (.uint 1)
    | 0xcd => some (.uint 2)
    | 0xce => some (.uint 4)
    | 0xcf => some (.uint 8)
    | 0xd0 => some (.int 1)
    | 0xd1 => some (.int 2)
    | 0xd2 => some (.int 4)
    | 0xd3 => some (.int 8)
    | 0xca => some (.float 4)
    | 0xcb => some (.float 8)
    | 0xd9 => some (.str (.read 1))
    | 0xda => some (.str (.read 2))
    | 0xdb => some (.str (.read 4))
    | 0xc4 => some (.bytes (.read 1))
    | 0xc5 => some (.bytes (.read 2))
    | 0xc6 => some (.bytes (.read 4))
    | 0xdc => some (.array (.read 2))
    | 0xdd => some (.array (.read 4))
    | 0xde => some (.map (.read 2))
    | 0xdf => some (.map (.read 4))
    | 0xd4 => some (.ext (.now 1))
    | 0xd5 => some (.ext (.now 2))
    | 0xd6 => some (.ext (.now 4))
    | 0xd7 => some (.ext (.now 8))
    | 0xd8 => some (.ext (.now 16))
    | 0xc7 => some (.ext (.read 1))
    | 0xc8 => some (.ext (.read 2))
    | 0xc9 => some (.ext (.read 4))
    | _ => none

/-! ## Values -/

def hexByte (c : UInt8) : Bytes := [lowerHex (c.toNat / 16), lowerHex (c.toNat % 16)]

/-- At most 32 bytes are shown. -/
def renderBytes (b : Bytes) : Bytes :=
  ascii "0x" ++ (b.take 32).flatMap hexByte ++
    if 32 < b.length then [0xE2, 0x80, 0xA6] ++ ascii " (" ++ decimal b.length ++ ascii " bytes)" else []

def newlineIndent (depth : Nat) : Bytes := 10 :: List.replicate (2 * depth) 32

def escapeInto (s : Bytes) : Bytes := s.flatMap fun c =>
  if c = 34 then ascii "\\\"" else if c = 92 then ascii "\\\\" else if c = 10 then ascii "\\n"
  else if c = 13 then ascii "\\r" else if c = 9 then ascii "\\t" else [c]

/-- The parts between two brackets, a line each. -/
def bracketed (open_ close : String) (depth : Nat) (parts : List Bytes) : Bytes :=
  if parts.isEmpty then ascii open_ ++ ascii close
  else ascii open_ ++ (ascii ",").intercalate (parts.map (newlineIndent (depth + 1) ++ ·)) ++
    newlineIndent depth ++ ascii close

/-- With the levels that are left, `depth` of them gone; `shown` is the text of a float. -/
def Decoded.write {F : Type} (shown : F → Bytes) : Nat → Nat → Decoded F → Bytes
  | 0, _, _ => [0xE2, 0x80, 0xA6]
  | levels + 1, depth, t =>
    let inner := Decoded.write shown levels (depth + 1)
    match t with
    | .null => ascii "null"
    | .bool b => ascii (if b then "true" else "false")
    | .int n => ascii (toString n)
    | .uint n => decimal n
    | .float x => shown x
    | .str s => 34 :: escapeInto s ++ [34]
    | .bytes b => renderBytes b
    | .other s => s
    | .array items => bracketed "[" "]" depth (items.map inner)
    | .map pairs => bracketed "\x7b" "\x7d" depth (pairs.map fun (k, v) => inner k ++ ascii ": " ++ inner v)

def Decoded.render {F : Type} (shown : F → Bytes) (t : Decoded F) : Bytes :=
  t.write shown (maxDepth + 1) 0

def extLabel (ty : UInt8) (data : Bytes) : Bytes :=
  ascii "ext(type " ++ ascii (toString (signExtend 8 ty.toNat)) ++ ascii ", " ++ renderBytes data ++ ascii ")"

section Reader

variable {α : Type} (value : Bytes → Option (α × Bytes))

def items : Nat → Bytes → Option (List α × Bytes)
  | 0, b => some ([], b)
  | n + 1, b => (value b).bind fun (v, b) => (items n b).map fun (vs, b) => (v :: vs, b)

def pair (b : Bytes) : Option ((α × α) × Bytes) :=
  (value b).bind fun (k, b) => (value b).map fun (v, b) => ((k, v), b)

end Reader

section Decode

variable {F : Type} (real : Bytes → F)

def msgpackExt (n : Nat) : Bytes → Option (Decoded F × Bytes)
  | [] => none
  | ty :: b => (take n b).map fun (data, b) => (.other (extLabel ty data), b)

/-- `real` are the floats of four and of eight bytes. -/
def Arm.run (value : Bytes → Option (Decoded F × Bytes)) (b : Bytes) : Arm → Option (Decoded F × Bytes)
  | .null => some (.null, b)
  | .bool x => some (.bool x, b)
  | .posFix n => some (.uint n, b)
  | .negFix n => some (.int n, b)
  | .uint width => (beUint width b).map fun (n, b) => (.uint n, b)
  | .int width => (beUint width b).map fun (n, b) => (.int (signExtend (8 * width) n), b)
  | .float width => (take width b).map fun (x, b) => (.float (real x), b)
  | .str len => (len.get b).bind fun (n, b) => (take n b).map fun (s, b) => (.str (fromUtf8Lossy s), b)
  | .bytes len => (len.get b).bind fun (n, b) => (take n b).map fun (s, b) => (.bytes s, b)
  | .array len => (len.get b).bind fun (n, b) => (items value n b).map fun (vs, b) => (.array vs, b)
  | .map len => (len.get b).bind fun (n, b) => (items (pair value) n b).map fun (ps, b) => (.map ps, b)
  | .ext len => (len.get b).bind fun (n, b) => msgpackExt n b

/-- With the levels that are left. -/
def msgpackValue : Nat → Bytes → Option (Decoded F × Bytes)
  | 0, _ | _, [] => none
  | levels + 1, tag :: b => (arm tag.toNat).bind (Arm.run real (msgpackValue levels) b)

def decodeMsgpack (shown : F → Bytes) (b : Bytes) : Option Bytes :=
  if b.isEmpty then none
  else (msgpackValue real (maxDepth + 1) b).bind fun (v, rest) =>
    if rest.isEmpty then some (v.render shown) else none

section Cost

variable {α : Type} (cost : Bytes → Nat) (value : Bytes → Option (α × Bytes))

/-- What the items ask for, up to the first that is none. -/
def itemsCost : Nat → Bytes → Nat
  | 0, _ => 0
  | n + 1, b => cost b + (value b).elim 0 fun (_, b) => itemsCost n b

def pairCost (b : Bytes) : Nat := cost b + (value b).elim 0 fun (_, b) => cost b

def collectionCost (len : Length) (b : Bytes) : Nat :=
  (len.get b).elim 0 fun (n, b) => min n 1024 + itemsCost cost value n b

end Cost

/-- The places that `with_capacity` asks for while a value is read. -/
def reserved : Nat → Bytes → Nat
  | 0, _ | _, [] => 0
  | levels + 1, tag :: b =>
    let value := msgpackValue real levels
    match arm tag.toNat with
    | some (.array len) => collectionCost (reserved levels) value len b
    | some (.map len) => collectionCost (pairCost (reserved levels) value) (pair value) len b
    | _ => 0

/-! ## The format -/

def bigEndian (b : Bytes) : Nat := b.foldl (fun v c => 256 * v + c.toNat) 0

/-- The formats of MessagePack: a first tag, how many there are, and their kinds. -/
def formats : List (Nat × Nat × (Nat → Arm)) :=
  [(0x00, 128, .posFix), (0x80, 16, fun n => .map (.now n)), (0x90, 16, fun n => .array (.now n)),
    (0xa0, 32, fun n => .str (.now n)), (0xc0, 1, fun _ => .null), (0xc2, 2, fun n => .bool (n == 1)),
    (0xc4, 3, fun k => .bytes (.read (2 ^ k))), (0xc7, 3, fun k => .ext (.read (2 ^ k))),
    (0xca, 2, fun k => .float (4 * 2 ^ k)), (0xcc, 4, fun k => .uint (2 ^ k)), (0xd0, 4, fun k => .int (2 ^ k)),
    (0xd4, 5, fun k => .ext (.now (2 ^ k))), (0xd9, 3, fun k => .str (.read (2 ^ k))),
    (0xdc, 2, fun k => .array (.read (2 ^ (k + 1)))), (0xde, 2, fun k => .map (.read (2 ^ (k + 1)))),
    (0xe0, 32, fun n => .negFix (n - 32))]

def format (tag : Nat) : Option Arm := formats.findSome? fun (first, count, kind) =>
  if first ≤ tag ∧ tag < first + count then some (kind (tag - first)) else none

def Length.Writes : Length → Nat → Bytes → Prop
  | .now n, m, head => m = n ∧ head = []
  | .read width, m, head => head.length = width ∧ m = bigEndian head

section Shapes

variable {α β : Type}

/-- A part that says `x`, and behind it one that depends on it. -/
def Then (R : α → Bytes → Prop) (S : α → Bytes → Prop) (part : Bytes) : Prop :=
  ∃ x head body, R x head ∧ S x body ∧ part = head ++ body

def Items (R : α → Bytes → Prop) (n : Nat) (vs : List α) (part : Bytes) : Prop :=
  ∃ parts, vs.length = n ∧ List.Forall₂ R vs parts ∧ part = parts.flatten

def Pair (R : α → Bytes → Prop) (p : α × α) (part : Bytes) : Prop :=
  ∃ k v, R p.1 k ∧ R p.2 v ∧ part = k ++ v

end Shapes

variable (text : Bytes → Bytes → Prop)

/-- The bytes behind the tag of a value; `text` relates the bytes of a string to what it reads. -/
def Arm.Encodes (value : Decoded F → Bytes → Prop) (t : Decoded F) (b : Bytes) : Arm → Prop
  | .null => t = .null ∧ b = []
  | .bool x => t = .bool x ∧ b = []
  | .posFix n => t = .uint n ∧ b = []
  | .negFix n => t = .int n ∧ b = []
  | .uint width => b.length = width ∧ t = .uint (bigEndian b)
  | .int width => b.length = width ∧ ∃ n : Int, (-256 ^ width ≤ 2 * n ∧ 2 * n < 256 ^ width) ∧
    n % 256 ^ width = bigEndian b ∧ t = .int n
  | .float width => b.length = width ∧ t = .float (real b)
  | .str len => Then len.Writes (fun n s => s.length = n ∧ ∃ u, text s u ∧ t = .str u) b
  | .bytes len => Then len.Writes (fun n s => s.length = n ∧ t = .bytes s) b
  | .array len => Then len.Writes (fun n body => ∃ vs, Items value n vs body ∧ t = .array vs) b
  | .map len => Then len.Writes (fun n body => ∃ ps, Items (Pair value) n ps body ∧ t = .map ps) b
  | .ext len => Then len.Writes (fun n body => ∃ ty data, data.length = n ∧ body = ty :: data ∧
    t = .other (extLabel ty data)) b

/-- The bytes are one value, no deeper than the levels, and the tree is that value. -/
def Encodes : Nat → Decoded F → Bytes → Prop
  | 0, _, _ => False
  | levels + 1, t, b => ∃ tag body a, b = tag :: body ∧ format tag.toNat = some a ∧
    a.Encodes real text (Encodes levels) t body

end Decode

/-! ## The arms are the formats -/

theorem arm_formats : ∀ tag : Fin 256, arm tag = format tag := by decide +kernel

def Length.narrow : Length → Bool
  | .now _ => true
  | .read width => width ≤ 8

def Arm.narrow : Arm → Bool
  | .uint width => width ≤ 8
  | .int width => width == 1 || width == 2 || width == 4 || width == 8
  | .str len | .bytes len | .array len | .map len | .ext len => len.narrow
  | _ => true

theorem format_narrow : ∀ tag : Fin 256, (format tag).all Arm.narrow = true := by decide +kernel

/-! ## Reading -/

section Reads

variable {α β : Type} {value : Bytes → Option (α × Bytes)} {R : α → Bytes → Prop}

/-- What a reader reads is what stands in front of the rest. -/
def Reads (value : Bytes → Option (α × Bytes)) (R : α → Bytes → Prop) : Prop :=
  ∀ b v rest, value b = some (v, rest) ↔ ∃ part, R v part ∧ b = part ++ rest

theorem Reads.congr {S : α → Bytes → Prop} (h : Reads value R) (hS : ∀ v part, R v part ↔ S v part) :
    Reads value S :=
  (funext₂ fun v part => propext (hS v part) : R = S) ▸ h

theorem Reads.now (x : α) : Reads (fun b => some (x, b)) fun v part => v = x ∧ part = [] := by
  intro b v rest
  rw [Option.some.injEq, Prod.mk.injEq]
  constructor
  · rintro ⟨rfl, rfl⟩
    exact ⟨[], ⟨rfl, rfl⟩, rfl⟩
  · rintro ⟨_, ⟨rfl, rfl⟩, rfl⟩
    exact ⟨rfl, rfl⟩

theorem Reads.bind {next : α → Bytes → Option (β × Bytes)} {S : α → β → Bytes → Prop} (h : Reads value R)
    (hnext : ∀ x, Reads (next x) (S x)) :
    Reads (fun b => (value b).bind fun (x, b) => next x b) fun v => Then R fun x => S x v := by
  intro b v rest
  simp only [Option.bind_eq_some_iff, Prod.exists, h _ _ _, hnext _ _ _ _]
  constructor
  · rintro ⟨x, _, ⟨head, hx, rfl⟩, body, hv, rfl⟩
    exact ⟨head ++ body, ⟨x, head, body, hx, hv, rfl⟩, (List.append_assoc ..).symm⟩
  · rintro ⟨_, ⟨x, head, body, hx, hv, rfl⟩, rfl⟩
    exact ⟨x, body ++ rest, ⟨head, hx, List.append_assoc ..⟩, body, hv, rfl⟩

theorem Reads.map (h : Reads value R) (f : α → β) :
    Reads (fun b => (value b).map fun (x, b) => (f x, b)) fun v part => ∃ x, R x part ∧ v = f x := by
  intro b v rest
  simp only [Option.map_eq_some_iff, Prod.exists, h _ _ _, Prod.mk.injEq]
  constructor
  · rintro ⟨x, _, ⟨part, hx, rfl⟩, rfl, rfl⟩
    exact ⟨part, ⟨x, hx, rfl⟩, rfl⟩
  · rintro ⟨part, ⟨x, hx, rfl⟩, rfl⟩
    exact ⟨x, rest, ⟨part, hx, rfl⟩, rfl, rfl⟩

theorem Reads.map_eq {P : Bytes → Prop} {g : Bytes → α} (h : Reads value fun x part => P part ∧ x = g part)
    (f : α → β) :
    Reads (fun b => (value b).map fun (x, b) => (f x, b)) fun v part => P part ∧ v = f (g part) :=
  (h.map f).congr fun v part => by simp

theorem pair_reads (h : Reads value R) : Reads (pair value) (Pair R) := by
  refine (h.bind fun k => h.map (Prod.mk k)).congr fun p part => ?_
  constructor
  · rintro ⟨k, head, body, hk, ⟨v, hv, rfl⟩, rfl⟩
    exact ⟨head, body, hk, hv, rfl⟩
  · rintro ⟨head, body, hk, hv, rfl⟩
    exact ⟨p.1, head, body, hk, ⟨p.2, hv, rfl⟩, rfl⟩

theorem items_reads (h : Reads value R) (n : Nat) : Reads (items value n) (Items R n) := by
  induction n with
  | zero =>
    refine (Reads.now []).congr fun vs part => ?_
    constructor
    · rintro ⟨rfl, rfl⟩
      exact ⟨[], rfl, List.Forall₂.nil, rfl⟩
    · rintro ⟨parts, hlen, hparts, rfl⟩
      obtain rfl := List.length_eq_zero_iff.mp hlen
      cases hparts
      exact ⟨rfl, rfl⟩
  | succ n ih =>
    refine (h.bind fun v => ih.map (List.cons v)).congr fun vs part => ?_
    constructor
    · rintro ⟨v, head, _, hv, ⟨vs, ⟨parts, hlen, hparts, rfl⟩, rfl⟩, rfl⟩
      exact ⟨head :: parts, congrArg Nat.succ hlen, List.Forall₂.cons hv hparts, rfl⟩
    · rintro ⟨parts, hlen, hparts, rfl⟩
      cases hparts with
      | nil => cases hlen
      | @cons v head vs parts hv hparts =>
        exact ⟨v, head, _, hv, ⟨vs, ⟨parts, Nat.succ.inj hlen, hparts, rfl⟩, rfl⟩, rfl⟩

theorem take_reads (n : Nat) : Reads (take n) fun s part => part.length = n ∧ s = part := by
  intro b s rest
  unfold take
  rw [Option.ite_none_right_eq_some, Option.some.injEq, Prod.mk.injEq]
  constructor
  · rintro ⟨hn, rfl, rfl⟩
    exact ⟨_, ⟨List.length_take_of_le hn, rfl⟩, (List.take_append_drop n b).symm⟩
  · rintro ⟨_, ⟨rfl, rfl⟩, rfl⟩
    exact ⟨by simp, List.take_left' rfl, List.drop_left' rfl⟩

end Reads

/-- Eight bytes at most do not overflow. -/
theorem foldl_bigEndian {s : Bytes} (hs : s.length ≤ 8) :
    s.foldl (fun v c => v <<< 8 % 2 ^ 64 ||| c.toNat) 0 = bigEndian s ∧ bigEndian s < 256 ^ s.length := by
  unfold bigEndian
  induction s using List.reverseRecOn with
  | nil => exact ⟨rfl, Nat.one_pos⟩
  | append_singleton s c ih =>
    rw [List.length_append, List.length_singleton] at hs ⊢
    obtain ⟨hfold, hlt⟩ := ih (by omega)
    have hpow : 256 ^ s.length ≤ 256 ^ 7 := Nat.pow_le_pow_right (by decide) (by omega)
    have hc : c.toNat < 2 ^ 8 := c.toNat_lt
    simp only [List.foldl_append, List.foldl_cons, List.foldl_nil, hfold]
    rw [Nat.mod_eq_of_lt (by rw [Nat.shiftLeft_eq]; omega), ← Nat.shiftLeft_add_eq_or_of_lt hc,
      Nat.shiftLeft_eq, pow_succ 256]
    omega

theorem beUint_reads {w : Nat} (hw : w ≤ 8) :
    Reads (beUint w) fun n part => part.length = w ∧ n = bigEndian part :=
  ((take_reads w).map_eq _).congr fun n part => and_congr_right fun hlen => by
    rw [(foldl_bigEndian (hlen ▸ hw)).1]

theorem get_reads {len : Length} (h : len.narrow = true) : Reads len.get len.Writes := by
  cases len with
  | now n => exact Reads.now n
  | read w => exact beUint_reads (of_decide_eq_true h)

/-- The shifts give the number its sign. -/
theorem signExtend_iff {w raw : Nat} {n : Int} (hw : (Arm.int w).narrow = true) (hraw : raw < 256 ^ w) :
    n = signExtend (8 * w) raw ↔ (-256 ^ w ≤ 2 * n ∧ 2 * n < 256 ^ w) ∧ n % 256 ^ w = raw := by
  simp only [Arm.narrow, Bool.or_eq_true, beq_iff_eq, or_assoc] at hw
  unfold signExtend
  rw [Nat.shiftLeft_eq]
  rcases hw with rfl | rfl | rfl | rfl <;> norm_num at hraw ⊢ <;> split <;> omega

/-- What the bytes of a string read: their text, with a replacement for what is not UTF-8. -/
def Lossy (s u : Bytes) : Prop := u = fromUtf8Lossy s ∧ (validUtf8 s = true → u = s)

section Decode

variable {F : Type} (real : Bytes → F)

theorem ext_reads (n : Nat) : Reads (msgpackExt (F := F) n) fun t body => ∃ ty data, data.length = n ∧
    body = ty :: data ∧ t = .other (extLabel ty data) := by
  intro b t rest
  cases b with
  | nil => simp [msgpackExt]
  | cons ty b =>
    refine ((take_reads n).map_eq (fun data => Decoded.other (extLabel ty data)) b t rest).trans ?_
    constructor
    · rintro ⟨data, ⟨hlen, ht⟩, rfl⟩
      exact ⟨ty :: data, ⟨ty, data, hlen, rfl, ht⟩, rfl⟩
    · rintro ⟨_, ⟨ty', data, hlen, rfl, ht⟩, heq⟩
      obtain ⟨rfl, rfl⟩ := List.cons.inj heq
      exact ⟨data, ⟨hlen, ht⟩, rfl⟩

/-- An arm reads what its format lays down. -/
theorem run_reads {value : Bytes → Option (Decoded F × Bytes)} {R : Decoded F → Bytes → Prop}
    (h : Reads value R) {a : Arm} (ha : a.narrow = true) :
    Reads (fun b => a.run real value b) fun t body => a.Encodes real Lossy R t body := by
  cases a with
  | null | bool | posFix | negFix => exact Reads.now _
  | uint w => exact (beUint_reads (of_decide_eq_true ha)).map_eq Decoded.uint
  | int w =>
    have hw : w ≤ 8 := by
      simp only [Arm.narrow, Bool.or_eq_true, beq_iff_eq] at ha
      omega
    refine ((beUint_reads hw).map_eq fun raw => Decoded.int (signExtend (8 * w) raw)).congr fun t part =>
      and_congr_right fun hlen => ?_
    have hsign {n : Int} := signExtend_iff (n := n) ha (hlen ▸ (foldl_bigEndian (hlen ▸ hw)).2)
    constructor
    · rintro rfl
      obtain ⟨hbound, hval⟩ := hsign.mp rfl
      exact ⟨_, hbound, hval, rfl⟩
    · rintro ⟨n, hbound, hval, rfl⟩
      exact congrArg Decoded.int (hsign.mpr ⟨hbound, hval⟩)
  | float w => exact (take_reads w).map_eq fun x => Decoded.float (real x)
  | str len =>
    refine (get_reads ha).bind fun n =>
      ((take_reads n).map_eq fun s => Decoded.str (fromUtf8Lossy s)).congr fun t s => ?_
    exact ⟨fun ⟨hlen, ht⟩ => ⟨hlen, _, ⟨rfl, fromUtf8Lossy_valid⟩, ht⟩,
      fun ⟨hlen, _, ⟨hu, _⟩, ht⟩ => ⟨hlen, hu ▸ ht⟩⟩
  | bytes len => exact (get_reads ha).bind fun n => (take_reads n).map_eq Decoded.bytes
  | array len => exact (get_reads ha).bind fun n => (items_reads h n).map Decoded.array
  | map len => exact (get_reads ha).bind fun n => (items_reads (pair_reads h) n).map Decoded.map
  | ext len => exact (get_reads ha).bind ext_reads

theorem msgpackValue_iff (levels : Nat) :
    Reads (msgpackValue real levels) (Encodes real Lossy levels) := by
  induction levels with
  | zero => simp [Reads, msgpackValue, Encodes]
  | succ levels ih =>
    intro b t rest
    cases b with
    | nil => simp [msgpackValue, Encodes]
    | cons tag b =>
      have hformat := arm_formats ⟨tag.toNat, tag.toNat_lt⟩
      have hnarrow := format_narrow ⟨tag.toNat, tag.toNat_lt⟩
      dsimp only at hformat hnarrow
      rw [msgpackValue, Option.bind_eq_some_iff, hformat]
      constructor
      · rintro ⟨a, ha, hrun⟩
        rw [ha] at hnarrow
        obtain ⟨body, hbody, rfl⟩ := (run_reads real ih hnarrow b t rest).mp hrun
        exact ⟨tag :: body, ⟨tag, body, a, rfl, ha, hbody⟩, rfl⟩
      · rintro ⟨_, ⟨tag', body, a, rfl, ha, hbody⟩, heq⟩
        obtain ⟨rfl, rfl⟩ := List.cons.inj heq
        rw [ha] at hnarrow
        exact ⟨a, ha, (run_reads real ih hnarrow _ t rest).mpr ⟨body, hbody, rfl⟩⟩

/-! ## Places -/

section Bounded

variable {α β : Type} {K : Nat} {cost : Bytes → Nat} {value : Bytes → Option (α × Bytes)}

/-- Places are asked for against bytes that are read, but for those that the levels may ask in vain. -/
def Bounded (K : Nat) (cost : Bytes → Nat) (value : Bytes → Option (α × Bytes)) : Prop :=
  ∀ b, cost b ≤ K + b.length ∧ ∀ v rest, value b = some (v, rest) → cost b + rest.length < b.length

theorem pair_bounded (h : Bounded K cost value) : Bounded K (pairCost cost value) (pair value) := by
  intro b
  obtain ⟨hcost, hread⟩ := h b
  unfold pairCost pair
  cases hv : value b with
  | none => exact ⟨hcost, nofun⟩
  | some r =>
    obtain ⟨k, b'⟩ := r
    have hk := hread k b' hv
    obtain ⟨hcost', hread'⟩ := h b'
    refine ⟨show cost b + cost b' ≤ _ by omega, fun p rest hp => ?_⟩
    obtain ⟨⟨v, rest'⟩, hv', heq⟩ := Option.map_eq_some_iff.mp hp
    obtain ⟨rfl, rfl⟩ := Prod.mk.inj heq
    have := hread' v rest' hv'
    show cost b + cost b' + _ < _
    omega

theorem items_bounded (h : Bounded K cost value) (n : Nat) (b : Bytes) :
    itemsCost cost value n b ≤ K + b.length ∧
      ∀ vs rest, items value n b = some (vs, rest) → itemsCost cost value n b + n + rest.length ≤ b.length := by
  induction n generalizing b with
  | zero =>
    refine ⟨Nat.zero_le _, ?_⟩
    rintro vs rest ⟨⟩
    exact (Nat.zero_add _).le
  | succ n ih =>
    obtain ⟨hcost, hread⟩ := h b
    unfold itemsCost items
    cases hv : value b with
    | none => exact ⟨hcost, nofun⟩
    | some r =>
      obtain ⟨v, b'⟩ := r
      have hv' := hread v b' hv
      obtain ⟨hcosts, hreads⟩ := ih b'
      refine ⟨show cost b + itemsCost cost value n b' ≤ _ by omega, fun vs rest hvs => ?_⟩
      obtain ⟨⟨vs', rest'⟩, hvs', heq⟩ := Option.map_eq_some_iff.mp hvs
      obtain ⟨rfl, rfl⟩ := Prod.mk.inj heq
      have := hreads vs' rest' hvs'
      show cost b + itemsCost cost value n b' + (n + 1) + _ ≤ _
      omega

/-- A collection asks for 1024 places at most before its items are read. -/
theorem collection_bounded (h : Bounded K cost value) {len : Length} (hlen : len.narrow = true) (f : List α → β)
    (b : Bytes) :
    collectionCost cost value len b ≤ 1024 + K + b.length ∧ ∀ t rest, ((len.get b).bind fun (n, b) =>
      (items value n b).map fun (vs, b) => (f vs, b)) = some (t, rest) →
        collectionCost cost value len b + rest.length ≤ b.length := by
  unfold collectionCost
  cases hget : len.get b with
  | none => exact ⟨Nat.zero_le _, nofun⟩
  | some r =>
    obtain ⟨n, b'⟩ := r
    obtain ⟨head, -, rfl⟩ := (get_reads hlen b n b').mp hget
    obtain ⟨hcosts, hreads⟩ := items_bounded h n b'
    rw [List.length_append]
    refine ⟨show min n 1024 + itemsCost cost value n b' ≤ _ by omega, fun t rest ht => ?_⟩
    obtain ⟨⟨vs, rest'⟩, hvs, heq⟩ := Option.map_eq_some_iff.mp ht
    obtain ⟨rfl, rfl⟩ := Prod.mk.inj heq
    have := hreads vs rest' hvs
    show min n 1024 + itemsCost cost value n b' + _ ≤ _
    omega

end Bounded

theorem reserved_bounded (levels : Nat) :
    Bounded (1024 * levels) (reserved real levels) (msgpackValue real levels) := by
  induction levels with
  | zero => exact fun b => ⟨Nat.zero_le _, nofun⟩
  | succ levels ih =>
    intro b
    cases b with
    | nil => exact ⟨Nat.zero_le _, nofun⟩
    | cons tag b =>
      have hformat := arm_formats ⟨tag.toNat, tag.toNat_lt⟩
      have hnarrow := format_narrow ⟨tag.toNat, tag.toNat_lt⟩
      dsimp only at hformat hnarrow
      rw [← hformat] at hnarrow
      rw [reserved, msgpackValue, List.length_cons]
      cases ha : arm tag.toNat with
      | none => exact ⟨Nat.zero_le _, nofun⟩
      | some a =>
        rw [ha, Option.all_some] at hnarrow
        cases a with
        | array len =>
          obtain ⟨hcost, hread⟩ := collection_bounded ih hnarrow Decoded.array b
          exact ⟨hcost.trans (by omega), fun t rest ht => Nat.lt_succ_of_le (hread t rest ht)⟩
        | map len =>
          obtain ⟨hcost, hread⟩ := collection_bounded (pair_bounded ih) hnarrow Decoded.map b
          exact ⟨hcost.trans (by omega), fun t rest ht => Nat.lt_succ_of_le (hread t rest ht)⟩
        | _ =>
          refine ⟨Nat.zero_le _, fun t rest ht => ?_⟩
          obtain ⟨body, -, rfl⟩ := (run_reads real (msgpackValue_iff real levels) hnarrow b t rest).mp ht
          rw [List.length_append]
          show 0 + rest.length < _
          omega

/-- A tree is shown of the bytes that are one value within the limit and of no others, and the places that
are asked for on the way are bounded by the bytes and the limit. -/
theorem decodeMsgpack_shows (shown : F → Bytes) (b : Bytes) :
    (∀ t, msgpackValue real (maxDepth + 1) b = some (t, []) ↔ Encodes real Lossy (maxDepth + 1) t b) ∧
    (∀ text, decodeMsgpack real shown b = some text ↔
      ∃ t, Encodes real Lossy (maxDepth + 1) t b ∧ t.render shown = text) ∧
    reserved real (maxDepth + 1) b ≤ 1024 * (maxDepth + 1) + b.length := by
  have hwhole (t : Decoded F) :
      msgpackValue real (maxDepth + 1) b = some (t, []) ↔ Encodes real Lossy (maxDepth + 1) t b := by
    refine (msgpackValue_iff real _ b t []).trans ⟨?_, fun ht => ⟨b, ht, (List.append_nil b).symm⟩⟩
    rintro ⟨part, ht, rfl⟩
    rwa [List.append_nil]
  refine ⟨hwhole, fun text => ?_, (reserved_bounded real _ b).1⟩
  simp only [← hwhole]
  unfold decodeMsgpack
  cases b with
  | nil => simp [msgpackValue]
  | cons tag b =>
    rw [if_neg (by simp), Option.bind_eq_some_iff]
    constructor
    · rintro ⟨⟨t, rest⟩, ht, htext⟩
      obtain ⟨hrest, htext⟩ := Option.ite_none_right_eq_some.mp htext
      obtain rfl := List.isEmpty_iff.mp hrest
      exact ⟨t, ht, Option.some.inj htext⟩
    · rintro ⟨t, ht, rfl⟩
      exact ⟨(t, []), ht, rfl⟩

end Decode

/-- A string of one byte that is not UTF-8 is shown as the replacement. -/
theorem broken_text_shown : ¬ ∀ b text : Bytes, decodeMsgpack id id b = some text ↔
    ∃ t, Encodes id Eq (maxDepth + 1) t b ∧ t.render id = text := by
  intro h
  obtain ⟨t, ⟨tag, body, a, hcons, ha, henc⟩, htext⟩ :=
    (h [0xA1, 0xFF] [34, 0xEF, 0xBF, 0xBD, 34]).mp (by decide +kernel)
  obtain ⟨rfl, rfl⟩ := List.cons.inj hcons
  obtain rfl := Option.some.inj (ha.symm.trans (by decide +kernel : _ = some (Arm.str (.now 1))))
  obtain ⟨n, head, s, ⟨-, rfl⟩, ⟨-, u, rfl, rfl⟩, hs⟩ := henc
  obtain rfl : [0xFF] = s := hs
  revert htext
  decide +kernel

end RedDb.Kv.MsgPack
