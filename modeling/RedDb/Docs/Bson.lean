import Mathlib.Data.List.Nodup
import Mathlib.Data.Nat.Bitwise
import RedDb.Driver.Edits

/-!
# RedDb — documents and BSON

The program keeps a document as a `DocValue` tree, and the Mongo driver converts
between that tree and the wire's `Bson`. Every kind of a `DocValue` has its own kind
of `Bson`; the sentinel and legacy kinds of `Bson` fold into the nearest `DocValue`.

* `docToBson_again` — what was a `DocValue` once comes back as the same `Bson`;
* `recode_recode` — reading a value and writing it back changes it once at most;
* `transfer_eq_iff` — a stored document arrives elsewhere as it was exactly when
  each of its values does and its `_id` is not null.
-/

namespace RedDb.Docs

open RedDb.Driver

/-- The BSON value tree. `double` holds the bits of the float. -/
inductive DocValue where
  | null
  | bool (b : Bool)
  | int32 (n : Int32)
  | int64 (n : Int64)
  | double (bits : UInt64)
  | decimal128 (s : String)
  | str (s : String)
  | objectId (bytes : Vector UInt8 12)
  | dateTime (ms : Int64)
  | timestamp (ts : UInt64)
  | binary (subtype : UInt8) (bytes : List UInt8)
  | regex (pattern options : String)
  | array (items : List DocValue)
  | document (fields : List (String × DocValue))

/-- A value of the wire. -/
inductive Bson where
  | double (bits : UInt64)
  | string (s : String)
  | array (items : List Bson)
  | document (fields : List (String × Bson))
  | boolean (b : Bool)
  | null
  | regularExpression (pattern options : String)
  | javaScriptCode (code : String)
  | javaScriptCodeWithScope (code : String) (scope : List (String × Bson))
  | int32 (n : Int32)
  | int64 (n : Int64)
  | timestamp (time increment : UInt32)
  | binary (subtype : UInt8) (bytes : List UInt8)
  | objectId (bytes : Vector UInt8 12)
  | dateTime (ms : Int64)
  | symbol (s : String)
  | decimal128 (bits : BitVec 128)
  | undefined
  | maxKey
  | minKey
  | dbPointer (collection : String) (id : Vector UInt8 12)

abbrev BsonDocument := List (String × Bson)

/-- The decimals of the driver's library, read from their text and printed. -/
class Decimals where
  parse : String → Option (BitVec 128)
  print : BitVec 128 → String
  parse_print : ∀ {s d}, parse s = some d → parse (print d) = some d

/-! ## Ordered maps -/

section Fields

variable {α β : Type*}

def getField (fields : List (String × α)) (key : String) : Option α :=
  (fields.find? fun f => f.1 == key).map (·.2)

/-- A key that is there keeps its place and takes the new value. -/
def insertField (fields : List (String × α)) (f : String × α) : List (String × α) :=
  if fields.any fun g => g.1 == f.1 then fields.map fun g => if g.1 == f.1 then (g.1, f.2) else g
  else fields ++ [f]

/-- `iter().collect()` into an ordered map. -/
def collectFields (fields : List (String × α)) : List (String × α) :=
  fields.foldl insertField []

def mapFields (f : α → β) (fields : List (String × α)) : List (String × β) :=
  fields.map fun g => (g.1, f g.2)

theorem mapFields_keys (f : α → β) (fields : List (String × α)) :
    (mapFields f fields).map (·.1) = fields.map (·.1) := by
  rw [mapFields, List.map_map]
  rfl

theorem mapFields_mapFields {γ : Type*} (f : α → β) (g : β → γ) (fields : List (String × α)) :
    mapFields g (mapFields f fields) = mapFields (fun x => g (f x)) fields := by
  rw [mapFields, mapFields, List.map_map]
  rfl

theorem insertField_keys (fields : List (String × α)) (f : String × α) :
    (insertField fields f).map (·.1) =
      if f.1 ∈ fields.map (·.1) then fields.map (·.1) else fields.map (·.1) ++ [f.1] := by
  have hany : (fields.any fun g => g.1 == f.1) = true ↔ f.1 ∈ fields.map (·.1) := by
    rw [List.any_eq_true, List.mem_map]
    exact exists_congr fun g => and_congr_right fun _ => beq_iff_eq
  unfold insertField
  by_cases h : f.1 ∈ fields.map (·.1)
  · rw [if_pos (hany.mpr h), if_pos h, List.map_map]
    refine List.map_congr_left fun g _ => ?_
    show (if g.1 == f.1 then (g.1, f.2) else g).1 = g.1
    split <;> rfl
  · rw [if_neg (fun hc => h (hany.mp hc)), if_neg h, List.map_append]
    rfl

theorem foldl_insertField_nodup (fields acc : List (String × α)) (h : (acc.map (·.1)).Nodup) :
    ((fields.foldl insertField acc).map (·.1)).Nodup := by
  induction fields generalizing acc with
  | nil => exact h
  | cons f fs ih =>
    refine ih _ ?_
    rw [insertField_keys]
    split
    · exact h
    · rename_i hf
      exact List.Nodup.append h (List.nodup_singleton _)
        (List.disjoint_singleton.mpr hf)

theorem collectFields_nodup (fields : List (String × α)) :
    ((collectFields fields).map (·.1)).Nodup :=
  foldl_insertField_nodup fields [] List.nodup_nil

theorem foldl_insertField_of_nodup (fields acc : List (String × α))
    (h : ((acc ++ fields).map (·.1)).Nodup) : fields.foldl insertField acc = acc ++ fields := by
  induction fields generalizing acc with
  | nil => rw [List.append_nil]; rfl
  | cons f fs ih =>
    have hf : insertField acc f = acc ++ [f] := by
      unfold insertField
      rw [if_neg]
      rw [List.any_eq_true]
      rintro ⟨g, hg, hgf⟩
      rw [List.map_append, List.map_cons, List.nodup_append] at h
      exact h.2.2 _ (List.mem_map_of_mem hg) _ List.mem_cons_self (beq_iff_eq.mp hgf)
    rw [List.foldl_cons, hf, ih _ (by rwa [List.append_assoc]), List.append_assoc]
    rfl

/-- Fields of different names stay as they are. -/
theorem collectFields_of_nodup {fields : List (String × α)} (h : (fields.map (·.1)).Nodup) :
    collectFields fields = fields :=
  foldl_insertField_of_nodup fields [] h

theorem insertField_map (f : α → β) (fields : List (String × α)) (g : String × α) :
    insertField (mapFields f fields) (g.1, f g.2) = mapFields f (insertField fields g) := by
  have hany : ((mapFields f fields).any fun h => h.1 == g.1) = fields.any fun h => h.1 == g.1 := by
    rw [mapFields, List.any_map]
    rfl
  unfold insertField
  rw [hany]
  split
  · rw [mapFields, mapFields, List.map_map, List.map_map]
    refine List.map_congr_left fun h _ => ?_
    show (if h.1 == g.1 then (h.1, f g.2) else (h.1, f h.2)) = _
    simp only [Function.comp_apply]
    split <;> rfl
  · rw [mapFields, mapFields, List.map_append]
    rfl

theorem collectFields_map (f : α → β) (fields : List (String × α)) :
    collectFields (mapFields f fields) = mapFields f (collectFields fields) := by
  have hgen : ∀ acc, (mapFields f fields).foldl insertField (mapFields f acc) =
      mapFields f (fields.foldl insertField acc) := by
    induction fields with
    | nil => intro acc; rfl
    | cons g gs ih =>
      intro acc
      show (mapFields f gs).foldl insertField (insertField (mapFields f acc) (g.1, f g.2)) = _
      rw [insertField_map]
      exact ih _
  exact hgen []

end Fields

/-! ## Between the two trees -/

section Conversion

variable [Decimals]

mutual

def bsonToDoc : Bson → DocValue
  | .null | .undefined => .null
  | .boolean v => .bool v
  | .int32 n => .int32 n
  | .int64 n => .int64 n
  | .double x => .double x
  | .decimal128 d => .decimal128 (Decimals.print d)
  | .string s => .str s
  | .objectId oid => .objectId oid
  | .dateTime ms => .dateTime ms
  | .timestamp time increment => .timestamp (time.toUInt64 <<< 32 ||| increment.toUInt64)
  | .binary subtype bytes => .binary subtype bytes
  | .regularExpression pattern options => .regex pattern options
  | .array items => .array (bsonsToDoc items)
  | .document fields => .document (fieldsToDoc fields)
  -- legacy kinds, folded into the nearest value
  | .symbol s | .javaScriptCode s => .str s
  | .javaScriptCodeWithScope code _ => .str code
  | .minKey => .str "MinKey"
  | .maxKey => .str "MaxKey"
  | .dbPointer _ _ => .null

@[grind =] def bsonsToDoc : List Bson → List DocValue
  | [] => []
  | b :: bs => bsonToDoc b :: bsonsToDoc bs

@[grind =] def fieldsToDoc : BsonDocument → List (String × DocValue)
  | [] => []
  | (k, b) :: fs => (k, bsonToDoc b) :: fieldsToDoc fs

end

mutual

def docToBson : DocValue → Bson
  | .null => .null
  | .bool b => .boolean b
  | .int32 n => .int32 n
  | .int64 n => .int64 n
  | .double x => .double x
  | .decimal128 s =>
    match Decimals.parse s with
    | some d => .decimal128 d
    | none => .string s
  | .str s => .string s
  | .objectId bytes => .objectId bytes
  | .dateTime ms => .dateTime ms
  | .timestamp ts => .timestamp (ts >>> 32).toUInt32 (ts &&& 0xffffffff).toUInt32
  | .binary subtype bytes => .binary subtype bytes
  | .regex pattern options => .regularExpression pattern options
  | .array items => .array (docsToBson items)
  | .document fields => .document (collectFields (fieldsToBson fields))

def docsToBson : List DocValue → List Bson
  | [] => []
  | v :: vs => docToBson v :: docsToBson vs

@[grind =] def fieldsToBson : List (String × DocValue) → BsonDocument
  | [] => []
  | (k, v) :: fs => (k, docToBson v) :: fieldsToBson fs

end

/-- A value read off the wire and written back. -/
def recode (b : Bson) : Bson := docToBson (bsonToDoc b)

theorem fieldsToDoc_eq (fields : BsonDocument) : fieldsToDoc fields = mapFields bsonToDoc fields := by
  induction fields with
  | nil => rfl
  | cons f fs ih => rw [fieldsToDoc, ih]; rfl

theorem fieldsToBson_eq (fields : List (String × DocValue)) :
    fieldsToBson fields = mapFields docToBson fields := by
  induction fields with
  | nil => rfl
  | cons f fs ih => rw [fieldsToBson, ih]; rfl

omit [Decimals] in
/-- The two halves of a timestamp's word. -/
theorem timestamp_word (time increment : UInt32) :
    (time.toUInt64 <<< 32 ||| increment.toUInt64).toNat = time.toNat * 2 ^ 32 + increment.toNat := by
  have ht := time.toNat_lt
  have hi := increment.toNat_lt
  have hshift : (time.toUInt64 <<< 32).toNat = time.toNat <<< 32 := by
    rw [UInt64.toNat_shiftLeft]
    simp only [UInt32.toNat_toUInt64]
    show time.toNat <<< 32 % 2 ^ 64 = _
    rw [Nat.shiftLeft_eq]
    omega
  rw [UInt64.toNat_or, hshift, UInt32.toNat_toUInt64, ← Nat.shiftLeft_add_eq_or_of_lt hi,
    Nat.shiftLeft_eq]

omit [Decimals] in
theorem timestamp_parts (time increment : UInt32) :
    ((time.toUInt64 <<< 32 ||| increment.toUInt64) >>> 32).toUInt32 = time ∧
      ((time.toUInt64 <<< 32 ||| increment.toUInt64) &&& 0xffffffff).toUInt32 = increment := by
  have hword := timestamp_word time increment
  have ht := time.toNat_lt
  have hi := increment.toNat_lt
  generalize time.toUInt64 <<< 32 ||| increment.toUInt64 = word at hword
  constructor
  · apply UInt32.toNat.inj
    rw [UInt64.toNat_toUInt32, UInt64.toNat_shiftRight, hword]
    show (_ >>> 32) % 2 ^ 32 = _
    rw [Nat.shiftRight_eq_div_pow]
    omega
  · apply UInt32.toNat.inj
    rw [UInt64.toNat_toUInt32, UInt64.toNat_and, hword]
    show (_ &&& (2 ^ 32 - 1)) % 2 ^ 32 = _
    rw [Nat.and_two_pow_sub_one_eq_mod]
    omega

mutual

/-- What a `DocValue` is written as is read back and written as the same. -/
theorem docToBson_again : ∀ v : DocValue, recode (docToBson v) = docToBson v
  | .null | .bool _ | .int32 _ | .int64 _ | .double _ | .str _ | .objectId _ | .dateTime _
  | .binary _ _ | .regex _ _ => rfl
  | .decimal128 s => by
    cases h : Decimals.parse s with
    | none =>
      have hv : docToBson (.decimal128 s) = .string s := by rw [docToBson, h]
      rw [hv]
      rfl
    | some d =>
      have hv : docToBson (.decimal128 s) = .decimal128 d := by rw [docToBson, h]
      rw [hv, recode, bsonToDoc, docToBson, Decimals.parse_print h]
  | .timestamp ts => by
    rw [docToBson, recode, bsonToDoc, docToBson, (timestamp_parts _ _).1, (timestamp_parts _ _).2]
  | .array items => by
    rw [docToBson, recode, bsonToDoc, docToBson, docsToBson_again]
  | .document fields => by
    rw [docToBson, recode, bsonToDoc, docToBson, fieldsToDoc_eq, fieldsToBson_eq fields,
      ← collectFields_map, fieldsToBson_eq, ← collectFields_map, ← fieldsToBson_eq,
      ← fieldsToDoc_eq, ← fieldsToBson_eq, fieldsToBson_again,
      collectFields_of_nodup (collectFields_nodup _)]

theorem docsToBson_again : ∀ items : List DocValue,
    docsToBson (bsonsToDoc (docsToBson items)) = docsToBson items
  | [] => rfl
  | v :: vs => by
    have hv := docToBson_again v
    rw [recode] at hv
    rw [docsToBson, bsonsToDoc, docsToBson, hv, docsToBson_again vs]

theorem fieldsToBson_again : ∀ fields : List (String × DocValue),
    fieldsToBson (fieldsToDoc (fieldsToBson fields)) = fieldsToBson fields
  | [] => rfl
  | (k, v) :: fs => by
    have hv := docToBson_again v
    rw [recode] at hv
    rw [fieldsToBson, fieldsToDoc, fieldsToBson, hv, fieldsToBson_again fs]

end

theorem recode_recode (b : Bson) : recode (recode b) = recode b :=
  docToBson_again (bsonToDoc b)

/-! ## Documents -/

/-- One document, its `_id` split out from the rest. -/
structure Document where
  id : DocValue
  fields : List (String × DocValue)

def Document.toDocValue (d : Document) : DocValue := .document (("_id", d.id) :: d.fields)

/-- The loop of `from_doc_value`, from what was split so far. -/
def splitFields : Document → List (String × DocValue) → Document
  | d, [] => d
  | d, (k, v) :: fs =>
    if k == "_id" then splitFields { d with id := v } fs
    else splitFields { d with fields := d.fields ++ [(k, v)] } fs

def Document.fromDocValue : DocValue → Option Document
  | .document fields => some (splitFields ⟨.null, []⟩ fields)
  | _ => none

def splitDocument (bdoc : BsonDocument) : Document :=
  splitFields ⟨.null, []⟩ (mapFields bsonToDoc bdoc)

/-- A value that is no document degrades to the empty one, which matches everything. -/
def docToBsonDocument (v : DocValue) : BsonDocument :=
  match docToBson v with
  | .document d => d
  | _ => []

def documentToBson (d : Document) : BsonDocument := docToBsonDocument d.toDocValue

def Bson.isNull : Bson → Bool
  | .null => true
  | _ => false

omit [Decimals] in
/-- A null `_id` is left out, and the server makes one up. -/
def insertDocumentToBson (d : Document) : BsonDocument :=
  let out := documentToBson d
  if (getField out "_id").any Bson.isNull then out.filter fun f => f.1 != "_id" else out

/-- A document as the server holds it: `_id` in front, and no name twice. -/
structure Stored where
  id : Bson
  fields : BsonDocument
  nodup : ("_id" :: fields.map (·.1)).Nodup

def Stored.wire (d : Stored) : BsonDocument := ("_id", d.id) :: d.fields

/-- What the server keeps of a document it is sent; `fresh` is the id it gets when it
brings none. -/
def keep (fresh : Vector UInt8 12) (sent : BsonDocument) : Stored where
  id := (getField sent "_id").getD (.objectId fresh)
  fields := (collectFields sent).filter fun f => f.1 != "_id"
  nodup := by
    rw [List.nodup_cons]
    constructor
    · intro hmem
      obtain ⟨f, hf, hid⟩ := List.mem_map.mp hmem
      have := (List.mem_filter.mp hf).2
      simp [hid] at this
    · exact (collectFields_nodup sent).sublist (List.filter_sublist.map _)

/-- A stored document read, and inserted elsewhere. -/
def transfer (fresh : Vector UInt8 12) (d : Stored) : Stored :=
  keep fresh (insertDocumentToBson (splitDocument d.wire))

omit [Decimals] in
theorem Stored.ext {d e : Stored} (hid : d.id = e.id) (hfields : d.fields = e.fields) : d = e := by
  cases d
  cases e
  obtain rfl := hid
  obtain rfl := hfields
  rfl

omit [Decimals] in
theorem Stored.ne_id (d : Stored) {f : String × Bson} (hf : f ∈ d.fields) : f.1 ≠ "_id" := by
  rintro hid
  exact (List.nodup_cons.mp d.nodup).1 (hid ▸ List.mem_map_of_mem hf)

omit [Decimals] in
theorem splitFields_eq (fields : List (String × DocValue)) (d : Document)
    (h : ∀ f ∈ fields, f.1 ≠ "_id") : splitFields d fields = ⟨d.id, d.fields ++ fields⟩ := by
  induction fields generalizing d with
  | nil => rw [splitFields, List.append_nil]
  | cons f fs ih =>
    rw [splitFields, if_neg (by simpa using h f List.mem_cons_self),
      ih _ fun g hg => h g (List.mem_cons_of_mem _ hg), List.append_assoc]
    rfl

theorem splitDocument_wire (d : Stored) :
    splitDocument d.wire = ⟨bsonToDoc d.id, mapFields bsonToDoc d.fields⟩ := by
  show splitFields ⟨bsonToDoc d.id, []⟩ (mapFields bsonToDoc d.fields) = _
  rw [splitFields_eq]
  · rfl
  · intro f hf
    obtain ⟨g, hg, rfl⟩ := List.mem_map.mp hf
    exact d.ne_id hg

/-- A stored document, its values read and written back. -/
theorem documentToBson_split (d : Stored) :
    documentToBson (splitDocument d.wire) = ("_id", recode d.id) :: mapFields recode d.fields := by
  have hfields : fieldsToBson (("_id", bsonToDoc d.id) :: mapFields bsonToDoc d.fields) =
      ("_id", recode d.id) :: mapFields recode d.fields := by
    rw [fieldsToBson, fieldsToBson_eq, mapFields_mapFields]
    rfl
  rw [splitDocument_wire, documentToBson, docToBsonDocument, Document.toDocValue, docToBson]
  show collectFields (fieldsToBson _) = _
  rw [hfields, collectFields_of_nodup]
  rw [List.map_cons, mapFields_keys]
  exact d.nodup

omit [Decimals] in
theorem filter_ne_id (d : Stored) (f : Bson → Bson) :
    (mapFields f d.fields).filter (fun g => g.1 != "_id") = mapFields f d.fields := by
  rw [List.filter_eq_self]
  intro g hg
  obtain ⟨h, hh, rfl⟩ := List.mem_map.mp hg
  simpa using d.ne_id hh

/-- What a transferred document is. -/
theorem transfer_eq (fresh : Vector UInt8 12) (d : Stored) :
    (transfer fresh d).id = (if (recode d.id).isNull then .objectId fresh else recode d.id) ∧
      (transfer fresh d).fields = mapFields recode d.fields := by
  have hnodup : ((mapFields recode d.fields).map (·.1)).Nodup := by
    rw [mapFields_keys]
    exact (List.nodup_cons.mp d.nodup).2
  unfold transfer insertDocumentToBson
  simp only [documentToBson_split]
  have hget : getField (("_id", recode d.id) :: mapFields recode d.fields) "_id" =
      some (recode d.id) := rfl
  rw [hget]
  by_cases hnull : (recode d.id).isNull = true
  · rw [if_pos (by rw [Option.any_some]; exact hnull), if_pos hnull]
    have hout : (("_id", recode d.id) :: mapFields recode d.fields).filter (fun g => g.1 != "_id") =
        mapFields recode d.fields := by
      rw [List.filter_cons_of_neg (by simp), filter_ne_id]
    rw [hout]
    constructor
    · have : getField (mapFields recode d.fields) "_id" = none := by
        rw [getField, Option.map_eq_none_iff, List.find?_eq_none]
        intro g hg
        obtain ⟨h, hh, rfl⟩ := List.mem_map.mp hg
        simpa using d.ne_id hh
      show (getField (mapFields recode d.fields) "_id").getD _ = _
      rw [this]
      rfl
    · show (collectFields (mapFields recode d.fields)).filter (fun g => g.1 != "_id") = _
      rw [collectFields_of_nodup hnodup, filter_ne_id]
  · rw [if_neg (by rw [Option.any_some]; exact hnull), if_neg hnull]
    refine ⟨rfl, ?_⟩
    show (collectFields (("_id", recode d.id) :: mapFields recode d.fields)).filter
      (fun g => g.1 != "_id") = _
    rw [collectFields_of_nodup, List.filter_cons_of_neg (by simp), filter_ne_id]
    rw [List.map_cons, mapFields_keys]
    exact d.nodup

/-- Every value of the document is one that a `DocValue` stands for, and its `_id`
is not null. -/
def Stored.Whole (d : Stored) : Prop :=
  recode d.id = d.id ∧ d.id.isNull = false ∧ mapFields recode d.fields = d.fields

/-- **Unchanged.** What an insert leaves of a document is the document itself exactly
when it is whole. -/
theorem transfer_eq_iff (fresh : Vector UInt8 12) (d : Stored) :
    transfer fresh d = d ↔ d.Whole := by
  obtain ⟨hid, hfields⟩ := transfer_eq fresh d
  constructor
  · intro h
    rw [h] at hid hfields
    by_cases hnull : (recode d.id).isNull = true
    · rw [if_pos hnull] at hid
      rw [hid] at hnull
      cases hnull
    · rw [if_neg hnull] at hid
      refine ⟨hid.symm, ?_, hfields.symm⟩
      rw [hid]
      exact Bool.eq_false_iff.mpr hnull
  · rintro ⟨hrecode, hnull, hval⟩
    refine Stored.ext ?_ ?_
    · rw [hid, hrecode, if_neg (by simp [hnull])]
    · rw [hfields, hval]

/-- What an insert leaves is whole. -/
theorem transfer_whole (fresh : Vector UInt8 12) (d : Stored) : (transfer fresh d).Whole := by
  obtain ⟨hid, hfields⟩ := transfer_eq fresh d
  refine ⟨?_, ?_, ?_⟩
  · rw [hid]
    split
    · rfl
    · exact recode_recode _
  · rw [hid]
    split
    · rfl
    · rename_i hnull
      exact Bool.eq_false_iff.mpr hnull
  · rw [hfields, mapFields_mapFields]
    simp only [recode_recode]

end Conversion

end RedDb.Docs
