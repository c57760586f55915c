import RedDb.Docs.Bson

/-!
# RedDb — a document loaded and saved back

A document of the wire is split for the screen, and a save writes the whole of it back. The kinds of
value that the screen has no kind for do not come back.

* `recode_eq_iff` — the values that come back as they were;
* `save_back_iff` — a document saved back unedited is the stored one exactly when all its values are.
-/

namespace RedDb.Docs

mutual

/-- No document of the value has a name twice: the library's documents are ordered maps. -/
def Bson.Keyed : Bson → Prop
  | .array items => KeyedItems items
  | .document fields => (fields.map Prod.fst).Nodup ∧ KeyedFields fields
  | _ => True

def KeyedItems : List Bson → Prop
  | [] => True
  | b :: bs => b.Keyed ∧ KeyedItems bs

def KeyedFields : BsonDocument → Prop
  | [] => True
  | (_, b) :: fs => b.Keyed ∧ KeyedFields fs

end

/-- A document as the library hands it over, `_id` in front. -/
structure LoadedDocument extends Stored where
  keyedId : id.Keyed
  keyedFields : KeyedFields fields

section Mirrored

variable [Decimals]

mutual

/-- The value is of no kind that folds into another, at any depth, and its decimals are read back from
the text they are printed as. -/
def Bson.Mirrored : Bson → Prop
  | .undefined | .symbol _ | .javaScriptCode _ | .javaScriptCodeWithScope _ _ | .minKey | .maxKey
  | .dbPointer _ _ => False
  | .decimal128 d => Decimals.parse (Decimals.print d) = some d
  | .array items => MirroredItems items
  | .document fields => MirroredFields fields
  | _ => True

def MirroredItems : List Bson → Prop
  | [] => True
  | b :: bs => b.Mirrored ∧ MirroredItems bs

def MirroredFields : BsonDocument → Prop
  | [] => True
  | (_, b) :: fs => b.Mirrored ∧ MirroredFields fs

end

theorem recode_decimal_iff (d : BitVec 128) :
    recode (.decimal128 d) = .decimal128 d ↔ Decimals.parse (Decimals.print d) = some d := by
  rw [recode, bsonToDoc, docToBson]
  cases hparse : Decimals.parse (Decimals.print d) with
  | none => exact iff_of_false (fun h => by cases h) (fun h => by cases h)
  | some e =>
    constructor
    · intro h
      rw [Bson.decimal128.inj h]
    · intro h
      rw [Option.some.inj h]

theorem recode_document {fields : BsonDocument} (hkeys : (fields.map Prod.fst).Nodup) :
    recode (.document fields) = .document (fieldsToBson (fieldsToDoc fields)) := by
  have hnames : ((fieldsToBson (fieldsToDoc fields)).map Prod.fst).Nodup := by
    rw [fieldsToBson_eq, mapFields_keys, fieldsToDoc_eq, mapFields_keys]
    exact hkeys
  rw [recode, bsonToDoc, docToBson, collectFields_of_nodup hnames]

mutual

/-- What comes back as it was: by the kinds of a value. -/
theorem recode_eq_iff : ∀ b : Bson, b.Keyed → (recode b = b ↔ b.Mirrored)
  | .null, _ | .boolean _, _ | .int32 _, _ | .int64 _, _ | .double _, _ | .string _, _ | .objectId _, _
  | .dateTime _, _ | .binary _ _, _ | .regularExpression _ _, _ => iff_of_true rfl trivial
  | .undefined, _ | .symbol _, _ | .javaScriptCode _, _ | .javaScriptCodeWithScope _ _, _ | .minKey, _
  | .maxKey, _ | .dbPointer _ _, _ => iff_of_false (fun h => by cases h) id
  | .decimal128 d, _ => recode_decimal_iff d
  | .timestamp time increment, _ => by
    refine iff_of_true ?_ trivial
    rw [recode, bsonToDoc, docToBson, (timestamp_parts _ _).1, (timestamp_parts _ _).2]
  | .array items, hkeyed => by
    rw [recode, bsonToDoc, docToBson, Bson.array.injEq]
    exact items_eq_iff items hkeyed
  | .document fields, hkeyed => by
    rw [recode_document hkeyed.1, Bson.document.injEq]
    exact fields_eq_iff fields hkeyed.2

theorem items_eq_iff : ∀ items : List Bson, KeyedItems items →
    (docsToBson (bsonsToDoc items) = items ↔ MirroredItems items)
  | [], _ => iff_of_true rfl trivial
  | b :: bs, hkeyed => by
    rw [bsonsToDoc, docsToBson, List.cons_eq_cons]
    exact and_congr (recode_eq_iff b hkeyed.1) (items_eq_iff bs hkeyed.2)

theorem fields_eq_iff : ∀ fields : BsonDocument, KeyedFields fields →
    (fieldsToBson (fieldsToDoc fields) = fields ↔ MirroredFields fields)
  | [], _ => iff_of_true rfl trivial
  | (k, b) :: fs, hkeyed => by
    rw [fieldsToDoc, fieldsToBson, List.cons_eq_cons, Prod.mk.injEq]
    refine and_congr ?_ (fields_eq_iff fs hkeyed.2)
    exact (and_iff_right rfl).trans (recode_eq_iff b hkeyed.1)

end

/-- **A document saved back unedited is the stored one** exactly when each of its values has a kind of
its own on the screen. -/
theorem save_back_iff (d : LoadedDocument) :
    documentToBson (splitDocument d.wire) = d.wire ↔ d.id.Mirrored ∧ MirroredFields d.fields := by
  rw [documentToBson_split, Stored.wire, List.cons_eq_cons, Prod.mk.injEq]
  refine and_congr ((and_iff_right rfl).trans (recode_eq_iff d.id d.keyedId)) ?_
  have hfields : mapFields recode d.fields = fieldsToBson (fieldsToDoc d.fields) := by
    rw [fieldsToBson_eq, fieldsToDoc_eq, mapFields_mapFields]
    rfl
  rw [hfields]
  exact fields_eq_iff d.fields d.keyedFields

end Mirrored

/-- A shard's lower bound. -/
def boundDocument : LoadedDocument where
  id := .int32 1
  fields := [("min", .minKey)]
  nodup := by decide
  keyedId := trivial
  keyedFields := ⟨trivial, trivial⟩

/-- A library that knows zero. -/
@[reducible] def zeroDecimals : Decimals where
  parse s := if s = "0" then some 0 else none
  print _ := "0"
  parse_print := by
    intro s d h
    rw [if_pos rfl]
    exact (Option.ite_none_right_eq_some.mp h).2

section Bound

local instance zeroLibrary : Decimals := zeroDecimals

/-- The bound is saved back as a text. -/
theorem bound_becomes_text :
    documentToBson (splitDocument boundDocument.wire) ≠ boundDocument.wire := by
  intro h
  rw [documentToBson_split] at h
  obtain ⟨-, hfields⟩ := List.cons.inj h
  obtain ⟨hmin, -⟩ := List.cons.inj hfields
  cases (Prod.mk.inj hmin).2

end Bound

end RedDb.Docs
