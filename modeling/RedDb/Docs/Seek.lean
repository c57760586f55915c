import RedDb.Docs.Bson
import RedDb.Lib.Keyset

/-!
# RedDb — reading a collection by its `_id`

`findSeek` reads one window of a collection in `_id` order: the first one, the one
behind an `_id`, the one before it, or the one at an ordinal. The server sorts ids
across all types, but `$gt` matches only ids of the bound's own type bracket.

* `findSeek_forward` — the windows of a forward read are the pages of a keyset scan;
* `seekable_iff` — a collection is read to its end exactly when what stands behind
  its first window shares the bracket of that window's last `_id`.
-/

namespace RedDb.Docs

open RedDb.Driver

/-! ## The server -/

/-- The bracket of a value's type, the first thing ids are ordered by. -/
def Bson.bracket : Bson → Nat
  | .minKey => 0
  | .undefined => 1
  | .null => 2
  | .int32 _ | .int64 _ | .double _ | .decimal128 _ => 3
  | .symbol _ | .string _ => 4
  | .document _ => 5
  | .array _ => 6
  | .binary _ _ => 7
  | .objectId _ => 8
  | .boolean _ => 9
  | .dateTime _ => 10
  | .timestamp _ _ => 11
  | .regularExpression _ _ => 12
  | .dbPointer _ _ => 13
  | .javaScriptCode _ => 14
  | .javaScriptCodeWithScope _ _ => 15
  | .maxKey => 16

/-- What the program relies on in the server: ids have one order, queries are
conjunctions of conditions, and `$gt` looks at the bracket first. `ordered` is false of
a bound that compares with nothing, such as a double that is not a number. -/
structure Server (κ : Type*) [LinearOrder κ] where
  rank : Bson → κ
  ordered : Bson → Bool
  holds : BsonDocument → Stored → Bool
  sort : List Stored → List Stored
  holds_empty : ∀ d, holds [] d = true
  holds_and : ∀ p q d,
    holds [("$and", .array [.document p, .document q])] d = (holds p d && holds q d)
  holds_gt : ∀ v d, holds [("_id", .document [("$gt", v)])] d =
    (ordered v && d.id.bracket == v.bracket && decide (rank v < rank d.id))
  sort_perm : ∀ docs, (sort docs).Perm docs
  sort_sorted : ∀ docs, (sort docs).Pairwise fun d e => rank d.id ≤ rank e.id

variable {κ : Type*} [LinearOrder κ]

/-- The documents of a collection: no two have one `_id`. -/
structure Collection (S : Server κ) where
  docs : List Stored
  unique : (docs.map fun d => S.rank d.id).Nodup

/-- `find(query).sort({_id}).skip(skip).limit(limit)`. -/
def Server.find (S : Server κ) (coll : List Stored) (query : BsonDocument) (ascending : Bool)
    (skip limit : Nat) : List Stored :=
  let sorted := S.sort (coll.filter (S.holds query))
  (((if ascending then sorted else sorted.reverse).drop skip).take limit)

/-! ## One window -/

inductive DocSeek where
  | forward (after : Option DocValue)
  | backward (before : DocValue)
  | jump (skip : Nat)

section Window

variable [Decimals]

def andIdBound (base : BsonDocument) (op : String) (id : DocValue) : BsonDocument :=
  let bound : BsonDocument := [("_id", .document [(op, docToBson id)])]
  if base.isEmpty then bound else [("$and", .array [.document base, .document bound])]

/-- The filter of a read, as the server sees it. -/
def baseQuery (filter : Option DocValue) : BsonDocument :=
  filter.elim [] docToBsonDocument

/-- The stored documents of one window. What the caller gets is each of them split. -/
def findSeek (S : Server κ) (coll : List Stored) (filter : Option DocValue) (seek : DocSeek)
    (limit : Nat) : List Stored :=
  let limit := max limit 1
  let base := baseQuery filter
  match seek with
  | .forward (some id) => S.find coll (andIdBound base "$gt" id) true 0 limit
  | .forward none => S.find coll base true 0 limit
  | .jump skip => S.find coll base true skip limit
  | .backward before => (S.find coll (andIdBound base "$lt" before) false 0 limit).reverse

/-- The `_id` of a document as the program holds it. -/
def Stored.docId (d : Stored) : DocValue := (splitDocument d.wire).id

@[simp] theorem Stored.docId_eq (d : Stored) : d.docId = bsonToDoc d.id := by
  rw [docId, splitDocument_wire]

/-- The documents a filter asks for. -/
def Collection.matching {S : Server κ} (coll : Collection S) (filter : Option DocValue) :
    List Stored :=
  coll.docs.filter (S.holds (baseQuery filter))

/-- The bound made of one document lets another one through. -/
def Server.seeks (S : Server κ) (d e : Stored) : Bool :=
  S.holds (andIdBound [] "$gt" d.docId) e

theorem Server.seeks_eq (S : Server κ) (d e : Stored) :
    S.seeks d e = (S.ordered (recode d.id) && e.id.bracket == (recode d.id).bracket &&
      decide (S.rank (recode d.id) < S.rank e.id)) := by
  rw [seeks, Stored.docId_eq]
  exact S.holds_gt (recode d.id) e

theorem Server.holds_andIdBound (S : Server κ) (base : BsonDocument) (d e : Stored) :
    S.holds (andIdBound base "$gt" d.docId) e = (S.holds base e && S.seeks d e) := by
  cases base with
  | nil => rw [S.holds_empty, Bool.true_and]; rfl
  | cons f fs => exact S.holds_and (f :: fs) _ e

/-- A forward read shows the pages of the keyset scan. -/
theorem findSeek_forward (S : Server κ) (coll : Collection S) (filter : Option DocValue)
    (after : Option Stored) {limit : Nat} (hlimit : 0 < limit) :
    findSeek S coll.docs filter (.forward (after.map Stored.docId)) limit =
      Keyset.page S.seeks S.sort limit (coll.matching filter) after := by
  have hmax : max limit 1 = limit := Nat.max_eq_left hlimit
  cases after with
  | none =>
    show ((S.sort _).drop 0).take (max limit 1) = _
    rw [hmax]
    rfl
  | some d =>
    show ((S.sort (coll.docs.filter _)).drop 0).take (max limit 1) = _
    have hfilter : coll.docs.filter (S.holds (andIdBound (baseQuery filter) "$gt" d.docId)) =
        (coll.matching filter).filter (S.seeks d) := by
      rw [Collection.matching, List.filter_filter]
      refine List.filter_congr fun e _ => ?_
      rw [S.holds_andIdBound, Bool.and_comm]
    rw [hmax, hfilter]
    rfl

/-! ## Which collections are read to their end -/

/-- Two matching documents of one rank are one document. -/
theorem Collection.eq_of_rank {S : Server κ} (coll : Collection S) {filter : Option DocValue}
    {d e : Stored} (hd : d ∈ coll.matching filter) (he : e ∈ coll.matching filter)
    (h : S.rank d.id = S.rank e.id) : d = e :=
  List.inj_on_of_nodup_map coll.unique (List.mem_of_mem_filter hd) (List.mem_of_mem_filter he) h

theorem Collection.lawful {S : Server κ} (coll : Collection S) (filter : Option DocValue)
    {size : Nat} (hsize : 0 < size) :
    Keyset.Lawful (fun d : Stored => S.rank d.id) S.seeks S.sort size (coll.matching filter) where
  pos := hsize
  perm := S.sort_perm
  sorted := S.sort_sorted
  left ha ha' _ h := by rw [coll.eq_of_rank ha ha' h]
  right _ hb hb' h := by rw [coll.eq_of_rank hb hb' h]

/-- The kinds no `DocValue` is written as. -/
def Bson.legacy (b : Bson) : Bool := [0, 1, 13, 14, 15, 16].contains b.bracket

theorem docToBson_not_legacy (v : DocValue) : (docToBson v).legacy = false := by
  cases v with
  | decimal128 s =>
    rw [docToBson]
    split <;> rfl
  | null | bool _ | int32 _ | int64 _ | double _ | str _ | objectId _ | dateTime _ | timestamp _
  | binary _ _ | regex _ _ | array _ | document _ => rfl

/-- An id that is compared as it was once it has been a `DocValue`, unless it is of a
kind that no `DocValue` is written as. -/
def Server.Plain (S : Server κ) (id : Bson) : Prop :=
  id.legacy = true ∨ ((recode id).bracket = id.bracket ∧ S.rank (recode id) = S.rank id)

theorem Server.seeks_self (S : Server κ) {d : Stored} (h : S.Plain d.id) : S.seeks d d = false := by
  rw [S.seeks_eq]
  rcases h with hleg | ⟨-, hrank⟩
  · have hne : d.id.bracket ≠ (recode d.id).bracket := by
      intro heq
      have := docToBson_not_legacy (bsonToDoc d.id)
      rw [Bson.legacy, ← recode, ← heq, ← Bson.legacy, hleg] at this
      cases this
    simp [hne]
  · simp [hrank]

theorem Server.seeks_trans (S : Server κ) {c d e : Stored} (hd : S.Plain d.id)
    (hcd : S.seeks c d = true) (hde : S.seeks d e = true) : S.seeks c e = true := by
  rw [S.seeks_eq] at hcd hde ⊢
  simp only [Bool.and_eq_true, beq_iff_eq, decide_eq_true_eq] at hcd hde ⊢
  obtain ⟨⟨hord, hbr⟩, hlt⟩ := hcd
  obtain ⟨⟨-, hbr'⟩, hlt'⟩ := hde
  rcases hd with hleg | ⟨hbracket, hrank⟩
  · have := docToBson_not_legacy (bsonToDoc c.id)
    rw [Bson.legacy, ← recode, ← hbr, ← Bson.legacy, hleg] at this
    cases this
  · refine ⟨⟨hord, by rw [hbr', hbracket, hbr]⟩, ?_⟩
    rw [hrank] at hlt'
    exact hlt.trans hlt'

/-- Every `_id` that ends a window, sent back as a bound, matches exactly the ids behind
it: what a forward read in windows of `size` needs. -/
def Collection.Seekable {S : Server κ} (coll : Collection S) (filter : Option DocValue)
    (size : Nat) : Prop :=
  Keyset.Cut S.seeks size (S.sort (coll.matching filter))

/-- **One bracket.** Where every id is a `DocValue`'s own and compares, being read to the
end is having one type bracket from the end of the first window on. -/
theorem seekable_iff {S : Server κ} (coll : Collection S) (filter : Option DocValue) {size : Nat}
    (hsize : 0 < size)
    (hids : ∀ d ∈ coll.matching filter, recode d.id = d.id ∧ S.ordered d.id = true) :
    coll.Seekable filter size ↔
      ∀ d e : Stored, (S.sort (coll.matching filter))[size - 1]? = some d →
        e ∈ (S.sort (coll.matching filter)).drop size → e.id.bracket = d.id.bracket := by
  have hmem : ∀ {i : Nat} {d : Stored}, (S.sort (coll.matching filter))[i]? = some d →
      d ∈ coll.matching filter := fun h => (S.sort_perm _).mem_iff.mp (List.mem_of_getElem? h)
  have hseeks : ∀ {i : Nat} {d e : Stored}, (S.sort (coll.matching filter))[i]? = some d →
      (S.seeks d e = true ↔ e.id.bracket = d.id.bracket ∧ S.rank d.id < S.rank e.id) := by
    intro i d e hd
    obtain ⟨hcode, hord⟩ := hids d (hmem hd)
    rw [S.seeks_eq, hcode, hord]
    simp
  -- places and ranks agree, as no two ids have one rank
  have hplace : ∀ {i j : Nat} {d e : Stored}, (S.sort (coll.matching filter))[i]? = some d →
      (S.sort (coll.matching filter))[j]? = some e → (S.rank d.id < S.rank e.id ↔ i < j) := by
    have hle : ∀ {i j : Nat} {d e : Stored}, (S.sort (coll.matching filter))[i]? = some d →
        (S.sort (coll.matching filter))[j]? = some e → i < j → S.rank d.id ≤ S.rank e.id := by
      intro i j d e hd he hij
      obtain ⟨hi, rfl⟩ := List.getElem?_eq_some_iff.mp hd
      obtain ⟨hj, rfl⟩ := List.getElem?_eq_some_iff.mp he
      exact List.pairwise_iff_getElem.mp (S.sort_sorted _) i j hi hj hij
    have hnodup : (S.sort (coll.matching filter)).Nodup := by
      refine (S.sort_perm _).nodup_iff.mpr ?_
      exact (List.Nodup.of_map _ coll.unique).filter _
    intro i j d e hd he
    constructor
    · intro hlt
      by_contra hij
      rcases Nat.lt_or_ge j i with hji | hji
      · exact absurd (hle he hd hji) (not_le.mpr hlt)
      obtain rfl : i = j := by omega
      rw [hd] at he
      cases he
      exact absurd hlt (lt_irrefl _)
    · intro hij
      refine lt_of_le_of_ne (hle hd he hij) fun heq => ?_
      obtain rfl := coll.eq_of_rank (hmem hd) (hmem he) heq
      have hi := (List.getElem?_eq_some_iff.mp hd).1
      have := (List.nodup_iff_getElem?_ne_getElem?.mp hnodup) i j hij
        (List.getElem?_eq_some_iff.mp he).1
      exact this (hd.trans he.symm)
  constructor
  · intro hcut d e hd he
    obtain ⟨j, hj⟩ := List.mem_iff_getElem?.mp he
    rw [List.getElem?_drop] at hj
    have hseek := (hcut (size - 1) d hd (Or.inl (by rw [Nat.sub_add_cancel hsize]))
      (size + j) e hj).mpr (by omega)
    exact ((hseeks hd).mp hseek).1
  · intro hbracket i d hd hend j e he
    rw [hseeks hd, hplace hd he]
    refine and_iff_right_of_imp fun hij => ?_
    have hj := (List.getElem?_eq_some_iff.mp he).1
    have hsi : size ≤ i + 1 := by
      rcases hend with hdvd | hlen
      · exact Nat.le_of_dvd (by omega) hdvd
      · omega
    have hfirst : size - 1 < (S.sort (coll.matching filter)).length := by omega
    have hge := List.getElem?_eq_getElem hfirst
    have hbr : ∀ {k : Nat} {x : Stored}, (S.sort (coll.matching filter))[k]? = some x → size ≤ k →
        x.id.bracket = ((S.sort (coll.matching filter)).get ⟨size - 1, hfirst⟩).id.bracket := by
      intro k x hx hk
      refine hbracket _ x hge (List.mem_iff_getElem?.mpr ⟨k - size, ?_⟩)
      rw [List.getElem?_drop, Nat.add_sub_cancel' hk]
      exact hx
    rw [hbr he (by omega)]
    rcases Nat.lt_or_ge i size with hlt | hle
    · obtain rfl : i = size - 1 := by omega
      rw [hge] at hd
      cases hd
      rfl
    · exact (hbr hd hle).symm

end Window

end RedDb.Docs
