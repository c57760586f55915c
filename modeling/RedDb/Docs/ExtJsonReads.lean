import Mathlib.Data.List.Forall2
import RedDb.Docs.ExtJson
import RedDb.Driver.DateText

/-!
# RedDb — extended JSON read back

Which values come back from their extended JSON as they were. A number without a tag takes
its type from its spelling, so a long that is small and a double that is whole come back
as something else; so does a document that looks like a type tag.

* `readBack_iff` — what the tags and the numbers read as, over a whole tree;
* `parse_toExtendedJson_iff` — which values come back as they were.
-/

namespace RedDb.Docs

open TextCodec JsonText CivilDate
open RedDb.Driver (civilFromDays civilFromDays_days)

/-! ## Dates -/

theorem instant_iso8601 {ms : Int} {iso : Text} (h : iso8601Utc ms = some iso) :
    ∃ year month day hour minute second milli : Nat,
      iso = instantText year month day hour minute second milli ∧
      instant year month day hour minute second milli = ms ∧ year ≤ 9999 ∧
      (1 ≤ month ∧ month ≤ 12) ∧ (1 ≤ day ∧ day ≤ monthDays year month) ∧ hour < 24 ∧
      minute < 60 ∧ second < 60 ∧ milli < 1000 := by
  obtain ⟨hdays, hmonth, hday⟩ := civilFromDays_days (ms / 86400000)
  rw [iso8601Utc] at h
  dsimp only at h
  generalize civilFromDays (ms / 86400000) = date at h hdays hmonth hday
  obtain ⟨year, month, day⟩ := date
  split at h
  · cases h
  rename_i hyear
  obtain rfl := Option.some.inj h
  dsimp only at hdays hmonth hday hyear
  have hcast : (year.toNat : Int) = year := by omega
  refine ⟨year.toNat, month, day, _, _, _, _, by rw [hcast], ?_, by omega, hmonth,
    by rw [hcast]; exact hday, by omega, by omega, by omega, by omega⟩
  rw [instant, hcast, hdays]
  omega

/-! ## Which values come back -/

namespace JsonLibraries

variable [Decimals] (libs : JsonLibraries)

/-- A double whose spelling does not make it something else: no 64-bit integer is spelled
like it, and the spelling reads as the double; or it is no number, and the one that the
name reads as. -/
def KeptDouble (x : UInt64) : Prop :=
  if isFinite x then
    (∀ n : Int, -2 ^ 63 ≤ n → n < 2 ^ 63 → libs.display x ≠ intText n) ∧
      libs.readDouble (libs.display x) = x
  else isNaN x = true → x = nanBits

mutual

/-- The value comes back as it was. -/
def Kept : DocValue → Prop
  | .int64 n => ¬ (-2 ^ 31 ≤ n.toInt ∧ n.toInt < 2 ^ 31)
  | .double x => libs.KeptDouble x
  | .decimal128 s => ∃ d, Decimals.parse s = some d ∧ Decimals.print d = s
  | .regex _ options => libs.sortOptions options = options
  | .array items => KeptItems items
  | .document fields =>
    (fields.map (·.1)).Nodup ∧ libs.tagged fields = none ∧ KeptFields fields
  | _ => True

def KeptItems : List DocValue → Prop
  | [] => True
  | item :: items => Kept item ∧ KeptItems items

def KeptFields : List (String × DocValue) → Prop
  | [] => True
  | (_, v) :: fields => Kept v ∧ KeptFields fields

end

/-! ## Scalars -/

/-- What the driver makes of a JSON value. -/
def readBack (j : Json) : Option DocValue := (libs.toBson (collect j)).map bsonToDoc

theorem readBack_number (token : Text) :
    libs.readBack (.number token) = some (bsonToDoc (libs.readNumber token)) := by
  rw [readBack, collect, toBson]
  · rfl
  · exact fun _ h => Json.noConfusion h
  · exact fun _ h => Json.noConfusion h

theorem readBack_tag {name : String} (h : name ∈ writerTags) (payload : Json) :
    libs.readBack (.object [(name, payload)]) =
      (libs.readTag name (collect payload)).map bsonToDoc := by
  have htag : libs.tagged [(name, collect payload)] = some (name, collect payload) :=
    if_pos (libs.isTag_writer name h)
  have hcollect : collect (.object [(name, payload)]) = .object [(name, collect payload)] := by
    rw [collect, collectMembers, collectMembers]
    rfl
  rw [readBack, hcollect, toBson, htag]

theorem readNumber_int32 (n : Int32) : libs.readNumber (intText n.toInt) = .int32 n := by
  have hlow : -2 ^ 31 ≤ n.toInt := n.le_toInt
  have hhigh : n.toInt < 2 ^ 31 := n.toInt_lt
  rw [readNumber, intOfText_intText]
  dsimp only
  rw [if_pos ⟨hlow, hhigh⟩, Int32.ofInt_toInt]

theorem readNumber_int64 (n : Int64) : libs.readNumber (intText n.toInt) =
    if -2 ^ 31 ≤ n.toInt ∧ n.toInt < 2 ^ 31 then .int32 (Int32.ofInt n.toInt) else .int64 n := by
  have hlow : -2 ^ 63 ≤ n.toInt := n.le_toInt
  have hhigh : n.toInt < 2 ^ 63 := n.toInt_lt
  rw [readNumber, intOfText_intText]
  dsimp only
  rw [if_pos (And.intro hlow hhigh), Int64.ofInt_toInt]

theorem readBack_double (x : UInt64) :
    libs.readBack (doubleJson libs.display x) = some (.double x) ↔ libs.KeptDouble x := by
  rw [doubleJson, KeptDouble]
  cases hfinite : isFinite x with
  | true =>
    rw [if_pos rfl, if_pos rfl, readBack_number, Option.some.injEq, readNumber]
    cases hint : intOfText (libs.display x) with
    | none =>
      have hnot : ∀ n : Int, -2 ^ 63 ≤ n → n < 2 ^ 63 → libs.display x ≠ intText n := by
        intro n _ _ heq
        rw [heq, intOfText_intText] at hint
        cases hint
      dsimp only
      rw [bsonToDoc, DocValue.double.injEq, and_iff_right hnot]
    | some n =>
      have heq := intOfText_eq_some hint
      dsimp only
      by_cases h32 : -2 ^ 31 ≤ n ∧ n < 2 ^ 31
      · rw [if_pos h32, bsonToDoc]
        exact ⟨fun h => DocValue.noConfusion h, fun h => absurd heq (h.1 n (by omega) (by omega))⟩
      rw [if_neg h32]
      by_cases h64 : -2 ^ 63 ≤ n ∧ n < 2 ^ 63
      · rw [if_pos h64, bsonToDoc]
        exact ⟨fun h => DocValue.noConfusion h, fun h => absurd heq (h.1 n h64.1 h64.2)⟩
      have hnot : ∀ k : Int, -2 ^ 63 ≤ k → k < 2 ^ 63 → libs.display x ≠ intText k := by
        intro k hlow hhigh hk
        rw [hk, intOfText_intText] at hint
        obtain rfl := Option.some.inj hint
        exact h64 ⟨hlow, hhigh⟩
      rw [if_neg h64, bsonToDoc, DocValue.double.injEq, and_iff_right hnot]
  | false =>
    have hx := x.toNat_lt
    have hexp : x.toNat / 2 ^ 52 % 2 ^ 11 = 2047 := by
      rw [isFinite, decide_eq_false_iff_not, not_not] at hfinite
      exact hfinite
    obtain ⟨hnan, hinf, hneg⟩ := libs.readTag_double
    rw [if_neg Bool.false_ne_true, if_neg Bool.false_ne_true, readBack_tag libs (by decide), collect,
      doubleLabel]
    · cases hisnan : isNaN x with
      | true =>
        rw [if_pos rfl, hnan, Option.map_some, bsonToDoc, Option.some.injEq, DocValue.double.injEq]
        exact ⟨fun h _ => h.symm, fun h => (h rfl).symm⟩
      | false =>
        have hfrac : x.toNat % 2 ^ 52 = 0 := by
          rw [isNaN, hfinite, Bool.not_false, Bool.true_and, decide_eq_false_iff_not, not_not]
            at hisnan
          exact hisnan
        refine iff_of_true ?_ fun h => Bool.noConfusion h
        rw [if_neg Bool.false_ne_true]
        split
        · rw [hinf, Option.map_some, bsonToDoc, Option.some.injEq, DocValue.double.injEq]
          apply UInt64.toNat.inj
          show 0x7FF0000000000000 = x.toNat
          omega
        · rw [hneg, Option.map_some, bsonToDoc, Option.some.injEq, DocValue.double.injEq]
          apply UInt64.toNat.inj
          show 0xFFF0000000000000 = x.toNat
          omega
    · exact fun _ h => Json.noConfusion h
    · exact fun _ h => Json.noConfusion h

omit [Decimals] in
theorem timestamp_whole (ts : UInt64) :
    (ts >>> 32).toUInt32.toUInt64 <<< 32 ||| (ts &&& 0xffffffff).toUInt32.toUInt64 = ts := by
  apply UInt64.toNat.inj
  have hhigh : (ts >>> 32).toUInt32.toNat = ts.toNat / 2 ^ 32 := by
    rw [UInt64.toNat_toUInt32, UInt64.toNat_shiftRight]
    show (ts.toNat >>> 32) % 2 ^ 32 = _
    rw [Nat.shiftRight_eq_div_pow]
    have := ts.toNat_lt
    omega
  have hlow : (ts &&& 0xffffffff).toUInt32.toNat = ts.toNat % 2 ^ 32 := by
    rw [UInt64.toNat_toUInt32, UInt64.toNat_and]
    show (ts.toNat &&& (2 ^ 32 - 1)) % 2 ^ 32 = _
    rw [Nat.and_two_pow_sub_one_eq_mod]
    omega
  rw [timestamp_word, hhigh, hlow]
  omega

theorem readBack_dateTime (ms : Int64) : libs.readBack (dateTimeJson ms) = some (.dateTime ms) := by
  unfold dateTimeJson
  generalize hiso : iso8601Utc ms.toInt = iso
  cases iso with
  | none =>
    have hcollect : collect (.object [("$numberLong", .string (String.ofList (intText ms.toInt)))]) =
        .object [("$numberLong", .string (String.ofList (intText ms.toInt)))] := by
      simp [collect, collectMembers, collectFields, insertField]
    dsimp only
    rw [readBack_tag libs (by decide), hcollect, libs.readTag_date_long]
    rfl
  | some iso =>
    obtain ⟨year, month, day, hour, minute, second, milli, htext, hinstant, hyear, hmonth, hday, hhour,
      hminute, hsecond, hmilli⟩ := instant_iso8601 hiso
    rw [htext]
    have hcollect : ∀ s : String, collect (.string s) = .string s := fun _ => by
      simp [collect]
    dsimp only
    rw [readBack_tag libs (by decide), hcollect, libs.readTag_date year month day hour minute second
      milli hyear hmonth hday hhour hminute hsecond hmilli, hinstant, Int64.ofInt_toInt]
    rfl

theorem readBack_timestamp (ts : UInt64) :
    libs.readBack (timestampJson ts) = some (.timestamp ts) := by
  have hcollect : ∀ x y : Text, collect (.object [("t", .number x), ("i", .number y)]) =
      .object [("t", .number x), ("i", .number y)] := by
    intro x y
    simp [collect, collectMembers, collectFields, insertField]
  rw [timestampJson, readBack_tag libs (by decide), hcollect, libs.readTag_timestamp,
    Option.map_some, bsonToDoc, timestamp_whole]

theorem readBack_binary (subtype : UInt8) (bytes : List UInt8) :
    libs.readBack (binaryJson subtype bytes) = some (.binary subtype bytes) := by
  have hcollect : ∀ x y : String, collect (.object [("base64", .string x), ("subType", .string y)])
      = .object [("base64", .string x), ("subType", .string y)] := by
    intro x y
    simp [collect, collectMembers, collectFields, insertField]
  have hbytes : base64Decode (String.ofList (base64Encode bytes)).toList = some bytes := by
    rw [String.toList_ofList, base64Decode_encode]
  have hsubtype : hexBytes (String.ofList (hexText [subtype])).toList = some [subtype] := by
    rw [String.toList_ofList, hexBytes_hexText]
  rw [binaryJson, readBack_tag libs (by decide), hcollect,
    libs.readTag_binary _ _ subtype bytes hbytes hsubtype]
  rfl

theorem readBack_objectId (bytes : Vector UInt8 12) :
    libs.readBack (.object [("$oid", .string (String.ofList (hexText bytes.toList)))]) =
      some (.objectId bytes) := by
  have hcollect : ∀ s : String, collect (.string s) = .string s := fun _ => by
    simp [collect]
  have hbytes : hexBytes (String.ofList (hexText bytes.toList)).toList = some bytes.toList := by
    rw [String.toList_ofList, hexBytes_hexText]
  rw [readBack_tag libs (by decide), hcollect, libs.readTag_oid _ bytes hbytes]
  rfl

theorem readBack_decimal (s : String) :
    libs.readBack (.object [("$numberDecimal", .string s)]) = some (.decimal128 s) ↔
      ∃ d, Decimals.parse s = some d ∧ Decimals.print d = s := by
  have hcollect : collect (.string s) = .string s := by
    simp [collect]
  rw [readBack_tag libs (by decide), hcollect, libs.readTag_decimal, Option.map_map,
    Option.map_eq_some_iff]
  refine exists_congr fun d => and_congr_right fun _ => ?_
  show DocValue.decimal128 (Decimals.print d) = _ ↔ _
  rw [DocValue.decimal128.injEq]

theorem readBack_regex (pattern options : String) :
    libs.readBack (.object [("$regularExpression",
        .object [("pattern", .string pattern), ("options", .string options)])]) =
      some (.regex pattern options) ↔ libs.sortOptions options = options := by
  have hcollect : collect (.object [("pattern", .string pattern), ("options", .string options)]) =
      .object [("pattern", .string pattern), ("options", .string options)] := by
    simp [collect, collectMembers, collectFields, insertField]
  rw [readBack_tag libs (by decide), hcollect, libs.readTag_regex, Option.map_some, bsonToDoc,
    Option.some.injEq, DocValue.regex.injEq, and_iff_right rfl]

/-! ## Trees -/

omit [Decimals] in
theorem collectMembers_eq (members : List (String × Json)) :
    collectMembers members = mapFields collect members := by
  induction members with
  | nil =>
    rw [collectMembers]
    rfl
  | cons m members ih =>
    rw [collectMembers, ih]
    rfl

theorem toBsonFields_keys {members : List (String × Json)} {fields : BsonDocument}
    (h : libs.toBsonFields members = some fields) : fields.map (·.1) = members.map (·.1) := by
  induction members generalizing fields with
  | nil =>
    rw [toBsonFields] at h
    obtain rfl := Option.some.inj h
    rfl
  | cons member members ih =>
    rw [toBsonFields] at h
    obtain ⟨b, -, h⟩ := Option.bind_eq_some_iff.mp h
    obtain ⟨rest, hrest, rfl⟩ := Option.map_eq_some_iff.mp h
    rw [List.map_cons, List.map_cons, ih hrest]

/-- Only the names say whether members are a tag. -/
theorem tagged_of_keys {α β : Type} {as : List (String × α)} {bs : List (String × β)}
    (h : as.map (·.1) = bs.map (·.1)) : libs.tagged as = none ↔ libs.tagged bs = none := by
  have hlen := congrArg List.length h
  match as, bs with
  | [], [] | _ :: _ :: _, _ :: _ :: _ => exact iff_of_true rfl rfl
  | [], _ :: _ | _ :: _, [] | [_], _ :: _ :: _ | _ :: _ :: _, [_] => simp at hlen
  | [(name, x)], [(_, y)] =>
    obtain rfl := (List.cons.inj h).1
    show (if libs.isTag name then _ else _) = _ ↔ (if libs.isTag name then _ else _) = _
    split <;> simp

/-- An object without a tag is read as a document of the same names. -/
theorem readBack_object {members : List (String × Json)} {v : DocValue}
    (h : libs.tagged (collectFields (collectMembers members)) = none) :
    libs.readBack (.object members) = some v ↔
      ∃ fields, libs.toBsonFields (collectFields (collectMembers members)) = some fields ∧
        .document (fieldsToDoc fields) = v := by
  rw [readBack, collect, toBson, h]
  dsimp only
  rw [Option.map_map, Option.map_eq_some_iff]
  refine exists_congr fun fields => and_congr_right fun _ => ?_
  show bsonToDoc (.document fields) = v ↔ _
  rw [bsonToDoc]

/-- A tag is no document. -/
theorem readBack_tagged {members : List (String × Json)} {t : String × Json}
    (h : libs.tagged (collectFields (collectMembers members)) = some t)
    (fields : List (String × DocValue)) :
    libs.readBack (.object members) ≠ some (.document fields) := by
  intro hread
  rw [readBack, collect, toBson, h] at hread
  obtain ⟨b, hb, hdoc⟩ := Option.map_eq_some_iff.mp hread
  exact libs.readTag_value t.1 t.2 b fields hb hdoc

theorem readMembers_iff {members : List (String × Json)} {fields : List (String × DocValue)}
    (hkeys : members.map (·.1) = fields.map (·.1)) :
    (libs.toBsonFields (collectMembers members)).map fieldsToDoc = some fields ↔
      List.Forall₂ (fun m f => libs.readBack m.2 = some f.2) members fields := by
  induction members generalizing fields with
  | nil =>
    obtain rfl := List.map_eq_nil_iff.mp hkeys.symm
    rw [collectMembers, toBsonFields]
    exact iff_of_true rfl List.Forall₂.nil
  | cons m members ih =>
    cases fields with
    | nil => cases hkeys
    | cons f fields =>
      obtain ⟨hkey, hkeys⟩ := List.cons.inj hkeys
      rw [List.forall₂_cons, ← ih hkeys, readBack, collectMembers, toBsonFields, Option.map_eq_some_iff,
        Option.map_eq_some_iff, Option.map_eq_some_iff]
      constructor
      · rintro ⟨read, hread, heq⟩
        obtain ⟨b, hb, hread⟩ := Option.bind_eq_some_iff.mp hread
        obtain ⟨rest, hrest, rfl⟩ := Option.map_eq_some_iff.mp hread
        rw [fieldsToDoc, List.cons.injEq] at heq
        exact ⟨⟨b, hb, congrArg Prod.snd heq.1⟩, ⟨rest, hrest, heq.2⟩⟩
      · rintro ⟨⟨b, hb, hvalue⟩, ⟨rest, hrest, hfields⟩⟩
        refine ⟨(m.1, b) :: rest, by rw [hb, hrest]; rfl, ?_⟩
        rw [fieldsToDoc, hvalue, hfields, show m.1 = f.1 from hkey]

/-- **Documents.** An object is read back member by member, unless a name occurs twice or is a tag. -/
theorem readBack_document {members : List (String × Json)} {fields : List (String × DocValue)}
    (hkeys : members.map (·.1) = fields.map (·.1)) :
    libs.readBack (.object members) = some (.document fields) ↔
      (fields.map (·.1)).Nodup ∧ libs.tagged fields = none ∧
        List.Forall₂ (fun m f => libs.readBack m.2 = some f.2) members fields := by
  have hcollected : (collectMembers members).map (·.1) = fields.map (·.1) := by
    rw [collectMembers_eq, mapFields_keys, hkeys]
  have hstays (h : (fields.map (·.1)).Nodup) :
      collectFields (collectMembers members) = collectMembers members :=
    collectFields_of_nodup (hcollected ▸ h)
  rw [← libs.tagged_of_keys hcollected, ← readMembers_iff libs hkeys, Option.map_eq_some_iff]
  constructor
  · intro h
    cases htag : libs.tagged (collectFields (collectMembers members)) with
    | some t => exact absurd h (readBack_tagged libs htag fields)
    | none =>
      obtain ⟨read, hread, hdoc⟩ := (readBack_object libs htag).mp h
      have hfields := DocValue.document.inj hdoc
      have hnodup : (fields.map (·.1)).Nodup := by
        rw [← hfields, fieldsToDoc_eq, mapFields_keys, toBsonFields_keys libs hread]
        exact collectFields_nodup _
      rw [hstays hnodup] at htag hread
      exact ⟨hnodup, htag, read, hread, hfields⟩
  · rintro ⟨hnodup, htag, read, hread, rfl⟩
    rw [← hstays hnodup] at htag hread
    exact (readBack_object libs htag).mpr ⟨read, hread, rfl⟩

/-- **Arrays.** An array is read back item by item. -/
theorem readBack_array {items : List Json} {vs : List DocValue} :
    libs.readBack (.array items) = some (.array vs) ↔
      List.Forall₂ (fun j v => libs.readBack j = some v) items vs := by
  have hitems : libs.readBack (.array items) = some (.array vs) ↔
      (libs.toBsons (collectItems items)).map bsonsToDoc = some vs := by
    rw [readBack, collect, toBson, Option.map_map, Option.map_eq_some_iff, Option.map_eq_some_iff]
    refine exists_congr fun read => and_congr_right fun _ => ?_
    show bsonToDoc (.array read) = _ ↔ _
    rw [bsonToDoc, DocValue.array.injEq]
  rw [hitems]
  clear hitems
  induction items generalizing vs with
  | nil =>
    rw [collectItems, toBsons, List.forall₂_nil_left_iff]
    exact Option.some_inj.trans eq_comm
  | cons item items ih =>
    rw [List.forall₂_cons_left_iff, collectItems, toBsons]
    constructor
    · intro h
      obtain ⟨read, hread, rfl⟩ := Option.map_eq_some_iff.mp h
      obtain ⟨b, hb, hread⟩ := Option.bind_eq_some_iff.mp hread
      obtain ⟨rest, hrest, rfl⟩ := Option.map_eq_some_iff.mp hread
      exact ⟨bsonToDoc b, bsonsToDoc rest, by rw [readBack, hb]; rfl, ih.mp (by rw [hrest]; rfl),
        by rw [bsonsToDoc]⟩
    · rintro ⟨v, vs, hv, hvs, rfl⟩
      obtain ⟨b, hb, rfl⟩ := Option.map_eq_some_iff.mp hv
      obtain ⟨rest, hrest, rfl⟩ := Option.map_eq_some_iff.mp (ih.mpr hvs)
      rw [hb, Option.bind_some, hrest, Option.map_some, Option.map_some, bsonsToDoc]

omit [Decimals] in
theorem extFields_keys (display : UInt64 → Text) (fields : List (String × DocValue)) :
    (extFields display fields).map (·.1) = fields.map (·.1) := by
  induction fields with
  | nil => rfl
  | cons f fields ih => rw [extFields, List.map_cons, List.map_cons, ih]

mutual

/-- **Trees.** What the JSON value of a tree is read back as. -/
theorem readBack_iff : ∀ v : DocValue,
    libs.readBack (extJson libs.display v) = some v ↔ libs.Kept v
  | .null => by
    rw [extJson]
    exact iff_of_true rfl trivial
  | .bool b => by
    rw [extJson]
    exact iff_of_true rfl trivial
  | .str s => by
    rw [extJson]
    exact iff_of_true rfl trivial
  | .int32 n => by
    rw [extJson, readBack_number, readNumber_int32]
    exact iff_of_true rfl trivial
  | .int64 n => by
    rw [extJson, Kept, readBack_number, readNumber_int64]
    split
    · rename_i h
      rw [bsonToDoc]
      exact ⟨fun hc => DocValue.noConfusion (Option.some.inj hc), fun hc => absurd h hc⟩
    · rename_i h
      rw [bsonToDoc]
      exact iff_of_true rfl h
  | .double x => by
    rw [extJson, Kept]
    exact readBack_double libs x
  | .decimal128 s => by
    rw [extJson, Kept]
    exact readBack_decimal libs s
  | .objectId bytes => by
    rw [extJson]
    exact iff_of_true (readBack_objectId libs bytes) trivial
  | .dateTime ms => by
    rw [extJson]
    exact iff_of_true (readBack_dateTime libs ms) trivial
  | .timestamp ts => by
    rw [extJson]
    exact iff_of_true (readBack_timestamp libs ts) trivial
  | .binary subtype bytes => by
    rw [extJson]
    exact iff_of_true (readBack_binary libs subtype bytes) trivial
  | .regex pattern options => by
    rw [extJson, Kept]
    exact readBack_regex libs pattern options
  | .array items => by
    rw [extJson, Kept, readBack_array]
    exact readItems_iff items
  | .document fields => by
    rw [extJson, Kept, readBack_document libs (extFields_keys _ fields), readFields_iff fields]

theorem readItems_iff : ∀ items : List DocValue,
    List.Forall₂ (fun j v => libs.readBack j = some v) (extItems libs.display items) items ↔
      libs.KeptItems items
  | [] => by
    rw [extItems, KeptItems]
    exact iff_of_true List.Forall₂.nil trivial
  | item :: items => by
    rw [extItems, KeptItems, List.forall₂_cons, readBack_iff item, readItems_iff items]

theorem readFields_iff : ∀ fields : List (String × DocValue),
    List.Forall₂ (fun m f => libs.readBack m.2 = some f.2) (extFields libs.display fields) fields ↔
      libs.KeptFields fields
  | [] => by
    rw [extFields, KeptFields]
    exact iff_of_true List.Forall₂.nil trivial
  | (k, v) :: fields => by
    rw [extFields, KeptFields, List.forall₂_cons, readBack_iff v, readFields_iff fields]

end

/-! ## Round trip -/

mutual

theorem kept_printed : ∀ {v : DocValue}, libs.Kept v → Printed v
  | .decimal128 s, h => by
    rw [Kept] at h
    obtain ⟨d, -, hd⟩ := h
    rw [Printed]
    exact ⟨d, hd⟩
  | .array items, h => by
    rw [Kept] at h
    rw [Printed]
    exact keptItems_printed h
  | .document fields, h => by
    rw [Kept] at h
    rw [Printed]
    exact keptFields_printed h.2.2
  | .null, _ | .bool _, _ | .int32 _, _ | .int64 _, _ | .double _, _ | .str _, _ | .objectId _, _
  | .dateTime _, _ | .timestamp _, _ | .binary _ _, _ | .regex _ _, _ => trivial

theorem keptItems_printed : ∀ {items : List DocValue}, libs.KeptItems items → PrintedItems items
  | [], _ => trivial
  | item :: items, h => by
    rw [KeptItems] at h
    rw [PrintedItems]
    exact ⟨kept_printed h.1, keptItems_printed h.2⟩

theorem keptFields_printed : ∀ {fields : List (String × DocValue)}, libs.KeptFields fields →
    PrintedFields fields
  | [], _ => trivial
  | (k, v) :: fields, h => by
    rw [KeptFields] at h
    rw [PrintedFields]
    exact ⟨kept_printed h.1, keptFields_printed h.2⟩

end

/-- The text of a value is read as its JSON value, down to the recursion limit. -/
theorem parse_printed {v : DocValue} (h : Printed v) : libs.parseExtJson (libs.toExtendedJson v) =
      if depth (extJson libs.display v) ≤ libs.maxDepth then libs.readBack (extJson libs.display v)
      else none := by
  rw [parseExtJson, toExtendedJson, writeExtjson_eq libs h,
    libs.fromStr_compact _ (extJson_lexical libs v)]
  split <;> rfl

/-- **Extended JSON.** A value comes back from its text exactly when no kind, name or
spelling in it is one that reads as another, and it nests no deeper than the reader goes. -/
theorem parse_toExtendedJson_iff (v : DocValue) :
    libs.parseExtJson (libs.toExtendedJson v) = some v ↔
      libs.Kept v ∧ depth (extJson libs.display v) ≤ libs.maxDepth := by
  constructor
  · intro h
    have hprinted : Printed v := by
      obtain ⟨json, -, hread⟩ := Option.bind_eq_some_iff.mp h
      obtain ⟨b, -, rfl⟩ := Option.map_eq_some_iff.mp hread
      exact bsonToDoc_printed b
    rw [parse_printed libs hprinted] at h
    split at h
    · rename_i hdepth
      exact ⟨(readBack_iff libs v).mp h, hdepth⟩
    · cases h
  · rintro ⟨hkept, hdepth⟩
    rw [parse_printed libs (kept_printed libs hkept), if_pos hdepth]
    exact (readBack_iff libs v).mpr hkept

end JsonLibraries

/-! ## A small long -/

/-- Decimals that are whole and below 2 ^ 128. -/
@[reducible] def wholeDecimals : Decimals where
  print d := String.ofList (Nat.toDigits 10 d.toNat)
  parse s :=
    let d := BitVec.ofNat 128 (numeral s.toList)
    if String.ofList (Nat.toDigits 10 d.toNat) = s then some d else none
  parse_print := by
    intro s d h
    dsimp only at h ⊢
    split at h
    · rename_i heq
      obtain rfl := Option.some.inj h
      rw [heq, if_pos heq]
    · cases h

def readInstant (t : Text) : Int :=
  instant (numeral (t.take 4)) (numeral ((t.drop 5).take 2)) (numeral ((t.drop 8).take 2))
    (numeral ((t.drop 11).take 2)) (numeral ((t.drop 14).take 2)) (numeral ((t.drop 17).take 2))
    (numeral ((t.drop 20).take 3))

theorem numeral_pad_lt {width n : Nat} (h : n < 10 ^ width) : numeral (pad width n) = n := by
  rw [numeral_pad, Nat.mod_eq_of_lt h]

/-- The fields stand at fixed places. -/
theorem readInstant_text {year month day hour minute second milli : Nat} (hyear : year ≤ 9999)
    (hmonth : month ≤ 12) (hday : day ≤ 31) (hhour : hour < 24) (hminute : minute < 60)
    (hsecond : second < 60) (hmilli : milli < 1000) :
    readInstant (instantText year month day hour minute second milli) =
      instant year month day hour minute second milli := by
  have hpair : ∀ n, ∃ a b, pad 2 n = [a, b] := fun n => List.length_eq_two.mp (length_pad 2 n)
  obtain ⟨y₁, y₂, y₃, y₄, hy⟩ := List.length_eq_four.mp (length_pad 4 year)
  obtain ⟨mo₁, mo₂, hmo⟩ := hpair month
  obtain ⟨d₁, d₂, hd⟩ := hpair day
  obtain ⟨h₁, h₂, hh⟩ := hpair hour
  obtain ⟨mi₁, mi₂, hmi⟩ := hpair minute
  obtain ⟨s₁, s₂, hs⟩ := hpair second
  obtain ⟨ms₁, ms₂, ms₃, hms⟩ := List.length_eq_three.mp (length_pad 3 milli)
  rw [instantText, Int.toNat_natCast, hy, hmo, hd, hh, hmi, hs, hms, readInstant]
  simp only [List.cons_append, List.nil_append, List.drop_succ_cons, List.drop_zero,
    List.take_succ_cons, List.take_zero]
  rw [← hy, ← hmo, ← hd, ← hh, ← hmi, ← hs, ← hms]
  rw [numeral_pad_lt (by omega), numeral_pad_lt (by omega), numeral_pad_lt (by omega),
    numeral_pad_lt (by omega), numeral_pad_lt (by omega), numeral_pad_lt (by omega),
    numeral_pad_lt (by omega)]

theorem monthDays_le (year : Int) (month : Nat) : monthDays year month ≤ 31 := by
  unfold monthDays
  split_ifs <;> decide

section Tags

variable [Decimals]

/-- The type tags, with what they hold. -/
def readPlainTag : String → Json → Option Bson
  | "$oid", .string s => (hexBytes s.toList).bind fun bytes =>
      if h : bytes.toArray.size = 12 then some (.objectId ⟨bytes.toArray, h⟩) else none
  | "$numberDouble", .string s =>
      if s = "NaN" then some (.double nanBits)
      else if s = "Infinity" then some (.double 0x7FF0000000000000)
      else if s = "-Infinity" then some (.double 0xFFF0000000000000)
      else none
  | "$numberDecimal", .string s => (Decimals.parse s).map .decimal128
  | "$date", .string s => some (.dateTime (Int64.ofInt (readInstant s.toList)))
  | "$date", .object [("$numberLong", .string s)] =>
      (intOfText s.toList).map fun n => .dateTime (Int64.ofInt n)
  | "$timestamp", .object [("t", .number t), ("i", .number i)] =>
      (intOfText t).bind fun t => (intOfText i).map fun i =>
        .timestamp (UInt32.ofNat t.toNat) (UInt32.ofNat i.toNat)
  | "$binary", .object [("base64", .string s), ("subType", .string t)] =>
      (base64Decode s.toList).bind fun bytes => (hexBytes t.toList).bind fun subtype =>
        match subtype with
        | [subtype] => some (.binary subtype bytes)
        | _ => none
  | "$regularExpression", .object [("pattern", .string pattern), ("options", .string options)] =>
      some (.regularExpression pattern (String.ofList (options.toList.mergeSort (· ≤ ·))))
  | _, _ => none

theorem readPlainTag_oid (s : String) (bytes : Vector UInt8 12)
    (h : hexBytes s.toList = some bytes.toList) :
    readPlainTag "$oid" (.string s) = some (.objectId bytes) := by
  show (hexBytes s.toList).bind _ = _
  have hsize : bytes.toList.toArray.size = 12 := by simp
  have hback : (⟨bytes.toList.toArray, hsize⟩ : Vector UInt8 12) = bytes :=
    Vector.toArray_inj.mp Array.toArray_toList
  rw [h, Option.bind_some, dif_pos hsize, hback]

theorem readPlainTag_date_long (n : Int64) :
    readPlainTag "$date"
        (.object [("$numberLong", .string (String.ofList (intText n.toInt)))]) =
      some (.dateTime n) := by
  show (intOfText (String.ofList (intText n.toInt)).toList).map _ = _
  rw [String.toList_ofList, intOfText_intText, Option.map_some, Int64.ofInt_toInt]

theorem readPlainTag_timestamp (time increment : UInt32) :
    readPlainTag "$timestamp" (.object [("t", .number (intText time.toNat)),
      ("i", .number (intText increment.toNat))]) = some (.timestamp time increment) := by
  show (intOfText (intText time.toNat)).bind _ = _
  rw [intOfText_intText, Option.bind_some, intOfText_intText, Option.map_some, Int.toNat_natCast,
    Int.toNat_natCast, UInt32.ofNat_toNat, UInt32.ofNat_toNat]

theorem readPlainTag_binary (s t : String) (subtype : UInt8) (bytes : List UInt8)
    (hs : base64Decode s.toList = some bytes) (ht : hexBytes t.toList = some [subtype]) :
    readPlainTag "$binary" (.object [("base64", .string s), ("subType", .string t)]) =
      some (.binary subtype bytes) := by
  show (base64Decode s.toList).bind _ = _
  rw [hs, Option.bind_some, ht, Option.bind_some]

/-- No type tag reads as a document. -/
theorem readPlainTag_value (name : String) (j : Json) (b : Bson)
    (fields : List (String × DocValue)) (h : readPlainTag name j = some b) :
    bsonToDoc b ≠ .document fields := by
  unfold readPlainTag at h
  split at h
  · obtain ⟨bytes, -, h⟩ := Option.bind_eq_some_iff.mp h
    split at h
    · obtain rfl := Option.some.inj h
      exact DocValue.noConfusion
    · cases h
  · split_ifs at h <;> (obtain rfl := Option.some.inj h; exact DocValue.noConfusion)
  · obtain ⟨d, -, rfl⟩ := Option.map_eq_some_iff.mp h
    exact DocValue.noConfusion
  · obtain rfl := Option.some.inj h
    exact DocValue.noConfusion
  · obtain ⟨n, -, rfl⟩ := Option.map_eq_some_iff.mp h
    exact DocValue.noConfusion
  · obtain ⟨t, -, h⟩ := Option.bind_eq_some_iff.mp h
    obtain ⟨i, -, rfl⟩ := Option.map_eq_some_iff.mp h
    exact DocValue.noConfusion
  · obtain ⟨bytes, -, h⟩ := Option.bind_eq_some_iff.mp h
    obtain ⟨subtype, -, h⟩ := Option.bind_eq_some_iff.mp h
    split at h
    · obtain rfl := Option.some.inj h
      exact DocValue.noConfusion
    · cases h
  · obtain rfl := Option.some.inj h
    exact DocValue.noConfusion
  · cases h

end Tags

/-- A reader of compact text that goes 127 levels deep. -/
def plainLibraries : @JsonLibraries wholeDecimals :=
  letI := wholeDecimals
  { display := fun x => intText x.toNat
    display_number := fun x _ => by
      have := lexical_intText x.toNat
      rwa [Lexical] at this
    print_plain := fun d c hc => by
      change c ∈ (String.ofList (Nat.toDigits 10 d.toNat)).toList at hc
      rw [String.toList_ofList] at hc
      exact escape_digit (toDigits_isDigit hc)
    maxDepth := 127
    fromStr := fun text => (parse text).bind fun j => if depth j ≤ 127 then some (collect j) else none
    fromStr_compact := fun j h => by rw [parse_compact h, Option.bind_some]
    readDouble := fun _ => 0
    sortOptions := fun options => String.ofList (options.toList.mergeSort (· ≤ ·))
    isTag := fun name => writerTags.contains name
    isTag_writer := fun name h => List.contains_iff_mem.mpr h
    readTag := readPlainTag
    readTag_value := readPlainTag_value
    readTag_oid := readPlainTag_oid
    readTag_double := ⟨rfl, rfl, rfl⟩
    readTag_decimal := fun s => rfl
    readTag_date := fun year month day hour minute second milli hy hm hd hh hmi hs hms => by
      have hday := hd.2.trans (monthDays_le year month)
      show some (Bson.dateTime (Int64.ofInt (readInstant (String.ofList _).toList))) = _
      rw [String.toList_ofList, readInstant_text hy hm.2 hday hh hmi hs hms]
    readTag_date_long := readPlainTag_date_long
    readTag_timestamp := readPlainTag_timestamp
    readTag_binary := readPlainTag_binary
    readTag_regex := fun _ _ => rfl }

/-- The long 5 comes back as an int. -/
theorem small_long_shrinks : @JsonLibraries.parseExtJson wholeDecimals plainLibraries
      (@JsonLibraries.toExtendedJson wholeDecimals plainLibraries (.int64 5)) ≠ some (.int64 5) := by
  let _ := wholeDecimals
  have hprinted : Printed (.int64 5) := bsonToDoc_printed (.int64 5)
  have hdepth : depth (extJson plainLibraries.display (.int64 5)) ≤ plainLibraries.maxDepth :=
    Nat.zero_le _
  have hsmall : -2 ^ 31 ≤ (5 : Int64).toInt ∧ (5 : Int64).toInt < 2 ^ 31 := by decide
  rw [JsonLibraries.parse_printed plainLibraries hprinted, if_pos hdepth, extJson,
    JsonLibraries.readBack_number, JsonLibraries.readNumber_int64, if_pos hsmall]
  exact fun h => DocValue.noConfusion (Option.some.inj h)

end RedDb.Docs
