import Mathlib
import RedDb.Driver.Dsn

/-!
# RedDb — connection strings there and back

A configuration is composed into a string (`dsn`) and the string taken apart again
(`parse_conn_str`). The cuts of the reader find the pieces of the writer, because what is
encoded holds none of the bytes they look for; the host, the end of the database and the
group of a Sentinel are what is not protected.

* `trim_dsn` — what trimming leaves of a composed string;
* `dsn_requests` — the TLS flag of a composed string;
* `dsn_reads_back` — a composed string is read back as the configuration it came from.
-/

namespace RedDb.Driver.Dsn

open ByteText Delimited RedDb.Kv RedDb.Sql

/-! ## The authority -/

namespace ConnectionConfig

variable {c : ConnectionConfig}

theorem effectiveHost_ne_nil (c : ConnectionConfig) : c.effectiveHost ≠ [] := by
  unfold effectiveHost
  split
  · decide
  · assumption

/-- What stands between `://` and the database. -/
def authority (c : ConnectionConfig) : Bytes :=
  c.userinfo ++ (bracketHost c.effectiveHost ++ portText c.port)

theorem userinfo_clear {d : UInt8} (hd : d ∈ c.userinfo) : d ∉ [47, 63, 35] := by
  have hsub : ([47, 63, 35] : Bytes) ⊆ [64, 58, 47, 63, 35, 91, 93, 32] := by decide
  have hencoded : ∀ {s : Bytes}, d ∈ encode s → d ∉ [47, 63, 35] := fun hs hmem =>
    (encode_bytes hs).1 (hsub hmem)
  unfold userinfo at hd
  split at hd
  · rcases List.mem_append.mp hd with hd | hd
    · rcases List.mem_append.mp hd with hd | hd
      · exact hencoded hd
      split at hd
      · rcases List.mem_append.mp hd with hd | hd
        · rw [List.mem_singleton.mp hd]
          decide
        · exact hencoded hd
      · cases hd
    · rw [List.mem_singleton.mp hd]
      decide
  · cases hd

theorem authority_clear (hhost : HostPlain c.effectiveHost) {d : UInt8} (hd : d ∈ c.authority) :
    d ∉ [47, 63, 35] := by
  rcases List.mem_append.mp hd with hd | hd
  · exact userinfo_clear hd
  rcases List.mem_append.mp hd with hd | hd
  · exact fun hmem => bracketHost_plain hhost d hd (List.mem_cons_of_mem 64 hmem)
  rcases portText_clear hd with rfl | hdigit
  · decide
  intro hmem
  have hnone : ∀ e ∈ ([47, 63, 35] : Bytes), isAsciiDigit e = false := by decide
  rw [hnone d hmem] at hdigit
  cases hdigit

theorem authority_ne_nil (c : ConnectionConfig) : c.authority ≠ [] := by
  intro hnil
  obtain ⟨-, hhost⟩ := List.append_eq_nil_iff.mp hnil
  obtain ⟨hhost, -⟩ := List.append_eq_nil_iff.mp hhost
  unfold bracketHost at hhost
  split at hhost
  · cases hhost
  · exact effectiveHost_ne_nil c hhost

theorem hostport_clear (hhost : HostPlain c.effectiveHost) :
    64 ∉ bracketHost c.effectiveHost ++ portText c.port := by
  intro hd
  rcases List.mem_append.mp hd with hd | hd
  · exact bracketHost_plain hhost 64 hd (by decide)
  · rcases portText_clear hd with heq | hdigit
    · exact absurd heq (by decide)
    · exact absurd hdigit (by decide)

/-- **The credentials are read back**, and the host and port are what is left. -/
theorem splitAuthority_authority (hhost : HostPlain c.effectiveHost) :
    ∃ u, splitAuthority c.authority = (u, bracketHost c.effectiveHost ++ portText c.port) ∧
      readUserinfo u = (c.user.bytes, c.password.bytes) := by
  have hclear := hostport_clear hhost
  by_cases hsome : c.user.bytes ≠ [] ∨ c.password.bytes ≠ []
  · let u := encode c.user.bytes ++
      (if c.password.bytes ≠ [] then [58] ++ encode c.password.bytes else [])
    have htext : c.authority = u ++ 64 :: (bracketHost c.effectiveHost ++ portText c.port) := by
      unfold authority userinfo
      rw [if_pos hsome]
      exact List.append_assoc u [64] _
    refine ⟨some u, ?_, ?_⟩
    · unfold splitAuthority
      rw [htext, Delimited.rsplitOnce_append u hclear]
    · show readUserinfo (some (encode c.user.bytes ++ ite _ _ _)) = _
      by_cases hpass : c.password.bytes ≠ []
      · rw [if_pos hpass]
        exact readUserinfo_password
      · rw [if_neg hpass, List.append_nil, readUserinfo_user, not_not.mp hpass]
  · have htext : c.authority = bracketHost c.effectiveHost ++ portText c.port := by
      unfold authority userinfo
      rw [if_neg hsome, List.nil_append]
    obtain ⟨huser, hpass⟩ := not_or.mp hsome
    refine ⟨none, ?_, ?_⟩
    · unfold splitAuthority
      rw [htext, Delimited.rsplitOnce_none hclear]
    · rw [not_not.mp huser, not_not.mp hpass]
      rfl

/-! ## Trimming -/

/-- The string up to the query, of a network engine. -/
def address (c : ConnectionConfig) : Bytes := c.authority ++ 47 :: encode c.database.bytes

theorem dsn_eq (hnet : isFile c.kind = false) :
    c.dsn = c.scheme ++ (ascii "://" ++ (c.address ++ c.queryText)) := by
  unfold dsn address authority
  rw [hnet, if_neg Bool.false_ne_true]
  simp only [List.append_assoc, List.cons_append, List.nil_append]

/-- Nothing that `trim` takes stands at the end of the database, where it ends the string. -/
def DatabaseEnds (c : ConnectionConfig) : Prop :=
  c.queryText = [] → ∀ b, c.database.bytes.getLast? = some b → ws1 b = true → b = space

theorem scheme_head (c : ConnectionConfig) (rest : Bytes) : wsLen (c.scheme ++ rest) = 0 := by
  have hhead : ∃ a s, c.scheme = a :: s ∧ isBlankByte a = false := by
    unfold scheme
    cases c.kind <;> cases c.tls <;> exact ⟨_, _, rfl, by decide⟩
  obtain ⟨a, s, hs, ha⟩ := hhead
  rw [hs]
  exact wsLen_ascii ha (s ++ rest)

/-- Encoded text ends in a blank only where the text ended in one, other than a space. -/
theorem encode_last {s : Bytes} {b : UInt8} (h : (encode s).getLast? = some b)
    (hb : isBlankByte b = true) : ∃ d, s.getLast? = some d ∧ ws1 d = true ∧ d ≠ space := by
  rcases List.eq_nil_or_concat s with rfl | ⟨s, d, rfl⟩
  · cases h
  refine ⟨d, by rw [List.concat_eq_append, List.getLast?_concat], ?_⟩
  have hall := forall_byte (p := fun d => (encodeByte d).getLast?.any fun e =>
    !isBlankByte e || (ws1 d && d != space)) (by decide +kernel) d
  have hshape : encode (s.concat d) = encode s ++ encodeByte d := by
    unfold encode
    rw [List.concat_eq_append, List.flatMap_append, List.flatMap_singleton]
  rw [hshape, List.getLast?_append] at h
  cases hlast : (encodeByte d).getLast? with
  | none =>
    rw [hlast] at hall
    cases hall
  | some e =>
    rw [hlast, Option.some_or] at h
    rw [hlast, Option.some.inj h] at hall
    simpa [hb] using hall

theorem queryText_redis (hredis : c.kind = .redis) :
    c.queryText = if c.sentinelMaster.bytes = [] then []
      else ascii "?master=" ++ encode c.sentinelMaster.bytes := by
  unfold queryText
  rw [hredis]
  by_cases hgroup : c.sentinelMaster.bytes = [] <;> cases c.tls <;> simp [hgroup, tlsFlag]

theorem queryText_other (hother : c.kind ≠ .redis) :
    c.queryText = if c.tls then tlsFlag c.kind else [] := by
  unfold queryText
  have hneg : ¬(c.kind = .redis ∧ c.sentinelMaster.bytes ≠ []) := fun hand => hother hand.1
  rw [if_neg hneg, List.append_nil]

/-- The tail is missing, or a `?` and text without another cut. -/
theorem queryText_cases (c : ConnectionConfig) :
    c.queryText = [] ∨ ∃ t, c.queryText = 63 :: t ∧ ∀ d ∈ t, isTail d = false := by
  have hencoded : ∀ {s : Bytes} {d : UInt8}, d ∈ encode s → isTail d = false := by
    intro s d hd
    have hclear := (encode_bytes hd).1
    simp only [List.mem_cons, not_or] at hclear
    simp [isTail, hclear.2.2.2.1, hclear.2.2.2.2.1]
  have hmaster : ∀ {d : UInt8} {s : Bytes}, d ∈ ascii "master=" ++ encode s → isTail d = false := by
    intro d s hd
    rcases List.mem_append.mp hd with hd | hd
    · have hall : ∀ e ∈ ascii "master=", isTail e = false := by decide
      exact hall d hd
    · exact hencoded hd
  by_cases hredis : c.kind = .redis
  · rw [queryText_redis hredis]
    by_cases hgroup : c.sentinelMaster.bytes = []
    · exact Or.inl (if_pos hgroup)
    · rw [if_neg hgroup]
      exact Or.inr ⟨ascii "master=" ++ encode c.sentinelMaster.bytes, rfl, fun d => hmaster⟩
  · rw [queryText_other hredis]
    cases c.tls with
    | false => exact Or.inl rfl
    | true =>
      cases c.kind with
      | postgres => exact Or.inr ⟨ascii "sslmode=require", rfl, by decide⟩
      | mysql => exact Or.inr ⟨ascii "require_ssl=true", rfl, by decide⟩
      | mongo => exact Or.inr ⟨ascii "tls=true", rfl, by decide⟩
      | sqlite | clickhouse | redis => exact Or.inl rfl

/-- **What trimming leaves of a composed string**: a run of blanks at the end of the query may
go, and nothing else. -/
theorem trim_dsn (hnet : isFile c.kind = false) (hend : c.DatabaseEnds) :
    ∃ query blanks, Blank blanks ∧ c.queryText = query ++ blanks ∧
      (query = [] → c.queryText = []) ∧
      trim c.dsn = c.scheme ++ (ascii "://" ++ (c.address ++ query)) := by
  have hstart : trimStart c.dsn = c.dsn := by
    rw [dsn_eq hnet]
    exact trimStart_none (scheme_head c _)
  have htrim : trim c.dsn = trimEnd c.dsn := congrArg trimEnd hstart
  rcases queryText_cases c with hquery | ⟨tail, hquery, -⟩
  · rw [hquery]
    obtain ⟨t, q, hq, ht, hcut⟩ := trimEnd_behind (c.scheme ++ (ascii "://" ++ c.authority))
      (c := 47) (by decide) (encode c.database.bytes)
    have hnone : q = [] := by
      rcases List.eq_nil_or_concat q with hnil | ⟨q', b, rfl⟩
      · exact hnil
      have hlast : (encode c.database.bytes).getLast? = some b := by
        rw [ht, List.concat_eq_append, ← List.append_assoc, List.getLast?_concat]
      have hblank := hq.bytes b (by simp)
      obtain ⟨d, hd, hws, hne⟩ := encode_last hlast hblank
      exact absurd (hend hquery d hd hws) hne
    have hdsn : c.dsn = c.scheme ++ (ascii "://" ++ c.authority) ++ 47 :: encode c.database.bytes := by
      rw [dsn_eq hnet, hquery, List.append_nil]
      simp only [address, List.append_assoc]
    refine ⟨[], [], Blank.nil, rfl, fun _ => rfl, ?_⟩
    rw [htrim, hdsn, hcut, List.append_nil]
    rw [hnone, List.append_nil] at ht
    rw [← ht]
    simp only [address, List.append_assoc]
  · obtain ⟨t, q, hq, ht, hcut⟩ := trimEnd_behind (c.scheme ++ (ascii "://" ++ c.address))
      (c := 63) (by decide) tail
    have hdsn : c.dsn = c.scheme ++ (ascii "://" ++ c.address) ++ 63 :: tail := by
      rw [dsn_eq hnet, hquery]
      simp only [List.append_assoc]
    refine ⟨63 :: t, q, hq, ?_, fun hnil => absurd hnil (by simp), ?_⟩
    · rw [hquery, ht]
      rfl
    · rw [htrim, hdsn, hcut]
      simp only [List.append_assoc]

end ConnectionConfig

/-! ## TLS -/

theorem contains_iff {q flag : Bytes} : contains q flag = true ↔ flag <:+: q := by
  induction q with
  | nil => rw [contains, List.isEmpty_iff, List.infix_nil]
  | cons c rest ih =>
    rw [contains, Bool.or_eq_true, List.isPrefixOf_iff_prefix, ih, List.infix_cons_iff]

/-- A flag that has no blank in it is not found in blanks. -/
theorem contains_append_blanks {q w flag : Bytes} (hw : ∀ d ∈ w, isBlankByte d = true)
    (hflag : ∀ d ∈ flag, isBlankByte d = false) (hne : flag ≠ []) :
    contains (q ++ w) flag = contains q flag := by
  have hout : ∀ {d : UInt8}, d ∈ flag → d ∉ w := by
    intro d hd hdw
    have hblank := hw d hdw
    rw [hflag d hd] at hblank
    cases hblank
  rw [Bool.eq_iff_iff, contains_iff, contains_iff]
  refine ⟨fun h => ?_, List.infix_append_of_infix_left⟩
  rcases List.infix_append_iff.mp h with hq | hq | ⟨l, r, rfl, hl, hr⟩
  · exact hq
  · obtain ⟨d, rest, rfl⟩ := List.exists_cons_of_ne_nil hne
    exact absurd (hq.subset List.mem_cons_self) (hout List.mem_cons_self)
  · cases r with
    | nil =>
      rw [List.append_nil]
      exact hl.isInfix
    | cons d rest =>
      have hdw : d ∈ w := hr.subset List.mem_cons_self
      exact absurd hdw (hout (List.mem_append_right l List.mem_cons_self))

theorem flagsTls_append_blanks (q : Bytes) {w : Bytes} (hw : Blank w) :
    flagsTls (asciiLower (q ++ w)) = flagsTls (asciiLower q) := by
  have hlower : ∀ d ∈ asciiLower w, isBlankByte d = true := by
    intro d hd
    obtain ⟨e, he, rfl⟩ := List.mem_map.mp hd
    have hall := forall_byte (p := fun e => !isBlankByte e || isBlankByte (toAsciiLower e))
      (by decide +kernel) e
    simpa [hw.bytes e he] using hall
  have hsplit : asciiLower (q ++ w) = asciiLower q ++ asciiLower w := List.map_append
  unfold flagsTls
  rw [hsplit, contains_append_blanks hlower (by decide) (by decide),
    contains_append_blanks hlower (by decide) (by decide),
    contains_append_blanks hlower (by decide) (by decide),
    contains_append_blanks hlower (by decide) (by decide),
    contains_append_blanks hlower (by decide) (by decide)]

namespace ConnectionConfig

variable {c : ConnectionConfig}

/-- The group of a Sentinel spells no TLS flag where TLS is not asked for. -/
def SentinelSilent (c : ConnectionConfig) : Prop :=
  c.kind = .redis → c.tls = false →
    flagsTls (asciiLower (ascii "master=" ++ encode c.sentinelMaster.bytes)) = false

theorem flagsTls_query (hnet : isFile c.kind = false) (hsilent : c.SentinelSilent)
    (hplain : schemeIsTls c.scheme = false) : flagsTls (asciiLower c.queryText.tail) = c.tls := by
  by_cases hredis : c.kind = .redis
  · cases htls : c.tls with
    | true =>
      unfold scheme at hplain
      rw [hredis, htls] at hplain
      exact absurd hplain (by decide)
    | false =>
      rw [queryText_redis hredis]
      split
      · rfl
      · exact hsilent hredis htls
  · rw [queryText_other hredis]
    cases htls : c.tls with
    | false => rfl
    | true =>
      unfold scheme at hplain
      rw [htls] at hplain
      cases hkind : c.kind with
      | postgres | mysql | mongo => decide
      | redis => exact absurd hkind hredis
      | clickhouse =>
        rw [hkind] at hplain
        exact absurd hplain (by decide)
      | sqlite =>
        rw [hkind] at hnet
        cases hnet

theorem schemeIsTls_tls (h : schemeIsTls c.scheme = true) : c.tls = true := by
  cases htls : c.tls with
  | true => rfl
  | false =>
    unfold scheme at h
    rw [htls] at h
    cases hkind : c.kind <;> rw [hkind] at h <;> exact absurd h (by decide)

theorem address_clear (hhost : HostPlain c.effectiveHost) : ∀ d ∈ c.address, isTail d = false := by
  have hcut : ∀ {d : UInt8}, d ≠ 63 → d ≠ 35 → isTail d = false := by
    intro d hq hf
    simp [isTail, hq, hf]
  intro d hd
  rcases List.mem_append.mp hd with hd | hd
  · have hclear := authority_clear hhost hd
    simp only [List.mem_cons, not_or] at hclear
    exact hcut hclear.2.1 hclear.2.2.1
  · rcases List.mem_cons.mp hd with rfl | hd
    · decide
    · have hclear := (encode_bytes hd).1
      simp only [List.mem_cons, not_or] at hclear
      exact hcut hclear.2.2.2.1 hclear.2.2.2.2.1

theorem splitOnce_scheme (c : ConnectionConfig) (rest : Bytes) :
    ByteText.splitOnce (ascii "://") (c.scheme ++ (ascii "://" ++ rest)) = some (c.scheme, rest) := by
  have hcolon : 58 ∉ c.scheme := by
    unfold scheme
    cases c.kind <;> cases c.tls <;> decide
  have hclear : clearOf (ascii "://") c.scheme = true := clearOf_of_head hcolon
  rw [splitOnce_clear hclear, splitOnce_here (by decide)]
  show some (c.scheme ++ [], rest) = _
  rw [List.append_nil]

/-- What is between the address and the end of a trimmed string. -/
theorem pieces (hhost : HostPlain c.effectiveHost) {query blanks : Bytes}
    (hquery : c.queryText = query ++ blanks) (hall : query = [] → c.queryText = []) :
    firstPiece isTail (c.address ++ query) = c.address ∧
      (secondPiece isTail (c.address ++ query)).getD [] = query.tail ∧
      c.queryText.tail = query.tail ++ blanks := by
  have haddress := address_clear hhost
  cases hcase : query with
  | nil =>
    have hnil := hall hcase
    rw [hcase, List.nil_append] at hquery
    rw [List.append_nil, firstPiece_all haddress, secondPiece_none haddress, hnil]
    rw [hnil] at hquery
    rw [← hquery]
    exact ⟨rfl, rfl, rfl⟩
  | cons a t =>
    rcases queryText_cases c with hnil | ⟨tail, htail, hclear⟩
    · rw [hnil, hcase] at hquery
      cases hquery
    rw [htail, hcase] at hquery
    obtain ⟨rfl, htext⟩ := List.cons.inj hquery
    have ht : ∀ d ∈ t, isTail d = false := fun d hd =>
      hclear d (htext ▸ List.mem_append_left blanks hd)
    rw [firstPiece_append haddress (by decide), secondPiece_append haddress (by decide),
      firstPiece_all ht, htail, htext]
    exact ⟨rfl, rfl, rfl⟩

/-- **The TLS flag of a composed string** is the configuration's. -/
theorem dsn_requests (hnet : isFile c.kind = false) (hhost : HostPlain c.effectiveHost)
    (hend : c.DatabaseEnds) (hsilent : c.SentinelSilent) : dsnRequestsTls c.dsn = c.tls := by
  obtain ⟨query, blanks, hblanks, hquery, hall, htrim⟩ := trim_dsn hnet hend
  obtain ⟨-, hsecond, htail⟩ := pieces hhost hquery hall
  unfold dsnRequestsTls
  rw [htrim, splitOnce_scheme]
  dsimp only
  cases hscheme : schemeIsTls c.scheme with
  | true =>
    rw [if_pos rfl]
    exact (schemeIsTls_tls hscheme).symm
  | false =>
    have hflags := flagsTls_query hnet hsilent hscheme
    rw [htail, flagsTls_append_blanks _ hblanks] at hflags
    rw [if_neg Bool.false_ne_true, hsecond, hflags]

theorem fromScheme_scheme (c : ConnectionConfig) : fromScheme c.scheme = some c.kind := by
  unfold scheme
  cases c.kind <;> cases c.tls <;> decide

/-- What a composed string is read as. -/
theorem parse_dsn (hnet : isFile c.kind = false) (hhost : HostPlain c.effectiveHost)
    (hend : c.DatabaseEnds) (hsilent : c.SentinelSilent) : parseConnStr c.dsn = some ⟨c.kind,
      (readHostport (bracketHost c.effectiveHost ++ portText c.port)).1,
      (readHostport (bracketHost c.effectiveHost ++ portText c.port)).2 <|> defaultPort c.kind,
      c.user.bytes, c.password.bytes, c.database.bytes, c.tls⟩ := by
  obtain ⟨query, blanks, -, hquery, hall, htrim⟩ := trim_dsn hnet hend
  obtain ⟨hfirst, -, -⟩ := pieces hhost hquery hall
  have htls : dsnRequestsTls (trim c.dsn) = c.tls := by
    have hrequests := dsn_requests hnet hhost hend hsilent
    unfold dsnRequestsTls at hrequests ⊢
    rwa [trim_trim]
  have hslash : 47 ∉ c.authority := fun hmem => authority_clear hhost hmem (by decide)
  have hlead : c.address.dropWhile (· == 47) = c.address := by
    obtain ⟨a, rest, ha⟩ := List.exists_cons_of_ne_nil (authority_ne_nil c)
    have hne : a ≠ 47 := fun heq => hslash (by rw [ha, heq]; exact List.mem_cons_self)
    unfold address
    rw [ha, List.cons_append, List.dropWhile_cons_of_neg (by simpa using hne)]
  obtain ⟨u, hauthority, huser⟩ := splitAuthority_authority hhost
  unfold parseConnStr
  dsimp only
  rw [htls, htrim, splitOnce_scheme]
  dsimp only
  rw [fromScheme_scheme, Option.getD_some, hnet, if_neg Bool.false_ne_true, hfirst, hlead]
  unfold address
  rw [Delimited.splitOnce_append hslash, Option.getD_some]
  dsimp only
  rw [hauthority]
  dsimp only
  rw [huser, decode_encode]

/-- What comes back of a connection is its server, its credentials, its database and whether it
uses TLS. -/
def ReadsBack (c : ConnectionConfig) : Prop :=
  ∃ host, parseConnStr c.dsn = some ⟨c.kind, host, c.port <|> defaultPort c.kind, c.user.bytes,
      c.password.bytes, c.database.bytes, c.tls⟩ ∧
    bracketHost host = bracketHost c.effectiveHost

theorem hostWritten_of_readsBack (hnet : isFile c.kind = false) (hend : c.DatabaseEnds)
    (hsilent : c.SentinelSilent) (hback : c.ReadsBack) : HostWritten c.effectiveHost := by
  obtain ⟨host, hparse, hsame⟩ := hback
  have hhost : HostPlain host := parseConnStr_host hparse hnet
  have hplain : HostPlain c.effectiveHost := by
    have hbracketed : HostPlain (bracketHost c.effectiveHost) := hsame ▸ bracketHost_plain hhost
    refine hbracketed.subset fun d hd => ?_
    unfold bracketHost
    split
    · simp [hd]
    · exact hd
  refine ⟨hplain, hostForm_of_read c.port ?_⟩
  have hread := (parse_dsn hnet hplain hend hsilent).symm.trans hparse
  rw [(ParsedDsn.mk.inj (Option.some.inj hread)).2.1]
  exact hsame

/-- **A composed string of a network engine is read back** exactly if its host can stand in a
URL as it is. -/
theorem readsBack_iff (hnet : isFile c.kind = false) (hend : c.DatabaseEnds)
    (hsilent : c.SentinelSilent) : c.ReadsBack ↔ HostWritten c.effectiveHost := by
  refine ⟨hostWritten_of_readsBack hnet hend hsilent, fun hhost => ?_⟩
  obtain ⟨host, hhostport, hsame⟩ :=
    readHostport_host hhost.form (effectiveHost_ne_nil c) c.port
  refine ⟨host, ?_, hsame⟩
  rw [parse_dsn hnet hhost.plain hend hsilent, hhostport]

/-! ## File engines -/

theorem splitOnce_absent {b phrase : Bytes} (h : contains b phrase = false) :
    ByteText.splitOnce phrase b = none := by
  induction b with
  | nil =>
    rw [contains] at h
    rw [ByteText.splitOnce, h]
    rfl
  | cons a rest ih =>
    rw [contains, Bool.or_eq_false_iff] at h
    rw [ByteText.splitOnce, h.1, if_neg Bool.false_ne_true, ih h.2]
    rfl

/-- A path is no connection string. -/
theorem path_unread {b : Bytes} (h : contains b (ascii "://") = false) :
    parseConnStr b = none ∧ dsnRequestsTls b = false := by
  have htrim : ByteText.splitOnce (ascii "://") (trim b) = none := by
    refine splitOnce_absent (Bool.eq_false_iff.mpr fun hin => ?_)
    obtain ⟨p, q, -, -, hb⟩ := trim_spec b
    have hinfix : trim b <:+: b := ⟨p, q, by rw [List.append_assoc, ← hb]⟩
    rw [contains_iff.mpr ((contains_iff.mp hin).trans hinfix)] at h
    cases h
  constructor
  · unfold parseConnStr
    dsimp only
    rw [htrim]
  · unfold dsnRequestsTls
    rw [htrim]

/-- A Postgres server behind an IPv6 address, with reserved characters in its credentials. -/
def reservedCharacters : ConnectionConfig where
  kind := .postgres
  host := ⟨ascii "::1", rfl⟩
  port := some 5432
  user := ⟨ascii "postgres", rfl⟩
  password := ⟨ascii "p@ss:word", rfl⟩
  database := ⟨ascii "analytics", rfl⟩
  tls := true
  sentinelMaster := ⟨[], rfl⟩

/-- A database file. -/
def databaseFile : ConnectionConfig where
  kind := .sqlite
  host := ⟨[], rfl⟩
  port := none
  user := ⟨[], rfl⟩
  password := ⟨[], rfl⟩
  database := ⟨ascii "/tmp/app.sqlite", rfl⟩
  tls := false
  sentinelMaster := ⟨[], rfl⟩

/-- A Redis server found through a Sentinel. -/
def throughSentinel : ConnectionConfig where
  kind := .redis
  host := ⟨ascii "sentinel.local", rfl⟩
  port := some 26379
  user := ⟨[], rfl⟩
  password := ⟨[], rfl⟩
  database := ⟨[], rfl⟩
  tls := false
  sentinelMaster := ⟨ascii "mymaster", rfl⟩

end ConnectionConfig

end RedDb.Driver.Dsn
