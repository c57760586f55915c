import RedDb.Kv.CommandLine
import RedDb.Lib.Delimited
import RedDb.Lib.Numerals
import RedDb.Sql.Lexemes

/-!
# RedDb — connection strings

What a connection configuration becomes on its way to a driver (`dsn`), and what is made
of a connection string that is pasted or handed over (`parse_conn_str`). Credentials and
the database are percent-encoded, the host is written as it stands, TLS is spelled by the
scheme or by a query flag, and a file engine has a bare path instead of a URL.

* `decode_encode` — percent-encoding is undone;
* `readHostport_host` — host and port are read back, the brackets of a literal apart;
* `hostForm_of_read` — only names and IPv6 literals are;
* `parseConnStr_host` — what a host that was read cannot hold.
-/

namespace RedDb.Driver.Dsn

open ByteText Delimited RedDb.Kv RedDb.Sql

/-! ## Engines -/

def isFile : DbKind → Bool
  | .sqlite => true
  | _ => false

def defaultPort : DbKind → Option UInt16
  | .postgres => some 5432
  | .mysql => some 3306
  | .clickhouse => some 8123
  | .redis => some 6379
  | .mongo => some 27017
  | .sqlite => none

def urlScheme : DbKind → Bytes
  | .postgres => ascii "postgres"
  | .mysql => ascii "mysql"
  | .sqlite => ascii "sqlite"
  | .clickhouse => ascii "clickhouse"
  | .redis => ascii "redis"
  | .mongo => ascii "mongodb"

def fromScheme (scheme : Bytes) : Option DbKind :=
  let s := asciiLower scheme
  if s ∈ [ascii "postgres", ascii "postgresql"] then some .postgres
  else if s ∈ [ascii "mysql", ascii "mariadb"] then some .mysql
  else if s ∈ [ascii "sqlite", ascii "sqlite3", ascii "file"] then some .sqlite
  else if s ∈ [ascii "clickhouse", ascii "clickhouse-http", ascii "ch", ascii "clickhouses"] then
    some .clickhouse
  else if s ∈ [ascii "redis", ascii "rediss"] then some .redis
  else if s ∈ [ascii "mongodb", ascii "mongodb+srv"] then some .mongo
  else none

def schemeIsTls (scheme : Bytes) : Bool :=
  asciiLower scheme ∈ [ascii "rediss", ascii "clickhouses"]

/-! ## Percent-encoding -/

def upperHex (n : Nat) : UInt8 := UInt8.ofNat (if n < 10 then 48 + n else 55 + n)

/-- The bytes that stand for something in a URL: `@ : / ? # [ ] %` and the space. -/
def reserved : List UInt8 := [64, 58, 47, 63, 35, 91, 93, 37, 32]

def encodeByte (b : UInt8) : Bytes :=
  if b ∈ reserved ∨ 0x80 ≤ b then [37, upperHex (b.toNat / 16), upperHex (b.toNat % 16)] else [b]

def encode (s : Bytes) : Bytes := s.flatMap encodeByte

/-- The escapes resolved; a `%` without two hex digits is left as it is. -/
@[grind =] def unescaped : Bytes → Bytes
  | c :: hi :: lo :: rest =>
    if c = 37 then
      match hexDigitValue hi, hexDigitValue lo with
      | some h, some l => UInt8.ofNat (h * 16 + l) :: unescaped rest
      | _, _ => c :: unescaped (hi :: lo :: rest)
    else c :: unescaped (hi :: lo :: rest)
  | b => b

def decode (s : Bytes) : Bytes := fromUtf8Lossy (unescaped s)

/-! ## Composing -/

/-- A `String`. -/
structure Text where
  bytes : Bytes
  valid : validUtf8 bytes = true

structure ConnectionConfig where
  kind : DbKind
  host : Text
  port : Option UInt16
  user : Text
  password : Text
  database : Text
  tls : Bool
  sentinelMaster : Text

def bracketHost (host : Bytes) : Bytes :=
  if 58 ∈ host ∧ host.head? ≠ some 91 then [91] ++ host ++ [93] else host

namespace ConnectionConfig

def effectiveHost (c : ConnectionConfig) : Bytes :=
  if c.host.bytes = [] then ascii "localhost" else c.host.bytes

/-- The scheme of a network engine's string. -/
def scheme (c : ConnectionConfig) : Bytes :=
  match c.kind, c.tls with
  | .redis, true => ascii "rediss"
  | .clickhouse, true => ascii "clickhouses"
  | kind, _ => urlScheme kind

/-- `user:password@`. A password goes out without a user as well. -/
def userinfo (c : ConnectionConfig) : Bytes :=
  if c.user.bytes ≠ [] ∨ c.password.bytes ≠ [] then
    encode c.user.bytes ++
      (if c.password.bytes ≠ [] then [58] ++ encode c.password.bytes else []) ++ [64]
  else []

/-- `:port`, where there is one. -/
def portText : Option UInt16 → Bytes
  | some port => [58] ++ ByteText.decimal port.toNat
  | none => []

/-- TLS where the scheme does not say it. -/
def tlsFlag : DbKind → Bytes
  | .postgres => ascii "?sslmode=require"
  | .mysql => ascii "?require_ssl=true"
  | .mongo => ascii "?tls=true"
  | _ => []

/-- The `?` tail: the TLS flag of the engines that have one, the group of a Sentinel. -/
def queryText (c : ConnectionConfig) : Bytes :=
  (if c.tls then tlsFlag c.kind else []) ++
  (if c.kind = .redis ∧ c.sentinelMaster.bytes ≠ [] then
    ascii "?master=" ++ encode c.sentinelMaster.bytes
  else [])

def dsn (c : ConnectionConfig) : Bytes :=
  if isFile c.kind then c.database.bytes
  else c.scheme ++ ascii "://" ++ c.userinfo ++ bracketHost c.effectiveHost ++ portText c.port ++
    [47] ++ encode c.database.bytes ++ c.queryText

end ConnectionConfig

/-! ## Reading -/

/-- Where the query or the fragment begins: `?` and `#`. -/
def isTail (c : UInt8) : Bool := c == 63 || c == 35

/-- `str::contains`. -/
@[grind =] def contains : Bytes → Bytes → Bool
  | [], flag => flag.isEmpty
  | c :: rest, flag => flag.isPrefixOf (c :: rest) || contains rest flag

/-- A query, in lower case, that asks for TLS. -/
def flagsTls (q : Bytes) : Bool :=
  (contains q (ascii "sslmode=") && !contains q (ascii "sslmode=disable")) ||
    contains q (ascii "require_ssl=true") || contains q (ascii "ssl=true") ||
    contains q (ascii "tls=true")

def dsnRequestsTls (dsn : Bytes) : Bool :=
  match ByteText.splitOnce (ascii "://") (trim dsn) with
  | none => false
  | some (scheme, rest) =>
    if schemeIsTls scheme then true
    else flagsTls (asciiLower ((secondPiece isTail rest).getD []))

/-- `parse::<u16>`: digits behind an optional `+`, up to 65535. -/
def parseU16 (b : Bytes) : Option UInt16 :=
  let digits := if b.head? = some 43 then b.tail else b
  if digits.isEmpty || !digits.all isAsciiDigit then none
  else if ofDigits digits < 65536 then some (UInt16.ofNat (ofDigits digits)) else none

structure ParsedDsn where
  kind : DbKind
  host : Bytes
  port : Option UInt16
  user : Bytes
  password : Bytes
  database : Bytes
  tls : Bool
  deriving DecidableEq

def ParsedDsn.forKind (kind : DbKind) : ParsedDsn where
  kind := kind
  host := []
  port := defaultPort kind
  user := []
  password := []
  database := []
  tls := false

/-- `[userinfo@]hostport`. -/
def splitAuthority (authority : Bytes) : Option Bytes × Bytes :=
  match rsplitOnce 64 authority with
  | some (u, h) => (some u, h)
  | none => (none, authority)

/-- `user[:pass]`. -/
def readUserinfo : Option Bytes → Bytes × Bytes
  | some u =>
    match splitOnce 58 u with
    | some (user, pass) => (decode user, decode pass)
    | none => (decode u, [])
  | none => ([], [])

/-- `host[:port]`, the host in brackets if it is an IPv6 literal. -/
def readHostport (hostport : Bytes) : Bytes × Option UInt16 :=
  if hostport.head? = some 91 then
    match splitOnce 93 hostport.tail with
    | some (addr, tail) => (addr, if tail.head? = some 58 then parseU16 tail.tail else none)
    | none => (hostport.tail, none)
  else
    match rsplitOnce 58 hostport with
    | some (h, p) => (h, parseU16 p)
    | none => (hostport, none)

def parseConnStr (input : Bytes) : Option ParsedDsn :=
  let input := trim input
  match ByteText.splitOnce (ascii "://") input with
  | none => none
  | some (scheme, rest) =>
    let kind := (fromScheme scheme).getD .postgres
    let tls := dsnRequestsTls input
    let rest := (firstPiece isTail rest).dropWhile (· == 47)
    if isFile kind then
      some { ParsedDsn.forKind kind with database := [47] ++ rest.dropWhile (· == 47) }
    else
      let (authority, database) := (splitOnce 47 rest).getD (rest, [])
      let (userinfo, hostport) := splitAuthority authority
      let (user, password) := readUserinfo userinfo
      let (host, port) := readHostport hostport
      some ⟨kind, host, port <|> defaultPort kind, user, password, decode database, tls⟩

/-! ## Encoded text -/

theorem encodeByte_bytes (b : UInt8) :
    ∀ d ∈ encodeByte b, d ∉ [64, 58, 47, 63, 35, 91, 93, 32] ∧ d < 0x80 := by
  have hall := forall_byte (p := fun b => (encodeByte b).all fun d =>
    decide (d ∉ [64, 58, 47, 63, 35, 91, 93, 32] ∧ d < 0x80)) (by decide +kernel) b
  intro d hd
  exact of_decide_eq_true (List.all_eq_true.mp hall d hd)

/-- Encoded text is ASCII and holds nothing that cuts a URL. -/
theorem encode_bytes {s : Bytes} {d : UInt8} (hd : d ∈ encode s) :
    d ∉ [64, 58, 47, 63, 35, 91, 93, 32] ∧ d < 0x80 := by
  obtain ⟨b, -, hb⟩ := List.mem_flatMap.mp hd
  exact encodeByte_bytes b d hb

theorem encode_clear {s : Bytes} {d : UInt8} (h : d ∈ [64, 58, 47, 63, 35, 91, 93, 32]) :
    d ∉ encode s :=
  fun hd => (encode_bytes hd).1 h

theorem upperHex_value (b : UInt8) : hexDigitValue (upperHex (b.toNat / 16)) = some (b.toNat / 16) ∧
      hexDigitValue (upperHex (b.toNat % 16)) = some (b.toNat % 16) ∧
      UInt8.ofNat (b.toNat / 16 * 16 + b.toNat % 16) = b := by
  have hall := forall_byte (p := fun c =>
    hexDigitValue (upperHex (c.toNat / 16)) == some (c.toNat / 16) &&
      hexDigitValue (upperHex (c.toNat % 16)) == some (c.toNat % 16) &&
      UInt8.ofNat (c.toNat / 16 * 16 + c.toNat % 16) == c) (by decide +kernel) b
  simpa [and_assoc] using hall

theorem unescaped_plain {b : UInt8} (hb : b ≠ 37) (rest : Bytes) :
    unescaped (b :: rest) = b :: unescaped rest := by
  match rest with
  | [] => rfl
  | [_] => rfl
  | _ :: _ :: _ => rw [unescaped, if_neg hb]

theorem unescaped_encodeByte (b : UInt8) (rest : Bytes) :
    unescaped (encodeByte b ++ rest) = b :: unescaped rest := by
  unfold encodeByte
  split
  · obtain ⟨hhi, hlo, hval⟩ := upperHex_value b
    show unescaped (37 :: upperHex (b.toNat / 16) :: upperHex (b.toNat % 16) :: rest) = _
    rw [unescaped, if_pos rfl, hhi, hlo]
    dsimp only
    rw [hval]
  · rename_i hplain
    refine unescaped_plain (fun heq => hplain (Or.inl ?_)) rest
    rw [heq]
    decide

theorem unescaped_encode (s : Bytes) : unescaped (encode s) = s := by
  induction s with
  | nil => rfl
  | cons b s ih =>
    show unescaped (encodeByte b ++ encode s) = b :: s
    rw [unescaped_encodeByte, ih]

/-- **Percent-encoding is undone.** -/
theorem decode_encode (t : Text) : decode (encode t.bytes) = t.bytes := by
  unfold decode
  rw [unescaped_encode]
  exact fromUtf8Lossy_valid t.valid

/-! ## The pieces of a string -/

theorem readUserinfo_user {user : Text} :
    readUserinfo (some (encode user.bytes)) = (user.bytes, []) := by
  unfold readUserinfo
  dsimp only
  rw [Delimited.splitOnce_none (encode_clear (by decide))]
  dsimp only
  rw [decode_encode]

theorem readUserinfo_password {user password : Text} :
    readUserinfo (some (encode user.bytes ++ ([58] ++ encode password.bytes))) =
      (user.bytes, password.bytes) := by
  unfold readUserinfo
  dsimp only
  rw [List.singleton_append, Delimited.splitOnce_append (encode_clear (by decide))]
  dsimp only
  rw [decode_encode, decode_encode]

theorem parseU16_decimal (port : UInt16) : parseU16 (ByteText.decimal port.toNat) = some port := by
  obtain ⟨d, rest, hd⟩ : ∃ d rest, ByteText.decimal port.toNat = d :: rest :=
    List.exists_cons_of_ne_nil (decimal_ne_nil port.toNat)
  have hdigit : isAsciiDigit d = true := decimal_digits (hd ▸ List.mem_cons_self)
  have hplus : (ByteText.decimal port.toNat).head? ≠ some 43 := by
    rw [hd]
    intro heq
    rw [Option.some.inj heq] at hdigit
    exact absurd hdigit (by decide)
  have hall : (ByteText.decimal port.toNat).all isAsciiDigit = true :=
    List.all_eq_true.mpr fun _ hmem => decimal_digits hmem
  have hne : (ByteText.decimal port.toNat).isEmpty = false := by
    rw [hd]
    rfl
  unfold parseU16
  dsimp only
  rw [if_neg hplus, hne, hall, if_neg (by decide), ofDigits_decimal,
    if_pos (UInt16.toNat_lt port), UInt16.ofNat_toNat]

theorem portText_clear {port : Option UInt16} {d : UInt8}
    (hd : d ∈ ConnectionConfig.portText port) : d = 58 ∨ isAsciiDigit d = true := by
  cases port with
  | none => cases hd
  | some port =>
    rcases List.mem_cons.mp hd with rfl | hd
    · exact Or.inl rfl
    · exact Or.inr (decimal_digits hd)

theorem readHostport_name {h : Bytes} (hcolon : 58 ∉ h) (hopen : h.head? ≠ some 91) (hne : h ≠ [])
    (port : Option UInt16) : readHostport (h ++ ConnectionConfig.portText port) = (h, port) := by
  obtain ⟨a, rest, rfl⟩ := List.exists_cons_of_ne_nil hne
  unfold readHostport
  rw [if_neg (show (a :: rest ++ ConnectionConfig.portText port).head? ≠ some 91 from hopen)]
  cases port with
  | none =>
    have htext : a :: rest ++ ConnectionConfig.portText none = a :: rest := List.append_nil _
    rw [htext, Delimited.rsplitOnce_none hcolon]
  | some port =>
    have hdigits : (58 : UInt8) ∉ ByteText.decimal port.toNat := fun hmem =>
      absurd (decimal_digits hmem) (by decide)
    have hsplit : rsplitOnce 58 (a :: rest ++ ConnectionConfig.portText (some port)) =
        some (a :: rest, ByteText.decimal port.toNat) := Delimited.rsplitOnce_append _ hdigits
    rw [hsplit]
    dsimp only
    rw [parseU16_decimal]

theorem readHostport_literal {x : Bytes} (hclose : 93 ∉ x) (port : Option UInt16) :
    readHostport ([91] ++ x ++ [93] ++ ConnectionConfig.portText port) = (x, port) := by
  have hshape : [91] ++ x ++ [93] ++ ConnectionConfig.portText port =
      91 :: (x ++ 93 :: ConnectionConfig.portText port) := by simp
  unfold readHostport
  rw [hshape, List.head?_cons, if_pos rfl, List.tail_cons, Delimited.splitOnce_append hclose]
  cases port with
  | none => rfl
  | some port =>
    show (x, if some (58 : UInt8) = some 58 then parseU16 (ByteText.decimal port.toNat) else none) = _
    rw [if_pos rfl, parseU16_decimal]

/-! ## Hosts -/

/-- A name or an address without colons, or an IPv6 literal with its brackets or without. -/
inductive HostForm : Bytes → Prop where
  | name {h : Bytes} (hcolon : 58 ∉ h) (hopen : h.head? ≠ some 91) : HostForm h
  | literal {x : Bytes} (hcolon : 58 ∈ x) (hclose : 93 ∉ x) (hopen : x.head? ≠ some 91) : HostForm x
  | bracketed {x : Bytes} (hcolon : 58 ∈ x) (hclose : 93 ∉ x) (hopen : x.head? ≠ some 91) :
      HostForm ([91] ++ x ++ [93])

/-- None of `@ / ? #`. -/
def HostPlain (h : Bytes) : Prop := ∀ d ∈ h, d ∉ [64, 47, 63, 35]

/-- The host can stand in a URL as it is. -/
structure HostWritten (h : Bytes) : Prop where
  plain : HostPlain h
  form : HostForm h

theorem bracketHost_literal {x : Bytes} (hcolon : 58 ∈ x) (hopen : x.head? ≠ some 91) :
    bracketHost x = [91] ++ x ++ [93] := if_pos ⟨hcolon, hopen⟩

theorem bracketHost_plain {h : Bytes} (hh : HostPlain h) : HostPlain (bracketHost h) := by
  intro d hd
  unfold bracketHost at hd
  split at hd
  · simp only [List.mem_append, List.mem_singleton] at hd
    rcases hd with (rfl | hd) | rfl
    · decide
    · exact hh d hd
    · decide
  · exact hh d hd

/-- **The host and the port are read back**, the brackets of a literal apart. -/
theorem readHostport_host {h : Bytes} (hh : HostForm h) (hne : h ≠ []) (port : Option UInt16) :
    ∃ host, readHostport (bracketHost h ++ ConnectionConfig.portText port) = (host, port) ∧
      bracketHost host = bracketHost h := by
  cases hh with
  | name hcolon hopen =>
    have hplain : bracketHost h = h := if_neg fun hand => hcolon hand.1
    rw [hplain]
    exact ⟨h, readHostport_name hcolon hopen hne port, hplain⟩
  | literal hcolon hclose hopen =>
    rw [bracketHost_literal hcolon hopen]
    exact ⟨h, readHostport_literal hclose port, bracketHost_literal hcolon hopen⟩
  | @bracketed x hcolon hclose hopen =>
    have hsame : bracketHost ([91] ++ x ++ [93]) = [91] ++ x ++ [93] := if_neg fun hand => hand.2 rfl
    rw [hsame]
    exact ⟨x, readHostport_literal hclose port, bracketHost_literal hcolon hopen⟩

theorem HostPlain.subset {h l : Bytes} (hh : HostPlain h) (hsub : ∀ d ∈ l, d ∈ h) : HostPlain l :=
  fun d hd => hh d (hsub d hd)

theorem readHostport_subset (hostport : Bytes) : ∀ d ∈ (readHostport hostport).1, d ∈ hostport := by
  intro d hd
  unfold readHostport at hd
  split at hd
  · have htail : ∀ {e : UInt8}, e ∈ hostport.tail → e ∈ hostport := List.mem_of_mem_tail
    rcases Delimited.splitOnce_cases 93 hostport.tail with ⟨hnone, -⟩ | ⟨p, q, hsome, hcut, -⟩
    · rw [hnone] at hd
      exact htail hd
    · rw [hsome] at hd
      exact htail (hcut ▸ List.mem_append_left _ hd)
  · rcases Delimited.rsplitOnce_cases 58 hostport with ⟨hnone, -⟩ | ⟨p, q, hsome, hcut, -⟩
    · rw [hnone] at hd
      exact hd
    · rw [hsome] at hd
      rw [hcut]
      exact List.mem_append_left _ hd

/-- **A host that is read** has none of the bytes that cut a URL. -/
theorem parseConnStr_host {input : Bytes} {p : ParsedDsn} (h : parseConnStr input = some p)
    (hnet : isFile p.kind = false) : HostPlain p.host := by
  unfold parseConnStr at h
  dsimp only at h
  cases hscheme : ByteText.splitOnce (ascii "://") (trim input) with
  | none =>
    rw [hscheme] at h
    cases h
  | some cut =>
    obtain ⟨scheme, rest⟩ := cut
    rw [hscheme] at h
    dsimp only at h
    split at h
    · rename_i hfile
      rw [← Option.some.inj h] at hnet
      exact absurd (hfile.symm.trans hnet) (by decide)
    obtain rfl := Option.some.inj h
    dsimp only
    generalize htext : (firstPiece isTail rest).dropWhile (· == 47) = text
    have htail : ∀ d ∈ text, isTail d = false := by
      intro d hd
      rw [← htext] at hd
      exact firstPiece_clear (List.dropWhile_sublist _ |>.subset hd)
    have hauthority : ∀ d ∈ ((Delimited.splitOnce 47 text).getD (text, [])).1, d ∈ text ∧ d ≠ 47 := by
      intro d hd
      rcases Delimited.splitOnce_cases 47 text with ⟨hnone, hnot⟩ | ⟨a, q, hsome, hcut, hnot⟩
      · rw [hnone] at hd
        exact ⟨hd, fun heq => hnot (heq ▸ hd)⟩
      · rw [hsome] at hd
        exact ⟨hcut ▸ List.mem_append_left _ hd, fun heq => hnot (heq ▸ hd)⟩
    generalize ((Delimited.splitOnce 47 text).getD (text, [])).1 = authority at hauthority ⊢
    have hhostport : ∀ d ∈ (splitAuthority authority).2, d ∈ authority ∧ d ≠ 64 := by
      intro d hd
      unfold splitAuthority at hd
      rcases Delimited.rsplitOnce_cases 64 authority with ⟨hnone, hnot⟩ | ⟨a, q, hsome, hcut, hnot⟩
      · rw [hnone] at hd
        exact ⟨hd, fun heq => hnot (heq ▸ hd)⟩
      rw [hsome] at hd
      refine ⟨?_, fun heq => hnot (heq ▸ hd)⟩
      rw [hcut]
      exact List.mem_append_right _ (List.mem_cons_of_mem _ hd)
    intro d hd
    obtain ⟨hin, hat⟩ := hhostport d (readHostport_subset _ d hd)
    obtain ⟨hin, hslash⟩ := hauthority d hin
    have hcut := htail d hin
    simp only [isTail, Bool.or_eq_false_iff, beq_eq_false_iff_ne] at hcut
    simp [hat, hslash, hcut.1, hcut.2]

theorem bracketHost_cases (h : Bytes) :
    (bracketHost h = [91] ++ h ++ [93] ∧ 58 ∈ h ∧ h.head? ≠ some 91) ∨ bracketHost h = h := by
  by_cases hlit : 58 ∈ h ∧ h.head? ≠ some 91
  · exact Or.inl ⟨if_pos hlit, hlit⟩
  · exact Or.inr (if_neg hlit)

theorem portText_close {port : Option UInt16} : 93 ∉ ConnectionConfig.portText port := by
  intro hmem
  rcases portText_clear hmem with heq | hdigit
  · exact absurd heq (by decide)
  · exact absurd hdigit (by decide)

/-- A literal that was put in brackets and comes back holds no closing bracket. -/
theorem literal_of_read {h : Bytes} (port : Option UInt16) (hcolon : 58 ∈ h)
    (hopen : h.head? ≠ some 91)
    (hsame : bracketHost (readHostport (bracketHost h ++ ConnectionConfig.portText port)).1 =
      bracketHost h) : 93 ∉ h := by
  intro hclose
  obtain ⟨x, y, rfl, hx⟩ := List.eq_append_cons_of_mem hclose
  have htext : bracketHost (x ++ 93 :: y) ++ ConnectionConfig.portText port =
      91 :: (x ++ 93 :: (y ++ 93 :: ConnectionConfig.portText port)) := by
    rw [bracketHost_literal hcolon hopen]
    simp
  have hread : (readHostport (91 :: (x ++ 93 :: (y ++ 93 :: ConnectionConfig.portText port)))).1 =
      x := by
    unfold readHostport
    rw [List.head?_cons, if_pos rfl, List.tail_cons, Delimited.splitOnce_append hx]
  rw [htext, hread, bracketHost_literal hcolon hopen] at hsame
  have hlen := congrArg List.length hsame
  rcases bracketHost_cases x with ⟨hlit, -⟩ | hplain
  · rw [hlit] at hlen
    simp at hlen
  · rw [hplain] at hlen
    simp only [List.length_append, List.length_cons] at hlen
    omega

/-- A host in brackets that comes back is a literal in brackets. -/
theorem bracketed_of_read {t : Bytes} (port : Option UInt16)
    (hsame : bracketHost (readHostport (91 :: t ++ ConnectionConfig.portText port)).1 = 91 :: t) :
    HostForm (91 :: t) := by
  have hread : (readHostport (91 :: t ++ ConnectionConfig.portText port)).1 =
      ((Delimited.splitOnce 93 (t ++ ConnectionConfig.portText port)).map Prod.fst).getD
        (t ++ ConnectionConfig.portText port) := by
    unfold readHostport
    rw [List.cons_append, List.head?_cons, if_pos rfl, List.tail_cons]
    cases Delimited.splitOnce 93 (t ++ ConnectionConfig.portText port) <;> rfl
  rw [hread] at hsame
  have hportlen : (ConnectionConfig.portText port).length ≠ 1 := by
    cases port with
    | none => decide
    | some port =>
      show (ByteText.decimal port.toNat).length + 1 ≠ 1
      have := List.length_pos_of_ne_nil (decimal_ne_nil port.toNat)
      omega
  rcases Delimited.splitOnce_cases 93 (t ++ ConnectionConfig.portText port) with
    ⟨hnone, hnot⟩ | ⟨x, q, hsome, hcut, hx⟩
  · -- No closing bracket: the port would be taken for a part of the host.
    rw [hnone, Option.map_none, Option.getD_none] at hsame
    rcases bracketHost_cases (t ++ ConnectionConfig.portText port) with ⟨hlit, -⟩ | hplain
    · rw [hlit] at hsame
      have hmem : 93 ∈ t := by
        have htail := (List.cons.inj hsame).2
        rw [← htail]
        simp
      exact absurd (List.mem_append_left _ hmem) hnot
    · rw [hplain] at hsame
      have hlen := congrArg List.length hsame
      rw [List.length_append, List.length_cons] at hlen
      exact absurd (by omega) hportlen
  · rw [hsome, Option.map_some, Option.getD_some] at hsame
    rcases bracketHost_cases x with ⟨hlit, hcolon, hopen⟩ | hplain
    · rw [hlit] at hsame
      rw [← hsame]
      exact HostForm.bracketed hcolon hx hopen
    rw [hplain] at hsame
    have hmem : 93 ∈ t ++ ConnectionConfig.portText port := by
      rw [hcut]
      simp
    rcases List.mem_append.mp hmem with ht | hp
    · exact absurd (hsame ▸ List.mem_cons_of_mem 91 ht) hx
    · exact absurd hp portText_close

/-- A host that comes back, the brackets of a literal apart, is a name or an IPv6 literal. -/
theorem hostForm_of_read {h : Bytes} (port : Option UInt16)
    (hsame : bracketHost (readHostport (bracketHost h ++ ConnectionConfig.portText port)).1 =
      bracketHost h) : HostForm h := by
  rcases bracketHost_cases h with ⟨-, hcolon, hopen⟩ | hplain
  · exact HostForm.literal hcolon (literal_of_read port hcolon hopen hsame) hopen
  by_cases hopen : h.head? = some 91
  · obtain ⟨t, rfl⟩ : ∃ t, h = 91 :: t := by
      cases h with
      | nil => cases hopen
      | cons a t => exact ⟨t, by rw [Option.some.inj hopen]⟩
    rw [hplain] at hsame
    exact bracketed_of_read port hsame
  · refine HostForm.name (fun hcolon => ?_) hopen
    have hlen := congrArg List.length ((bracketHost_literal hcolon hopen).symm.trans hplain)
    rw [List.length_append, List.length_append, List.length_singleton] at hlen
    omega

end RedDb.Driver.Dsn
