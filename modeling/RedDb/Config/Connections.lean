import Mathlib
import RedDb.Driver.Dsn

/-!
# RedDb — the saved connections

The list of connections, the file it is saved to, and the keychain that holds the passwords by
connection id. A file from before the keychain still carries passwords: loading it moves them all,
or leaves them all where they are. The form that is saved has no password.

* `storeAll_spec` — what a migration leaves in the keychain;
* `Inv.step` — every password is still held where the list and the file look for it;
* `passwords_kept` — over every run whose saves meet no password that is only in memory.
-/

namespace RedDb.Config

open ByteText RedDb.Sql
open RedDb.Driver.Dsn (isFile defaultPort parseConnStr)

/-! ## Connections -/

structure ConnectionConfig where
  name : Bytes
  kind : DbKind
  host : Bytes
  port : Option UInt16
  user : Bytes
  password : Bytes
  database : Bytes
  tls : Bool
  sentinelMaster : Bytes

/-- A connection of the list. `conn` says which one it is; no function reads it. -/
structure StoredConnection where
  conn : Nat
  id : Bytes
  config : ConnectionConfig
  lastAccessed : Option Nat
  pinned : Bool

/-- A connection as the file has it, a legacy `dsn` or password included. -/
structure RawConnection where
  conn : Nat
  id : Bytes
  name : Bytes
  kind : DbKind
  dsn : Option Bytes
  host : Bytes
  port : Option UInt16
  user : Bytes
  password : Bytes
  database : Bytes
  tls : Bool
  sentinelMaster : Bytes
  lastAccessed : Option Nat
  pinned : Bool

namespace RawConnection

def config (r : RawConnection) : ConnectionConfig :=
  ⟨r.name, r.kind, r.host, r.port <|> defaultPort r.kind, r.user, r.password, r.database, r.tls, r.sentinelMaster⟩

/-- The legacy `dsn` fills the fields when they are absent. -/
def migrated (r : RawConnection) (dsn : Bytes) : ConnectionConfig :=
  if isFile r.kind then { r.config with database := dsn }
  else
    match parseConnStr dsn with
    | some p => { r.config with
        kind := p.kind, host := p.host, port := p.port, user := p.user, password := p.password
        database := p.database, tls := p.tls }
    | none => { r.config with database := dsn }

def intoStored (r : RawConnection) : StoredConnection where
  conn := r.conn
  id := r.id
  config :=
    match r.dsn with
    | some dsn => if r.host.isEmpty && r.database.isEmpty then r.migrated dsn else r.config
    | none => r.config
  lastAccessed := r.lastAccessed
  pinned := r.pinned

end RawConnection

/-- The form that is saved, without a password. -/
def writeConnection (s : StoredConnection) : RawConnection where
  conn := s.conn
  id := s.id
  name := s.config.name
  kind := s.config.kind
  dsn := none
  host := s.config.host
  port := s.config.port
  user := s.config.user
  password := []
  database := s.config.database
  tls := s.config.tls
  sentinelMaster := s.config.sentinelMaster
  lastAccessed := s.lastAccessed
  pinned := s.pinned

/-! ## The keychain -/

abbrev Keychain := Bytes → Option Bytes

def sshPasswordAccount (id : Bytes) : Bytes := id ++ ascii "#ssh-pw"

def sshPassphraseAccount (id : Bytes) : Bytes := id ++ ascii "#ssh-key"

def proxyPasswordAccount (id : Bytes) : Bytes := id ++ ascii "#proxy-pw"

/-- The accounts of a connection beside its id. -/
def secretAccounts (id : Bytes) : List Bytes :=
  [sshPasswordAccount id, sshPassphraseAccount id, proxyPasswordAccount id]

def accounts (id : Bytes) : List Bytes := id :: secretAccounts id

def Keychain.write (k : Keychain) (account secret : Bytes) : Keychain := Function.update k account (some secret)

/-- The accounts are removed one after another, up to the one that fails. -/
def Keychain.deleteAll (k : Keychain) (id : Bytes) (removals : Nat) : Keychain :=
  fun account => if account ∈ (accounts id).take removals then none else k account

/-! ## Loading and saving -/

/-- The ids that are drawn, from the `n`-th on, for the connections that have none. -/
@[grind =] def assignIds (newId : Nat → Bytes) (n : Nat) : List StoredConnection → List StoredConnection
  | [] => []
  | c :: connections =>
    if c.id = [] then { c with id := newId n } :: assignIds newId (n + 1) connections
    else c :: assignIds newId n connections

/-- Write the passwords up to the first that fails, by the position of each. -/
def storeAll (ok : Nat → Bool) (i : Nat) (k : Keychain) : List StoredConnection → Keychain × Bool
  | [] => (k, true)
  | c :: connections =>
    if ok i then storeAll ok (i + 1) (k.write c.id c.config.password) connections else (k, false)

def StoredConnection.clear (c : StoredConnection) : StoredConnection := { c with config := { c.config with password := [] } }

/-- The connections that carry a password. -/
def withPassword (connections : List StoredConnection) : List StoredConnection :=
  connections.filter fun c => c.config.password ≠ []

/-- Passwords move to the keychain, all or none: the list, the keychain, and whether the file is to be
rewritten. -/
def migrateSecrets (newId : Nat → Bytes) (n : Nat) (ok : Nat → Bool) (k : Keychain) (connections : List StoredConnection) :
    List StoredConnection × Keychain × Bool :=
  let assigned := assignIds newId n connections
  let idAssigned := connections.any fun c => c.id == []
  if withPassword assigned = [] then (assigned, k, idAssigned)
  else
    match storeAll ok 0 k (withPassword assigned) with
    | (k, false) => (assigned, k, false)
    | (k, true) => (assigned.map fun c => if c.config.password ≠ [] then c.clear else c, k, true)

/-- The order of the list: the last used first, and then those never used. -/
def usedAt (c : StoredConnection) : Nat := c.lastAccessed.elim 0 (· + 1)

def sortUsed (connections : List StoredConnection) : List StoredConnection :=
  connections.mergeSort fun a b => usedAt b ≤ usedAt a

/-! ## Runs -/

/-- The file, the list in memory and the keychain, with the number of ids drawn and of connections
there have been; and the passwords that the user has stored, by connection. -/
structure World where
  file : List RawConnection
  connections : List StoredConnection
  keychain : Keychain
  drawn : Nat
  made : Nat
  stored : List (Nat × Bytes)

namespace World

def save (w : World) : World := { w with file := w.connections.map writeConnection }

/-- Start, or read the file again. -/
def load (newId : Nat → Bytes) (ok : Nat → Bool) (w : World) : World :=
  match migrateSecrets newId w.drawn ok w.keychain (w.file.map RawConnection.intoStored) with
  | (connections, keychain, changed) => {
      w with
      file := if changed then connections.map writeConnection else w.file
      connections := sortUsed connections
      keychain
      drawn := w.drawn + (w.file.filter fun r => r.id == []).length }

/-- The password of a connection, from memory or else from the keychain. -/
def password (w : World) (readOk : Bool) (c : StoredConnection) : Bytes :=
  if c.config.password = [] && !isFile c.config.kind && readOk then (w.keychain c.id).getD [] else c.config.password

/-- Route a password to the keychain; memory keeps it if that fails. -/
def storeCredential (w : World) (writeOk : Bool) (c : StoredConnection) (password : Bytes) : StoredConnection × Keychain :=
  if !isFile c.config.kind && password ≠ [] then
    if writeOk then (c, w.keychain.write c.id password)
    else ({ c with config := { c.config with password } }, w.keychain)
  else (c, Function.update w.keychain c.id none)

def copySuffix : Bytes := ascii " copy"

inductive Event where
  | load (ok : Nat → Bool)
  | connect (index now : Nat)
  | togglePin (index : Nat)
  | duplicate (index : Nat) (readOk writeOk : Bool)
  | delete (index removals : Nat)

/-- What an event does to the list before it is saved, none if there is no such entry. -/
def change (newId : Nat → Bytes) (w : World) : Event → Option World
  | .load _ => none
  | .connect index now => w.connections[index]?.map fun _ =>
      { w with connections := w.connections.modify index fun c => { c with lastAccessed := some now } }
  | .togglePin index => w.connections[index]?.map fun _ =>
      { w with connections := w.connections.modify index fun c => { c with pinned := !c.pinned } }
  | .duplicate index readOk writeOk => w.connections[index]?.map fun c =>
      let password := w.password readOk c
      let copy : StoredConnection :=
        ⟨w.made, newId w.drawn, { c.config with name := c.config.name ++ copySuffix }, none, false⟩
      match w.storeCredential writeOk copy password with
      | (copy, keychain) => {
          w with
          connections := w.connections ++ [copy]
          keychain
          drawn := w.drawn + 1
          made := w.made + 1
          stored := if !isFile c.config.kind && password ≠ [] then w.stored ++ [(w.made, password)] else w.stored }
  | .delete index removals => w.connections[index]?.map fun c =>
      { w with
        connections := w.connections.eraseIdx index
        keychain := w.keychain.deleteAll c.id removals
        stored := w.stored.filter fun p => p.1 ≠ c.conn }

def step (newId : Nat → Bytes) (w : World) : Event → World
  | .load ok => w.load newId ok
  | event => ((w.change newId event).map save).getD w

def run (newId : Nat → Bytes) (w : World) (events : List Event) : World := events.foldl (step newId) w

/-- The password that a restart finds: from the file, or from the keychain under the id it holds. -/
def retrieved (k : Keychain) (r : RawConnection) : Option Bytes :=
  if r.intoStored.config.password ≠ [] then some r.intoStored.config.password
  else if r.id = [] then none
  else k r.id

/-- Each connection's password can be retrieved after a restart. -/
def Retrievable (w : World) : Prop :=
  ∀ p ∈ w.stored, ∃ r ∈ w.file, r.conn = p.1 ∧ retrieved w.keychain r = some p.2

/-- The process starts on a file: its connections are numbered, with the password of each. -/
def start (file : List RawConnection) (keychain : Keychain) : World where
  file := file.zipIdx.map fun (r, i) => { r with conn := i }
  connections := []
  keychain := keychain
  drawn := 0
  made := file.length
  stored := file.zipIdx.filterMap fun (r, i) => (retrieved keychain r).map fun p => (i, p)

/-- Every password that a connection of the list carries is in the keychain too. -/
def Settled (w : World) : Prop :=
  ∀ c ∈ w.connections, c.config.password ≠ [] → w.keychain c.id = some c.config.password

/-- The list that an event saves is settled, and an entry that is deleted has no account that is another's id. -/
def Clear (newId : Nat → Bytes) (w : World) (event : Event) : Prop :=
  (∀ w', w.change newId event = some w' → w'.Settled) ∧
    ∀ index removals c, event = .delete index removals → w.connections[index]? = some c →
      ∀ c' ∈ w.connections, c'.id ∉ secretAccounts c.id

def ClearRun (newId : Nat → Bytes) (w : World) : List Event → Prop
  | [] => True
  | event :: events => w.Clear newId event ∧ (w.step newId event).ClearRun newId events

end World

/-! ## Ids -/

/-- The ids that are drawn are new. -/
structure NewIds (newId : Nat → Bytes) (file : List RawConnection) : Prop where
  injective : Function.Injective newId
  ne_nil : ∀ n, newId n ≠ []
  unused : ∀ r ∈ file, ∀ n, r.id ≠ newId n

/-- The connections of the file that have an id have different ones. -/
def DistinctIds (file : List RawConnection) : Prop := ((file.map RawConnection.id).filter fun id => id ≠ []).Nodup

variable {newId : Nat → Bytes} {n : Nat} {ok : Nat → Bool} {k : Keychain} {cs : List StoredConnection}

def blanks (cs : List StoredConnection) : Nat := (cs.filter fun c => c.id == []).length

theorem mem_assignIds {c : StoredConnection} (h : c ∈ assignIds newId n cs) :
    ∃ c₀ ∈ cs, c.conn = c₀.conn ∧ c.config = c₀.config ∧
      (c₀.id ≠ [] ∧ c.id = c₀.id ∨ ∃ m, n ≤ m ∧ m < n + blanks cs ∧ c.id = newId m) := by
  induction cs generalizing n with
  | nil => exact absurd h List.not_mem_nil
  | cons d cs ih =>
    rw [assignIds] at h
    have hblanks : blanks cs ≤ blanks (d :: cs) := by
      unfold blanks
      rw [List.filter_cons]
      split <;> simp
    split at h
    · rename_i hblank
      have hone : blanks (d :: cs) = blanks cs + 1 := by
        unfold blanks
        rw [List.filter_cons, if_pos (by simp [hblank]), List.length_cons]
      obtain rfl | h := List.mem_cons.mp h
      · exact ⟨d, List.mem_cons_self, rfl, rfl, Or.inr ⟨n, Nat.le_refl n, by omega, rfl⟩⟩
      obtain ⟨c₀, hc₀, hconn, hconfig, hid⟩ := ih h
      refine ⟨c₀, List.mem_cons_of_mem _ hc₀, hconn, hconfig, hid.imp_right ?_⟩
      rintro ⟨m, hm, hlt, hid⟩
      exact ⟨m, by omega, by omega, hid⟩
    · rename_i hid
      obtain rfl | h := List.mem_cons.mp h
      · exact ⟨c, List.mem_cons_self, rfl, rfl, Or.inl ⟨hid, rfl⟩⟩
      obtain ⟨c₀, hc₀, hconn, hconfig, hid⟩ := ih h
      refine ⟨c₀, List.mem_cons_of_mem _ hc₀, hconn, hconfig, hid.imp_right ?_⟩
      rintro ⟨m, hm, hlt, hid⟩
      exact ⟨m, hm, by omega, hid⟩

theorem assignIds_mem {c₀ : StoredConnection} (h : c₀ ∈ cs) :
    ∃ c ∈ assignIds newId n cs, c.conn = c₀.conn ∧ c.config = c₀.config ∧ (c₀.id ≠ [] → c.id = c₀.id) := by
  induction cs generalizing n with
  | nil => exact absurd h List.not_mem_nil
  | cons d cs ih =>
    rw [assignIds]
    obtain rfl | h := List.mem_cons.mp h
    · split
      · rename_i hblank
        exact ⟨_, List.mem_cons_self, rfl, rfl, fun hid => absurd hblank hid⟩
      · exact ⟨_, List.mem_cons_self, rfl, rfl, fun _ => rfl⟩
    · split
      · obtain ⟨c, hc, hrest⟩ := ih (n := n + 1) h
        exact ⟨c, List.mem_cons_of_mem _ hc, hrest⟩
      · obtain ⟨c, hc, hrest⟩ := ih (n := n) h
        exact ⟨c, List.mem_cons_of_mem _ hc, hrest⟩

theorem assignIds_ids (hinj : Function.Injective newId) (hids : ((cs.map StoredConnection.id).filter fun id => id ≠ []).Nodup)
    (hunused : ∀ c ∈ cs, ∀ m, n ≤ m → c.id ≠ newId m) : ((assignIds newId n cs).map StoredConnection.id).Nodup := by
  induction cs generalizing n with
  | nil => exact List.nodup_nil
  | cons d cs ih =>
    have hrest : ∀ m, n ≤ m → ((assignIds newId m cs).map StoredConnection.id).Nodup := fun m hm =>
      ih (hids.sublist (List.Sublist.filter _ (List.sublist_cons_self _ _)))
        fun c hc l hl => hunused c (List.mem_cons_of_mem _ hc) l (by omega)
    rw [assignIds]
    split
    · rw [List.map_cons, List.nodup_cons]
      refine ⟨fun hmem => ?_, hrest _ (by omega)⟩
      obtain ⟨c, hc, hid⟩ := List.mem_map.mp hmem
      obtain ⟨c₀, hc₀, -, -, ⟨-, heq⟩ | ⟨m, hm, -, heq⟩⟩ := mem_assignIds hc
      · exact hunused c₀ (List.mem_cons_of_mem _ hc₀) n (Nat.le_refl n) (heq.symm.trans hid)
      · have := hinj (heq.symm.trans hid)
        omega
    · rename_i hne
      rw [List.map_cons, List.nodup_cons]
      refine ⟨fun hmem => ?_, hrest _ (Nat.le_refl n)⟩
      obtain ⟨c, hc, hid⟩ := List.mem_map.mp hmem
      obtain ⟨c₀, hc₀, -, -, ⟨-, heq⟩ | ⟨m, hm, -, heq⟩⟩ := mem_assignIds hc
      · rw [List.map_cons, List.filter_cons, if_pos (by simpa using hne), List.nodup_cons] at hids
        exact hids.1 (List.mem_filter.mpr ⟨List.mem_map.mpr ⟨c₀, hc₀, heq.symm.trans hid⟩, by simpa using hne⟩)
      · exact hunused d List.mem_cons_self m hm (hid.symm.trans heq)

/-! ## The migration -/

/-- The password that the list and the keychain hold for a connection. -/
def held (k : Keychain) (c : StoredConnection) : Option Bytes :=
  if c.config.password ≠ [] then some c.config.password else k c.id

theorem storeAll_other {i : Nat} {account : Bytes} (h : account ∉ cs.map StoredConnection.id) :
    (storeAll ok i k cs).1 account = k account := by
  induction cs generalizing i k with
  | nil => rfl
  | cons c cs ih =>
    rw [List.map_cons, List.mem_cons, not_or] at h
    rw [storeAll]
    split
    · rw [ih h.2, Keychain.write, Function.update_of_ne h.1]
    · rfl

/-- A migration that succeeds puts every password under its connection's id. -/
theorem storeAll_spec {i : Nat} {c : StoredConnection} (hids : (cs.map StoredConnection.id).Nodup)
    (hok : (storeAll ok i k cs).2 = true) (hc : c ∈ cs) : (storeAll ok i k cs).1 c.id = some c.config.password := by
  induction cs generalizing i k with
  | nil => exact absurd hc List.not_mem_nil
  | cons d cs ih =>
    rw [List.map_cons, List.nodup_cons] at hids
    rw [storeAll] at hok ⊢
    split at hok
    · rename_i hi
      rw [if_pos hi]
      obtain rfl | hc := List.mem_cons.mp hc
      · rw [storeAll_other hids.1, Keychain.write, Function.update_self]
      · exact ih hids.2 hok hc
    · exact Bool.noConfusion hok

/-- What a migration keeps of each connection, the list being `a` with its ids. -/
structure Migrated (a : List StoredConnection) (k : Keychain) (connections : List StoredConnection) (k' : Keychain)
    (changed : Bool) : Prop where
  ids : connections.map StoredConnection.id = a.map StoredConnection.id
  kept : ∀ c ∈ a, ∃ c' ∈ connections, c'.conn = c.conn ∧ c'.id = c.id ∧ held k' c' = held k c ∧
    (changed = true → k' c.id = held k c)
  other : ∀ c ∈ a, c.config.password = [] → k' c.id = k c.id

theorem migrateSecrets_spec (hids : ((assignIds newId n cs).map StoredConnection.id).Nodup) :
    Migrated (assignIds newId n cs) k (migrateSecrets newId n ok k cs).1 (migrateSecrets newId n ok k cs).2.1
      (migrateSecrets newId n ok k cs).2.2 := by
  generalize ha : assignIds newId n cs = a at hids ⊢
  have hsub : ((withPassword a).map StoredConnection.id).Nodup := hids.sublist (List.filter_sublist.map _)
  have hout : ∀ c ∈ a, c.config.password = [] → c.id ∉ (withPassword a).map StoredConnection.id := by
    intro c hc hnone hmem
    obtain ⟨d, hd, hid⟩ := List.mem_map.mp hmem
    obtain ⟨hd, hpassword⟩ := List.mem_filter.mp hd
    rw [List.inj_on_of_nodup_map hids hd hc hid] at hpassword
    simp [hnone] at hpassword
  have hkeep (c) (hc : c ∈ a) (hnone : c.config.password = []) :
      (storeAll ok 0 k (withPassword a)).1 c.id = k c.id := storeAll_other (hout c hc hnone)
  unfold migrateSecrets
  rw [ha]
  dsimp only
  split
  · rename_i hnone
    have hempty : ∀ c ∈ a, c.config.password = [] := by
      intro c hc
      by_contra hne
      exact absurd (List.mem_filter.mpr ⟨hc, by simpa using hne⟩) (hnone ▸ List.not_mem_nil)
    refine ⟨rfl, fun c hc => ⟨c, hc, rfl, rfl, rfl, fun _ => ?_⟩, fun _ _ _ => rfl⟩
    rw [held, if_neg (not_not.mpr (hempty c hc))]
  · split
    · rename_i k' hstore
      have hother : ∀ c ∈ a, c.config.password = [] → k' c.id = k c.id := by rwa [hstore] at hkeep
      refine ⟨rfl, fun c hc => ⟨c, hc, rfl, rfl, ?_, Bool.noConfusion⟩, hother⟩
      unfold held
      split
      · rfl
      · rename_i hnone
        exact hother c hc (not_not.mp hnone)
    · rename_i k' hstore
      have hother : ∀ c ∈ a, c.config.password = [] → k' c.id = k c.id := by rwa [hstore] at hkeep
      have hput : ∀ c ∈ a, k' c.id = held k c := by
        intro c hc
        unfold held
        split
        · rename_i hpassword
          have := storeAll_spec (k := k) hsub (congrArg Prod.snd hstore)
            (List.mem_filter.mpr ⟨hc, by simpa using hpassword⟩)
          rwa [hstore] at this
        · rename_i hnone
          exact hother c hc (not_not.mp hnone)
      refine ⟨?_, fun c hc => ⟨_, List.mem_map_of_mem hc, ?_, ?_, ?_, fun _ => hput c hc⟩, hother⟩
      · rw [List.map_map]
        refine List.map_congr_left fun c _ => ?_
        show (if _ then _ else _ : StoredConnection).id = _
        split <;> rfl
      · split <;> rfl
      · split <;> rfl
      · rw [← hput c hc]
        split
        · rfl
        · rename_i hnone
          rw [held, if_neg hnone]

/-! ## Runs keep the passwords -/

namespace World

variable {w w' : World} {event : Event}

/-- The file holds every password, and has distinct ids, none of them one to be drawn. -/
structure FileInv (newId : Nat → Bytes) (w : World) : Prop where
  ids : DistinctIds w.file
  unused : ∀ r ∈ w.file, ∀ m, w.drawn ≤ m → r.id ≠ newId m
  retrievable : w.Retrievable

/-- So does the list in memory, whose connections all have an id. -/
structure ListInv (newId : Nat → Bytes) (w : World) : Prop where
  ids : (w.connections.map StoredConnection.id).Nodup
  ids_ne : ∀ c ∈ w.connections, c.id ≠ []
  unused : ∀ c ∈ w.connections, ∀ m, w.drawn ≤ m → c.id ≠ newId m
  held : ∀ p ∈ w.stored, ∃ c ∈ w.connections, c.conn = p.1 ∧ held w.keychain c = some p.2

structure Inv (newId : Nat → Bytes) (w : World) : Prop where
  file : FileInv newId w
  list : ListInv newId w

theorem retrieved_write {c : StoredConnection} (hid : c.id ≠ []) : retrieved k (writeConnection c) = k c.id := by
  have hpassword : (writeConnection c).intoStored.config.password = [] := rfl
  rw [retrieved, if_neg (not_not.mpr hpassword)]
  exact if_neg hid

theorem distinctIds_write (h : (cs.map StoredConnection.id).Nodup) : DistinctIds (cs.map writeConnection) := by
  rw [DistinctIds, List.map_map]
  exact List.Nodup.filter _ h

/-- A list that holds every password in the keychain may be saved. -/
theorem ListInv.save (h : ListInv newId w) (hsettled : w.Settled) : Inv newId w.save where
  list := ⟨h.ids, h.ids_ne, h.unused, h.held⟩
  file.ids := distinctIds_write h.ids
  file.unused r hr m hm := by
    obtain ⟨c, hc, rfl⟩ := List.mem_map.mp hr
    exact h.unused c hc m hm
  file.retrievable p hp := by
    obtain ⟨c, hc, hconn, hheld⟩ := h.held p hp
    refine ⟨_, List.mem_map_of_mem hc, hconn, ?_⟩
    rw [retrieved_write (h.ids_ne c hc), ← hheld]
    show w.keychain c.id = _
    unfold Config.held
    split
    · rename_i hpassword
      exact hsettled c hc hpassword
    · rfl

/-- What passwords are looked up by. -/
def core (c : StoredConnection) : Nat × Bytes × Bytes := (c.conn, c.id, c.config.password)

theorem map_modify {α β : Type} {g : α → β} {f : α → α} (h : ∀ a, g (f a) = g a) (l : List α) (i : Nat) :
    (l.modify i f).map g = l.map g := by
  refine List.ext_getElem? fun j => ?_
  rw [List.getElem?_map, List.getElem?_map, List.getElem?_modify]
  cases l[j]? with
  | none => rfl
  | some a =>
    show some (g (if i = j then f a else a)) = some (g a)
    split
    · rw [h]
    · rfl

/-- An entry changes in nothing that passwords are looked up by. -/
theorem ListInv.modify (h : ListInv newId w) (index : Nat) {f : StoredConnection → StoredConnection}
    (hf : ∀ c, core (f c) = core c) :
    ListInv newId { w with connections := w.connections.modify index f } := by
  have hcore : (w.connections.modify index f).map core = w.connections.map core := map_modify hf _ _
  have hids : (w.connections.modify index f).map StoredConnection.id = w.connections.map StoredConnection.id :=
    map_modify (fun c => congrArg (fun t => t.2.1) (hf c)) _ _
  have hid : ∀ c' ∈ w.connections.modify index f, ∃ c ∈ w.connections, c.id = c'.id := fun c' hc' =>
    List.mem_map.mp (hids ▸ List.mem_map_of_mem hc')
  refine ⟨hids ▸ h.ids, fun c' hc' => ?_, fun c' hc' m hm => ?_, fun p hp => ?_⟩
  · obtain ⟨c, hc, heq⟩ := hid c' hc'
    exact heq ▸ h.ids_ne c hc
  · obtain ⟨c, hc, heq⟩ := hid c' hc'
    exact heq ▸ h.unused c hc m hm
  · obtain ⟨c, hc, hconn, hheld⟩ := h.held p hp
    obtain ⟨c', hc', heq⟩ := List.mem_map.mp (hcore.symm ▸ List.mem_map_of_mem hc : core c ∈ _)
    obtain ⟨hconn', htail⟩ := Prod.mk.inj heq
    obtain ⟨hid', hpassword⟩ := Prod.mk.inj htail
    refine ⟨c', hc', hconn'.trans hconn, ?_⟩
    rw [← hheld, Config.held, Config.held, hid', hpassword]

/-- A connection under a new id joins the list. Its password is held, if there is one. -/
theorem ListInv.append (h : ListInv newId w) (hnew : Function.Injective newId) (hne : newId w.drawn ≠ [])
    {c : StoredConnection} (hc : c.id = newId w.drawn) {keychain : Keychain}
    (hkeychain : ∀ id, id ≠ newId w.drawn → keychain id = w.keychain id) {made : Nat} {stored : List (Nat × Bytes)}
    (hstored : ∀ p ∈ stored, p ∈ w.stored ∨ c.conn = p.1 ∧ Config.held keychain c = some p.2) :
    ListInv newId { w with connections := w.connections ++ [c], keychain, drawn := w.drawn + 1, made, stored } := by
  refine ⟨?_, fun d hd => ?_, fun d hd m hm => ?_, fun p hp => ?_⟩
  · show ((w.connections ++ [c]).map StoredConnection.id).Nodup
    rw [List.map_append, List.nodup_append']
    refine ⟨h.ids, List.nodup_singleton _, fun id hid hlast => ?_⟩
    obtain ⟨d, hd, rfl⟩ := List.mem_map.mp hid
    exact h.unused d hd w.drawn (Nat.le_refl _) ((List.mem_singleton.mp hlast).trans hc)
  · obtain hd | hd := List.mem_append.mp hd
    · exact h.ids_ne d hd
    · rw [List.mem_singleton.mp hd, hc]
      exact hne
  · have hlt : w.drawn + 1 ≤ m := hm
    obtain hd | hd := List.mem_append.mp hd
    · exact h.unused d hd m (by omega)
    rw [List.mem_singleton.mp hd, hc]
    intro heq
    have := hnew heq
    omega
  · obtain hp | ⟨hconn, hheld⟩ := hstored p hp
    · obtain ⟨d, hd, hconn, hheld⟩ := h.held p hp
      refine ⟨d, List.mem_append_left _ hd, hconn, ?_⟩
      show Config.held keychain d = some p.2
      rw [← hheld, Config.held, Config.held, hkeychain d.id (h.unused d hd w.drawn (Nat.le_refl _))]
    · exact ⟨c, List.mem_append_right _ (List.mem_singleton_self c), hconn, hheld⟩

/-- An entry is deleted with its accounts, none of which is another's id. -/
theorem ListInv.delete (h : ListInv newId w) {index removals : Nat} {c : StoredConnection}
    (hc : w.connections[index]? = some c) (hapart : ∀ c' ∈ w.connections, c'.id ∉ secretAccounts c.id) :
    ListInv newId { w with
      connections := w.connections.eraseIdx index
      keychain := w.keychain.deleteAll c.id removals
      stored := w.stored.filter fun p => p.1 ≠ c.conn } := by
  have hsub : (w.connections.eraseIdx index).Sublist w.connections := List.eraseIdx_sublist _ _
  refine ⟨h.ids.sublist (hsub.map _), fun d hd => h.ids_ne d (hsub.subset hd), fun d hd => h.unused d (hsub.subset hd),
    fun p hp => ?_⟩
  obtain ⟨hp, hother⟩ := List.mem_filter.mp hp
  have hne : p.1 ≠ c.conn := of_decide_eq_true hother
  obtain ⟨d, hd, hconn, hheld⟩ := h.held p hp
  have hdc : d ≠ c := fun heq => hne (hconn.symm.trans (congrArg StoredConnection.conn heq))
  have hmem : d ∈ w.connections.eraseIdx index := by
    obtain ⟨j, hj⟩ := List.mem_iff_getElem?.mp hd
    refine List.mem_eraseIdx_iff_getElem?.mpr ⟨j, ?_, hj⟩
    rintro rfl
    exact hdc (Option.some.inj (hj.symm.trans hc))
  have hid : d.id ≠ c.id := fun heq => hdc (List.inj_on_of_nodup_map h.ids hd (List.mem_of_getElem? hc) heq)
  have haccount : d.id ∉ (accounts c.id).take removals := fun hin =>
    (List.mem_cons.mp (List.mem_of_mem_take hin)).elim hid (hapart d hd)
  refine ⟨d, hmem, hconn, ?_⟩
  show Config.held (w.keychain.deleteAll c.id removals) d = some p.2
  rw [← hheld, Config.held, Config.held, Keychain.deleteAll, if_neg haccount]

/-- Routing a password touches one account, and the password is held. -/
theorem storeCredential_spec (w : World) (writeOk : Bool) (c : StoredConnection) (password : Bytes) :
    (w.storeCredential writeOk c password).1.conn = c.conn ∧ (w.storeCredential writeOk c password).1.id = c.id ∧
      (∀ id, id ≠ c.id → (w.storeCredential writeOk c password).2 id = w.keychain id) ∧
      ((!isFile c.config.kind && password ≠ []) = true → c.config.password = [] ∨ c.config.password = password →
        Config.held (w.storeCredential writeOk c password).2 (w.storeCredential writeOk c password).1 = some password) := by
  unfold storeCredential
  split
  · rename_i hstore
    have hne : password ≠ [] := of_decide_eq_true (Bool.and_eq_true_iff.mp hstore).2
    split
    · refine ⟨rfl, rfl, fun id hid => Function.update_of_ne hid _ _, fun _ hcarried => ?_⟩
      unfold Config.held
      split
      · rename_i hcarries
        rw [hcarried.resolve_left hcarries]
      · exact Function.update_self ..
    · refine ⟨rfl, rfl, fun _ _ => rfl, fun _ _ => ?_⟩
      rw [Config.held, if_pos hne]
  · rename_i hstore
    exact ⟨rfl, rfl, fun id hid => Function.update_of_ne hid _ _, fun hdo => absurd hdo hstore⟩

theorem password_carried (w : World) (readOk : Bool) (c : StoredConnection) :
    c.config.password = [] ∨ c.config.password = w.password readOk c := by
  by_cases h : c.config.password = []
  · exact Or.inl h
  · refine Or.inr ?_
    rw [password, if_neg]
    simp [h]

/-- What an event does to the list keeps it. -/
theorem ListInv.change (h : ListInv newId w) (hnew : Function.Injective newId) (hne : ∀ n, newId n ≠ [])
    (hclear : w.Clear newId event) (hw' : w.change newId event = some w') : ListInv newId w' := by
  cases event with
  | load ok => exact absurd hw'.symm (Option.some_ne_none _)
  | connect index now | togglePin index =>
    obtain ⟨c, -, rfl⟩ := Option.map_eq_some_iff.mp hw'
    exact h.modify index fun c => rfl
  | delete index removals =>
    obtain ⟨c, hc, rfl⟩ := Option.map_eq_some_iff.mp hw'
    exact h.delete hc (hclear.2 index removals c rfl hc)
  | duplicate index readOk writeOk =>
    obtain ⟨c, -, rfl⟩ := Option.map_eq_some_iff.mp hw'
    obtain ⟨hconn, hid, hkeychain, hheld⟩ := storeCredential_spec w writeOk
      ⟨w.made, newId w.drawn, { c.config with name := c.config.name ++ copySuffix }, none, false⟩ (w.password readOk c)
    refine h.append hnew (hne _) hid hkeychain fun p hp => ?_
    split at hp
    · rename_i hstore
      obtain hp | hp := List.mem_append.mp hp
      · exact Or.inl hp
      · rw [List.mem_singleton.mp hp]
        exact Or.inr ⟨hconn, hheld hstore (password_carried w readOk c)⟩
    · exact Or.inl hp

/-- A password that the file or the keychain has is held for the connection that is loaded. -/
theorem loaded_held {r : RawConnection} (hr : r ∈ w.file) {password : Bytes}
    (hretrieved : retrieved w.keychain r = some password) :
    ∃ c ∈ assignIds newId n (w.file.map RawConnection.intoStored), c.conn = r.conn ∧
      Config.held w.keychain c = some password ∧ c.config = r.intoStored.config ∧ (r.id ≠ [] → c.id = r.id) := by
  obtain ⟨c, hc, hconn, hconfig, hid⟩ :=
    (assignIds_mem (List.mem_map_of_mem hr) : ∃ c ∈ assignIds newId n (w.file.map RawConnection.intoStored), _)
  refine ⟨c, hc, hconn, ?_, hconfig, hid⟩
  rw [← hretrieved, Config.held, retrieved, hconfig]
  split
  · rfl
  rename_i hnone
  rw [retrieved, if_neg hnone] at hretrieved
  split at hretrieved
  · exact absurd hretrieved.symm (Option.some_ne_none _)
  · rename_i hne
    rw [if_neg hne, hid hne]
    rfl

/-- Reading the file again, and the first time. -/
theorem FileInv.load (h : FileInv newId w) (hnew : Function.Injective newId) (hne : ∀ n, newId n ≠ []) (ok : Nat → Bool) :
    Inv newId (w.load newId ok) := by
  have hids : ((assignIds newId w.drawn (w.file.map RawConnection.intoStored)).map StoredConnection.id).Nodup := by
    refine assignIds_ids hnew ?_ fun c hc m hm => ?_
    · rw [List.map_map]
      exact h.ids
    · obtain ⟨r, hr, rfl⟩ := List.mem_map.mp hc
      exact h.unused r hr m hm
  have hblanks : blanks (w.file.map RawConnection.intoStored) = (w.file.filter fun r => r.id == []).length := by
    rw [blanks, List.filter_map, List.length_map]
    rfl
  have hfresh : ∀ c ∈ assignIds newId w.drawn (w.file.map RawConnection.intoStored), c.id ≠ [] ∧
      ∀ m, w.drawn + (w.file.filter fun r => r.id == []).length ≤ m → c.id ≠ newId m := by
    intro c hc
    obtain ⟨c₀, hc₀, -, -, ⟨hid, heq⟩ | ⟨l, -, hl, heq⟩⟩ := mem_assignIds hc
    · obtain ⟨r, hr, rfl⟩ := List.mem_map.mp hc₀
      exact ⟨heq ▸ hid, fun m hm hcm => h.unused r hr m (by omega) (heq.symm.trans hcm)⟩
    · refine ⟨heq ▸ hne l, fun m hm hcm => ?_⟩
      have := hnew (heq.symm.trans hcm)
      omega
  have hmig := @migrateSecrets_spec newId w.drawn ok w.keychain _ hids
  unfold World.load
  generalize migrateSecrets newId w.drawn ok w.keychain (w.file.map RawConnection.intoStored) = result at hmig ⊢
  obtain ⟨connections, keychain, changed⟩ := result
  have hback : ∀ c' ∈ connections, ∃ c ∈ assignIds newId w.drawn (w.file.map RawConnection.intoStored), c.id = c'.id :=
    fun c' hc' => List.mem_map.mp (hmig.ids ▸ List.mem_map_of_mem hc')
  have hperm : (sortUsed connections).Perm connections := List.mergeSort_perm _ _
  refine ⟨⟨?_, fun r hr m hm => ?_, fun p hp => ?_⟩, ⟨?_, fun c' hc' => ?_, fun c' hc' m hm => ?_, fun p hp => ?_⟩⟩
  · cases changed with
    | true => exact distinctIds_write (hmig.ids ▸ hids)
    | false => exact h.ids
  · cases changed with
    | true =>
      obtain ⟨c', hc', rfl⟩ := List.mem_map.mp hr
      obtain ⟨c, hc, hid⟩ := hback c' hc'
      show c'.id ≠ newId m
      rw [← hid]
      exact (hfresh c hc).2 m hm
    | false => exact h.unused r hr m (Nat.le_trans (Nat.le_add_right _ _) hm)
  · obtain ⟨r, hr, hconn, hretrieved⟩ := h.retrievable p hp
    obtain ⟨c, hc, hconn', hheld, hconfig, hid⟩ := loaded_held hr hretrieved
    cases changed with
    | true =>
      obtain ⟨c', hc', hconn'', hid', -, hput⟩ := hmig.kept c hc
      refine ⟨_, List.mem_map_of_mem hc', (hconn''.trans hconn').trans hconn, ?_⟩
      rw [retrieved_write (hid' ▸ (hfresh c hc).1), hid', ← hheld]
      exact hput rfl
    | false =>
      refine ⟨r, hr, hconn, ?_⟩
      rw [← hretrieved, retrieved, retrieved]
      split
      · rfl
      rename_i hnone
      split
      · rfl
      · rename_i hne
        rw [← hid hne]
        exact hmig.other c hc (hconfig ▸ not_not.mp hnone)
  · exact (hperm.map _).nodup_iff.mpr (hmig.ids ▸ hids)
  · obtain ⟨c, hc, hid⟩ := hback c' (hperm.mem_iff.mp hc')
    exact hid ▸ (hfresh c hc).1
  · obtain ⟨c, hc, hid⟩ := hback c' (hperm.mem_iff.mp hc')
    exact hid ▸ (hfresh c hc).2 m hm
  · obtain ⟨r, hr, hconn, hretrieved⟩ := h.retrievable p hp
    obtain ⟨c, hc, hconn', hheld, -, -⟩ := loaded_held hr hretrieved
    obtain ⟨c', hc', hconn'', -, hheld', -⟩ := hmig.kept c hc
    exact ⟨c', hperm.mem_iff.mpr hc', (hconn''.trans hconn').trans hconn, hheld'.trans hheld⟩

/-- What an event keeps. -/
theorem Inv.step (h : Inv newId w) (hnew : Function.Injective newId) (hne : ∀ n, newId n ≠ [])
    (hclear : w.Clear newId event) : Inv newId (w.step newId event) := by
  have hchange : Inv newId (((w.change newId event).map save).getD w) := by
    cases hw' : w.change newId event with
    | none => exact h
    | some w' => exact (h.list.change hnew hne hclear hw').save (hclear.1 w' hw')
  cases event with
  | load ok => exact h.file.load hnew hne ok
  | connect index now => exact hchange
  | togglePin index | duplicate index readOk writeOk | delete index removals => exact hchange

theorem Inv.run {events : List Event} (h : Inv newId w) (hnew : Function.Injective newId) (hne : ∀ n, newId n ≠ [])
    (hclear : w.ClearRun newId events) : Inv newId (w.run newId events) := by
  induction events generalizing w with
  | nil => exact h
  | cons event events ih => exact ih (h.step hnew hne hclear.1) hclear.2

theorem FileInv.start {file : List RawConnection} (hnew : NewIds newId file) (hids : DistinctIds file) (k : Keychain) :
    FileInv newId (World.start file k) := by
  have hids' : (World.start file k).file.map RawConnection.id = file.map RawConnection.id := by
    rw [World.start, List.map_map]
    exact (List.map_map (f := Prod.fst) (g := RawConnection.id) (l := file.zipIdx)).symm.trans
      (by rw [List.zipIdx_map_fst])
  refine ⟨?_, fun r hr m _ => ?_, fun p hp => ?_⟩
  · rw [DistinctIds, hids']
    exact hids
  · obtain ⟨r₀, hr₀, hid⟩ := List.mem_map.mp (hids' ▸ List.mem_map_of_mem hr : r.id ∈ file.map RawConnection.id)
    exact hid ▸ hnew.unused r₀ hr₀ m
  · obtain ⟨⟨r, i⟩, hr, hp⟩ := List.mem_filterMap.mp hp
    obtain ⟨password, hretrieved, rfl⟩ := Option.map_eq_some_iff.mp hp
    exact ⟨_, List.mem_map_of_mem hr, rfl, hretrieved⟩

end World

open World

/-- **No stored password is lost** in a run whose saves are clear: a restart finds the password of each connection
that the user has not deleted. -/
theorem passwords_kept (newId : Nat → Bytes) (file : List RawConnection) (k : Keychain) (ok : Nat → Bool)
    (events : List Event) (hnew : NewIds newId file) (hids : DistinctIds file)
    (hclear : ((start file k).load newId ok).ClearRun newId events) :
    (((start file k).load newId ok).run newId events).Retrievable :=
  (((FileInv.start hnew hids k).load hnew.injective hnew.ne_nil ok).run hnew.injective hnew.ne_nil hclear).file.retrievable

/-- Ids as they are drawn at one instant: the count is their last part. -/
def seqId (n : Nat) : Bytes := ascii "conn-1-" ++ List.replicate (n + 1) 49

/-- A file from before the keychain. -/
def legacyFile : List RawConnection :=
  [⟨0, [], ascii "app", .postgres, none, ascii "db", some 5432, ascii "app", ascii "secret", ascii "app", false, [], none, false⟩]

theorem newIds_seqId : NewIds seqId legacyFile where
  injective m n h := by
    have hlen := congrArg List.length h
    simpa [seqId] using hlen
  ne_nil n := by simp [seqId]
  unused r hr n := by
    rw [List.mem_singleton.mp hr]
    simp [seqId]

/-- A connection whose password has moved is pinned. -/
theorem passwords_kept_pinned :
    (((start legacyFile fun _ => none).load seqId fun _ => true).run seqId [.togglePin 0]).Retrievable := by
  refine passwords_kept seqId legacyFile (fun _ => none) (fun _ => true) [.togglePin 0] newIds_seqId
    (show List.Nodup _ by decide) ⟨⟨?_, fun index removals c h => Event.noConfusion h⟩, trivial⟩
  intro w' hw' c hc hpassword
  obtain ⟨c₀, -, rfl⟩ := Option.map_eq_some_iff.mp hw'
  have hmoved : ∀ c ∈ ((start legacyFile fun _ => none).load seqId fun _ => true).connections.modify 0
      fun c => { c with pinned := !c.pinned }, c.config.password = [] := by
    decide +kernel
  exact absurd (hmoved c hc) hpassword

/-- The keychain does not answer, and then the connection is pinned. -/
theorem password_lost : ¬ ∀ (ok : Nat → Bool) (events : List Event),
      (((start legacyFile fun _ => none).load seqId ok).run seqId events).Retrievable := by
  intro h
  obtain ⟨r, hr, -, hretrieved⟩ := h (fun _ => false) [.togglePin 0] (0, ascii "secret") (by decide +kernel)
  have hnone : ∀ r ∈ (((start legacyFile fun _ => none).load seqId fun _ => false).run seqId [.togglePin 0]).file,
      retrieved (((start legacyFile fun _ => none).load seqId fun _ => false).run seqId [.togglePin 0]).keychain r =
        none := by
    decide +kernel
  rw [hnone r hr] at hretrieved
  exact absurd hretrieved.symm (Option.some_ne_none _)

end RedDb.Config
