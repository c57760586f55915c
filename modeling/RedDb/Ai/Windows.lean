import RedDb.Ai.ReviewReads

/-!
# RedDb — the windows of a result

`run_select` answers with the first window of a result, and every `fetch_more` with the next
one, off the cursor that waits in the registry under its handle.

* `fillRounds_filling` — what a fill keeps of the rows, and when it stops;
* `checkedFill_eq` — no subtraction of a fill comes out below zero;
* `windows_concat` — the windows of a session, one behind the other.
-/

namespace RedDb.Ai.ReviewReads

open ByteText Review

section Checked

variable {Db Row : Type} (e : Engine Db Row)

def checkedSub (a b : Nat) : Option Nat := if b ≤ a then some (a - b) else none

theorem checkedSub_eq {a b : Nat} (h : b ≤ a) : checkedSub a b = some (a - b) := if_pos h

def checkedChunk (cap : Option Nat) (w : Window Row) : Option Nat :=
  match cap with
  | none => some fillChunkMax
  | some cap => (checkedSub cap w.text.length).map fun left =>
    min (max (left / max (w.text.length / w.rows.length) 1) 1) fillChunkMax

/-- `fillRounds`, every subtraction checked. -/
def checkedRounds (maxRows rowCap : Nat) (cap : Option Nat) : Nat → Nat → Fill Row → Option (Fill Row)
  | 0, _, f => some f
  | fuel + 1, chunk, f =>
    if maxRows ≤ f.window.rows.length then some f
    else if rowCap ≤ f.rowsRead then some { f with window := { f.window with hitRowCap := true } }
    else
      (checkedSub maxRows f.window.rows.length).bind fun room =>
        (checkedSub rowCap f.rowsRead).bind fun left =>
          let f := f.pull e (min (min (max chunk 1) room) left)
          if f.window.exhausted || cap.any fun cap => decide (cap ≤ f.window.text.length) then some f
          else (checkedChunk cap f.window).bind fun chunk => checkedRounds maxRows rowCap cap fuel chunk f

def checkedFill (limits : AiLimits) (entry : AgentCursor Row) (limit : Nat) : Option (Fill Row) :=
  (checkedSub limits.maxResultBytes (limits.maxResultBytes / 10)).bind fun soft =>
    checkedRounds e (max limit 1) (max limits.maxRows 1 * rowsPerCursorFactor)
      (if limits.maxResultBytes = 0 then none else some soft) (max limit 1) fillChunkProbe
      ⟨⟨header entry.columns, [], false, false⟩, entry.cursor, entry.rowsRead⟩

variable {e}

theorem checkedRounds_eq (maxRows rowCap : Nat) (cap : Option Nat) (fuel chunk : Nat) (f : Fill Row) :
    checkedRounds e maxRows rowCap cap fuel chunk f = some (fillRounds e maxRows rowCap cap fuel chunk f) := by
  induction fuel generalizing chunk f with
  | zero => rfl
  | succ fuel ih =>
    rw [checkedRounds, fillRounds]
    split
    · rfl
    rename_i hroom
    split
    · rfl
    rename_i hleft
    rw [checkedSub_eq (Nat.le_of_not_le hroom), checkedSub_eq (Nat.le_of_not_le hleft)]
    simp only [Option.bind_some]
    split
    · rfl
    rename_i hsoft
    cases cap with
    | none => exact ih _ _
    | some cap =>
      have hshort : ¬ cap ≤ _ := fun hle => hsoft (by rw [Option.any_some, decide_eq_true hle, Bool.or_true])
      rw [checkedChunk, checkedSub_eq (Nat.le_of_not_le hshort)]
      exact ih _ _

/-- No subtraction of a fill comes out below zero. -/
theorem checkedFill_eq (limits : AiLimits) (entry : AgentCursor Row) (limit : Nat) :
    checkedFill e limits entry limit = some (fillWindow e limits entry limit) := by
  rw [checkedFill, checkedSub_eq (Nat.div_le_self _ _)]
  exact checkedRounds_eq _ _ _ _ _ _

end Checked

section Filling

variable {Db Row : Type} {e : Engine Db Row} {columns : List Bytes} {whole : List Row} {total maxRows rowCap : Nat}

/-- The columns, and a line for every row. -/
def rendered (e : Engine Db Row) (columns : List Bytes) (rows : List Row) : Bytes :=
  rows.foldl (fun text row => text ++ e.render row ++ [newline]) (header columns)

/-- A fill on its way: what it has shown and what the cursor has left are the rows it began with. -/
structure Filling (e : Engine Db Row) (columns : List Bytes) (whole : List Row) (total maxRows rowCap : Nat)
    (f : Fill Row) : Prop where
  concat : f.window.rows ++ f.cursor = whole
  read : f.rowsRead + f.cursor.length = total
  text : f.window.text = rendered e columns f.window.rows
  limit : f.window.rows.length ≤ maxRows
  cap : f.rowsRead ≤ rowCap
  ends : f.window.exhausted = true → f.cursor = []
  capped : f.window.hitRowCap = true → rowCap ≤ f.rowsRead

theorem Filling.pull {f : Fill Row} (h : Filling e columns whole total maxRows rowCap f) {want : Nat}
    (hroom : want ≤ maxRows - f.window.rows.length) (hleft : want ≤ rowCap - f.rowsRead) :
    Filling e columns whole total maxRows rowCap (f.pull e want) := by
  have htook : (f.cursor.take want).length ≤ want := List.length_take_le _ _
  have hlimit := h.limit
  have hcap := h.cap
  refine ⟨?_, ?_, ?_, ?_, ?_, fun hends => List.drop_eq_nil_of_le (of_decide_eq_true hends).le, fun hhit => ?_⟩
  · exact (List.append_assoc ..).trans ((congrArg _ (List.take_append_drop _ _)).trans h.concat)
  · show _ + (f.cursor.take want).length + (f.cursor.drop want).length = total
    rw [Nat.add_assoc, ← List.length_append, List.take_append_drop]
    exact h.read
  · show _ = List.foldl _ _ (f.window.rows ++ _)
    rw [List.foldl_append]
    exact congrArg (List.foldl _ · _) h.text
  · show (f.window.rows ++ _).length ≤ _
    rw [List.length_append]
    omega
  · show f.rowsRead + _ ≤ _
    omega
  · exact (h.capped hhit).trans (Nat.le_add_right _ _)

/-- What a fill keeps of the rows, and that one which does not come to an end has shown some. -/
theorem fillRounds_filling {cap : Option Nat} (fuel : Nat) (chunk : Nat) {f : Fill Row}
    (h : Filling e columns whole total maxRows rowCap f) (hfuel : maxRows ≤ f.window.rows.length + fuel) :
    let g := fillRounds e maxRows rowCap cap fuel chunk f
    Filling e columns whole total maxRows rowCap g ∧
      (g.window.more = true → maxRows ≤ g.window.rows.length ∨ g.window.rows ≠ []) := by
  induction fuel generalizing chunk f with
  | zero => exact ⟨h, fun _ => .inl hfuel⟩
  | succ fuel ih =>
    dsimp only
    rw [fillRounds]
    split
    · rename_i hfull
      exact ⟨h, fun _ => .inl hfull⟩
    rename_i hroom
    split
    · rename_i hcap
      exact ⟨⟨h.concat, h.read, h.text, h.limit, h.cap, h.ends, fun _ => hcap⟩,
        fun hmore => by rw [Window.more, Bool.and_eq_true] at hmore; cases hmore.2⟩
    rename_i hleft
    generalize hwant : min (min (max chunk 1) (maxRows - f.window.rows.length)) (rowCap - f.rowsRead) = want
    have hpull : Filling e columns whole total maxRows rowCap (f.pull e want) := h.pull (by omega) (by omega)
    have hmoved : (f.pull e want).window.exhausted = false →
        (f.pull e want).window.rows.length = f.window.rows.length + want := by
      intro hopen
      show (f.window.rows ++ f.cursor.take want).length = _
      rw [List.length_append, List.length_take, min_eq_left (not_lt.mp (of_decide_eq_false hopen))]
    dsimp only
    split
    · refine ⟨hpull, fun hmore => .inr fun hnil => ?_⟩
      rw [Window.more, Bool.and_eq_true, Bool.not_eq_true'] at hmore
      have hlen := hmoved hmore.1
      rw [hnil, List.length_nil] at hlen
      omega
    · rename_i hopen
      rw [Bool.or_eq_true, not_or, Bool.not_eq_true] at hopen
      exact ih _ hpull (by have := hmoved hopen.1; omega)

end Filling

section Session

variable {Db Row : Type} (t : Turn) (e : Engine Db Row)

/-- The windows the calls are answered with, up to one that is the last. -/
def session : State Db Row → List Call → List (Window Row)
  | _, [] => []
  | s, call :: calls =>
    match reply t e s call, step t e s call with
    | some w, some s' => w :: if w.more then session s' calls else []
    | _, _ => []

/-- The windows are the rows, up to the cap, with no more in one than its call asks for. With calls
enough the last one says that it is the last. -/
structure Serves (columns : List Bytes) (rows : List Row) (read cap : Nat) (ws : List (Window Row))
    (limits : List Nat) : Prop where
  concat : ∃ left, ws.flatMap Window.rows ++ left = rows ∧ ∀ w ∈ ws, w.exhausted = true → left = []
  capped : read + (ws.flatMap Window.rows).length ≤ cap ∧
    ∀ w ∈ ws, w.hitRowCap = true → read + (ws.flatMap Window.rows).length = cap
  limit : ∀ p ∈ ws.zip limits, p.1.rows.length ≤ p.2
  text : ∀ w ∈ ws, w.text = rendered e columns w.rows
  ends : rows.length < limits.length → ∃ w ∈ ws, w.more = false

variable {t e}

theorem Window.more_iff {w : Window Row} : w.more = true ↔ w.exhausted = false ∧ w.hitRowCap = false := by
  rw [Window.more, Bool.and_eq_true, Bool.not_eq_true', Bool.not_eq_true']

/-- One window and, unless it is the last, the windows behind it. -/
theorem Serves.cons {columns : List Bytes} {rows : List Row} {read cap limit : Nat} {f : Fill Row}
    {ws : List (Window Row)} {limits : List Nat}
    (h : Filling e columns rows (read + rows.length) limit cap f) (hread : read + f.window.rows.length = f.rowsRead)
    (hmoves : f.window.more = true → f.window.rows ≠ [])
    (hrest : f.window.more = true → Serves e columns f.cursor f.rowsRead cap ws limits) :
    Serves e columns rows read cap (f.window :: if f.window.more then ws else []) (limit :: limits) := by
  cases hmore : f.window.more with
  | true =>
    obtain ⟨⟨left, hconcat, hleft⟩, ⟨hcap, hhit⟩, hlimit, htext, hends⟩ := hrest hmore
    obtain ⟨hopen, hunder⟩ := Window.more_iff.mp hmore
    have hlen : read + ((f.window :: ws).flatMap Window.rows).length =
        f.rowsRead + (ws.flatMap Window.rows).length := by
      rw [List.flatMap_cons, List.length_append, ← hread, Nat.add_assoc]
    refine ⟨⟨left, ?_, ?_⟩, ?_, ?_, ?_, ?_⟩
    · rw [if_pos rfl, List.flatMap_cons, List.append_assoc, hconcat]
      exact h.concat
    · exact List.forall_mem_cons.mpr ⟨fun hex => absurd (hopen.symm.trans hex) Bool.false_ne_true, hleft⟩
    · rw [if_pos rfl, hlen]
      exact ⟨hcap, List.forall_mem_cons.mpr ⟨fun hex => absurd (hunder.symm.trans hex) Bool.false_ne_true, hhit⟩⟩
    · exact List.forall_mem_cons.mpr ⟨h.limit, hlimit⟩
    · exact List.forall_mem_cons.mpr ⟨h.text, htext⟩
    · intro hcalls
      have hshown := List.length_pos_of_ne_nil (hmoves hmore)
      have hsum := congrArg List.length h.concat
      rw [List.length_append] at hsum
      obtain ⟨w, hw, hlast⟩ := hends (by rw [List.length_cons] at hcalls; omega)
      exact ⟨w, List.mem_cons_of_mem _ hw, hlast⟩
  | false =>
    have hrows : [f.window].flatMap Window.rows = f.window.rows := List.flatMap_singleton ..
    rw [if_neg (Bool.false_ne_true)]
    refine ⟨⟨f.cursor, ?_, ?_⟩, ?_, ?_, ?_, fun _ => ⟨_, List.mem_cons_self, hmore⟩⟩
    · rw [hrows]
      exact h.concat
    · exact List.forall_mem_singleton.mpr h.ends
    · rw [hrows, hread]
      exact ⟨h.cap, List.forall_mem_singleton.mpr fun hhit => le_antisymm h.cap (h.capped hhit)⟩
    · exact List.forall_mem_cons.mpr ⟨h.limit, fun p hp => by cases hp⟩
    · exact List.forall_mem_singleton.mpr h.text

/-- Every cursor may yield a hundred times the rows of a window. -/
def rowCap (limits : AiLimits) : Nat := max limits.maxRows 1 * rowsPerCursorFactor

/-- A window of the cursor, and the windows behind it. -/
theorem fillWindow_serves {limits : AiLimits} {entry : AgentCursor Row} {limit : Nat} {ws : List (Window Row)}
    {asks : List Nat} (hlimit : 1 ≤ limit) (hcap : entry.rowsRead ≤ rowCap limits)
    (hrest : let f := fillWindow e limits entry limit
      f.rowsRead ≤ rowCap limits → f.window.more = true →
        Serves e entry.columns f.cursor f.rowsRead (rowCap limits) ws asks) :
    let w := (fillWindow e limits entry limit).window
    Serves e entry.columns entry.cursor entry.rowsRead (rowCap limits) (w :: if w.more then ws else [])
      (limit :: asks) := by
  have hstart : Filling e entry.columns entry.cursor (entry.rowsRead + entry.cursor.length) (max limit 1)
      (rowCap limits) ⟨⟨header entry.columns, [], false, false⟩, entry.cursor, entry.rowsRead⟩ :=
    ⟨rfl, rfl, rfl, Nat.zero_le _, hcap, fun h => (by cases h), fun h => (by cases h)⟩
  obtain ⟨hfill, hmoves⟩ : Filling e entry.columns entry.cursor (entry.rowsRead + entry.cursor.length) (max limit 1)
      (rowCap limits) (fillWindow e limits entry limit) ∧ _ :=
    fillRounds_filling (max limit 1) fillChunkProbe hstart (Nat.le_add_left _ _)
  have hsum := congrArg List.length hfill.concat
  have hread := hfill.read
  rw [List.length_append] at hsum
  rw [Nat.max_eq_left hlimit] at hfill
  refine Serves.cons hfill ?_ (fun hmore hnil => ?_) (hrest hfill.cap)
  · exact Nat.add_right_cancel ((Nat.add_assoc ..).trans ((congrArg _ hsum).trans hread.symm))
  · rcases hmoves hmore with hfull | hsome
    · have hshown := ((le_max_right limit 1).trans hfull).trans_eq (congrArg List.length hnil)
      exact absurd hshown (Nat.not_succ_le_zero 0)
    · exact hsome hnil

theorem limitOf_pos (limits : AiLimits) (input : Json) : 1 ≤ limitOf limits input :=
  le_min (le_max_right _ _) (le_max_right _ _)

theorem fetches_serve {s : State Db Row} {fetches : List Json} {id : CursorId} {entry : AgentCursor Row}
    {r : CursorRegistry Row} (htake : s.registry.take id = some (entry, r))
    (hcap : entry.rowsRead ≤ rowCap t.limits) (hcursor : ∀ fetch ∈ fetches, textField "cursor" fetch = id) :
    Serves e entry.columns entry.cursor entry.rowsRead (rowCap t.limits)
      (session t e s (fetches.map (.fetchMore · true))) (fetches.map (limitOf t.limits)) := by
  induction fetches generalizing s entry r with
  | nil =>
    exact ⟨⟨entry.cursor, rfl, List.forall_mem_nil _⟩, ⟨hcap, List.forall_mem_nil _⟩, List.forall_mem_nil _,
      List.forall_mem_nil _, fun h => absurd h (Nat.not_lt_zero _)⟩
  | cons fetch fetches ih =>
    obtain ⟨hid, hcursor⟩ := List.forall_mem_cons.mp hcursor
    have hreply : reply t e s (.fetchMore fetch true) =
        some (fillWindow e t.limits entry (limitOf t.limits fetch)).window := by
      rw [reply, reading, if_pos rfl, hid, htake]
      rfl
    rw [List.map_cons, session, hreply, step]
    refine fillWindow_serves (limitOf_pos _ _) hcap fun hread hmore => ?_
    have hafter : afterFetch t e s fetch true = r.putBack s.now id
        (AgentCursor.moved entry (fillWindow e t.limits entry (limitOf t.limits fetch))) := by
      rw [afterFetch, hid, htake]
      exact if_pos hmore
    have htaken := (congrArg (·.take id) hafter).trans (take_insert ..)
    have hfetches := @ih { s with registry := afterFetch t e s fetch true } _ _ htaken hread hcursor
    exact hfetches

theorem keepOpen_take (r : CursorRegistry Row) (now : Nat) (entry : AgentCursor Row) :
    ∃ r', (keepOpen r now entry).take (handle (r.next + 1)) = some ({ entry with lastUsed := now }, r') := by
  rw [← (r.evictFor_sublist entry.conversation).2, keepOpen, CursorRegistry.openCursor]
  dsimp only
  rw [take_insert]
  exact ⟨_, take_insert ..⟩

/-- The windows of `run_select` and of the `fetch_more` calls behind it, on the handle it left, are the
result's rows, and no subtraction on the way comes out below zero. -/
theorem windows_concat (t : Turn) (e : Engine Db Row) (s : State Db Row) {select : Json} {fetches : List Json}
    {columns : List Bytes} {rows : List Row} (hread : isReadOnlySelect (textField "sql" select) t.dialect = true)
    (hrows : e.select s.committed (textField "sql" select) = some (columns, rows))
    (hcursor : ∀ fetch ∈ fetches, textField "cursor" fetch = handle (s.registry.next + 1)) :
    Serves e columns rows 0 (rowCap t.limits)
        (session t e s (.runSelect select true :: fetches.map (.fetchMore · true)))
        ((select :: fetches).map (limitOf t.limits)) ∧
      ∀ entry limit, checkedFill e t.limits entry limit = some (fillWindow e t.limits entry limit) := by
  refine ⟨?_, fun entry limit => checkedFill_eq _ _ _⟩
  obtain ⟨entry, hentry⟩ : ∃ entry : AgentCursor Row,
      entry = ⟨t.conversation, rows, columns, 0, s.now, textField "sql" select⟩ := ⟨_, rfl⟩
  have hreading : reading t e s (.runSelect select true) = some entry := by
    rw [reading, Bool.true_and, if_pos hread, openedOn, hrows, hentry]
    rfl
  have hserves : Serves e entry.columns entry.cursor entry.rowsRead (rowCap t.limits)
      (session t e s (.runSelect select true :: fetches.map (.fetchMore · true)))
      (limitOf t.limits select :: fetches.map (limitOf t.limits)) := by
    have hreply : reply t e s (.runSelect select true) =
        some (fillWindow e t.limits entry (limitOf t.limits select)).window := by
      rw [reply, hreading]
      rfl
    rw [session, hreply, step]
    refine fillWindow_serves (limitOf_pos _ _) (hentry ▸ Nat.zero_le _) fun hread hmore => ?_
    have hafter : afterSelect t e s (.runSelect select true) = keepOpen s.registry s.now
        (AgentCursor.moved entry (fillWindow e t.limits entry (limitOf t.limits select))) := by
      rw [afterSelect, hreading]
      exact if_pos hmore
    obtain ⟨r, htake⟩ := keepOpen_take s.registry s.now
      (AgentCursor.moved entry (fillWindow e t.limits entry (limitOf t.limits select)))
    rw [← hafter] at htake
    generalize afterSelect t e s (.runSelect select true) = after at htake ⊢
    have hfetches := @fetches_serve _ _ t e { s with registry := after } _ _ _ _ htake hread hcursor
    exact hfetches
  rwa [hentry] at hserves

end Session

theorem windows_concat_counter :
    ∃ left, (session counting counter (State.init 0) [selectOne, fetchFirst]).flatMap Window.rows ++ left = [0, 0] :=
  (@windows_concat _ _ counting counter (State.init 0)
    (.obj [("sql", .str (ascii "select n from t")), ("limit", .num 1)])
    [.obj [("cursor", .str (ascii "c1")), ("limit", .num 1)]] [] [0, 0] (by decide) rfl (by decide)).1.concat.imp
    fun _ h => h.1

end RedDb.Ai.ReviewReads
