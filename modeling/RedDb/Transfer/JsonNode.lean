import Mathlib.Data.List.Nodup
import RedDb.Lib.JsonGrammar

/-!
# RedDb — an object built from dotted columns

A record of a document CSV is assembled into a tree of leaves and children, one leaf for
each cell, under the segments of its column.

* `mem_entries_insert` — an insertion adds its entry and keeps the others;
* `tidy_insert` — and no key twice, where its path neither extends an earlier one nor
  is extended by one;
* `denotes_render` — the text of a tree denotes its object.
-/

namespace RedDb.Transfer

open TextCodec JsonText

/-! ## Paths -/

/-- The segments of a dotted path; `split_once('.')`, again and again. -/
@[grind =] def segments : Text → List Text
  | [] => [[]]
  | c :: rest =>
    if c = '.' then [] :: segments rest
    else
      match segments rest with
      | [] => [[c]]
      | head :: tail => (c :: head) :: tail

theorem segments_ne_nil (path : Text) : segments path ≠ [] := by
  cases path with
  | nil => exact List.cons_ne_nil _ _
  | cons c rest =>
    rw [segments]
    split
    · exact List.cons_ne_nil _ _
    · split <;> exact List.cons_ne_nil _ _

/-- The path of some segments. -/
@[grind =] def joined : List Text → Text
  | [] => []
  | [segment] => segment
  | segment :: next :: rest => segment ++ '.' :: joined (next :: rest)

theorem segments_plain {segment : Text} (h : '.' ∉ segment) (rest : Text) :
    segments (segment ++ '.' :: rest) = segment :: segments rest := by
  induction segment with
  | nil => exact if_pos rfl
  | cons c segment ih =>
    rw [List.mem_cons, not_or] at h
    rw [List.cons_append, segments, if_neg (Ne.symm h.1), ih h.2]

theorem segments_single {segment : Text} (h : '.' ∉ segment) : segments segment = [segment] := by
  induction segment with
  | nil => rfl
  | cons c segment ih =>
    rw [List.mem_cons, not_or] at h
    rw [segments, if_neg (Ne.symm h.1), ih h.2]

/-- Segments without dots are read off the path they make. -/
theorem segments_joined {path : List Text} (hne : path ≠ []) (h : ∀ segment ∈ path, '.' ∉ segment) :
    segments (joined path) = path := by
  induction path using joined.induct with
  | case1 => exact absurd rfl hne
  | case2 segment => exact segments_single (h segment List.mem_cons_self)
  | case3 segment next rest ih =>
    rw [joined, segments_plain (h segment List.mem_cons_self),
      ih (List.cons_ne_nil _ _) fun s hs => h s (List.mem_cons_of_mem _ hs)]

/-! ## The tree -/

/-- A partly built object: the leaves at this level and the children, each by key and in the
order they came. -/
inductive JsonNode (α : Type) where
  | node (leaves : List (Text × α)) (children : List (Text × JsonNode α))

namespace JsonNode

variable {α β : Type}

def empty : JsonNode α := .node [] []

/-- The first child of the key changed, or a new one at the end. -/
@[grind =] def adjust (key : Text) (f : JsonNode α → JsonNode α) :
    List (Text × JsonNode α) → List (Text × JsonNode α)
  | [] => [(key, f empty)]
  | (k, child) :: rest => if k = key then (k, f child) :: rest else (k, child) :: adjust key f rest

@[grind =] def insert (value : α) : List Text → JsonNode α → JsonNode α
  | [], n => n
  | [key], .node leaves children => .node (leaves ++ [(key, value)]) children
  | head :: next :: rest, .node leaves children =>
    .node leaves (adjust head (insert value (next :: rest)) children)

end JsonNode

/-- A JSON string literal with the minimal escaping. -/
def escapeChar (c : Char) : Text :=
  if c = '"' then ['\\', '"']
  else if c = '\\' then ['\\', '\\']
  else if c = '\n' then ['\\', 'n']
  else if c = '\r' then ['\\', 'r']
  else if c = '\t' then ['\\', 't']
  else if c.toNat < 0x20 then ['\\', 'u', '0', '0', hexDigit (c.toNat / 16), hexDigit (c.toNat % 16)]
  else [c]

def jsonString (s : Text) : Text := '"' :: s.flatMap escapeChar ++ ['"']

namespace JsonNode

variable {α β : Type}

mutual

/-- The text of a tree; the leaves of a level come before its children. -/
def render (text : α → Text) : JsonNode α → Text
  | .node leaves children =>
    '\x7b' :: commaJoined (leaves.map (fun leaf => jsonString leaf.1 ++ ':' :: text leaf.2) ++
      renderChildren text children) ++ ['\x7d']

def renderChildren (text : α → Text) : List (Text × JsonNode α) → List Text
  | [] => []
  | (key, child) :: rest =>
    (jsonString key ++ ':' :: render text child) :: renderChildren text rest

end

mutual

/-- The object of a tree. -/
def json (value : α → Json) : JsonNode α → Json
  | .node leaves children =>
    .object (leaves.map (fun leaf => (String.ofList leaf.1, value leaf.2)) ++
      jsonChildren value children)

def jsonChildren (value : α → Json) : List (Text × JsonNode α) → List (String × Json)
  | [] => []
  | (key, child) :: rest => (String.ofList key, json value child) :: jsonChildren value rest

end

mutual

/-- The leaves of a tree, each with its path. -/
@[grind =] def entries : JsonNode α → List (List Text × α)
  | .node leaves children =>
    leaves.map (fun leaf => ([leaf.1], leaf.2)) ++ childEntries children

def childEntries : List (Text × JsonNode α) → List (List Text × α)
  | [] => []
  | (key, child) :: rest =>
    (entries child).map (fun entry => (key :: entry.1, entry.2)) ++ childEntries rest

end

mutual

/-- No level has a key twice, and every child has a leaf. -/
def Tidy : JsonNode α → Prop
  | .node leaves children =>
    (leaves.map Prod.fst ++ children.map Prod.fst).Nodup ∧ TidyChildren children

def TidyChildren : List (Text × JsonNode α) → Prop
  | [] => True
  | (_, child) :: rest => (entries child ≠ [] ∧ Tidy child) ∧ TidyChildren rest

end

variable {children : List (Text × JsonNode α)}

theorem mem_childEntries {e : List Text × α} : e ∈ childEntries children ↔
      ∃ c ∈ children, ∃ e' ∈ entries c.2, e = (c.1 :: e'.1, e'.2) := by
  induction children with
  | nil => simp [childEntries]
  | cons c rest ih =>
    obtain ⟨key, child⟩ := c
    rw [childEntries, List.mem_append, ih, List.exists_mem_cons_iff, List.mem_map]
    exact or_congr_left (exists_congr fun e' => and_congr_right fun _ => eq_comm)

theorem tidyChildren_iff : TidyChildren children ↔ ∀ c ∈ children, entries c.2 ≠ [] ∧ Tidy c.2 := by
  induction children with
  | nil => simp [TidyChildren]
  | cons c rest ih =>
    obtain ⟨key, child⟩ := c
    rw [TidyChildren, ih, List.forall_mem_cons]

/-! ## What an insertion does -/

theorem entries_empty : entries (empty : JsonNode α) = [] := rfl

/-- The entries behind a changed child. -/
theorem mem_childEntries_adjust {key : Text} {f : JsonNode α → JsonNode α} {path : List Text}
    {value : α} (hf : ∀ n e, e ∈ entries (f n) ↔ e ∈ entries n ∨ e = (path, value))
    {e : List Text × α} : e ∈ childEntries (adjust key f children) ↔
      e ∈ childEntries children ∨ e = (key :: path, value) := by
  have hchild : ∀ n, e ∈ (entries (f n)).map (fun entry => (key :: entry.1, entry.2)) ↔
      e ∈ (entries n).map (fun entry => (key :: entry.1, entry.2)) ∨ e = (key :: path, value) := by
    intro n
    simp only [List.mem_map]
    constructor
    · rintro ⟨e', he', rfl⟩
      rcases (hf n e').mp he' with hold | rfl
      · exact Or.inl ⟨e', hold, rfl⟩
      · exact Or.inr rfl
    · rintro (⟨e', he', rfl⟩ | rfl)
      · exact ⟨e', (hf n e').mpr (Or.inl he'), rfl⟩
      · exact ⟨(path, value), (hf n _).mpr (Or.inr rfl), rfl⟩
  induction children with
  | nil =>
    rw [adjust, childEntries, childEntries, List.mem_append, hchild]
    simp [childEntries, entries_empty]
  | cons c rest ih =>
    obtain ⟨k, child⟩ := c
    rw [adjust]
    by_cases hk : k = key
    · rw [if_pos hk, childEntries, childEntries, List.mem_append, List.mem_append, hk, hchild]
      exact or_right_comm
    · rw [if_neg hk, childEntries, childEntries, List.mem_append, List.mem_append]
      exact (or_congr_right ih).trans or_assoc.symm

/-- **An insertion adds its entry and keeps the others.** -/
theorem mem_entries_insert (value : α) {path : List Text} (hne : path ≠ []) (n : JsonNode α)
    (e : List Text × α) :
    e ∈ entries (insert value path n) ↔ e ∈ entries n ∨ e = (path, value) := by
  induction path generalizing n e with
  | nil => exact absurd rfl hne
  | cons head rest ih =>
    obtain ⟨leaves, children⟩ := n
    cases rest with
    | nil =>
      rw [insert, entries, entries, List.map_append, List.mem_append, List.mem_append,
        List.mem_append, List.map_singleton, List.mem_singleton]
      exact or_right_comm
    | cons next rest =>
      rw [insert, entries, entries, List.mem_append, List.mem_append,
        mem_childEntries_adjust (fun n e => ih (List.cons_ne_nil _ _) n e)]
      exact or_assoc.symm

theorem adjust_keys (key : Text) (f : JsonNode α → JsonNode α)
    (children : List (Text × JsonNode α)) : (adjust key f children).map Prod.fst =
      if key ∈ children.map Prod.fst then children.map Prod.fst
      else children.map Prod.fst ++ [key] := by
  induction children with
  | nil => rfl
  | cons c rest ih =>
    obtain ⟨k, child⟩ := c
    rw [adjust]
    by_cases hk : k = key
    · have hmem : key ∈ ((k, child) :: rest).map Prod.fst := by
        rw [hk]
        exact List.mem_cons_self
      rw [if_pos hk, if_pos hmem]
      rfl
    · have hmem : key ∈ ((k, child) :: rest).map Prod.fst ↔ key ∈ rest.map Prod.fst := by
        rw [List.map_cons, List.mem_cons]
        exact or_iff_right (Ne.symm hk)
      rw [if_neg hk, List.map_cons, ih]
      by_cases hrest : key ∈ rest.map Prod.fst
      · rw [if_pos hrest, if_pos (hmem.mpr hrest)]
        rfl
      · rw [if_neg hrest, if_neg (mt hmem.mp hrest)]
        rfl

/-- The child that was changed, or made. -/
theorem mem_adjust {key : Text} {f : JsonNode α → JsonNode α}
    {c : Text × JsonNode α} (h : c ∈ adjust key f children) :
    c ∈ children ∨ c.1 = key ∧ ∃ n, (n = empty ∨ (key, n) ∈ children) ∧ c.2 = f n := by
  induction children with
  | nil =>
    obtain rfl := List.mem_singleton.mp h
    exact Or.inr ⟨rfl, empty, Or.inl rfl, rfl⟩
  | cons d rest ih =>
    obtain ⟨k, child⟩ := d
    rw [adjust] at h
    by_cases hk : k = key
    · rw [if_pos hk] at h
      rcases List.mem_cons.mp h with rfl | hrest
      · exact Or.inr ⟨hk, child, Or.inr (hk ▸ List.mem_cons_self), rfl⟩
      · exact Or.inl (List.mem_cons_of_mem _ hrest)
    · rw [if_neg hk] at h
      rcases List.mem_cons.mp h with rfl | hrest
      · exact Or.inl List.mem_cons_self
      · rcases ih hrest with hold | ⟨hkey, n, hn, hc⟩
        · exact Or.inl (List.mem_cons_of_mem _ hold)
        · exact Or.inr ⟨hkey, n, hn.imp_right (List.mem_cons_of_mem _), hc⟩

/-- One path leads on from another, or is it. -/
def Along (path path' : List Text) : Prop := path <+: path' ∨ path' <+: path

/-- The first key of an entry is a key of the tree. -/
theorem key_of_child (leaves : List (Text × α))
    (htidy : TidyChildren children) {key : Text} (h : key ∈ children.map Prod.fst) :
    ∃ rest value, (key :: rest, value) ∈ entries (.node leaves children) := by
  obtain ⟨c, hc, rfl⟩ := List.mem_map.mp h
  obtain ⟨hne, -⟩ := tidyChildren_iff.mp htidy c hc
  obtain ⟨e, he⟩ := List.exists_mem_of_ne_nil _ hne
  refine ⟨e.1, e.2, ?_⟩
  rw [entries]
  exact List.mem_append_right _ (mem_childEntries.mpr ⟨c, hc, e, he, rfl⟩)

theorem key_of_leaf {leaves : List (Text × α)} (children : List (Text × JsonNode α))
    {key : Text} (h : key ∈ leaves.map Prod.fst) :
    ∃ value, ([key], value) ∈ entries (.node leaves children) := by
  obtain ⟨leaf, hleaf, rfl⟩ := List.mem_map.mp h
  refine ⟨leaf.2, ?_⟩
  rw [entries]
  exact List.mem_append_left _ (List.mem_map.mpr ⟨leaf, hleaf, rfl⟩)

/-- **An insertion repeats no key**, where its path and the paths before it lead apart. -/
theorem tidy_insert (value : α) {path : List Text} (hne : path ≠ []) {n : JsonNode α}
    (htidy : Tidy n) (hapart : ∀ e ∈ entries n, ¬Along path e.1) : Tidy (insert value path n) := by
  induction path generalizing n with
  | nil => exact absurd rfl hne
  | cons head rest ih =>
    obtain ⟨leaves, children⟩ := n
    obtain ⟨hkeys, hchildren⟩ := htidy
    have hleaf : head ∉ leaves.map Prod.fst := by
      intro hmem
      obtain ⟨v, hv⟩ := key_of_leaf children hmem
      exact hapart _ hv (Or.inr (List.prefix_append [head] rest))
    cases rest with
    | nil =>
      have hchild : head ∉ children.map Prod.fst := by
        intro hmem
        obtain ⟨more, v, hv⟩ := key_of_child leaves hchildren hmem
        exact hapart _ hv (Or.inl (List.prefix_append [head] more))
      refine ⟨?_, hchildren⟩
      rw [List.map_append, List.map_singleton, List.append_assoc]
      refine (List.perm_middle.nodup_iff).mpr (List.nodup_cons.mpr ⟨?_, hkeys⟩)
      rw [List.mem_append, not_or]
      exact ⟨hleaf, hchild⟩
    | cons next rest =>
      refine ⟨?_, tidyChildren_iff.mpr fun c hc => ?_⟩
      · rw [adjust_keys]
        split
        · exact hkeys
        next hchild =>
        rw [← List.append_assoc]
        refine List.Nodup.append hkeys (List.nodup_singleton _)
          (List.disjoint_singleton.mpr ?_)
        rw [List.mem_append, not_or]
        exact ⟨hleaf, hchild⟩
      · rcases mem_adjust hc with hold | ⟨-, child, hchild, hc⟩
        · exact tidyChildren_iff.mp hchildren c hold
        rw [hc]
        have hadded : ((next :: rest, value) : List Text × α) ∈
            entries (insert value (next :: rest) child) :=
          (mem_entries_insert value (List.cons_ne_nil _ _) child _).mpr (Or.inr rfl)
        refine ⟨List.ne_nil_of_mem hadded, ih (List.cons_ne_nil _ _) ?_ ?_⟩
        · rcases hchild with rfl | hmem
          · exact ⟨List.nodup_nil, trivial⟩
          · exact (tidyChildren_iff.mp hchildren _ hmem).2
        · rcases hchild with rfl | hmem
          · exact fun e he => absurd he List.not_mem_nil
          intro e he halong
          have hentry : ((head :: e.1, e.2) : List Text × α) ∈ entries (.node leaves children) := by
            rw [entries]
            exact List.mem_append_right _ (mem_childEntries.mpr ⟨_, hmem, e, he, rfl⟩)
          refine hapart _ hentry (halong.imp ?_ ?_) <;>
            exact fun h => (List.prefix_cons_inj head).mpr h

/-! ## A tree over other leaves -/

mutual

def map (f : α → β) : JsonNode α → JsonNode β
  | .node leaves children => .node (leaves.map fun leaf => (leaf.1, f leaf.2)) (mapChildren f children)

def mapChildren (f : α → β) : List (Text × JsonNode α) → List (Text × JsonNode β)
  | [] => []
  | (key, child) :: rest => (key, map f child) :: mapChildren f rest

end

theorem mapChildren_adjust (f : α → β) (key : Text) {g : JsonNode α → JsonNode α}
    {g' : JsonNode β → JsonNode β} (h : ∀ n, map f (g n) = g' (map f n))
    (children : List (Text × JsonNode α)) :
    mapChildren f (adjust key g children) = adjust key g' (mapChildren f children) := by
  induction children with
  | nil => exact congrArg (fun n => [(key, n)]) (h empty)
  | cons c rest ih =>
    obtain ⟨k, child⟩ := c
    rw [adjust, mapChildren, adjust]
    by_cases hk : k = key
    · rw [if_pos hk, if_pos hk, mapChildren, h]
    · rw [if_neg hk, if_neg hk, mapChildren, ih]

theorem map_insert (f : α → β) (value : α) (path : List Text) (n : JsonNode α) :
    map f (insert value path n) = insert (f value) path (map f n) := by
  induction path generalizing n with
  | nil => rfl
  | cons head rest ih =>
    obtain ⟨leaves, children⟩ := n
    cases rest with
    | nil => rw [insert, map, map, insert, List.map_append, List.map_singleton]
    | cons next rest => rw [insert, map, map, insert, mapChildren_adjust f head ih]

mutual

theorem render_map (f : α → β) (text : β → Text) :
    ∀ n : JsonNode α, render text (map f n) = render (fun a => text (f a)) n
  | .node leaves children => by
    rw [map, render, render, renderChildren_map f text children, List.map_map]
    rfl

theorem renderChildren_map (f : α → β) (text : β → Text) :
    ∀ children : List (Text × JsonNode α),
      renderChildren text (mapChildren f children) = renderChildren (fun a => text (f a)) children
  | [] => rfl
  | (key, child) :: rest => by
    rw [mapChildren, renderChildren, renderChildren, render_map f text child,
      renderChildren_map f text rest]

end

/-! ## What the text of a tree denotes -/

theorem literal_escapeChar (c : Char) (lit s : Text) (h : Literal lit s) :
    Literal (escapeChar c ++ lit) (c :: s) := by
  unfold escapeChar
  by_cases hquote : c = '"'
  · rw [if_pos hquote, hquote]
    exact Literal.escaped rfl h
  rw [if_neg hquote]
  by_cases hslash : c = '\\'
  · rw [if_pos hslash, hslash]
    exact Literal.escaped rfl h
  rw [if_neg hslash]
  by_cases hlf : c = '\n'
  · rw [if_pos hlf, hlf]
    exact Literal.escaped rfl h
  rw [if_neg hlf]
  by_cases hcr : c = '\r'
  · rw [if_pos hcr, hcr]
    exact Literal.escaped rfl h
  rw [if_neg hcr]
  by_cases htab : c = '\t'
  · rw [if_pos htab, htab]
    exact Literal.escaped rfl h
  rw [if_neg htab]
  by_cases hcontrol : c.toNat < 0x20
  · rw [if_pos hcontrol]
    exact literal_control hcontrol h
  · rw [if_neg hcontrol]
    exact Literal.plain hquote hslash (Nat.le_of_not_lt hcontrol) h

theorem literal_string (s : Text) : Literal (s.flatMap escapeChar) (String.ofList s).toList := by
  rw [String.toList_ofList]
  exact literal_escape literal_escapeChar s

theorem denotes_jsonString (s : Text) : Denotes (jsonString s) (.string (String.ofList s)) :=
  Denotes.string (literal_string s)

theorem keyText_jsonString (s : Text) : KeyText (jsonString s) (String.ofList s) :=
  keyText_plain (literal_string s)

theorem renderChildren_eq (text : α → Text) (children : List (Text × JsonNode α)) :
    renderChildren text children = children.map fun c => jsonString c.1 ++ ':' :: render text c.2 := by
  induction children with
  | nil => rfl
  | cons c rest ih => rw [renderChildren, ih, List.map_cons]

theorem jsonChildren_eq (value : α → Json) (children : List (Text × JsonNode α)) :
    jsonChildren value children = children.map fun c => (String.ofList c.1, json value c.2) := by
  induction children with
  | nil => rfl
  | cons c rest ih => rw [jsonChildren, ih, List.map_cons]

section Denotes

variable {text : α → Text} {value : α → Json}

mutual

/-- **The text of a tree denotes its object.** -/
theorem denotes_render (h : ∀ a, Denotes (text a) (value a)) :
    ∀ n : JsonNode α, Denotes (render text n) (json value n)
  | .node leaves children => by
    have hchildren := denotes_children h children
    have hobject := denotes_object
      (leaves.map (fun leaf => ⟨jsonString leaf.1, String.ofList leaf.1, text leaf.2, value leaf.2⟩) ++
        children.map fun c => ⟨jsonString c.1, String.ofList c.1, render text c.2, json value c.2⟩)
      ?_ ?_
    · rw [render, json, renderChildren_eq, jsonChildren_eq]
      rw [List.map_append, List.map_append, List.map_map, List.map_map, List.map_map,
        List.map_map] at hobject
      exact hobject
    · intro p hp
      rcases List.mem_append.mp hp with hleaf | hchild
      · obtain ⟨leaf, -, rfl⟩ := List.mem_map.mp hleaf
        exact keyText_jsonString leaf.1
      · obtain ⟨c, -, rfl⟩ := List.mem_map.mp hchild
        exact keyText_jsonString c.1
    · intro p hp
      rcases List.mem_append.mp hp with hleaf | hchild
      · obtain ⟨leaf, -, rfl⟩ := List.mem_map.mp hleaf
        exact h leaf.2
      · obtain ⟨c, hc, rfl⟩ := List.mem_map.mp hchild
        exact hchildren c hc

theorem denotes_children (h : ∀ a, Denotes (text a) (value a)) :
    ∀ children : List (Text × JsonNode α), ∀ c ∈ children,
      Denotes (render text c.2) (json value c.2)
  | [], _, hc => absurd hc List.not_mem_nil
  | (_, child) :: rest, c, hc => by
    rcases List.mem_cons.mp hc with rfl | hrest
    · exact denotes_render h child
    · exact denotes_children h rest c hrest

end

end Denotes

end JsonNode

/-! ## The leaves of a value -/

mutual

/-- The values inside the objects of a value, each with its path. -/
def jsonLeaves : Json → List (List Text × Json)
  | .object members => memberLeaves members
  | j => [([], j)]

def memberLeaves : List (String × Json) → List (List Text × Json)
  | [] => []
  | (key, value) :: rest =>
    (jsonLeaves value).map (fun leaf => (key.toList :: leaf.1, leaf.2)) ++ memberLeaves rest

end

theorem mem_memberLeaves {members : List (String × Json)} {leaf : List Text × Json} :
    leaf ∈ memberLeaves members ↔
      ∃ m ∈ members, ∃ leaf' ∈ jsonLeaves m.2, leaf = (m.1.toList :: leaf'.1, leaf'.2) := by
  induction members with
  | nil => simp [memberLeaves]
  | cons m rest ih =>
    obtain ⟨key, value⟩ := m
    rw [memberLeaves, List.mem_append, ih, List.exists_mem_cons_iff, List.mem_map]
    exact or_congr_left (exists_congr fun leaf' => and_congr_right fun _ => eq_comm)

namespace JsonNode

variable {α : Type} {value : α → Json}

/-- The leaves that an entry of a tree brings into its object. -/
def Brings (value : α → Json) (e : List Text × α) (leaf : List Text × Json) : Prop :=
  ∃ leaf' ∈ jsonLeaves (value e.2), leaf = (e.1 ++ leaf'.1, leaf'.2)

theorem brings_cons (key : Text) (e : List Text × α) (leaf : List Text × Json) :
    Brings value (key :: e.1, e.2) leaf ↔
      ∃ leaf', Brings value e leaf' ∧ leaf = (key :: leaf'.1, leaf'.2) := by
  constructor
  · rintro ⟨l, hl, rfl⟩
    exact ⟨(e.1 ++ l.1, l.2), ⟨l, hl, rfl⟩, rfl⟩
  · rintro ⟨_, ⟨l, hl, rfl⟩, rfl⟩
    exact ⟨l, hl, rfl⟩

mutual

/-- The leaves of a tree's object are those of its entries. -/
theorem mem_jsonLeaves : ∀ (n : JsonNode α) (leaf : List Text × Json),
    leaf ∈ jsonLeaves (json value n) ↔ ∃ e ∈ entries n, Brings value e leaf
  | .node leaves children, leaf => by
    rw [json, jsonLeaves, mem_memberLeaves, entries]
    constructor
    · rintro ⟨m, hm, l, hl, rfl⟩
      rcases List.mem_append.mp hm with hleaf | hchild
      · obtain ⟨a, ha, rfl⟩ := List.mem_map.mp hleaf
        rw [String.toList_ofList]
        exact ⟨([a.1], a.2), List.mem_append_left _ (List.mem_map.mpr ⟨a, ha, rfl⟩), l, hl, rfl⟩
      rw [jsonChildren_eq] at hchild
      obtain ⟨c, hc, rfl⟩ := List.mem_map.mp hchild
      obtain ⟨e, he, hbrings⟩ := (mem_childJsonLeaves children c hc l).mp hl
      rw [String.toList_ofList]
      exact ⟨(c.1 :: e.1, e.2), List.mem_append_right _ (mem_childEntries.mpr ⟨c, hc, e, he, rfl⟩),
        (brings_cons c.1 e _).mpr ⟨l, hbrings, rfl⟩⟩
    · rintro ⟨e, he, hbrings⟩
      rcases List.mem_append.mp he with hleaf | hchild
      · obtain ⟨a, ha, rfl⟩ := List.mem_map.mp hleaf
        obtain ⟨l, hl, rfl⟩ := hbrings
        refine ⟨(String.ofList a.1, value a.2),
          List.mem_append_left _ (List.mem_map.mpr ⟨a, ha, rfl⟩), l, hl, ?_⟩
        rw [String.toList_ofList]
        rfl
      · obtain ⟨c, hc, e', he', rfl⟩ := mem_childEntries.mp hchild
        obtain ⟨l, hl, rfl⟩ := (brings_cons c.1 e' _).mp hbrings
        refine ⟨(String.ofList c.1, json value c.2), List.mem_append_right _ ?_, l,
          (mem_childJsonLeaves children c hc l).mpr ⟨e', he', hl⟩, ?_⟩
        · rw [jsonChildren_eq]
          exact List.mem_map.mpr ⟨c, hc, rfl⟩
        · rw [String.toList_ofList]

theorem mem_childJsonLeaves : ∀ (children : List (Text × JsonNode α)), ∀ c ∈ children,
    ∀ leaf : List Text × Json,
      leaf ∈ jsonLeaves (json value c.2) ↔ ∃ e ∈ entries c.2, Brings value e leaf
  | [], _, hc, _ => absurd hc List.not_mem_nil
  | (_, child) :: rest, c, hc, leaf => by
    rcases List.mem_cons.mp hc with rfl | hrest
    · exact mem_jsonLeaves child leaf
    · exact mem_childJsonLeaves rest c hrest leaf

end

end JsonNode

end RedDb.Transfer
