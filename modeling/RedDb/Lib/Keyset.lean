import Mathlib.Data.List.Perm.Basic
import Mathlib.Data.List.Sort
import Mathlib.Order.Basic

/-!
# Keyset paging

A keyset scan reads a table one page at a time: the first page off the sorted
rows, and every later one off the sorted rows that the last row of the page before
lets through. `seek a b` says that the bound made of `a` lets `b` through, `sort` is
the engine's ordering of what a query selects; it may settle ties in another way
each time.

* `pages_of_cut` — where the bound of every row that ends a page lets through exactly
  what stands behind it, the scan visits every row once, in order;
* `cut_of_pages` — a scan that visits every row once has met no other bound.
-/

namespace Keyset

variable {α κ : Type*} [LinearOrder κ]

section Scan

variable (seek : α → α → Bool) (sort : List α → List α) (size : Nat) (rows : List α)

/-- The page behind a row, or the first one. -/
def page : Option α → List α
  | none => (sort rows).take size
  | some a => (sort (rows.filter (seek a))).take size

/-- The pages from one on, to the empty one: all the rows they show. -/
inductive Pages : Option α → List α → Prop where
  | done {after : Option α} (h : page seek sort size rows after = []) : Pages after []
  | more {after : Option α} {last : α} {rest : List α}
      (h : (page seek sort size rows after).getLast? = some last)
      (hrest : Pages (some last) rest) :
      Pages after (page seek sort size rows after ++ rest)

/-- A page ends behind the first `i` of the rows. -/
def Ends (l : List α) (i : Nat) : Prop := size ∣ i ∨ i = l.length

/-- The bound of every row that ends a page lets through exactly the rows behind it. -/
def Cut (l : List α) : Prop :=
  ∀ i a, l[i]? = some a → Ends size l (i + 1) → ∀ j b, l[j]? = some b → (seek a b = true ↔ i < j)

end Scan

/-- What is relied on: the ordering is by key, and rows of one key are alike to
every bound and as one. -/
structure Lawful (key : α → κ) (seek : α → α → Bool) (sort : List α → List α) (size : Nat)
    (rows : List α) : Prop where
  pos : 0 < size
  perm : ∀ xs, (sort xs).Perm xs
  sorted : ∀ xs, (sort xs).Pairwise fun a b => key a ≤ key b
  left : ∀ {a a' b}, a ∈ rows → a' ∈ rows → b ∈ rows → key a = key a' → seek a b = seek a' b
  right : ∀ {a b b'}, a ∈ rows → b ∈ rows → b' ∈ rows → key b = key b' → seek a b = seek a b'

variable {key : α → κ} {seek : α → α → Bool} {sort : List α → List α} {size : Nat} {rows : List α}

variable {out : List α} {after : Option α}

/-- What a scan has shown is settled by where it started. -/
theorem Pages.unique {out' : List α}
    (h : Pages seek sort size rows after out) (h' : Pages seek sort size rows after out') :
    out = out' := by
  induction h generalizing out' with
  | done h =>
    cases h' with
    | done _ => rfl
    | more hl _ => rw [h] at hl; exact absurd hl (by simp)
  | more h _ ih =>
    cases h' with
    | done h' => rw [h'] at h; exact absurd h (by simp)
    | more h' hrest =>
      obtain rfl := Option.some.inj (h.symm.trans h')
      rw [ih hrest]

variable {b : α}

theorem Lawful.mem_page (h : Lawful key seek sort size rows)
    (hb : b ∈ page seek sort size rows after) :
    b ∈ rows ∧ ∀ a, after = some a → seek a b = true := by
  cases after with
  | none => exact ⟨(h.perm rows).mem_iff.mp (List.mem_of_mem_take hb), by simp⟩
  | some a =>
    have hf := (h.perm _).mem_iff.mp (List.mem_of_mem_take hb)
    rw [List.mem_filter] at hf
    exact ⟨hf.1, by rintro _ ⟨⟩; exact hf.2⟩

/-- A scan shows rows of the table only. -/
theorem Lawful.pages_mem (h : Lawful key seek sort size rows)
    (hpages : Pages seek sort size rows after out) (hb : b ∈ out) : b ∈ rows := by
  induction hpages with
  | done _ => cases hb
  | more _ _ ih =>
    rcases List.mem_append.mp hb with hpage | hrest
    · exact (h.mem_page hpage).1
    · exact ih hrest

/-! ## Arrangements -/

/-- The rows in an order that the engine may show them in. -/
structure Arranged (key : α → κ) (rows l : List α) : Prop where
  perm : l.Perm rows
  sorted : l.Pairwise fun a b => key a ≤ key b

theorem Lawful.arranged (h : Lawful key seek sort size rows) : Arranged key rows (sort rows) :=
  ⟨h.perm rows, h.sorted rows⟩

variable {l : List α} {i : Nat} {a : α}

theorem Arranged.mem (h : Arranged key rows l) (ha : l[i]? = some a) : a ∈ rows :=
  h.perm.mem_iff.mp (List.mem_of_getElem? ha)

variable {l' : List α}

/-- Ties apart, the rows have one order. -/
theorem map_key_eq (h : l.Pairwise fun a b => key a ≤ key b)
    (h' : l'.Pairwise fun a b => key a ≤ key b) (hp : l.Perm l') : l.map key = l'.map key :=
  List.Perm.eq_of_pairwise (fun _ _ _ _ => le_antisymm) (List.pairwise_map.mpr h)
    (List.pairwise_map.mpr h') (hp.map key)

theorem Arranged.key_eq (h : Arranged key rows l) (h' : Arranged key rows l') :
    l.map key = l'.map key :=
  map_key_eq h.sorted h'.sorted (h.perm.trans h'.perm.symm)

/-- The row at the same place in another arrangement. -/
theorem Arranged.same_place (h : Arranged key rows l) (h' : Arranged key rows l')
    (ha : l[i]? = some a) : ∃ a', l'[i]? = some a' ∧ key a = key a' := by
  have hk := congrArg (·[i]?) (h.key_eq h')
  simp only [List.getElem?_map, ha, Option.map_some] at hk
  cases ha' : l'[i]? with
  | none => rw [ha'] at hk; cases hk
  | some a' => exact ⟨a', rfl, by simpa [ha'] using hk⟩

theorem Arranged.length_eq (h : Arranged key rows l) (h' : Arranged key rows l') :
    l.length = l'.length :=
  (h.perm.trans h'.perm.symm).length_eq

/-- What bounds let through of one arrangement they let through of all. -/
theorem Lawful.seek_iff (h : Lawful key seek sort size rows)
    (hl : Arranged key rows l) (hl' : Arranged key rows l') {j : Nat}
    (hcut : ∀ a b, l[i]? = some a → l[j]? = some b → (seek a b = true ↔ i < j)) :
    ∀ a b, l'[i]? = some a → l'[j]? = some b → (seek a b = true ↔ i < j) := by
  intro a b ha hb
  obtain ⟨a', ha', hka⟩ := hl'.same_place hl ha
  obtain ⟨b', hb', hkb⟩ := hl'.same_place hl hb
  rw [h.left (hl'.mem ha) (hl.mem ha') (hl'.mem hb) hka,
    h.right (hl.mem ha') (hl'.mem hb) (hl.mem hb') hkb]
  exact hcut a' b' ha' hb'

theorem Lawful.cut_congr (h : Lawful key seek sort size rows)
    (hl : Arranged key rows l) (hl' : Arranged key rows l') (hcut : Cut seek size l) :
    Cut seek size l' := by
  intro i a ha hend j b hb
  refine h.seek_iff hl hl' ?_ a b ha hb
  intro a' b' ha' hb'
  refine hcut i a' ha' ?_ j b' hb'
  rwa [Ends, hl.length_eq hl']

variable {p : Nat}

/-- The rows behind a place, ordered anew. -/
theorem Lawful.rearranged (h : Lawful key seek sort size rows) {F : List α}
    (hl : Arranged key rows l) (hF : F.Perm (l.drop p)) :
    Arranged key rows (l.take p ++ sort F) := by
  have hp : (sort F).Perm (l.drop p) := (h.perm F).trans hF
  constructor
  · calc (l.take p ++ sort F).Perm (l.take p ++ l.drop p) := hp.append_left _
      _ = l := List.take_append_drop p l
      List.Perm _ rows := hl.perm
  · have hsplit := hl.sorted
    rw [← List.take_append_drop p l, List.pairwise_append] at hsplit
    rw [List.pairwise_append]
    refine ⟨hsplit.1, h.sorted F, ?_⟩
    intro a ha b hb
    exact hsplit.2.2 a ha b (hp.mem_iff.mp hb)

variable {n : Nat}

/-- A filter that holds from a place on, and only there, is a `drop`. -/
theorem filter_eq_drop {p : α → Bool}
    (h : ∀ j b, l[j]? = some b → (p b = true ↔ n ≤ j)) : l.filter p = l.drop n := by
  have htake : (l.take n).filter p = [] := by
    rw [List.filter_eq_nil_iff]
    intro b hb hpb
    obtain ⟨j, hj⟩ := List.mem_iff_getElem?.mp hb
    rw [List.getElem?_take] at hj
    split at hj
    · rename_i hlt
      exact absurd ((h j b hj).mp hpb) (by omega)
    · cases hj
  have hdrop : (l.drop n).filter p = l.drop n := by
    rw [List.filter_eq_self]
    intro b hb
    obtain ⟨j, hj⟩ := List.mem_iff_getElem?.mp hb
    rw [List.getElem?_drop] at hj
    exact (h _ b hj).mpr (by omega)
  calc l.filter p = (l.take n ++ l.drop n).filter p := by rw [List.take_append_drop]
    _ = l.drop n := by rw [List.filter_append, htake, hdrop, List.nil_append]

/-! ## One page -/

/-- The last row of a page, and where it stands among all rows. -/
theorem last_of_page {y : α} (h : ((l.drop p).take n).getLast? = some y) :
    ∃ i, p ≤ i ∧ l[i]? = some y ∧ (l.drop p).drop n = l.drop (i + 1) ∧ i + 1 ≤ p + n ∧
      (i + 1 = p + n ∨ i + 1 = l.length) := by
  rw [List.getLast?_eq_getElem?, List.length_take, List.length_drop] at h
  have hlt := (List.getElem?_eq_some_iff.mp h).1
  rw [List.length_take, List.length_drop] at hlt
  rw [List.getElem?_take_of_lt (by omega), List.getElem?_drop] at h
  refine ⟨_, by omega, h, ?_, by omega, by omega⟩
  rw [List.drop_drop]
  rcases Nat.le_total n (l.length - p) with hle | hle
  · congr 1
    omega
  · rw [List.drop_eq_nil_of_le (by omega), List.drop_eq_nil_of_le (by omega)]

/-- No page ends inside another one. -/
theorem not_ends {j : Nat} (hp : size ∣ p) (hpi : p ≤ i)
    (hj : j ≤ p + size) (hjl : j ≤ l.length) (hij : i + 1 < j) : ¬ Ends size l (i + 1) := by
  rintro (⟨c, hc⟩ | hlen)
  · obtain ⟨d, rfl⟩ := hp
    have hlow : size * d < size * c := by omega
    have hhigh : size * c < size * (d + 1) := by rw [Nat.mul_add]; omega
    have := Nat.lt_of_mul_lt_mul_left hlow
    have := Nat.lt_of_mul_lt_mul_left hhigh
    omega
  · omega

/-- A page taken off the rows that are left behind `p`: what it shows, and that its
last row ends a page of the rearranged rows. -/
theorem Lawful.next_page (h : Lawful key seek sort size rows)
    (hl : Arranged key rows l) (hpl : p ≤ l.length) (hF : (rows.filter (seek a)).Perm (l.drop p)) :
    ∃ l', Arranged key rows l' ∧ l'.drop p = sort (rows.filter (seek a)) ∧
      page seek sort size rows (some a) = (l'.drop p).take size := by
  have hdrop : (l.take p ++ sort (rows.filter (seek a))).drop p = sort (rows.filter (seek a)) := by
    rw [List.drop_append_of_le_length (by rw [List.length_take]; omega),
      List.drop_eq_nil_of_le (by rw [List.length_take]; omega), List.nil_append]
  exact ⟨_, h.rearranged hl hF, hdrop, by rw [hdrop]; rfl⟩

/-! ## From the bounds to the scan -/

/-- From a row that ends a page, the scan shows the rows behind it, in order. -/
theorem Lawful.pages_behind (h : Lawful key seek sort size rows) :
    ∀ {l : List α} {i : Nat} {a : α}, Arranged key rows l → Cut seek size l → l[i]? = some a →
      Ends size l (i + 1) → l.length - i = n →
      ∃ out, Pages seek sort size rows (some a) out ∧ out.Perm (l.drop (i + 1)) ∧
        out.Pairwise fun a b => key a ≤ key b := by
  induction n using Nat.strongRecOn with
  | ind n ih =>
    intro l i a hl hcut ha hend hn
    have hi := (List.getElem?_eq_some_iff.mp ha).1
    have hF : (rows.filter (seek a)).Perm (l.drop (i + 1)) := by
      rw [← filter_eq_drop (p := seek a) (fun j b hb => hcut i a ha hend j b hb)]
      exact (hl.perm.filter _).symm
    cases hlast : (page seek sort size rows (some a)).getLast? with
    | none =>
      rw [List.getLast?_eq_none_iff] at hlast
      have hnil : sort (rows.filter (seek a)) = [] :=
        (List.take_eq_nil_iff.mp hlast).resolve_left h.pos.ne'
      refine ⟨[], .done hlast, ?_, List.Pairwise.nil⟩
      rw [← hnil]
      exact (h.perm _).trans hF
    | some y =>
      rcases hend with hdvd | hlen
      · obtain ⟨l', hl', hdrop, hpage⟩ := h.next_page hl (by omega) hF
        have hlen := hl.length_eq hl'
        rw [hpage] at hlast
        obtain ⟨i', hle, hy, hrest, -, hend'⟩ := last_of_page hlast
        have hends : Ends size l' (i' + 1) := by
          rcases hend' with he | he
          · exact Or.inl (he ▸ Nat.dvd_add hdvd (Nat.dvd_refl size))
          · exact Or.inr he
        obtain ⟨out, hpages, hperm, hsort⟩ :=
          ih (l'.length - i') (by omega) hl' (h.cut_congr hl hl' hcut) hy hends rfl
        have hout : (page seek sort size rows (some a) ++ out).Perm (l'.drop (i + 1)) := by
          rw [hpage]
          calc ((l'.drop (i + 1)).take size ++ out).Perm
                ((l'.drop (i + 1)).take size ++ (l'.drop (i + 1)).drop size) := by
                  rw [hrest]; exact hperm.append_left _
            _ = l'.drop (i + 1) := List.take_append_drop ..
        refine ⟨_, .more (hpage ▸ hlast) hpages, ?_, ?_⟩
        · refine hout.trans ?_
          rw [hdrop]
          exact (h.perm _).trans hF
        · have hs := hl'.sorted.sublist (List.drop_sublist (i + 1) l')
          rw [← List.take_append_drop size (l'.drop (i + 1)), List.pairwise_append] at hs
          rw [hpage, List.pairwise_append]
          refine ⟨hs.1, hsort, fun b hb c hc => hs.2.2 b hb c ?_⟩
          rw [hrest]
          exact hperm.mem_iff.mp hc
      · have hnil : rows.filter (seek a) = [] := by
          rw [List.drop_eq_nil_of_le (by omega)] at hF
          exact hF.eq_nil
        have : sort (rows.filter (seek a)) = [] := by
          rw [hnil]
          exact (h.perm []).eq_nil
        rw [page, this, List.take_nil] at hlast
        exact absurd hlast (by simp)

/-- **Complete.** The scan ends, and has shown every row once and in order. -/
theorem Lawful.pages_of_cut (h : Lawful key seek sort size rows) (hcut : Cut seek size (sort rows)) :
    ∃ out, Pages seek sort size rows none out ∧ out.Perm rows ∧
      out.Pairwise fun a b => key a ≤ key b := by
  cases hlast : (page seek sort size rows none).getLast? with
  | none =>
    rw [List.getLast?_eq_none_iff] at hlast
    have hnil : sort rows = [] := (List.take_eq_nil_iff.mp hlast).resolve_left h.pos.ne'
    exact ⟨[], .done hlast, hnil ▸ h.perm rows, List.Pairwise.nil⟩
  | some y =>
    have hpage : page seek sort size rows none = ((sort rows).drop 0).take size := rfl
    obtain ⟨i, -, hy, hrest, -, hend⟩ := last_of_page (hpage ▸ hlast)
    have hends : Ends size (sort rows) (i + 1) := by
      rcases hend with he | he
      · exact Or.inl ⟨1, by omega⟩
      · exact Or.inr he
    obtain ⟨out, hpages, hperm, hsort⟩ := h.pages_behind h.arranged hcut hy hends rfl
    rw [List.drop_zero] at hrest hpage
    refine ⟨_, .more hlast hpages, ?_, ?_⟩
    · calc (page seek sort size rows none ++ out).Perm
            ((sort rows).take size ++ (sort rows).drop size) := by
              rw [hpage, hrest]; exact hperm.append_left _
        _ = sort rows := List.take_append_drop ..
        List.Perm _ rows := h.perm rows
    · have hs := h.sorted rows
      rw [← List.take_append_drop size (sort rows), List.pairwise_append] at hs
      rw [hpage, List.pairwise_append]
      refine ⟨hs.1, hsort, fun b hb c hc => hs.2.2 b hb c ?_⟩
      rw [hrest]
      exact hperm.mem_iff.mp hc

/-! ## From the scan to the bounds -/

/-- The bounds of the rows that end a page from the `i`-th on. -/
def CutFrom (seek : α → α → Bool) (size i : Nat) (l : List α) : Prop :=
  ∀ k a, i ≤ k → l[k]? = some a → Ends size l (k + 1) →
    ∀ j b, l[j]? = some b → (seek a b = true ↔ k < j)

theorem Lawful.cutFrom_congr (h : Lawful key seek sort size rows)
    (hl : Arranged key rows l) (hl' : Arranged key rows l') (hcut : CutFrom seek size i l) :
    CutFrom seek size i l' := by
  intro k a hk ha hend j b hb
  refine h.seek_iff hl hl' ?_ a b ha hb
  intro a' b' ha' hb'
  refine hcut k a' hk ha' ?_ j b' hb'
  rwa [Ends, hl.length_eq hl']

/-- What the scan shows behind a row its bound lets through. -/
theorem Lawful.pages_seek (h : Lawful key seek sort size rows)
    (htrans : ∀ {a b c}, a ∈ rows → b ∈ rows → c ∈ rows → seek a b = true → seek b c = true →
      seek a c = true) (hpages : Pages seek sort size rows after out) (hb : b ∈ out) :
    b ∈ rows ∧ ∀ a, after = some a → a ∈ rows → seek a b = true := by
  induction hpages with
  | done _ => cases hb
  | @more after last rest hlast _ ih =>
    rcases List.mem_append.mp hb with hpage | hrest
    · obtain ⟨hrows, hseek⟩ := h.mem_page hpage
      exact ⟨hrows, fun a ha _ => hseek a ha⟩
    · obtain ⟨hrows, hseek⟩ := ih hrest
      obtain ⟨hlrows, hlseek⟩ := h.mem_page (List.mem_of_getLast? hlast)
      exact ⟨hrows, fun a ha har => htrans har hlrows hrows (hlseek a ha) (hseek last rfl hlrows)⟩

/-- A row that was shown already is let through by no later bound: the next page would
begin with it. -/
theorem Lawful.seek_behind (h : Lawful key seek sort size rows)
    (hirr : ∀ {a}, a ∈ rows → seek a a = false) (hl : Arranged key rows l) (ha : l[i]? = some a)
    (hout : out.Perm (l.drop (i + 1))) (hshown : ∀ b ∈ page seek sort size rows (some a), b ∈ out)
    (hseek : ∀ b ∈ out, seek a b = true) : ∀ j b, l[j]? = some b → (seek a b = true ↔ i < j) := by
  intro j b hb
  constructor
  · intro hab
    by_contra hle
    have hbf : b ∈ sort (rows.filter (seek a)) :=
      (h.perm _).mem_iff.mpr (List.mem_filter.mpr ⟨hl.mem hb, hab⟩)
    cases hs : sort (rows.filter (seek a)) with
    | nil => rw [hs] at hbf; cases hbf
    | cons c cs =>
      have hsort := h.sorted (rows.filter (seek a))
      rw [hs, List.pairwise_cons] at hsort
      have hcb : key c ≤ key b := by
        rw [hs] at hbf
        rcases List.mem_cons.mp hbf with rfl | hmem
        · exact le_rfl
        · exact hsort.1 b hmem
      have hpos : page seek sort size rows (some a) = c :: cs.take (size - 1) := by
        rw [page, hs, List.take_cons h.pos]
      have hc : c ∈ l.drop (i + 1) := hout.mem_iff.mp (hshown c (by rw [hpos]; simp))
      obtain ⟨k, hk⟩ := List.mem_iff_getElem?.mp hc
      rw [List.getElem?_drop] at hk
      have hkey : ∀ {m n : Nat} {x y : α}, l[m]? = some x → l[n]? = some y → m < n → key x ≤ key y := by
        intro m n x y hx hy hmn
        obtain ⟨hm, rfl⟩ := List.getElem?_eq_some_iff.mp hx
        obtain ⟨hn, rfl⟩ := List.getElem?_eq_some_iff.mp hy
        exact List.pairwise_iff_getElem.mp hl.sorted m n hm hn hmn
      have hac : key a ≤ key c := hkey ha hk (by omega)
      have hba : key b ≤ key a := by
        rcases Nat.lt_or_ge j i with hlt | hge
        · exact hkey hb ha hlt
        · obtain rfl : j = i := by omega
          rw [ha] at hb
          exact le_of_eq (congrArg key (Option.some.inj hb).symm)
      have hab' : key b = key a := le_antisymm hba (hac.trans hcb)
      rw [h.right (hl.mem ha) (hl.mem hb) (hl.mem ha) hab', hirr (hl.mem ha)] at hab
      cases hab
  · intro hlt
    refine hseek b (hout.mem_iff.mpr ?_)
    rw [List.mem_iff_getElem?]
    exact ⟨j - (i + 1), by rw [List.getElem?_drop, Nat.add_sub_cancel' hlt]; exact hb⟩

/-- A scan that shows exactly the rows behind its row has met no other bound. -/
theorem Lawful.cutFrom_of_pages (h : Lawful key seek sort size rows)
    (hirr : ∀ {a}, a ∈ rows → seek a a = false)
    (htrans : ∀ {a b c}, a ∈ rows → b ∈ rows → c ∈ rows → seek a b = true → seek b c = true →
      seek a c = true) (hpages : Pages seek sort size rows after out) :
    ∀ {l : List α} {i : Nat} {a : α}, after = some a → Arranged key rows l → l[i]? = some a →
      Ends size l (i + 1) → out.Perm (l.drop (i + 1)) → CutFrom seek size i l := by
  induction hpages with
  | @done after hpage =>
    rintro l i a rfl hl ha hend hout
    have hi := (List.getElem?_eq_some_iff.mp ha).1
    have hlast : l.length ≤ i + 1 := List.drop_eq_nil_iff.mp hout.symm.eq_nil
    have hseek := h.seek_behind hirr hl ha hout (by rw [hpage]; simp) (by simp)
    intro k b hk hb _
    have := (List.getElem?_eq_some_iff.mp hb).1
    obtain rfl : k = i := by omega
    obtain rfl := Option.some.inj (ha.symm.trans hb)
    exact hseek
  | @more after last rest hlast hpages ih =>
    rintro l i a rfl hl ha hend hout
    have hi := (List.getElem?_eq_some_iff.mp ha).1
    have hseek := h.seek_behind hirr hl ha hout (fun b hb => List.mem_append_left _ hb)
      (fun b hb => (h.pages_seek htrans (.more hlast hpages) hb).2 a rfl (hl.mem ha))
    have hF : (rows.filter (seek a)).Perm (l.drop (i + 1)) := by
      rw [← filter_eq_drop (p := seek a) hseek]
      exact (hl.perm.filter _).symm
    obtain ⟨l', hl', hdrop, hpage⟩ := h.next_page hl (by omega) hF
    have hlen := hl.length_eq hl'
    have hlast' := hlast
    rw [hpage] at hlast'
    obtain ⟨i', hle, hy, hrest, hin, hend'⟩ := last_of_page hlast'
    have hi' := (List.getElem?_eq_some_iff.mp hy).1
    have hdvd : size ∣ i + 1 := by
      rcases hend with hdvd | hend
      · exact hdvd
      · omega
    have hends : Ends size l' (i' + 1) := by
      rcases hend' with he | he
      · exact Or.inl (he ▸ Nat.dvd_add hdvd (Nat.dvd_refl size))
      · exact Or.inr he
    have hbehind : rest.Perm (l'.drop (i' + 1)) := by
      refine (List.perm_append_left_iff ((l'.drop (i + 1)).take size)).mp ?_
      rw [← hrest, List.take_append_drop, ← hpage, hdrop]
      exact hout.trans (hF.symm.trans (h.perm _).symm)
    have hcut := h.cutFrom_congr hl' hl (ih rfl hl' hy hends hbehind)
    intro k b hk hb hbend
    have hkl := (List.getElem?_eq_some_iff.mp hb).1
    rcases Nat.lt_or_ge k i' with hlt | hge
    · obtain rfl : k = i := by
        by_contra hne
        exact not_ends hdvd (i := k) (by omega) hin (by omega) (by omega) hbend
      obtain rfl := Option.some.inj (ha.symm.trans hb)
      exact hseek
    · exact hcut k b hge hb hbend

/-- **Only so.** A scan that has shown every row once has met none but such bounds. -/
theorem Lawful.cut_of_pages (h : Lawful key seek sort size rows)
    (hirr : ∀ {a}, a ∈ rows → seek a a = false)
    (htrans : ∀ {a b c}, a ∈ rows → b ∈ rows → c ∈ rows → seek a b = true → seek b c = true →
      seek a c = true) (hpages : Pages seek sort size rows none out) (hout : out.Perm rows) :
    Cut seek size (sort rows) := by
  cases hpages with
  | done _ =>
    intro i a ha
    rw [hout.symm.eq_nil, (h.perm []).eq_nil] at ha
    cases ha
  | @more _ last rest hlast hpages =>
    have hpage : page seek sort size rows none = ((sort rows).drop 0).take size := rfl
    obtain ⟨i, -, hy, hrest, hin, hend⟩ := last_of_page (hpage ▸ hlast)
    have hi := (List.getElem?_eq_some_iff.mp hy).1
    have hends : Ends size (sort rows) (i + 1) := by
      rcases hend with he | he
      · exact Or.inl ⟨1, by omega⟩
      · exact Or.inr he
    have hbehind : rest.Perm ((sort rows).drop (i + 1)) := by
      refine (List.perm_append_left_iff (((sort rows).drop 0).take size)).mp ?_
      rw [← hrest, List.take_append_drop, ← hpage]
      exact hout.trans (h.perm rows).symm
    have hcut := h.cutFrom_of_pages hirr htrans hpages rfl h.arranged hy hends hbehind
    intro k a ha hka
    rcases Nat.lt_or_ge k i with hlt | hge
    · exact absurd hka (not_ends (p := 0) (Nat.dvd_zero size) (Nat.zero_le k) hin (by omega) (by omega))
    · exact hcut k a hge ha hka

end Keyset
