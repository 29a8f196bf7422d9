import Mathlib.Order.Lattice
import Mathlib.Data.List.Pairwise
import Mathlib.Data.Int.Order.Basic
import ScratchStore.Lib.Layers

/-!
# Association lists in strictly ascending key order

A finite map kept as a list of pairs with strictly ascending keys.  `List.lookup` reads it, and on
such a list `lookup_eq_some` turns a lookup into membership, which is how the operations below are
specified:

* `upsert` inserts or replaces one key;
* `overlay` merges two lists, the first taking precedence, and drops the dead values: the list
  form of `Layers.compact`;
* `bsearch` finds a key by bisection over positions `1 … n`.

The list is the representation and not only the specification: a dump of a search tree, a sorted file and
the result of a merge are such lists, and the operations on them are compared with these by equations
between lists.  What the lists are as maps follows by `lookup`:

* `lookup_upsert_self` and `lookup_upsert_of_ne` for a tree that a key is put into;
* `lookup_overlay` for two files that are merged;
* `bsearch_eq_lookup` for a file that is searched from the middle.  Its hypotheses on the interval are the
  loop invariant: what is left of `low` is smaller than the key, and what is right of `high` is larger.

That the keys ascend is kept by each of them (`Ascending.upsert`, `Ascending.overlay`), and `overlay_live`
says that no dead value survives a merge.  Only `bsearch_mem` does without: a file whose keys do not ascend
may hide a key from a bisection, but cannot make it return a value of another one.
-/

set_option autoImplicit false

namespace SortedAssoc

variable {K V : Type*} [LinearOrder K]

/-- The keys of `rs` ascend strictly. -/
def Ascending (rs : List (K × V)) : Prop := rs.Pairwise fun a b ↦ a.1 < b.1

@[simp] theorem ascending_nil : Ascending ([] : List (K × V)) := List.Pairwise.nil

theorem ascending_cons {r : K × V} {rs : List (K × V)} :
    Ascending (r :: rs) ↔ (∀ x ∈ rs, r.1 < x.1) ∧ Ascending rs := List.pairwise_cons

theorem ascending_append {as bs : List (K × V)} :
    Ascending (as ++ bs) ↔
      Ascending as ∧ Ascending bs ∧ ∀ a ∈ as, ∀ b ∈ bs, a.1 < b.1 := List.pairwise_append

theorem Ascending.map_snd {W : Type*} {rs : List (K × V)} (h : Ascending rs) (f : K → V → W) :
    Ascending (rs.map fun r ↦ (r.1, f r.1 r.2)) := List.Pairwise.map _ (fun _ _ hab ↦ hab) h

theorem Ascending.filter {rs : List (K × V)} (h : Ascending rs) (p : K × V → Bool) :
    Ascending (rs.filter p) := List.Pairwise.filter p h

/-! ## Lookup -/

theorem lookup_cons_eq (r : K × V) (rs : List (K × V)) (k : K) :
    (r :: rs).lookup k = if r.1 = k then some r.2 else rs.lookup k := by
  obtain ⟨k', v⟩ := r
  rw [List.lookup_cons]
  by_cases h : k' = k
  · simp [h]
  · have h' : (k == k') = false := by simpa using fun e ↦ h e.symm
    simp [h, h']

theorem lookup_eq_none {rs : List (K × V)} {k : K} :
    rs.lookup k = none ↔ ∀ r ∈ rs, r.1 ≠ k := by
  rw [List.lookup_eq_none_iff]
  refine forall₂_congr fun r _ ↦ ?_
  rw [bne_iff_ne]
  exact ne_comm

/-- In an ascending list a lookup is membership. -/
theorem lookup_eq_some {rs : List (K × V)} (h : Ascending rs) {k : K} {v : V} :
    rs.lookup k = some v ↔ (k, v) ∈ rs := by
  induction rs with
  | nil => simp
  | cons r rs ih =>
    rw [ascending_cons] at h
    rw [lookup_cons_eq, List.mem_cons]
    split_ifs with hk
    · have hnot : (k, v) ∉ rs := fun hm ↦ ne_of_gt (h.1 _ hm) hk.symm
      simp only [hnot, or_false, Option.some_inj]
      exact ⟨fun hv ↦ by rw [← hk, ← hv], fun hr ↦ by rw [← hr]⟩
    · rw [ih h.2]
      refine ⟨Or.inr, fun hm ↦ hm.resolve_left fun hr ↦ hk ?_⟩
      rw [← hr]

/-- Changing the values leaves the keys where they were. -/
theorem lookup_map_snd {W : Type*} (rs : List (K × V)) (f : K → V → W) (k : K) :
    (rs.map fun r ↦ (r.1, f r.1 r.2)).lookup k = (rs.lookup k).map (f k) := by
  induction rs with
  | nil => rfl
  | cons r rs ih =>
    rw [List.map_cons, lookup_cons_eq, lookup_cons_eq, ih]
    split_ifs with hk
    · rw [Option.map_some, ← hk]
    · rfl

/-! ## Inserting one key

`upsert` puts a key in its place, or gives it another value if it is there. -/

/-- Insert `k ↦ v`, replacing the value `k` had. -/
def upsert (k : K) (v : V) : List (K × V) → List (K × V)
  | [] => [(k, v)]
  | r :: rs =>
    if k < r.1 then (k, v) :: r :: rs
    else if r.1 < k then r :: upsert k v rs
    else (k, v) :: rs

theorem mem_upsert {k : K} {v : V} {rs : List (K × V)} (h : Ascending rs) {r : K × V} :
    r ∈ upsert k v rs ↔ r = (k, v) ∨ (r ∈ rs ∧ r.1 ≠ k) := by
  induction rs with
  | nil => simp [upsert]
  | cons x xs ih =>
    rw [ascending_cons] at h
    rw [upsert]
    split_ifs with h1 h2
    · have hne : ∀ y ∈ x :: xs, y.1 ≠ k := by
        intro y hy
        rcases List.mem_cons.mp hy with rfl | hy
        · exact ne_of_gt h1
        · exact ne_of_gt (h1.trans (h.1 y hy))
      rw [List.mem_cons]
      exact or_congr_right ⟨fun hr ↦ ⟨hr, hne r hr⟩, fun hr ↦ hr.1⟩
    · rw [List.mem_cons, ih h.2, List.mem_cons]
      constructor
      · rintro (rfl | rfl | ⟨hr, hk⟩)
        · exact Or.inr ⟨Or.inl rfl, ne_of_lt h2⟩
        · exact Or.inl rfl
        · exact Or.inr ⟨Or.inr hr, hk⟩
      · rintro (rfl | ⟨rfl | hr, hk⟩)
        · exact Or.inr (Or.inl rfl)
        · exact Or.inl rfl
        · exact Or.inr (Or.inr ⟨hr, hk⟩)
    · have hk : x.1 = k := le_antisymm (not_lt.mp h1) (not_lt.mp h2)
      have hne : ∀ y ∈ xs, y.1 ≠ k := fun y hy ↦ hk ▸ ne_of_gt (h.1 y hy)
      rw [List.mem_cons, List.mem_cons]
      constructor
      · rintro (rfl | hr)
        · exact Or.inl rfl
        · exact Or.inr ⟨Or.inr hr, hne r hr⟩
      · rintro (rfl | ⟨rfl | hr, hrk⟩)
        · exact Or.inl rfl
        · exact absurd hk hrk
        · exact Or.inr hr

theorem Ascending.upsert {rs : List (K × V)} (h : Ascending rs) (k : K) (v : V) :
    Ascending (upsert k v rs) := by
  induction rs with
  | nil => exact List.pairwise_singleton _ _
  | cons x xs ih =>
    have h' := ascending_cons.mp h
    rw [SortedAssoc.upsert]
    split_ifs with h1 h2
    · refine ascending_cons.mpr ⟨fun y hy ↦ ?_, h⟩
      rcases List.mem_cons.mp hy with rfl | hy
      · exact h1
      · exact h1.trans (h'.1 y hy)
    · refine ascending_cons.mpr ⟨fun y hy ↦ ?_, ih h'.2⟩
      rcases (mem_upsert h'.2).mp hy with rfl | ⟨hy, -⟩
      · exact h2
      · exact h'.1 y hy
    · have hk : x.1 = k := le_antisymm (not_lt.mp h1) (not_lt.mp h2)
      exact ascending_cons.mpr ⟨fun y hy ↦ hk ▸ h'.1 y hy, h'.2⟩

@[simp] theorem lookup_upsert_self {rs : List (K × V)} (h : Ascending rs) (k : K) (v : V) :
    (upsert k v rs).lookup k = some v := by
  rw [lookup_eq_some (h.upsert k v), mem_upsert h]
  exact Or.inl rfl

theorem lookup_upsert_of_ne {rs : List (K × V)} (h : Ascending rs) {k k' : K} (hk : k' ≠ k)
    (v : V) : (upsert k v rs).lookup k' = rs.lookup k' := by
  refine Option.ext ?_
  intro w
  rw [lookup_eq_some (h.upsert k v), lookup_eq_some h, mem_upsert h]
  simp [hk]

theorem length_upsert {rs : List (K × V)} (h : Ascending rs) (k : K) (v : V) :
    (upsert k v rs).length = if (rs.lookup k).isSome then rs.length else rs.length + 1 := by
  induction rs with
  | nil => simp [upsert]
  | cons x xs ih =>
    have h' := ascending_cons.mp h
    rcases lt_trichotomy k x.1 with h1 | h1 | h1
    · have hn : (x :: xs).lookup k = none := by
        refine lookup_eq_none.mpr ?_
        intro y hy
        rcases List.mem_cons.mp hy with rfl | hy
        · exact ne_of_gt h1
        · exact ne_of_gt (h1.trans (h'.1 y hy))
      rw [upsert, if_pos h1, hn]
      rfl
    · rw [upsert, if_neg h1.not_lt, if_neg h1.not_gt, lookup_cons_eq, if_pos h1.symm]
      rfl
    · rw [upsert, if_neg h1.not_gt, if_pos h1, lookup_cons_eq, if_neg (ne_of_lt h1),
        List.length_cons, ih h'.2, List.length_cons]
      split_ifs <;> rfl

theorem upsert_append_of_gt {k : K} {v : V} {l : List (K × V)} (h : ∀ x ∈ l, x.1 < k)
    (m : List (K × V)) : upsert k v (l ++ m) = l ++ upsert k v m := by
  induction l with
  | nil => rfl
  | cons x xs ih =>
    have hx : x.1 < k := h x (by simp)
    rw [List.cons_append, upsert, if_neg (not_lt_of_gt hx), if_pos hx,
      ih fun y hy ↦ h y (List.mem_cons_of_mem _ hy), List.cons_append]

theorem upsert_of_lt {k : K} {v : V} {rs : List (K × V)} (h : ∀ x ∈ rs, k < x.1) :
    upsert k v rs = (k, v) :: rs := by
  cases rs with
  | nil => rfl
  | cons x xs => rw [upsert, if_pos (h x (by simp))]

theorem upsert_cons_self {k : K} {v w : V} {rs : List (K × V)} :
    upsert k v ((k, w) :: rs) = (k, v) :: rs := by
  rw [upsert, if_neg (lt_irrefl k), if_neg (lt_irrefl k)]

/-- Only the last value counts. -/
@[simp] theorem upsert_upsert (k : K) (v w : V) (rs : List (K × V)) :
    upsert k w (upsert k v rs) = upsert k w rs := by
  induction rs with
  | nil => exact upsert_cons_self
  | cons x xs ih =>
    rcases lt_trichotomy k x.1 with h | h | h
    · rw [upsert, if_pos h, upsert_cons_self, upsert, if_pos h]
    · rw [upsert, if_neg h.not_lt, if_neg h.not_gt, upsert_cons_self, upsert, if_neg h.not_lt,
        if_neg h.not_gt]
    · rw [upsert, if_neg h.not_gt, if_pos h, upsert, if_neg h.not_gt, if_pos h, ih, upsert,
        if_neg h.not_gt, if_pos h]

/-! ## Overlaying one list on another

The overlay has the keys of both lists, a key of both with the value it has in the first, and none whose
value is dead. -/

/-- `r` alone, unless its value is dead. -/
def keep (dead : V → Bool) (r : K × V) : List (K × V) := if dead r.2 then [] else [r]

omit [LinearOrder K] in
theorem mem_keep {dead : V → Bool} {r x : K × V} :
    x ∈ keep dead r ↔ dead x.2 = false ∧ x = r := by
  rw [keep]
  split_ifs with h
  · simp only [List.not_mem_nil, false_iff]
    rintro ⟨hx, rfl⟩
    exact absurd h (by simp [hx])
  · rw [List.mem_singleton]
    exact ⟨fun hx ↦ ⟨by simpa [hx] using h, hx⟩, fun hx ↦ hx.2⟩

omit [LinearOrder K] in
theorem filter_eq_keep (dead : V → Bool) (r : K × V) (rs : List (K × V)) :
    ((r :: rs).filter fun x ↦ !dead x.2) = keep dead r ++ rs.filter fun x ↦ !dead x.2 := by
  rw [List.filter_cons, keep]
  cases dead r.2 <;> rfl

/-- The merge of two ascending lists: on a key both have, the first wins; dead values are left
out, and a dead value of the first list still hides what the second has. -/
def overlay (dead : V → Bool) : List (K × V) → List (K × V) → List (K × V)
  | [], ys => ys.filter fun r ↦ !dead r.2
  | x :: xs, [] => (x :: xs).filter fun r ↦ !dead r.2
  | x :: xs, y :: ys =>
    if y.1 < x.1 then keep dead y ++ overlay dead (x :: xs) ys
    else if x.1 < y.1 then keep dead x ++ overlay dead xs (y :: ys)
    else keep dead x ++ overlay dead xs ys
termination_by xs ys => xs.length + ys.length

theorem mem_overlay {dead : V → Bool} {xs ys : List (K × V)} (hx : Ascending xs)
    (hy : Ascending ys) {r : K × V} :
    r ∈ overlay dead xs ys ↔
      dead r.2 = false ∧ (r ∈ xs ∨ r ∈ ys ∧ ∀ x ∈ xs, x.1 ≠ r.1) := by
  fun_induction overlay dead xs ys with
  | case1 ys => simp [and_comm]
  | case2 x xs => simp [and_comm]
  | case3 x xs y ys hlt ih =>
    have hy' := ascending_cons.mp hy
    have hx' := ascending_cons.mp hx
    rw [List.mem_append, mem_keep, ih hx hy'.2, ← and_or_left, List.mem_cons (a := r) (b := y)]
    refine and_congr_right fun _ ↦ ?_
    have hne : r = y → ∀ z ∈ x :: xs, z.1 ≠ r.1 := by
      rintro rfl z hz
      rcases List.mem_cons.mp hz with rfl | hz
      · exact ne_of_gt hlt
      · exact ne_of_gt (hlt.trans (hx'.1 z hz))
    constructor
    · rintro (hr | hr | ⟨hr, hall⟩)
      · exact .inr ⟨.inl hr, hne hr⟩
      · exact .inl hr
      · exact .inr ⟨.inr hr, hall⟩
    · rintro (hr | ⟨hr | hr, hall⟩)
      · exact .inr (.inl hr)
      · exact .inl hr
      · exact .inr (.inr ⟨hr, hall⟩)
  | case4 x xs y ys hnlt hlt ih =>
    have hx' := ascending_cons.mp hx
    have hy' := ascending_cons.mp hy
    rw [List.mem_append, mem_keep, ih hx'.2 hy, ← and_or_left, List.mem_cons (a := r) (b := x),
      List.forall_mem_cons]
    refine and_congr_right fun _ ↦ ?_
    have hne : r ∈ y :: ys → x.1 ≠ r.1 := by
      intro hr
      rcases List.mem_cons.mp hr with rfl | hr
      · exact ne_of_lt hlt
      · exact ne_of_lt (hlt.trans (hy'.1 r hr))
    constructor
    · rintro (hr | hr | ⟨hr, hall⟩)
      · exact .inl (.inl hr)
      · exact .inl (.inr hr)
      · exact .inr ⟨hr, hne hr, hall⟩
    · rintro ((hr | hr) | ⟨hr, -, hall⟩)
      · exact .inl hr
      · exact .inr (.inl hr)
      · exact .inr (.inr ⟨hr, hall⟩)
  | case5 x xs y ys hnlt hnlt' ih =>
    have hx' := ascending_cons.mp hx
    have hy' := ascending_cons.mp hy
    have hxy : x.1 = y.1 := le_antisymm (not_lt.mp hnlt) (not_lt.mp hnlt')
    rw [List.mem_append, mem_keep, ih hx'.2 hy'.2, ← and_or_left, List.mem_cons (a := r) (b := x),
      List.mem_cons (a := r) (b := y), List.forall_mem_cons]
    refine and_congr_right fun _ ↦ ?_
    have hne : r ∈ ys → x.1 ≠ r.1 := fun hr ↦ hxy ▸ ne_of_lt (hy'.1 r hr)
    have hry : r = y → ¬x.1 ≠ r.1 := fun h ↦ not_not.mpr (h ▸ hxy)
    constructor
    · rintro (hr | hr | ⟨hr, hall⟩)
      · exact .inl (.inl hr)
      · exact .inl (.inr hr)
      · exact .inr ⟨.inr hr, hne hr, hall⟩
    · rintro ((hr | hr) | ⟨hr | hr, hxr, hall⟩)
      · exact .inl hr
      · exact .inr (.inl hr)
      · exact absurd hxr (hry hr)
      · exact .inr (.inr ⟨hr, hall⟩)

theorem Ascending.overlay {dead : V → Bool} {xs ys : List (K × V)} (hx : Ascending xs)
    (hy : Ascending ys) : Ascending (overlay dead xs ys) := by
  have hkeep : ∀ r : K × V, ∀ l : List (K × V), (∀ z ∈ l, r.1 < z.1) → Ascending l →
      Ascending (keep dead r ++ l) := by
    intro r l hr hl
    rw [keep]
    split_ifs
    · exact hl
    · exact ascending_cons.mpr ⟨hr, hl⟩
  fun_induction SortedAssoc.overlay dead xs ys with
  | case1 ys => exact hy.filter _
  | case2 x xs => exact hx.filter _
  | case3 x xs y ys hlt ih =>
    have hy' := ascending_cons.mp hy
    have hx' := ascending_cons.mp hx
    refine hkeep y _ (fun z hz ↦ ?_) (ih hx hy'.2)
    rcases ((mem_overlay hx hy'.2).mp hz).2 with hz | ⟨hz, -⟩
    · rcases List.mem_cons.mp hz with rfl | hz
      · exact hlt
      · exact hlt.trans (hx'.1 z hz)
    · exact hy'.1 z hz
  | case4 x xs y ys hnlt hlt ih =>
    have hx' := ascending_cons.mp hx
    have hy' := ascending_cons.mp hy
    refine hkeep x _ (fun z hz ↦ ?_) (ih hx'.2 hy)
    rcases ((mem_overlay hx'.2 hy).mp hz).2 with hz | ⟨hz, -⟩
    · exact hx'.1 z hz
    · rcases List.mem_cons.mp hz with rfl | hz
      · exact hlt
      · exact hlt.trans (hy'.1 z hz)
  | case5 x xs y ys hnlt hnlt' ih =>
    have hx' := ascending_cons.mp hx
    have hy' := ascending_cons.mp hy
    have hxy : x.1 = y.1 := le_antisymm (not_lt.mp hnlt) (not_lt.mp hnlt')
    refine hkeep x _ (fun z hz ↦ ?_) (ih hx'.2 hy'.2)
    rcases ((mem_overlay hx'.2 hy'.2).mp hz).2 with hz | ⟨hz, -⟩
    · exact hx'.1 z hz
    · exact hxy ▸ hy'.1 z hz

theorem lookup_overlay {dead : V → Bool} {xs ys : List (K × V)} (hx : Ascending xs)
    (hy : Ascending ys) (k : K) :
    (overlay dead xs ys).lookup k = Layers.live dead ((xs.lookup k).or (ys.lookup k)) := by
  refine Option.ext ?_
  intro v
  rw [lookup_eq_some (hx.overlay hy), mem_overlay hx hy, Layers.live_eq_some_iff,
    Option.or_eq_some_iff, lookup_eq_some hx, lookup_eq_some hy, lookup_eq_none, and_comm]
  exact and_congr_left fun _ ↦ or_congr_right and_comm

theorem overlay_live {dead : V → Bool} {xs ys : List (K × V)} (hx : Ascending xs)
    (hy : Ascending ys) {r : K × V} (h : r ∈ overlay dead xs ys) : dead r.2 = false :=
  ((mem_overlay hx hy).mp h).1

/-! ## Bisection -/

/-- Look for `key` among positions `low … high`, the first pair being at position `1`. -/
def bsearch (rs : List (K × V)) (key : K) (low high : Int) : Option V :=
  if low ≤ high then
    match rs[((low + high) / 2 - 1).toNat]? with
    | none => none
    | some r =>
      if r.1 < key then bsearch rs key ((low + high) / 2 + 1) high
      else if key < r.1 then bsearch rs key low ((low + high) / 2 - 1)
      else some r.2
  else none
termination_by (high + 1 - low).toNat
decreasing_by all_goals omega

theorem Ascending.getElem_lt {rs : List (K × V)} (h : Ascending rs) {i j : ℕ} (hij : i < j)
    (hi : i < rs.length) (hj : j < rs.length) : rs[i].1 < rs[j].1 :=
  List.pairwise_iff_getElem.mp h i j hi hj hij

/-- **Bisection finds what a lookup finds**, as long as everything outside the interval has
already been ruled out. -/
theorem bsearch_eq_lookup {rs : List (K × V)} (h : Ascending rs) (key : K) (low high : Int)
    (hlow : 1 ≤ low) (hhigh : high ≤ rs.length)
    (hl : ∀ i, (hi : i < rs.length) → (i : Int) + 1 < low → rs[i].1 < key)
    (hr : ∀ i, (hi : i < rs.length) → high < (i : Int) + 1 → key < rs[i].1) :
    bsearch rs key low high = rs.lookup key := by
  fun_induction bsearch rs key low high with
  | case1 low high hle hnone =>
    rw [List.getElem?_eq_none_iff] at hnone
    omega
  | case2 low high hle r hsome hlt ih =>
    obtain ⟨hm, hrm⟩ := List.getElem?_eq_some_iff.mp hsome
    refine ih (by omega) hhigh (fun i hi hilow ↦ ?_) hr
    rcases Nat.lt_or_ge i ((low + high) / 2 - 1).toNat with hc | hc
    · exact (h.getElem_lt hc hi hm).trans (hrm ▸ hlt)
    · have hi' : i = ((low + high) / 2 - 1).toNat := by omega
      subst hi'
      rw [hrm]; exact hlt
  | case3 low high hle r hsome hnlt hgt ih =>
    obtain ⟨hm, hrm⟩ := List.getElem?_eq_some_iff.mp hsome
    refine ih hlow (by omega) hl (fun i hi hihigh ↦ ?_)
    rcases Nat.lt_or_ge ((low + high) / 2 - 1).toNat i with hc | hc
    · exact (hrm ▸ hgt).trans (h.getElem_lt hc hm hi)
    · have hi' : i = ((low + high) / 2 - 1).toNat := by omega
      subst hi'
      rw [hrm]; exact hgt
  | case4 low high hle r hsome hnlt hngt =>
    obtain ⟨hm, hrm⟩ := List.getElem?_eq_some_iff.mp hsome
    have hk : r.1 = key := le_antisymm (not_lt.mp hngt) (not_lt.mp hnlt)
    have hmem : (key, r.2) ∈ rs := by
      rw [← hk, ← hrm]
      exact List.getElem_mem hm
    exact ((lookup_eq_some h).mpr hmem).symm
  | case5 low high hgt =>
    refine (lookup_eq_none.mpr fun r hmem ↦ ?_).symm
    obtain ⟨i, hi, rfl⟩ := List.getElem_of_mem hmem
    rcases lt_or_ge ((i : Int) + 1) low with hc | hc
    · exact ne_of_lt (hl i hi hc)
    · exact ne_of_gt (hr i hi (by omega))

/-- Whatever the order of the pairs, a value bisection returns belongs to the key. -/
theorem bsearch_mem {rs : List (K × V)} {key : K} {low high : Int} {v : V}
    (h : bsearch rs key low high = some v) : (key, v) ∈ rs := by
  fun_induction bsearch rs key low high with
  | case1 => simp at h
  | case2 low high hle r hsome hlt ih => exact ih h
  | case3 low high hle r hsome hnlt hgt ih => exact ih h
  | case4 low high hle r hsome hnlt hngt =>
    have hk : r.1 = key := le_antisymm (not_lt.mp hngt) (not_lt.mp hnlt)
    rw [← Option.some.inj h, ← hk]
    exact List.mem_of_getElem? hsome
  | case5 => simp at h

end SortedAssoc
