import Mathlib.Algebra.Ring.Nat
import Mathlib.Data.Fin.VecNotation
import ScratchStore.Lsm3.NBTree

/-!
# Index scans

An index of `lsm3` is three B-trees: two top indexes, of which the active one is inserted into, and the
base index.  A scan goes through all three of them: `lsm3_gettuple` returns the first of the tuples they
are at, goes on with the index it came from at the next call, and skips a tuple that two of them are at.

While the scan goes on tuples are inserted and merged into the base index, so a `View` is what one call
sees: the active index and, for each place in the call at which a page is read, the index at that time.
`Scanning` is the invariant: each tuple that was in one of the indexes in the beginning has been returned
or is still to come from one of them.  `fetch_spec` is what a caller gets who fetches until there is
nothing left, or stops before.

## What a call may see

Nobody stops the other processes during a call, and a call reads pages of several indexes.  So what the
pages show is not one state.  `PageScan.Reads` is what a scan of one B-tree reads, page after page, each
with the index as it is at that time, and a `View` has one for each place in `lsm3_gettuple` where pages are
read.

What is proved needs two things of them (`View.Sees`).  Each shows all the tuples that were there in the
beginning, and none that is wanted and is not allowed to be returned.  In between the tuples of a page may
lie anywhere, and where the scan of a B-tree stands is up to that B-tree (`NBTree`).

`active_index` is read twice in a call, for the first and for the second index of the order.  With two different
values the loop tries one of the top indexes twice and the other not at all, and most of the theorems are about
calls in which they are equal.
-/

set_option autoImplicit false

namespace ScratchStore

namespace Lsm3

open Std PageScan

variable {n : ℕ} {D : Fin n → Type} {sortKeys : SortKeys D} {B : NBTree sortKeys}

/-- There are two top indexes. -/
instance neZeroTwo : NeZero 2 := ⟨by decide⟩

/-- `IndexScanDesc`: the scan keys, as what they want of a tuple and how many they are, and whether the
index has the option `unique`. -/
structure IndexScan {n : ℕ} (D : Fin n → Type) where
  want : IndexTuple D → Bool
  numberOfKeys : ℕ
  unique : Bool

/-- `Lsm3ScanOpaque`: `scan[i]->currPos` is where the scan of an index stands, if it stands at all, and
`-1` for `curr_index` is `none`. -/
structure Lsm3ScanOpaque {n : ℕ} {D : Fin n → Type} {sortKeys : SortKeys D} (B : NBTree sortKeys) where
  currPos : Fin 3 → Option B.Pos
  eof : Fin 3 → Bool
  currIndex : Option (Fin 3)

/-- The state of a scan after `lsm3_beginscan` and `lsm3_rescan`. -/
def rescan : Lsm3ScanOpaque B := ⟨fun _ ↦ none, fun _ ↦ false, none⟩

namespace Lsm3ScanOpaque

variable (so : Lsm3ScanOpaque B) (i : Fin 3)

/-- `scan[i]->xs_itup` -/
def itup : Option (IndexTuple D) := (so.currPos i).map B.item

/-- What `_bt_first` and `_bt_next` leave behind: `so->eof[i] = !_bt_next(so->scan[i], dir)` -/
def move (pos : Option B.Pos) : Lsm3ScanOpaque B :=
  { so with currPos := Function.update so.currPos i pos, eof := Function.update so.eof i pos.isNone }

/-- `so->eof[i] = true` -/
def stop : Lsm3ScanOpaque B := { so with eof := Function.update so.eof i true }

end Lsm3ScanOpaque

variable (scan : IndexScan D) (dir : ScanDirection)

/-- `so->eof[i] = !_bt_first(so->scan[i], dir)` -/
def btFirst (i : Fin 3) (R : Reads B.Layout (IndexTuple D)) (so : Lsm3ScanOpaque B) : Lsm3ScanOpaque B :=
  so.move i (B.first dir scan.want R)

/-- `so->eof[i] = !_bt_next(so->scan[i], dir)` -/
def btNext (i : Fin 3) (R : Reads B.Layout (IndexTuple D)) (so : Lsm3ScanOpaque B) : Lsm3ScanOpaque B :=
  so.move i ((so.currPos i).bind (B.next dir scan.want R))

/-- The end of the loop of `lsm3_gettuple`: is the tuple of `i` before that of `min`? -/
def selectMin (i : Fin 3) (skip : Reads B.Layout (IndexTuple D)) (so : Lsm3ScanOpaque B) (min : Option (Fin 3)) :
    Lsm3ScanOpaque B × Option (Fin 3) :=
  if so.eof i then (so, min)
  else
    match min with
    | none => (so, some i)
    | some m =>
      match so.itup i, so.itup m with
      | some a, some b =>
        let result := compareIndexTuples sortKeys a b
        -- the same tuple in the top and the base index
        if result = .eq then (btNext scan dir i skip so, some m)
        else if (result = .lt) = (dir = .forward) then (so, some i)
        else (so, some m)
      | _, _ => (so, some m)

/-- The loop of `lsm3_gettuple`, over the indexes that are left and the pages it reads of each. -/
def tryIndexes : List (Fin 3 × Reads B.Layout (IndexTuple D) × Reads B.Layout (IndexTuple D)) → Lsm3ScanOpaque B →
    Option (Fin 3) → Lsm3ScanOpaque B × Option (Fin 3)
  | [], so, min => (so, min)
  | (i, first, skip) :: rest, so, min =>
    if so.eof i = false ∧ so.currPos i = none then
      let so := btFirst scan dir i first so
      if so.eof i = false ∧ scan.unique = true ∧ scan.numberOfKeys = n then
        (rest.foldl (fun so x ↦ so.stop x.1) so, some i)
      else
        let (so, min) := selectMin scan dir i skip so min
        tryIndexes rest so min
    else
      let (so, min) := selectMin scan dir i skip so min
      tryIndexes rest so min

/-- What one call of `lsm3_gettuple` sees of the indexes: `active_index`, which it reads twice, and the
pages, for each place at which it reads some: where it goes on with the index the last tuple is from, and
in each round of the loop. -/
structure View {n : ℕ} {D : Fin n → Type} {sortKeys : SortKeys D} (B : NBTree sortKeys) where
  activeIndex : Fin 2
  activeIndex' : Fin 2
  advance : Fin 3 → Reads B.Layout (IndexTuple D)
  first : Fin 3 → Reads B.Layout (IndexTuple D)
  skip : Fin 3 → Reads B.Layout (IndexTuple D)

/-- The number of a top index. -/
def top (a : Fin 2) : Fin 3 := a.castSucc

/-- The number of the base index. -/
def base : Fin 3 := 2

/-- `try_index_order` -/
def View.tryIndexOrder (v : View B) : Fin 3 → Fin 3 :=
  ![top v.activeIndex, top (1 - v.activeIndex'), base]

/-- `lsm3_gettuple` -/
def gettuple (v : View B) (so : Lsm3ScanOpaque B) : Option (IndexTuple D) × Lsm3ScanOpaque B :=
  let so :=
    match so.currIndex with
    | none => so
    | some curr => btNext scan dir curr (v.advance curr) so
  let order := (List.finRange 3).map fun j ↦ (v.tryIndexOrder j, v.first j, v.skip j)
  let (so, min) := tryIndexes scan dir order so none
  match min with
  | none => (none, so)
  | some m => (so.itup m, { so with currIndex := some m })

/-- A caller that fetches tuples: those it gets, and whether there are no more. -/
def fetch : List (View B) → Lsm3ScanOpaque B → List (IndexTuple D) × Bool
  | [], _ => ([], false)
  | v :: vs, so =>
    match gettuple scan dir v so with
    | (none, _) => ([], true)
    | (some t, so) => ((t :: (fetch vs so).1), (fetch vs so).2)

/-! ## What a scan returns

A call is followed through its loop with the index that has the first tuple so far (`Minimum`). -/

variable {scan dir} {S : Fin 3 → Index D} {P : IndexTuple D → Prop} {so : Lsm3ScanOpaque B}
  {c : Option (Fin 3)} {out : List (IndexTuple D)}

/-- The pages read of the index `i` show all of `S i`, without duplicates, and what they show that is
wanted is `P`. -/
def Sees (sortKeys : SortKeys D) (scan : IndexScan D) (S : Fin 3 → Index D) (P : IndexTuple D → Prop)
    (i : Fin 3) {Layout : Type} (R : Reads Layout (IndexTuple D)) : Prop :=
  ∀ k, Shows (Sorted sortKeys) scan.want (S i) P (R.index k)

/-- What is true of the indexes whenever a call reads a page. -/
structure View.Reads (p : Fin 3 → Index D → Prop) (v : View B) : Prop where
  advance : ∀ i k, p i ((v.advance i).index k)
  first : ∀ j k, p (v.tryIndexOrder j) ((v.first j).index k)
  skip : ∀ j k, p (v.tryIndexOrder j) ((v.skip j).index k)

/-- The pages read in a call. -/
def View.Sees (scan : IndexScan D) (S : Fin 3 → Index D) (P : IndexTuple D → Prop) (v : View B) : Prop :=
  v.Reads fun i index ↦ Shows (Sorted sortKeys) scan.want (S i) P index

/-- What is still to come from the index `i`. -/
def Todo (dir : ScanDirection) (S : Fin 3 → Index D) (so : Lsm3ScanOpaque B) (i : Fin 3)
    (x : IndexTuple D) : Prop :=
  match so.currPos i with
  | none => so.eof i = false ∧ x ∈ S i
  | some p => B.Pending (before sortKeys) dir (S i) p x

/-- The invariant of a scan that has returned `out`, in which the index `c` is still at the tuple that
was returned last. -/
structure Scanning (scan : IndexScan D) (dir : ScanDirection) (S : Fin 3 → Index D)
    (P : IndexTuple D → Prop) (so : Lsm3ScanOpaque B) (c : Option (Fin 3)) (out : List (IndexTuple D)) :
    Prop where
  /-- An index that is at a tuple is not at its end. -/
  eof : ∀ i p, so.currPos i = some p → so.eof i = false
  /-- An index has come to its place by the steps of a scan. -/
  reached : ∀ i p, so.currPos i = some p → B.Reached (Sorted sortKeys) dir scan.want (S i) P p
  /-- An index stands behind all that was returned, but for the one that the last tuple is from. -/
  ahead : ∀ i p, so.currPos i = some p → c ≠ some i → ∀ t ∈ out, before sortKeys dir t (B.item p)
  /-- That one is still at the last tuple. -/
  current : ∀ i, c = some i → ∃ p, so.currPos i = some p ∧ B.item p ∈ out ∧
    ∀ t ∈ out, t = B.item p ∨ before sortKeys dir t (B.item p)
  /-- Nothing is missed. -/
  cover : ∀ i, ∀ x ∈ S i, x ∈ out ∨ ∃ i', Todo dir S so i' x
  /-- An index that has not been read yet is read before anything is returned. -/
  fresh : ∀ i, so.currPos i = none → so.eof i = false → out = []

theorem scanning_rescan : Scanning scan dir S P (rescan : Lsm3ScanOpaque B) none [] where
  eof _ _ h := nomatch h
  reached _ _ h := nomatch h
  ahead _ _ h := nomatch h
  current _ h := nomatch h
  cover i _ hx := Or.inr ⟨i, rfl, hx⟩
  fresh _ _ _ := rfl

@[simp] theorem currPos_move (i i' : Fin 3) (pos : Option B.Pos) :
    (so.move i pos).currPos i' = if i' = i then pos else so.currPos i' := by
  simp [Lsm3ScanOpaque.move, Function.update_apply]

@[simp] theorem eof_move (i i' : Fin 3) (pos : Option B.Pos) :
    (so.move i pos).eof i' = if i' = i then pos.isNone else so.eof i' := by
  simp [Lsm3ScanOpaque.move, Function.update_apply]

theorem todo_move_of_ne {i i' : Fin 3} (h : i' ≠ i) {pos : Option B.Pos} {x : IndexTuple D} :
    Todo dir S (so.move i pos) i' x ↔ Todo dir S so i' x := by
  simp only [Todo, currPos_move, eof_move, if_neg h]

/-- One of the indexes goes on: it may leave behind what has been returned, and what is still to come from
another one. -/
theorem Scanning.move {i : Fin 3} {pos : Option B.Pos} {after todo : IndexTuple D → Prop}
    (h : Scanning scan dir S P so c out) (hc : ∀ i', c = some i' → i' = i)
    (hfinds : B.Finds dir scan.want (S i) P after todo pos)
    (hafter : ∀ x, after x → ∀ t ∈ out, before sortKeys dir t x)
    (htodo : ∀ x, Todo dir S so i x →
      todo x ∨ x ∈ out ∨ ∃ i', i' ≠ i ∧ Todo dir S so i' x) :
    Scanning scan dir S P (so.move i pos) none out := by
  have hcover : ∀ x, todo x → Todo dir S (so.move i pos) i x := by
    intro x hx
    rw [Todo, currPos_move, if_pos rfl]
    cases pos with
    | none => exact absurd hx (hfinds x)
    | some p => exact hfinds.2.2 x hx
  refine ⟨fun i' p hp ↦ ?_, fun i' p hp ↦ ?_, fun i' p hp _ ↦ ?_, fun _ hc ↦ (nomatch hc),
    fun i' x hx ↦ ?_, fun i' hpos heof ↦ ?_⟩
  · rw [currPos_move] at hp
    rw [eof_move]
    split at hp
    · rw [if_pos ‹_›, hp]
      rfl
    · rw [if_neg ‹_›]
      exact h.eof i' p hp
  · rw [currPos_move] at hp
    by_cases hii : i' = i
    · rw [if_pos hii] at hp
      subst hp
      rw [hii]
      exact hfinds.1
    · rw [if_neg hii] at hp
      exact h.reached i' p hp
  · rw [currPos_move] at hp
    split at hp
    · subst hp
      exact hafter _ hfinds.2.1
    · exact h.ahead i' p hp fun hc' ↦ ‹¬i' = i› (hc i' hc')
  · rcases h.cover i' x hx with hout | ⟨i'', hi''⟩
    · exact Or.inl hout
    · by_cases hii : i'' = i
      · subst hii
        rcases htodo x hi'' with ht | hout | ⟨k, hk, hx'⟩
        · exact Or.inr ⟨_, hcover x ht⟩
        · exact Or.inl hout
        · exact Or.inr ⟨k, (todo_move_of_ne hk).mpr hx'⟩
      · exact Or.inr ⟨i'', (todo_move_of_ne hii).mpr hi''⟩
  · rw [currPos_move] at hpos
    rw [eof_move] at heof
    split at hpos
    · rw [if_pos ‹_›, hpos] at heof
      exact absurd heof (by simp)
    · rw [if_neg ‹_›] at heof
      exact h.fresh i' hpos heof

/-- The first page of an index is read before anything is returned. -/
theorem Scanning.btFirst (hwant : ∀ i, ∀ x ∈ S i, scan.want x = true) {i : Fin 3}
    {R : Reads B.Layout (IndexTuple D)} (h : Scanning scan dir S P so none out) (hpos : so.currPos i = none)
    (heof : so.eof i = false) (hR : Sees sortKeys scan S P i R) :
    Scanning scan dir S P (btFirst scan dir i R so) none out := by
  obtain rfl := h.fresh i hpos heof
  refine h.move (fun _ hc ↦ nomatch hc) (Scanner.first_finds (hwant i) hR) (fun _ _ ↦ by simp) fun x hx ↦ ?_
  rw [Todo, hpos] at hx
  exact Or.inl hx.2

/-- The index the last tuple is from goes on. -/
theorem Scanning.advance (hwant : ∀ i, ∀ x ∈ S i, scan.want x = true) {i : Fin 3}
    {R : Reads B.Layout (IndexTuple D)} (h : Scanning scan dir S P so (some i) out)
    (hR : Sees sortKeys scan S P i R) :
    Scanning scan dir S P (btNext scan dir i R so) none out := by
  obtain ⟨p, hp, hitem, hlast⟩ := h.current i rfl
  rw [btNext, hp, Option.bind_some]
  refine h.move (fun _ hc ↦ (Option.some.inj hc).symm)
    (Scanner.next_finds (hwant i) hR (h.reached i p hp)) (fun x hx t ht ↦ ?_) fun x hx ↦ ?_
  · rcases hlast t ht with rfl | hlt
    · exact hx
    · exact trans_of _ hlt hx
  · rw [Todo, hp] at hx
    by_cases hxp : x = B.item p
    · exact Or.inr (Or.inl (hxp ▸ hitem))
    · exact Or.inl ⟨hx, hxp⟩

/-- Where an index is when it has gone on. -/
theorem visited_btNext (hwant : ∀ i, ∀ x ∈ S i, scan.want x = true) {i : Fin 3} {R : Reads B.Layout (IndexTuple D)}
    {p : B.Pos} (hp : so.currPos i = some p) (hreached : B.Reached (Sorted sortKeys) dir scan.want (S i) P p)
    (hR : Sees sortKeys scan S P i R) :
    (btNext scan dir i R so).eof i = true ∨
      ∃ q, (btNext scan dir i R so).currPos i = some q ∧ before sortKeys dir (B.item p) (B.item q) := by
  have hfinds := Scanner.next_finds (hwant i) hR hreached
  rw [btNext, hp, Option.bind_some, eof_move, currPos_move, if_pos rfl, if_pos rfl]
  cases hnext : B.next dir scan.want R p with
  | none => exact Or.inl rfl
  | some q =>
    rw [hnext] at hfinds
    exact Or.inr ⟨q, rfl, hfinds.2.1⟩

/-- An index skips a tuple that another one is at. -/
theorem Scanning.skip (hwant : ∀ i, ∀ x ∈ S i, scan.want x = true) {i m : Fin 3}
    {R : Reads B.Layout (IndexTuple D)} (h : Scanning scan dir S P so none out) {p q : B.Pos}
    (hp : so.currPos i = some p) (hm : m ≠ i) (hq : so.currPos m = some q) (hpq : B.item p = B.item q)
    (hR : Sees sortKeys scan S P i R) :
    Scanning scan dir S P (btNext scan dir i R so) none out := by
  rw [btNext, hp, Option.bind_some]
  refine h.move (fun _ hc ↦ nomatch hc) (Scanner.next_finds (hwant i) hR (h.reached i p hp))
    (fun x hx t ht ↦ trans_of _ (h.ahead i p hp (fun hc ↦ nomatch hc) t ht) hx) fun x hx ↦ ?_
  rw [Todo, hp] at hx
  by_cases hxp : x = B.item p
  · refine Or.inr (Or.inr ⟨m, hm, ?_⟩)
    rw [Todo, hq, hxp, hpq]
    exact Or.inl rfl
  · exact Or.inl ⟨hx, hxp⟩

/-- What `min` is when the loop has been at the indexes `done`. -/
def Minimum (dir : ScanDirection) (so : Lsm3ScanOpaque B)
    (done : List (Fin 3)) : Option (Fin 3) → Prop
  | none => ∀ i ∈ done, so.eof i = true
  | some m => m ∈ done ∧ ∃ p, so.currPos m = some p ∧ ∀ i ∈ done, i ≠ m →
      so.eof i = true ∨ ∃ q, so.currPos i = some q ∧ before sortKeys dir (B.item p) (B.item q)

theorem minimum_nil (so : Lsm3ScanOpaque B) : Minimum dir so [] none := fun _ hi ↦ nomatch hi

theorem Minimum.move {done : List (Fin 3)} {min : Option (Fin 3)} {i : Fin 3}
    (h : Minimum dir so done min) (hi : i ∉ done) (pos : Option B.Pos) :
    Minimum dir (so.move i pos) done min := by
  have hne : ∀ k ∈ done, k ≠ i := fun k hk hki ↦ hi (hki ▸ hk)
  cases min with
  | none =>
    intro k hk
    rw [eof_move, if_neg (hne k hk)]
    exact h k hk
  | some m =>
    obtain ⟨hm, p, hp, hrest⟩ := h
    refine ⟨hm, p, by rw [currPos_move, if_neg (hne m hm), hp], fun k hk hkm ↦ ?_⟩
    rw [eof_move, currPos_move, if_neg (hne k hk), if_neg (hne k hk)]
    exact hrest k hk hkm

/-- The direction of the comparison. -/
theorem before_of_compare (dir : ScanDirection) {a b : IndexTuple D}
    (hne : compareIndexTuples sortKeys a b ≠ .eq) :
    if (compareIndexTuples sortKeys a b = .lt) = (dir = .forward) then before sortKeys dir a b
    else before sortKeys dir b a := by
  have hgt : compareIndexTuples sortKeys a b = .gt ↔ compareIndexTuples sortKeys b a = .lt :=
    OrientedCmp.gt_iff_lt
  cases hcmp : compareIndexTuples sortKeys a b with
  | eq => exact absurd hcmp hne
  | lt => cases dir <;> simp [before, hcmp]
  | gt => cases dir <;> simp [before, hgt.mp hcmp]

/-- **The selection of the minimum**: the index `i` is compared with the first of those before it. -/
theorem selectMin_spec (hwant : ∀ i, ∀ x ∈ S i, scan.want x = true) {i : Fin 3} {min : Option (Fin 3)}
    {done : List (Fin 3)} {R : Reads B.Layout (IndexTuple D)} (h : Scanning scan dir S P so none out)
    (hmin : Minimum dir so done min) (hi : i ∉ done)
    (hvisited : so.eof i = true ∨ ∃ p, so.currPos i = some p) (hR : Sees sortKeys scan S P i R) :
    Scanning scan dir S P (selectMin scan dir i R so min).1 none out ∧
      Minimum dir (selectMin scan dir i R so min).1 (i :: done)
        (selectMin scan dir i R so min).2 := by
  unfold selectMin
  by_cases heof : so.eof i = true
  · rw [if_pos heof]
    refine ⟨h, ?_⟩
    cases min with
    | none => exact List.forall_mem_cons.mpr ⟨heof, hmin⟩
    | some m =>
      obtain ⟨hm, p, hp, hrest⟩ := hmin
      exact ⟨List.mem_cons_of_mem _ hm, p, hp,
        List.forall_mem_cons.mpr ⟨fun _ ↦ Or.inl heof, hrest⟩⟩
  · obtain ⟨q, hq⟩ := hvisited.resolve_left heof
    rw [if_neg heof]
    cases min with
    | none =>
      refine ⟨h, List.mem_cons_self, q, hq, ?_⟩
      exact List.forall_mem_cons.mpr ⟨fun hne ↦ absurd rfl hne, fun k hk _ ↦ Or.inl (hmin k hk)⟩
    | some m =>
      obtain ⟨hm, p, hp, hrest⟩ := hmin
      have hmi : m ≠ i := fun hmi ↦ hi (hmi ▸ hm)
      simp only [Lsm3ScanOpaque.itup, hp, hq, Option.map_some]
      split_ifs with heq hlt
      · -- the tuple is in both indexes
        have hitem : B.item q = B.item p := LawfulEqCmp.eq_of_compare heq
        refine ⟨h.skip hwant hq hmi hp hitem hR, List.mem_cons_of_mem _ hm, p, ?_, ?_⟩
        · rw [btNext, currPos_move, if_neg hmi, hp]
        · refine List.forall_mem_cons.mpr ⟨fun _ ↦ ?_, fun k hk hkm ↦ ?_⟩
          · rw [← hitem]
            exact visited_btNext hwant hq (h.reached i q hq) hR
          · have hki : k ≠ i := fun hki ↦ hi (hki ▸ hk)
            rw [btNext, eof_move, currPos_move, if_neg hki, if_neg hki]
            exact hrest k hk hkm
      · -- the new minimum is before all the others
        have hnew : before sortKeys dir (B.item q) (B.item p) := by
          have := before_of_compare dir heq
          rwa [if_pos hlt] at this
        refine ⟨h, List.mem_cons_self, q, hq, List.forall_mem_cons.mpr ⟨fun hne ↦ absurd rfl hne, ?_⟩⟩
        intro k hk _
        by_cases hkm : k = m
        · exact Or.inr ⟨p, hkm ▸ hp, hnew⟩
        · refine (hrest k hk hkm).imp_right ?_
          rintro ⟨r, hr, hpr⟩
          exact ⟨r, hr, trans_of _ hnew hpr⟩
      · have hold : before sortKeys dir (B.item p) (B.item q) := by
          have := before_of_compare dir heq
          rwa [if_neg hlt] at this
        exact ⟨h, List.mem_cons_of_mem _ hm, p, hp,
          List.forall_mem_cons.mpr ⟨fun _ ↦ Or.inr ⟨q, hq, hold⟩, hrest⟩⟩

/-- An index that is not at its end is somewhere once its first page has been read. -/
theorem visited_of_not {i : Fin 3} (h : ¬(so.eof i = false ∧ so.currPos i = none)) :
    so.eof i = true ∨ ∃ p, so.currPos i = some p := by
  cases heof : so.eof i with
  | true => exact Or.inl rfl
  | false => exact Or.inr (Option.ne_none_iff_exists'.mp fun hpos ↦ h ⟨heof, hpos⟩)

theorem visited_btFirst {i : Fin 3} {R : Reads B.Layout (IndexTuple D)} :
    (btFirst scan dir i R so).eof i = true ∨
      ∃ p, (btFirst scan dir i R so).currPos i = some p := by
  rw [btFirst, eof_move, currPos_move, if_pos rfl, if_pos rfl]
  cases B.first dir scan.want R with
  | none => exact Or.inl rfl
  | some p => exact Or.inr ⟨p, rfl⟩

theorem tryIndexes_first {i : Fin 3} {first skip : Reads B.Layout (IndexTuple D)}
    {rest : List (Fin 3 × Reads B.Layout (IndexTuple D) × Reads B.Layout (IndexTuple D))} {min : Option (Fin 3)}
    (h : so.eof i = false ∧ so.currPos i = none)
    (hgo : ¬((btFirst scan dir i first so).eof i = false ∧ scan.unique = true ∧
      scan.numberOfKeys = n)) :
    tryIndexes scan dir ((i, first, skip) :: rest) so min =
      tryIndexes scan dir rest
        (selectMin scan dir i skip (btFirst scan dir i first so) min).1
        (selectMin scan dir i skip (btFirst scan dir i first so) min).2 := by
  rw [tryIndexes, if_pos h]
  exact if_neg hgo

theorem tryIndexes_visited {i : Fin 3} {first skip : Reads B.Layout (IndexTuple D)}
    {rest : List (Fin 3 × Reads B.Layout (IndexTuple D) × Reads B.Layout (IndexTuple D))} {min : Option (Fin 3)}
    (h : ¬(so.eof i = false ∧ so.currPos i = none)) :
    tryIndexes scan dir ((i, first, skip) :: rest) so min =
      tryIndexes scan dir rest (selectMin scan dir i skip so min).1
        (selectMin scan dir i skip so min).2 := by
  rw [tryIndexes, if_neg h]

/-- **The loop of a call**, when it does not stop early: in the end `min` is the first of the indexes it
has been at. -/
theorem tryIndexes_spec (hwant : ∀ i, ∀ x ∈ S i, scan.want x = true)
    (hplain : ¬(scan.unique = true ∧ scan.numberOfKeys = n))
    {rest : List (Fin 3 × Reads B.Layout (IndexTuple D) × Reads B.Layout (IndexTuple D))} {min : Option (Fin 3)}
    {done : List (Fin 3)} (h : Scanning scan dir S P so none out)
    (hmin : Minimum dir so done min) (hnodup : (rest.map Prod.fst).Nodup)
    (hdone : ∀ x ∈ rest, x.1 ∉ done)
    (hreads : ∀ x ∈ rest, Sees sortKeys scan S P x.1 x.2.1 ∧ Sees sortKeys scan S P x.1 x.2.2) :
    Scanning scan dir S P (tryIndexes scan dir rest so min).1 none out ∧
      Minimum dir (tryIndexes scan dir rest so min).1 ((rest.map Prod.fst).reverse ++ done)
        (tryIndexes scan dir rest so min).2 := by
  induction rest generalizing so min done with
  | nil => exact ⟨h, hmin⟩
  | cons x rest ih =>
    obtain ⟨i, first, skip⟩ := x
    obtain ⟨⟨hfirst, hskip⟩, hrest⟩ := List.forall_mem_cons.mp hreads
    obtain ⟨hi, hdone⟩ := List.forall_mem_cons.mp hdone
    obtain ⟨hnotin, htail⟩ := List.nodup_cons.mp hnodup
    have hdone' : ∀ y ∈ rest, y.1 ∉ i :: done := by
      intro y hy
      rw [List.mem_cons, not_or]
      exact ⟨fun heq ↦ hnotin (List.mem_map.mpr ⟨y, hy, heq⟩), hdone y hy⟩
    have hlist : (((i, first, skip) :: rest).map Prod.fst).reverse ++ done =
        (rest.map Prod.fst).reverse ++ (i :: done) := by simp
    rw [hlist]
    by_cases hstart : so.eof i = false ∧ so.currPos i = none
    · have hscan := h.btFirst hwant hstart.2 hstart.1 hfirst
      obtain ⟨hscan', hmin'⟩ := selectMin_spec hwant hscan (hmin.move hi _) hi visited_btFirst hskip
      rw [tryIndexes_first hstart fun hstop ↦ hplain hstop.2]
      exact ih hscan' hmin' htail hdone' hrest
    · obtain ⟨hscan', hmin'⟩ := selectMin_spec hwant h hmin hi (visited_of_not hstart) hskip
      rw [tryIndexes_visited hstart]
      exact ih hscan' hmin' htail hdone' hrest

/-- The two top indexes and the base index, whichever top index is active. -/
theorem nodup_tryIndexOrder {v : View B} (hv : v.activeIndex' = v.activeIndex) :
    ((List.finRange 3).map v.tryIndexOrder).Nodup ∧ ∀ i, i ∈ (List.finRange 3).map v.tryIndexOrder := by
  rw [View.tryIndexOrder.eq_1, hv]
  generalize v.activeIndex = a
  revert a
  decide

/-- Nothing is left when all the indexes are at their ends. -/
theorem Scanning.exhausted (h : Scanning scan dir S P so none out) (heof : ∀ i, so.eof i = true) (i : Fin 3)
    {x : IndexTuple D} (hx : x ∈ S i) : x ∈ out := by
  refine (h.cover i x hx).resolve_right ?_
  rintro ⟨i', hi'⟩
  rw [Todo] at hi'
  cases hpos : so.currPos i' with
  | none =>
    rw [hpos, heof i'] at hi'
    exact absurd hi'.1 (by simp)
  | some p => exact absurd ((heof i').symm.trans (h.eof i' p hpos)) (by simp)

/-- The first of the tuples the indexes are at is returned. -/
theorem Scanning.returns {m : Fin 3} {p : B.Pos} (h : Scanning scan dir S P so none out)
    (hp : so.currPos m = some p)
    (hrest : ∀ i, i ≠ m → so.eof i = true ∨
      ∃ q, so.currPos i = some q ∧ before sortKeys dir (B.item p) (B.item q)) :
    Scanning scan dir S P { so with currIndex := some m } (some m) (out ++ [B.item p]) := by
  have hahead := h.ahead m p hp (fun hc ↦ nomatch hc)
  refine ⟨h.eof, h.reached, fun i q hq hne t ht ↦ ?_, fun i hi ↦ ?_, fun i x hx ↦ ?_, fun i hpos heof ↦ ?_⟩
  · rcases hrest i (fun him ↦ hne (congrArg some him.symm)) with heof | ⟨q', hq', hlt⟩
    · exact absurd (heof.symm.trans (h.eof i q hq)) (by simp)
    · obtain rfl : q' = q := Option.some.inj (hq'.symm.trans hq)
      rcases List.mem_append.mp ht with hout | hlast
      · exact h.ahead i _ hq (fun hc ↦ nomatch hc) t hout
      · exact List.mem_singleton.mp hlast ▸ hlt
  · obtain rfl := Option.some.inj hi
    refine ⟨p, hp, by simp, fun t ht ↦ ?_⟩
    rcases List.mem_append.mp ht with hout | hlast
    · exact Or.inr (hahead t hout)
    · exact Or.inl (List.mem_singleton.mp hlast)
  · exact (h.cover i x hx).imp_left fun hout ↦ List.mem_append_left _ hout
  · by_cases him : i = m
    · exact absurd ((him ▸ hp).symm.trans hpos) (by simp)
    · rcases hrest i him with heof' | ⟨q, hq, -⟩
      · exact absurd (heof'.symm.trans heof) (by simp)
      · exact absurd (hq.symm.trans hpos) (by simp)

/-- What is still to come is behind what has been returned. -/
theorem Scanning.behind (h : Scanning scan dir S P so c out) (i : Fin 3) {x : IndexTuple D} (hx : x ∈ S i) :
    x ∈ out ∨ ∀ t ∈ out, before sortKeys dir t x := by
  rcases h.cover i x hx with hout | ⟨i', hi'⟩
  · exact Or.inl hout
  · rw [Todo] at hi'
    cases hpos : so.currPos i' with
    | none =>
      rw [hpos] at hi'
      exact Or.inr (by simp [h.fresh i' hpos hi'.1])
    | some p =>
      rw [hpos] at hi'
      have hge : x = B.item p ∨ before sortKeys dir (B.item p) x := hi'.imp_right And.right
      by_cases hc : c = some i'
      · obtain ⟨q, hq, hitem, hlast⟩ := h.current i' hc
        obtain rfl : q = p := Option.some.inj (hq.symm.trans hpos)
        rcases hge with rfl | hgt
        · exact Or.inl hitem
        · refine Or.inr fun t ht ↦ ?_
          rcases hlast t ht with rfl | hlt
          · exact hgt
          · exact trans_of _ hlt hgt
      · refine Or.inr fun t ht ↦ ?_
        have hlt := h.ahead i' p hpos hc t ht
        rcases hge with rfl | hgt
        · exact hlt
        · exact trans_of _ hlt hgt

/-- **A call of `lsm3_gettuple`** returns a tuple behind all those before, when there is one. -/
theorem gettuple_spec (hwant : ∀ i, ∀ x ∈ S i, scan.want x = true)
    (hplain : ¬(scan.unique = true ∧ scan.numberOfKeys = n)) {v : View B}
    (hv : v.activeIndex' = v.activeIndex) (hsees : v.Sees scan S P)
    (h : Scanning scan dir S P so so.currIndex out) :
    match gettuple scan dir v so with
    | (none, _) => ∀ i, ∀ x ∈ S i, x ∈ out
    | (some t, so') => (∀ x ∈ out, before sortKeys dir x t) ∧ P t ∧
        Scanning scan dir S P so' so'.currIndex (out ++ [t]) := by
  have hadvance : Scanning scan dir S P
      (match so.currIndex with
        | none => so
        | some curr => btNext scan dir curr (v.advance curr) so) none out := by
    generalize so.currIndex = c at h
    cases c with
    | none => exact h
    | some curr => exact h.advance hwant (hsees.advance curr)
  obtain ⟨hnodup, hall⟩ := nodup_tryIndexOrder hv
  have hfst : ((List.finRange 3).map fun j ↦ (v.tryIndexOrder j, v.first j, v.skip j)).map Prod.fst =
      (List.finRange 3).map v.tryIndexOrder := by rw [List.map_map]; rfl
  have hreads : ∀ j, Sees sortKeys scan S P (v.tryIndexOrder j) (v.first j) ∧
      Sees sortKeys scan S P (v.tryIndexOrder j) (v.skip j) := fun j ↦ ⟨hsees.first j, hsees.skip j⟩
  have hloop := tryIndexes_spec hwant hplain hadvance (minimum_nil _)
    (hfst.symm ▸ hnodup) (fun _ _ ↦ List.not_mem_nil)
    (List.forall_mem_map.mpr fun j _ ↦ hreads j)
  rw [hfst, List.append_nil] at hloop
  rw [gettuple]
  revert hloop
  generalize tryIndexes scan dir _ _ none = r
  obtain ⟨so', min⟩ := r
  rintro ⟨hscan, hmin⟩
  have hmem : ∀ i, i ∈ ((List.finRange 3).map v.tryIndexOrder).reverse := fun i ↦
    List.mem_reverse.mpr (hall i)
  cases min with
  | none => exact fun i x hx ↦ hscan.exhausted (fun i' ↦ hmin i' (hmem i')) i hx
  | some m =>
    obtain ⟨-, p, hp, hrest⟩ := hmin
    dsimp only at hp hscan
    simp only [Lsm3ScanOpaque.itup, hp, Option.map_some]
    exact ⟨hscan.ahead m p hp (fun hc ↦ nomatch hc), Scanner.sound (hwant m) (hscan.reached m p hp),
      hscan.returns hp fun i him ↦ hrest i (hmem i) him⟩

variable (dir) in
/-- **A scan**: the tuples come in order, each of them once, all of them are `P`, and up to the last one
none is missing that was in one of the indexes all the time.  None is missing at all when there are no
more. -/
theorem fetch_spec (hwant : ∀ i, ∀ x ∈ S i, scan.want x = true)
    (hplain : ¬(scan.unique = true ∧ scan.numberOfKeys = n)) {vs : List (View B)}
    (hvs : ∀ v ∈ vs, v.activeIndex' = v.activeIndex ∧ v.Sees scan S P)
    (h : Scanning scan dir S P so so.currIndex out) (hordered : out.Pairwise (before sortKeys dir))
    (hP : ∀ t ∈ out, P t) :
    (out ++ (fetch scan dir vs so).1).Pairwise (before sortKeys dir) ∧
      (∀ t ∈ out ++ (fetch scan dir vs so).1, P t) ∧
      (∀ i, ∀ x ∈ S i, x ∈ out ++ (fetch scan dir vs so).1 ∨
        (fetch scan dir vs so).2 = false ∧
          ∀ t ∈ out ++ (fetch scan dir vs so).1, before sortKeys dir t x) ∧
      ((fetch scan dir vs so).2 = false → (fetch scan dir vs so).1.length = vs.length) := by
  induction vs generalizing so out with
  | nil =>
    simp only [fetch, List.append_nil]
    exact ⟨hordered, hP, fun i x hx ↦ (h.behind i hx).imp_right fun hb ↦ ⟨trivial, hb⟩, fun _ ↦ rfl⟩
  | cons v vs ih =>
    obtain ⟨⟨hv, hsees⟩, hvs⟩ := List.forall_mem_cons.mp hvs
    have hcall := gettuple_spec hwant hplain hv hsees h
    rw [fetch]
    revert hcall
    generalize gettuple scan dir v so = r
    obtain ⟨t, so'⟩ := r
    cases t with
    | none =>
      intro hall
      simp only [List.append_nil]
      exact ⟨hordered, hP, fun i x hx ↦ Or.inl (hall i x hx), fun hf ↦ nomatch hf⟩
    | some t =>
      rintro ⟨hlt, hPt, hscan⟩
      have hordered' : (out ++ [t]).Pairwise (before sortKeys dir) :=
        List.pairwise_append.mpr ⟨hordered, List.pairwise_singleton _ _, fun x hx y hy ↦
          List.mem_singleton.mp hy ▸ hlt x hx⟩
      have hP' : ∀ x ∈ out ++ [t], P x := by
        intro x hx
        rcases List.mem_append.mp hx with hout | hlast
        · exact hP x hout
        · exact List.mem_singleton.mp hlast ▸ hPt
      obtain ⟨h₁, h₂, h₃, h₄⟩ := ih hvs hscan hordered' hP'
      simp only [List.append_assoc, List.singleton_append] at h₁ h₂ h₃
      exact ⟨h₁, h₂, h₃, fun hf ↦ congrArg (· + 1) (h₄ hf)⟩

end Lsm3

end ScratchStore
