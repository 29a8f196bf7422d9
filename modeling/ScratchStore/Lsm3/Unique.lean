import ScratchStore.Lsm3.ScanRun

/-!
# Lookups in an index that is marked as unique

When an index has the option `unique` and a scan is for all of its keys, the first call stops at the first
index that has a tuple the scan wants.  From then on the other two are at their ends, so such a scan is a
scan of one B-tree.  It returns what a scan of all three returns if, and only if, there is nothing to find
behind that index.

* `firstMatch` is the index that the first call stops at, and `Only` the state of the scan from then on.
* `fetch_unique`: such a scan is a scan of one B-tree, call by call.
* `State.unique_agrees_iff`: when it returns what a scan of all three indexes returns, for indexes that do
  not change.
* `State.unique_fetch_run`: a lookup of a tuple that is the only one with its keys, while tuples are inserted
  and merged.

As in `Lsm3.ScanRun` the two reads of `active_index` in a call are the same.

## The shortcut

The first call leaves the loop as soon as an index has a tuple, and sets `eof` of those it has not tried.
That is right when there is one tuple with these keys, and there should be no more than one live row with
them.  But an update leaves the tuple of the old row where it is, and a tuple that is being merged is in two
of the indexes, and so a lookup may have more than one to find.

`unique_agrees_iff` does not ask why there are several.  It is a statement about three lists: the shortcut
returns what is wanted of the first list that has any of it, and the scan of all three what is wanted of
each.
-/

set_option autoImplicit false

namespace ScratchStore

namespace Lsm3

open PageScan Runs

variable {n : ℕ} {D : Fin n → Type} {sortKeys : SortKeys D} {B : NBTree sortKeys} (scan : IndexScan D)
  (dir : ScanDirection)

/-- The first of the indexes that has a tuple the scan wants, and where its scan stands then. -/
def firstMatch (order : List (Fin 3 × Reads B.Layout (IndexTuple D) × Reads B.Layout (IndexTuple D))) :
    Option (Fin 3 × B.Pos) :=
  order.findSome? fun x ↦ (B.first dir scan.want x.2.1).map fun p ↦ (x.1, p)

/-- The rounds of the loop of a call. -/
def View.rounds (v : View B) :
    List (Fin 3 × PageScan.Reads B.Layout (IndexTuple D) × PageScan.Reads B.Layout (IndexTuple D)) :=
  (List.finRange 3).map fun j ↦ (v.tryIndexOrder j, v.first j, v.skip j)

/-- The end of a call. -/
def Lsm3ScanOpaque.answer (r : Lsm3ScanOpaque B × Option (Fin 3)) : Option (IndexTuple D) × Lsm3ScanOpaque B :=
  match r.2 with
  | none => (none, r.1)
  | some m => (r.1.itup m, { r.1 with currIndex := some m })

variable {scan dir} {so : Lsm3ScanOpaque B} {m : Fin 3} {p : B.Pos}
  {min : Option (Fin 3)} {rest : List (Fin 3 × Reads B.Layout (IndexTuple D) × Reads B.Layout (IndexTuple D))}

/-- The index `m` is at `p`, and the others are at their ends. -/
structure Only (so : Lsm3ScanOpaque B) (m : Fin 3) (p : B.Pos) : Prop where
  currPos : so.currPos m = some p
  eof : so.eof m = false
  others : ∀ i, i ≠ m → so.eof i = true

theorem selectMin_eof {i : Fin 3} {skip : Reads B.Layout (IndexTuple D)} (h : so.eof i = true) :
    selectMin scan dir i skip so min = (so, min) := if_pos h

/-- Indexes at their ends are passed over. -/
theorem tryIndexes_eof (h : ∀ x ∈ rest, so.eof x.1 = true) :
    tryIndexes scan dir rest so min = (so, min) := by
  induction rest with
  | nil => rfl
  | cons x rest ih =>
    obtain ⟨hx, hrest⟩ := List.forall_mem_cons.mp h
    rw [tryIndexes_visited fun hstart ↦ absurd (hx.symm.trans hstart.1) (by simp), selectMin_eof hx]
    exact ih hrest

theorem tryIndexes_only (h : Only so m p) (hnodup : (rest.map Prod.fst).Nodup)
    (hm : m ∈ rest.map Prod.fst) : tryIndexes scan dir rest so none = (so, some m) := by
  induction rest with
  | nil => exact absurd hm List.not_mem_nil
  | cons x rest ih =>
    obtain ⟨hx, hnodup⟩ := List.nodup_cons.mp hnodup
    by_cases heq : x.1 = m
    · subst heq
      rw [tryIndexes_visited fun hstart ↦ absurd (h.currPos.symm.trans hstart.2) (by simp)]
      have hselect : selectMin scan dir x.1 x.2.2 so none = (so, some x.1) :=
        if_neg (by simp [h.eof])
      rw [hselect]
      refine tryIndexes_eof fun y hy ↦ h.others y.1 fun hyx ↦ hx ?_
      exact hyx ▸ List.mem_map_of_mem hy
    · have heof := h.others x.1 heq
      rw [tryIndexes_visited fun hstart ↦ absurd (heof.symm.trans hstart.1) (by simp), selectMin_eof heof]
      exact ih hnodup ((List.mem_cons.mp hm).resolve_left (Ne.symm heq))

theorem foldl_stop (rest : List (Fin 3 × Reads B.Layout (IndexTuple D) × Reads B.Layout (IndexTuple D)))
    (so : Lsm3ScanOpaque B) :
    (rest.foldl (fun so x ↦ so.stop x.1) so).currPos = so.currPos ∧
      ∀ i, (rest.foldl (fun so x ↦ so.stop x.1) so).eof i = true ↔ so.eof i = true ∨ i ∈ rest.map Prod.fst := by
  induction rest generalizing so with
  | nil => simp
  | cons x rest ih =>
    obtain ⟨hpos, heof⟩ := ih (so.stop x.1)
    refine ⟨hpos, fun i ↦ ?_⟩
    rw [List.foldl_cons, heof i, List.map_cons, List.mem_cons, ← or_assoc]
    refine or_congr_left ?_
    simp only [Lsm3ScanOpaque.stop, Function.update_apply]
    split
    · next heq => simp [heq]
    · next hne => simp [hne]

/-- An index without a tuple is passed over. -/
theorem tryIndexes_none {i : Fin 3} {R skip : Reads B.Layout (IndexTuple D)}
    (hi : so.eof i = false ∧ so.currPos i = none) (hfirst : B.first dir scan.want R = none) :
    tryIndexes scan dir ((i, R, skip) :: rest) so none = tryIndexes scan dir rest (so.move i none) none := by
  have hmove : btFirst scan dir i R so = so.move i none := by rw [btFirst, hfirst]
  have heof : (so.move i none).eof i = true := by simp
  rw [tryIndexes_first hi fun hstop ↦ absurd hstop.1 (by rw [hmove, heof]; simp), hmove,
    selectMin_eof heof]

/-- At the first index that has a tuple the other indexes are closed. -/
theorem tryIndexes_some (hunique : scan.unique = true ∧ scan.numberOfKeys = n) {i : Fin 3}
    {R skip : Reads B.Layout (IndexTuple D)} (hi : so.eof i = false ∧ so.currPos i = none)
    (hfirst : B.first dir scan.want R = some p) :
    tryIndexes scan dir ((i, R, skip) :: rest) so none =
      (rest.foldl (fun so x ↦ so.stop x.1) (so.move i (some p)), some i) := by
  have hmove : btFirst scan dir i R so = so.move i (some p) := by rw [btFirst, hfirst]
  have heof : (so.move i (some p)).eof i = false := by simp
  rw [tryIndexes, if_pos hi, hmove]
  exact if_pos ⟨heof, hunique⟩

/-- Once the indexes behind it are closed, the index that has a tuple is the only one left. -/
theorem only_foldl_stop {i : Fin 3} (hx : i ∉ rest.map Prod.fst)
    (hother : ∀ i', i' ∉ i :: rest.map Prod.fst → so.eof i' = true) :
    Only (rest.foldl (fun so x ↦ so.stop x.1) (so.move i (some p))) i p := by
  obtain ⟨hpos, hstopped⟩ := foldl_stop rest (so.move i (some p))
  refine ⟨?_, ?_, fun i' hi' ↦ (hstopped i').mpr ?_⟩
  · rw [hpos, currPos_move, if_pos rfl]
  · refine Bool.eq_false_iff.mpr fun htrue ↦ ?_
    rcases (hstopped i).mp htrue with h | h
    · rw [eof_move, if_pos rfl] at h
      exact nomatch h
    · exact hx h
  · by_cases hmem : i' ∈ rest.map Prod.fst
    · exact Or.inr hmem
    · rw [eof_move, if_neg hi']
      exact Or.inl (hother i' fun hmem' ↦ (List.mem_cons.mp hmem').elim hi' hmem)

variable (scan dir) in
/-- **The loop of the first call**: it stops at the first index that has a tuple. -/
theorem tryIndexes_unique (hunique : scan.unique = true ∧ scan.numberOfKeys = n)
    (hnodup : (rest.map Prod.fst).Nodup)
    (hstart : ∀ i ∈ rest.map Prod.fst, so.eof i = false ∧ so.currPos i = none)
    (hdone : ∀ i, i ∉ rest.map Prod.fst → so.eof i = true) :
    match firstMatch scan dir rest with
    | none => (tryIndexes scan dir rest so none).2 = none
    | some (m, p) => m ∈ rest.map Prod.fst ∧ (tryIndexes scan dir rest so none).2 = some m ∧
        Only (tryIndexes scan dir rest so none).1 m p := by
  induction rest generalizing so with
  | nil => rfl
  | cons x rest ih =>
    obtain ⟨i, R, skip⟩ := x
    obtain ⟨hx, hnodup⟩ := List.nodup_cons.mp hnodup
    obtain ⟨hi, hrest⟩ := List.forall_mem_cons.mp hstart
    have hother : ∀ i', i' ∉ i :: rest.map Prod.fst → so.eof i' = true := hdone
    rw [firstMatch, List.findSome?_cons]
    cases hfirst : B.first dir scan.want R with
    | none =>
      rw [tryIndexes_none hi hfirst]
      have hstart' : ∀ i' ∈ rest.map Prod.fst,
          (so.move i none).eof i' = false ∧ (so.move i none).currPos i' = none := by
        intro i' hi'
        have hne : i' ≠ i := fun heq ↦ hx (heq ▸ hi')
        rw [eof_move, currPos_move, if_neg hne, if_neg hne]
        exact hrest i' hi'
      have hloop := ih hnodup hstart' fun i' hi' ↦ ?_
      · simp only [Option.map_none]
        rw [firstMatch] at hloop
        revert hloop
        cases List.findSome? _ rest with
        | none => exact id
        | some q =>
          rintro ⟨hm, hq⟩
          exact ⟨List.mem_cons_of_mem _ hm, hq⟩
      · rw [eof_move]
        split
        · rfl
        · next hne => exact hother i' fun hmem ↦ (List.mem_cons.mp hmem).elim hne hi'
    | some p =>
      rw [tryIndexes_some hunique hi hfirst]
      exact ⟨List.mem_cons_self, rfl, only_foldl_stop hx hother⟩

theorem map_fst_rounds (v : View B) : v.rounds.map Prod.fst = (List.finRange 3).map v.tryIndexOrder := by
  rw [View.rounds, List.map_map]
  rfl

theorem gettuple_first (h : so.currIndex = none) (v : View B) : gettuple scan dir v so =
    Lsm3ScanOpaque.answer (tryIndexes scan dir v.rounds so none) := by
  rw [gettuple, h, View.rounds]
  generalize tryIndexes scan dir _ _ none = r
  obtain ⟨so', min⟩ := r
  cases min <;> rfl

theorem gettuple_next (h : so.currIndex = some m) (v : View B) : gettuple scan dir v so =
    Lsm3ScanOpaque.answer
      (tryIndexes scan dir v.rounds (btNext scan dir m (v.advance m) so) none) := by
  rw [gettuple, h, View.rounds]
  generalize tryIndexes scan dir _ _ none = r
  obtain ⟨so', min⟩ := r
  cases min <;> rfl

variable (scan dir) in
/-- A later call goes on with the one index. -/
theorem gettuple_only (h : Only so m p) (hcurr : so.currIndex = some m) {v : View B}
    (hv : v.activeIndex' = v.activeIndex) :
    match B.next dir scan.want (v.advance m) p with
    | none => (gettuple scan dir v so).1 = none
    | some q => (gettuple scan dir v so).1 = some (B.item q) ∧
        (gettuple scan dir v so).2.currIndex = some m ∧
        Only (gettuple scan dir v so).2 m q := by
  obtain ⟨hnodup, hall⟩ := nodup_tryIndexOrder hv
  rw [← map_fst_rounds] at hnodup hall
  have hmove : btNext scan dir m (v.advance m) so =
      so.move m (B.next dir scan.want (v.advance m) p) := by
    rw [btNext, h.currPos, Option.bind_some]
  rw [gettuple_next hcurr, hmove]
  cases B.next dir scan.want (v.advance m) p with
  | none =>
    have heof : ∀ x ∈ v.rounds, (so.move m none).eof x.1 = true := by
      intro x _
      rw [eof_move]
      split
      · rfl
      · next hne => exact h.others x.1 hne
    rw [tryIndexes_eof heof]
    rfl
  | some q =>
    have honly : Only (so.move m (some q)) m q := by
      refine ⟨by simp, by simp, fun i hi ↦ ?_⟩
      rw [eof_move, if_neg hi]
      exact h.others i hi
    rw [tryIndexes_only honly hnodup (hall m)]
    exact ⟨congrArg (Option.map B.item) honly.currPos, rfl, honly.currPos, honly.eof, honly.others⟩

variable (scan dir) in
theorem fetch_only (h : Only so m p) (hcurr : so.currIndex = some m) {vs : List (View B)}
    (hvs : ∀ v ∈ vs, v.activeIndex' = v.activeIndex) : fetch scan dir vs so =
      B.rest dir scan.want (vs.map fun v ↦ v.advance m) p := by
  induction vs generalizing so p with
  | nil => rfl
  | cons v vs ih =>
    obtain ⟨hv, hvs⟩ := List.forall_mem_cons.mp hvs
    have hcall := gettuple_only scan dir h hcurr hv
    rw [fetch, List.map_cons, ScanOps.rest]
    revert hcall
    generalize gettuple scan dir v so = r
    obtain ⟨t, so'⟩ := r
    cases B.next dir scan.want (v.advance m) p with
    | none =>
      rintro (rfl : t = none)
      rfl
    | some q =>
      rintro ⟨rfl : t = some (B.item q), hcurr', h'⟩
      exact congrArg (fun r : List (IndexTuple D) × Bool ↦ (B.item q :: r.1, r.2)) (ih h' hcurr' hvs)

/-- **A lookup in a unique index is a scan of one B-tree**: of the first one that has a tuple that is
wanted.

It is about the loop alone, whatever the B-trees show at each page; what a call may rely on is that
`active_index` is the same both times it is read. -/
theorem fetch_unique (hunique : scan.unique = true ∧ scan.numberOfKeys = n) {v : View B} {vs : List (View B)}
    (hv : v.activeIndex' = v.activeIndex) (hvs : ∀ v ∈ vs, v.activeIndex' = v.activeIndex) :
    fetch scan dir (v :: vs) rescan =
      match firstMatch scan dir v.rounds with
      | none => ([], true)
      | some (m, p) =>
        (B.item p :: (B.rest dir scan.want (vs.map fun v ↦ v.advance m) p).1,
          (B.rest dir scan.want (vs.map fun v ↦ v.advance m) p).2) := by
  obtain ⟨hnodup, hall⟩ := nodup_tryIndexOrder hv
  rw [← map_fst_rounds] at hnodup hall
  have hloop := tryIndexes_unique scan dir hunique hnodup
    (show ∀ i ∈ v.rounds.map Prod.fst, rescan.eof i = false ∧ rescan.currPos i = none from fun _ _ ↦ ⟨rfl, rfl⟩)
    fun i hi ↦ absurd (hall i) hi
  rw [fetch, gettuple_first rfl]
  revert hloop
  generalize tryIndexes scan dir v.rounds rescan none = r
  obtain ⟨so, min⟩ := r
  cases firstMatch scan dir v.rounds with
  | none =>
    rintro (rfl : min = none)
    rfl
  | some q =>
    obtain ⟨m, p⟩ := q
    rintro ⟨-, rfl : min = some m, honly⟩
    have hitem : so.itup m = some (B.item p) := congrArg (Option.map B.item) honly.currPos
    have honly' : Only { so with currIndex := some m } m p := ⟨honly.currPos, honly.eof, honly.others⟩
    have hrest := fetch_only scan dir honly' rfl hvs
    simp only [Lsm3ScanOpaque.answer, hitem, hrest]

/-- A lookup with all keys in an index that is marked as unique. -/
def lookup (k : ℕ) : IndexScan (fun _ : Fin 1 ↦ ℕ) := ⟨fun t ↦ t.key 0 == some k, 1, true⟩

/-- A call that finds the tuple in the index that is tried second. -/
def foundSecond : View numberTrees :=
  ⟨0, 0, fun _ ↦ still [] (), ![still [tuple 1] (), still [tuple 2] (), still [tuple 3] ()], fun _ ↦ still [] ()⟩

/-- The tuple of the third index is not looked at. -/
theorem fetch_unique_foundSecond : (fetch (lookup 2) .forward [foundSecond] rescan).1 = [tuple 2] := by
  rw [fetch_unique ⟨rfl, rfl⟩ rfl (List.forall_mem_nil _)]
  rfl

/-! ## Against a scan of all three indexes -/

theorem mem_left_iff_of_finRange {k : ℕ} {l l' : List (Fin k)} {j j' : Fin k}
    (h : List.finRange k = l ++ j :: l') : j' ∈ l ↔ j' < j := by
  have hsorted := List.pairwise_lt_finRange k
  rw [h, List.pairwise_append, List.pairwise_cons] at hsorted
  obtain ⟨-, ⟨hj, -⟩, hl⟩ := hsorted
  refine ⟨fun hmem ↦ hl j' hmem j List.mem_cons_self, fun hlt ↦ ?_⟩
  have hmem : j' ∈ l ++ j :: l' := h ▸ List.mem_finRange j'
  rcases List.mem_append.mp hmem with hmem | hmem
  · exact hmem
  · rcases List.mem_cons.mp hmem with rfl | hmem
    · exact absurd hlt (lt_irrefl _)
    · exact absurd (hj j' hmem) hlt.asymm

variable (dir) in
/-- What is found first, and that nothing is in the indexes before. -/
theorem firstMatch_spec {S : Fin 3 → Index D} {P : Fin 3 → IndexTuple D → Prop} {v : View B}
    (hwant : ∀ i, ∀ x ∈ S i, scan.want x = true)
    (hsees : ∀ j, Sees sortKeys scan S (P (v.tryIndexOrder j)) (v.tryIndexOrder j) (v.first j)) :
    match firstMatch scan dir v.rounds with
    | none => ∀ j, ∀ x, x ∉ S (v.tryIndexOrder j)
    | some (m, p) => ∃ j, m = v.tryIndexOrder j ∧ (∀ j' < j, ∀ x, x ∉ S (v.tryIndexOrder j')) ∧
        B.Reached (Sorted sortKeys) dir scan.want (S m) (P m) p ∧
        ∀ x ∈ S m, B.Pending (before sortKeys) dir (S m) p x := by
  have hfirst : ∀ j, B.Finds dir scan.want (S (v.tryIndexOrder j)) (P (v.tryIndexOrder j)) (fun _ ↦ True)
      (· ∈ S (v.tryIndexOrder j)) (B.first dir scan.want (v.first j)) :=
    fun j ↦ Scanner.first_finds (hwant _) (hsees j)
  have hnone : ∀ j, (B.first dir scan.want (v.first j)).map
      (fun p ↦ (v.tryIndexOrder j, p)) = none → ∀ x, x ∉ S (v.tryIndexOrder j) := by
    intro j hj
    have hfinds := hfirst j
    rw [Option.map_eq_none_iff.mp hj] at hfinds
    exact hfinds
  rw [firstMatch, View.rounds, List.findSome?_map]
  cases hmatch : List.findSome? _ (List.finRange 3) with
  | none => exact fun j ↦ hnone j (List.findSome?_eq_none_iff.mp hmatch j (List.mem_finRange j))
  | some q =>
    obtain ⟨m, p⟩ := q
    obtain ⟨l, j, l', hl, hj, hbefore⟩ := List.findSome?_eq_some_iff.mp hmatch
    obtain ⟨p', hp', hq⟩ := Option.map_eq_some_iff.mp hj
    obtain ⟨rfl, rfl⟩ := Prod.mk.inj hq
    have hfinds := hfirst j
    rw [hp'] at hfinds
    exact ⟨j, rfl, fun j' hlt ↦ hnone j' (hbefore j' ((mem_left_iff_of_finRange hl).mpr hlt)),
      hfinds.1, hfinds.2.2⟩

namespace State

variable {ι : Type} [Fintype ι] [DecidableEq ι] {s s' : State ι B}

omit [DecidableEq ι] in
/-- The tuples of the indexes, when they do not change. -/
theorem shows_index (h : s.Sound) (scan : IndexScan D) (i : Fin 3) {index : Index D} (hindex : index = s.index i) :
    Shows (Sorted sortKeys) scan.want ((s.index i).filter scan.want)
      (fun x ↦ scan.want x = true ∧ x ∈ s.index i) index := by
  subst hindex
  exact ⟨fun x hx ↦ (List.mem_filter.mp hx).1, h.sorted i, fun x hx hwant ↦ ⟨hwant, hx⟩⟩

variable (dir) in
omit [DecidableEq ι] in
/-- A scan of the three indexes, when they do not change. -/
theorem fetch_still (h : s.Sound) (hplain : ¬(scan.unique = true ∧ scan.numberOfKeys = n))
    {vs : List (View B)}
    (hvs : ∀ v ∈ vs, v.activeIndex' = v.activeIndex ∧ v.Reads fun i index ↦ index = s.index i)
    (hlong : ((List.finRange 3).flatMap s.index).length < vs.length) :
    (fetch scan dir vs rescan).1.Pairwise (before sortKeys dir) ∧
      ∀ x, x ∈ (fetch scan dir vs rescan).1 ↔ scan.want x = true ∧ s.Holds x := by
  have hsees : ∀ v ∈ vs, v.activeIndex' = v.activeIndex ∧ v.Sees scan
      (fun i ↦ (s.index i).filter scan.want) (fun x ↦ scan.want x = true ∧ s.Holds x) := by
    intro v hv
    obtain ⟨hactive, hadvance, hfirst, hskip⟩ := hvs v hv
    have hshows : ∀ i index, index = s.index i → Shows (Sorted sortKeys) scan.want
        ((s.index i).filter scan.want) (fun x ↦ scan.want x = true ∧ s.Holds x) index := by
      intro i index hindex
      obtain ⟨hsubset, hordered, hsound⟩ := shows_index h scan i hindex
      exact ⟨hsubset, hordered, fun x hx hwant ↦ (hsound x hx hwant).imp_right fun hi ↦ ⟨i, hi⟩⟩
    exact ⟨hactive, fun i k ↦ hshows _ _ (hadvance i k), fun j k ↦ hshows _ _ (hfirst j k),
      fun j k ↦ hshows _ _ (hskip j k)⟩
  obtain ⟨hordered, hsound, hcover, hlength⟩ := fetch_spec dir
    (fun i x hx ↦ (List.mem_filter.mp hx).2) hplain hsees scanning_rescan List.Pairwise.nil
    (fun _ ht ↦ nomatch ht)
  simp only [List.nil_append] at hordered hsound hcover
  refine ⟨hordered, fun x ↦ ⟨hsound x, fun ⟨hwant, i, hi⟩ ↦ ?_⟩⟩
  refine (hcover i x (List.mem_filter.mpr ⟨hi, hwant⟩)).resolve_right fun ⟨hmore, _⟩ ↦ ?_
  have hle := length_le_of_holds hordered fun t ht ↦ (hsound t ht).2
  rw [hlength hmore] at hle
  exact absurd hlong (not_lt.mpr hle)

variable (dir) in
omit [DecidableEq ι] in
/-- A lookup in a unique index, when the indexes do not change: it returns what is wanted of one index,
before which no index has anything. -/
theorem fetch_unique_still (h : s.Sound) (hunique : scan.unique = true ∧ scan.numberOfKeys = n)
    {v : View B} {vs : List (View B)} (hv : v.activeIndex' = v.activeIndex)
    (hvs : ∀ v ∈ vs, v.activeIndex' = v.activeIndex)
    (hreads : ∀ u ∈ v :: vs, u.Reads fun i index ↦ index = s.index i)
    (hlong : ((List.finRange 3).flatMap s.index).length ≤ vs.length) :
    (fetch scan dir (v :: vs) rescan).1.Pairwise (before sortKeys dir) ∧
      ∀ x, x ∈ (fetch scan dir (v :: vs) rescan).1 ↔
        scan.want x = true ∧ ∃ j, x ∈ s.index (v.tryIndexOrder j) ∧
          ∀ j' < j, ∀ y ∈ s.index (v.tryIndexOrder j'), scan.want y = false := by
  have hwant : ∀ i, ∀ x ∈ (s.index i).filter scan.want, scan.want x = true := fun i x hx ↦
    (List.mem_filter.mp hx).2
  have hnone : ∀ i, (∀ x, x ∉ (s.index i).filter scan.want) ↔ ∀ y ∈ s.index i, scan.want y = false := by
    intro i
    simp only [List.mem_filter, not_and, Bool.not_eq_true]
  have hpage : ∀ j, Sees sortKeys scan (fun i ↦ (s.index i).filter scan.want)
      (fun x ↦ scan.want x = true ∧ x ∈ s.index (v.tryIndexOrder j)) (v.tryIndexOrder j) (v.first j) :=
    fun j k ↦ shows_index h scan _ ((hreads v List.mem_cons_self).first j k)
  have hfirst := firstMatch_spec dir (P := fun i x ↦ scan.want x = true ∧ x ∈ s.index i) hwant hpage
  rw [fetch_unique hunique hv hvs]
  revert hfirst
  cases firstMatch scan dir v.rounds with
  | none =>
    intro hempty
    refine ⟨List.Pairwise.nil, fun x ↦ ⟨(fun hx ↦ nomatch hx), fun ⟨hx, j, hj, _⟩ ↦ ?_⟩⟩
    exact absurd (List.mem_filter.mpr ⟨hj, hx⟩) (hempty j x)
  | some q =>
    obtain ⟨m, p⟩ := q
    rintro ⟨j, rfl, hbefore, hok, hpending⟩
    have hpages : ∀ R ∈ vs.map (fun v' ↦ v'.advance (v.tryIndexOrder j)), ∀ k,
        Shows (Sorted sortKeys) scan.want ((s.index (v.tryIndexOrder j)).filter scan.want)
          (fun x ↦ scan.want x = true ∧ x ∈ s.index (v.tryIndexOrder j)) (R.index k) :=
      List.forall_mem_map.mpr fun v' hv' k ↦
        shows_index h scan _ ((hreads v' (List.mem_cons_of_mem _ hv')).advance _ k)
    obtain ⟨hordered, hsound, hcover, hlength⟩ := Scanner.rest_spec (hwant _) hpages hok
    have hend : (B.rest dir scan.want (vs.map fun v' ↦ v'.advance (v.tryIndexOrder j)) p).2 = true := by
      by_contra hmore
      have hle := length_le_of_holds hordered fun t ht ↦ ⟨_, (hsound t ht).2⟩
      rw [List.length_cons, hlength (Bool.eq_false_iff.mpr hmore), List.length_map] at hle
      omega
    refine ⟨hordered, fun x ↦ ⟨fun hx ↦ ?_, fun ⟨hx, j', hj', hfree⟩ ↦ ?_⟩⟩
    · exact ⟨(hsound x hx).1, j, (hsound x hx).2, fun j' hlt ↦ (hnone _).mp (hbefore j' hlt)⟩
    · obtain ⟨hitem, hitem'⟩ := hsound (B.item p) List.mem_cons_self
      rcases lt_trichotomy j' j with hlt | rfl | hgt
      · exact absurd (List.mem_filter.mpr ⟨hj', hx⟩) (hbefore j' hlt x)
      · refine (hcover x (hpending x (List.mem_filter.mpr ⟨hj', hx⟩))).resolve_right fun ⟨hmore, _⟩ ↦ ?_
        exact absurd (hend.symm.trans hmore) (by simp)
      · exact absurd (hitem.symm.trans (hfree j hgt (B.item p) hitem')) (by simp)

/-- **When the shortcut is right**: in indexes that do not change, a lookup in a unique index returns what a
scan of all three indexes returns if and only if each tuple that is wanted is in the first index that has
one.

The number of calls is large enough for all tuples of the three indexes, so both scans come to their ends. -/
theorem unique_agrees_iff {topIndexSize : UInt32} {heap : List (IndexTuple D)} {events : List (Event ι B)}
    (scan : IndexScan D) (dir : ScanDirection) (hheap : heap.Nodup)
    (hclean : Along live CleanEvent (build topIndexSize heap) events)
    (hlive : run live (build topIndexSize heap) events = some s)
    (hunique : scan.unique = true) (hkeys : scan.numberOfKeys = n) {v : View B} {vs : List (View B)}
    (hvs : ∀ u ∈ v :: vs, u.activeIndex' = u.activeIndex ∧ u.Reads fun i index ↦ index = s.index i)
    (hlong : ((List.finRange 3).flatMap s.index).length ≤ vs.length) :
    (fetch scan dir (v :: vs) rescan).1 =
        (fetch { scan with unique := false } dir (v :: vs) rescan).1 ↔
      ∀ x, s.Holds x → scan.want x = true → ∃ j, x ∈ s.index (v.tryIndexOrder j) ∧
        ∀ j' < j, ∀ y ∈ s.index (v.tryIndexOrder j'), scan.want y = false := by
  have h := sound_live hheap hclean hlive
  obtain ⟨hv, hvs'⟩ := List.forall_mem_cons.mp fun u hu ↦ (hvs u hu).1
  obtain ⟨hordered, hmem⟩ := fetch_unique_still dir h ⟨hunique, hkeys⟩ hv hvs'
    (fun u hu ↦ (hvs u hu).2) hlong
  obtain ⟨hordered', hmem'⟩ := fetch_still dir h
    (show ¬(({ scan with unique := false } : IndexScan D).unique = true ∧ _) from fun hu ↦ nomatch hu.1) hvs
    (by rw [List.length_cons]; omega)
  constructor
  · intro heq x hx hwant
    have hx' := (hmem' x).mpr ⟨hwant, hx⟩
    rw [← heq] at hx'
    exact ((hmem x).mp hx').2
  · intro hfirst
    refine hordered.eq_of_mem_iff hordered' fun x ↦ ?_
    rw [hmem x, hmem' x]
    refine and_congr_right fun hwant ↦ ⟨fun ⟨j, hj, _⟩ ↦ ⟨_, hj⟩, fun hx ↦ hfirst x hx hwant⟩

/-- A lookup of a tuple that is in the base index and in the top index that is merged. -/
theorem unique_agrees_iff_scanTwo : ∃ s, run live emptyIndex (scanTwo ++ mergeMeanwhile.map .step) = some s ∧
    ((fetch (lookup 1) .forward [s.view 1, s.view 1, s.view 1, s.view 1, s.view 1] rescan).1 =
        (fetch { lookup 1 with unique := false } .forward [s.view 1, s.view 1, s.view 1, s.view 1, s.view 1]
          rescan).1 ↔
      ∀ x, s.Holds x → (lookup 1).want x = true → ∃ j, x ∈ s.index ((s.view 1).tryIndexOrder j) ∧
        ∀ j' < j, ∀ y ∈ s.index ((s.view 1).tryIndexOrder j'), (lookup 1).want y = false) := by
  refine exists_of_isSome rfl fun s hrun ↦ ?_
  have hview : (s.view 1).Reads fun i index ↦ index = s.index i := reads_view s 1 fun _ ↦ rfl
  have hlong : ((List.finRange 3).flatMap s.index).length ≤ [s.view 1, s.view 1, s.view 1, s.view 1].length := by
    obtain rfl := Option.some.inj hrun
    decide
  refine unique_agrees_iff (lookup 1) .forward List.nodup_nil (by decide) hrun rfl rfl (fun u hu ↦ ?_) hlong
  obtain rfl : u = s.view 1 := by simpa using hu
  exact ⟨rfl, hview⟩

omit [Fintype ι] [DecidableEq ι] in
/-- A list in order of which every member is the same. -/
theorem eq_singleton_of_pairwise {r : IndexTuple D → IndexTuple D → Prop} [Std.Irrefl r] {l : List (IndexTuple D)}
    {x : IndexTuple D} (hl : l.Pairwise r) (hall : ∀ t ∈ l, t = x) (hne : l ≠ []) : l = [x] := by
  cases l with
  | nil => exact absurd rfl hne
  | cons y l =>
    obtain ⟨rfl, hrest⟩ := List.forall_mem_cons.mp hall
    cases l with
    | nil => rfl
    | cons z l =>
      have hlt := (List.pairwise_cons.mp hl).1 z List.mem_cons_self
      rw [hrest z List.mem_cons_self] at hlt
      exact absurd hlt (Std.Irrefl.irrefl _)

omit [Fintype ι] [DecidableEq ι] in
/-- A scan that is asked for a tuple and returns none is at its end. -/
theorem fetch_cons_nil {v : View B} {vs : List (View B)} (h : (fetch scan dir (v :: vs) so).1 = []) :
    (fetch scan dir (v :: vs) so).2 = true := by
  rw [fetch] at h ⊢
  revert h
  generalize gettuple scan dir v so = r
  obtain ⟨t, so'⟩ := r
  cases t with
  | none => exact fun _ ↦ rfl
  | some t => exact fun h ↦ absurd h (List.cons_ne_nil _ _)

/-- **A lookup of the only tuple with its keys**, while tuples are inserted and merged: when it was there in
the beginning, and no other tuple with these keys is there in the end, the shortcut finds it, and so does a
scan of all three indexes. -/
theorem unique_fetch_run {topIndexSize : UInt32} {heap : List (IndexTuple D)} {events : List (Event ι B)}
    {acts : List (Action ι B)} (scan : IndexScan D) (dir : ScanDirection) {k : ℕ} {v : View B} {vs : List (View B)}
    (hheap : heap.Nodup) (hclean : Along live CleanEvent (build topIndexSize heap) events)
    (hlive : run live (build topIndexSize heap) events = some s) (hk : k ∈ s.scans)
    (hfresh : Along step Fresh s acts) (hopen : .endscan k ∉ acts)
    (hrun : run step s acts = some s') (hunique : scan.unique = true)
    (hkeys : scan.numberOfKeys = n)
    (hvs : ∀ u ∈ v :: vs, u.activeIndex' = u.activeIndex ∧ u.Reads (During s acts))
    {x : IndexTuple D} (hx : s.Holds x) (hwant : scan.want x = true)
    (honly : ∀ y, s'.Holds y → scan.want y = true → y = x) :
    (fetch scan dir (v :: vs) rescan).1 = [x] ∧
      (fetch { scan with unique := false } dir (v :: vs) rescan).1 = [x] := by
  have h := sound_live hheap hclean hlive
  obtain ⟨⟨hordered', hsound', hcover'⟩, -⟩ := fetch_run { scan with unique := false } dir hheap hclean
    hlive hk hfresh hopen hrun (fun hu ↦ nomatch hu.1) hvs
  have hplain : (fetch { scan with unique := false } dir (v :: vs) rescan).1 = [x] := by
    refine eq_singleton_of_pairwise hordered' (fun t ht ↦ honly t (hsound' t ht).2 (hsound' t ht).1) fun hnil ↦ ?_
    rcases hcover' x hx hwant with hmem | ⟨hmore, -⟩
    · exact absurd (hnil ▸ hmem) List.not_mem_nil
    · exact absurd ((fetch_cons_nil hnil).symm.trans hmore) (by simp)
  refine ⟨?_, hplain⟩
  obtain ⟨hv, hvs'⟩ := List.forall_mem_cons.mp fun u hu ↦ (hvs u hu).1
  have hshows : ∀ {i index}, During s acts i index → _ := fun hindex ↦
    shows_during scan h hfresh hk hopen hrun hindex
  have hfirst := firstMatch_spec dir (P := fun _ x ↦ scan.want x = true ∧ s'.Holds x)
    (fun i x hx ↦ (List.mem_filter.mp hx).2)
    fun j k ↦ hshows ((hvs v List.mem_cons_self).2.first j k)
  rw [fetch_unique ⟨hunique, hkeys⟩ hv hvs']
  obtain ⟨i, hi⟩ := hx
  revert hfirst
  cases firstMatch scan dir v.rounds with
  | none =>
    intro hempty
    obtain ⟨j, -, rfl⟩ := List.mem_map.mp ((nodup_tryIndexOrder hv).2 i)
    exact absurd (List.mem_filter.mpr ⟨hi, hwant⟩) (hempty j x)
  | some q =>
    obtain ⟨m, p⟩ := q
    rintro ⟨j, rfl, -, hok, -⟩
    have hpages : ∀ R ∈ vs.map (fun v' ↦ v'.advance (v.tryIndexOrder j)), ∀ k,
        Shows (Sorted sortKeys) scan.want ((s.index (v.tryIndexOrder j)).filter scan.want)
          (fun x ↦ scan.want x = true ∧ s'.Holds x) (R.index k) :=
      List.forall_mem_map.mpr fun v' hv' k ↦ hshows ((hvs v' (List.mem_cons_of_mem _ hv')).2.advance _ k)
    obtain ⟨hordered, hsound, -, -⟩ := Scanner.rest_spec (fun x hx ↦ (List.mem_filter.mp hx).2) hpages hok
    exact eq_singleton_of_pairwise hordered (fun t ht ↦ honly t (hsound t ht).2 (hsound t ht).1)
      (List.cons_ne_nil _ _)

/-- A lookup of a tuple that is merged meanwhile. -/
theorem unique_fetch_run_scanTwo : ∃ s s', run live emptyIndex scanTwo = some s ∧
    run step s mergeMeanwhile = some s' ∧
    (fetch (lookup 1) .forward [s'.view 1, s'.view 1] rescan).1 = [tuple 1] ∧
      (fetch { lookup 1 with unique := false } .forward [s'.view 1, s'.view 1] rescan).1 = [tuple 1] := by
  obtain ⟨s, s', hlive, hrun, hk, hfresh⟩ := exists_scanTwo
  have honly : (run live emptyIndex scanTwo).all (fun s ↦ decide (s.Holds (tuple 1)) &&
      (run step s mergeMeanwhile).all fun s' ↦
        decide (∀ i, ∀ y ∈ s'.index i, (lookup 1).want y = true → y = tuple 1)) = true := by decide
  rw [hlive] at honly
  simp only [Option.all_some, hrun, Bool.and_eq_true, decide_eq_true_eq] at honly
  have hend := s'.reads_view 1 (during_end hrun)
  exact ⟨s, s', hlive, hrun, unique_fetch_run (lookup 1) .forward List.nodup_nil (by decide) hlive hk hfresh
    (by simp [mergeMeanwhile, mergeBegins]) hrun rfl rfl
    (List.forall_mem_cons.mpr ⟨⟨rfl, hend⟩, List.forall_mem_singleton.mpr ⟨rfl, hend⟩⟩) honly.1 rfl
    fun y ⟨i, hi⟩ ↦ honly.2 i y hi⟩

end State

end Lsm3

end ScratchStore
