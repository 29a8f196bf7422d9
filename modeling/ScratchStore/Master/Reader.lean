import ScratchStore.Lib.RingScan
import ScratchStore.Master.Crash

/-!
# A read among the other threads

`dbread` holds `memlock` while it looks into memory and `fslock` while it looks at the two oldest
files, and neither while it looks at the others, so its lookups are steps between which the other
threads go on.  It keeps to the `recent` it has seen first.

* `Reading.step` is a step of the others (`Threads.step`) or the next step of the read (`Reader.step`);
  with nobody in between the steps of the read are `dbread`: `run_reads`.
* `RingStep` is what a step of the others does to the ring, as the key sees it: nothing, merge the two
  oldest files, or replace the oldest.  `Threads.Inv.ringStep` is the case analysis, once for all.
* `Reads` is the invariant: something good is in the files that are still ahead of the reader
  (`RingScan.Anchor`), unless it has been found.
* `Safe` says which steps keep it.  `adjust` can get ahead of the reader: a file that it has truncated has
  lost its records for the moment, and when it writes `reserve` over the very file the reader comes to
  next, the records of that file have just been moved to the one the reader has left.
* `Reading.Inv.step` is one step and `Reading.Inv.finish` the end of a read that is left alone.

The runs are in `Master.ReadRun`.
-/

set_option autoImplicit false

namespace ScratchStore

namespace Master

open SortedAssoc FileIO Layers RingScan

variable {Time : Type} [TimeFormat Time]

/-- How far a read has got: it has seen `recent = r` and has the files `todo` to look at before it
takes `fslock`. -/
inductive Reader where
  /-- It has not begun. -/
  | idle
  /-- It has not found the key in memory. -/
  | scanning (r : Fin numFiles) (todo : List (Fin numFiles))
  /-- It has returned. -/
  | done (answer : Option V)

/-- The threads and a read. -/
structure Reading where
  threads : Threads
  reader : Reader

/-- A step of the others, or the next one of the read. -/
inductive ReadAction (Time : Type) where
  | other (a : Action Time)
  | read

/-- One step of `dbread(k, v)`: the section under `memlock`, one lookup without a lock, or the section
under `fslock`, which has to wait while `adjust` runs. -/
def Reader.step (k : K) (st : Threads) : Reader → Option (Reader × Sys)
  | .idle =>
    match readMemory k st.store with
    | some answer => some (.done answer, st.store.sys)
    | none => some (.scanning st.store.recent (slots st.store.recent (st.store.recent + 2)), st.store.sys)
  | .scanning r (i :: todo) =>
    (lookupFile V (File.filesys i).path k st.store.sys).map fun (v, sys) ↦
      match v with
      | some v => (.done (some v), sys)
      | none => (.scanning r todo, sys)
  | .scanning r [] =>
    if st.holder = none then
      (scan k (slots (r + 2) r) st.store.sys).map fun (v, sys) ↦ (.done v, sys)
    else some (.scanning r [], st.store.sys)
  | .done answer => some (.done answer, st.store.sys)

def Reading.step (k : K) (st : Reading) : ReadAction Time → Option Reading
  | .other a => (st.threads.step a).map fun threads ↦ { st with threads := threads }
  | .read => (st.reader.step k st.threads).map fun (reader, sys) ↦
    ⟨{ st.threads with store := { st.threads.store with sys := sys } }, reader⟩

/-! ## A read that nobody disturbs -/

/-- The others only. -/
theorem run_others (k : K) (reader : Reader) (actions : List (Action Time)) (st : Threads) :
    Runs.run (Reading.step k) ⟨st, reader⟩ (actions.map .other) =
      (Runs.run Threads.step st actions).map fun st' ↦ ⟨st', reader⟩ := by
  induction actions generalizing st with
  | nil => rfl
  | cons a actions ih =>
    rw [List.map_cons, Runs.run_cons, Runs.run_cons, Reading.step]
    cases st.step a with
    | none => rfl
    | some st' => exact ih st'

/-- An answer is final. -/
theorem run_done (k : K) (answer : Option V) (n : ℕ) (st : Threads) :
    Runs.run (Reading.step k) ⟨st, .done answer⟩ (List.replicate n (ReadAction.read : ReadAction Time)) =
      some ⟨st, .done answer⟩ := by
  induction n with
  | zero => rfl
  | succ n ih => exact ih

/-- The rest of a read, with nobody in between. -/
theorem run_scan (k : K) (r : Fin numFiles) (todo : List (Fin numFiles)) {st : Threads}
    (hholder : st.holder = none) :
    Runs.run (Reading.step k) ⟨st, .scanning r todo⟩
        (List.replicate (todo.length + 1) (ReadAction.read : ReadAction Time)) =
      ((scan k todo st.store.sys).bind fun (v, sys) ↦
        match v with
        | some v => some (some v, sys)
        | none => scan k (slots (r + 2) r) sys).map fun (v, sys) ↦
          ⟨{ st with store := { st.store with sys := sys } }, .done v⟩ := by
  induction todo generalizing st with
  | nil =>
    rw [List.length_nil, List.replicate_succ, Runs.run_cons]
    simp only [Reading.step, Reader.step, hholder, if_true, scan, Option.bind_some]
    cases scan k (slots (r + 2) r) st.store.sys <;> rfl
  | cons i todo ih =>
    rw [List.length_cons, List.replicate_succ, Runs.run_cons]
    simp only [Reading.step, Reader.step, scan]
    cases lookupFile V (File.filesys i).path k st.store.sys with
    | none => rfl
    | some found =>
      obtain ⟨v, sys⟩ := found
      cases v with
      | some v => exact run_done k (some v) _ _
      | none => exact ih hholder

/-- **A read that nobody disturbs is `dbread`.** -/
theorem run_reads (k : K) {st : Threads} (hholder : st.holder = none) :
    Runs.run (Reading.step k) ⟨st, .idle⟩ (List.replicate 10 (ReadAction.read : ReadAction Time)) =
      (dbread k st.store).map fun (v, s) ↦ ⟨{ st with store := s }, .done v⟩ := by
  rw [List.replicate_succ, Runs.run_cons, dbread]
  simp only [Reading.step, Reader.step]
  cases readMemory k st.store with
  | some answer => exact run_done k answer 9 st
  | none =>
    have hlen : (slots st.store.recent (st.store.recent + 2)).length = 8 := by rw [slots_newer]; rfl
    have hrun := @run_scan Time _ k st.store.recent
      (slots st.store.recent (st.store.recent + 2)) st hholder
    rw [hlen] at hrun
    refine hrun.trans ?_
    dsimp only
    cases scan k (slots st.store.recent (st.store.recent + 2)) st.store.sys with
    | none => rfl
    | some found =>
      obtain ⟨v, sys⟩ := found
      cases v with
      | some v => rfl
      | none =>
        simp only [Option.bind_some]
        cases scan k (slots (st.store.recent + 2) st.store.recent) sys <;> rfl

/-! ## The ring, as `adjust` leaves it

Seen from one key, a completed `adjust` is two changes of a ring of maybe-values: the two oldest places
are merged, and the oldest one becomes the newest.  What the merge leaves in the oldest file is a copy.
-/

/-- What each file has of the key; what a truncated file had is in `tempfile`. -/
def Threads.seen (st : Threads) (k : K) (i : Fin numFiles) : Option V :=
  match st.holder with
  | some (.merge :: _) =>
    if i = st.store.recent + 2 then fileMap K V (st.store.fs.read File.tempfile.path) k
    else st.store.file i k
  | _ => st.store.file i k

/-- Are the records of the oldest file in the second oldest, too? -/
def Threads.Merged (st : Threads) : Prop :=
  match st.holder with
  | some (.emptyTempAgain :: _) | some (.dump :: _) => True
  | _ => False

/-- What an action does to the ring: nothing, merge the two oldest files, or replace the oldest. -/
inductive RingStep (k : K) (a : Action Time) (st st' : Threads) : Prop
  /-- The key has the same records in the same files. -/
  | same (newestFile : st'.newestFile = st.newestFile) (seen : st'.seen k = st.seen k)
      (merged : st'.Merged → st.Merged)
  /-- The second oldest file gets what the oldest has, unless it has something itself, and drops a
  tombstone. -/
  | merge (newestFile : st'.newestFile = st.newestFile)
      (seen : st'.seen k = Function.update (st.seen k) (st.newestFile + 2)
        (live isTomb ((st.seen k (st.newestFile + 2)).or (st.seen k (st.newestFile + 1)))))
  /-- The oldest file is replaced by a tree that is in memory. -/
  | push {env : Env Time} {todo : List AdjustOp} (action : a = .work env)
      (dumping : st.holder = some (.dump :: todo))
      (newestFile : st'.newestFile = st.newestFile + 1) (merged : ¬ st'.Merged) {t : K → Option V}
      (memory : t ∈ st.store.memory)
      (seen : st'.seen k = Function.update (st.seen k) (st.newestFile + 1) (t k))

variable {s s' : Store} {st st' : Threads} {m : K → Option V}

/-- What the ring looks like when `adjust` has not begun. -/
theorem ring_of_idle (s : Store) (waiting : ℕ) {holder : Option (List AdjustOp)}
    (h : holder = none ∨ holder = some []) (k : K) :
    (Threads.mk s waiting holder).newestFile = s.recent ∧
      (Threads.mk s waiting holder).seen k = (s.file · k) ∧ ¬ (Threads.mk s waiting holder).Merged := by
  rcases h with rfl | rfl <;> exact ⟨rfl, rfl, id⟩

theorem SameFiles.seen_eq (hs : SameFiles s s') (waiting : ℕ) (holder : Option (List AdjustOp)) (k : K) :
    (Threads.mk s' waiting holder).seen k = (Threads.mk s waiting holder).seen k := by
  funext i
  simp only [Threads.seen, hs.recent, hs.file_eq, hs.read_tempfile]

omit [TimeFormat Time] in
/-- A step before `adjust` begins, or after it is done, that leaves the data files alone. -/
theorem RingStep.of_idle {waiting waiting' : ℕ} {holder holder' : Option (List AdjustOp)}
    (h : holder = none ∨ holder = some []) (h' : holder' = none ∨ holder' = some [])
    (hrecent : s'.recent = s.recent) (hfile : s'.file = s.file) (k : K) (a : Action Time) :
    RingStep k a ⟨s, waiting, holder⟩ ⟨s', waiting', holder'⟩ := by
  obtain ⟨hnewest, hseen, -⟩ := ring_of_idle s waiting h k
  obtain ⟨hnewest', hseen', hmerged'⟩ := ring_of_idle s' waiting' h' k
  exact .same (hnewest'.trans (hrecent.trans hnewest.symm)) (by rw [hseen', hseen, hfile])
    fun hm ↦ absurd hm hmerged'

/-- **The operations of `adjust`.** -/
theorem Stage.ringStep {t : BinaryTree K V} {op : AdjustOp} {todo : List AdjustOp} {env : Env Time}
    (h : s.WF) (ht : s.reserve = some t) (hstage : Stage Time s t (op :: todo))
    (hrun : op.run env s = some s') (k : K) (waiting : ℕ) :
    RingStep k (.work env) ⟨s, waiting, some (op :: todo)⟩ ⟨s', waiting, some todo⟩ := by
  rw [AdjustOp.run_eq h env ht, Option.some.injEq] at hrun
  subst hrun
  cases hstage with
  | start =>
    refine .same rfl (funext fun i ↦ ?_) id
    exact congrFun (congrFun (file_write_of_ne s (f := .tempfile) (by simp) []) i) k
  | emptied =>
    refine .same rfl (funext fun i ↦ ?_) id
    exact congrFun (congrFun (file_write_of_ne s (f := .tempfile) (by simp) _) i) k
  | copied htemp =>
    have htemp' : (s.fs.write (File.filesys (s.recent + 2)).path []).read File.tempfile.path =
        s.fs.read (File.filesys (s.recent + 2)).path := by
      rw [read_write_path, if_neg (by simp), htemp]
    refine .same rfl (funext fun i ↦ ?_) id
    simp only [AdjustOp.after, Threads.seen, Store.recent_withFS, Store.fs_withFS, file_write_filesys,
      htemp']
    split_ifs with hi
    · rw [hi]; rfl
    · rfl
  | truncated htemp =>
    refine .merge rfl (funext fun i ↦ ?_)
    simp only [AdjustOp.after, Threads.seen, Threads.newestFile, file_write_filesys, Function.update_apply,
      if_true, (add_two_ne_add_one s.recent).symm, if_false]
    split_ifs with hi
    · rw [fileMap_mergeFiles env.unset htemp (h.ascending _)]
      rfl
    · rfl
  | merged =>
    refine .same rfl (funext fun i ↦ ?_) id
    exact congrFun (congrFun (file_write_of_ne s (f := .tempfile) (by simp) []) i) k
  | cleaned =>
    refine .push (t := t.lookup) rfl rfl rfl id (by simp [Store.memory, ht]) (funext fun i ↦ ?_)
    simp only [AdjustOp.after, Threads.seen, Threads.newestFile, Function.update_apply]
    rw [Store.file, fileAt_dumped env (h.reserveLog t ht) (h.reserve t ht)]
    split_ifs <;> rfl
  | dumped now hfile =>
    exact .same rfl (funext fun i ↦ congrFun (congrFun (file_retired s) i) k) id

/-- **Every step.** -/
theorem Threads.Inv.ringStep (h : st.Inv Time m) {a : Action Time} (hstep : st.step a = some st') (k : K) :
    RingStep k a st st' := by
  have hdoes := Threads.step_cases hstep
  obtain ⟨s, waiting, holder⟩ := st
  cases hdoes with
  | nothing => exact .same rfl rfl id
  | write k' v =>
    have hs := sameFiles_dbwrite h.wf h.bintreeLog k' v
    exact .same (hs.newestFile_eq waiting holder) (hs.seen_eq waiting holder k) id
  | swap hswap =>
    obtain ⟨-, hidle, -⟩ := h.idle (reserve_of_wantsSwap hswap)
    exact .of_idle hidle hidle recent_swap (funext fun i ↦ file_swap h.wf i) k _
  | lock hholder =>
    obtain rfl : holder = none := hholder
    exact .same rfl rfl id
  | work hholder hrun =>
    obtain ⟨t, -, ht, hstage, -⟩ := h.working hholder
    obtain rfl : holder = some _ := hholder
    exact hstage.ringStep h.wf ht hrun k waiting
  | unlock hholder =>
    obtain rfl : holder = some [] := hholder
    exact .same rfl rfl id

/-! ## What is in memory -/

/-- Whatever memory has of the key is good. -/
def Store.MemoryOk (k : K) (good : V → Prop) (s : Store) : Prop :=
  ∀ l ∈ s.memory, ∀ v, l k = some v → good v

/-- An operation of `adjust` does not put anything into memory. -/
theorem AdjustOp.memory {t : BinaryTree K V} (h : s.WF) (ht : s.reserve = some t) (env : Env Time)
    (op : AdjustOp) : ∀ l ∈ (op.after env s t).memory, l ∈ s.memory := by
  intro l hl
  cases op with
  | emptyTemp | copy | truncate | merge | emptyTempAgain => exact hl
  | dump =>
    obtain ⟨t', ht', hroot, -, -, hwf'⟩ := reserve_dumped (s := s) env (t := t)
    have htwf := h.reserve t ht
    have hlookup : t'.lookup = t.lookup := by
      funext k
      rw [BinaryTree.lookup_eq (hwf' htwf), hroot, BinaryTree.lookup_eq htwf]
    rw [Store.memory, AdjustOp.after, ht', Option.toList_some, List.map_singleton, hlookup] at hl
    rwa [Store.memory, ht, Option.toList_some, List.map_singleton]
  | retire => exact List.mem_cons.mpr ((List.mem_cons.mp hl).imp id fun h ↦ by cases h)

/-- **A step** puts nothing into memory but what is written. -/
theorem Threads.Inv.memoryOk {good : V → Prop} {k : K} (h : st.Inv Time m) (hmem : st.store.MemoryOk k good)
    {a : Action Time} (hwrite : ∀ v, a = .write k v → good v) (hstep : st.step a = some st') :
    st'.store.MemoryOk k good := by
  cases Threads.step_cases hstep with
  | nothing => exact hmem
  | write k' v =>
    intro l hl w hw
    rcases List.mem_cons.mp hl with rfl | hl
    · rw [lookup_dbwrite k' v h.wf] at hw
      split_ifs at hw with hk
      · exact Option.some.inj hw ▸ hwrite v (by rw [hk])
      · exact hmem _ (by simp [Store.memory]) w hw
    · exact hmem l (List.mem_cons_of_mem _ hl) w hw
  | swap =>
    intro l hl w hw
    rw [Store.memory, reserve_swap, Option.toList_some, List.map_singleton] at hl
    rcases List.mem_cons.mp hl with rfl | hl
    · rw [BinaryTree.lookup_of_nil root_swap] at hw
      cases hw
    · exact hmem l (List.mem_cons.mpr (.inl (List.mem_singleton.mp hl))) w hw
  | lock => exact hmem
  | work hholder hrun =>
    obtain ⟨t, -, ht, -⟩ := h.working hholder
    rw [AdjustOp.run_eq h.wf _ ht, Option.some.injEq] at hrun
    subst hrun
    exact fun l hl ↦ hmem l (AdjustOp.memory h.wf ht _ _ l hl)
  | unlock => exact hmem

/-! ## A lookup leaves everything as it was -/

theorem Store.Cached.sameFiles (hc : Store.Cached s s') : SameFiles s s' := by
  obtain ⟨⟨sys, rfl⟩, hfs, -⟩ := hc
  exact ⟨rfl, rfl, rfl, fun _ ↦ by rw [hfs], by rw [hfs], by rw [hfs]⟩

theorem Threads.Inv.cached (h : st.Inv Time m) (hc : Store.Cached st.store s') :
    Threads.Inv Time { st with store := s' } m := by
  have hs := hc.sameFiles
  have hwf := h.wf.cached hc
  have hfs := hc.fs_eq
  obtain ⟨s, waiting, holder⟩ := st
  obtain ⟨⟨sys, rfl⟩, -, -⟩ := hc
  refine ⟨hwf, h.covers, fun k ↦ ?_, ?_, h.pending.congr hs⟩
  · rw [hs.below_eq]
    exact h.live_eq k
  · exact h.bintreeLog.congr (by rw [hfs])

/-! ## Where the key is when the read begins

In memory, or in a file that the reader comes to.  If there are several, the first one that it comes to
is the newest. -/

theorem newest_map (f : Fin numFiles → K → Option V) (is : List (Fin numFiles)) (k : K) :
    newest (is.map f) k = is.findSome? (f · k) := List.findSome?_map

/-- The order of the files, the newest first, without the oldest when it has nothing of its own. -/
def Threads.order (st : Threads) : List (Fin numFiles) :=
  match st.holder with
  | some (.emptyTempAgain :: _) | some (.dump :: _) => newer st.store.recent ++ [st.store.recent + 2]
  | _ => ring st.newestFile

/-- Up to the dump, the layers below `bintree` are `reserve` and what there is to see in the ring. -/
theorem below_of_not_retire (s : Store) (waiting : ℕ) {holder : Option (List AdjustOp)}
    (h : ∀ todo, holder ≠ some (.retire :: todo)) :
    (Threads.mk s waiting holder).newestFile = s.recent ∧
    (Threads.mk s waiting holder).below = s.reserve.toList.map BinaryTree.lookup ++
      (Threads.mk s waiting holder).order.map fun i k ↦ (Threads.mk s waiting holder).seen k i := by
  match holder, h with
  | none, _ => exact ⟨rfl, rfl⟩
  | some [], _ => exact ⟨rfl, rfl⟩
  | some (op :: todo), h =>
    cases op with
    | merge =>
      have hnewer : (newer s.recent).map
          (fun i k ↦ (Threads.mk s waiting (some (.merge :: todo))).seen k i) =
            (newer s.recent).map s.file := by
        refine List.map_congr_left fun i hi ↦ funext fun k ↦ if_neg ?_
        rintro rfl
        exact (not_mem_newer _).1 hi
      refine ⟨rfl, congrArg (s.reserve.toList.map BinaryTree.lookup ++ ·) ?_⟩
      rw [Threads.order, ring, List.map_append, Threads.newestFile, hnewer]
      simp [Threads.seen, (add_two_ne_add_one s.recent).symm]
    | retire => exact absurd rfl (h todo)
    | emptyTemp | copy | truncate | emptyTempAgain | dump => exact ⟨rfl, rfl⟩

/-- The layers below `bintree`, with the newest file next to `reserve` once it has been written. -/
theorem Threads.Inv.newest_below (h : st.Inv Time m) (k : K) :
    newest st.below k =
        (newest (st.store.reserve.toList.map BinaryTree.lookup) k).or (st.order.findSome? (st.seen k)) ∧
      (st.newestFile = st.store.recent ∨ st.newestFile = st.store.recent + 1 ∧
        st.seen k st.newestFile = newest (st.store.reserve.toList.map BinaryTree.lookup) k) := by
  obtain ⟨s, waiting, holder⟩ := st
  by_cases hretire : ∃ todo, holder = some (.retire :: todo)
  · obtain ⟨todo, rfl⟩ := hretire
    obtain ⟨t, -, ht, hstage, -⟩ := h.working rfl
    cases hstage with
    | dumped now hfile =>
      have hdumped : s.file (s.recent + 1) = t.lookup := by
        rw [Store.file, fileAt, FS.read, hfile]
        exact BinaryTree.fileMap_dumpBytes le_sizeof (h.wf.reserve t ht) now
      have hbelow : (Threads.mk s waiting (some [.retire])).below = (ring (s.recent + 1)).map s.file := rfl
      have horder : (Threads.mk s waiting (some [.retire])).order = ring (s.recent + 1) := rfl
      have hseen : (Threads.mk s waiting (some [.retire])).seen k = (s.file · k) := rfl
      have hnewest : newest (s.reserve.toList.map BinaryTree.lookup) k = t.lookup k := by
        rw [show s.reserve = some t from ht]
        simp
      rw [hbelow, horder, hseen, hnewest, newest_map, ring_add_one, List.findSome?_cons, hdumped]
      refine ⟨?_, .inr ⟨rfl, congrFun hdumped k⟩⟩
      cases t.lookup k <;> rfl
  · obtain ⟨hnewest, hbelow⟩ := below_of_not_retire s waiting fun todo htodo ↦ hretire ⟨todo, htodo⟩
    rw [hbelow, newest_append, newest_map]
    exact ⟨rfl, .inl hnewest⟩

theorem ring_sorted : ∀ r, (ring r).Pairwise (age (n := 7) r · < age r ·) := by decide

theorem newer_sorted : ∀ r, (newer r ++ [r + 2]).Pairwise (age (n := 7) r · < age r ·) ∧
    ∀ x, x ∉ newer r ++ [r + 2] → ∀ a ∈ newer r ++ [r + 2], age (n := 7) r a < age r x := by decide

/-- **The first file that has the key.** -/
theorem Threads.exists_first {k : K} {v : V} (h : st.order.findSome? (st.seen k) = some v) :
    ∃ a, st.seen k a = some v ∧
      (∀ x, age (n := 7) st.newestFile x < age st.newestFile a → st.seen k x = none) ∧
      (st.Merged → a ≠ st.newestFile + 1) := by
  by_cases hmerged : st.Merged
  · have horder : st.order = newer st.newestFile ++ [st.newestFile + 2] := by
      obtain ⟨s, waiting, holder⟩ := st
      match holder, hmerged with
      | some (.emptyTempAgain :: _), _ => rfl
      | some (.dump :: _), _ => rfl
    rw [horder] at h
    obtain ⟨hpairwise, hmem⟩ := newer_sorted st.newestFile
    obtain ⟨a, ha, hv, hnone⟩ := RingScan.exists_first hpairwise hmem h
    refine ⟨a, hv, hnone, fun _ ↦ ?_⟩
    rintro rfl
    rcases List.mem_append.mp ha with ha | ha
    · exact (not_mem_newer _).2 ha
    · exact (add_two_ne_add_one st.newestFile).symm (List.mem_singleton.mp ha)
  · have horder : st.order = ring st.newestFile := by
      obtain ⟨s, waiting, holder⟩ := st
      match holder, hmerged with
      | none, _ => rfl
      | some [], _ => rfl
      | some (op :: todo), hmerged =>
        cases op with
        | emptyTempAgain | dump => exact absurd trivial hmerged
        | emptyTemp | copy | truncate | merge | retire => rfl
    rw [horder] at h
    obtain ⟨a, -, hv, hnone⟩ := RingScan.exists_first (ring_sorted st.newestFile)
      (fun x hx ↦ absurd (mem_ring _ _) hx) h
    exact ⟨a, hv, hnone, fun hm ↦ absurd hm hmerged⟩

/-! ## The invariant of a read

What is good is a parameter.  In the end it is that the value is one the key had when the read began or
was given since. -/

variable {k : K} {good : V → Prop} {reader : Reader}

/-- A read that has begun finds something good, or has found it. -/
inductive Reads (k : K) (good : V → Prop) (st : Threads) : Reader → Prop
  /-- Something good is in a file before it. -/
  | scanning {r a : Fin numFiles} {j : ℕ} (hj : j ≤ 8) (memory : st.store.MemoryOk k good)
      (anchor : Anchor (n := 7) good (st.seen k) st.newestFile r j a)
      (merged : st.Merged → a = st.newestFile + 1 → age (n := 7) r (st.newestFile + 2) < j) :
      Reads k good st (.scanning r ((newer r).drop j))
  /-- It has found something good. -/
  | done {v : V} (h : good v) : Reads k good st (.done (some v))

/-- The file the reader comes to after `j` others. -/
theorem drop_newer : ∀ (r : Fin numFiles) (j : Fin 8),
    ∃ i, (newer r).drop j = i :: (newer r).drop (j + 1) ∧ age (n := 7) r i = j := by
  decide

/-- The next file, the first of the last two included. -/
theorem headD_drop_newer (r : Fin numFiles) {j : ℕ} (hj : j ≤ 8) :
    ∃ i, ((newer r).drop j).headD (r + 2) = i ∧ age (n := 7) r i = j := by
  rcases Nat.lt_or_eq_of_le hj with hlt | rfl
  · obtain ⟨i, hdrop, hage⟩ := drop_newer r ⟨j, hlt⟩
    exact ⟨i, by rw [hdrop]; rfl, hage⟩
  · exact ⟨r + 2, rfl, age_second r⟩

/-- What must not happen while the reader has files to look at:

* it comes to a truncated file whose records of the key are in `tempfile` only;
* the next file it comes to has a record of the key and `reserve` is dumped over it (unless it is the
  reader's first file);
* the reserved value is written to the key.  The reader has left memory behind, so this is forbidden even
  if the delete stays in memory for as long as the read lasts.

A read that has not begun, or is done, has nothing to fear. -/
def Safe (k : K) (st : Reading) : ReadAction Time → Prop
  | .read => ∀ r i todo, st.reader = .scanning r (i :: todo) →
    ∀ ops, st.threads.holder = some (.merge :: ops) → i = st.threads.store.recent + 2 →
      st.threads.store.file i k = fileMap K V (st.threads.store.fs.read File.tempfile.path) k
  | .other (.work _) => ∀ r todo, st.reader = .scanning r todo →
    ∀ ops, st.threads.holder = some (.dump :: ops) →
      todo.headD (r + 2) = st.threads.store.recent + 1 → r ≠ st.threads.store.recent + 1 →
      st.threads.store.file (st.threads.store.recent + 1) k = none
  | .other (.write k' v) => ∀ r todo, st.reader = .scanning r todo → k' = k → v ≠ tombstone V
  | .other _ => True

/-- **The beginning**: the value the key has is in memory or ahead of the reader. -/
theorem Threads.Inv.reads (h : st.Inv Time m) {v : V} (hm : m k = some v) (hv : v ≠ tombstone V)
    (hgood : good v) :
    ∃ reader', Reader.step k st .idle = some (reader', st.store.sys) ∧ Reads k good st reader' := by
  have hlive := h.live_eq k
  rw [hm, live_of_ne hv] at hlive
  obtain ⟨hnew, -⟩ := live_eq_some_iff.mp hlive
  obtain ⟨hbelow, hnewest⟩ := h.newest_below k
  rw [hbelow, ← Option.or_assoc] at hnew
  have hmemory : newest st.store.memory k = (st.store.bintree.lookup k).or
      (newest (st.store.reserve.toList.map BinaryTree.lookup) k) := newest_cons _ _ _
  rw [← hmemory] at hnew
  have hbloom := h.covers k (by rw [hm]; simp)
  cases hmem : newest st.store.memory k with
  | some w =>
    rw [hmem, Option.some_or] at hnew
    refine ⟨.done (some w), ?_, .done (Option.some.inj hnew ▸ hgood)⟩
    rw [Reader.step, readMemory_eq, if_pos hbloom, hmem]
    rfl
  | none =>
    rw [hmem, Option.none_or] at hnew
    obtain ⟨a, ha, hnone, hmerged⟩ := Threads.exists_first hnew
    refine ⟨.scanning st.store.recent ((newer st.store.recent).drop 0), ?_,
      .scanning (a := a) (Nat.zero_le 8) ?_ ?_ ?_⟩
    · rw [Reader.step, readMemory_eq, if_pos hbloom, hmem, slots_newer]
      rfl
    · intro l hl w hw
      rw [newest_eq_none_iff.mp hmem l hl] at hw
      cases hw
    · refine Anchor.start ha hgood hnone (hnewest.imp Eq.symm fun ⟨hrec, hseen⟩ ↦ ⟨hrec, ?_⟩)
      rintro rfl
      rw [hmemory, Option.or_eq_none_iff] at hmem
      rw [hseen, hmem.2] at ha
      cases ha
    · exact fun hm ha' ↦ absurd ha' (hmerged hm)

/-- **A step of the others** leaves something good ahead of the reader. -/
theorem Reads.other (hread : Reads k good st reader) (h : st.Inv Time m)
    (hlive : ∀ v, good v → v ≠ tombstone V) {a : Action Time} (hsafe : Safe k ⟨st, reader⟩ (.other a))
    (hwrite : ∀ r todo v, reader = .scanning r todo → a = .write k v → good v)
    (hstep : st.step a = some st') : Reads k good st' reader := by
  cases hread with
  | done hgood => exact .done hgood
  | @scanning r x j hj memory anchor merged =>
    have hmem := h.memoryOk memory (fun v ha ↦ hwrite _ _ v rfl ha) hstep
    cases h.ringStep hstep k with
    | same hnewest seen merged' =>
      refine .scanning hj hmem (a := x) ?_ fun hm ↦ ?_
      · rw [hnewest, seen]
        exact anchor
      · rw [hnewest]
        exact merged (merged' hm)
    | merge hnewest seen =>
      obtain ⟨x', hx', hmoved⟩ := anchor.merge fun v hv ↦
        Bool.eq_false_iff.mpr fun htomb ↦ hlive v hv (isTomb_iff.mp htomb)
      refine .scanning hj hmem (a := x') ?_ fun _ ↦ ?_
      · rw [hnewest, seen]
        exact hx'
      · rw [hnewest]
        exact hmoved
    | @push env todo ha dumping hnewest hnot t ht seen =>
      subst ha
      have hmerged : st.Merged := by rw [Threads.Merged, dumping]; trivial
      have hrecent : st.newestFile = st.store.recent := by rw [Threads.newestFile, dumping]
      have hfile : st.seen k (st.newestFile + 1) = st.store.file (st.store.recent + 1) k := by
        rw [Threads.seen, dumping, hrecent]
      have hnext : age (n := 7) r (st.newestFile + 1) = j →
          j = 0 ∨ st.seen k (st.newestFile + 1) = none := by
        intro hage
        by_cases hr : r = st.newestFile + 1
        · rw [← hr, age_self] at hage
          exact .inl hage.symm
        · have hhd : ((newer r).drop j).headD (r + 2) = st.newestFile + 1 := by
            obtain ⟨i, hi, hage'⟩ := headD_drop_newer r hj
            rw [hi, age_inj (hage'.trans hage.symm)]
          rw [hrecent] at hhd hr
          exact .inr (hfile.trans (hsafe r _ rfl todo dumping hhd hr))
      refine .scanning hj hmem (a := x) ?_ fun hm ↦ absurd hm hnot
      rw [hnewest, seen]
      exact anchor.push (merged hmerged) hnext (memory t ht)

/-- A lookup that finds what there is to see. -/
theorem seen_eq_file {i : Fin numFiles}
    (hsafe : ∀ ops, st.holder = some (.merge :: ops) → i = st.store.recent + 2 →
      st.store.file i k = fileMap K V (st.store.fs.read File.tempfile.path) k) :
    st.seen k i = st.store.file i k := by
  obtain ⟨s, waiting, holder⟩ := st
  match holder, hsafe with
  | none, _ => rfl
  | some [], _ => rfl
  | some (op :: ops), hsafe =>
    cases op with
    | merge =>
      by_cases hi : i = s.recent + 2
      · exact (if_pos hi).trans (hsafe ops rfl hi).symm
      · exact if_neg hi
    | emptyTemp | copy | truncate | emptyTempAgain | dump | retire => rfl

/-- Looking at the last two files, the reader finds something good. -/
theorem Anchor.oldest {c : Fin numFiles → Option V} {w r a : Fin numFiles}
    (h : Anchor (n := 7) good c w r 8 a) : ∃ v, (c (r + 2)).or (c (r + 1)) = some v ∧ good v := by
  have hage : age (n := 7) r (r + 2) = 8 := age_second r
  cases h2 : c (r + 2) with
  | some v => exact ⟨v, rfl, h.found hage h2⟩
  | none =>
    have h' := h.next hage h2
    have hage' : age (n := 7) r (r + 1) = 9 := age_next r
    cases h1 : c (r + 1) with
    | some v => exact ⟨v, rfl, h'.found hage' h1⟩
    | none => exact absurd (h'.next hage' h1).ahead (Nat.not_le_of_lt (Nat.lt_succ_of_le (age_le r a)))

/-- **A step of the read.** -/
theorem Reads.read (hread : Reads k good st reader) (h : st.Inv Time m)
    (hsafe : Safe k ⟨st, reader⟩ (ReadAction.read : ReadAction Time)) :
    ∃ reader' sys, reader.step k st = some (reader', sys) ∧
      Store.Cached st.store { st.store with sys := sys } ∧
      Reads k good { st with store := { st.store with sys := sys } } reader' := by
  cases hread with
  | done hgood => exact ⟨_, _, rfl, .refl h.wf.quiet, .done hgood⟩
  | @scanning r a j hj memory anchor merged =>
    rcases Nat.lt_or_eq_of_le hj with hlt | rfl
    · obtain ⟨i, hdrop, hage⟩ := drop_newer r ⟨j, hlt⟩
      rw [hdrop] at hsafe ⊢
      obtain ⟨sys, hlookup, hq, hfs⟩ := lookupFile_filesys h.wf.quiet h.wf.files i k
      have hcached : Store.Cached st.store { st.store with sys := sys } := ⟨⟨sys, rfl⟩, hfs, hq⟩
      have hseen : st.seen k i = fileAt st.store.fs i k :=
        seen_eq_file fun ops hops hi ↦ hsafe r i _ rfl ops hops hi
      rw [Reader.step, hlookup, Option.map_some, ← hseen]
      cases hfound : st.seen k i with
      | some v => exact ⟨_, _, rfl, hcached, .done (anchor.found hage hfound)⟩
      | none =>
        have hs := hcached.sameFiles
        refine ⟨_, _, rfl, hcached, .scanning (a := a) hlt memory ?_ fun hm ha ↦ ?_⟩
        · rw [hs.newestFile_eq, hs.seen_eq]
          exact anchor.next hage hfound
        · rw [hs.newestFile_eq] at ha ⊢
          exact Nat.lt_succ_of_lt (merged hm ha)
    · rw [show (newer r).drop 8 = [] from rfl, Reader.step]
      by_cases hholder : st.holder = none
      · obtain ⟨sys, hscan, hq, hfs⟩ := scan_eq h.wf.quiet h.wf.files k (slots (r + 2) r)
        obtain ⟨v, hv, hgood⟩ := Anchor.oldest anchor
        have hseen : ∀ i, st.seen k i = fileAt st.store.fs i k := fun i ↦
          seen_eq_file fun ops hops ↦ by rw [hholder] at hops; cases hops
        rw [hseen, hseen] at hv
        rw [if_pos hholder, hscan, slots_oldest]
        simp only [List.map_cons, List.map_nil, newest_cons, newest_nil, Option.or_none, hv,
          Option.map_some]
        exact ⟨_, _, rfl, ⟨⟨sys, rfl⟩, hfs, hq⟩, .done hgood⟩
      · rw [if_neg hholder]
        exact ⟨_, _, rfl, .refl h.wf.quiet, .scanning hj memory anchor merged⟩

/-! ## Runs -/

/-- The invariant of a read that has begun. -/
structure Reading.Inv (Time : Type) [TimeFormat Time] (k : K) (good : V → Prop) (st : Reading) : Prop where
  threads : ∃ m, st.threads.Inv Time m
  reads : Reads k good st.threads st.reader

/-- **Every safe step** goes through and keeps the invariant. -/
theorem Reading.Inv.step {st : Reading} (h : st.Inv Time k good) (hlive : ∀ v, good v → v ≠ tombstone V)
    {e : ReadAction Time} (hsafe : Safe k st e)
    (hwrite : ∀ v, e = .other (.write k v) → v ≠ tombstone V → good v) :
    ∃ st', st.step k e = some st' ∧ st'.Inv Time k good := by
  obtain ⟨threads, reader⟩ := st
  obtain ⟨⟨m, hinv⟩, hreads⟩ := h
  cases e with
  | other a =>
    obtain ⟨threads', hstep, hinv'⟩ := hinv.step a
    refine ⟨⟨threads', reader⟩, by rw [Reading.step, hstep, Option.map_some], ⟨_, hinv'⟩, ?_⟩
    refine hreads.other hinv hlive hsafe (fun r todo v hreader ha ↦ ?_) hstep
    subst ha
    exact hwrite v rfl (hsafe r todo hreader rfl)
  | read =>
    obtain ⟨reader', sys, hstep, hcached, hreads'⟩ := hreads.read hinv hsafe
    exact ⟨_, by rw [Reading.step, hstep, Option.map_some], ⟨m, hinv.cached hcached⟩, hreads'⟩

/-- While `fslock` is free, the steps of the read are safe. -/
theorem Reading.Inv.run_free {st : Reading} (h : st.Inv Time k good) (hlive : ∀ v, good v → v ≠ tombstone V)
    (hholder : st.threads.holder = none) (n : ℕ) :
    ∃ st', Runs.run (Reading.step k) st (List.replicate n (ReadAction.read : ReadAction Time)) = some st' ∧
      st'.Inv Time k good := by
  induction n generalizing st with
  | zero => exact ⟨st, rfl, h⟩
  | succ n ih =>
    obtain ⟨st₁, hstep, h₁⟩ := h.step hlive (e := .read)
      (fun r i todo _ ops hops ↦ by rw [hholder] at hops; cases hops) (fun v hv ↦ by cases hv)
    have hholder₁ : st₁.threads.holder = none := by
      obtain ⟨_, _, rfl⟩ := Option.map_eq_some_iff.mp hstep
      exact hholder
    obtain ⟨st', hrun, h'⟩ := ih h₁ hholder₁
    exact ⟨st', by rw [List.replicate_succ, Runs.run_cons, hstep, Option.bind_some, hrun], h'⟩

/-- And it needs nine more of them at the most. -/
theorem Reading.Inv.finish {st : Reading} (h : st.Inv Time k good) (hlive : ∀ v, good v → v ≠ tombstone V)
    (hholder : st.threads.holder = none) :
    ∃ st' v,
      Runs.run (Reading.step k) st (List.replicate 9 (ReadAction.read : ReadAction Time)) = some st' ∧
        st'.reader = .done (some v) ∧ good v := by
  obtain ⟨threads, reader⟩ := st
  obtain ⟨st', hrun, h'⟩ := h.run_free hlive hholder 9
  have hreads := h.reads
  have hdone : ∃ answer, st'.reader = .done answer := by
    cases hreads with
    | @done v _ =>
      rw [run_done] at hrun
      cases hrun
      exact ⟨_, rfl⟩
    | @scanning r _ j hj =>
      have hlen : 9 = (((newer r).drop j).length + 1) + j := by
        rw [List.length_drop, show (newer r).length = 8 from rfl]
        omega
      rw [hlen, List.replicate_add, Runs.run_append, run_scan k r _ hholder] at hrun
      obtain ⟨st₁, h₁, hrun⟩ := Option.bind_eq_some_iff.mp hrun
      obtain ⟨⟨answer, sys⟩, -, rfl⟩ := Option.map_eq_some_iff.mp h₁
      rw [run_done] at hrun
      cases hrun
      exact ⟨_, rfl⟩
  obtain ⟨answer, hdone⟩ := hdone
  have hreads' := h'.reads
  rw [hdone] at hreads'
  cases hreads' with
  | @done v hv => exact ⟨st', v, hrun, hdone, hv⟩

end Master

end ScratchStore
