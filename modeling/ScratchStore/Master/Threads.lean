import ScratchStore.Lib.Runs
import ScratchStore.Master.Flush

/-!
# Threads

Any number of threads serve lines while the threads they start run `adjust`.  What a server does under
`memlock` is one step, and so is each operation of `adjust`; between them anything may happen that the
locks allow.  Threads that wait for `fslock` are all alike, so they are counted, and of the one that
holds it we keep what it has left to do.

`Threads.Inv` ties everything together: which trees there are, what their logs say, how far `adjust`
has got, and that the layers, read with what `adjust` has moved in mind, still have the last write of
every key.  No step fails and every step keeps it: `Threads.Inv.step`.

## The layers while `adjust` runs

Between two operations of `adjust` the files alone do not have the map of the store: a file may be in
`tempfile`, or be there twice.  `Threads.below` is the stack of maps one has to read instead, for each number of
operations that are left, and the invariant says of that stack what `Store.layers` says when nobody is at work.

* `Stage` is how far `adjust` has got, and has the facts about `tempfile` and the two oldest files.
* `Pending` is about `reserve` and the threads that wait: there is at most one tree on its way, and until it is
  dumped its log has it.
* `Threads.Does` is the one case distinction on steps; the lemmas about single steps are sorted by it.
-/

set_option autoImplicit false

namespace ScratchStore

namespace Master

open SortedAssoc FileIO Layers

variable {Time : Type} [TimeFormat Time]

/-- The store and the threads that were started to run `adjust`: how many of them wait for `fslock`,
and what the one that holds it still has to do. -/
structure Threads where
  store : Store
  waiting : ℕ
  holder : Option (List AdjustOp)

/-- One step of some thread. -/
inductive Action (Time : Type) where
  /-- `dbwrite(k, v)` -/
  | write (k : K) (v : V)
  /-- The test of `serve`, and the swap. -/
  | swap
  /-- An `adjust` that was started gets `fslock`. -/
  | lock
  /-- Its next operation. -/
  | work (env : Env Time)
  /-- It gives `fslock` back. -/
  | unlock

/-- A step of a thread that cannot move, or is not there, changes nothing. -/
def Threads.step (st : Threads) : Action Time → Option Threads
  | .write k v => some { st with store := dbwrite k v st.store }
  | .swap =>
    some (if wantsSwap st.store then { st with store := Master.swap st.store, waiting := st.waiting + 1 }
      else st)
  | .lock =>
    some (if st.holder = none ∧ st.waiting ≠ 0 then
      { st with waiting := st.waiting - 1, holder := some adjustOps } else st)
  | .work env =>
    match st.holder with
    | some (op :: todo) => (op.run env st.store).map fun s ↦ { st with store := s, holder := some todo }
    | _ => some st
  | .unlock => some (if st.holder = some [] then { st with holder := none } else st)

/-- The `adjust` threads that have not set `reserve` to `NULL` yet. -/
def Threads.unfinished (st : Threads) : ℕ :=
  st.waiting + if st.holder = none ∨ st.holder = some [] then 0 else 1

/-- The newest file.  From the dump on it is the file that was the oldest. -/
def Threads.newestFile (st : Threads) : Fin numFiles :=
  match st.holder with
  | some (.retire :: _) => st.store.recent + 1
  | _ => st.store.recent

/-- What an action does to the map of the values written last. -/
def Action.note (m : K → Option V) : Action Time → K → Option V
  | .write k v => Function.update m k (some v)
  | _ => m

/-- The value written last to each key. -/
def lastWritten (actions : List (Action Time)) : K → Option V := actions.foldl Action.note fun _ ↦ none

/-! ## The layers while `adjust` runs

What the newest, the oldest and the second oldest file are is a matter of how far `adjust` has got: from
the dump on the file that was the oldest is the newest, although `recent` has not moved on. -/

/-- The layers below `bintree`.  From the truncation to the merge the second oldest file is in
`tempfile`, from the merge to the dump it has what the oldest file had, and after the dump the oldest
file is the newest. -/
def Threads.below (st : Threads) : List (K → Option V) :=
  let s := st.store
  let reserve := s.reserve.toList.map BinaryTree.lookup
  match st.holder with
  | some (.merge :: _) => reserve ++ ((newer s.recent).map s.file ++
      [fileMap K V (s.fs.read File.tempfile.path), s.file (s.recent + 1)])
  | some (.emptyTempAgain :: _) | some (.dump :: _) =>
    reserve ++ ((newer s.recent).map s.file ++ [s.file (s.recent + 2)])
  | some (.retire :: _) => (ring (s.recent + 1)).map s.file
  | _ => reserve ++ (ring s.recent).map s.file

/-- How far `adjust` has got with the tree `t`, by what it has left to do. -/
inductive Stage (Time : Type) [TimeFormat Time] (s : Store) (t : BinaryTree K V) : List AdjustOp → Prop
  | start : Stage Time s t [.emptyTemp, .copy, .truncate, .merge, .emptyTempAgain, .dump, .retire]
  | emptied : Stage Time s t [.copy, .truncate, .merge, .emptyTempAgain, .dump, .retire]
  /-- `tempfile` has what the second oldest file has. -/
  | copied (h : s.fs.read File.tempfile.path = s.fs.read (File.filesys (s.recent + 2)).path) :
      Stage Time s t [.truncate, .merge, .emptyTempAgain, .dump, .retire]
  /-- `tempfile` has what the second oldest file had. -/
  | truncated (h : Ascending (records K V (s.fs.read File.tempfile.path))) :
      Stage Time s t [.merge, .emptyTempAgain, .dump, .retire]
  /-- The two oldest files are merged. -/
  | merged : Stage Time s t [.emptyTempAgain, .dump, .retire]
  | cleaned : Stage Time s t [.dump, .retire]
  /-- The oldest file is the tree. -/
  | dumped (now : Time)
      (h : s.fs.content (File.filesys (s.recent + 1)).path = some (t.dumpBytes now)) :
      Stage Time s t [.retire]

/-- The trees on their way to disk: none, one that waits for its `adjust`, or one that is being
written.  Until it is, its log has it. -/
inductive Pending (Time : Type) [TimeFormat Time] (s : Store) : ℕ → Option (List AdjustOp) → Prop
  /-- There is no `reserve`. -/
  | none {holder : Option (List AdjustOp)} (hholder : holder = none ∨ holder = some [])
      (hr : s.reserve = none) (hlog : s.fs.content (File.backups (s.current + 1)).path = some []) :
      Pending Time s 0 holder
  /-- It waits for `fslock`, and its log has it. -/
  | waiting {holder : Option (List AdjustOp)} (hholder : holder = none ∨ holder = some [])
      {t : BinaryTree K V} (ht : s.reserve = some t)
      (hlog : t.Backed s.fs (File.backups (s.current + 1)).path) : Pending Time s 1 holder
  /-- An `adjust` writes it, and until it is dumped its log has it. -/
  | working {todo : List AdjustOp} {t : BinaryTree K V} (ht : s.reserve = some t)
      (hstage : Stage Time s t todo)
      (hlog : todo ≠ [.retire] → t.Backed s.fs (File.backups (s.current + 1)).path) :
      Pending Time s 0 (some todo)

/-- The invariant, for the map `m` of the last writes. -/
structure Threads.Inv (Time : Type) [TimeFormat Time] (st : Threads) (m : K → Option V) : Prop where
  wf : st.store.WF
  /-- The Bloom filter lets every key through that was ever written. -/
  covers : ∀ k, m k ≠ none → st.store.bloom.get k = true
  /-- `bintree` over the layers below it has the last write of each key. -/
  live_eq : ∀ k, live isTomb ((st.store.bintree.lookup k).or (newest st.below k)) = live isTomb (m k)
  /-- The current log replays to `bintree`. -/
  bintreeLog : st.store.bintree.Backed st.store.fs (File.backups st.store.current).path
  /-- Where `reserve` is on its way, and that its log has it until it is dumped. -/
  pending : Pending Time st.store st.waiting st.holder

/-- What a step can do. -/
inductive Threads.Does (st : Threads) : Action Time → Threads → Prop
  | nothing {a : Action Time} : Does st a st
  | write (k : K) (v : V) : Does st (.write k v) { st with store := dbwrite k v st.store }
  | swap (hswap : wantsSwap st.store = true) :
      Does st .swap { st with store := Master.swap st.store, waiting := st.waiting + 1 }
  | lock (hholder : st.holder = none) (hwaiting : st.waiting ≠ 0) :
      Does st .lock { st with waiting := st.waiting - 1, holder := some adjustOps }
  | work {env : Env Time} {op : AdjustOp} {todo : List AdjustOp} {s' : Store}
      (hholder : st.holder = some (op :: todo)) (hrun : op.run env st.store = some s') :
      Does st (.work env) { st with store := s', holder := some todo }
  | unlock (hholder : st.holder = some []) : Does st .unlock { st with holder := none }

theorem Threads.step_cases {st st' : Threads} {a : Action Time} (h : st.step a = some st') :
    st.Does a st' := by
  cases a with
  | write k v =>
    cases h
    exact .write k v
  | swap =>
    rw [Threads.step] at h
    split_ifs at h with hswap <;> cases h
    · exact .swap hswap
    · exact .nothing
  | lock =>
    rw [Threads.step] at h
    split_ifs at h with hlock <;> cases h
    · exact .lock hlock.1 hlock.2
    · exact .nothing
  | work env =>
    obtain ⟨s, waiting, holder⟩ := st
    cases holder with
    | none => cases h; exact .nothing
    | some ops =>
      cases ops with
      | nil => cases h; exact .nothing
      | cons op todo =>
        obtain ⟨s', hrun, rfl⟩ := Option.map_eq_some_iff.mp h
        exact .work rfl hrun
  | unlock =>
    rw [Threads.step] at h
    split_ifs at h with hunlock <;> cases h
    · exact .unlock hunlock
    · exact .nothing

/-- While `adjust` runs there is a tree, and nobody waits. -/
theorem Threads.Inv.working {st : Threads} {m : K → Option V} (h : st.Inv Time m) {op : AdjustOp}
    {todo : List AdjustOp} (hholder : st.holder = some (op :: todo)) :
    ∃ t, st.waiting = 0 ∧ st.store.reserve = some t ∧ Stage Time st.store t (op :: todo) ∧
      (op :: todo ≠ [.retire] → t.Backed st.store.fs (File.backups (st.store.current + 1)).path) := by
  obtain ⟨s, waiting, holder⟩ := st
  obtain rfl : holder = some (op :: todo) := hholder
  cases h.pending with
  | none hh => simp at hh
  | waiting hh => simp at hh
  | working ht hstage hlog => exact ⟨_, rfl, ht, hstage, hlog⟩

/-- Without `reserve` no `adjust` is on its way. -/
theorem Threads.Inv.idle {st : Threads} {m : K → Option V} (h : st.Inv Time m)
    (hr : st.store.reserve = none) : st.waiting = 0 ∧ (st.holder = none ∨ st.holder = some []) ∧
      st.store.fs.content (File.backups (st.store.current + 1)).path = some [] := by
  obtain ⟨s, waiting, holder⟩ := st
  dsimp only at hr ⊢
  cases h.pending with
  | none hh _ hlog => exact ⟨rfl, hh, hlog⟩
  | waiting _ ht => exact absurd (hr.symm.trans ht) (by simp)
  | working ht => exact absurd (hr.symm.trans ht) (by simp)

/-! ## Steps of the servers

A write goes to `bintree`, its log and the Bloom filter, none of which `adjust` touches.  A swap is
possible only when there is no `reserve`, which is when the other log is empty and can be given to the
new tree. -/

variable {s s' : Store} {st : Threads} {m : K → Option V}

/-- The two stores have the same data files, `tempfile`, `reserve` and log of `reserve`. -/
structure SameFiles (s s' : Store) : Prop where
  recent : s'.recent = s.recent
  current : s'.current = s.current
  reserve : s'.reserve = s.reserve
  filesys : ∀ i, s'.fs.content (File.filesys i).path = s.fs.content (File.filesys i).path
  tempfile : s'.fs.content File.tempfile.path = s.fs.content File.tempfile.path
  backup : s'.fs.content (File.backups (s.current + 1)).path =
    s.fs.content (File.backups (s.current + 1)).path

theorem SameFiles.file_eq (h : SameFiles s s') : s'.file = s.file := by
  funext i
  rw [Store.file, fileAt, FS.read, h.filesys]
  rfl

theorem SameFiles.newestFile_eq {s s' : Store} (h : SameFiles s s') (waiting : ℕ)
    (holder : Option (List AdjustOp)) :
    (Threads.mk s' waiting holder).newestFile = (Threads.mk s waiting holder).newestFile := by
  simp only [Threads.newestFile, h.recent]

theorem SameFiles.read_tempfile (h : SameFiles s s') :
    s'.fs.read File.tempfile.path = s.fs.read File.tempfile.path := by
  rw [FS.read, h.tempfile]
  rfl

theorem SameFiles.below_eq (h : SameFiles s s') (waiting : ℕ) (holder : Option (List AdjustOp)) :
    (Threads.mk s' waiting holder).below = (Threads.mk s waiting holder).below := by
  simp only [Threads.below, h.recent, h.reserve, h.file_eq, h.read_tempfile]

theorem Stage.congr {t : BinaryTree K V} {todo : List AdjustOp} (h : Stage Time s t todo)
    (hs : SameFiles s s') : Stage Time s' t todo := by
  cases h with
  | start => exact .start
  | emptied => exact .emptied
  | copied h => exact .copied (by rw [hs.read_tempfile, h, FS.read, FS.read, hs.recent, hs.filesys])
  | truncated h => exact .truncated (by rwa [hs.read_tempfile])
  | merged => exact .merged
  | cleaned => exact .cleaned
  | dumped now h => exact .dumped now (by rwa [hs.recent, hs.filesys])

theorem Pending.congr {waiting : ℕ} {holder : Option (List AdjustOp)} (h : Pending Time s waiting holder)
    (hs : SameFiles s s') : Pending Time s' waiting holder := by
  have hlog : ∀ t : BinaryTree K V, t.Backed s.fs (File.backups (s.current + 1)).path →
      t.Backed s'.fs (File.backups (s'.current + 1)).path := by
    intro t ht
    rw [hs.current]
    exact ht.congr hs.backup
  cases h with
  | none hholder hr hempty =>
    exact .none hholder (hs.reserve.trans hr) (by rw [hs.current, hs.backup, hempty])
  | waiting hholder ht h => exact .waiting hholder (hs.reserve.trans ht) (hlog _ h)
  | working ht hstage h =>
    exact .working (hs.reserve.trans ht) (hstage.congr hs) fun hne ↦ hlog _ (h hne)

/-- **A write** only touches the log of `bintree` and the Bloom filter. -/
theorem sameFiles_dbwrite (h : s.WF) (hlog : s.bintree.Backed s.fs (File.backups s.current).path)
    (k : K) (v : V) : SameFiles s (dbwrite k v s) := by
  have hcontent : ∀ f : File, f ≠ .backups s.current → f ≠ .bloomdump →
      (dbwrite k v s).fs.content f.path = s.fs.content f.path := by
    intro f hf hbloom
    refine content_dbwrite k v h f ?_ hbloom
    rw [hlog.logName_eq]
    simpa using hf.symm
  exact ⟨rfl, rfl, rfl, fun i ↦ hcontent _ (by simp) (by simp), hcontent _ (by simp) (by simp),
    hcontent _ (by simp) (by simp)⟩

/-- The log of `bintree` follows a write. -/
theorem backed_dbwrite (h : s.WF) (hlog : s.bintree.Backed s.fs (File.backups s.current).path)
    (k : K) (v : V) :
    (dbwrite k v s).bintree.Backed (dbwrite k v s).fs (File.backups s.current).path := by
  have hbloom := ((mirrors_insert k v h).set k).2.2.2.2.1 (File.backups s.current).path
    (by rw [h.bloomName]; simp)
  exact (hlog.insert k v).congr hbloom

theorem Threads.Inv.write (h : st.Inv Time m) (k : K) (v : V) :
    Threads.Inv Time { st with store := dbwrite k v st.store } (Function.update m k (some v)) := by
  have hs := sameFiles_dbwrite h.wf h.bintreeLog k v
  refine ⟨h.wf.dbwrite k v, fun k' hk' ↦ ?_, fun k' ↦ ?_, backed_dbwrite h.wf h.bintreeLog k v,
    h.pending.congr hs⟩
  · rw [Function.update_apply] at hk'
    split_ifs at hk' with hk
    · rw [hk]; exact bloom_dbwrite_self k v h.wf
    · exact bloom_dbwrite_of_get k v h.wf (h.covers k' hk')
  · dsimp only
    rw [hs.below_eq, lookup_dbwrite k v h.wf, Function.update_apply]
    split_ifs
    · rfl
    · exact h.live_eq k'

/-- When `adjust` has not begun, the layers below `bintree` are `reserve` and the ring. -/
theorem below_of_idle (s : Store) (waiting : ℕ) {holder : Option (List AdjustOp)}
    (h : holder = none ∨ holder = some []) : (Threads.mk s waiting holder).below =
      s.reserve.toList.map BinaryTree.lookup ++ (ring s.recent).map s.file := by
  rcases h with rfl | rfl <;> rfl

/-- **A swap** needs `reserve` to be `NULL`, and then no `adjust` is on its way. -/
theorem Threads.Inv.swap (h : st.Inv Time m) (hswap : wantsSwap st.store = true) :
    Threads.Inv Time { st with store := Master.swap st.store, waiting := st.waiting + 1 } m := by
  have hr := reserve_of_wantsSwap hswap
  have hlog : st.store.bintree.Backed (Master.swap st.store).fs
      (File.backups ((Master.swap st.store).current + 1)).path := by
    rw [current_swap, backups_add_two]
    refine h.bintreeLog.congr ?_
    rw [fs_swap h.wf, content_write_path, if_neg (by simp)]
  obtain ⟨s, waiting, holder⟩ := st
  obtain ⟨rfl, hholder, -⟩ := h.idle hr
  refine ⟨h.wf.swap, h.covers, fun k ↦ ?_, backed_swap h.wf, .waiting hholder reserve_swap hlog⟩
  have hfiles : (ring s.recent).map (Master.swap s).file = (ring s.recent).map s.file :=
    List.map_congr_left fun i _ ↦ file_swap h.wf i
  have hlive := h.live_eq k
  dsimp only at hlive hr ⊢
  rw [below_of_idle s 0 hholder, hr] at hlive
  rw [below_of_idle _ _ hholder, BinaryTree.lookup_of_nil root_swap, reserve_swap, recent_swap, hfiles,
    Option.none_or, Option.toList_some, List.map_singleton, List.singleton_append, newest_cons]
  exact hlive

/-! ## Steps of `adjust`

The operations up to the dump change `tempfile` and the second oldest file and keep the layers as they
are read by `Threads.below`.  The dump makes a file of `reserve`, and the last operation moves `recent`
on to it. -/

section Work

variable {t : BinaryTree K V} {todo : List AdjustOp}

/-- Writing a data file or `tempfile` leaves the logs alone. -/
theorem content_backups_write (fs : FS) {f : File} (hf : ∀ i, f ≠ .backups i) (bs : Bytes) (i : Fin 2) :
    (fs.write f.path bs).content (File.backups i).path = fs.content (File.backups i).path := by
  rw [content_write_path, if_neg (hf i).symm]

/-- An operation that only writes the data file or `tempfile` `f`. -/
theorem Threads.Inv.writeFile {s : Store} {todo todo' : List AdjustOp} {f : File} {bs : Bytes}
    (h : (Threads.mk s 0 (some todo)).Inv Time m) (ht : s.reserve = some t)
    (hf : ∀ i, f ≠ .backups i) (hwf : (s.withFS (s.fs.write f.path bs)).WF)
    (hlog : t.Backed s.fs (File.backups (s.current + 1)).path)
    (hstage : Stage Time (s.withFS (s.fs.write f.path bs)) t todo')
    (hbelow : ∀ k,
      live isTomb (newest (Threads.mk (s.withFS (s.fs.write f.path bs)) 0 (some todo')).below k) =
        live isTomb (newest (Threads.mk s 0 (some todo)).below k)) :
    Threads.Inv Time (Threads.mk (s.withFS (s.fs.write f.path bs)) 0 (some todo')) m where
  wf := hwf
  covers := h.covers
  live_eq k := by
    rw [← h.live_eq k]
    dsimp only [Store.bintree_withFS]
    cases s.bintree.lookup k with
    | some v => rfl
    | none => exact hbelow k
  bintreeLog := h.bintreeLog.congr (content_backups_write s.fs hf bs _)
  pending := .working ht hstage fun _ ↦ hlog.congr (content_backups_write s.fs hf bs _)

theorem file_write_of_ne (s : Store) {f : File} (hf : ∀ i, f ≠ .filesys i) (bs : Bytes) :
    (s.withFS (s.fs.write f.path bs)).file = s.file := by
  funext i
  rw [Store.file, Store.fs_withFS, fileAt_write, if_neg (hf i).symm]
  rfl

theorem file_write_filesys (s : Store) (i : Fin numFiles) (bs : Bytes) (j : Fin numFiles) :
    (s.withFS (s.fs.write (File.filesys i).path bs)).file j =
      if j = i then fileMap K V bs else s.file j := by
  rw [Store.file, Store.fs_withFS, fileAt_write]
  simp only [File.filesys.injEq]
  rfl

/-- Writing one of the two oldest files does not change the newer ones. -/
theorem map_newer_write (s : Store) (bs : Bytes) :
    (newer s.recent).map (s.withFS (s.fs.write (File.filesys (s.recent + 2)).path bs)).file =
      (newer s.recent).map s.file := by
  refine List.map_congr_left ?_
  intro i hi
  rw [file_write_filesys, if_neg]
  rintro rfl
  exact (not_mem_newer _).1 hi

variable (env : Env Time)

theorem Threads.Inv.emptyTemp {s : Store} {todo todo' : List AdjustOp}
    (h : (Threads.mk s 0 (some todo)).Inv Time m) (ht : s.reserve = some t)
    (hlog : t.Backed s.fs (File.backups (s.current + 1)).path)
    (hstage : Stage Time (s.withFS (s.fs.write File.tempfile.path [])) t todo')
    (hbelow : ∀ s' : Store, s'.file = s.file → s'.recent = s.recent → s'.reserve = s.reserve →
      (Threads.mk s' 0 (some todo')).below = (Threads.mk s 0 (some todo)).below) :
    ∃ s', Master.emptyTemp s = some s' ∧ Threads.Inv Time (Threads.mk s' 0 (some todo')) m := by
  refine ⟨_, emptyTemp_eq h.wf, h.writeFile ht (by simp) h.wf.emptyTemp hlog hstage fun k ↦ ?_⟩
  rw [hbelow _ (file_write_of_ne s (by simp) []) rfl rfl]

theorem Threads.Inv.copy {s : Store} {todo : List AdjustOp}
    (h : (Threads.mk s 0 (some (.copy :: todo))).Inv Time m) (ht : s.reserve = some t)
    (htodo : todo = [.truncate, .merge, .emptyTempAgain, .dump, .retire])
    (hlog : t.Backed s.fs (File.backups (s.current + 1)).path) :
    ∃ s', Master.copy s = some s' ∧ Threads.Inv Time (Threads.mk s' 0 (some todo)) m := by
  subst htodo
  refine ⟨_, copy_eq h.wf, h.writeFile ht (by simp) (h.wf.copy _) hlog (.copied ?_) fun k ↦ ?_⟩
  · rw [Store.fs_withFS, read_write_path, if_pos rfl, Store.recent_withFS, read_write_path,
      if_neg (by simp)]
  · simp only [Threads.below, file_write_of_ne s (f := .tempfile) (by simp), Store.reserve_withFS,
      Store.recent_withFS]

theorem Threads.Inv.truncate {s : Store} {todo : List AdjustOp}
    (h : (Threads.mk s 0 (some (.truncate :: todo))).Inv Time m) (ht : s.reserve = some t)
    (htodo : todo = [.merge, .emptyTempAgain, .dump, .retire])
    (htemp : s.fs.read File.tempfile.path = s.fs.read (File.filesys (s.recent + 2)).path)
    (hlog : t.Backed s.fs (File.backups (s.current + 1)).path) :
    ∃ s', Master.truncate s = some s' ∧ Threads.Inv Time (Threads.mk s' 0 (some todo)) m := by
  subst htodo
  have htemp' : (s.fs.write (File.filesys (s.recent + 2)).path []).read File.tempfile.path =
      s.fs.read (File.filesys (s.recent + 2)).path := by
    rw [read_write_path, if_neg (by simp), htemp]
  refine ⟨_, truncate_eq h.wf, h.writeFile ht (by simp) (h.wf.truncate _) hlog (.truncated ?_) fun k ↦ ?_⟩
  · rw [Store.fs_withFS, htemp']
    exact h.wf.ascending _
  · simp only [Threads.below, Store.recent_withFS, Store.reserve_withFS, Store.fs_withFS,
      map_newer_write, htemp', file_write_filesys, (add_two_ne_add_one s.recent).symm, if_false]
    rw [ring, List.map_append]
    rfl

theorem Threads.Inv.merge {s : Store} {todo : List AdjustOp}
    (h : (Threads.mk s 0 (some (.merge :: todo))).Inv Time m) (ht : s.reserve = some t)
    (htodo : todo = [.emptyTempAgain, .dump, .retire])
    (htemp : Ascending (records K V (s.fs.read File.tempfile.path)))
    (hlog : t.Backed s.fs (File.backups (s.current + 1)).path) :
    ∃ s', Master.merge env s = some s' ∧ Threads.Inv Time (Threads.mk s' 0 (some todo)) m := by
  subst htodo
  refine ⟨_, merge_eq h.wf env, h.writeFile ht (by simp) (h.wf.merge _ _ htemp (h.wf.ascending _)) hlog
    .merged fun k ↦ ?_⟩
  simp only [Threads.below, Store.recent_withFS, Store.reserve_withFS, map_newer_write,
    file_write_filesys, if_true]
  rw [fileMap_mergeFiles env.unset htemp (h.wf.ascending _), ← List.append_assoc, ← List.append_assoc]
  exact live_newest_compact _ _ _ k

theorem Threads.Inv.dump {s : Store} {todo : List AdjustOp}
    (h : (Threads.mk s 0 (some (.dump :: todo))).Inv Time m) (ht : s.reserve = some t)
    (htodo : todo = [.retire]) (hlog : t.Backed s.fs (File.backups (s.current + 1)).path) :
    ∃ s', Master.dump env s = some s' ∧ Threads.Inv Time (Threads.mk s' 0 (some todo)) m := by
  subst htodo
  have haside := h.wf.reserveLog t ht
  have htwf := h.wf.reserve t ht
  obtain ⟨t', ht', hroot, -, -, -⟩ := reserve_dumped (s := s) env (t := t)
  have hother : (dumped env s t).fs.content (File.backups s.current).path =
      s.fs.content (File.backups s.current).path := by
    rw [content_dumped env _ (by rw [hlog.logName_eq]; simp), if_neg (by simp)]
  have hfile' : (dumped env s t).fs.content (File.filesys (s.recent + 1)).path =
      some (t'.dumpBytes env.now) := by
    rw [content_dumped env _ (haside.1 _), if_pos rfl, BinaryTree.dumpBytes, BinaryTree.dumpBytes, hroot]
  refine ⟨_, dump_eq h.wf env ht, h.wf.dumped env ht, h.covers, fun k ↦ ?_, h.bintreeLog.congr hother,
    .working ht' (.dumped env.now hfile') fun hne ↦ absurd rfl hne⟩
  have hlive := h.live_eq k
  simp only [Threads.below, ht, Option.toList_some, List.map_singleton, List.singleton_append] at hlive
  have hbelow : (Threads.mk (dumped env s t) 0 (some [.retire])).below =
      (ring (s.recent + 1)).map (dumped env s t).file := rfl
  rw [hbelow, files_dumped env haside htwf]
  exact hlive

omit [TimeFormat Time] in
theorem file_retired (s : Store) : (retired s).file = s.file :=
  file_write_of_ne s (f := .backups (s.current + 1)) (by simp) []

theorem Threads.Inv.retire {s : Store} (h : (Threads.mk s 0 (some [.retire])).Inv Time m) :
    ∃ s', Master.retire s = some s' ∧ Threads.Inv Time (Threads.mk s' 0 (some [])) m := by
  have hother : (retired s).fs.content (File.backups s.current).path =
      s.fs.content (File.backups s.current).path :=
    (content_write_path _ _ _ _).trans (if_neg (by simp))
  refine ⟨_, retire_eq h.wf, h.wf.retired, h.covers, fun k ↦ ?_, h.bintreeLog.congr hother,
    .none (.inr rfl) rfl ((content_write_path _ _ _ _).trans (if_pos rfl))⟩
  have hlive := h.live_eq k
  have hbelow : (Threads.mk (retired s) 0 (some [])).below = (ring (s.recent + 1)).map (retired s).file :=
    rfl
  rw [hbelow, file_retired]
  exact hlive

/-- **Every operation of `adjust`** goes through and keeps the invariant. -/
theorem Threads.Inv.work {op : AdjustOp} {todo : List AdjustOp} (h : st.Inv Time m)
    (hholder : st.holder = some (op :: todo)) :
    ∃ s', op.run env st.store = some s' ∧
      Threads.Inv Time { st with store := s', holder := some todo } m := by
  obtain ⟨t, hwaiting, ht, hstage, hlog⟩ := h.working hholder
  obtain ⟨s, waiting, holder⟩ := st
  dsimp only at hwaiting hholder ht hstage hlog ⊢
  subst hwaiting hholder
  cases hstage with
  | start =>
    refine h.emptyTemp ht (hlog (by simp)) .emptied ?_
    intro s' hfile hr ht'
    simp only [Threads.below, hfile, hr, ht']
  | emptied => exact h.copy ht rfl (hlog (by simp))
  | copied htemp => exact h.truncate ht rfl htemp (hlog (by simp))
  | truncated htemp => exact h.merge env ht rfl htemp (hlog (by simp))
  | merged =>
    refine h.emptyTemp ht (hlog (by simp)) .cleaned ?_
    intro s' hfile hr ht'
    simp only [Threads.below, hfile, hr, ht']
  | cleaned => exact h.dump env ht rfl (hlog (by simp))
  | dumped now hfile => exact h.retire

end Work

/-- Taking `fslock`. -/
theorem Threads.Inv.lock (h : st.Inv Time m) (hholder : st.holder = none) (hwaiting : st.waiting ≠ 0) :
    Threads.Inv Time { st with waiting := st.waiting - 1, holder := some adjustOps } m := by
  obtain ⟨s, waiting, holder⟩ := st
  have hpending := h.pending
  dsimp only at hholder hwaiting hpending ⊢
  subst hholder
  cases hpending with
  | none _ _ _ => exact absurd rfl hwaiting
  | waiting _ ht hlog => exact ⟨h.wf, h.covers, h.live_eq, h.bintreeLog, .working ht .start fun _ ↦ hlog⟩

/-- Giving `fslock` back. -/
theorem Threads.Inv.unlock (h : st.Inv Time m) (hholder : st.holder = some []) :
    Threads.Inv Time { st with holder := none } m := by
  obtain ⟨s, waiting, holder⟩ := st
  have hpending := h.pending
  dsimp only at hholder hpending ⊢
  subst hholder
  refine ⟨h.wf, h.covers, h.live_eq, h.bintreeLog, ?_⟩
  cases hpending with
  | none _ hr hlog => exact .none (.inl rfl) hr hlog
  | waiting _ ht hlog => exact .waiting (.inl rfl) ht hlog
  | working _ hstage _ => cases hstage

/-! ## Runs -/

/-- **Every step** goes through and keeps the invariant. -/
theorem Threads.Inv.step (h : st.Inv Time m) (a : Action Time) :
    ∃ st', st.step a = some st' ∧ st'.Inv Time (a.note m) := by
  cases a with
  | write k v => exact ⟨_, rfl, h.write k v⟩
  | swap =>
    rw [Threads.step]
    split_ifs with hswap
    · exact ⟨_, rfl, h.swap hswap⟩
    · exact ⟨_, rfl, h⟩
  | lock =>
    rw [Threads.step]
    split_ifs with hlock
    · exact ⟨_, rfl, h.lock hlock.1 hlock.2⟩
    · exact ⟨_, rfl, h⟩
  | work env =>
    obtain ⟨s, waiting, holder⟩ := st
    match holder, h with
    | none, h => exact ⟨_, rfl, h⟩
    | some [], h => exact ⟨_, rfl, h⟩
    | some (op :: todo), h =>
      obtain ⟨s', hs', h'⟩ := h.work env rfl
      exact ⟨_, by simp only [Threads.step, hs', Option.map_some], h'⟩
  | unlock =>
    rw [Threads.step]
    split_ifs with hunlock
    · exact ⟨_, rfl, h.unlock hunlock⟩
    · exact ⟨_, rfl, h⟩

/-- A fresh store, before any thread has done anything. -/
theorem Fresh.inv (h : Fresh Time s) : (Threads.mk s 0 none).Inv Time fun _ ↦ none where
  wf := h.wf
  covers _ hk := absurd rfl hk
  live_eq k := by
    have hnew := h.newest_eq k
    rw [Store.layers, Store.memory, List.cons_append, newest_cons] at hnew
    rw [below_of_idle s 0 (.inl rfl)]
    exact congrArg (live isTomb) hnew
  bintreeLog := h.bintreeLog
  pending := .none (.inl rfl) h.reserve h.otherLog

/-- **Every run** goes through and keeps the invariant. -/
theorem Threads.Inv.run (h : st.Inv Time m) (actions : List (Action Time)) :
    ∃ st', Runs.run Threads.step st actions = some st' ∧ st'.Inv Time (actions.foldl Action.note m) := by
  have hstep : ∀ (st : Threads) m (a : Action Time), st.Inv Time m → True →
      ∃ st', st.step a = some st' ∧ st'.Inv Time (a.note m) := fun _ _ a hst _ ↦ hst.step a
  exact Runs.run_total hstep h actions fun _ _ ↦ trivial

/-- **From a fresh store** every run goes through. -/
theorem Fresh.run (h : Fresh Time s) (actions : List (Action Time)) :
    ∃ st, Runs.run Threads.step ⟨s, 0, none⟩ actions = some st ∧ st.Inv Time (lastWritten actions) :=
  h.inv.run actions

end Master

end ScratchStore
