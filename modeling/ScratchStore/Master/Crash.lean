import ScratchStore.Master.Batch
import ScratchStore.Master.Boot

/-!
# Crashes

The constructor replays the two backups in the order of their names.  Which of them belongs to the
older tree depends on `current`, which is not on disk: after an even number of swaps the first backup
is the newer one, its records are written to the ring before those of `reserve`, and `reserve` hides
them.

* `LogHas` is the map a backup replays to, and `recovers_iff_logs` what a restart makes of the two of them.
* `Clash` is a key for which the order matters, and `Threads.Untouched` that no `adjust` has begun to modify
  a file.
* `recovers_iff_not_clash`: a clash is the only way to lose a write in a crash between steps, when no
  `adjust` is in the middle.
* `clash_loses_write`: it happens after two batches, and one more write to a key of the second.

Inside `adjust` there is one more way: between the truncation of the second oldest file and the merge, what
that file had is in `tempfile` only, and the constructor does not look there.  `Master.CrashInAdjust` goes
through the operations of `adjust` one by one.
-/

set_option autoImplicit false

namespace ScratchStore

namespace Master

open SortedAssoc FileIO Layers

variable {Time : Type} [TimeFormat Time] {s : Store} {k : K} {v : V}

/-! ## The disk of a store

What a restart finds in the logs is compared with the trees.  A log of a tree replays to the tree, and
so the disk has all that memory had, perhaps in another order. -/

/-- The backup `i` replays to the map `m`. -/
def LogHas (fs : FS) (i : Fin 2) (m : K → Option V) : Prop :=
  ∃ es, fs.content (File.backups i).path = some (Pod.encode es) ∧ logMap es = m

theorem logHas_of_backed {t : BinaryTree K V} {fs : FS} {i : Fin 2}
    (h : t.Backed fs (File.backups i).path) : LogHas fs i t.lookup := by
  obtain ⟨es, hlog, hes⟩ := h.exists_log
  refine ⟨es, hlog.content_eq, funext fun k ↦ ?_⟩
  rw [logMap, hes, BinaryTree.lookup_eq h.wf]

theorem logHas_of_empty {fs : FS} {i : Fin 2} (h : fs.content (File.backups i).path = some []) :
    LogHas fs i fun _ ↦ none :=
  ⟨[], h, rfl⟩

theorem LogHas.congr {fs fs' : FS} {i : Fin 2} {m : K → Option V} (h : LogHas fs i m)
    (hfs : fs'.content (File.backups i).path = fs.content (File.backups i).path) : LogHas fs' i m := by
  obtain ⟨es, hes, hm⟩ := h
  exact ⟨es, hfs.trans hes, hm⟩

/-- What a crash leaves of a well-formed store. -/
theorem Store.WF.disk (h : s.WF) {i : Fin 2} {cur other : K → Option V} (hcur : LogHas s.fs i cur)
    (hother : LogHas s.fs (i + 1) other) :
    Disk s.fs s.bloom.arr fun j ↦ if j = i then cur else other where
  writable := h.writable
  files := h.files
  tempfile := h.tempfile
  length_arr := h.bloom.length_arr
  bloomdump := by
    rw [← h.bloomName]
    exact h.bloom.content_eq
  backups j := by
    split_ifs with hj
    · rw [hj]; exact hcur
    · obtain rfl : j = i + 1 := by omega
      exact hother

/-- **After a restart** the records of the second backup hide those of the first, whichever of them
is the current one. -/
theorem recovers_iff_logs (h : s.WF) {i : Fin 2} {cur other : K → Option V} (hcur : LogHas s.fs i cur)
    (hother : LogHas s.fs (i + 1) other) (env₀ env₁ : Env Time) (r : Fin numFiles)
    (hb : s.bloom.get k = true) (hv : v ≠ tombstone V) :
    Recovers env₀ env₁ r s.fs k v ↔
      if i = 0 then (other k).or ((cur k).or (newest ((ring r).map s.file) k)) = some v
      else (cur k).or ((other k).or (newest ((ring r).map s.file) k)) = some v := by
  rw [recovers_iff (h.disk hcur hother) env₀ env₁ r hb hv]
  obtain rfl | rfl : i = 0 ∨ i = 1 := by omega
  · rfl
  · rfl

/-! ## Crashes between steps

Nothing is in the middle of being moved, so the ring is the ring of the store, and the question is the
order of the two logs. -/

/-- The key is in both trees with different values, and `bintree` is on the first backup. -/
def Clash (s : Store) (k : K) : Prop :=
  s.current = 0 ∧ ∃ t v v', s.reserve = some t ∧ s.bintree.lookup k = some v ∧ v ≠ tombstone V ∧
    t.lookup k = some v' ∧ v' ≠ v

/-- No `adjust` has begun to modify a file. -/
def Threads.Untouched (st : Threads) : Prop :=
  st.holder = none ∨ st.holder = some [] ∨ st.holder = some adjustOps

/-- After a restart every key has the value written last.  Keys that were written the reserved value last,
that is deleted, are left out: nothing is said about what a read finds for them. -/
def RecoversAll (env₀ env₁ : Env Time) (st : Threads) (m : K → Option V) : Prop :=
  ∀ k v, v ≠ tombstone V → m k = some v → Recovers env₀ env₁ st.store.recent st.store.fs k v

theorem or_or_eq_iff {α : Type} {a b c : Option α} {v : α} (h : a.or (b.or c) = some v) :
    b.or (a.or c) = some v ↔ ¬∃ v', a = some v ∧ b = some v' ∧ v' ≠ v := by
  cases a with
  | none => simpa using h
  | some x =>
    obtain rfl : x = v := by simpa using h
    cases b <;> simp

/-- What `reserve` has for a key. -/
def Store.reserveMap (s : Store) (k : K) : Option V := s.reserve.bind fun t ↦ t.lookup k

/-- Until an `adjust` modifies a file, the other backup has `reserve` and the layers are those of the
store. -/
theorem Threads.Inv.untouched {st : Threads} {m : K → Option V} (h : st.Inv Time m) (hu : st.Untouched) :
    LogHas st.store.fs (st.store.current + 1) st.store.reserveMap ∧ ∀ k, newest st.below k =
      (st.store.reserveMap k).or (newest ((ring st.store.recent).map st.store.file) k) := by
  obtain ⟨s, waiting, holder⟩ := st
  have hpending := h.pending
  dsimp only [Threads.Untouched] at hu hpending ⊢
  have hbelow : (Threads.mk s waiting holder).below =
      s.reserve.toList.map BinaryTree.lookup ++ (ring s.recent).map s.file := by
    rcases hu with rfl | rfl | rfl <;> rfl
  have hsome : ∀ t : BinaryTree K V, s.reserve = some t → s.reserveMap = t.lookup := fun t ht ↦
    funext fun k ↦ by rw [Store.reserveMap, ht, Option.bind_some]
  refine ⟨?_, fun k ↦ ?_⟩
  · cases hpending with
    | none _ hr hlog =>
      have hnone : s.reserveMap = fun _ ↦ none := funext fun k ↦ by rw [Store.reserveMap, hr]; rfl
      rw [hnone]
      exact logHas_of_empty hlog
    | waiting _ ht hlog =>
      rw [hsome _ ht]
      exact logHas_of_backed hlog
    | working ht hstage hlog =>
      rw [hsome _ ht]
      refine logHas_of_backed (hlog ?_)
      rintro rfl
      simp [adjustOps] at hu
  · rw [hbelow, newest_append]
    congr 1
    rw [Store.reserveMap]
    cases s.reserve with
    | none => rfl
    | some t => simp

theorem live_of_ne (hv : v ≠ tombstone V) : live isTomb (some v) = some v :=
  live_eq_some_iff.mpr ⟨rfl, Bool.eq_false_iff.mpr fun htomb ↦ hv (isTomb_iff.mp htomb)⟩

/-- When `v` is what the layers have for the key, the trees clash if `bintree` has it and `reserve`
something else. -/
theorem clash_iff {rest : Option V} (hv : v ≠ tombstone V)
    (hnew : (s.bintree.lookup k).or ((s.reserveMap k).or rest) = some v) :
    Clash s k ↔ s.current = 0 ∧
      ∃ v', s.bintree.lookup k = some v ∧ s.reserveMap k = some v' ∧ v' ≠ v := by
  constructor
  · rintro ⟨hcur, t, v₁, v', ht, hb, -, hlookup, hne⟩
    obtain rfl : v₁ = v := by simpa [hb] using hnew
    exact ⟨hcur, v', hb, by rw [Store.reserveMap, ht, Option.bind_some, hlookup], hne⟩
  · rintro ⟨hcur, v', hb, ho, hne⟩
    obtain ⟨t, ht, hlookup⟩ := Option.bind_eq_some_iff.mp ho
    exact ⟨hcur, t, v, v', ht, hb, hv, hlookup, hne⟩

/-- **One key after a crash between steps.** -/
theorem Threads.Inv.recovers_iff {st : Threads} {m : K → Option V} (h : st.Inv Time m)
    (hu : st.Untouched) (env₀ env₁ : Env Time) (hv : v ≠ tombstone V) (hm : m k = some v) :
    Recovers env₀ env₁ st.store.recent st.store.fs k v ↔ ¬Clash st.store k := by
  obtain ⟨hother, hbelow⟩ := h.untouched hu
  have hlive := h.live_eq k
  rw [hm, live_of_ne hv, live_eq_some_iff, hbelow] at hlive
  have hnew := hlive.1
  rw [recovers_iff_logs h.wf (logHas_of_backed h.bintreeLog) hother env₀ env₁ _
    (h.covers k (by rw [hm]; simp)) hv, clash_iff hv hnew]
  split_ifs with hcur
  · rw [or_or_eq_iff hnew]
    simp [hcur]
  · simp [hcur, hnew]

/-- **A restart keeps the last writes exactly when** the replay order cannot matter: for every run of
threads from a fresh store, and a crash when no `adjust` has begun to modify a file.  It is about the keys
whose last write is a value (`RecoversAll`); a `Clash` is about such a key, too.

The constructor always applies the first backup first.  That is right when `reserve` is on it and wrong when
`bintree` is, but then nothing is lost either unless some key is in both trees with different values. -/
theorem recovers_iff_not_clash (s : Store) (h : Fresh Time s) (actions : List (Action Time))
    (env₀ env₁ : Env Time) :
    ∃ st, Runs.run Threads.step ⟨s, 0, none⟩ actions = some st ∧ (st.Untouched →
      (RecoversAll env₀ env₁ st (lastWritten actions) ↔ ¬∃ k, Clash st.store k)) := by
  obtain ⟨st, hrun, hst⟩ := h.run actions
  refine ⟨st, hrun, fun hu ↦ ⟨?_, fun hclash k v hv hm ↦ ?_⟩⟩
  · rintro hall ⟨k, hclash⟩
    obtain ⟨-, t, v, v', -, hb, hv, -, -⟩ := id hclash
    have hlive := hst.live_eq k
    rw [hb, Option.some_or, live_of_ne hv, eq_comm, live_eq_some_iff] at hlive
    exact (hst.recovers_iff hu env₀ env₁ hv hlive.1).mp (hall k v hv hlive.1) hclash
  · exact (hst.recovers_iff hu env₀ env₁ hv hm).mpr fun hk ↦ hclash ⟨k, hk⟩

/-- After enough writes, a swap and one more write both trees have the key. -/
theorem run_twoTrees {st : Threads} {m : K → Option V} {keys : List K} (hnodup : keys.Nodup)
    (hlen : maxTreeSize ≤ keys.length) (hk : k ∈ keys) (v v' : V) (h : st.Inv Time m)
    (hr : st.store.reserve = none) :
    ∃ st', Runs.run Threads.step st (writes Time keys v' ++ [.swap, .write k v]) = some st' ∧
      st'.holder = st.holder ∧ st'.store.current = st.store.current + 1 ∧
      st'.store.bintree.lookup k = some v ∧ ∃ t, st'.store.reserve = some t ∧ t.lookup k = some v' := by
  have hw := wroteKeys h.wf keys v'
  obtain ⟨st₁, hrun₁, hinv₁⟩ := h.run (writes Time keys v')
  rw [run_writes] at hrun₁
  cases hrun₁
  have hwf₁ : (wrote keys v' st.store).WF := hinv₁.wf
  have hwants := wantsSwap_wrote hnodup hlen v' h.wf hwf₁ hr
  refine ⟨⟨dbwrite k v (swap (wrote keys v' st.store)), st.waiting + 1, st.holder⟩, ?_, rfl, ?_, ?_,
    (wrote keys v' st.store).bintree, rfl, ?_⟩
  · simp only [Runs.run_append, run_writes, Option.bind_some, Runs.run_cons, Runs.run_nil, Threads.step,
      hwants, if_true]
  · rw [current_dbwrite, current_swap, hw.current]
  · rw [lookup_dbwrite k v hwf₁.swap, if_pos rfl]
  · rw [hw.lookup, if_pos hk]

/-- After a batch and as many writes again, a swap and one more write, `bintree` is on the first
backup. -/
theorem clash_of_batches {keys : List K} (hnodup : keys.Nodup) (hlen : maxTreeSize ≤ keys.length)
    (h : Fresh Time s) (hcurrent : s.current = 0) (hk : k ∈ keys) {v' : V} (hv : v ≠ tombstone V)
    (hne : v' ≠ v) (env : Env Time) :
    ∃ st, Runs.run Threads.step ⟨s, 0, none⟩
        (batch keys v' env ++ (writes Time keys v' ++ [.swap, .write k v])) = some st ∧
      st.holder = none ∧ Clash st.store k := by
  obtain ⟨st, hrun, hbatched, hinv⟩ := run_batch hnodup hlen v' env h.inv ⟨rfl, rfl, h.reserve⟩
  obtain ⟨st', hrun', hholder, hcur, hb, t, ht, hlookup⟩ :=
    run_twoTrees hnodup hlen hk v v' hinv hbatched.calm.reserve
  refine ⟨st', ?_, hholder.trans hbatched.calm.holder, ?_, t, v, v', ht, hb, hv, hlookup, hne⟩
  · rw [Runs.run_append, hrun, Option.bind_some, hrun']
  · rw [hcur, hbatched.current, hcurrent]
    rfl

/-- Enough writes for a swap, and one more. -/
def twoTrees : List (Action DaySecond) := writes DaySecond someKeys zeroV ++ [.swap, .write (numbered 0) oneV]

/-- Both trees have the key, and `bintree` is on the second backup. -/
theorem recovers_iff_not_clash_twoTrees : ∃ st,
    Runs.run Threads.step ⟨freshStore (fun _ ↦ (0 : DaySecond)) 9, 0, none⟩ twoTrees = some st ∧
      st.Untouched ∧ (st.store.bintree.lookup (numbered 0) = some oneV ∧
        ∃ t, st.store.reserve = some t ∧ t.lookup (numbered 0) = some zeroV) ∧
      RecoversAll (someEnv 1) (someEnv 2) st (lastWritten twoTrees) := by
  have hfresh := fresh_freshStore (fun _ ↦ (0 : DaySecond)) 9
  have hmem : numbered 0 ∈ someKeys := mem_someKeys (by rw [maxTreeSize]; omega)
  obtain ⟨st, hrun, hholder, hcur, htrees⟩ :=
    run_twoTrees nodup_someKeys length_someKeys.ge hmem oneV zeroV hfresh.inv hfresh.reserve
  rw [← twoTrees] at hrun
  obtain ⟨st', hrun', hiff⟩ := recovers_iff_not_clash _ hfresh twoTrees (someEnv 1) (someEnv 2)
  obtain rfl : st = st' := Option.some.inj (hrun.symm.trans hrun')
  refine ⟨st, hrun, .inl hholder, htrees, (hiff (.inl hholder)).mpr ?_⟩
  rintro ⟨k, hzero, -⟩
  rw [hzero] at hcur
  exact absurd hcur (by decide)

/-- Two batches, the second without its `adjust`, and one more write. -/
def lostWrite : List (Action DaySecond) :=
  batch someKeys zeroV (someEnv 1) ++ (writes DaySecond someKeys zeroV ++ [.swap, .write (numbered 0) oneV])

theorem lastWritten_lostWrite : lastWritten lostWrite (numbered 0) = some oneV := by
  rw [lastWritten, lostWrite, ← List.append_assoc, List.foldl_append, List.foldl_cons, List.foldl_cons,
    List.foldl_nil, Action.note, Function.update_self]

/-- **A write is lost.**  `bintree` is on the first backup, and both trees have the key. -/
theorem clash_loses_write : ∃ st,
    Runs.run Threads.step ⟨freshStore (fun _ ↦ (0 : DaySecond)) 9, 0, none⟩ lostWrite = some st ∧
      st.Untouched ∧ ¬RecoversAll (someEnv 2) (someEnv 3) st (lastWritten lostWrite) := by
  have hfresh := fresh_freshStore (fun _ ↦ (0 : DaySecond)) 9
  have hmem : numbered 0 ∈ someKeys := mem_someKeys (by rw [maxTreeSize]; omega)
  obtain ⟨st, hrun, hholder, hclash⟩ := clash_of_batches nodup_someKeys length_someKeys.ge hfresh rfl
    hmem oneV_ne.1 oneV_ne.2 (someEnv 1)
  rw [← lostWrite] at hrun
  obtain ⟨st', hrun', hinv⟩ := hfresh.run lostWrite
  obtain rfl : st = st' := Option.some.inj (hrun.symm.trans hrun')
  refine ⟨st, hrun, .inl hholder, fun hall ↦ ?_⟩
  exact (hinv.recovers_iff (.inl hholder) _ _ oneV_ne.1 lastWritten_lostWrite).mp
    (hall _ _ oneV_ne.1 lastWritten_lostWrite) hclash

end Master

end ScratchStore
