import ScratchStore.Master.Crash
import ScratchStore.Master.KeepLogs

/-!
# Crashes inside `adjust`

`adjust` is seven operations on files.  Up to the dump the ring has what it had, except between the
truncation and the merge, and the log of `reserve` has `reserve`; from the dump on the ring has it, and
its log replays to nothing.  So a value that `dbread` found before is recovered from every point but
one, as long as the replay order does not matter: `crash_recovers_iff`.

There are three cases, by the number `j` of operations that were done.

* `found_stage_iff` is about `j ≤ 5`.  The logs of both trees are there, and the files have what they had, but
  for `j = 3`.
* `recovers_dumped` is `j = 6`.  The tree is in the ring and its log replays to nothing.
* `recovers_adjusted` is `j = 7`.  That log is empty.

In the first case the replay order decides which of the two trees wins, and that is a question about the state
before the crash: whether they clash in the key.

`tornRun` shows that `j = 3` loses something that is really in the store.
-/

set_option autoImplicit false

namespace ScratchStore

namespace Master

open SortedAssoc FileIO Layers

variable {Time : Type} [TimeFormat Time] {s : Store} {k : K} {v : V}

/-! ## Before the dump

The logs are as they were, so what can be lost is in the two files that are merged.  Their records are
in one of the two at each point, or in `tempfile`. -/

section Stage

variable (env : Env Time)

theorem fileMap_nil : fileMap K V [] = fun _ ↦ none := by
  funext k
  simp [fileMap]

omit [TimeFormat Time] in
/-- The first five operations write `tempfile` and the second oldest file only. -/
theorem content_stage (s : Store) (j : ℕ) {f : File} (htemp : f ≠ .tempfile)
    (hf : f ≠ .filesys (s.recent + 2)) : (stageFS env s j).content f.path = s.fs.content f.path := by
  unfold stageFS
  split <;> simp [compactedFS, htemp, hf]

omit [TimeFormat Time] in
/-- The second oldest file is as it was up to the truncation, then empty, and then the merge. -/
theorem file_stage (h : s.WF) {j : ℕ} (hj : j ≤ 5) :
    fileAt (stageFS env s j) (s.recent + 2) =
      if j ≤ 2 then s.file (s.recent + 2)
      else if j = 3 then fun _ ↦ none
      else compact isTomb (s.file (s.recent + 2)) (s.file (s.recent + 1)) := by
  have hmerge := fileMap_mergeFiles env.unset (h.ascending (s.recent + 2)) (h.ascending (s.recent + 1))
  interval_cases j <;> simp only [stageFS, compactedFS, fileAt_write, reduceCtorEq, if_true, if_false,
    Nat.reduceLeDiff, Nat.reduceEqDiff, hmerge, fileMap_nil] <;> rfl

omit [TimeFormat Time] in
theorem file_stage_of_ne (s : Store) (j : ℕ) {i : Fin numFiles} (hi : i ≠ s.recent + 2) :
    fileAt (stageFS env s j) i = s.file i := by
  rw [fileAt, FS.read, content_stage env s j (by simp) (by simpa using hi)]
  rfl

omit [TimeFormat Time] in
theorem newer_stage (s : Store) (j : ℕ) :
    (newer s.recent).map (fileAt (stageFS env s j)) = (newer s.recent).map s.file :=
  List.map_congr_left fun _ hi ↦ file_stage_of_ne env s j fun hi2 ↦ (not_mem_newer _).1 (hi2 ▸ hi)

omit [TimeFormat Time] in
/-- The maps of the ring before the dump. -/
theorem files_stage (s : Store) (j : ℕ) :
    (ring s.recent).map (fileAt (stageFS env s j)) = (newer s.recent).map s.file ++
      [fileAt (stageFS env s j) (s.recent + 2), s.file (s.recent + 1)] := by
  rw [ring, List.map_append, newer_stage, List.map_cons, List.map_singleton,
    file_stage_of_ne env s j (add_two_ne_add_one _).symm]

end Stage

/-- The key is in the second oldest file and in no newer layer, and the oldest file does not have the
same value. -/
def LostByTruncation (s : Store) (k : K) : Prop :=
  newest (s.memory ++ (newer s.recent).map s.file) k = none ∧ s.file (s.recent + 2) k ≠ none ∧
    s.file (s.recent + 1) k ≠ s.file (s.recent + 2) k

section Options

variable {α : Type} {b o n f₁ f₂ : Option α}

/-- What is below the trees matters only for a key they do not have. -/
theorem or_or_of_imp {x x' : Option α} {v : α} (h : b.or (o.or x) = some v)
    (hx : x = some v → x' = some v) : b.or (o.or x') = some v := by
  cases b with
  | some _ => exact h
  | none =>
    cases o with
    | some _ => exact h
    | none => exact hx h

/-- Without the second oldest file. -/
theorem or_truncated_iff {v : α} (h : b.or (o.or (n.or (f₂.or f₁))) = some v) :
    b.or (o.or (n.or (none.or f₁))) = some v ↔ ¬((b.or o).or n = none ∧ f₂ ≠ none ∧ f₁ ≠ f₂) := by
  cases b with
  | some _ => simpa using h
  | none =>
    cases o with
    | some _ => simpa using h
    | none =>
      cases n with
      | some _ => simpa using h
      | none =>
        cases f₂ with
        | none => simpa using h
        | some w =>
          obtain rfl : w = v := by simpa using h
          simp

end Options

/-- The layers of a store with `reserve`, one below the other. -/
theorem newest_layers_eq {t : BinaryTree K V} (ht : s.reserve = some t) (k : K) :
    newest s.layers k = (s.bintree.lookup k).or ((s.reserveMap k).or
      ((newest ((newer s.recent).map s.file) k).or
        ((s.file (s.recent + 2) k).or (s.file (s.recent + 1) k)))) := by
  rw [layers_of_reserve ht, newest_append, newest_cons, newest_cons, Store.reserveMap, ht, Option.bind_some,
    Option.or_assoc, Option.or_assoc, newest_cons, newest_cons, newest_nil, Option.or_none]

theorem newest_memory {t : BinaryTree K V} (ht : s.reserve = some t) (k : K) :
    newest s.memory k = (s.bintree.lookup k).or (s.reserveMap k) := by
  rw [Store.memory, ht, Option.toList_some, List.map_singleton, newest_cons, newest_cons, newest_nil,
    Option.or_none, Store.reserveMap, ht, Option.bind_some]

omit [TimeFormat Time] in
/-- The layers on the disk before the dump still have the value, except after the truncation. -/
theorem found_stage_iff (h : s.WF) {t : BinaryTree K V} (ht : s.reserve = some t) (env : Env Time) {j : ℕ}
    (hj : j ≤ 5) (hv : v ≠ tombstone V)
    (hnew : (s.bintree.lookup k).or ((s.reserveMap k).or
      ((newest ((newer s.recent).map s.file) k).or
        ((s.file (s.recent + 2) k).or (s.file (s.recent + 1) k)))) = some v) :
    (s.bintree.lookup k).or ((s.reserveMap k).or ((newest ((newer s.recent).map s.file) k).or
        ((fileAt (stageFS env s j) (s.recent + 2) k).or (s.file (s.recent + 1) k)))) = some v ↔
      ¬(j = 3 ∧ LostByTruncation s k) := by
  rw [file_stage env h hj]
  split_ifs with h2 h3
  · have hj3 : j ≠ 3 := by omega
    simp [hnew, hj3]
  · rw [or_truncated_iff hnew, LostByTruncation, newest_append, newest_memory ht]
    simp [h3]
  · refine iff_of_true (or_or_of_imp hnew fun hx ↦ ?_) fun hlost ↦ h3 hlost.1
    rw [← Option.or_assoc]
    cases hn : newest ((newer s.recent).map s.file) k with
    | some w => simpa [hn] using hx
    | none =>
      rw [hn, Option.none_or] at hx
      rw [compact, hx, live_of_ne hv, Option.none_or, Option.some_or]

/-- **A crash before the dump.** -/
theorem recovers_stage_iff (h : s.WF) {t : BinaryTree K V} (ht : s.reserve = some t)
    (hlog : s.bintree.Backed s.fs (File.backups s.current).path)
    (hrlog : t.Backed s.fs (File.backups (s.current + 1)).path) (env env₀ env₁ : Env Time) {j : ℕ}
    (hj : j ≤ 5) (hv : v ≠ tombstone V) (hb : s.bloom.get k = true)
    (hnew : newest s.layers k = some v) :
    Recovers env₀ env₁ s.recent (stageFS env s j) k v ↔
      ¬(Clash s k ∨ (j = 3 ∧ LostByTruncation s k)) := by
  have hcur : LogHas (stageFS env s j) s.current s.bintree.lookup :=
    (logHas_of_backed hlog).congr (content_stage env s j (by simp) (by simp))
  have hmap : s.reserveMap = t.lookup := funext fun k ↦ by rw [Store.reserveMap, ht, Option.bind_some]
  have hother : LogHas (stageFS env s j) (s.current + 1) s.reserveMap := by
    rw [hmap]
    exact (logHas_of_backed hrlog).congr (content_stage env s j (by simp) (by simp))
  rw [newest_layers_eq ht] at hnew
  have hrec := recovers_iff_logs (s := s.withFS (stageFS env s j)) (h.stage env hj) hcur hother env₀ env₁
    s.recent hb hv
  rw [Store.fs_withFS] at hrec
  rw [hrec, clash_iff hv hnew]
  have hring : newest ((ring s.recent).map (s.withFS (stageFS env s j)).file) k =
      (newest ((newer s.recent).map s.file) k).or
        ((fileAt (stageFS env s j) (s.recent + 2) k).or (s.file (s.recent + 1) k)) := by
    rw [show (s.withFS (stageFS env s j)).file = fileAt (stageFS env s j) from rfl, files_stage,
      newest_append, newest_cons, newest_cons, newest_nil, Option.or_none]
  have hfound := found_stage_iff h ht env hj hv hnew
  rw [hring]
  by_cases hlost : j = 3 ∧ LostByTruncation s k
  · have hnone : s.bintree.lookup k = none ∧ s.reserveMap k = none := by
      have hmemory := hlost.2.1
      rw [newest_append, newest_memory ht, Option.or_eq_none_iff, Option.or_eq_none_iff] at hmemory
      exact hmemory.1
    rw [hnone.1, hnone.2] at hfound ⊢
    simpa [hlost] using hfound
  · have hx := hfound.mpr hlost
    split_ifs with hcurrent
    · rw [or_or_eq_iff hx]
      simp [hcurrent, hlost]
    · simp [hcurrent, hlost, hx]

/-! ## From the dump on

The tree is in the ring, and its log ends with a `_sync_` and says nothing any more. -/

/-- The `_sync_` record makes the log of `reserve` replay to nothing. -/
theorem logHas_dumped {t : BinaryTree K V} (hrlog : t.Backed s.fs (File.backups (s.current + 1)).path)
    (env : Env Time) : LogHas (dumped env s t).fs (s.current + 1) fun _ ↦ none := by
  obtain ⟨es, hes, -⟩ := hrlog.exists_log
  have hes' : BinaryTree.Logs t (s.fs.write (File.filesys (s.recent + 1)).path []) _ es :=
    hes.congr rfl (content_backups_write s.fs (f := .filesys _) (by simp) [] _)
  have hdump := hes'.dump (f := ⟨(File.filesys (s.recent + 1)).path, 0, true⟩) (by simp) env.now env.dummy
  refine ⟨_, hdump.content_eq, funext fun k ↦ ?_⟩
  rw [logMap, replay_concat_sync rfl]
  rfl

/-- What the layers of a store without `reserve` have is recovered. -/
theorem recovers_of_layers {cur : K → Option V} {i : Fin 2} (h : s.WF) (hcur : LogHas s.fs i cur)
    (hother : LogHas s.fs (i + 1) fun _ ↦ none) (env₀ env₁ : Env Time) {r : Fin numFiles}
    (hv : v ≠ tombstone V) (hb : s.bloom.get k = true)
    (hnew : (cur k).or (newest ((ring r).map s.file) k) = some v) :
    Recovers env₀ env₁ r s.fs k v := by
  rw [recovers_iff_logs h hcur hother env₀ env₁ r hb hv]
  split_ifs <;> simpa using hnew

section Dump

variable {t : BinaryTree K V} (env env₀ env₁ : Env Time)

/-- **A crash after the dump.** -/
theorem recovers_dumped (h : s.WF) (ht : s.reserve = some t)
    (hlog : s.bintree.Backed s.fs (File.backups s.current).path)
    (hrlog : t.Backed s.fs (File.backups (s.current + 1)).path) (hv : v ≠ tombstone V)
    (hb : s.bloom.get k = true) (hnew : newest s.layers k = some v) :
    Recovers env₀ env₁ (s.recent + 1) (dumped env (s.withFS (compactedFS env s)) t).fs k v := by
  have hstage : ∀ i, (compactedFS env s).content (File.backups i).path =
      s.fs.content (File.backups i).path := fun i ↦ content_stage env s 5 (by simp) (by simp)
  have hcur : LogHas (dumped env (s.withFS (compactedFS env s)) t).fs s.current s.bintree.lookup := by
    refine (logHas_of_backed hlog).congr ?_
    rw [content_dumped env _ (by rw [hrlog.logName_eq]; simp), if_neg (by simp),
      Store.fs_withFS, hstage]
  have hother := logHas_dumped (s := s.withFS (compactedFS env s)) (hrlog.congr (hstage _)) env
  have hfiles := files_dumped (s := s.withFS (compactedFS env s)) env (h.reserveLog t ht) (h.reserve t ht)
  have hnewer := newer_stage env s 5
  have hsecond : fileAt (stageFS env s 5) (s.recent + 2) =
      compact isTomb (s.file (s.recent + 2)) (s.file (s.recent + 1)) :=
    (file_stage env h le_rfl).trans (by simp)
  have hadjusted := newest_adjusted env h ht (k := k) (by rw [hnew]; simpa using hv)
  rw [layers_adjusted env h ht, hnew, List.cons_append, List.cons_append, newest_cons] at hadjusted
  refine recovers_of_layers ((h.compacted env).dumped env ht) hcur hother env₀ env₁ hv hb ?_
  rw [Store.recent_withFS] at hfiles
  rw [hfiles, show (s.withFS (compactedFS env s)).file = fileAt (stageFS env s 5) from rfl, hnewer, hsecond]
  exact hadjusted

/-- **A crash after the last operation.** -/
theorem recovers_adjusted (h : s.WF) (ht : s.reserve = some t)
    (hlog : s.bintree.Backed s.fs (File.backups s.current).path)
    (hrlog : t.Backed s.fs (File.backups (s.current + 1)).path) (hv : v ≠ tombstone V)
    (hb : s.bloom.get k = true) (hnew : newest s.layers k = some v) :
    Recovers env₀ env₁ (s.recent + 1) (adjusted env s t).fs k v := by
  have hcur : LogHas (adjusted env s t).fs s.current s.bintree.lookup := by
    refine (logHas_of_backed hlog).congr (content_adjusted_of_ne env _ ?_ (by simp) (by simp) ?_)
    · rw [hrlog.logName_eq]; simp
    · simp
  have hother : LogHas (adjusted env s t).fs (s.current + 1) fun _ ↦ none :=
    logHas_of_empty (content_adjusted_backup env)
  have hadjusted := newest_adjusted env h ht (k := k) (by rw [hnew]; simpa using hv)
  rw [hnew, Store.layers, Store.memory, reserve_adjusted, List.cons_append, newest_cons] at hadjusted
  exact recovers_of_layers (h.adjusted env ht) hcur hother env₀ env₁ hv hb hadjusted

end Dump

/-- **A value is recovered from a crash inside `adjust` exactly when** the replay order of the backups
does not matter, or `reserve` has been dumped, and it is not only in `tempfile`.  `j` is the number of
operations that were completed; from the dump on the scan finds the dumped file. -/
theorem crash_recovers_iff (s : Store) (h : s.WF) (t : BinaryTree K V) (ht : s.reserve = some t)
    (hlog : s.bintree.Backed s.fs (File.backups s.current).path)
    (hrlog : t.Backed s.fs (File.backups (s.current + 1)).path) (env env₀ env₁ : Env Time) (j : ℕ)
    (hj : j ≤ adjustOps.length) (k : K) (v : V) (hv : v ≠ tombstone V)
    (hread : ∃ c, dbread k s = some (some v, c)) :
    ∃ s', runOps env (adjustOps.take j) s = some s' ∧
      (Recovers env₀ env₁ (if j ≤ 5 then s.recent else s.recent + 1) s'.fs k v ↔
        ¬((j ≤ 5 ∧ Clash s k) ∨ (j = 3 ∧ LostByTruncation s k))) := by
  obtain ⟨c, hc⟩ := hread
  obtain ⟨c', hc', -⟩ := dbread_eq h k
  have hfound := congrArg Prod.fst (Option.some.inj (hc'.symm.trans hc))
  dsimp only at hfound
  split_ifs at hfound with hb
  have hlen : adjustOps.length = 7 := rfl
  rw [hlen] at hj
  by_cases hj5 : j ≤ 5
  · refine ⟨_, runOps_take env h hj5, ?_⟩
    rw [if_pos hj5, Store.fs_withFS, recovers_stage_iff h ht hlog hrlog env env₀ env₁ hj5 hv hb hfound]
    simp [hj5]
  · rw [if_neg hj5]
    have hright : ¬((j ≤ 5 ∧ Clash s k) ∨ (j = 3 ∧ LostByTruncation s k)) := by
      rintro (⟨hle, -⟩ | ⟨rfl, -⟩)
      · exact hj5 hle
      · exact hj5 (by omega)
    obtain rfl | rfl : j = 6 ∨ j = 7 := by omega
    · have hcompact := runOps_take env h (j := 5) le_rfl
      have hrun : runOps env (adjustOps.take 6) s =
          some (dumped env (s.withFS (compactedFS env s)) t) := by
        rw [show adjustOps.take 6 = adjustOps.take 5 ++ [.dump] from rfl, runOps, List.foldlM_append,
          ← runOps, hcompact, Option.bind_eq_bind, Option.bind_some, List.foldlM_cons]
        simp only [AdjustOp.run, show stageFS env s 5 = compactedFS env s from rfl,
          dump_eq (h.compacted env) env (t := t) ht, List.foldlM_nil, Option.bind_eq_bind, Option.bind_some]
        rfl
      exact ⟨_, hrun, iff_of_true (recovers_dumped env env₀ env₁ h ht hlog hrlog hv hb hfound) hright⟩
    · exact ⟨_, adjust_eq env h ht,
        iff_of_true (recovers_adjusted env env₀ env₁ h ht hlog hrlog hv hb hfound) hright⟩

/-! ## A key that is in `tempfile` only -/

/-- One key is written, and then other keys until its record is in the second oldest file and the next
`adjust` is due. -/
def tornRun (k : K) (v : V) (keys : List K) (v' : V) (env : Env Time) : List (Action Time) :=
  (.write k v :: batch keys v' env) ++ (batches 8 keys v' env ++ (writes Time keys v' ++ [.swap]))

/-- After that the truncation leaves the record in `tempfile` only. -/
theorem run_torn {keys : List K} (hnodup : keys.Nodup) (hlen : maxTreeSize ≤ keys.length)
    (hk : k ∉ keys) (hv : v ≠ tombstone V) (v' : V) (env : Env Time) (h : Fresh Time s) :
    ∃ st, Runs.run Threads.step ⟨s, 0, none⟩ (tornRun k v keys v' env) = some st ∧
      st.Inv Time (lastWritten (tornRun k v keys v' env)) ∧ st.store.reserve.isSome ∧ st.holder = none ∧
      newest st.store.layers k = some v ∧ LostByTruncation st.store k := by
  have hround : ∀ r : Fin numFiles, (∀ j < 8, r + 1 ≠ r + 1 + Fin.ofNat numFiles j + 1) ∧
      r + 1 + Fin.ofNat numFiles 8 + 2 = r + 1 := by decide
  obtain ⟨st₁, hrun₁, hat₁, hrecent₁, hinv₁⟩ := run_first hnodup hlen hk v v' env h
  obtain ⟨st₂, hrun₂, hat₂, hrecent₂, hinv₂⟩ :=
    run_batches hnodup hlen hk hv v' env 8 hinv₁ hat₁ (by rw [hrecent₁]; exact (hround _).1)
  rw [hrecent₁] at hrecent₂
  have hinv₃ := hinv₂.run (writes Time keys v')
  simp only [run_writes, Option.some.injEq, exists_eq_left'] at hinv₃
  have hwf₃ : (wrote keys v' st₂.store).WF := hinv₃.wf
  have hw := wroteKeys hinv₂.wf keys v'
  have hwants := wantsSwap_wrote hnodup hlen v' hinv₂.wf hwf₃ hat₂.calm.reserve
  obtain ⟨st, hrun, hinv⟩ := h.run (tornRun k v keys v' env)
  refine ⟨st, hrun, hinv, ?_⟩
  rw [tornRun, Runs.run_append, hrun₁, Option.bind_some, Runs.run_append, hrun₂, Option.bind_some,
    Runs.run_append, run_writes, Option.bind_some, Runs.run_cons] at hrun
  simp only [Runs.run_nil, Threads.step, hwants, if_true, Option.bind_some, Option.some.injEq] at hrun
  subst hrun
  have hsecond : (swap (wrote keys v' st₂.store)).recent + 2 = s.recent + 1 := by
    rw [recent_swap, hw.recent, hrecent₂]
    exact (hround _).2
  have hfile : ∀ i, (swap (wrote keys v' st₂.store)).file i k =
      if i = (swap (wrote keys v' st₂.store)).recent + 2 then some v else none := by
    intro i
    rw [file_swap hwf₃, hw.file, hat₂.file, hsecond]
  have hbintree : (swap (wrote keys v' st₂.store)).bintree.lookup k = none :=
    BinaryTree.lookup_of_nil root_swap k
  have hreserve : (swap (wrote keys v' st₂.store)).reserveMap k = none := by
    rw [Store.reserveMap, reserve_swap, Option.bind_some, hw.lookup, if_neg hk, hat₂.bintree]
  have hnewer : newest ((newer (swap (wrote keys v' st₂.store)).recent).map
      (swap (wrote keys v' st₂.store)).file) k = none := by
    rw [newest_eq_none_iff]
    intro l hl
    obtain ⟨i, hi, rfl⟩ := List.mem_map.mp hl
    rw [hfile, if_neg]
    rintro rfl
    exact (not_mem_newer _).1 hi
  have hoff := (add_two_ne_add_one (swap (wrote keys v' st₂.store)).recent).symm
  refine ⟨rfl, hat₂.calm.holder, ?_, ?_, ?_, ?_⟩
  · dsimp only
    rw [newest_layers_eq reserve_swap, hbintree, hreserve, hnewer, hfile, if_pos rfl]
    rfl
  · rw [newest_append, newest_memory reserve_swap, hbintree, hreserve, hnewer]
    rfl
  · dsimp only
    rw [hfile, if_pos rfl]
    simp
  · dsimp only
    rw [hfile, hfile, if_pos rfl, if_neg hoff]
    simp

omit [TimeFormat Time] in
theorem lastWritten_torn {keys : List K} (hk : k ∉ keys) (v v' : V) (env : Env Time) :
    lastWritten (tornRun k v keys v' env) k = some v := by
  have hwrites : ∀ m : K → Option V, (writes Time keys v').foldl Action.note m k = m k :=
    foldl_note fun a ha ↦ note_of_mem_writes hk ha
  rw [lastWritten, tornRun, List.foldl_append, List.foldl_append, List.foldl_append, List.foldl_cons]
  change (writes Time keys v').foldl Action.note _ k = some v
  rw [hwrites, note_batches hk, List.foldl_cons, note_batch hk]
  exact Function.update_self k (some v) fun _ ↦ none

/-- The store after that run. -/
theorem torn_spec : ∃ st, Runs.run Threads.step ⟨freshStore (fun _ ↦ (0 : DaySecond)) 9, 0, none⟩
      (tornRun (numbered maxTreeSize) zeroV someKeys zeroV (someEnv 1)) = some st ∧ ∃ t, st.store.WF ∧
    st.store.reserve = some t ∧
    st.store.bintree.Backed st.store.fs (File.backups st.store.current).path ∧
    t.Backed st.store.fs (File.backups (st.store.current + 1)).path ∧
    st.store.bloom.get (numbered maxTreeSize) = true ∧
    newest st.store.layers (numbered maxTreeSize) = some zeroV ∧
    LostByTruncation st.store (numbered maxTreeSize) := by
  obtain ⟨st, hrun, hinv, hr, hholder, hnew, hlost⟩ := run_torn nodup_someKeys length_someKeys.ge
    not_mem_someKeys zeroV_ne_tombstone zeroV (someEnv 1) (fresh_freshStore (fun _ ↦ (0 : DaySecond)) 9)
  obtain ⟨t, ht⟩ := Option.isSome_iff_exists.mp hr
  have hlog : t.Backed st.store.fs (File.backups (st.store.current + 1)).path := by
    rcases hinv.backed_or_dumped ht with hlog | ⟨hretire, -⟩
    · exact hlog
    · rw [hholder] at hretire
      cases hretire
  exact ⟨st, hrun, t, hinv.wf, ht, hinv.bintreeLog, hlog,
    hinv.covers _ (by rw [lastWritten_torn not_mem_someKeys]; simp), hnew, hlost⟩

/-- The same store, and a crash one operation before the one that loses the value. -/
theorem crash_recovers_iff_torn : ∃ st t s',
    Runs.run Threads.step ⟨freshStore (fun _ ↦ (0 : DaySecond)) 9, 0, none⟩
      (tornRun (numbered maxTreeSize) zeroV someKeys zeroV (someEnv 1)) = some st ∧
    st.store.reserve = some t ∧ runOps (someEnv 2) (adjustOps.take 2) st.store = some s' ∧
    (Recovers (someEnv 3) (someEnv 4) st.store.recent s'.fs (numbered maxTreeSize) zeroV ↔
      ¬((2 ≤ 5 ∧ Clash st.store (numbered maxTreeSize)) ∨
        (2 = 3 ∧ LostByTruncation st.store (numbered maxTreeSize)))) := by
  obtain ⟨st, hrun, t, hwf, ht, hlog, hrlog, hb, hnew, -⟩ := torn_spec
  have hread : ∃ c, dbread (numbered maxTreeSize) st.store = some (some zeroV, c) := by
    obtain ⟨c, hc, -⟩ := dbread_eq hwf (numbered maxTreeSize)
    exact ⟨c, by rw [hc, if_pos hb, hnew]⟩
  obtain ⟨s', hs', hiff⟩ := crash_recovers_iff st.store hwf t ht hlog hrlog (someEnv 2) (someEnv 3)
    (someEnv 4) 2 (by decide) _ zeroV zeroV_ne_tombstone hread
  exact ⟨st, t, s', hrun, ht, hs', hiff⟩

/-- **A value is lost between the truncation and the merge.**  `dbread` finds it before the `adjust`, and
after the third operation it is in `tempfile` only, which the constructor empties. -/
theorem truncation_loses_value : ∃ st t s' c,
    Runs.run Threads.step ⟨freshStore (fun _ ↦ (0 : DaySecond)) 9, 0, none⟩
      (tornRun (numbered maxTreeSize) zeroV someKeys zeroV (someEnv 1)) = some st ∧
    st.store.WF ∧ st.store.reserve = some t ∧
    t.Backed st.store.fs (File.backups (st.store.current + 1)).path ∧
    dbread (numbered maxTreeSize) st.store = some (some zeroV, c) ∧
    runOps (someEnv 2) (adjustOps.take 3) st.store = some s' ∧
    ¬Recovers (someEnv 3) (someEnv 4) st.store.recent s'.fs (numbered maxTreeSize) zeroV := by
  obtain ⟨st, hrun, t, hwf, ht, hlog, hrlog, hb, hnew, hlost⟩ := torn_spec
  obtain ⟨c, hc, -⟩ := dbread_eq hwf (numbered maxTreeSize)
  refine ⟨st, t, _, c, hrun, hwf, ht, hrlog, by rw [hc, if_pos hb, hnew],
    runOps_take (someEnv 2) hwf (j := 3) (by decide), ?_⟩
  rw [Store.fs_withFS, recovers_stage_iff hwf ht hlog hrlog (someEnv 2) (someEnv 3) (someEnv 4)
    (by decide) zeroV_ne_tombstone hb hnew, not_not]
  exact .inr ⟨rfl, hlost⟩

end Master

end ScratchStore
