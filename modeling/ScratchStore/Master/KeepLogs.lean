import ScratchStore.Master.Batch

/-!
# Nothing is dropped before it is on disk

A tree is in memory and in its log until it is in a data file.

* `Replays` says that loading a backup gives the contents of a tree, whatever the tree it is loaded into,
  and `Dumped` that a data file is a tree.
* `Keeps` is what a step must not drop.
* `threads_keep_logs`: in every state that threads can reach, the current backup replays to `bintree`, the
  other one to `reserve` unless `reserve` has been dumped, and the next step keeps both.
-/

set_option autoImplicit false

namespace ScratchStore

namespace Master

open SortedAssoc FileIO Layers

variable {Time : Type} [TimeFormat Time] {s s' : Store} {st st' : Threads} {m : K → Option V}

/-- Loading the backup `i` into any tree that logs elsewhere gives the contents of `t`. -/
def Replays (Time : Type) [TimeFormat Time] (fs : FS) (i : Fin 2) (t : BinaryTree K V) : Prop :=
  ∀ (b : BinaryTree K V) (dummy : V) (now : Time), (File.backups i).path ≠ b.logfilename →
    BinaryTree.Restores b t dummy (File.backups i).path now fs

/-- The data file `i` is the tree `t`. -/
def Dumped (Time : Type) [TimeFormat Time] (fs : FS) (i : Fin numFiles) (t : BinaryTree K V) : Prop :=
  ∃ now : Time, fs.content (File.filesys i).path = some (t.dumpBytes now)

theorem replays_of_backed {t : BinaryTree K V} {fs : FS} {i : Fin 2}
    (h : t.Backed fs (File.backups i).path) : Replays Time fs i t :=
  fun _ dummy now hb ↦ h.restores_of_ne hb dummy now rfl

theorem Stage.not_idle {t : BinaryTree K V} {todo : List AdjustOp} (h : Stage Time s t todo) :
    ¬(some todo = none ∨ some todo = some []) := by
  rintro (hn | hn)
  · cases hn
  · cases hn
    cases h

/-- There is an unfinished `adjust` exactly when there is a `reserve`, and never two. -/
theorem Threads.Inv.unfinished_eq (h : st.Inv Time m) :
    st.unfinished = if st.store.reserve.isSome then 1 else 0 := by
  obtain ⟨s, waiting, holder⟩ := st
  have hpending := h.pending
  dsimp only at hpending ⊢
  cases hpending with
  | none hholder hr _ => rw [Threads.unfinished, if_pos hholder, hr]; rfl
  | waiting hholder ht _ => rw [Threads.unfinished, if_pos hholder, ht]; rfl
  | working ht hstage _ =>
    rw [Threads.unfinished, if_neg (hstage.not_idle), ht]
    rfl

/-- What backs `reserve` while it is there. -/
theorem Threads.Inv.backed_or_dumped (h : st.Inv Time m) {t : BinaryTree K V}
    (ht : st.store.reserve = some t) :
    t.Backed st.store.fs (File.backups (st.store.current + 1)).path ∨
      (st.holder = some [.retire] ∧ Dumped Time st.store.fs (st.store.recent + 1) t) := by
  obtain ⟨s, waiting, holder⟩ := st
  have hpending := h.pending
  dsimp only at ht hpending ⊢
  cases hpending with
  | none _ hr _ => rw [hr] at ht; cases ht
  | waiting _ hu hlog =>
    rw [ht] at hu
    cases hu
    exact .inl hlog
  | working hu hstage hlog =>
    rw [ht] at hu
    cases hu
    cases hstage with
    | dumped now hfile => exact .inr ⟨rfl, now, hfile⟩
    | start => exact .inl (hlog (by simp))
    | emptied => exact .inl (hlog (by simp))
    | copied => exact .inl (hlog (by simp))
    | truncated => exact .inl (hlog (by simp))
    | merged => exact .inl (hlog (by simp))
    | cleaned => exact .inl (hlog (by simp))

/-- The operations before the dump write neither logs nor trees. -/
structure SameLogs (s s' : Store) : Prop where
  reserve : s'.reserve = s.reserve
  backups : ∀ i, s'.fs.content (File.backups i).path = s.fs.content (File.backups i).path

theorem sameLogs_withFS (s : Store) {f : File} (hf : ∀ i, f ≠ .backups i) (bs : Bytes) :
    SameLogs s (s.withFS (s.fs.write f.path bs)) := ⟨rfl, content_backups_write s.fs hf bs⟩

theorem AdjustOp.sameLogs (env : Env Time) (s : Store) (t : BinaryTree K V) {op : AdjustOp}
    (hdump : op ≠ .dump) (hretire : op ≠ .retire) : SameLogs s (op.after env s t) := by
  cases op with
  | emptyTemp | copy | emptyTempAgain => exact sameLogs_withFS s (f := .tempfile) (by simp) _
  | truncate | merge => exact sameLogs_withFS s (f := .filesys _) (by simp) _
  | dump => exact absurd rfl hdump
  | retire => exact absurd rfl hretire

/-- The dump appends a record to the log of `reserve` and leaves the other log alone. -/
theorem content_backups_dumped {t : BinaryTree K V}
    (hlog : t.Backed s.fs (File.backups (s.current + 1)).path) (env : Env Time) (i : Fin 2) :
    (dumped env s t).fs.content (File.backups i).path = s.fs.content (File.backups i).path ∨
      (dumped env s t).fs.content (File.backups i).path ≠ some [] := by
  by_cases hi : i = s.current + 1
  · right
    obtain ⟨es, hes, -⟩ := hlog.exists_log
    have hes' : BinaryTree.Logs t (s.fs.write (File.filesys (s.recent + 1)).path []) _ es :=
      hes.congr rfl (content_backups_write s.fs (f := .filesys _) (by simp) [] _)
    have hdump := hes'.dump (f := ⟨(File.filesys (s.recent + 1)).path, 0, true⟩) (by simp) env.now env.dummy
    rw [hi]
    intro hnil
    have hnil' := hdump.content_eq.symm.trans hnil
    exact Pod.encode_concat_ne_nil _ _ (Option.some.inj hnil')
  · left
    rw [content_dumped env _ (by rw [hlog.logName_eq]; simpa using Ne.symm hi), if_neg (by simp)]

/-- What a step keeps: `reserve` goes away only after its dump, and a log with records is emptied only
when it is the log of a tree that has been dumped. -/
structure Keeps (Time : Type) [TimeFormat Time] (s s' : Store) : Prop where
  /-- `reserve` stays the same tree, or is dropped when the newest file has all of it. -/
  reserve : ∀ t, s.reserve = some t → (∃ t', s'.reserve = some t' ∧ BinaryTree.SameContents t' t) ∨
    (s'.reserve = none ∧ Dumped Time s'.fs s'.recent t)
  /-- A log is emptied only when it is that of `reserve` and the oldest file has all of it. -/
  logs : ∀ i, s.fs.content (File.backups i).path ≠ some [] →
    s'.fs.content (File.backups i).path = some [] →
      i = s.current + 1 ∧ ∃ t, s.reserve = some t ∧ Dumped Time s.fs (s.recent + 1) t

theorem SameLogs.keeps (h : SameLogs s s') : Keeps Time s s' :=
  ⟨fun t ht ↦ .inl ⟨t, h.reserve.trans ht, fun _ ↦ rfl, rfl⟩,
    fun i hne he ↦ absurd ((h.backups i).symm.trans he) hne⟩

theorem Keeps.refl (s : Store) : Keeps Time s s := SameLogs.keeps ⟨rfl, fun _ ↦ rfl⟩

theorem Threads.Inv.keeps_write (h : st.Inv Time m) (k : K) (v : V) :
    Keeps Time st.store (dbwrite k v st.store) := by
  have hsame := sameFiles_dbwrite h.wf h.bintreeLog k v
  refine ⟨fun t ht ↦ .inl ⟨t, hsame.reserve.trans ht, fun _ ↦ rfl, rfl⟩, fun i hne he ↦ ?_⟩
  by_cases hi : i = st.store.current
  · obtain ⟨es, hes, -⟩ := h.bintreeLog.exists_log
    have hbloom := ((mirrors_insert k v h.wf).set k).2.2.2.2.1 (File.backups i).path
      (by rw [h.wf.bloomName]; simp)
    subst hi
    have hnil := (hes.insert k v).content_eq.symm.trans (hbloom.symm.trans he)
    exact absurd (Option.some.inj hnil) (Pod.encode_concat_ne_nil _ _)
  · obtain rfl : i = st.store.current + 1 := by omega
    exact absurd (hsame.backup.symm.trans he) hne

theorem Threads.Inv.keeps_swap (h : st.Inv Time m) (hswap : wantsSwap st.store = true) :
    Keeps Time st.store (Master.swap st.store) := by
  have hr := reserve_of_wantsSwap hswap
  refine ⟨fun t ht ↦ (by rw [hr] at ht; cases ht), fun i hne he ↦ ?_⟩
  rw [fs_swap h.wf, content_write_path] at he
  split_ifs at he with hi
  · obtain rfl : i = st.store.current + 1 := by simpa using hi
    exact absurd (h.idle hr).2.2 hne
  · exact absurd he hne

theorem Threads.Inv.keeps_work {op : AdjustOp} {todo : List AdjustOp} (h : st.Inv Time m)
    (hholder : st.holder = some (op :: todo)) (env : Env Time) (hrun : op.run env st.store = some s') :
    Keeps Time st.store s' := by
  obtain ⟨t, -, ht, hstage, hlog⟩ := h.working hholder
  rw [AdjustOp.run_eq h.wf env ht, Option.some.injEq] at hrun
  subst hrun
  by_cases hdump : op = .dump
  · subst hdump
    obtain ⟨t', ht', hroot, hsize, -, hwf'⟩ := reserve_dumped (s := st.store) env (t := t)
    have hwf := h.wf.reserve t ht
    refine ⟨fun u hu ↦ .inl ⟨t', ht', ?_⟩, fun i hne he ↦ ?_⟩
    · rw [ht] at hu
      cases hu
      exact .of_entries (hwf' hwf) hwf (by rw [hroot])
    · rcases content_backups_dumped (hlog (by simp)) env i with heq | hne'
      · exact absurd (heq.symm.trans he) hne
      · exact absurd he hne'
  · by_cases hretire : op = .retire
    · subst hretire
      cases hstage with
      | dumped now hfile =>
        refine ⟨fun u hu ↦ .inr ⟨rfl, now, ?_⟩, fun i hne he ↦ ?_⟩
        · rw [ht] at hu
          cases hu
          exact (content_write_path _ _ _ _).trans ((if_neg (by simp)).trans hfile)
        · refine ⟨?_, t, ht, now, hfile⟩
          by_contra hi
          exact hne (((content_write_path _ _ _ _).trans (if_neg (by simpa using hi))).symm.trans he)
    · exact (AdjustOp.sameLogs env st.store t hdump hretire).keeps

theorem Threads.Inv.keeps (h : st.Inv Time m) {a : Action Time} (hstep : st.step a = some st') :
    Keeps Time st.store st'.store := by
  cases Threads.step_cases hstep with
  | nothing => exact .refl _
  | write k v => exact h.keeps_write k v
  | swap hswap => exact h.keeps_swap hswap
  | lock => exact .refl _
  | @work env _ _ _ hholder hrun => exact h.keeps_work hholder env hrun
  | unlock => exact .refl _

/-- **No tree and no log is dropped before it is on disk.**  From a fresh store every run of threads
goes through.  There is at most one unfinished `adjust`, and `reserve` is there exactly while there is
one.  The current backup replays to `bintree`, and the other one to `reserve` unless the oldest file is
`reserve` already; and no next step drops more than that allows.

It is about every state that can be reached, so it is what a crash between any two steps would find. -/
theorem threads_keep_logs (s : Store) (h : Fresh Time s) (actions : List (Action Time)) :
    ∃ st, Runs.run Threads.step ⟨s, 0, none⟩ actions = some st ∧
      st.unfinished ≤ 1 ∧ (st.store.reserve.isSome ↔ st.unfinished = 1) ∧
      Replays Time st.store.fs st.store.current st.store.bintree ∧
      (∀ t, st.store.reserve = some t → Replays Time st.store.fs (st.store.current + 1) t ∨
        Dumped Time st.store.fs (st.store.recent + 1) t) ∧
      ∀ a : Action Time, ∃ st', st.step a = some st' ∧ Keeps Time st.store st'.store := by
  obtain ⟨st, hrun, hst⟩ := h.run actions
  have hunfinished := hst.unfinished_eq
  refine ⟨st, hrun, ?_, ?_, replays_of_backed hst.bintreeLog, fun t ht ↦ ?_, fun a ↦ ?_⟩
  · rw [hunfinished]
    split_ifs <;> simp
  · rw [hunfinished]
    split_ifs with hr <;> simp [hr]
  · rcases hst.backed_or_dumped ht with hlog | ⟨-, hdumped⟩
    · exact .inl (replays_of_backed hlog)
    · exact .inr hdumped
  · obtain ⟨st', hstep, -⟩ := hst.step a
    exact ⟨st', hstep, hst.keeps hstep⟩

/-- A tree that is large enough, and the `adjust` that writes it as far as the dump. -/
def dumpedBatch : List (Action DaySecond) :=
  writes DaySecond someKeys zeroV ++ ([.swap, .lock] ++ List.replicate 6 (.work (someEnv 1)))

/-- The last operation is to come: `reserve` is still there, its log has one record more, and the oldest
file is the tree. -/
theorem threads_keep_logs_dumpedBatch : ∃ st,
    Runs.run Threads.step ⟨freshStore (fun _ ↦ (0 : DaySecond)) 9, 0, none⟩ dumpedBatch = some st ∧
      st.holder = some [.retire] ∧ (∃ t, st.store.reserve = some t) ∧ st.unfinished = 1 ∧
      Replays DaySecond st.store.fs st.store.current st.store.bintree ∧
      (∀ t, st.store.reserve = some t → Replays DaySecond st.store.fs (st.store.current + 1) t ∨
        Dumped DaySecond st.store.fs (st.store.recent + 1) t) ∧
      ∀ a : Action DaySecond, ∃ st', st.step a = some st' ∧ Keeps DaySecond st.store st'.store := by
  have hfresh := fresh_freshStore (fun _ ↦ (0 : DaySecond)) 9
  have hops : adjustOps = [.emptyTemp, .copy, .truncate, .merge, .emptyTempAgain, .dump] ++ [.retire] := rfl
  obtain ⟨st, hrun, hholder⟩ := run_openBatch nodup_someKeys length_someKeys.ge zeroV (someEnv 1)
    hfresh.inv ⟨rfl, rfl, hfresh.reserve⟩ hops
  obtain ⟨st', hrun', hle, hiff, hrest⟩ := threads_keep_logs _ hfresh dumpedBatch
  obtain rfl : st = st' := Option.some.inj (hrun.symm.trans hrun')
  have hone : st.unfinished = 1 := by
    refine le_antisymm hle ?_
    rw [Threads.unfinished, hholder]
    simp
  exact ⟨st, hrun, hholder, Option.isSome_iff_exists.mp (hiff.mpr hone), hone, hrest⟩

end Master

end ScratchStore
