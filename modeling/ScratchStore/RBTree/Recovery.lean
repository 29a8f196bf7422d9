import ScratchStore.Master.KeyValue
import ScratchStore.RBTree.Replay

/-!
# Recovering a tree from its log

A tree that logs from the start can be loaded again from its log.  `Backed` is the invariant: the
log is a sequence of whole records whose replay is the tree.  `insert` and `del` append the record
that does the same to the replay, and a dump that is followed by `_free` appends a `_sync_`, after
which the replay starts over.

Loading the log under its own name first moves the tree's log out of the way, to a name made from
the time.  That name can be the name of the log itself, and then opening it empties the log before
it is read.

* `Backed` and `Backed.run`: the invariant and its preservation; `backed_runLog` is any run.
* `Restores`: `fromFile` ends and loads the contents of the tree.
* `fromFile_restores_iff`: exactly when it does.

A tree that is loaded into may have a log of its own; it is taken to be open.  A dump is taken to be one
of pairs of at least twenty bytes, which is what the time in its header needs.

## The clash of names

The fallback name is made of the time in seconds, so it is known beforehand, and a program may well have
given it to a tree.  `fromFile_clash` reduces the call to one where the names differ, `fromFile_self` is the
case in which they are the same, and only then is anything lost.  A run without insertions loses nothing even
so, since there was nothing in the log.
-/

set_option autoImplicit false

namespace ScratchStore

open SortedAssoc

variable {K V : Type} [Pod K] [Pod V] [LinearOrder K]

namespace BinaryTree

/-- The log `name` of the tree is in order, and its replay is the tree. -/
structure Backed (t : BinaryTree K V) (fs : FS) (name : String) : Prop where
  wf : t.WF
  exists_log : ∃ es, Logs t fs name es ∧ replay es = t.root.entries

variable {t : BinaryTree K V} {fs : FS} {name : String}

theorem Backed.logName_eq (h : Backed t fs name) : t.logName = some name := by
  obtain ⟨es, hlog, -⟩ := h.exists_log
  exact hlog.logName_eq

/-- Other files may change. -/
theorem Backed.congr (h : Backed t fs name) {fs' : FS} (hfs : fs'.content name = fs.content name) :
    Backed t fs' name := by
  obtain ⟨es, hlog, hes⟩ := h.exists_log
  exact ⟨h.wf, es, hlog.congr rfl hfs, hes⟩

theorem Backed.insert (h : Backed t fs name) (k : K) (v : V) :
    Backed (t.insert k v fs).1 (t.insert k v fs).2 name := by
  obtain ⟨es, hlog, hes⟩ := h.exists_log
  refine ⟨h.wf.insert k v fs, _, hlog.insert k v, ?_⟩
  have hw : writeAction ≠ syncAction := by decide
  rw [replay_concat hw, hes, entries_insert h.wf.ascending, LogEntry.apply, if_pos rfl]

theorem Backed.del (h : Backed t fs name) (k : K) (dummy : V) :
    Backed (t.del k dummy fs).2.1 (t.del k dummy fs).2.2 name := by
  obtain ⟨es, hlog, hes⟩ := h.exists_log
  refine ⟨h.wf.del k dummy fs, _, hlog.del k dummy, ?_⟩
  have hd : delAction ≠ syncAction := by decide
  have hw : ¬delAction = writeAction := by decide
  rw [search_isSome h.wf.ascending, entries_del h.wf.ascending]
  split_ifs with hk
  · rw [replay_concat hd, hes, LogEntry.apply, if_neg hw, if_pos rfl, if_pos hk]
  · exact hes

/-- A fresh log backs an empty tree. -/
theorem backed_setLogFile (hroot : t.root = .nil) (hsize : t.size = 0) (hname : name ≠ "")
    (hw : fs.writable name = true) : Backed (t.setLogFile name fs).1 (t.setLogFile name fs).2 name := by
  refine ⟨⟨by simp [hroot], ?_⟩, [], logs_setLogFile t hname hw, by simp [hroot]⟩
  simp [setLogFile, hname, FS.fopenWrite, hw, hroot, hsize]

variable {Time : Type} [TimeFormat Time]

theorem Backed.dump_free (h : Backed t fs name) {f : WFile} (hf : f.name ≠ name) (now : Time)
    (dummy : K × V) :
    Backed (t.dump f now dummy fs).1.free (t.dump f now dummy fs).2 name := by
  obtain ⟨es, hlog, -⟩ := h.exists_log
  exact ⟨wf_free _, _, (hlog.dump hf.symm now dummy).congr rfl rfl, replay_concat_sync rfl⟩

/-! ## Runs of operations -/

/-- What is done to a tree that logs to `log`: the dump goes to another file and is followed at
once by `_free`.  The header of that file is not looked at here; that it has room for the time, and the
dump is defined, takes pairs of at least twenty bytes. -/
inductive LogOp (K V Time : Type) (log : String) where
  | insert (k : K) (v : V)
  | del (k : K) (dummy : V)
  | dumpFree (f : WFile) (hf : f.name ≠ log) (now : Time) (dummy : K × V)

/-- One operation. -/
def LogOp.run {log : String} (s : BinaryTree K V × FS) : LogOp K V Time log → BinaryTree K V × FS
  | .insert k v => s.1.insert k v s.2
  | .del k dummy => (s.1.del k dummy s.2).2
  | .dumpFree f _ now dummy => ((s.1.dump f now dummy s.2).1.free, (s.1.dump f now dummy s.2).2)

/-- A tree created on the log `log`, after some operations. -/
def runLog (log : String) (fs : FS) (ops : List (LogOp K V Time log)) : BinaryTree K V × FS :=
  ops.foldl LogOp.run (ofLogFile log fs)

theorem Backed.run {log : String} {s : BinaryTree K V × FS} (h : Backed s.1 s.2 log)
    (op : LogOp K V Time log) : Backed (op.run s).1 (op.run s).2 log := by
  cases op with
  | insert k v => exact h.insert k v
  | del k dummy => exact h.del k dummy
  | dumpFree f hf now dummy => exact h.dump_free hf now dummy

theorem LogOp.writable_run {log : String} (s : BinaryTree K V × FS) (op : LogOp K V Time log) :
    (op.run s).2.writable = s.2.writable := by
  cases op with
  | insert k v => exact (onlyLog_insert s.1 k v s.2).writable_eq
  | del k dummy => exact (onlyLog_del s.1 k dummy s.2).writable_eq
  | dumpFree f hf now dummy =>
    refine (onlyLog_dump s.1 f now dummy s.2).writable_eq.trans ?_
    rw [FS.fwrite]
    split_ifs <;> rfl

/-- **Every run keeps the log in order.** -/
theorem backed_runLog {log : String} (hlog : log ≠ "") {fs : FS} (hw : fs.writable log = true)
    (ops : List (LogOp K V Time log)) :
    Backed (runLog log fs ops).1 (runLog log fs ops).2 log ∧
      (runLog log fs ops).2.writable log = true := by
  have hfirst : Backed (ofLogFile log fs : BinaryTree K V × FS).1 (ofLogFile log fs).2 log :=
    backed_setLogFile rfl rfl hlog hw
  have hfirstw : (ofLogFile log fs : BinaryTree K V × FS).2.writable log = true := by
    rw [ofLogFile, setLogFile_snd _ hlog hw, FS.writable_write, hw]
  rw [runLog]
  generalize (ofLogFile log fs : BinaryTree K V × FS) = s at hfirst hfirstw
  induction ops generalizing s with
  | nil => exact ⟨hfirst, hfirstw⟩
  | cons op ops ih => exact ih _ (hfirst.run op) (by rw [LogOp.writable_run, hfirstw])

/-! ## Loading the log again

The tree that is loaded into may be the one that has written the log, or any other. -/

/-- The two trees have the same keys with the same values and deletion flags, and the same size. -/
structure SameContents (t t' : BinaryTree K V) : Prop where
  search_eq : ∀ k, (t.search k).map (fun c ↦ (c.n.value, c.n.del)) =
    (t'.search k).map fun c ↦ (c.n.value, c.n.del)
  size_eq : t.size = t'.size

omit [Pod K] [Pod V] in
theorem SameContents.of_entries {t t' : BinaryTree K V} (h : t.WF) (h' : t'.WF)
    (heq : t.root.entries = t'.root.entries) : SameContents t t' :=
  ⟨fun k ↦ by rw [search_eq_lookup h.ascending, search_eq_lookup h'.ascending, heq],
    by rw [h.size_eq, h'.size_eq, heq]⟩

/-- Every bound on the number of iterations from some point on is enough for the call to return a
tree with the contents of `t`. -/
def Restores (b t : BinaryTree K V) (dummy : V) (log : String) (now : Time) (fs : FS) : Prop :=
  ∃ N, ∀ fuel ≥ N, ∃ b' fs', fromFile fuel dummy b log now fs = .ok (b', fs') ∧ SameContents b' t

theorem backupName_ne_empty (now : Time) : backupName now ≠ "" := by
  intro h
  have hlen := congrArg String.length h
  rw [backupName, String.length_append] at hlen
  have hseven : "backup-".length = 7 := rfl
  rw [hseven] at hlen
  simp at hlen

/-- Under the name of the tree's own log, `fromFile` is `setLogFile` and then `fromFile` for a tree
that logs elsewhere. -/
theorem fromFile_clash (fuel : ℕ) (dummy : V) (b : BinaryTree K V) (log : String) (now : Time)
    (fs : FS) (h : log = b.logfilename) (hne : log ≠ (b.setLogFile (backupName now) fs).1.logfilename) :
    fromFile fuel dummy b log now fs =
      fromFile fuel dummy (b.setLogFile (backupName now) fs).1 log now
        (b.setLogFile (backupName now) fs).2 := by
  rw [fromFile, if_pos h, fromFile, if_neg hne]

omit [Pod K] [Pod V] [LinearOrder K] in
theorem logfilename_setLogFile (b : BinaryTree K V) (name : String) (fs : FS) :
    (b.setLogFile name fs).1.logfilename = name := by
  rw [setLogFile]
  dsimp only
  split_ifs
  · rfl
  · split <;> rfl

omit [Pod K] [Pod V] [LinearOrder K] in
/-- `setLogFile` leaves the other files alone. -/
theorem content_setLogFile (b : BinaryTree K V) {name other : String} (h : other ≠ name) (fs : FS) :
    (b.setLogFile name fs).2.content other = fs.content other := by
  rw [setLogFile]
  dsimp only
  split_ifs
  · rfl
  · rw [FS.fopenWrite]
    split_ifs
    · exact FS.content_write_of_ne h _
    · rfl

theorem Backed.restores_of_ne (h : Backed t fs name) {b : BinaryTree K V}
    (hb : name ≠ b.logfilename) (dummy : V) (now : Time) {fs' : FS}
    (hfs : fs'.content name = fs.content name) : Restores b t dummy name now fs' := by
  obtain ⟨es, hlog, hes⟩ := h.exists_log
  refine ⟨es.length + 2, fun fuel hfuel ↦ ?_⟩
  obtain ⟨b', fs'', heq, hwf, hent, -⟩ :=
    fromFile_entries b name now fs' dummy es hfuel hb (hfs.trans hlog.content_eq)
  exact ⟨b', fs'', heq, .of_entries hwf h.wf (hent.trans hes)⟩

/-- When the fallback name is the log itself, what is loaded is empty. -/
theorem fromFile_self (fuel : ℕ) (dummy : V) (b : BinaryTree K V) (now : Time) (fs : FS)
    (h : b.logfilename = backupName now) (hw : fs.writable (backupName now) = true) :
    fromFile fuel dummy b (backupName now) now fs =
      .ok ((b.setLogFile (backupName now) fs).1.free, (b.setLogFile (backupName now) fs).2) := by
  have hcontent : (b.setLogFile (backupName now) fs).2.content (backupName now) = some [] := by
    rw [setLogFile_snd b (backupName_ne_empty now) hw, FS.content_write_self]
  have hzero : (⌊Float24.round ((0 : ℕ) / (entrySize K V : ℕ))⌋ : ℚ) =
      Float24.round ((0 : ℕ) / (entrySize K V : ℕ)) := by
    simpa using Float24.floor_round_natCast 0
  rw [fromFile, if_pos h.symm]
  simp only [FS.fopenRead, hcontent, Option.map_some, List.length_nil, hzero, ne_eq,
    not_true_eq_false, if_false, if_true]

theorem Backed.restores_iff (h : Backed t fs name) (hw : fs.writable name = true)
    (b : BinaryTree K V) (dummy : V) (now : Time) :
    Restores b t dummy name now fs ↔
      ¬(b.logfilename = name ∧ backupName now = name ∧ t.root ≠ .nil) := by
  by_cases hb : b.logfilename = name
  · by_cases hn : backupName now = name
    · subst hn
      simp only [hb, true_and, not_not, ne_eq]
      constructor
      · rintro ⟨N, hN⟩
        obtain ⟨b', fs', heq, hsame⟩ := hN N le_rfl
        rw [fromFile_self N dummy b now fs hb hw] at heq
        cases heq
        have hlen : t.root.entries.length = 0 := h.wf.size_eq.symm.trans hsame.size_eq.symm
        exact Tree.entries_eq_nil_iff.mp (List.length_eq_zero_iff.mp hlen)
      · intro hnil
        refine ⟨0, fun fuel _ ↦ ⟨_, _, fromFile_self fuel dummy b now fs hb hw, ?_⟩⟩
        exact .of_entries (wf_free _) h.wf (by rw [entries_free, hnil]; rfl)
    · have hne : name ≠ (b.setLogFile (backupName now) fs).1.logfilename := by
        rw [logfilename_setLogFile]; exact Ne.symm hn
      obtain ⟨N, hN⟩ := h.restores_of_ne hne dummy now (content_setLogFile b (Ne.symm hn) fs)
      have hrest : Restores b t dummy name now fs := by
        refine ⟨N, fun fuel hfuel ↦ ?_⟩
        rw [fromFile_clash fuel dummy b name now fs hb.symm hne]
        exact hN fuel hfuel
      simp [hrest, hn]
  · have hrest := h.restores_of_ne (Ne.symm hb) dummy now rfl
    simp [hrest, hb]

/-- **Loading the log of a tree restores the tree**, in another tree or the same one, unless the
name the clash path falls back on is the log itself and there was something to restore. -/
theorem fromFile_restores_iff (log : String) (hlog : log ≠ "") (fs : FS)
    (hw : fs.writable log = true) (ops : List (LogOp K V Time log)) (b : BinaryTree K V)
    (dummy : V) (now : Time) :
    Restores b (runLog log fs ops).1 dummy log now (runLog log fs ops).2 ↔
      ¬(b.logfilename = log ∧ backupName now = log ∧ (runLog log fs ops).1.root ≠ .nil) :=
  have hrun := backed_runLog hlog hw ops
  hrun.1.restores_iff hrun.2 b dummy now

/-- A run of one insertion. -/
def oneInsert (log : String) : List (LogOp Master.K Master.V DaySecond log) :=
  [.insert Master.zeroK Master.zeroV]

/-- The tree is loaded from its own log, and the fallback name is another. -/
theorem fromFile_restores_iff_oneInsert :
    Restores (runLog "log" FS.blank (oneInsert "log")).1
        (runLog "log" FS.blank (oneInsert "log")).1 Master.zeroV "log" (0 : DaySecond)
        (runLog "log" FS.blank (oneInsert "log")).2 ↔
      ¬((runLog "log" FS.blank (oneInsert "log")).1.logfilename = "log" ∧
        backupName (0 : DaySecond) = "log" ∧
        (runLog "log" FS.blank (oneInsert "log")).1.root ≠ .nil) :=
  fromFile_restores_iff "log" (by decide) FS.blank rfl (oneInsert "log") _ Master.zeroV 0

/-- An empty tree that logs to the name the clash path falls back on, and one insertion later. -/
def clashing₀ : BinaryTree Master.K Master.V × FS :=
  ofLogFile (backupName (0 : DaySecond)) FS.blank
def clashing : BinaryTree Master.K Master.V × FS :=
  runLog (backupName (0 : DaySecond)) FS.blank (oneInsert _)

theorem clashing_eq : clashing = clashing₀.1.insert Master.zeroK Master.zeroV clashing₀.2 := by
  rw [clashing, runLog, oneInsert, List.foldl_cons, List.foldl_nil, LogOp.run, clashing₀]

/-- **The log is lost** when it has the very name that the clash path falls back on. -/
theorem fromFile_clash_loses :
    ¬Restores clashing.1 clashing.1 Master.zeroV (backupName (0 : DaySecond)) (0 : DaySecond)
      clashing.2 := by
  have hne := backupName_ne_empty (0 : DaySecond)
  have hrun : Backed clashing.1 clashing.2 (backupName (0 : DaySecond)) ∧ clashing.2.writable _ = true :=
    backed_runLog hne rfl (oneInsert _)
  have hfirst : Backed clashing₀.1 clashing₀.2 (backupName (0 : DaySecond)) :=
    backed_setLogFile rfl rfl hne rfl
  have hname : clashing.1.logfilename = backupName (0 : DaySecond) := by
    rw [clashing_eq, (onlyLog_insert _ _ _ _).logfilename_eq]
    exact logfilename_setLogFile _ _ _
  have hroot : clashing.1.root ≠ .nil := by
    intro hnil
    have hent := entries_insert hfirst.wf.ascending Master.zeroK Master.zeroV clashing₀.2
    rw [← clashing_eq, hnil, clashing₀, ofLogFile, root_setLogFile] at hent
    exact absurd hent (by simp [empty, upsert])
  rw [hrun.1.restores_iff hrun.2, not_not]
  exact ⟨hname, rfl, hroot⟩

end BinaryTree

end ScratchStore
