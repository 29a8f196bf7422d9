import ScratchStore.RBTree.Dump

/-!
# What the operations of a tree do to the disk

Every operation of `BinaryTree` reaches the disk through `log_action` alone.  `OnlyLog` is the
frame that follows: no file but the tree's own log changes, and the tree keeps logging to the same
file.  `Logs t fs name es` says more about a tree whose log is in order: the file `name` holds
exactly the records `es` and the stream stands at its end, so the next record is appended.

The two are used in different places.

* `OnlyLog` is about the rest of the disk.  An operation on a tree says nothing about files that the caller
  has open, so a caller needs the frame, whether the log is in order or not.
* `Logs` is about the log itself.  It is lost when somebody else writes to the file, or when the tree is given
  another log, and `Logs.congr` says that nothing else loses it.

A tree without a log satisfies the first and not the second.
-/

set_option autoImplicit false

namespace ScratchStore

variable {K V : Type}

namespace BinaryTree

/-- The file a tree logs to, if any. -/
def logName (t : BinaryTree K V) : Option String := t.logfile.map WFile.name

/-- Between `(t, fs)` and `(t', fs')` nothing but the log of the tree was written. -/
structure OnlyLog (t t' : BinaryTree K V) (fs fs' : FS) : Prop where
  logName_eq : t'.logName = t.logName
  logfilename_eq : t'.logfilename = t.logfilename
  /-- The files that are not its log. -/
  content_eq : ∀ name, t.logName ≠ some name → fs'.content name = fs.content name
  /-- No file is removed. -/
  isSome_content : ∀ name, (fs.content name).isSome → (fs'.content name).isSome
  writable_eq : fs'.writable = fs.writable

theorem OnlyLog.rfl' {t t' : BinaryTree K V} {fs : FS} (hlog : t'.logfile = t.logfile)
    (hname : t'.logfilename = t.logfilename) : OnlyLog t t' fs fs :=
  ⟨by rw [logName, logName, hlog], hname, fun _ _ ↦ rfl, fun _ h ↦ h, rfl⟩

theorem OnlyLog.refl (t : BinaryTree K V) (fs : FS) : OnlyLog t t fs fs := .rfl' rfl rfl

theorem OnlyLog.trans {t₁ t₂ t₃ : BinaryTree K V} {fs₁ fs₂ fs₃ : FS} (h : OnlyLog t₁ t₂ fs₁ fs₂)
    (h' : OnlyLog t₂ t₃ fs₂ fs₃) : OnlyLog t₁ t₃ fs₁ fs₃ where
  logName_eq := h'.logName_eq.trans h.logName_eq
  logfilename_eq := h'.logfilename_eq.trans h.logfilename_eq
  content_eq name hn :=
    (h'.content_eq name (h.logName_eq ▸ hn)).trans (h.content_eq name hn)
  isSome_content name hn := h'.isSome_content name (h.isSome_content name hn)
  writable_eq := h'.writable_eq.trans h.writable_eq

variable [Pod K] [Pod V]

/-- What is logged does not depend on the other files. -/
theorem logAction_write_of_ne (t : BinaryTree K V) (k : K) (v : V) (act : UInt8) (fs : FS)
    {name : String} (h : t.logName ≠ some name) (bs : Bytes) :
    t.logAction k v act (fs.write name bs) =
      ((t.logAction k v act fs).1, (t.logAction k v act fs).2.write name bs) := by
  rw [logAction, logAction]
  cases hf : t.logfile with
  | none => rfl
  | some f =>
    have hne : f.name ≠ name := fun hn ↦ h (by rw [logName, hf, ← hn]; rfl)
    dsimp only
    rw [FS.fwrite_write_of_ne fs hne]

theorem onlyLog_logAction (t : BinaryTree K V) (k : K) (v : V) (act : UInt8) (fs : FS) :
    OnlyLog t (t.logAction k v act fs).1 fs (t.logAction k v act fs).2 := by
  rw [logAction]
  split
  · exact .refl t fs
  · rename_i f hf
    rw [FS.fwrite]
    split_ifs
    · refine ⟨by simp [logName, hf], rfl, fun name hn ↦ ?_, fun name hn ↦ FS.isSome_write hn, rfl⟩
      refine FS.content_write_of_ne (fun h ↦ hn ?_) _
      rw [logName, hf, h]; rfl
    · exact .rfl' hf.symm rfl

/-- The tree's log is the file `name`, holding the records `es`. -/
structure Logs (t : BinaryTree K V) (fs : FS) (name : String) (es : List (LogEntry K V)) : Prop where
  logfile_eq : t.logfile = some ⟨name, (Pod.encode es).length, true⟩
  content_eq : fs.content name = some (Pod.encode es)

theorem Logs.logName_eq {t : BinaryTree K V} {fs : FS} {name : String} {es : List (LogEntry K V)}
    (h : Logs t fs name es) : t.logName = some name := by rw [logName, h.logfile_eq]; rfl

/-- Files other than the log may change. -/
theorem Logs.congr {t t' : BinaryTree K V} {fs fs' : FS} {name : String} {es : List (LogEntry K V)}
    (h : Logs t fs name es) (ht : t'.logfile = t.logfile)
    (hfs : fs'.content name = fs.content name) : Logs t' fs' name es :=
  ⟨ht.trans h.logfile_eq, hfs.trans h.content_eq⟩

/-- **One more record.** -/
theorem Logs.logAction {t : BinaryTree K V} {fs : FS} {name : String} {es : List (LogEntry K V)}
    (h : Logs t fs name es) (k : K) (v : V) (act : UInt8) :
    Logs (t.logAction k v act fs).1 (t.logAction k v act fs).2 name (es ++ [(act, k, v)]) := by
  have hend : WFile.AtEnd ⟨name, (Pod.encode es).length, true⟩ fs :=
    ⟨rfl, _, h.content_eq, rfl⟩
  have hread : fs.read name = Pod.encode es := by rw [FS.read, h.content_eq]; rfl
  have hcat : Pod.encode (es ++ [(act, k, v)]) =
      Pod.encode es ++ Pod.toBytes ((act, k, v) : LogEntry K V) := by simp
  rw [BinaryTree.logAction, h.logfile_eq]
  dsimp only
  rw [FS.fwrite_of_atEnd hend, hread]
  exact ⟨by rw [hcat, List.length_append], by rw [hcat, FS.content_write_self]⟩

section Ops

variable [LinearOrder K]

omit [Pod K] [Pod V] in
@[simp] theorem logfile_insertNode (t : BinaryTree K V) (k : K) (v : V) :
    (t.insertNode k v).logfile = t.logfile := by
  rw [insertNode]
  split
  · rfl
  · split_ifs <;> rfl

omit [Pod K] [Pod V] in
@[simp] theorem logfilename_insertNode (t : BinaryTree K V) (k : K) (v : V) :
    (t.insertNode k v).logfilename = t.logfilename := by
  rw [insertNode]
  split
  · rfl
  · split_ifs <;> rfl

theorem onlyLog_insert (t : BinaryTree K V) (k : K) (v : V) (fs : FS) :
    OnlyLog t (t.insert k v fs).1 fs (t.insert k v fs).2 :=
  (OnlyLog.rfl' (logfile_insertNode t k v) (logfilename_insertNode t k v)).trans
    (onlyLog_logAction _ k v writeAction fs)

theorem onlyLog_del (t : BinaryTree K V) (k : K) (dummy : V) (fs : FS) :
    OnlyLog t (t.del k dummy fs).2.1 fs (t.del k dummy fs).2.2 := by
  rw [del]
  split
  · exact .refl t fs
  · rename_i c _
    have hmark : OnlyLog t (t.markNode c) fs fs := .rfl' rfl rfl
    exact hmark.trans (onlyLog_logAction _ k dummy delAction fs)

theorem Logs.insert {t : BinaryTree K V} {fs : FS} {name : String} {es : List (LogEntry K V)}
    (h : Logs t fs name es) (k : K) (v : V) :
    Logs (t.insert k v fs).1 (t.insert k v fs).2 name (es ++ [(writeAction, k, v)]) :=
  (h.congr (logfile_insertNode t k v) rfl).logAction k v writeAction

/-- `del` logs when it finds the key, and does nothing otherwise. -/
theorem Logs.del {t : BinaryTree K V} {fs : FS} {name : String} {es : List (LogEntry K V)}
    (h : Logs t fs name es) (k : K) (dummy : V) :
    Logs (t.del k dummy fs).2.1 (t.del k dummy fs).2.2 name
      (if (t.search k).isSome then es ++ [(delAction, k, dummy)] else es) := by
  rw [BinaryTree.del]
  cases t.search k with
  | none => exact h
  | some c =>
    have hmark : Logs (t.markNode c) fs name es := h.congr rfl rfl
    exact hmark.logAction k dummy delAction

end Ops

variable {Time : Type} [TimeFormat Time]

theorem onlyLog_dump (t : BinaryTree K V) (f : WFile) (now : Time) (dummy : K × V) (fs : FS) :
    OnlyLog t (t.dump f now dummy fs).1 (fs.fwrite f (t.dumpBytes now)).1
      (t.dump f now dummy fs).2 := by
  have hclear : OnlyLog t { t with stk := [], traversalStarted := false }
      (fs.fwrite f (t.dumpBytes now)).1 (fs.fwrite f (t.dumpBytes now)).1 := .rfl' rfl rfl
  exact hclear.trans (onlyLog_logAction _ dummy.1 dummy.2 syncAction _)

/-- What is dumped does not depend on the files other than the log. -/
theorem dump_write_of_ne (t : BinaryTree K V) {f : WFile} (now : Time) (dummy : K × V) (fs : FS)
    {name : String} (hf : f.name ≠ name) (h : t.logName ≠ some name) (bs : Bytes) :
    t.dump f now dummy (fs.write name bs) =
      ((t.dump f now dummy fs).1, (t.dump f now dummy fs).2.write name bs) := by
  have hclear : logName { t with stk := [], traversalStarted := false } ≠ some name := h
  rw [dump, dump, FS.fwrite_write_of_ne fs hf]
  exact logAction_write_of_ne _ _ _ _ _ hclear bs

theorem Logs.dump {t : BinaryTree K V} {fs : FS} {name : String} {es : List (LogEntry K V)}
    (h : Logs t fs name es) {f : WFile} (hf : name ≠ f.name) (now : Time) (dummy : K × V) :
    Logs (t.dump f now dummy fs).1 (t.dump f now dummy fs).2 name
      (es ++ [(syncAction, dummy.1, dummy.2)]) := by
  have hclear : Logs { t with stk := [], traversalStarted := false }
      (fs.fwrite f (t.dumpBytes now)).1 name es := by
    refine h.congr rfl ?_
    rw [FS.fwrite]
    split_ifs
    · exact FS.content_write_of_ne hf _
    · rfl
  exact hclear.logAction dummy.1 dummy.2 syncAction

/-! ### Opening a log -/

theorem logs_setLogFile (t : BinaryTree K V) {name : String} (hname : name ≠ "") {fs : FS}
    (hw : fs.writable name = true) :
    Logs (t.setLogFile name fs).1 (t.setLogFile name fs).2 name [] := by
  simp only [setLogFile, if_neg hname, FS.fopenWrite, hw, if_true]
  exact ⟨rfl, FS.content_write_self _ _ _⟩

omit [Pod K] [Pod V] in
theorem setLogFile_snd (t : BinaryTree K V) {name : String} (hname : name ≠ "") {fs : FS}
    (hw : fs.writable name = true) : (t.setLogFile name fs).2 = fs.write name [] := by
  simp only [setLogFile, if_neg hname, FS.fopenWrite, hw, if_true]

omit [Pod K] [Pod V] in
@[simp] theorem root_setLogFile (t : BinaryTree K V) (name : String) (fs : FS) :
    (t.setLogFile name fs).1.root = t.root := by
  rw [setLogFile]
  dsimp only
  split_ifs
  · rfl
  · split <;> rfl

end BinaryTree

end ScratchStore
