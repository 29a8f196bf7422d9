import ScratchStore.Core.Read
import ScratchStore.Master.KeyValue
import ScratchStore.RBTree.Log

/-!
# A dumped tree is looked up like the tree

The writer of a data file is `BinaryTree::dump`, its reader `findEntry`.

* `BinaryTree.build` is a new tree after some changes (`TreeOp`), and `build_spec` what is known of every
  one: it is a search tree, and logs only to the file it was given.
* `content_dump` is what is on disk after a dump.
* `dump_findEntry`: the file has the nodes of the tree as its records, and the bisection over the file
  delivers what `search` finds in the tree.
-/

set_option autoImplicit false

namespace ScratchStore

open SortedAssoc FileIO

variable {K V : Type} [Pod K] [Pod V] [LinearOrder K]

namespace BinaryTree

/-- The changes a tree goes through.  `dummy` is the unset value that `del` logs. -/
inductive TreeOp (K V : Type) where
  | insert (k : K) (v : V)
  | del (k : K) (dummy : V)

/-- One change. -/
def TreeOp.run (s : BinaryTree K V × FS) : TreeOp K V → BinaryTree K V × FS
  | .insert k v => s.1.insert k v s.2
  | .del k dummy => (s.1.del k dummy s.2).2

/-- `BinaryTree()`, or `BinaryTree(_logfile)`. -/
def create (_logfile : Option String) (fs : FS) : BinaryTree K V × FS :=
  match _logfile with
  | none => (empty, fs)
  | some name => ofLogFile name fs

/-- A new tree after some changes. -/
def build (_logfile : Option String) (fs : FS) (ops : List (TreeOp K V)) : BinaryTree K V × FS :=
  ops.foldl TreeOp.run (create _logfile fs)

theorem WF.run {s : BinaryTree K V × FS} (h : s.1.WF) (op : TreeOp K V) : (op.run s).1.WF := by
  cases op with
  | insert k v => exact h.insert k v s.2
  | del k dummy => exact h.del k dummy s.2

theorem onlyLog_run (s : BinaryTree K V × FS) (op : TreeOp K V) :
    OnlyLog s.1 (op.run s).1 s.2 (op.run s).2 := by
  cases op with
  | insert k v => exact onlyLog_insert s.1 k v s.2
  | del k dummy => exact onlyLog_del s.1 k dummy s.2

omit [Pod K] [Pod V] in
theorem wf_create (_logfile : Option String) (fs : FS) :
    (create _logfile fs : BinaryTree K V × FS).1.WF := by
  cases _logfile with
  | none => exact wf_empty
  | some name =>
    rw [create]
    refine ⟨?_, ?_⟩
    · rw [ofLogFile, root_setLogFile]; exact ascending_nil
    · rw [ofLogFile, root_setLogFile, setLogFile]
      dsimp only
      split_ifs
      · rfl
      · split <;> rfl

omit [Pod K] [Pod V] [LinearOrder K] in
/-- A new tree logs to the file it was given, if it logs at all. -/
theorem logName_create (_logfile : Option String) (fs : FS) {name : String}
    (h : _logfile ≠ some name) : (create _logfile fs : BinaryTree K V × FS).1.logName ≠ some name := by
  cases _logfile with
  | none => simp [create, logName, empty]
  | some log =>
    rw [create, ofLogFile, setLogFile]
    dsimp only
    split_ifs
    · simp [logName, empty]
    · split
      · simp [logName]
      · simpa [logName] using h

/-- Every tree that can be built is a search tree, and logs only to the file it was given. -/
theorem build_spec (_logfile : Option String) (fs : FS) (ops : List (TreeOp K V)) :
    (build _logfile fs ops).1.WF ∧
      ∀ name, _logfile ≠ some name → (build _logfile fs ops).1.logName ≠ some name := by
  have hrun : ∀ s : BinaryTree K V × FS, s.1.WF → (ops.foldl TreeOp.run s).1.WF ∧
      (ops.foldl TreeOp.run s).1.logName = s.1.logName := by
    induction ops with
    | nil => exact fun s hs ↦ ⟨hs, rfl⟩
    | cons op ops ih =>
      intro s hs
      obtain ⟨hwf, hlog⟩ := ih (op.run s) (hs.run op)
      exact ⟨hwf, hlog.trans (onlyLog_run s op).logName_eq⟩
  obtain ⟨hwf, hlog⟩ := hrun (create _logfile fs) (wf_create _logfile fs)
  exact ⟨hwf, fun name hname ↦ hlog ▸ logName_create _logfile fs hname⟩

variable {Time : Type} [TimeFormat Time]

omit [LinearOrder K] in
/-- What is in a file that was opened for a dump, after it. -/
theorem content_dump {t : BinaryTree K V} {name : String} (hlog : t.logName ≠ some name) {fs fs' : FS}
    (hopen : fs.fopenWrite name = some fs') (now : Time) (dummy : K × V) :
    (t.dump ⟨name, 0, true⟩ now dummy fs').2.content name = some (t.dumpBytes now) := by
  rw [FS.fopenWrite] at hopen
  split_ifs at hopen
  cases hopen
  have hend : WFile.AtEnd ⟨name, 0, true⟩ (fs.write name []) :=
    ⟨rfl, [], FS.content_write_self _ _ _, rfl⟩
  rw [(onlyLog_dump t _ now dummy _).content_eq name hlog, FS.fwrite_of_atEnd hend,
    FS.content_write_self, FS.read_write_self, List.nil_append]

/-- **The dumped file is the tree.**  It has a header and one record for each node in ascending
key order, and looking a key up in it, through any block cache that is in order, is searching the
tree.

The tree is any that insertions and deletions make, with a log or without, and the dump is to a file that is not
that log. -/
theorem dump_findEntry (hK : Pod.sizeof K = 64) (hV : Pod.sizeof V = 64) (_logfile : Option String)
    (fs : FS) (ops : List (TreeOp K V)) (name : String) (hname : _logfile ≠ some name) (fs' : FS)
    (hopen : (build _logfile fs ops).2.fopenWrite name = some fs') (now : Time) (dummy : K × V) :
    let t := (build _logfile fs ops).1
    let dumped := t.dump ⟨name, 0, true⟩ now dummy fs'
    (dumped.2.read name).length = (1 + t.root.toList.length) * (Pod.sizeof K + Pod.sizeof V) ∧
      records K V (dumped.2.read name) = t.root.toList.map (fun n ↦ (n.key, n.value)) ∧
      (t.root.toList.map Node.key).Pairwise (· < ·) ∧
      (∀ (s : Sys) (fd : ℤ), s.fs = dumped.2 → s.Ok → s.fileOf fd = some name → ∀ k,
        ∃ s', findEntry V fd k s = some ((t.search k).map fun c ↦ c.n.value, s') ∧ s'.Ok ∧
          s'.fs = s.fs ∧ s'.fileOf fd = some name) ∧
      dumped.1.root = t.root := by
  intro t dumped
  obtain ⟨hwf, hlog⟩ := build_spec _logfile fs ops
  have hsz : Pod.sizeof (K × V) = 128 := by rw [Pod.sizeof_prod, hK, hV]
  have hread : dumped.2.read name = t.dumpBytes now := by
    rw [FS.read, content_dump (hlog name hname) hopen]; rfl
  have hrec : records K V (dumped.2.read name) = t.root.toList.map fun n ↦ (n.key, n.value) := by
    rw [hread, records_dumpBytes (by omega), ← Tree.map_record]
    rfl
  refine ⟨?_, hrec, ?_, fun s fd hfs hok hfd k ↦ ?_, root_dump _ _ _ _ _⟩
  · rw [hread, ← bytes_dumpFile (by omega) t hwf now, DataFile.length_bytes, dumpFile]
    simp [Tree.entries, Pod.sizeof_prod]
  · have hasc := List.Pairwise.map Prod.fst (fun _ _ hab ↦ hab) hwf.ascending
      (S := (· < · : K → K → Prop))
    rwa [Tree.entries, List.map_map] at hasc
  · have hasc : Ascending (records K V (s.fs.read name)) := by
      rw [hfs, hread, records_dumpBytes (by omega)]
      exact hwf.ascending.map_snd fun _ w ↦ w.1
    obtain ⟨p, heq, hok', -⟩ := findEntry_eq (by rw [hsz]; decide) hok hfd hasc k
    refine ⟨_, ?_, hok', rfl, hfd⟩
    rw [heq, hfs, hread, fileMap_dumpBytes (by omega) hwf]
    rfl

section FourKeys

open Master (numbered zeroV oneV)

/-- Five changes to four keys. -/
def fourKeys : List (TreeOp Master.K Master.V) :=
  [.insert (numbered 1) zeroV, .insert (numbered 3) zeroV, .insert (numbered 2) oneV, .del (numbered 3) zeroV,
    .insert (numbered 4) oneV]

/-- A disk with a dump of their tree in `file0`, and descriptor 3 open on it. -/
def fourDump : Sys where
  fs := ((build none FS.blank fourKeys).1.dump ⟨"file0", 0, true⟩ (0 : DaySecond) (numbered 0, zeroV)
    (FS.blank.write "file0" [])).2
  fds := [none, none, none, some "file0"]
  pool := Pool.initial

/-- The dump is in the order of the keys, with the tombstone of the deleted one. -/
theorem dump_findEntry_fourKeys :
    records Master.K Master.V (fourDump.fs.read "file0") = [(numbered 1, zeroV), (numbered 2, oneV),
      (numbered 3, tombstone Master.V), (numbered 4, oneV)] ∧
    (∃ s', findEntry Master.V 3 (numbered 2) fourDump = some (some oneV, s')) ∧
    (∃ s', findEntry Master.V 3 (numbered 3) fourDump = some (some (tombstone Master.V), s')) ∧
    ∃ s', findEntry Master.V 3 (numbered 5) fourDump = some (none, s') := by
  obtain ⟨-, hrecords, -, hfind, -⟩ := dump_findEntry Master.sizeof_K Master.sizeof_V none FS.blank fourKeys
    "file0" (by simp) (FS.blank.write "file0" []) rfl (0 : DaySecond) (numbered 0, zeroV)
  have hquiet : fourDump.Quiet := ⟨Pool.ok_initial, fun _ ↦ by simp [fourDump, Pool.initial]⟩
  have hfound : ∀ k, ∃ s', findEntry Master.V 3 k fourDump =
      some ((build none FS.blank fourKeys).1.lookup k, s') := fun k ↦ by
    obtain ⟨s', heq, -⟩ := hfind fourDump 3 rfl hquiet.ok rfl k
    exact ⟨s', heq⟩
  exact ⟨hrecords, hfound (numbered 2), hfound (numbered 3), hfound (numbered 5)⟩

end FourKeys

end BinaryTree

end ScratchStore
