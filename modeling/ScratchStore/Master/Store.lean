import ScratchStore.Bloom.Bloom
import ScratchStore.Core.Merge
import ScratchStore.Core.Read
import ScratchStore.Master.KeyValue
import ScratchStore.RBTree.Replay

/-!
# The store

`Master` of `master.hpp`: a tree that takes the writes, a second tree `reserve` on its way to disk,
a Bloom filter and a ring of `NUMFILES` files, the newest of which is `recent`.

`serve` swaps the trees when the first one is large enough, and then `adjust` makes room in the
ring: it merges the two oldest files into one and writes `reserve` over the other.  `adjust` is a
sequence of operations on files, each of which can be the last one before a crash and between which
other threads run, so each of them is a definition of its own and `adjust` runs them in order.

What is undefined in the source, or ends the program, is `none`, but for two things: what is written
through a stream that is closed gets lost (`FS.fwrite`), and `merge` leaves out three calls on such a
stream.

## What is one operation

The operations of `adjust` are cut where the disk changes: `resize_file`, a stream that is written and closed,
and so on.  Within such an operation no other thread is seen to do anything and no crash happens.  The same
goes for all of `dbwrite`, which is under `memlock` in the source.

`fuel` bounds the loops of `fromFile`, which do not end on every file (`RBTree.Load`); a constructor that runs
out of it returns no store.
-/

set_option autoImplicit false

namespace ScratchStore

namespace Master

open FileIO

/-- `NUMFILES` and `MAX_TREE_SIZE`. -/
abbrev numFiles : ℕ := 10
def maxTreeSize : ℕ := 1024

/-- There are files and backups, so the literals of their numbers have one meaning everywhere. -/
instance neZero_numfiles : NeZero numFiles := ⟨by decide⟩
instance neZero_backups : NeZero 2 := ⟨by decide⟩

/-- The other backup. -/
@[simp] theorem backups_add_one_ne (i : Fin 2) : i + 1 ≠ i := by
  have h : ∀ i : Fin 2, i + 1 ≠ i := by decide
  exact h i

@[simp] theorem backups_ne_add_one (i : Fin 2) : i ≠ i + 1 := (backups_add_one_ne i).symm

/-- There are two backups, so the other one of the other one is the first again. -/
@[simp] theorem backups_add_two (i : Fin 2) : i + 1 + 1 = i := by
  have h : ∀ i : Fin 2, i + 1 + 1 = i := by decide
  exact h i

/-- The files of the store. -/
inductive File where
  | filesys (i : Fin numFiles)
  | backups (i : Fin 2)
  | bloomdump
  | tempfile
deriving DecidableEq

/-- The names the constructor gives them. -/
def File.path : File → String
  | filesys i => "file" ++ toString i.val
  | backups i => "backup" ++ toString i.val
  | bloomdump => "bloomdump"
  | tempfile => "tempfile"

theorem File.path_filesys_injective : ∀ i j, (filesys i).path = (filesys j).path → i = j := by
  decide

theorem File.path_backups_injective : ∀ i j, (backups i).path = (backups j).path → i = j := by
  decide

theorem File.path_filesys_ne : ∀ i j, (filesys i).path ≠ (backups j).path := by decide

theorem File.path_filesys_ne_dump : ∀ i, (filesys i).path ≠ bloomdump.path ∧
    (filesys i).path ≠ tempfile.path := by decide

theorem File.path_backups_ne_dump : ∀ i, (backups i).path ≠ bloomdump.path ∧
    (backups i).path ≠ tempfile.path := by decide

/-- **Different files have different names.** -/
@[simp] theorem File.path_inj {f g : File} : f.path = g.path ↔ f = g := by
  refine ⟨fun h ↦ ?_, fun h ↦ h ▸ rfl⟩
  cases f with
  | filesys i =>
    cases g with
    | filesys j => rw [path_filesys_injective i j h]
    | backups j => exact absurd h (path_filesys_ne i j)
    | bloomdump => exact absurd h (path_filesys_ne_dump i).1
    | tempfile => exact absurd h (path_filesys_ne_dump i).2
  | backups i =>
    cases g with
    | filesys j => exact absurd h.symm (path_filesys_ne j i)
    | backups j => rw [path_backups_injective i j h]
    | bloomdump => exact absurd h (path_backups_ne_dump i).1
    | tempfile => exact absurd h (path_backups_ne_dump i).2
  | bloomdump =>
    cases g with
    | filesys j => exact absurd h.symm (path_filesys_ne_dump j).1
    | backups j => exact absurd h.symm (path_backups_ne_dump j).1
    | bloomdump => rfl
    | tempfile => exact absurd h (by decide)
  | tempfile =>
    cases g with
    | filesys j => exact absurd h.symm (path_filesys_ne_dump j).2
    | backups j => exact absurd h.symm (path_backups_ne_dump j).2
    | bloomdump => exact absurd h (by decide)
    | tempfile => rfl

/-- The members of `Master`, and the system it runs on. -/
structure Store where
  bintree : BinaryTree K V
  reserve : Option (BinaryTree K V)
  bloom : BloomFile
  recent : Fin numFiles
  current : Fin 2
  sys : Sys

namespace Store

/-- The disk. -/
abbrev fs (s : Store) : FS := s.sys.fs

/-- The same store on another disk. -/
def withFS (s : Store) (fs : FS) : Store := { s with sys := { s.sys with fs := fs } }

@[simp] theorem fs_withFS (s : Store) (fs : FS) : (s.withFS fs).fs = fs := rfl
@[simp] theorem withFS_withFS (s : Store) (fs fs' : FS) : (s.withFS fs).withFS fs' = s.withFS fs' := rfl
@[simp] theorem bintree_withFS (s : Store) (fs : FS) : (s.withFS fs).bintree = s.bintree := rfl
@[simp] theorem reserve_withFS (s : Store) (fs : FS) : (s.withFS fs).reserve = s.reserve := rfl
@[simp] theorem bloom_withFS (s : Store) (fs : FS) : (s.withFS fs).bloom = s.bloom := rfl
@[simp] theorem recent_withFS (s : Store) (fs : FS) : (s.withFS fs).recent = s.recent := rfl
@[simp] theorem current_withFS (s : Store) (fs : FS) : (s.withFS fs).current = s.current := rfl

end Store

/-! ## Reading

The files are searched from the newest to the oldest, first eight without a lock and then the two that
`adjust` may be at work on.  Here nobody is at work; `Master.Reader` has the lookups as single steps. -/

/-- `for (int i = start; i != stop; i = (i - 1 + NUMFILES) % NUMFILES)` -/
def slots (i stop : Fin numFiles) : List (Fin numFiles) :=
  if i = stop then [] else i :: slots (i - 1) stop
termination_by (i - stop).val
decreasing_by
  have h : ∀ i stop : Fin numFiles, i ≠ stop → (i - 1 - stop).val < (i - stop).val := by decide
  exact h i stop ‹_›

/-- The body of those loops: look the key up in one file after the other. -/
def scan (k : K) : List (Fin numFiles) → Sys → Option (Option V × Sys)
  | [], sys => some (none, sys)
  | i :: is, sys =>
    (lookupFile V (File.filesys i).path k sys).bind fun (v, sys) ↦
      match v with
      | some v => some (some v, sys)
      | none => scan k is sys

/-- The part of `dbread` under `memlock`: an answer, or `none` when the files have to be searched. -/
def readMemory (k : K) (s : Store) : Option (Option V) :=
  if s.bloom.get k = false then some none
  else
    match s.bintree.search k with
    | some n => some (some n.n.value)
    | none =>
      match s.reserve.bind fun reserve ↦ reserve.search k with
      | some nr => some (some nr.n.value)
      | none => none

/-- `dbread(k, v)`: the value delivered, if any. -/
def dbread (k : K) (s : Store) : Option (Option V × Store) :=
  let r := s.recent
  match readMemory k s with
  | some v => some (v, s)
  | none =>
    (scan k (slots r (r + 2)) s.sys).bind fun (v, sys) ↦
      match v with
      | some v => some (some v, { s with sys := sys })
      | none =>
        (scan k (slots (r + 2) r) sys).map fun (v, sys) ↦ (v, { s with sys := sys })

/-! ## Writing -/

/-- `dbwrite(k, v)`. -/
def dbwrite (k : K) (v : V) (s : Store) : Store :=
  let inserted := s.bintree.insert k v s.fs
  let marked := s.bloom.set k inserted.2
  { s.withFS marked.2 with bintree := inserted.1, bloom := marked.1 }

/-- The test `serve` makes after every line.  The second half of its disjunction subtracts a size
from `this` and compares the pointer with zero, which never holds. -/
def wantsSwap (s : Store) : Bool := decide (maxTreeSize ≤ s.bintree.size) && s.reserve.isNone

/-- What `serve` does when the test holds, before it starts a thread with `adjust`. -/
def swap (s : Store) : Store :=
  let current := s.current + 1
  let fresh := BinaryTree.ofLogFile (File.backups current).path s.fs
  { s.withFS fresh.2 with reserve := some s.bintree, current := current, bintree := fresh.1 }

/-! ## Making room in the ring

The order of the operations is that of the source, and it is what a crash in the middle depends on. -/

/-- What `adjust` finds that is not in the store: the time, and what unset variables hold. -/
structure Env (Time : Type) where
  now : Time
  unset : Uninitialised K V
  dummy : K × V

/-- The operations on files `adjust` is made of. -/
inductive AdjustOp where
  /-- `resize_file(tempfile, 0)` -/
  | emptyTemp
  /-- The second oldest file is copied to `tempfile`. -/
  | copy
  /-- The second oldest file is emptied. -/
  | truncate
  /-- `merge_files(tempfile, oldest, second oldest)` -/
  | merge
  /-- `resize_file(tempfile, 0)` -/
  | emptyTempAgain
  /-- `reserve->dump` to the oldest file -/
  | dump
  /-- The section under `memlock` at the end. -/
  | retire
deriving DecidableEq

variable {Time : Type} [TimeFormat Time]

/-- `filesystem::resize_file(tempfile, 0)` -/
def emptyTemp (s : Store) : Option Store := (s.fs.resizeZero File.tempfile.path).map s.withFS

/-- Copy the second oldest file into `tempfile`. -/
def copy (s : Store) : Option Store :=
  let src := s.fs.read (File.filesys (s.recent + 2)).path
  match s.fs.fopenWrite File.tempfile.path with
  | none => some s
  | some fs => some (s.withFS (fs.write File.tempfile.path src))

/-- `filesystem::resize_file(filesys[(this->recent + 2) % NUMFILES], 0)` -/
def truncate (s : Store) : Option Store :=
  (s.fs.resizeZero (File.filesys (s.recent + 2)).path).map s.withFS

/-- Merge `tempfile` and the oldest file into the second oldest.  After `fclose(newfd)` the source has
`fflush(newfd)` and `fsync(fileno(newfd))`, which are undefined on a closed stream; they are left out, as
calls without an effect. -/
def merge (env : Env Time) (s : Store) : Option Store :=
  (s.fs.content File.tempfile.path).bind fun oldest2 ↦
    (s.fs.content (File.filesys (s.recent + 1)).path).bind fun oldest1 ↦
      (s.fs.fopenWrite (File.filesys (s.recent + 2)).path).map fun fs ↦
        s.withFS (fs.write (File.filesys (s.recent + 2)).path (mergeFiles env.unset oldest2 oldest1))

/-- Dump `reserve` over the oldest file. -/
def dump (env : Env Time) (s : Store) : Option Store :=
  (s.fs.fopenWrite (File.filesys (s.recent + 1)).path).bind fun fs ↦
    s.reserve.map fun reserve ↦
      let dumped :=
        reserve.dump ⟨(File.filesys (s.recent + 1)).path, 0, true⟩ env.now env.dummy fs
      { s.withFS dumped.2 with reserve := some dumped.1 }

/-- The section under `memlock`: update `recent`, clear the old backup and delete `reserve`. -/
def retire (s : Store) : Option Store :=
  let recent := s.recent + 1
  (s.fs.resizeZero (File.backups (s.current + 1)).path).map fun fs ↦
    { s.withFS fs with recent := recent, reserve := none }

/-- One operation. -/
def AdjustOp.run (env : Env Time) (s : Store) : AdjustOp → Option Store
  | .emptyTemp => Master.emptyTemp s
  | .copy => Master.copy s
  | .truncate => Master.truncate s
  | .merge => Master.merge env s
  | .emptyTempAgain => Master.emptyTemp s
  | .dump => Master.dump env s
  | .retire => Master.retire s

/-- The operations in the order `adjust` has them. -/
def adjustOps : List AdjustOp :=
  [.emptyTemp, .copy, .truncate, .merge, .emptyTempAgain, .dump, .retire]

/-- Some of the operations, one after the other. -/
def runOps (env : Env Time) (ops : List AdjustOp) (s : Store) : Option Store :=
  ops.foldlM (AdjustOp.run env) s

/-- `adjust()`. -/
def adjust (env : Env Time) (s : Store) : Option Store := runOps env adjustOps s

/-! ## Starting -/

/-- One round of the constructor's scan of the ring: is the next file older? -/
def nextOlder (Time : Type) [TimeFormat Time] [LinearOrder Time] (fs : FS) (i : Fin numFiles) :
    Option Bool :=
  (fs.fopenRead (File.filesys i).path).bind fun ith ↦
    (fs.fopenRead (File.filesys (i + 1)).path).map fun i1th ↦
      let time_stri := (ith.fread 128).1
      let time_stri1 := (i1th.fread 128).1
      decide ((TimeFormat.mktime time_stri1 : Time) < TimeFormat.mktime time_stri)

/-- The scan: the first file whose successor is older, and otherwise the last one. -/
def ringScan (Time : Type) [TimeFormat Time] [LinearOrder Time] (fs : FS) :
    List (Fin numFiles) → Option (Fin numFiles)
  | [] => some 9
  | i :: is =>
    (nextOlder Time fs i).bind fun older ↦ if older then some i else ringScan Time fs is

/-- One round of the constructor's last loop: load the backup `i` and write it to the ring. -/
def writeBackup (fuel : ℕ) (env : Env Time) (i : Fin 2) (s : Store) : Option Store :=
  let reserve := BinaryTree.ofLogFile File.tempfile.path s.fs
  let s := { s.withFS reserve.2 with current := i + 1 }
  match reserve.1.fromFile fuel env.dummy.2 (File.backups i).path env.now s.fs with
  | .error _ => none
  | .ok loaded => adjust env { s.withFS loaded.2 with reserve := some loaded.1 }

/-- The constructor after its scan has found `recent`.  The two rounds read the clock at different
times. -/
def bootFrom (fuel : ℕ) (env₀ env₁ : Env Time) (recent : Fin numFiles) (sys : Sys) : Option Store :=
  -- the members that are not set yet
  let s : Store := ⟨.empty, none, ⟨[], "", ⟨"", 0, false⟩⟩, recent, 0, sys⟩
  (writeBackup fuel env₀ 0 s).bind fun s ↦
    (writeBackup fuel env₁ 1 s).bind fun s ↦
      let fresh := BinaryTree.ofLogFile (File.backups 0).path s.fs
      (BloomFile.create K File.bloomdump.path false true fresh.2).map fun loaded ↦
        { s.withFS loaded.2 with current := 0, bintree := fresh.1, bloom := loaded.1 }

/-- The constructor.  What it finds with its scan depends on `mktime`; that this gives back the time of a
header is the law of `TimeFormat`, and so a premise of everything about starts. -/
def boot [LinearOrder Time] (fuel : ℕ) (env₀ env₁ : Env Time) (sys : Sys) : Option Store :=
  (ringScan Time sys.fs (List.finRange numFiles)).bind fun recent ↦
    bootFrom fuel env₀ env₁ recent sys

end Master

end ScratchStore
