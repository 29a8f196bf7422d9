import Mathlib.Logic.Function.Basic
import ScratchStore.Lib.Pod

/-!
# The C library the store runs on

Files are byte strings under names.  `FS` is the disk, `RFile` a stream opened `"rb"` (its bytes,
position and end-of-file flag), `WFile` a stream opened `"wb"` (the name it writes to and its own
position, which does not move when somebody else truncates the file).

Streams are modelled as the program sees them: `fread` sets `feof` only when it runs into the end
of the file, and leaves the part of the buffer it could not fill as it was.  Every write of the
program is followed by an `fflush` before anybody looks at the file, so a write reaches the disk
at once.

The clock is a parameter: `TimeFormat Time` is `strftime` and `mktime ∘ strptime` for
`TIME_FMT`, which round-trip whole seconds.

## What is left out

* Two streams on one file share nothing but the file.  A stream has a buffer of its own in the source; with an
  `fflush` after every write it is empty whenever somebody else looks.
* A disk may refuse to create a file (`FS.writable`), but it never runs full, and what was written is there
  after a crash.
* Names are just strings.  The store never links or renames a file, so that two names are never one file.
-/

set_option autoImplicit false

namespace ScratchStore

/-! ## The disk -/

/-- The files on disk, and the names `fopen(…, "wb")` is allowed to create or truncate. -/
structure FS where
  content : String → Option Bytes
  writable : String → Bool

namespace FS

variable (fs : FS)

/-- The bytes of a file that is there. -/
def read (name : String) : Bytes := (fs.content name).getD []

/-- Replace the bytes of a file. -/
def write (name : String) (bs : Bytes) : FS :=
  { fs with content := Function.update fs.content name (some bs) }

@[simp] theorem content_write_self (name : String) (bs : Bytes) :
    (fs.write name bs).content name = some bs := Function.update_self ..

@[simp] theorem write_write (name : String) (bs bs' : Bytes) :
    (fs.write name bs).write name bs' = fs.write name bs' := by
  simp [write, Function.update_idem]

@[simp] theorem read_write_self (name : String) (bs : Bytes) :
    (fs.write name bs).read name = bs := by simp [read]

variable {fs}

theorem content_write_of_ne {name other : String} (h : other ≠ name) (bs : Bytes) :
    (fs.write name bs).content other = fs.content other := Function.update_of_ne h _ _

/-- Writes to different files commute. -/
theorem write_comm {name other : String} (h : name ≠ other) (bs bs' : Bytes) :
    (fs.write name bs).write other bs' = (fs.write other bs').write name bs := by
  simp only [write, Function.update_comm h]

/-- A write removes no file. -/
theorem isSome_write {name other : String} {bs : Bytes} (h : (fs.content other).isSome) :
    ((fs.write name bs).content other).isSome := by
  by_cases hn : other = name
  · rw [hn, content_write_self]; rfl
  · rwa [content_write_of_ne hn]

@[simp] theorem writable_write (name : String) (bs : Bytes) :
    (fs.write name bs).writable = fs.writable := rfl

variable (fs)

/-- `filesystem::resize_file(name, 0)`, which throws when the file is not there. -/
def resizeZero (name : String) : Option FS := (fs.content name).map fun _ ↦ fs.write name []

/-- `fopen(name, "wb")`: the file is created or emptied. -/
def fopenWrite (name : String) : Option FS := if fs.writable name then some (fs.write name []) else none

/-- A disk without files, on which every file can be created. -/
def blank : FS := ⟨fun _ ↦ none, fun _ ↦ true⟩

end FS

/-! ## Streams opened for reading

A stream for reading has the bytes the file had when it was opened, the position, and whether the end
was met. -/

/-- A stream opened `"rb"`. -/
structure RFile where
  data : Bytes
  pos : ℕ
  eof : Bool

/-- `fopen(name, "rb")`. -/
def FS.fopenRead (fs : FS) (name : String) : Option RFile :=
  (fs.content name).map fun data ↦ ⟨data, 0, false⟩

namespace RFile

/-- Read up to `n` bytes. -/
def fread (f : RFile) (n : ℕ) : Bytes × RFile :=
  let got := (f.data.drop f.pos).take n
  (got, { f with pos := f.pos + got.length, eof := f.eof || decide (got.length < n) })

/-- `fread(&x, sizeof x, 1, f)`: what could not be read keeps the bytes `old` had. -/
def freadInto {α : Type} [Pod α] (f : RFile) (old : α) : α × RFile :=
  let (got, f') := f.fread (Pod.sizeof α)
  (Pod.ofBytes (got ++ (Pod.toBytes old).drop got.length), f')

/-- `fseek(f, d, SEEK_CUR)`; seeking before the start fails and moves nothing. -/
def fseekCur (f : RFile) (d : ℤ) : RFile :=
  if f.pos + d < 0 then f else { f with pos := (f.pos + d).toNat, eof := false }

/-- `fread(buff, n, 1, f)` into a buffer of bytes. -/
def freadBuf (f : RFile) (n : ℕ) (buff : Bytes) : Bytes × RFile :=
  let (got, f') := f.fread n
  (got ++ buff.drop got.length, f')

/-- What is left to read. -/
def rest (f : RFile) : Bytes := f.data.drop f.pos

variable {f : RFile}

theorem fseekCur_forward (f : RFile) (d : ℕ) :
    f.fseekCur d = { f with pos := f.pos + d, eof := false } := by
  rw [fseekCur, if_neg (by omega)]
  rfl

theorem fseekCur_back {d : ℕ} (h : d ≤ f.pos) :
    f.fseekCur (-(d : ℤ)) = { f with pos := f.pos - d, eof := false } := by
  rw [fseekCur, if_neg (by omega), show ((f.pos : ℤ) + -(d : ℤ)).toNat = f.pos - d by omega]

/-- Reading what is there. -/
theorem fread_of_rest {bs tail : Bytes} (h : f.rest = bs ++ tail) :
    f.fread bs.length = (bs, { f with pos := f.pos + bs.length }) := by
  have hd : f.data.drop f.pos = bs ++ tail := h
  simp [fread, hd]

/-- Running into the end of the file. -/
theorem fread_of_short {n : ℕ} (h : f.rest.length < n) :
    f.fread n = (f.rest, { f with pos := f.pos + f.rest.length, eof := true }) := by
  have ht : (f.data.drop f.pos).take n = f.rest := List.take_of_length_le (Nat.le_of_lt h)
  simp only [fread, ht, h, decide_true, Bool.or_true]

theorem rest_advance {bs tail : Bytes} (h : f.rest = bs ++ tail) (eof : Bool) :
    RFile.rest { f with pos := f.pos + bs.length, eof := eof } = tail := by
  have hd : f.data.drop f.pos = bs ++ tail := h
  rw [rest, ← List.drop_drop, hd, List.drop_left]

end RFile

/-! ## Streams opened for writing -/

/-- A stream opened `"wb"`. -/
structure WFile where
  name : String
  pos : ℕ
  isOpen : Bool

/-- Put `new` into `old` at position `pos`; a gap before `pos` reads as zeros. -/
def overwrite (old : Bytes) (pos : ℕ) (new : Bytes) : Bytes :=
  old.take pos ++ List.replicate (pos - old.length) 0 ++ new ++ old.drop (pos + new.length)

@[simp] theorem overwrite_length (old new : Bytes) : overwrite old old.length new = old ++ new := by
  simp [overwrite]

/-- `fwrite` followed by `fflush`.  Writing through a stream that was closed is undefined in the source.  Here
it is not `none`: nothing reaches the disk and the run goes on, so that a run with such a write can be
looked at (`RBTree.LogHandle`).  Results about a tree that is loaded or dumped are meant for a log that is
open, or for none. -/
def FS.fwrite (fs : FS) (f : WFile) (bs : Bytes) : FS × WFile :=
  if f.isOpen then
    (fs.write f.name (overwrite (fs.read f.name) f.pos bs), { f with pos := f.pos + bs.length })
  else (fs, f)

/-- A stream that has written everything there is in its file. -/
def WFile.AtEnd (f : WFile) (fs : FS) : Prop :=
  f.isOpen = true ∧ ∃ bs, fs.content f.name = some bs ∧ f.pos = bs.length

theorem FS.fwrite_of_atEnd {fs : FS} {f : WFile} (h : f.AtEnd fs) (bs : Bytes) :
    fs.fwrite f bs =
      (fs.write f.name (fs.read f.name ++ bs), { f with pos := f.pos + bs.length }) := by
  obtain ⟨hopen, old, hold, hpos⟩ := h
  have hread : fs.read f.name = old := by rw [FS.read, hold]; rfl
  rw [FS.fwrite, if_pos hopen, hread, hpos, overwrite_length]

theorem FS.fwrite_write_of_ne (fs : FS) {f : WFile} {name : String} (h : f.name ≠ name)
    (bs bs' : Bytes) :
    (fs.write name bs').fwrite f bs = ((fs.fwrite f bs).1.write name bs', (fs.fwrite f bs).2) := by
  have hread : (fs.write name bs').read f.name = fs.read f.name := by
    rw [FS.read, FS.read, FS.content_write_of_ne h]
  rw [FS.fwrite, FS.fwrite]
  split_ifs
  · rw [hread, FS.write_comm h.symm]
  · rfl

/-! ## The clock -/

/-- The bytes of an ASCII string. -/
def ascii (s : String) : Bytes := s.toList.map fun c ↦ UInt8.ofNat c.toNat

/-- `strftime` and `mktime ∘ strptime` with `TIME_FMT`, `"%Y-%m-%d.%X"`: nineteen characters that
can be read back whatever follows them.  That a time reads back as it was written is an assumption on the
`struct tm` that is passed to `mktime`: the source never sets its `tm_isdst`, and where that makes a
difference of an hour to some of the times the law does not hold. -/
class TimeFormat (Time : Type) where
  strftime : Time → String
  mktime : Bytes → Time
  length_strftime : ∀ t, (ascii (strftime t)).length = 19
  mktime_strftime : ∀ t pad, mktime (ascii (strftime t) ++ pad) = t

end ScratchStore
