import ScratchStore.BufferManager.FileIO
import ScratchStore.Lib.Runs

/-!
# The block cache over any calls

Files are opened, read and closed through the cache in any order, and may change while they are not
open.  After any such calls a read delivers the bytes of the file that its handle is open on now:
`calls_transparent`.

Here `evictLRU` makes the write the source makes.  The descriptor was opened read-only, so the write
fails, and the functions are those of `FileIO` (`Sys.fread_eq_fread`).

The invariant is `Transparent`: besides `Sys.Ok`, no two blocks in use are the same block of the same
handle.

`Allowed` is what a program that uses the cache properly keeps to.  A call of `fread` within one block is
all the store makes; that a file does not change while it is open is what the store's locks are for.

Without `Transparent.distinct` a block could be in the cache twice, one copy older than the other, and which of
them a read finds would depend on their places.  It is kept because a block is loaded only on a miss.
-/

set_option autoImplicit false

namespace ScratchStore

namespace FileIO

/-! ## The write of an eviction

`evictLRU` writes a block back before it is used for another one.  The descriptor was opened for reading
only, so this fails, and the source does not look at the result. -/

/-- The access modes of `open`. -/
inductive AccessMode where
  | rdonly
  | rdwr

/-- What `openFile` asks `open` for: `O_RDONLY | O_SYNC`. -/
def openMode : AccessMode := .rdonly

/-- `lseek(fd, offset, SEEK_SET); write(fd, block, BLK_SIZE);` on a descriptor of that mode. -/
def Sys.write (mode : AccessMode) (s : Sys) (fd : ℤ) (offset : ℕ) (block : Bytes) : ℤ × Sys :=
  match s.fileOf fd, mode with
  | some name, .rdwr =>
    (block.length, { s with fs := s.fs.write name (overwrite (s.fs.read name) offset block) })
  | _, _ => (-1, s)

/-- `evictLRU`, with its write. -/
def Sys.evictLRU (s : Sys) : Option (Fin maxBlk × Sys) :=
  s.pool.lruIndexQ.getLast?.map fun toEvict ↦
    let md := s.pool.bufferMetaData toEvict.2
    let (_, s) := s.write openMode md.fileHandle md.offset (s.pool.buffer toEvict.2)
    (toEvict.2, { s with pool := s.pool.forget s.pool.lruIndexQ.dropLast toEvict.2 })

/-- `allocateBlock`, with the write of an eviction. -/
def Sys.allocateBlock (s : Sys) : Option (Fin maxBlk × Sys) :=
  let found := (List.finRange maxBlk).find? fun i ↦ decide ((s.pool.bufferMetaData i).fileHandle < 0)
  let taken := match found with
    | some i => some (i, s)
    | none => s.evictLRU
  taken.map fun (is : Fin maxBlk × Sys) ↦
    (is.1, { is.2 with pool := is.2.pool.pushFront is.2.pool.lruIndexQ is.1 })

/-- `fread`, with the write of an eviction. -/
def Sys.fread (n offset : ℕ) (fileHandle : ℤ) (s : Sys) : Option (ℤ × Bytes × Sys) :=
  match (List.finRange maxBlk).find? (s.pool.holds fileHandle offset) with
  | some i =>
    (memcpy (s.pool.buffer i) (offset - (s.pool.bufferMetaData i).offset) n).bind fun got ↦
      (s.pool.eraseNode i).map fun q ↦ (n, got, { s with pool := s.pool.pushFront q i })
  | none =>
    s.allocateBlock.bind fun (i, s) ↦
      let blkOff := offset - offset % blkSize
      let (num, block) := s.read fileHandle blkOff (s.pool.buffer i)
      (memcpy block (offset - blkOff) n).map fun got ↦
        (num, got, { s with
          pool := { s.pool with
            buffer := Function.update s.pool.buffer i block
            bufferMetaData := Function.update s.pool.bufferMetaData i ⟨fileHandle, blkOff⟩ } })

/-- A write through a descriptor that `openFile` returned fails. -/
theorem Sys.write_openMode (s : Sys) (fd : ℤ) (offset : ℕ) (block : Bytes) :
    s.write openMode fd offset block = (-1, s) := by
  unfold Sys.write openMode
  cases s.fileOf fd <;> rfl

theorem Sys.evictLRU_eq (s : Sys) :
    s.evictLRU = s.pool.evictLRU.map fun ip ↦ (ip.1, { s with pool := ip.2 }) := by
  rw [Sys.evictLRU, Pool.evictLRU, Option.map_map]
  refine congrArg (fun f ↦ s.pool.lruIndexQ.getLast?.map f) (funext fun toEvict ↦ ?_)
  dsimp only
  rw [Sys.write_openMode]
  rfl

theorem Sys.allocateBlock_eq (s : Sys) :
    s.allocateBlock = s.pool.allocateBlock.map fun ip ↦ (ip.1, { s with pool := ip.2 }) := by
  rw [Sys.allocateBlock, Pool.allocateBlock]
  dsimp only
  cases (List.finRange maxBlk).find? fun i ↦ decide ((s.pool.bufferMetaData i).fileHandle < 0) with
  | some i => rfl
  | none =>
    dsimp only
    rw [Sys.evictLRU_eq, Option.map_map, Option.map_map]
    rfl

/-- **The write of an eviction has no effect.** -/
theorem Sys.fread_eq_fread (n offset : ℕ) (fd : ℤ) (s : Sys) :
    s.fread n offset fd = FileIO.fread n offset fd s := by
  unfold Sys.fread FileIO.fread
  cases (List.finRange maxBlk).find? (s.pool.holds fd offset) with
  | some i => rfl
  | none =>
    dsimp only
    rw [Sys.allocateBlock_eq, Option.bind_map]
    rfl

/-! ## Calls -/

/-- A call of the cache, or a change of a file from outside. -/
inductive Call where
  | openFile (filePath : String)
  | fread (n offset : ℕ) (fileHandle : ℤ)
  | closeFile (fileHandle : ℤ)
  /-- Somebody else writes the file, or removes it. -/
  | change (name : String) (content : Option Bytes)

/-- A file gets new contents, or is removed. -/
def changed (fs : FS) (name : String) (content : Option Bytes) : FS :=
  { fs with content := Function.update fs.content name content }

/-- The state after a call. -/
def step (s : Sys) : Call → Option Sys
  | .openFile filePath => some (openFile filePath s).2
  | .fread n offset fileHandle => (s.fread n offset fileHandle).map fun x ↦ x.2.2
  | .closeFile fileHandle => closeFile fileHandle s
  | .change name content => some { s with fs := changed s.fs name content }

theorem step_fread (s : Sys) (n offset : ℕ) (fileHandle : ℤ) :
    step s (.fread n offset fileHandle) = (fread n offset fileHandle s).map fun x ↦ x.2.2 := by
  rw [step, Sys.fread_eq_fread]

theorem pool_openFile (filePath : String) (s : Sys) : (openFile filePath s).2.pool = s.pool := by
  unfold openFile
  split <;> rfl

/-- The calls a program may make: it opens files that are there, reads within a block and closes
what is open.  A file that is open does not change. -/
def Allowed (s : Sys) : Call → Prop
  | .openFile filePath => (s.fs.content filePath).isSome
  | .fread n offset fileHandle => (s.fileOf fileHandle).isSome ∧ offset % blkSize + n ≤ blkSize
  | .closeFile fileHandle => (s.fileOf fileHandle).isSome
  | .change name _ => ∀ fd, s.fileOf fd ≠ some name

/-- What a call does to the files. -/
def noteChange (fs : FS) : Call → FS
  | .change name content => changed fs name content
  | _ => fs

/-- No two blocks in use are the same block of the same handle. -/
def Pool.Distinct (p : Pool) : Prop :=
  ∀ i j, 0 ≤ (p.bufferMetaData i).fileHandle → p.bufferMetaData i = p.bufferMetaData j → i = j

/-- The invariant of the cache. -/
structure Transparent (s : Sys) : Prop where
  ok : s.Ok
  distinct : s.pool.Distinct

/-! ## What each call keeps -/

theorem Chosen.fill_distinct {s : Sys} {md : BlkMetaData} {i : Fin maxBlk} {p₁ : Pool}
    {q : List (ℕ × Fin maxBlk)} {block : Bytes} (hc : Chosen s md i p₁ q block)
    (h : s.pool.Distinct) (hmd : 0 ≤ md.fileHandle) : (p₁.fill q i md block).Distinct := by
  -- only the chosen block can be this one
  have hself : ∀ j, s.pool.bufferMetaData j = md → j = i := by
    intro j hj
    cases hc with
    | hit node hused hmd' hnode => exact h j i (hj ▸ hused) (hj.trans hmd'.symm)
    | load p₁ hmiss hv => exact absurd (hmiss j hj) (not_lt.mpr hmd)
  intro j k hused heq
  rw [hc.fill_metaData] at hused heq
  rw [hc.fill_metaData] at heq
  split_ifs at hused heq with hj hk hk
  · rw [hj, hk]
  · exact absurd (hself k heq.symm) hk
  · exact absurd (hself j heq) hj
  · exact h j k hused heq

theorem Transparent.openFile {s : Sys} (h : Transparent s) {filePath : String}
    (hfile : (s.fs.content filePath).isSome) : Transparent (openFile filePath s).2 := by
  obtain ⟨bs, hbs⟩ := Option.isSome_iff_exists.mp hfile
  obtain ⟨fd, fds, heq, hok, -⟩ := openFile_eq h.ok hbs
  rw [heq]
  exact ⟨hok, h.distinct⟩

/-- A read within a block goes through, wherever the file ends. -/
theorem Transparent.fread {s : Sys} (h : Transparent s) {fd : ℤ} {name : String}
    (hfd : s.fileOf fd = some name) {n offset : ℕ} (hblk : offset % blkSize + n ≤ blkSize) :
    ∃ r bs p, FileIO.fread n offset fd s = some (r, bs, { s with pool := p }) ∧
      Transparent { s with pool := p } := by
  obtain ⟨r, i, p₁, q, block, hc, -, heq⟩ := fread_spec h.ok.pool h.ok.aligned fd n offset
  rw [hc.memcpy_eq h.ok.pool hblk, Option.map_some] at heq
  exact ⟨r, _, _, heq, hc.sys_ok h.ok hfd (Nat.dvd_sub_mod offset),
    hc.fill_distinct h.distinct (Sys.fileOf_nonneg hfd)⟩

/-- Closing a handle leaves no block of it. -/
theorem Transparent.closeFile {s : Sys} (h : Transparent s) {fd : ℤ} (hfd : 0 ≤ fd) :
    ∃ s', FileIO.closeFile fd s = some s' ∧ Transparent s' ∧
      ∀ i, (s'.pool.bufferMetaData i).fileHandle ≠ fd := by
  obtain ⟨s', heq, hok, -, hne, -⟩ := closeFile_eq h.ok hfd
  obtain ⟨p, hp, -, -, hmd, -⟩ := closeFile_spec h.ok.pool hfd
  refine ⟨s', heq, ⟨hok, fun i j hused hij ↦ ?_⟩, hne⟩
  cases hp.symm.trans heq
  dsimp only at hused hij
  rw [hmd i] at hused hij
  rw [hmd j] at hij
  have hi : ¬(s.pool.bufferMetaData i).fileHandle = fd := fun hi ↦ by simp [hi] at hused
  rw [if_neg hi] at hused hij
  by_cases hj : (s.pool.bufferMetaData j).fileHandle = fd
  · rw [if_pos hj] at hij
    simp [hij] at hused
  · rw [if_neg hj] at hij
    exact h.distinct i j hused hij

/-- A file that no handle is open on may change. -/
theorem Transparent.change {s : Sys} (h : Transparent s) {name : String} (content : Option Bytes)
    (hname : ∀ fd, s.fileOf fd ≠ some name) :
    Transparent { s with fs := changed s.fs name content } where
  ok := by
    refine ⟨h.ok.pool, fun i hi ↦ ?_⟩
    obtain ⟨hdvd, other, hother, hpre⟩ := h.ok.coherent i hi
    have hne : other ≠ name := fun hn ↦ hname _ (hn ▸ hother)
    have hread : (changed s.fs name content).read other = s.fs.read other := by
      rw [FS.read, FS.read, changed]
      dsimp only
      rw [Function.update_of_ne hne]
    refine ⟨hdvd, other, hother, ?_⟩
    rwa [hread]
  distinct := h.distinct

/-- **Every allowed call** goes through and keeps the invariant. -/
theorem Transparent.step {s : Sys} (h : Transparent s) {c : Call} (hc : Allowed s c) :
    ∃ s', FileIO.step s c = some s' ∧ Transparent s' := by
  cases c with
  | openFile filePath => exact ⟨_, rfl, h.openFile hc⟩
  | fread n offset fd =>
    obtain ⟨name, hname⟩ := Option.isSome_iff_exists.mp hc.1
    obtain ⟨r, bs, p, heq, hp⟩ := h.fread hname hc.2
    exact ⟨_, by rw [step_fread, heq, Option.map_some], hp⟩
  | closeFile fd =>
    obtain ⟨name, hname⟩ := Option.isSome_iff_exists.mp hc
    obtain ⟨s', heq, hs', -⟩ := h.closeFile (Sys.fileOf_nonneg hname)
    exact ⟨s', heq, hs'⟩
  | change name content => exact ⟨_, rfl, h.change content hc⟩

/-- Calls of the cache change no file. -/
theorem fs_step {s : Sys} {c : Call} {s' : Sys} (h : FileIO.step s c = some s') :
    s'.fs = noteChange s.fs c := by
  cases c with
  | openFile filePath =>
    cases h
    rw [openFile]
    split <;> rfl
  | fread n offset fd =>
    rw [step, Sys.fread_eq_fread] at h
    obtain ⟨x, hx, rfl⟩ := Option.map_eq_some_iff.mp h
    unfold FileIO.fread at hx
    split at hx
    · obtain ⟨got, -, hx⟩ := Option.bind_eq_some_iff.mp hx
      obtain ⟨q, -, rfl⟩ := Option.map_eq_some_iff.mp hx
      rfl
    · obtain ⟨⟨i, p⟩, -, hx⟩ := Option.bind_eq_some_iff.mp hx
      obtain ⟨got, -, rfl⟩ := Option.map_eq_some_iff.mp hx
      rfl
  | closeFile fd =>
    unfold step closeFile at h
    obtain ⟨p, -, rfl⟩ := Option.map_eq_some_iff.mp h
    rfl
  | change name content =>
    cases h
    rfl

theorem transparent_initial (fs : FS) (fds : List (Option String)) :
    Transparent ⟨fs, fds, Pool.initial⟩ where
  ok := ⟨Pool.ok_initial, fun i hi ↦ absurd hi (by simp [Pool.initial])⟩
  distinct i j hi := absurd hi (by simp [Pool.initial])

/-- **The block cache is transparent.**  From a process without open files, any calls go through.
Then the files are what the changes from outside made of them; every block in use has the bytes of
the file its handle is open on, and no other block in use is the same; a read inside the file and
inside one block delivers the bytes that are there; and closing a handle leaves no block with its
number for a later one. -/
theorem calls_transparent (fs : FS) (calls : List Call)
    (h : Runs.Along step Allowed ⟨fs, [], Pool.initial⟩ calls) :
    ∃ s, Runs.run step ⟨fs, [], Pool.initial⟩ calls = some s ∧ s.fs = calls.foldl noteChange fs ∧
      (∀ i, 0 ≤ (s.pool.bufferMetaData i).fileHandle →
        ∃ name, s.fileOf (s.pool.bufferMetaData i).fileHandle = some name ∧
          ((s.fs.read name).drop (s.pool.bufferMetaData i).offset).take blkSize <+: s.pool.buffer i) ∧
      (∀ i j, 0 ≤ (s.pool.bufferMetaData i).fileHandle →
        s.pool.bufferMetaData i = s.pool.bufferMetaData j → i = j) ∧
      (∀ fd name n offset, s.fileOf fd = some name → offset + n ≤ (s.fs.read name).length →
        offset % blkSize + n ≤ blkSize →
        ∃ r s', s.fread n offset fd = some (r, ((s.fs.read name).drop offset).take n, s') ∧
          s'.fs = s.fs) ∧
      ∀ fd, (s.fileOf fd).isSome →
        ∃ s', closeFile fd s = some s' ∧ ∀ i, (s'.pool.bufferMetaData i).fileHandle ≠ fd := by
  obtain ⟨s, hrun, hs⟩ := Runs.run_total_along (fun s c hs hc _ ↦ hs.step hc)
    (transparent_initial fs []) h
  refine ⟨s, hrun, Runs.run_foldl (fun _ _ _ ↦ fs_step) hrun,
    fun i hi ↦ (hs.ok.coherent i hi).2, hs.distinct, fun fd name n offset hfd hfile hblk ↦ ?_,
    fun fd hfd ↦ ?_⟩
  · obtain ⟨r, p, heq, -, -⟩ := fread_eq hs.ok hfd hblk hfile
    exact ⟨r, _, (s.fread_eq_fread n offset fd).trans heq, rfl⟩
  · obtain ⟨name, hname⟩ := Option.isSome_iff_exists.mp hfd
    obtain ⟨s', heq, -, hne⟩ := hs.closeFile (Sys.fileOf_nonneg hname)
    exact ⟨s', heq, hne⟩

/-- Two bytes of a file of three, read through a handle that was just opened. -/
theorem calls_transparent_read :
    ∃ s, Runs.run step ⟨FS.blank.write "file0" [1, 2, 3], [], Pool.initial⟩ [.openFile "file0"] = some s ∧
      ∃ r s', s.fread 2 1 0 = some (r, [2, 3], s') ∧ s'.fs = s.fs := by
  have halong : Runs.Along step Allowed ⟨FS.blank.write "file0" [1, 2, 3], [], Pool.initial⟩
      [.openFile "file0"] := ⟨rfl, fun _ _ ↦ trivial⟩
  obtain ⟨s, hrun, -, -, -, hread, -⟩ := calls_transparent _ _ halong
  refine ⟨s, hrun, ?_⟩
  have hs : s.fileOf 0 = some "file0" ∧ s.fs.read "file0" = [1, 2, 3] := by
    cases hrun
    exact ⟨rfl, rfl⟩
  obtain ⟨r, s', heq, hfs⟩ := hread 0 "file0" 2 1 hs.1 (by rw [hs.2]; decide) (by decide)
  rw [hs.2] at heq
  exact ⟨r, s', heq, hfs⟩

end FileIO

end ScratchStore
