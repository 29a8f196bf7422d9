import Mathlib.Data.List.FinRange
import ScratchStore.Stdio

/-!
# The block cache

`FileIO` of `BufferManager/FileIO.hpp`: files are opened read-only and read through `MAX_BLK`
blocks of `BLK_SIZE` bytes, the least recently used of which is evicted when none is free.  A
block is free when its file handle is negative.

An iterator into `lruIndexQ` is the number of the node it points to, so erasing through an
iterator that was never set or was invalidated can be told apart: it is undefined, and so is
reading past the end of a block.  Undefined behaviour is `none`.

`Pool.Ok` says that the queue and the map of iterators agree with the blocks in use, and `Sys.Ok`
that besides every block in use has the bytes of a file that is open.  In such a state nothing is
undefined, and `fread_eq` shows that a read inside one block delivers the bytes of the file.

## Where the source and its comments differ

The header promises that closing a file flushes it and that files are open for reading and writing.
They are opened `O_RDONLY`, the flush is commented out, and the write of an eviction fails and is not looked
at.  `BufferManager.Calls` has that write in it and shows that nothing depends on it.

## How a read goes

`Chosen` is the case distinction every proof about `fread` starts from: the block is in the cache, or a free
one is loaded, or the one at the end of the queue is evicted and loaded.  `fread_spec` says that one of them
happens and what the pool is after it, and the lemmas about `Chosen` say what the three have in common.
-/

set_option autoImplicit false

namespace ScratchStore

/-- `BLK_SIZE` and `MAX_BLK`. -/
def blkSize : ℕ := 8 * 1024
def maxBlk : ℕ := 1024

/-- Which part of which file a block holds. -/
structure BlkMetaData where
  fileHandle : ℤ
  offset : ℕ

namespace FileIO

/-- The static members of `FileIO`. -/
structure Pool where
  buffer : Fin maxBlk → Bytes
  bufferMetaData : Fin maxBlk → BlkMetaData
  /-- The nodes of the list with the block indices they hold, most recently used first. -/
  lruIndexQ : List (ℕ × Fin maxBlk)
  lruIndexMap : Fin maxBlk → Option ℕ
  /-- The number of the next node. -/
  nextNode : ℕ

namespace Pool

/-- The members as they are initialised. -/
def initial : Pool where
  buffer _ := List.replicate blkSize 0
  bufferMetaData _ := ⟨-1, 0⟩
  lruIndexQ := []
  lruIndexMap _ := none
  nextNode := 0

/-- `lruIndexQ.erase(lruIndexMap[i])`. -/
def eraseNode (p : Pool) (i : Fin maxBlk) : Option (List (ℕ × Fin maxBlk)) :=
  (p.lruIndexMap i).bind fun node ↦
    if p.lruIndexQ.any (·.1 = node) then some (p.lruIndexQ.filter (·.1 ≠ node)) else none

/-- `lruIndexQ.push_front(i); lruIndexMap[i] = lruIndexQ.begin();` -/
def pushFront (p : Pool) (q : List (ℕ × Fin maxBlk)) (i : Fin maxBlk) : Pool :=
  { p with
    lruIndexQ := (p.nextNode, i) :: q
    lruIndexMap := Function.update p.lruIndexMap i (some p.nextNode)
    nextNode := p.nextNode + 1 }

/-- Block `i` is made free, and leaves the queue `q` for good. -/
def forget (p : Pool) (q : List (ℕ × Fin maxBlk)) (i : Fin maxBlk) : Pool :=
  { p with
    bufferMetaData := Function.update p.bufferMetaData i ⟨-1, 0⟩
    lruIndexQ := q
    lruIndexMap := Function.update p.lruIndexMap i none }

/-- `evictLRU`.  The handle was opened read-only, so the write it attempts fails. -/
def evictLRU (p : Pool) : Option (Fin maxBlk × Pool) :=
  p.lruIndexQ.getLast?.map fun toEvict ↦ (toEvict.2, p.forget p.lruIndexQ.dropLast toEvict.2)

/-- `allocateBlock`. -/
def allocateBlock (p : Pool) : Option (Fin maxBlk × Pool) :=
  let found := (List.finRange maxBlk).find? fun i ↦ decide ((p.bufferMetaData i).fileHandle < 0)
  let taken := match found with
    | some i => some (i, p)
    | none => p.evictLRU
  taken.map fun (ip : Fin maxBlk × Pool) ↦ (ip.1, ip.2.pushFront ip.2.lruIndexQ ip.1)

end Pool

/-- The disk, the file descriptors of the process and the cache. -/
structure Sys where
  fs : FS
  fds : List (Option String)
  pool : Pool

/-- The file a descriptor is open on. -/
def Sys.fileOf (s : Sys) (fd : ℤ) : Option String := if fd < 0 then none else (s.fds[fd.toNat]?).join

/-- `lseek(fd, offset, SEEK_SET); read(fd, block, BLK_SIZE);` -/
def Sys.read (s : Sys) (fd : ℤ) (offset : ℕ) (block : Bytes) : ℤ × Bytes :=
  match s.fileOf fd with
  | none => (-1, block)
  | some name =>
    let got := ((s.fs.read name).drop offset).take blkSize
    (got.length, got ++ block.drop got.length)

/-- `openFile`: the lowest free descriptor, or -1. -/
def openFile (filePath : String) (s : Sys) : ℤ × Sys :=
  match s.fs.content filePath with
  | none => (-1, s)
  | some _ =>
    let fd := s.fds.findIdx Option.isNone
    (fd, { s with
      fds := if fd < s.fds.length then s.fds.set fd (some filePath) else s.fds ++ [some filePath] })

/-- The loop of `closeFile`, over the blocks `is`. -/
def closeBlocks (fileHandle : ℤ) (is : List (Fin maxBlk)) (p : Pool) : Option Pool :=
  is.foldlM (fun p i ↦
    if (p.bufferMetaData i).fileHandle = fileHandle then (p.eraseNode i).map fun q ↦ p.forget q i
    else some p) p

/-- `closeFile`. -/
def closeFile (fileHandle : ℤ) (s : Sys) : Option Sys :=
  (closeBlocks fileHandle (List.finRange maxBlk) s.pool).map fun p ↦
    { s with pool := p, fds := if fileHandle < 0 then s.fds else s.fds.set fileHandle.toNat none }

/-- `fsize`; `fstat` fills in nothing for a descriptor that is not open. -/
def fsize (fileHandle : ℤ) (s : Sys) : Option ℕ :=
  (s.fileOf fileHandle).map fun name ↦ (s.fs.read name).length

/-- `memcpy(ptr, block + pos, n)`. -/
def memcpy (block : Bytes) (pos n : ℕ) : Option Bytes :=
  if pos + n ≤ block.length then some ((block.drop pos).take n) else none

/-- Block `i` is in use for `fileHandle` and reaches over `offset`. -/
def Pool.holds (p : Pool) (fileHandle : ℤ) (offset : ℕ) (i : Fin maxBlk) : Bool :=
  decide (¬((p.bufferMetaData i).fileHandle < 0 ∨ (p.bufferMetaData i).fileHandle ≠ fileHandle) ∧
    ¬(offset < (p.bufferMetaData i).offset ∨ (p.bufferMetaData i).offset + blkSize ≤ offset))

/-- `fread` of `n` bytes: its return value, and the bytes it puts at `ptr`. -/
def fread (n offset : ℕ) (fileHandle : ℤ) (s : Sys) : Option (ℤ × Bytes × Sys) :=
  match (List.finRange maxBlk).find? (s.pool.holds fileHandle offset) with
  | some i =>
    (memcpy (s.pool.buffer i) (offset - (s.pool.bufferMetaData i).offset) n).bind fun got ↦
      (s.pool.eraseNode i).map fun q ↦ (n, got, { s with pool := s.pool.pushFront q i })
  | none =>
    s.pool.allocateBlock.bind fun (i, p) ↦
      let blkOff := offset - offset % blkSize
      let (num, block) := s.read fileHandle blkOff (p.buffer i)
      (memcpy block (offset - blkOff) n).map fun got ↦
        (num, got, { s with
          pool := { p with
            buffer := Function.update p.buffer i block
            bufferMetaData := Function.update p.bufferMetaData i ⟨fileHandle, blkOff⟩ } })

/-- The block a read uses: the one that reaches over `offset`, or one that is to be had. -/
def usedBlock (offset : ℕ) (fileHandle : ℤ) (s : Sys) : Option (Fin maxBlk) :=
  match (List.finRange maxBlk).find? (s.pool.holds fileHandle offset) with
  | some i => some i
  | none => s.pool.allocateBlock.map Prod.fst

/-! ## The queue and the map of iterators

`Pool.Ok` ties the three structures together that the source keeps by hand: the queue, the map from
blocks to places in it, and the handles in the metadata.  Each primitive is one lemma about it, and
every erase finds its node. -/

namespace Pool

/-- What every operation keeps. -/
structure Ok (p : Pool) : Prop where
  length_buffer : ∀ i, (p.buffer i).length = blkSize
  /-- The blocks in use are the ones that have an iterator. -/
  inUse_iff : ∀ i, 0 ≤ (p.bufferMetaData i).fileHandle ↔ (p.lruIndexMap i).isSome
  /-- The iterators point at the nodes of the queue. -/
  mem_iff : ∀ i node, p.lruIndexMap i = some node ↔ (node, i) ∈ p.lruIndexQ
  nodup : (p.lruIndexQ.map Prod.fst).Nodup
  node_lt : ∀ x ∈ p.lruIndexQ, x.1 < p.nextNode

theorem ok_initial : initial.Ok where
  length_buffer _ := List.length_replicate
  inUse_iff _ := by simp [initial]
  mem_iff _ _ := by simp [initial]
  nodup := List.nodup_nil
  node_lt := by simp [initial]

variable {p : Pool}

/-- A node of the queue belongs to one block. -/
theorem Ok.eq_of_node (h : p.Ok) {node : ℕ} {i j : Fin maxBlk} (hi : (node, i) ∈ p.lruIndexQ)
    (hj : (node, j) ∈ p.lruIndexQ) : i = j := by
  have hinj := List.inj_on_of_nodup_map h.nodup hi hj rfl
  exact congrArg Prod.snd hinj

/-- Erasing through the iterator of a block in use. -/
theorem Ok.eraseNode_eq (h : p.Ok) {i : Fin maxBlk} {node : ℕ} (hi : p.lruIndexMap i = some node) :
    p.eraseNode i = some (p.lruIndexQ.filter (·.1 ≠ node)) := by
  have hmem : (node, i) ∈ p.lruIndexQ := (h.mem_iff i node).mp hi
  rw [eraseNode, hi, Option.bind_some, if_pos (List.any_eq_true.mpr ⟨_, hmem, by simp⟩)]

theorem Ok.mem_filter (h : p.Ok) {i j : Fin maxBlk} {node n : ℕ} (hi : p.lruIndexMap i = some node) :
    (n, j) ∈ p.lruIndexQ.filter (·.1 ≠ node) ↔ p.lruIndexMap j = some n ∧ j ≠ i := by
  have hmem : (node, i) ∈ p.lruIndexQ := (h.mem_iff i node).mp hi
  rw [List.mem_filter, h.mem_iff]
  simp only [ne_eq, decide_not, Bool.not_eq_eq_eq_not, Bool.not_true, decide_eq_false_iff_not]
  refine and_congr_right fun hj ↦ not_congr ⟨fun hn ↦ h.eq_of_node hj (hn ▸ hmem), fun hji ↦ ?_⟩
  subst hji
  exact Option.some.inj (((h.mem_iff j n).mpr hj).symm.trans hi)

/-- Forgetting a block, when `q` is the rest of the queue. -/
theorem Ok.forget (h : p.Ok) {i : Fin maxBlk} {q : List (ℕ × Fin maxBlk)}
    (hsub : q.Sublist p.lruIndexQ)
    (hq : ∀ j n, (n, j) ∈ q ↔ p.lruIndexMap j = some n ∧ j ≠ i) : (p.forget q i).Ok where
  length_buffer := h.length_buffer
  inUse_iff j := by
    rw [Pool.forget]
    dsimp only
    by_cases hj : j = i
    · subst hj; simp
    · rw [Function.update_of_ne hj, Function.update_of_ne hj, h.inUse_iff]
  mem_iff j n := by
    rw [Pool.forget]
    dsimp only
    by_cases hj : j = i
    · subst hj
      rw [Function.update_self, hq]
      simp
    · rw [Function.update_of_ne hj, hq]
      simp [hj]
  nodup := (hsub.map Prod.fst).nodup h.nodup
  node_lt x hx := h.node_lt x (hsub.subset hx)

/-- A block that is put at the front, when `q` holds the other blocks in use. -/
theorem Ok.pushFront (h : p.Ok) {i : Fin maxBlk} {q : List (ℕ × Fin maxBlk)}
    (hsub : q.Sublist p.lruIndexQ)
    (hq : ∀ j n, (n, j) ∈ q ↔ p.lruIndexMap j = some n ∧ j ≠ i) (md : BlkMetaData)
    (hmd : 0 ≤ md.fileHandle) {block : Bytes} (hblock : block.length = blkSize) :
    Ok { p.pushFront q i with
      buffer := Function.update p.buffer i block
      bufferMetaData := Function.update p.bufferMetaData i md } where
  length_buffer j := by
    dsimp only
    by_cases hj : j = i
    · subst hj; rw [Function.update_self, hblock]
    · rw [Function.update_of_ne hj, h.length_buffer]
  inUse_iff j := by
    rw [Pool.pushFront]
    dsimp only
    by_cases hj : j = i
    · subst hj; simp [hmd]
    · rw [Function.update_of_ne hj, Function.update_of_ne hj, h.inUse_iff]
  mem_iff j n := by
    have hlt : (p.nextNode, j) ∉ q := fun hm ↦ (h.node_lt _ (hsub.subset hm)).false
    rw [Pool.pushFront]
    dsimp only
    by_cases hj : j = i
    · subst hj
      rw [Function.update_self, List.mem_cons, hq]
      simp [eq_comm]
    · rw [Function.update_of_ne hj, List.mem_cons, hq]
      simp [hj]
  nodup := by
    rw [Pool.pushFront, List.map_cons, List.nodup_cons]
    refine ⟨fun hm ↦ ?_, (hsub.map Prod.fst).nodup h.nodup⟩
    obtain ⟨x, hx, hxn⟩ := List.mem_map.mp hm
    exact (h.node_lt x (hsub.subset hx)).ne hxn
  node_lt x hx := by
    rw [Pool.pushFront, List.mem_cons] at hx
    rcases hx with rfl | hx
    · exact Nat.lt_succ_self _
    · exact Nat.lt_succ_of_lt (h.node_lt x (hsub.subset hx))

/-- The last node of the queue is the only one of its block. -/
theorem Ok.mem_dropLast (h : p.Ok) {node : ℕ} {i : Fin maxBlk}
    (hlast : p.lruIndexQ.getLast? = some (node, i)) (j : Fin maxBlk) (n : ℕ) :
    (n, j) ∈ p.lruIndexQ.dropLast ↔ p.lruIndexMap j = some n ∧ j ≠ i := by
  obtain ⟨ys, hys⟩ := List.getLast?_eq_some_iff.mp hlast
  have hmem : (node, i) ∈ p.lruIndexQ := by simp [hys]
  have hmap : p.lruIndexMap i = some node := (h.mem_iff i node).mpr hmem
  have hnodup := h.nodup
  rw [hys, List.map_append, List.nodup_append] at hnodup
  rw [h.mem_iff, hys, List.dropLast_concat]
  constructor
  · intro hm
    refine ⟨by simp [hm], fun hji ↦ ?_⟩
    subst hji
    have hn : n = node := Option.some.inj
      (((h.mem_iff j n).mpr (by simp [hys, hm])).symm.trans hmap)
    exact hnodup.2.2 n (List.mem_map_of_mem (f := Prod.fst) hm) node (by simp) hn
  · rintro ⟨hm, hne⟩
    rcases List.mem_append.mp hm with hm | hm
    · exact hm
    · exact absurd (congrArg Prod.snd (List.mem_singleton.mp hm)) hne

/-- Block `i` of `p` is to be had, and `p₁` is the pool before it is put to the front. -/
inductive Vacated (p : Pool) (i : Fin maxBlk) : Pool → Prop where
  /-- It was free, and nothing is evicted. -/
  | free (hfree : (p.bufferMetaData i).fileHandle < 0) : Vacated p i p
  /-- All are in use, and it is the one at the end of the queue. -/
  | evicted (node : ℕ) (hused : ∀ j, 0 ≤ (p.bufferMetaData j).fileHandle)
      (hlast : p.lruIndexQ.getLast? = some (node, i)) :
      Vacated p i (p.forget p.lruIndexQ.dropLast i)

theorem Vacated.buffer_eq {i : Fin maxBlk} {p₁ : Pool} (h : Vacated p i p₁) :
    p₁.buffer = p.buffer := by cases h <;> rfl

theorem Vacated.handle_lt {i : Fin maxBlk} {p₁ : Pool} (h : Vacated p i p₁) :
    (p₁.bufferMetaData i).fileHandle < 0 := by
  cases h with
  | free hfree => exact hfree
  | evicted node hused hlast => simp [Pool.forget]

theorem Vacated.metaData_of_ne {i j : Fin maxBlk} {p₁ : Pool} (h : Vacated p i p₁) (hji : j ≠ i) :
    p₁.bufferMetaData j = p.bufferMetaData j := by
  cases h with
  | free hfree => rfl
  | evicted node hused hlast => exact Function.update_of_ne hji _ _

/-- A block that is not in use is not in the queue. -/
theorem Ok.mem_of_free (h : p.Ok) {i : Fin maxBlk} (hi : (p.bufferMetaData i).fileHandle < 0)
    (j : Fin maxBlk) (n : ℕ) :
    (n, j) ∈ p.lruIndexQ ↔ p.lruIndexMap j = some n ∧ j ≠ i := by
  rw [h.mem_iff]
  refine ⟨fun hm ↦ ⟨hm, fun hji ↦ ?_⟩, fun hm ↦ hm.1⟩
  have hsome := (h.inUse_iff j).mpr (by rw [(h.mem_iff j n).mpr hm]; rfl)
  rw [hji] at hsome
  omega

/-- The pool is still in order when a block was made available. -/
theorem Ok.vacated (h : p.Ok) {i : Fin maxBlk} {p₁ : Pool} (hv : Vacated p i p₁) : p₁.Ok := by
  cases hv with
  | free hfree => exact h
  | evicted node hused hlast => exact h.forget (List.dropLast_sublist _) (h.mem_dropLast hlast)

/-- **There is always a block to be had.** -/
theorem Ok.allocateBlock (h : p.Ok) :
    ∃ (i : Fin maxBlk) (p₁ : Pool),
      p.allocateBlock = some (i, p₁.pushFront p₁.lruIndexQ i) ∧ Vacated p i p₁ := by
  rw [Pool.allocateBlock]
  cases hfind : (List.finRange maxBlk).find?
      fun i ↦ decide ((p.bufferMetaData i).fileHandle < 0) with
  | some i =>
    have hfree : (p.bufferMetaData i).fileHandle < 0 := by
      simpa using List.find?_some hfind
    exact ⟨i, p, rfl, .free hfree⟩
  | none =>
    have hused : ∀ i, 0 ≤ (p.bufferMetaData i).fileHandle := by
      intro i
      simpa using List.find?_eq_none.mp hfind i (List.mem_finRange i)
    have hne : p.lruIndexQ ≠ [] := by
      have hsome := (h.inUse_iff ⟨0, by decide⟩).mp (hused _)
      obtain ⟨node, hnode⟩ := Option.isSome_iff_exists.mp hsome
      exact List.ne_nil_of_mem ((h.mem_iff _ node).mp hnode)
    obtain ⟨⟨node, i⟩, hlast⟩ : ∃ x, p.lruIndexQ.getLast? = some x :=
      ⟨_, List.getLast?_eq_some_getLast hne⟩
    refine ⟨i, p.forget p.lruIndexQ.dropLast i, ?_, .evicted node hused hlast⟩
    rw [evictLRU, hlast]
    rfl

/-! ### One read -/

/-- Every block in use starts at a multiple of `BLK_SIZE`. -/
def Aligned (p : Pool) : Prop :=
  ∀ i, 0 ≤ (p.bufferMetaData i).fileHandle → blkSize ∣ (p.bufferMetaData i).offset

/-- Block `i` is put at the front of the queue `q` and filled. -/
def fill (p : Pool) (q : List (ℕ × Fin maxBlk)) (i : Fin maxBlk) (md : BlkMetaData)
    (block : Bytes) : Pool :=
  { p.pushFront q i with
    buffer := Function.update p.buffer i block
    bufferMetaData := Function.update p.bufferMetaData i md }

/-- In an aligned pool the block that a read wants is determined by where it starts. -/
theorem Aligned.holds_iff (h : p.Aligned) {fd : ℤ} {offset : ℕ} {i : Fin maxBlk} :
    p.holds fd offset i = true ↔ 0 ≤ fd ∧ p.bufferMetaData i = ⟨fd, offset - offset % blkSize⟩ := by
  have hB : 0 < blkSize := by decide
  obtain ⟨fileHandle, off, hmd⟩ : ∃ fileHandle off, p.bufferMetaData i = ⟨fileHandle, off⟩ :=
    ⟨_, _, rfl⟩
  have hdvd := h i
  rw [hmd] at hdvd
  dsimp only at hdvd
  simp only [Pool.holds, hmd, not_or, not_lt, not_not, not_le, decide_eq_true_eq, BlkMetaData.mk.injEq]
  constructor
  · rintro ⟨⟨hused, rfl⟩, hlow, hhigh⟩
    obtain ⟨m, rfl⟩ := hdvd hused
    refine ⟨hused, rfl, ?_⟩
    rw [Nat.mod_eq_sub_mul_div, show offset / blkSize = m from
      Nat.div_eq_of_lt_le (by rwa [Nat.mul_comm]) (by rw [Nat.add_mul, Nat.mul_comm m]; omega)]
    omega
  · rintro ⟨hused, rfl, rfl⟩
    have hlt := Nat.mod_lt offset hB
    have hle := Nat.mod_le offset blkSize
    exact ⟨⟨hused, rfl⟩, by omega, by omega⟩

end Pool

/-! ## The blocks and the files

A read is followed through its three cases once, in `fread_spec`.  What comes after uses `Chosen`, which
says what the pool is in the end, and does not look at `fread` again. -/

/-- The cache is in order and every block in use has the bytes of an open file. -/
structure Sys.Ok (s : Sys) : Prop where
  pool : s.pool.Ok
  /-- A block in use begins at a block boundary and has what the file has there.  At the end of a file
  the rest of the block is anything. -/
  coherent : ∀ i, 0 ≤ (s.pool.bufferMetaData i).fileHandle →
    blkSize ∣ (s.pool.bufferMetaData i).offset ∧
      ∃ name, s.fileOf (s.pool.bufferMetaData i).fileHandle = some name ∧
      ((s.fs.read name).drop (s.pool.bufferMetaData i).offset).take blkSize <+: s.pool.buffer i

/-- The only blocks in use belong to `fd`. -/
def Pool.Only (p : Pool) (fd : ℤ) : Prop :=
  ∀ i, (p.bufferMetaData i).fileHandle < 0 ∨ (p.bufferMetaData i).fileHandle = fd

theorem memcpy_prefix {file block : Bytes} {off pos n : ℕ}
    (h : (file.drop off).take blkSize <+: block) (hblk : pos + n ≤ blkSize)
    (hfile : off + pos + n ≤ file.length) :
    (block.drop pos).take n = (file.drop (off + pos)).take n := by
  obtain ⟨tail, rfl⟩ := h
  have hlen : ((file.drop off).take blkSize).length = min blkSize (file.length - off) := by
    rw [List.length_take, List.length_drop]
  rw [List.drop_append_of_le_length (by omega),
    List.take_append_of_le_length (by rw [List.length_drop]; omega), List.drop_take,
    List.take_take, List.drop_drop, Nat.min_eq_left (by omega)]

theorem Sys.fileOf_nonneg {s : Sys} {fd : ℤ} {name : String} (h : s.fileOf fd = some name) :
    0 ≤ fd := by
  rw [Sys.fileOf] at h
  split_ifs at h
  omega

theorem Sys.length_read (s : Sys) (fd : ℤ) (offset : ℕ) {block : Bytes}
    (h : block.length = blkSize) : (s.read fd offset block).2.length = blkSize := by
  rw [Sys.read]
  cases s.fileOf fd with
  | none => exact h
  | some name =>
    dsimp only
    rw [List.length_append, List.length_drop, List.length_take]
    omega

/-- What a block has after a read through an open descriptor. -/
theorem Sys.prefix_read {s : Sys} {fd : ℤ} {name : String} (hfd : s.fileOf fd = some name)
    (offset : ℕ) (block : Bytes) :
    ((s.fs.read name).drop offset).take blkSize <+: (s.read fd offset block).2 := by
  rw [Sys.read, hfd]
  exact List.prefix_append _ _

/-- Which block a read takes, from which pool, with which queue, and what is in it. -/
inductive Chosen (s : Sys) (md : BlkMetaData) (i : Fin maxBlk) :
    Pool → List (ℕ × Fin maxBlk) → Bytes → Prop where
  /-- The block is in the cache.  Its node leaves its place in the queue. -/
  | hit (node : ℕ) (hused : 0 ≤ md.fileHandle) (hmd : s.pool.bufferMetaData i = md)
      (hnode : s.pool.lruIndexMap i = some node) :
      Chosen s md i s.pool (s.pool.lruIndexQ.filter (·.1 ≠ node)) (s.pool.buffer i)
  /-- It is not, and one that was to be had is filled from the file. -/
  | load (p₁ : Pool) (hmiss : ∀ j, s.pool.bufferMetaData j = md → md.fileHandle < 0)
      (hv : s.pool.Vacated i p₁) :
      Chosen s md i p₁ p₁.lruIndexQ (s.read md.fileHandle md.offset (s.pool.buffer i)).2

namespace Chosen

variable {s : Sys} {md : BlkMetaData} {i : Fin maxBlk} {p₁ : Pool} {q : List (ℕ × Fin maxBlk)}
  {block : Bytes}

theorem pool_ok (hc : Chosen s md i p₁ q block) (h : s.pool.Ok) : p₁.Ok := by
  cases hc with
  | hit node hused hmd hnode => exact h
  | load p₁ hmiss hv => exact h.vacated hv

theorem sublist (hc : Chosen s md i p₁ q block) : q.Sublist p₁.lruIndexQ := by
  cases hc with
  | hit node hused hmd hnode => exact List.filter_sublist
  | load p₁ hmiss hv => exact List.Sublist.refl _

/-- The queue lost what was erased or evicted, and nothing else moved. -/
theorem sublist_pool (hc : Chosen s md i p₁ q block) : q.Sublist s.pool.lruIndexQ := by
  cases hc with
  | hit node hused hmd hnode => exact List.filter_sublist
  | load p₁ hmiss hv =>
    cases hv with
    | free hfree => exact List.Sublist.refl _
    | evicted node hused hlast => exact List.dropLast_sublist _

/-- The queue holds the other blocks in use. -/
theorem mem_iff (hc : Chosen s md i p₁ q block) (h : s.pool.Ok) (j : Fin maxBlk) (n : ℕ) :
    (n, j) ∈ q ↔ p₁.lruIndexMap j = some n ∧ j ≠ i := by
  cases hc with
  | hit node hused hmd hnode => exact h.mem_filter hnode
  | load p₁ hmiss hv => exact (h.vacated hv).mem_of_free hv.handle_lt j n

theorem length_block (hc : Chosen s md i p₁ q block) (h : s.pool.Ok) : block.length = blkSize := by
  cases hc with
  | hit node hused hmd hnode => exact h.length_buffer i
  | load p₁ hmiss hv => exact s.length_read _ _ (h.length_buffer i)

theorem buffer_eq (hc : Chosen s md i p₁ q block) : p₁.buffer = s.pool.buffer := by
  cases hc with
  | hit node hused hmd hnode => rfl
  | load p₁ hmiss hv => exact hv.buffer_eq

theorem metaData_of_ne (hc : Chosen s md i p₁ q block) {j : Fin maxBlk} (hji : j ≠ i) :
    p₁.bufferMetaData j = s.pool.bufferMetaData j := by
  cases hc with
  | hit node hused hmd hnode => rfl
  | load p₁ hmiss hv => exact hv.metaData_of_ne hji

/-- The pool after the read. -/
theorem fill_ok (hc : Chosen s md i p₁ q block) (h : s.pool.Ok) (hmd : 0 ≤ md.fileHandle) :
    (p₁.fill q i md block).Ok :=
  (hc.pool_ok h).pushFront hc.sublist (hc.mem_iff h) md hmd (hc.length_block h)

theorem fill_metaData (hc : Chosen s md i p₁ q block) (j : Fin maxBlk) :
    (p₁.fill q i md block).bufferMetaData j = if j = i then md else s.pool.bufferMetaData j := by
  rw [Pool.fill]
  dsimp only
  split_ifs with hji
  · rw [hji, Function.update_self]
  · rw [Function.update_of_ne hji, hc.metaData_of_ne hji]

theorem fill_buffer (hc : Chosen s md i p₁ q block) (j : Fin maxBlk) :
    (p₁.fill q i md block).buffer j = if j = i then block else s.pool.buffer j := by
  rw [Pool.fill]
  dsimp only
  split_ifs with hji
  · rw [hji, Function.update_self]
  · rw [Function.update_of_ne hji, hc.buffer_eq]

theorem fill_aligned (hc : Chosen s md i p₁ q block) (h : s.pool.Aligned) (hmd : blkSize ∣ md.offset) :
    (p₁.fill q i md block).Aligned := by
  intro j hj
  rw [hc.fill_metaData] at hj ⊢
  split_ifs at hj ⊢
  · exact hmd
  · exact h j hj

end Chosen

/-- **What a read does**: some block is put to the front with the data of the file, and the bytes
come from it. -/
theorem fread_spec {s : Sys} (h : s.pool.Ok) (ha : s.pool.Aligned) (fd : ℤ) (n offset : ℕ) :
    ∃ r i p₁ q block, Chosen s ⟨fd, offset - offset % blkSize⟩ i p₁ q block ∧
      usedBlock offset fd s = some i ∧
      fread n offset fd s = (memcpy block (offset % blkSize) n).map fun got ↦
        (r, got, { s with pool := p₁.fill q i ⟨fd, offset - offset % blkSize⟩ block }) := by
  have hmod : offset % blkSize ≤ offset := Nat.mod_le _ _
  have hpos : offset - (offset - offset % blkSize) = offset % blkSize := by omega
  unfold fread usedBlock
  cases hfind : (List.finRange maxBlk).find? (s.pool.holds fd offset) with
  | some i =>
    obtain ⟨hused, hmd⟩ := ha.holds_iff.mp (List.find?_some hfind)
    obtain ⟨node, hnode⟩ := Option.isSome_iff_exists.mp ((h.inUse_iff i).mp (hmd ▸ hused))
    refine ⟨n, i, s.pool, _, _, .hit node hused hmd hnode, rfl, ?_⟩
    dsimp only
    rw [hmd, hpos, h.eraseNode_eq hnode, Pool.fill, Function.update_eq_self, ← hmd,
      Function.update_eq_self]
    cases memcpy (s.pool.buffer i) (offset % blkSize) n <;> rfl
  | none =>
    obtain ⟨i, p₁, halloc, hv⟩ := h.allocateBlock
    have hmiss : ∀ j, s.pool.bufferMetaData j = ⟨fd, offset - offset % blkSize⟩ → fd < 0 := by
      intro j hj
      refine not_le.mp fun hused ↦ ?_
      exact List.find?_eq_none.mp hfind j (List.mem_finRange j) (ha.holds_iff.mpr ⟨hused, hj⟩)
    refine ⟨(s.read fd (offset - offset % blkSize) (s.pool.buffer i)).1, i, p₁, _, _,
      .load p₁ hmiss hv, ?_, ?_⟩
    · rw [halloc]
      rfl
    · rw [halloc, Option.bind_some]
      dsimp only
      rw [hpos, show (p₁.pushFront p₁.lruIndexQ i).buffer = s.pool.buffer from hv.buffer_eq, Pool.fill,
        ← hv.buffer_eq]
      rfl

/-- A range within a block can be copied. -/
theorem Chosen.memcpy_eq {s : Sys} (h : s.pool.Ok) {md : BlkMetaData} {i : Fin maxBlk} {p₁ : Pool}
    {q : List (ℕ × Fin maxBlk)} {block : Bytes} (hc : Chosen s md i p₁ q block) {pos n : ℕ}
    (hblk : pos + n ≤ blkSize) : memcpy block pos n = some ((block.drop pos).take n) := by
  rw [memcpy, if_pos (by rwa [hc.length_block h])]

theorem Sys.Ok.aligned {s : Sys} (h : s.Ok) : s.pool.Aligned := fun i hi ↦ (h.coherent i hi).1

/-- The block that was read has the bytes of the file. -/
theorem Chosen.prefix_block {s : Sys} (h : s.Ok) {md : BlkMetaData} {name : String}
    (hfd : s.fileOf md.fileHandle = some name) {i : Fin maxBlk} {p₁ : Pool}
    {q : List (ℕ × Fin maxBlk)} {block : Bytes} (hc : Chosen s md i p₁ q block) :
    ((s.fs.read name).drop md.offset).take blkSize <+: block := by
  cases hc with
  | hit node hused hmd hnode =>
    obtain ⟨-, name', hname', hpre⟩ := h.coherent i (hmd ▸ hused)
    rw [hmd, hfd] at hname'
    cases hname'
    rwa [hmd] at hpre
  | load p₁ hmiss hv => exact Sys.prefix_read hfd _ _

theorem Chosen.sys_ok {s : Sys} (h : s.Ok) {md : BlkMetaData} {name : String}
    (hfd : s.fileOf md.fileHandle = some name) (hoff : blkSize ∣ md.offset) {i : Fin maxBlk}
    {p₁ : Pool} {q : List (ℕ × Fin maxBlk)} {block : Bytes} (hc : Chosen s md i p₁ q block) :
    Sys.Ok { s with pool := p₁.fill q i md block } where
  pool := hc.fill_ok h.pool (Sys.fileOf_nonneg hfd)
  coherent j hj := by
    dsimp only at hj ⊢
    rw [hc.fill_metaData] at hj ⊢
    rw [hc.fill_buffer]
    split_ifs at hj ⊢ with hji
    · exact ⟨hoff, name, hfd, hc.prefix_block h hfd⟩
    · exact h.coherent j hj

/-- **A read inside one block delivers the bytes of the file**, and leaves the cache in order. -/
theorem fread_eq {s : Sys} (h : s.Ok) {fd : ℤ} {name : String} (hfd : s.fileOf fd = some name)
    {n offset : ℕ} (hblk : offset % blkSize + n ≤ blkSize)
    (hfile : offset + n ≤ (s.fs.read name).length) :
    ∃ r p, fread n offset fd s =
        some (r, ((s.fs.read name).drop offset).take n, { s with pool := p }) ∧
      Sys.Ok { s with pool := p } ∧ (s.pool.Only fd → p.Only fd) := by
  have hmod : offset % blkSize ≤ offset := Nat.mod_le _ _
  obtain ⟨r, i, p₁, q, block, hc, -, heq⟩ := fread_spec h.pool h.aligned fd n offset
  refine ⟨r, _, ?_, hc.sys_ok h hfd (Nat.dvd_sub_mod offset), fun honly j ↦ ?_⟩
  · rw [heq, hc.memcpy_eq h.pool hblk, Option.map_some,
      memcpy_prefix (hc.prefix_block h hfd) hblk (by dsimp only; omega)]
    dsimp only
    rw [Nat.sub_add_cancel hmod]
  · rw [hc.fill_metaData]
    split_ifs
    · exact Or.inr rfl
    · exact honly j

/-! ## Opening and closing

A descriptor that is closed is given out again, so no block may be left with its number. -/

/-- The descriptor `open` returns was free. -/
theorem fds_findIdx (fds : List (Option String)) : (fds[fds.findIdx Option.isNone]?).join = none := by
  by_cases hlt : fds.findIdx Option.isNone < fds.length
  · rw [List.getElem?_eq_getElem hlt]
    simpa using List.findIdx_getElem (w := hlt)
  · rw [List.getElem?_eq_none (by omega)]
    rfl

/-- Opening a file changes what no other descriptor is open on. -/
theorem openFile_eq {s : Sys} (h : s.Ok) {name : String} {bs : Bytes}
    (hfs : s.fs.content name = some bs) :
    ∃ fd fds, openFile name s = (fd, { s with fds := fds }) ∧ Sys.Ok { s with fds := fds } ∧
      Sys.fileOf { s with fds := fds } fd = some name := by
  obtain ⟨n, hn⟩ : ∃ n, s.fds.findIdx Option.isNone = n := ⟨_, rfl⟩
  have hfree : (s.fds[n]?).join = none := hn ▸ fds_findIdx s.fds
  have hle : n ≤ s.fds.length := hn ▸ List.findIdx_le_length
  obtain ⟨fds, hfds⟩ : ∃ fds, (if n < s.fds.length then s.fds.set n (some name)
    else s.fds ++ [some name]) = fds := ⟨_, rfl⟩
  have hget : ∀ m, fds[m]? = if m = n then some (some name) else s.fds[m]? := by
    intro m
    rw [← hfds]
    split_ifs with hlt hm hm
    · rw [hm, List.getElem?_set_self hlt]
    · rw [List.getElem?_set_ne (Ne.symm hm)]
    · rw [hm, show n = s.fds.length by omega, List.getElem?_concat_length]
    · rw [List.getElem?_append]
      split_ifs with hms
      · rfl
      · rw [List.getElem?_eq_none (by simp; omega), List.getElem?_eq_none (by omega)]
  refine ⟨n, fds, ?_, ⟨h.pool, fun i hi ↦ ?_⟩, ?_⟩
  · rw [openFile, hfs]
    dsimp only
    rw [hn, hfds]
  · obtain ⟨hdvd, other, hother, hpre⟩ := h.coherent i hi
    refine ⟨hdvd, other, ?_, hpre⟩
    rw [Sys.fileOf] at hother ⊢
    split_ifs at hother ⊢ with hneg
    dsimp only
    rw [hget, if_neg]
    · exact hother
    · intro hm
      rw [hm, hfree] at hother
      cases hother
  · rw [Sys.fileOf, if_neg (by omega), Int.toNat_natCast]
    dsimp only
    rw [hget, if_pos rfl]
    rfl

/-- Freeing the blocks of a file. -/
theorem closeBlocks_eq {p : Pool} (h : p.Ok) {fd : ℤ} (hfd : 0 ≤ fd) (is : List (Fin maxBlk)) :
    ∃ p', closeBlocks fd is p = some p' ∧ p'.Ok ∧ p'.buffer = p.buffer ∧
      (∀ i, p'.bufferMetaData i =
        if i ∈ is ∧ (p.bufferMetaData i).fileHandle = fd then ⟨-1, 0⟩ else p.bufferMetaData i) ∧
      p'.lruIndexQ.Sublist p.lruIndexQ := by
  induction is generalizing p with
  | nil => exact ⟨p, rfl, h, rfl, by simp, List.Sublist.refl _⟩
  | cons i is ih =>
    rw [closeBlocks, List.foldlM_cons]
    split_ifs with hi
    · obtain ⟨node, hnode⟩ := Option.isSome_iff_exists.mp ((h.inUse_iff i).mp (hi ▸ hfd))
      obtain ⟨p', heq, hp', hbuf, hmd, hsub⟩ :=
        ih (h.forget List.filter_sublist fun j n ↦ h.mem_filter hnode)
      refine ⟨p', ?_, hp', hbuf, fun j ↦ ?_, hsub.trans List.filter_sublist⟩
      · rw [h.eraseNode_eq hnode]
        exact heq
      · rw [hmd]
        by_cases hji : j = i
        · subst hji
          simp [Pool.forget, hi]
        · simp only [Pool.forget, Function.update_of_ne hji, List.mem_cons, hji, false_or]
    · obtain ⟨p', heq, hp', hbuf, hmd, hsub⟩ := ih h
      refine ⟨p', heq, hp', hbuf, fun j ↦ ?_, hsub⟩
      rw [hmd]
      by_cases hji : j = i
      · subst hji
        rw [if_neg (fun hj ↦ hi hj.2), if_neg (fun hj ↦ hi hj.2)]
      · simp only [List.mem_cons, hji, false_or]

/-- **What closing a file does**: its blocks become free, and the others stay. -/
theorem closeFile_spec {s : Sys} (h : s.pool.Ok) {fd : ℤ} (hfd : 0 ≤ fd) :
    ∃ p, closeFile fd s = some { s with pool := p, fds := s.fds.set fd.toNat none } ∧ p.Ok ∧
      p.buffer = s.pool.buffer ∧
      (∀ i, p.bufferMetaData i =
        if (s.pool.bufferMetaData i).fileHandle = fd then ⟨-1, 0⟩ else s.pool.bufferMetaData i) ∧
      p.lruIndexQ.Sublist s.pool.lruIndexQ := by
  obtain ⟨p, heq, hp, hbuf, hmd, hsub⟩ := closeBlocks_eq h hfd (List.finRange maxBlk)
  refine ⟨p, by rw [closeFile, heq, Option.map_some, if_neg (not_lt.mpr hfd)], hp, hbuf, fun i ↦ ?_, hsub⟩
  rw [hmd]
  simp only [List.mem_finRange, true_and]

/-- What is still in use after closing a file is not of the file and has not changed. -/
theorem kept_of_closed {p q : Pool} {fd : ℤ}
    (hmd : ∀ i, q.bufferMetaData i =
      if (p.bufferMetaData i).fileHandle = fd then ⟨-1, 0⟩ else p.bufferMetaData i)
    {i : Fin maxBlk} (hi : 0 ≤ (q.bufferMetaData i).fileHandle) :
    (p.bufferMetaData i).fileHandle ≠ fd ∧ q.bufferMetaData i = p.bufferMetaData i := by
  have hmdi := hmd i
  split_ifs at hmdi with hfdi
  · rw [hmdi] at hi
    exact absurd hi (by decide)
  · exact ⟨hfdi, hmdi⟩

/-- **Closing a file** leaves nothing of it in the cache. -/
theorem closeFile_eq {s : Sys} (h : s.Ok) {fd : ℤ} (hfd : 0 ≤ fd) :
    ∃ s', closeFile fd s = some s' ∧ s'.Ok ∧ s'.fs = s.fs ∧
      (∀ i, (s'.pool.bufferMetaData i).fileHandle ≠ fd) ∧
      (s.pool.Only fd → ∀ i, (s'.pool.bufferMetaData i).fileHandle < 0) := by
  obtain ⟨p, heq, hp, hbuf, hmd, -⟩ := closeFile_spec h.pool hfd
  refine ⟨_, heq, ⟨hp, fun i hi ↦ ?_⟩, rfl, fun i ↦ ?_, fun honly i ↦ ?_⟩
  · obtain ⟨hfdi, hmdi⟩ := kept_of_closed hmd hi
    dsimp only at hi ⊢
    rw [hmdi] at hi ⊢
    obtain ⟨hdvd, name, hname, hpre⟩ := h.coherent i hi
    refine ⟨hdvd, name, ?_, hbuf ▸ hpre⟩
    rw [Sys.fileOf, if_neg (by omega)] at hname ⊢
    dsimp only
    rwa [List.getElem?_set_ne (by omega)]
  · dsimp only
    rw [hmd]
    split_ifs with hfdi
    · dsimp only
      omega
    · exact hfdi
  · dsimp only
    rw [hmd]
    split_ifs with hfdi
    · exact neg_one_lt_zero
    · exact (honly i).resolve_right hfdi

/-- No file is open through the cache. -/
structure Sys.Quiet (s : Sys) : Prop where
  pool : s.pool.Ok
  /-- Every file that was opened has been closed. -/
  free : ∀ i, (s.pool.bufferMetaData i).fileHandle < 0

theorem Sys.Quiet.ok {s : Sys} (h : s.Quiet) : s.Ok :=
  ⟨h.pool, fun i hi ↦ absurd hi (not_le.mpr (h.free i))⟩

/-- A cache without blocks in use does not care what happens to the files. -/
theorem Sys.Quiet.with_fs {s : Sys} (h : s.Quiet) (fs : FS) : Sys.Quiet { s with fs := fs } :=
  ⟨h.pool, h.free⟩

theorem Pool.only_of_free {p : Pool} (h : ∀ i, (p.bufferMetaData i).fileHandle < 0) (fd : ℤ) :
    p.Only fd := fun i ↦ Or.inl (h i)

end FileIO

end ScratchStore
