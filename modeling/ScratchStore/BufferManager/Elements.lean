import ScratchStore.BufferManager.Lru

/-!
# What `fread` returns

By its documentation `fread` returns how many elements it has read.  What it returns is the number of
bytes that were asked for when it finds the block in the cache, and otherwise the number of bytes that
`read` gave it for the whole block.  `counts_iff` says when these are the number of elements.

* `elements` is what the documentation means: the number of elements of the file that lie in the range.
* `Counts` says that the return value is that number, in a state and for arguments.
* `CountsHit` and `CountsLoad` are the two conditions, on the arguments and the length of the file alone, and
  `counts_iff` says that which of them matters is decided by whether the block is in the cache.

On a hit the number of bytes that were asked for comes back even if the file ends before them, and on a miss
the number of bytes of the whole block even if fewer were asked for.  The callers do not look at it.
-/

set_option autoImplicit false

namespace ScratchStore

namespace FileIO

/-- `fread(ptr, size, count, offset, fileHandle)` -/
def freadElements (size count offset : ℕ) (fileHandle : ℤ) (s : Sys) : Option (ℤ × Bytes × Sys) :=
  s.fread (count * size % 2 ^ 64) offset fileHandle

/-- How many of the elements that are asked for end within a file of this length. -/
def elements (size count offset length : ℕ) : ℕ :=
  (List.range count).countP fun i ↦ decide (offset + (i + 1) * size ≤ length)

/-- Some block of the cache reaches over `offset`. -/
def Cached (s : Sys) (fd : ℤ) (offset : ℕ) : Prop := ∃ i, s.pool.holds fd offset i = true

instance (s : Sys) (fd : ℤ) (offset : ℕ) : Decidable (Cached s fd offset) :=
  inferInstanceAs (Decidable (∃ _, _))

/-- Where the block begins. -/
def blockStart (offset : ℕ) : ℕ := offset - offset % blkSize

/-- The number of bytes that `read` finds for the block. -/
def loaded (offset length : ℕ) : ℕ := min blkSize (length - blockStart offset)

/-- What is returned for a request of `n` bytes: the request itself, or what was loaded. -/
def returned (s : Sys) (fd : ℤ) (n offset length : ℕ) : ℕ :=
  if Cached s fd offset then n else loaded offset length

/-- **The return value is the number of elements.** -/
def Counts (s : Sys) (fd : ℤ) (name : String) (size count offset : ℕ) : Prop :=
  ∃ bs s', freadElements size count offset fd s =
    some ((elements size count offset (s.fs.read name).length : ℤ), bs, s')

/-- The number of bytes asked for is the number of elements. -/
def CountsHit (size count offset length : ℕ) : Prop :=
  count = 0 ∨ (size = 1 ∧ offset + count ≤ length) ∨ (size = 0 ∧ length < offset)

/-- The number of bytes of the block is the number of elements. -/
def CountsLoad (size count offset length : ℕ) : Prop :=
  if size = 0 then
    if offset ≤ length then count = loaded offset length else length ≤ blockStart offset
  else length ≤ blockStart offset ∨
    (size = 1 ∧ offset % blkSize = 0 ∧ (length ≤ offset + count ∨ count = blkSize))

/-! ## The elements of a file -/

theorem elements_eq {size : ℕ} (hsize : 0 < size) (count offset length : ℕ) :
    elements size count offset length = min count ((length - offset) / size) := by
  induction count with
  | zero => simp [elements]
  | succ count ih =>
    have hfits : offset + (count + 1) * size ≤ length ↔ count + 1 ≤ (length - offset) / size := by
      have hpos : 0 < (count + 1) * size := Nat.mul_pos (Nat.succ_pos _) hsize
      rw [Nat.le_div_iff_mul_le hsize]
      omega
    rw [elements, List.range_succ, List.countP_append, ← elements, ih, List.countP_singleton]
    simp only [decide_eq_true_eq, hfits]
    split_ifs <;> omega

/-- Elements without bytes. -/
theorem elements_zero (count offset length : ℕ) :
    elements 0 count offset length = if offset ≤ length then count else 0 := by
  rw [elements]
  split_ifs with h <;> simp [h]

variable {size count offset length : ℕ}

/-- The bytes of the elements are bytes of the file and of the range. -/
theorem elements_mul_le (hsize : 0 < size) :
    elements size count offset length * size ≤ length - offset ∧
      elements size count offset length * size ≤ count * size := by
  rw [elements_eq hsize]
  exact ⟨(Nat.mul_le_mul_right size (min_le_right _ _)).trans (Nat.div_mul_le_self _ _),
    Nat.mul_le_mul_right size (min_le_left _ _)⟩

theorem countsHit_iff : count * size = elements size count offset length ↔
    CountsHit size count offset length := by
  rw [CountsHit]
  rcases Nat.eq_zero_or_pos size with rfl | hsize
  · simp only [elements_zero, Nat.mul_zero, zero_ne_one, false_and, false_or, true_and]
    split_ifs <;> omega
  rcases Nat.eq_zero_or_pos count with rfl | hcount
  · simp [elements]
  rw [elements_eq hsize]
  constructor
  · intro h
    have hle : count * size ≤ count * 1 := by rw [h, Nat.mul_one]; exact min_le_left _ _
    obtain rfl : size = 1 := by
      have := Nat.le_of_mul_le_mul_left hle hcount
      omega
    rw [Nat.div_one] at h
    omega
  · rintro (h | ⟨rfl, h⟩ | ⟨h, -⟩)
    · omega
    · rw [Nat.div_one]
      omega
    · omega

theorem countsLoad_iff (hblk : offset % blkSize + count * size ≤ blkSize) :
    loaded offset length = elements size count offset length ↔ CountsLoad size count offset length := by
  have hmod : offset % blkSize ≤ offset := Nat.mod_le _ _
  rw [CountsLoad]
  rcases Nat.eq_zero_or_pos size with rfl | hsize
  · rw [elements_zero, if_pos rfl, loaded]
    have hB : 0 < blkSize := by decide
    split_ifs <;> omega
  rw [if_neg hsize.ne']
  obtain ⟨hfile, hrange⟩ : elements size count offset length * size ≤ length - offset ∧
      elements size count offset length * size ≤ count * size := elements_mul_le hsize
  constructor
  · intro h
    refine or_iff_not_imp_left.mpr fun hlt ↦ ?_
    -- what is before the range in the block leaves no room for more than one byte to an element
    have hB : 0 < blkSize := by decide
    have hpos : 0 < elements size count offset length := by
      rw [← h, loaded]
      omega
    have hle : offset % blkSize + elements size count offset length * size ≤
        elements size count offset length * 1 := by
      have hmul := Nat.mul_pos hpos hsize
      have hload : loaded offset length = min blkSize (length - (offset - offset % blkSize)) := rfl
      omega
    obtain rfl : size = 1 := by
      have := Nat.le_of_mul_le_mul_left ((Nat.le_add_left _ _).trans hle) hpos
      omega
    rw [elements_eq hsize, Nat.div_one, loaded, blockStart] at h
    rw [blockStart] at hlt
    refine ⟨rfl, by omega, by omega⟩
  · rintro (h | ⟨rfl, hzero, h⟩)
    · rw [blockStart] at h
      rw [loaded, blockStart, elements_eq hsize, show length - offset = 0 by omega, Nat.zero_div]
      omega
    · rw [loaded, blockStart, elements_eq hsize, Nat.div_one, hzero]
      omega

/-! ## The return value -/

theorem read_fst {s : Sys} {fd : ℤ} {name : String} (hfd : s.fileOf fd = some name) (offset : ℕ)
    (block : Bytes) : (s.read fd (blockStart offset) block).1 = loaded offset (s.fs.read name).length := by
  rw [Sys.read, hfd]
  dsimp only
  rw [List.length_take, List.length_drop, loaded]

theorem fread_fst {s s' : Sys} {fd : ℤ} {name : String} (hfd : s.fileOf fd = some name) {n : ℕ} {r : ℤ}
    {bs : Bytes} (h : FileIO.fread n offset fd s = some (r, bs, s')) :
    r = returned s fd n offset (s.fs.read name).length := by
  unfold FileIO.fread at h
  rw [returned]
  cases hfind : (List.finRange maxBlk).find? (s.pool.holds fd offset) with
  | some i =>
    rw [if_pos ⟨i, List.find?_some hfind⟩]
    rw [hfind] at h
    obtain ⟨got, -, h⟩ := Option.bind_eq_some_iff.mp h
    obtain ⟨q, -, h⟩ := Option.map_eq_some_iff.mp h
    cases h
    rfl
  | none =>
    have hmiss : ¬Cached s fd offset := by
      rintro ⟨i, hi⟩
      exact List.find?_eq_none.mp hfind i (List.mem_finRange i) hi
    rw [if_neg hmiss]
    rw [hfind] at h
    obtain ⟨⟨i, p⟩, -, h⟩ := Option.bind_eq_some_iff.mp h
    obtain ⟨got, -, h⟩ := Option.map_eq_some_iff.mp h
    cases h
    exact read_fst hfd offset (p.buffer i)

/-- **What `fread` returns** for a range within a block, when the cache is in order. -/
theorem freadElements_eq {s : Sys} (h : s.pool.Ok) (ha : s.pool.Aligned) {fd : ℤ} {name : String}
    (hfd : s.fileOf fd = some name) (hblk : offset % blkSize + count * size ≤ blkSize) :
    ∃ bs s', freadElements size count offset fd s =
      some ((returned s fd (count * size) offset (s.fs.read name).length : ℤ), bs, s') := by
  have hlt : count * size < 2 ^ 64 := by
    rw [show blkSize = 8192 from rfl] at hblk
    omega
  obtain ⟨r, i, p₁, q, block, hc, -, heq⟩ := fread_spec h ha fd (count * size) offset
  rw [hc.memcpy_eq h hblk, Option.map_some] at heq
  rw [fread_fst hfd heq] at heq
  have hread : freadElements size count offset fd s = FileIO.fread (count * size) offset fd s := by
    rw [freadElements, Nat.mod_eq_of_lt hlt, Sys.fread_eq_fread]
  exact ⟨_, _, hread.trans heq⟩

theorem counts_iff_of_ok {s : Sys} (h : s.pool.Ok) (ha : s.pool.Aligned) {fd : ℤ} {name : String}
    (hfd : s.fileOf fd = some name) (hblk : offset % blkSize + count * size ≤ blkSize) :
    Counts s fd name size count offset ↔ if Cached s fd offset
      then CountsHit size count offset (s.fs.read name).length
      else CountsLoad size count offset (s.fs.read name).length := by
  obtain ⟨bs, s', heq⟩ := freadElements_eq h ha hfd hblk
  have hcounts : Counts s fd name size count offset ↔
      returned s fd (count * size) offset (s.fs.read name).length =
        elements size count offset (s.fs.read name).length := by
    rw [Counts, heq]
    simp only [Option.some.injEq, Prod.mk.injEq, Nat.cast_inj, exists_and_left, exists_eq', and_true]
  rw [hcounts, returned]
  split_ifs
  · exact countsHit_iff
  · exact countsLoad_iff hblk

/-- **When the return value is the number of elements**, whatever calls were made before. -/
theorem counts_iff (fs : FS) (fds : List (Option String)) (calls : List Call)
    (hcalls : ∀ call ∈ calls, call.Valid) {s : Sys}
    (hrun : Runs.run step ⟨fs, fds, Pool.initial⟩ calls = some s) {fd : ℤ} {name : String}
    (hfd : s.fileOf fd = some name) (hblk : offset % blkSize + count * size ≤ blkSize) :
    Counts s fd name size count offset ↔ if Cached s fd offset
      then CountsHit size count offset (s.fs.read name).length
      else CountsLoad size count offset (s.fs.read name).length := by
  obtain ⟨time, lastUse, h⟩ : ∃ time lastUse, LruOrdered ⟨s, time, lastUse⟩ := by
    have hkeep : ∀ s call s', call ∈ calls → (∃ time lastUse, LruOrdered ⟨s, time, lastUse⟩) →
        step s call = some s' → ∃ time lastUse, LruOrdered ⟨s', time, lastUse⟩ := by
      rintro s call s' hmem ⟨time, lastUse, h⟩ hs
      refine ⟨time + 1, Clocked.note ⟨s, time, lastUse⟩ call, h.step (hcalls call hmem) ?_⟩
      rw [Clocked.step, hs, Option.map_some]
    exact Runs.run_invariant_of_mem hkeep ⟨_, _, lruOrdered_initial fs fds⟩ hrun
  exact counts_iff_of_ok h.ok h.aligned hfd hblk

/-- A file of three bytes, opened through the empty cache. -/
def threeBytes : Sys := (openFile "file0" ⟨FS.blank.write "file0" [1, 2, 3], [], Pool.initial⟩).2

theorem not_cached_threeBytes (offset : ℕ) : ¬Cached threeBytes 0 offset := by
  rintro ⟨i, hi⟩
  rw [Pool.holds, decide_eq_true_eq] at hi
  exact hi.1 (Or.inl neg_one_lt_zero)

/-- All of its bytes. -/
theorem counts_iff_threeBytes : Counts threeBytes 0 "file0" 1 3 0 := by
  have hrun : Runs.run step ⟨FS.blank.write "file0" [1, 2, 3], [], Pool.initial⟩ [.openFile "file0"] =
      some threeBytes := rfl
  have hlen : (threeBytes.fs.read "file0").length = 3 := rfl
  rw [counts_iff _ _ _ (by simp [Call.Valid]) hrun (by rfl) (by decide), if_neg (not_cached_threeBytes 0),
    hlen, CountsLoad, if_neg (by decide)]
  decide

/-- **The bytes of the block are reported**: three for the last two bytes of the file. -/
theorem fread_miscounts :
    (∃ bs s', freadElements 1 2 1 0 threeBytes = some (3, bs, s')) ∧
      elements 1 2 1 (threeBytes.fs.read "file0").length = 2 ∧ ¬Counts threeBytes 0 "file0" 1 2 1 := by
  have hinit : LruOrdered ⟨threeBytes, 0, fun _ ↦ 0⟩ := lruOrdered_initial threeBytes.fs threeBytes.fds
  have hfd : threeBytes.fileOf 0 = some "file0" := rfl
  have hblk : 1 % blkSize + 2 * 1 ≤ blkSize := by decide
  obtain ⟨bs, s', heq⟩ := freadElements_eq hinit.ok hinit.aligned hfd hblk
  rw [returned, if_neg (not_cached_threeBytes 1)] at heq
  refine ⟨⟨bs, s', heq⟩, rfl, ?_⟩
  rintro ⟨bs', s'', heq'⟩
  cases heq.symm.trans heq'

end FileIO

end ScratchStore
