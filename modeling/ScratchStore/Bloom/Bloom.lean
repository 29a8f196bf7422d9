import ScratchStore.Lib.LittleEndian
import ScratchStore.Stdio

/-!
# The Bloom filter

`BloomFile` of `Bloom/bloom.hpp`: an array of `2 ^ 16` bits that is mirrored in a file.  The first
three `unsigned short`s of a key are the positions of its bits.  Setting a bit writes the byte it is
in to the file when that byte changes, so the file always has the bytes of the array: `Mirrors`.

A filter never forgets: `get_set_self` and `get_set_of_get`.

* `create` is the constructor, with its two ways of filling the array: from the argument, or from the file.
* `Mirrors.set` is what one call of `set` does to the array, the file and all other files.
* `create_load` says that a restart gives back the array that is in the file.

The positions are the first three words of the key, and nothing is hashed.  Two keys that begin alike are the
same key for the filter, which costs false positives and nothing else.
-/

set_option autoImplicit false

namespace ScratchStore

/-- The number of bytes of the array, `(1 << 16) / 8`. -/
def bloomBytes : ℕ := 8192

/-- The members of `BloomFile`. -/
structure BloomFile where
  arr : Bytes
  fname : String
  bloomwrite : WFile

namespace BloomFile

/-- `1<<(s%8)`. -/
def bit (s : ℕ) : UInt8 := 1 <<< UInt8.ofNat (s % 8)

/-- `arr[s/8] & (1<<(s%8))`. -/
def hasBit (arr : Bytes) (s : ℕ) : Bool := decide (arr.getD (s / 8) 0 &&& bit s ≠ 0)

/-- `setFile(i)`. -/
def setFile (b : BloomFile) (i : ℕ) (fs : FS) : BloomFile × FS :=
  let (fs, f) := fs.fwrite { b.bloomwrite with pos := i } [b.arr.getD i 0]
  ({ b with bloomwrite := f }, fs)

/-- One round of the loop of `set`. -/
def setBit (s : ℕ) (b : BloomFile) (fs : FS) : BloomFile × FS :=
  let temp := b.arr.getD (s / 8) 0 ||| bit s
  if temp ≠ b.arr.getD (s / 8) 0 then setFile { b with arr := b.arr.set (s / 8) temp } (s / 8) fs
  else (b, fs)

variable {K : Type} [Pod K]

/-- The `i`-th `unsigned short` of a key. -/
def short (k : K) (i : ℕ) : ℕ := ofLEBytes (((Pod.toBytes k).drop (2 * i)).take 2)

/-- `set(k)`. -/
def set (b : BloomFile) (k : K) (fs : FS) : BloomFile × FS :=
  (List.range 3).foldl (fun s i ↦ setBit (short k i) s.1 s.2) (b, fs)

/-- `get(k)`. -/
def get (b : BloomFile) (k : K) : Bool := (List.range 3).all fun i ↦ hasBit b.arr (short k i)

/-- The end of the constructor: create the file and write the array to it. -/
def writeArr (arr : Bytes) (fname : String) (fs : FS) : Option (BloomFile × FS) :=
  (fs.fopenWrite fname).map fun fs ↦
    let (fs, f) := fs.fwrite ⟨fname, 0, true⟩ arr
    (⟨arr, fname, f⟩, fs)

/-- `BloomFile(fname, initial, load)`, or `exit(1)`. -/
def create (K : Type) [Pod K] (fname : String) (initial load : Bool) (fs : FS) :
    Option (BloomFile × FS) :=
  if load then
    (fs.fopenRead fname).bind fun bloomread ↦
      let (arr, _) := bloomread.fread bloomBytes
      if arr.length ≠ bloomBytes then none else writeArr arr fname fs
  else if Pod.sizeof K < 48 then none
  else writeArr (List.replicate bloomBytes (if initial then 255 else 0)) fname fs

/-! ## Bits -/

theorem bit_ne_zero (s : ℕ) : bit s ≠ 0 := by
  have h : ∀ n < 8, (1 : UInt8) <<< UInt8.ofNat n ≠ 0 := by decide
  exact h (s % 8) (Nat.mod_lt _ (by decide))

theorem or_and_distrib (x y m : UInt8) : (x ||| y) &&& m = x &&& m ||| y &&& m := by
  refine UInt8.toBitVec_inj.mp ?_
  rw [UInt8.toBitVec_and, UInt8.toBitVec_or, UInt8.toBitVec_or, UInt8.toBitVec_and,
    UInt8.toBitVec_and]
  ext i
  simp only [BitVec.getElem_and, BitVec.getElem_or]
  exact Bool.and_or_distrib_right _ _ _

theorem hasBit_set {arr : Bytes} {s : ℕ} (hs : s / 8 < arr.length) {s' : ℕ} :
    hasBit (arr.set (s / 8) (arr.getD (s / 8) 0 ||| bit s)) s' = true ↔
      hasBit arr s' = true ∨ (s' / 8 = s / 8 ∧ bit s &&& bit s' ≠ 0) := by
  simp only [hasBit, decide_eq_true_eq, List.getD_eq_getElem?_getD, List.getElem?_set]
  by_cases hj : s / 8 = s' / 8
  · rw [if_pos hj, if_pos hs, ← hj, Option.getD_some, or_and_distrib, ne_eq, UInt8.or_eq_zero_iff,
      not_and_or]
    simp
  · rw [if_neg hj]
    simp [Ne.symm hj]

/-! ## The array and the file

A byte of the array that changes is written to the file at once, so they have the same bytes between two
calls. -/

/-- The file has the bytes of the array, and the stream is open on it. -/
structure Mirrors (b : BloomFile) (fs : FS) : Prop where
  /-- The size of the array is fixed. -/
  length_arr : b.arr.length = bloomBytes
  name_eq : b.bloomwrite.name = b.fname
  /-- The stream of the file stays open. -/
  isOpen : b.bloomwrite.isOpen = true
  /-- The file has what the array has. -/
  content_eq : fs.content b.fname = some b.arr

theorem Mirrors.congr {b : BloomFile} {fs fs' : FS} (h : b.Mirrors fs)
    (hfs : fs'.content b.fname = fs.content b.fname) : b.Mirrors fs' :=
  ⟨h.length_arr, h.name_eq, h.isOpen, hfs.trans h.content_eq⟩

theorem overwrite_singleton {old : Bytes} {i : ℕ} (h : i < old.length) (x : UInt8) :
    overwrite old i [x] = old.set i x := by
  rw [overwrite, List.set_eq_take_append_cons_drop, if_pos h, show i - old.length = 0 by omega]
  simp

/-- What setting a bit does to the array, the file and the other files. -/
theorem Mirrors.setBit {b : BloomFile} {fs : FS} (h : b.Mirrors fs) {s : ℕ}
    (hs : s / 8 < bloomBytes) :
    (setBit s b fs).1.Mirrors (setBit s b fs).2 ∧ (setBit s b fs).1.fname = b.fname ∧
      (setBit s b fs).1.arr = b.arr.set (s / 8) (b.arr.getD (s / 8) 0 ||| bit s) ∧
      (∀ name, name ≠ b.fname → (setBit s b fs).2.content name = fs.content name) ∧
      (setBit s b fs).2.writable = fs.writable := by
  have hlt : s / 8 < b.arr.length := h.length_arr.symm ▸ hs
  rw [BloomFile.setBit]
  split_ifs with hne
  · have hread : fs.read b.fname = b.arr := by rw [FS.read, h.content_eq]; rfl
    rw [setFile]
    dsimp only
    rw [FS.fwrite, if_pos h.isOpen, h.name_eq, hread, overwrite_singleton hlt]
    have hget : (b.arr.set (s / 8) (b.arr.getD (s / 8) 0 ||| bit s)).getD (s / 8) 0 =
        b.arr.getD (s / 8) 0 ||| bit s := by
      rw [List.getD_eq_getElem?_getD, List.getElem?_set_self hlt, Option.getD_some]
    dsimp only
    rw [hget]
    exact ⟨⟨by rw [List.length_set]; exact h.length_arr, rfl, h.isOpen,
      FS.content_write_self _ _ _⟩, rfl, rfl, fun name hn ↦ FS.content_write_of_ne hn _, rfl⟩
  · refine ⟨h, rfl, ?_, fun _ _ ↦ rfl, rfl⟩
    rw [not_not.mp hne, List.getD_eq_getElem?_getD, List.getElem?_eq_getElem hlt, Option.getD_some,
      List.set_getElem_self]

theorem short_lt (k : K) (i : ℕ) : short k i / 8 < bloomBytes := by
  have hlt : short k i < 256 ^ 2 :=
    (ofLEBytes_lt _).trans_le (Nat.pow_le_pow_right (by decide) (by rw [List.length_take]; omega))
  rw [bloomBytes]
  omega

/-- **What `set` does**: the bits of the key are set, no bit is lost, and only the filter's own
file changes. -/
theorem Mirrors.set {b : BloomFile} {fs : FS} (h : b.Mirrors fs) (k : K) :
    (b.set k fs).1.Mirrors (b.set k fs).2 ∧ (b.set k fs).1.fname = b.fname ∧
      (∀ s, hasBit b.arr s = true → hasBit (b.set k fs).1.arr s = true) ∧
      (∀ i < 3, hasBit (b.set k fs).1.arr (short k i) = true) ∧
      (∀ name, name ≠ b.fname → (b.set k fs).2.content name = fs.content name) ∧
      (b.set k fs).2.writable = fs.writable := by
  obtain ⟨m0, f0, a0, o0, w0⟩ := h.setBit (short_lt k 0)
  obtain ⟨m1, f1, a1, o1, w1⟩ := m0.setBit (short_lt k 1)
  obtain ⟨m2, f2, a2, o2, w2⟩ := m1.setBit (short_lt k 2)
  have hstep : ∀ {c : BloomFile} {gs : FS} (hc : c.Mirrors gs) (i : ℕ),
      (∀ s, hasBit c.arr s = true → hasBit (BloomFile.setBit (short k i) c gs).1.arr s = true) ∧
        hasBit (BloomFile.setBit (short k i) c gs).1.arr (short k i) = true := by
    intro c gs hc i
    have hlt : short k i / 8 < c.arr.length := hc.length_arr.symm ▸ short_lt k i
    rw [(hc.setBit (short_lt k i)).2.2.1]
    refine ⟨fun s hs ↦ (hasBit_set hlt).mpr (Or.inl hs), (hasBit_set hlt).mpr (Or.inr ⟨rfl, ?_⟩)⟩
    rw [UInt8.and_self]
    exact bit_ne_zero _
  obtain ⟨k0, s0⟩ := hstep h 0
  obtain ⟨k1, s1⟩ := hstep m0 1
  obtain ⟨k2, s2⟩ := hstep m1 2
  have heq : b.set k fs = BloomFile.setBit (short k 2)
      (BloomFile.setBit (short k 1) (BloomFile.setBit (short k 0) b fs).1
        (BloomFile.setBit (short k 0) b fs).2).1
      (BloomFile.setBit (short k 1) (BloomFile.setBit (short k 0) b fs).1
        (BloomFile.setBit (short k 0) b fs).2).2 := rfl
  rw [heq]
  refine ⟨m2, f2.trans (f1.trans f0), fun s hs ↦ k2 s (k1 s (k0 s hs)), fun i hi ↦ ?_,
    fun name hn ↦ ?_, w2.trans (w1.trans w0)⟩
  · obtain rfl | rfl | rfl : i = 0 ∨ i = 1 ∨ i = 2 := by omega
    · exact k2 _ (k1 _ s0)
    · exact k2 _ s1
    · exact s2
  · rw [o2 name (by rwa [f1, f0]), o1 name (by rwa [f0]), o0 name hn]

theorem get_iff {b : BloomFile} {k : K} :
    b.get k = true ↔ ∀ i < 3, hasBit b.arr (short k i) = true := by
  simp [get]

/-- The answer depends on the array only. -/
theorem get_congr {b b' : BloomFile} (h : b.arr = b'.arr) (k : K) : b.get k = b'.get k := by
  rw [get, get, h]

/-- **A key that was set is found.** -/
theorem get_set_self {b : BloomFile} {fs : FS} (h : b.Mirrors fs) (k : K) :
    (b.set k fs).1.get k = true := get_iff.mpr (h.set k).2.2.2.1

/-- **Setting a key keeps the others.** -/
theorem get_set_of_get {b : BloomFile} {fs : FS} (h : b.Mirrors fs) {k k' : K}
    (hk : b.get k' = true) : (b.set k fs).1.get k' = true :=
  get_iff.mpr fun i hi ↦ (h.set k).2.2.1 _ (get_iff.mp hk i hi)

/-! ## Creating and reloading

A filter that is loaded reads its file and writes the same bytes to it anew, since its stream is opened
for writing. -/

theorem writeArr_eq {arr : Bytes} (hlen : arr.length = bloomBytes) {fname : String} {fs : FS}
    (hw : fs.writable fname = true) :
    ∃ f, writeArr arr fname fs = some (⟨arr, fname, f⟩, fs.write fname arr) ∧
      Mirrors ⟨arr, fname, f⟩ (fs.write fname arr) := by
  have hend : WFile.AtEnd ⟨fname, 0, true⟩ (fs.write fname []) :=
    ⟨rfl, [], FS.content_write_self _ _ _, rfl⟩
  refine ⟨⟨fname, 0 + arr.length, true⟩, ?_, hlen, rfl, rfl, FS.content_write_self _ _ _⟩
  rw [writeArr, FS.fopenWrite, if_pos hw, Option.map_some, FS.fwrite_of_atEnd hend]
  simp

/-- **Loading a filter** gives back the array that is in the file. -/
theorem create_load {arr : Bytes} (hlen : arr.length = bloomBytes) {fname : String} {fs : FS}
    (hw : fs.writable fname = true) (hfs : fs.content fname = some arr) (initial : Bool) :
    ∃ f, create K fname initial true fs = some (⟨arr, fname, f⟩, fs.write fname arr) ∧
      Mirrors ⟨arr, fname, f⟩ (fs.write fname arr) := by
  obtain ⟨f, heq, hm⟩ := writeArr_eq hlen hw
  refine ⟨f, ?_, hm⟩
  have hread : RFile.fread ⟨arr, 0, false⟩ bloomBytes = (arr, ⟨arr, 0 + arr.length, false⟩) := by
    have hrest : RFile.rest ⟨arr, 0, false⟩ = arr ++ [] := by simp [RFile.rest]
    rw [← hlen, RFile.fread_of_rest hrest]
  simp only [create, FS.fopenRead, hfs, if_true, Option.map_some, Option.bind_some, hread, hlen,
    ne_eq, not_true_eq_false, if_false, heq]

end BloomFile

end ScratchStore
