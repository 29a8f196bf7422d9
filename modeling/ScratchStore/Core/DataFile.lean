import ScratchStore.Lib.Pod
import ScratchStore.Lib.SortedAssoc

/-!
# The format of the store's files

A data file is one header of the size of a record followed by records in strictly ascending key
order.  Readers trust the order but not the length: `records` is what a reader makes of any byte
string, the complete records after the header, and `fileMap` the partial map they stand for.  A
`DataFile` is a well-formed file, which cannot be built out of order or with a short header.

* `records_append` reads back what was written behind a header, and ignores an incomplete record at the end.
* `length_records` is the number the readers compute from the length of the file.
* `isDataFile_iff` says which byte strings are well formed, without mentioning a list of records.

A file that is empty, or shorter than its header, has no records.  This is no special case: it is what a
file of the ring looks like between its truncation and the write that follows.
-/

set_option autoImplicit false

namespace ScratchStore

open SortedAssoc

variable {K V : Type} [Pod K] [Pod V]

/-- The complete records after the header. -/
def records (K V : Type) [Pod K] [Pod V] (bs : Bytes) : List (K × V) :=
  Pod.decode (K × V) (bs.drop (Pod.sizeof (K × V)))

@[simp] theorem records_nil : records K V [] = [] := by simp [records]

theorem records_append {header : Bytes} (h : header.length = Pod.sizeof (K × V))
    (rs : List (K × V)) (tail : Bytes) (ht : tail.length < Pod.sizeof (K × V)) :
    records K V (header ++ Pod.encode rs ++ tail) = rs := by
  rw [records, List.append_assoc, ← h, List.drop_left, Pod.decode_encode_append rs tail ht]

theorem length_records (bs : Bytes) :
    (records K V bs).length = bs.length / Pod.sizeof (K × V) - 1 := by
  rw [records, Pod.length_decode, List.length_drop]
  exact Nat.sub_mul_div bs.length (Pod.sizeof (K × V)) 1 |>.symm ▸ by rw [Nat.mul_one]

variable [LinearOrder K]

/-- The value a file has for a key. -/
def fileMap (K V : Type) [Pod K] [Pod V] [LinearOrder K] (bs : Bytes) (k : K) : Option V :=
  (records K V bs).lookup k

@[simp] theorem fileMap_nil (k : K) : fileMap K V [] k = none := by simp [fileMap]

/-- A well-formed file. -/
structure DataFile (K V : Type) [Pod K] [Pod V] [LinearOrder K] where
  header : Bytes
  recs : List (K × V)
  length_header : header.length = Pod.sizeof (K × V)
  ascending : Ascending recs

namespace DataFile

/-- The file on disk. -/
def bytes (f : DataFile K V) : Bytes := f.header ++ Pod.encode f.recs

@[simp] theorem records_bytes (f : DataFile K V) : records K V f.bytes = f.recs := by
  simpa [bytes] using records_append f.length_header f.recs [] Pod.sizeof_pos

theorem length_bytes (f : DataFile K V) :
    f.bytes.length = (1 + f.recs.length) * Pod.sizeof (K × V) := by
  rw [bytes, List.length_append, f.length_header, Pod.length_encode, Nat.add_mul, Nat.one_mul]

end DataFile

/-- The bytes are those of a well-formed file. -/
def IsDataFile (K V : Type) [Pod K] [Pod V] [LinearOrder K] (bs : Bytes) : Prop :=
  ∃ f : DataFile K V, f.bytes = bs

/-- A file is well formed when it has a header, no incomplete record, and its keys ascend. -/
theorem isDataFile_iff {bs : Bytes} :
    IsDataFile K V bs ↔ Pod.sizeof (K × V) ≤ bs.length ∧ Pod.sizeof (K × V) ∣ bs.length ∧
      Ascending (records K V bs) := by
  constructor
  · rintro ⟨f, rfl⟩
    rw [f.length_bytes, f.records_bytes]
    exact ⟨Nat.le_mul_of_pos_left _ (by omega), Dvd.intro_left _ rfl, f.ascending⟩
  · rintro ⟨hle, hdvd, hasc⟩
    refine ⟨⟨bs.take (Pod.sizeof (K × V)), records K V bs, by rw [List.length_take]; omega, hasc⟩, ?_⟩
    have hd : Pod.sizeof (K × V) ∣ (bs.drop (Pod.sizeof (K × V))).length := by
      rw [List.length_drop]
      exact Nat.dvd_sub hdvd dvd_rfl
    show bs.take (Pod.sizeof (K × V)) ++ Pod.encode (records K V bs) = bs
    rw [records, Pod.encode_decode_of_dvd hd, List.take_append_drop]

theorem IsDataFile.ascending {bs : Bytes} (h : IsDataFile K V bs) : Ascending (records K V bs) :=
  (isDataFile_iff.mp h).2.2

end ScratchStore
