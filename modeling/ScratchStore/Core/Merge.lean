import ScratchStore.Core.DataFile
import ScratchStore.Master.KeyValue
import ScratchStore.RBTree.BinaryTree

/-!
# Merging the two oldest files

`merge_files` of `Core/Merge.hpp` reads two files record by record and writes one.  It keeps the
next record of each file in a pair of variables and learns that a file is exhausted from `feof`,
after the read that could not be completed.

A `Reader` is a stream together with its variables.  `Reader.At r rs` is the invariant of all the
loops: either nothing is left and the stream is at end of file, or the variables hold the first of
the records `rs` and the stream stands before the others.  With it `mergeFiles_eq` shows that the
merge of any two byte strings is the header of the second oldest file followed by the
`SortedAssoc.overlay` of the two lists of records.

## The loops

The source has five loops: one that compares the first records of both files, and four that copy what is
left of one file, two for each.  Here they are `mergeLoop` and `drain`.  That a loop ends is seen from
`Reader.left`, a bound on the reads that may still succeed, which every round lowers.

A file may end in an incomplete record.  Then `feof` is set by the read that could not be completed, and the
variables keep what was in them.  The loops look at `feof` before they look at the variables, so nothing of
that record is written: `Reader.At r []` says no more than that the stream is at its end.

`isTomb` looks at the bytes of a value and not at a flag.  A value whose bytes are all `TOMBSTONE_BYTE` is
dropped in a merge, whoever wrote it.
-/

set_option autoImplicit false

namespace ScratchStore

open SortedAssoc

variable {K V : Type} [Pod K] [Pod V]

/-- The loop of `isTomb`: every byte of the value is a `TOMBSTONE_BYTE`. -/
def isTomb (entryv : V) : Bool := (Pod.toBytes entryv).all (· == tombstoneByte)

theorem isTomb_iff {v : V} : isTomb v = true ↔ v = tombstone V := by
  have htomb : Pod.toBytes (tombstone V) = List.replicate (Pod.sizeof V) tombstoneByte :=
    Pod.toBytes_ofBytes _ List.length_replicate
  rw [isTomb, List.all_eq_true, ← Pod.toBytes_injective.eq_iff, htomb, List.eq_replicate_iff]
  simp

@[simp] theorem isTomb_tombstone : isTomb (tombstone V) = true := isTomb_iff.mpr rfl

/-- One of the two files being read, and the variables `entryk` and `entryv` for its next record. -/
structure Reader (K V : Type) where
  file : RFile
  entryk : K
  entryv : V

namespace Reader

/-- `feof`. -/
def feof (r : Reader K V) : Bool := r.file.eof

/-- `fread(&entryk, sz_k, 1, file); fread(&entryv, sz_v, 1, file);` -/
def next (r : Reader K V) : Reader K V :=
  let (entryk, file) := r.file.freadInto r.entryk
  let (entryv, file) := file.freadInto r.entryv
  ⟨file, entryk, entryv⟩

/-- `if(!isTomb(&entryv))`: what is written to `newfd`. -/
def write (r : Reader K V) : Bytes :=
  if isTomb r.entryv then [] else Pod.toBytes r.entryk ++ Pod.toBytes r.entryv

/-- How many reads may still succeed. -/
def left (r : Reader K V) : ℕ := if r.feof then 0 else r.file.rest.length + 1

end Reader

/-! ## Reading up to the end of a file

`feof` is true after a read that came to the end and not before, so the loops of the source read once
more than there are records.  What the buffer has after that read is what it had before, but for the
bytes of an incomplete record. -/

namespace RFile

theorem eof_fread {f : RFile} (h : f.eof = true) (n : ℕ) : (f.fread n).2.eof = true := by
  simp [fread, h]

theorem rest_fread (f : RFile) (n : ℕ) : (f.fread n).2.rest = f.rest.drop n := by
  rw [fread, rest, rest, ← List.drop_drop, List.length_take]
  rcases Nat.le_total n (f.data.drop f.pos).length with h | h
  · rw [Nat.min_eq_left h]
  · rw [Nat.min_eq_right h, List.drop_length, List.drop_eq_nil_of_le h]

theorem eof_fread_iff {f : RFile} (h : f.eof = false) (n : ℕ) :
    (f.fread n).2.eof = true ↔ f.rest.length < n := by
  have hlen : ((f.data.drop f.pos).take n).length = min n f.rest.length := List.length_take
  simp only [fread, h, hlen, Bool.false_or, decide_eq_true_eq]
  omega

/-- Reading a value that is there. -/
theorem freadInto_of_rest {α : Type} [Pod α] {f : RFile} {a : α} {tail : Bytes}
    (h : f.rest = Pod.toBytes a ++ tail) (old : α) :
    f.freadInto old = (a, { f with pos := f.pos + Pod.sizeof α }) := by
  have hlen : Pod.sizeof α = (Pod.toBytes a).length := (Pod.length_toBytes a).symm
  rw [freadInto, hlen, fread_of_rest h]
  simp only [Prod.mk.injEq, and_true]
  rw [← hlen, List.drop_eq_nil_of_le (by simp), List.append_nil, Pod.ofBytes_toBytes]

theorem rest_freadInto {α : Type} [Pod α] (f : RFile) (old : α) :
    (f.freadInto old).2.rest = f.rest.drop (Pod.sizeof α) := rest_fread f _

end RFile

namespace Reader

/-- `feof` stays set. -/
theorem feof_next {r : Reader K V} (h : r.feof = true) : r.next.feof = true :=
  RFile.eof_fread (RFile.eof_fread h _) _

theorem rest_next (r : Reader K V) : r.next.file.rest = r.file.rest.drop (Pod.sizeof (K × V)) := by
  rw [Pod.sizeof_prod, ← List.drop_drop, ← RFile.rest_freadInto r.file r.entryk]
  exact RFile.rest_freadInto _ r.entryv

theorem left_next_lt {r : Reader K V} (h : r.feof = false) : r.next.left < r.left := by
  rw [left, left, rest_next, List.length_drop, h]
  cases hn : r.next.feof with
  | true => simp
  | false =>
    have hk : ¬r.file.rest.length < Pod.sizeof K := by
      intro hlt
      have heof := (RFile.eof_fread_iff h (Pod.sizeof K)).mpr hlt
      have : r.next.feof = true := RFile.eof_fread heof _
      rw [this] at hn; cases hn
    have hpos := Pod.sizeof_pos (α := K)
    have hle : Pod.sizeof K ≤ Pod.sizeof (K × V) := Nat.le_add_right _ _
    simp only [Bool.false_eq_true, if_false]
    omega

end Reader

/-! ## The loops

The two files in step, while both have a record, and then what is left of each.  The record that was
read last is still in its buffer when a loop ends, so what is left begins with it. -/

variable [LinearOrder K]

/-- The body of the first loop, up to its tests of `feof`. -/
def mergeStep (r2 r1 : Reader K V) (out : Bytes) : Reader K V × Reader K V × Bytes :=
  if r1.entryk < r2.entryk then (r2, r1.next, out ++ r1.write)
  else if r2.entryk < r1.entryk then (r2.next, r1, out ++ r2.write)
  else (r2.next, r1.next, out ++ r2.write)

theorem left_mergeStep_lt (r2 r1 : Reader K V) (out : Bytes)
    (h1 : ¬(mergeStep r2 r1 out).2.1.feof = true) (h2 : ¬(mergeStep r2 r1 out).1.feof = true) :
    (mergeStep r2 r1 out).1.left + (mergeStep r2 r1 out).2.1.left < r2.left + r1.left := by
  have hnext : ∀ r : Reader K V, ¬r.next.feof = true → r.feof = false := by
    intro r hr
    rw [Bool.eq_false_iff]
    exact fun h ↦ hr (Reader.feof_next h)
  rw [mergeStep] at h1 h2 ⊢
  split_ifs at h1 h2 ⊢
  · have := Reader.left_next_lt (hnext r1 h1)
    dsimp only
    omega
  · have := Reader.left_next_lt (hnext r2 h2)
    dsimp only
    omega
  · have := Reader.left_next_lt (hnext r2 h2)
    have := Reader.left_next_lt (hnext r1 h1)
    dsimp only
    omega

/-- The first loop: until one of the files is exhausted. -/
def mergeLoop (r2 r1 : Reader K V) (out : Bytes) : Reader K V × Reader K V × Bytes :=
  let s := mergeStep r2 r1 out
  if s.2.1.feof then s
  else if s.1.feof then s
  else mergeLoop s.1 s.2.1 s.2.2
termination_by r2.left + r1.left
decreasing_by exact left_mergeStep_lt r2 r1 out ‹_› ‹_›

omit [LinearOrder K] in
/-- The other loops: copy what is left of one file. -/
def drain (r : Reader K V) (out : Bytes) : Reader K V × Bytes :=
  if r.feof then (r, out) else drain r.next (out ++ r.write)
termination_by r.left
decreasing_by exact Reader.left_next_lt (by simpa using ‹¬r.feof = true›)

/-- What the variables of `merge_files` hold before anything is read. -/
structure Uninitialised (K V : Type) [Pod K] [Pod V] where
  timeStr2 : Bytes
  length_timeStr2 : timeStr2.length = Pod.sizeof (K × V)
  entry1 : K × V
  entry2 : K × V

/-- `merge_files(oldest2, oldest1, newfd)`: the bytes written to `newfd`.  The time stamps it also
reads decide nothing. -/
def mergeFiles (unset : Uninitialised K V) (oldest2 oldest1 : Bytes) : Bytes :=
  let sz := Pod.sizeof (K × V)
  let f1 := (RFile.fread ⟨oldest1, 0, false⟩ sz).2
  let (timeStr2, f2) := RFile.freadBuf ⟨oldest2, 0, false⟩ sz unset.timeStr2
  let r1 := Reader.next ⟨f1, unset.entry1.1, unset.entry1.2⟩
  let r2 := Reader.next ⟨f2, unset.entry2.1, unset.entry2.2⟩
  let (r2, r1, out) :=
    if r1.feof = false ∧ r2.feof = false then
      let (r2, r1, out) := mergeLoop r2 r1 timeStr2
      let (r1, out) := drain r1 out
      let (r2, out) := drain r2 out
      (r2, r1, out)
    else (r2, r1, timeStr2)
  let (_, out) := drain r1 out
  (drain r2 out).2

/-! ## What they write -/

namespace Reader

omit [LinearOrder K] in
/-- The records `rs` are still to be read from `r`, the first of them from its variables. -/
def At (r : Reader K V) : List (K × V) → Prop
  | [] => r.feof = true
  | x :: rs => r.feof = false ∧ (r.entryk, r.entryv) = x ∧ Pod.decode (K × V) r.file.rest = rs

omit [LinearOrder K]

/-- Reading the next record. -/
theorem at_next (r : Reader K V) (h : r.feof = false) :
    r.next.At (Pod.decode (K × V) r.file.rest) := by
  obtain ⟨tail, hlt, hrest⟩ := Pod.exists_encode_decode (α := K × V) r.file.rest
  cases hrs : Pod.decode (K × V) r.file.rest with
  | nil =>
    rw [hrs, Pod.encode_nil, List.nil_append] at hrest
    rw [← hrest] at hlt
    by_cases hk : r.file.rest.length < Pod.sizeof K
    · exact RFile.eof_fread ((RFile.eof_fread_iff h _).mpr hk) _
    · have hek : (r.file.freadInto r.entryk).2.eof = false := by
        rw [Bool.eq_false_iff]
        exact fun he ↦ hk ((RFile.eof_fread_iff h _).mp he)
      refine (RFile.eof_fread_iff hek _).mpr ?_
      rw [RFile.rest_freadInto, List.length_drop]
      have : Pod.sizeof (K × V) = Pod.sizeof K + Pod.sizeof V := rfl
      omega
  | cons x rs =>
    rw [hrs, Pod.encode_cons, Pod.toBytes_prod, List.append_assoc, List.append_assoc] at hrest
    have hk := RFile.freadInto_of_rest hrest r.entryk
    have hrest' : RFile.rest { r.file with pos := r.file.pos + Pod.sizeof K } =
        Pod.toBytes x.2 ++ (Pod.encode rs ++ tail) := by
      have := RFile.rest_advance hrest r.file.eof
      rwa [Pod.length_toBytes] at this
    have hv := RFile.freadInto_of_rest hrest' r.entryv
    have hnext : r.next = ⟨{ r.file with pos := r.file.pos + Pod.sizeof K + Pod.sizeof V }, x.1, x.2⟩ := by
      rw [next, hk]
      dsimp only
      rw [hv]
    rw [hnext]
    refine ⟨h, rfl, ?_⟩
    have := RFile.rest_advance hrest' r.file.eof
    rw [Pod.length_toBytes] at this
    dsimp only
    rw [this]
    exact Pod.decode_encode_append rs tail hlt

theorem At.next {r : Reader K V} {x : K × V} {rs : List (K × V)} (h : r.At (x :: rs)) :
    r.next.At rs := by
  obtain ⟨heof, -, hrs⟩ := h
  exact hrs ▸ at_next r heof

theorem At.write {r : Reader K V} {x : K × V} {rs : List (K × V)} (h : r.At (x :: rs)) :
    r.write = Pod.encode (keep isTomb x) := by
  obtain ⟨-, hx, -⟩ := h
  rw [Reader.write, keep, ← hx]
  split_ifs with ht
  · rfl
  · simp [Pod.toBytes_prod]

/-- The reader of a file after its header and first record. -/
theorem at_start (bs : Bytes) (k : K) (v : V) :
    (Reader.next ⟨(RFile.fread ⟨bs, 0, false⟩ (Pod.sizeof (K × V))).2, k, v⟩).At (records K V bs) := by
  by_cases hlt : bs.length < Pod.sizeof (K × V)
  · have heof : (RFile.fread ⟨bs, 0, false⟩ (Pod.sizeof (K × V))).2.eof = true :=
      (RFile.eof_fread_iff rfl _).mpr hlt
    rw [records, List.drop_eq_nil_of_le (Nat.le_of_lt hlt), Pod.decode_nil]
    exact feof_next heof
  · have heof : (RFile.fread ⟨bs, 0, false⟩ (Pod.sizeof (K × V))).2.eof = false := by
      rw [Bool.eq_false_iff]
      exact fun he ↦ hlt ((RFile.eof_fread_iff rfl _).mp he)
    have hnext := at_next ⟨(RFile.fread ⟨bs, 0, false⟩ (Pod.sizeof (K × V))).2, k, v⟩ heof
    rwa [RFile.rest_fread] at hnext

end Reader

omit [LinearOrder K] in
/-- **Copying the rest of a file** leaves out the tombstones. -/
theorem drain_eq {r : Reader K V} {rs : List (K × V)} (h : r.At rs) (out : Bytes) :
    (drain r out).1.At [] ∧
      (drain r out).2 = out ++ Pod.encode (rs.filter fun x ↦ !isTomb x.2) := by
  induction rs generalizing r out with
  | nil =>
    have heof : r.feof = true := h
    rw [drain, if_pos heof]
    exact ⟨h, by simp⟩
  | cons x rs ih =>
    rw [drain, if_neg (by simp [h.1]), h.write, filter_eq_keep, Pod.encode_append,
      ← List.append_assoc]
    exact ih h.next _

/-- One step of the merge takes the smaller first record, or both when the keys agree. -/
theorem mergeStep_eq {r2 r1 : Reader K V} {x y : K × V} {xs ys : List (K × V)}
    (h2 : r2.At (x :: xs)) (h1 : r1.At (y :: ys)) (out : Bytes) :
    ∃ xs' ys' out', (mergeStep r2 r1 out).1.At xs' ∧ (mergeStep r2 r1 out).2.1.At ys' ∧
      (mergeStep r2 r1 out).2.2 = out' ∧ xs'.length + ys'.length < (x :: xs).length + (y :: ys).length ∧
      out' ++ Pod.encode (overlay isTomb xs' ys') =
        out ++ Pod.encode (overlay isTomb (x :: xs) (y :: ys)) := by
  have hk2 : r2.entryk = x.1 := congrArg Prod.fst h2.2.1
  have hk1 : r1.entryk = y.1 := congrArg Prod.fst h1.2.1
  rw [mergeStep, overlay, hk1, hk2]
  split_ifs with hlt hgt
  · refine ⟨x :: xs, ys, _, h2, h1.next, rfl, by simp, ?_⟩
    rw [h1.write, Pod.encode_append, List.append_assoc]
  · refine ⟨xs, y :: ys, _, h2.next, h1, rfl, by simp, ?_⟩
    rw [h2.write, Pod.encode_append, List.append_assoc]
  · refine ⟨xs, ys, _, h2.next, h1.next, rfl, by simp; omega, ?_⟩
    rw [h2.write, Pod.encode_append, List.append_assoc]

theorem mergeLoop_eq {r2 r1 : Reader K V} {x y : K × V} {xs ys : List (K × V)}
    (h2 : r2.At (x :: xs)) (h1 : r1.At (y :: ys)) (out : Bytes) :
    ∃ xs' ys', (mergeLoop r2 r1 out).1.At xs' ∧ (mergeLoop r2 r1 out).2.1.At ys' ∧
      (xs' = [] ∨ ys' = []) ∧
      (mergeLoop r2 r1 out).2.2 ++ Pod.encode (overlay isTomb xs' ys') =
        out ++ Pod.encode (overlay isTomb (x :: xs) (y :: ys)) := by
  obtain ⟨n, hn⟩ : ∃ n, (x :: xs).length + (y :: ys).length = n := ⟨_, rfl⟩
  induction n using Nat.strong_induction_on generalizing r2 r1 x y xs ys out with
  | _ n ih =>
    obtain ⟨xs', ys', out', hx, hy, hout, hlt, heq⟩ := mergeStep_eq h2 h1 out
    rw [mergeLoop]
    cases ys' with
    | nil =>
      have heof : (mergeStep r2 r1 out).2.1.feof = true := hy
      simp only [heof, if_true]
      exact ⟨xs', [], hx, hy, Or.inr rfl, by rw [hout, heq]⟩
    | cons y' ys' =>
      have heof : (mergeStep r2 r1 out).2.1.feof = false := hy.1
      cases xs' with
      | nil =>
        have heof' : (mergeStep r2 r1 out).1.feof = true := hx
        simp only [heof, heof', if_true, Bool.false_eq_true, if_false]
        exact ⟨[], y' :: ys', hx, hy, Or.inl rfl, by rw [hout, heq]⟩
      | cons x' xs' =>
        have heof' : (mergeStep r2 r1 out).1.feof = false := hx.1
        simp only [heof, heof', Bool.false_eq_true, if_false]
        rw [← heq, ← hout]
        exact ih _ (hn ▸ hlt) hx hy _ rfl

/-- The header `merge_files` writes. -/
def mergeHeader (unset : Uninitialised K V) (oldest2 : Bytes) : Bytes :=
  (RFile.freadBuf ⟨oldest2, 0, false⟩ (Pod.sizeof (K × V)) unset.timeStr2).1

omit [LinearOrder K] in
theorem length_mergeHeader (unset : Uninitialised K V) (oldest2 : Bytes) :
    (mergeHeader unset oldest2).length = Pod.sizeof (K × V) := by
  rw [mergeHeader, RFile.freadBuf, RFile.fread]
  dsimp only
  rw [List.length_append, List.length_drop, unset.length_timeStr2, List.drop_zero,
    List.length_take]
  omega

omit [LinearOrder K] in
/-- The header of the second oldest file, when it has one. -/
theorem mergeHeader_eq (unset : Uninitialised K V) {oldest2 : Bytes}
    (h : Pod.sizeof (K × V) ≤ oldest2.length) :
    mergeHeader unset oldest2 = oldest2.take (Pod.sizeof (K × V)) := by
  rw [mergeHeader, RFile.freadBuf, RFile.fread]
  dsimp only
  rw [List.drop_zero, List.length_take, Nat.min_eq_left h,
    List.drop_eq_nil_of_le unset.length_timeStr2.le, List.append_nil]

/-- **The merge of any two files** is the header of the second oldest and the overlay of their
records. -/
theorem mergeFiles_eq (unset : Uninitialised K V) (oldest2 oldest1 : Bytes) :
    mergeFiles unset oldest2 oldest1 = mergeHeader unset oldest2 ++
      Pod.encode (overlay isTomb (records K V oldest2) (records K V oldest1)) := by
  have h1 := Reader.at_start oldest1 unset.entry1.1 unset.entry1.2
  have h2 : (Reader.next ⟨(RFile.freadBuf ⟨oldest2, 0, false⟩ (Pod.sizeof (K × V))
      unset.timeStr2).2, unset.entry2.1, unset.entry2.2⟩).At (records K V oldest2) :=
    Reader.at_start oldest2 unset.entry2.1 unset.entry2.2
  simp only [mergeFiles, mergeHeader]
  generalize (RFile.freadBuf ⟨oldest2, 0, false⟩ (Pod.sizeof (K × V)) unset.timeStr2).1 = out
  generalize (Reader.next ⟨(RFile.fread ⟨oldest1, 0, false⟩ _).2, _, _⟩ : Reader K V) = r1 at h1 ⊢
  generalize (Reader.next ⟨(RFile.freadBuf ⟨oldest2, 0, false⟩ _ _).2, _, _⟩ : Reader K V) = r2
    at h2 ⊢
  generalize records K V oldest1 = ys at h1 ⊢
  generalize records K V oldest2 = xs at h2 ⊢
  -- once one file is exhausted, copying both files is the overlay of what is left
  have hdrain : ∀ (s2 s1 : Reader K V) (xs ys : List (K × V)) (out : Bytes), s2.At xs → s1.At ys →
      xs = [] ∨ ys = [] → (drain s2 (drain s1 out).2).1.At [] ∧ (drain s1 out).1.At [] ∧
        (drain s2 (drain s1 out).2).2 = out ++ Pod.encode (overlay isTomb xs ys) := by
    intro s2 s1 xs ys out hs2 hs1 hnil
    obtain ⟨he1, ho1⟩ := drain_eq hs1 out
    obtain ⟨he2, ho2⟩ := drain_eq hs2 (drain s1 out).2
    refine ⟨he2, he1, ?_⟩
    rw [ho2, ho1]
    rcases hnil with rfl | rfl
    · simp [overlay]
    · cases xs <;> simp [overlay]
  split_ifs with hif
  · obtain ⟨x, xs, rfl⟩ : ∃ x xs', xs = x :: xs' := by
      cases xs with
      | nil => exact absurd hif.2 (by rw [show r2.feof = true from h2]; simp)
      | cons x xs => exact ⟨x, xs, rfl⟩
    obtain ⟨y, ys, rfl⟩ : ∃ y ys', ys = y :: ys' := by
      cases ys with
      | nil => exact absurd hif.1 (by rw [show r1.feof = true from h1]; simp)
      | cons y ys => exact ⟨y, ys, rfl⟩
    obtain ⟨xs', ys', hx, hy, hnil, heq⟩ := mergeLoop_eq h2 h1 out
    obtain ⟨he2, he1, hout⟩ := hdrain _ _ xs' ys' (mergeLoop r2 r1 out).2.2 hx hy hnil
    dsimp only
    rw [(hdrain _ _ [] [] _ he2 he1 (Or.inl rfl)).2.2, hout, ← heq]
    simp [overlay]
  · have hnil : xs = [] ∨ ys = [] := by
      by_contra hne
      rw [not_or] at hne
      refine hif ⟨?_, ?_⟩
      · cases ys with
        | nil => exact absurd rfl hne.2
        | cons y ys => exact h1.1
      · cases xs with
        | nil => exact absurd rfl hne.1
        | cons x xs => exact h2.1
    exact (hdrain r2 r1 xs ys out h2 h1 hnil).2.2

/-! ## The merged file -/

theorem records_mergeFiles (unset : Uninitialised K V) (oldest2 oldest1 : Bytes) :
    records K V (mergeFiles unset oldest2 oldest1) =
      overlay isTomb (records K V oldest2) (records K V oldest1) := by
  have hrec := records_append (length_mergeHeader unset oldest2)
    (overlay isTomb (records K V oldest2) (records K V oldest1)) [] Pod.sizeof_pos
  rwa [List.append_nil, ← mergeFiles_eq] at hrec

/-- **The map of the merged file** is that of the two files compacted. -/
theorem fileMap_mergeFiles (unset : Uninitialised K V) {oldest2 oldest1 : Bytes}
    (ha2 : Ascending (records K V oldest2)) (ha1 : Ascending (records K V oldest1)) :
    fileMap K V (mergeFiles unset oldest2 oldest1) =
      Layers.compact isTomb (fileMap K V oldest2) (fileMap K V oldest1) := by
  funext k
  rw [fileMap, records_mergeFiles, lookup_overlay ha2 ha1]
  rfl

/-- **`merge_files` is the sorted overlay of its inputs**, which may end in an incomplete record.
That it comes to an end is that `mergeLoop` and `drain` do: every round but the last has read a
record.

A key of the second oldest file has the value it has there, or none if that is the reserved value; for the
other keys the oldest file decides, in the same way.  The header is that of the second oldest file. -/
theorem mergeFiles_sorted (unset : Uninitialised K V) {header2 header1 tail2 tail1 : Bytes}
    {recs2 recs1 : List (K × V)} (hh2 : header2.length = Pod.sizeof (K × V))
    (hh1 : header1.length = Pod.sizeof (K × V)) (ha2 : Ascending recs2) (ha1 : Ascending recs1)
    (ht2 : tail2.length < Pod.sizeof (K × V)) (ht1 : tail1.length < Pod.sizeof (K × V)) :
    ∃ out, mergeFiles unset (header2 ++ Pod.encode recs2 ++ tail2)
        (header1 ++ Pod.encode recs1 ++ tail1) = header2 ++ Pod.encode out ∧
      Ascending out ∧
      ∀ k, (∀ v2, (k, v2) ∈ recs2 → ∀ v, (k, v) ∈ out ↔ v = v2 ∧ isTomb v2 = false) ∧
        ((∀ v2, (k, v2) ∉ recs2) → ∀ v, (k, v) ∈ out ↔ (k, v) ∈ recs1 ∧ isTomb v = false) := by
  refine ⟨overlay isTomb recs2 recs1, ?_, ha2.overlay ha1, fun k ↦ ⟨fun v2 hv2 v ↦ ?_,
    fun hnone v ↦ ?_⟩⟩
  · have hle : Pod.sizeof (K × V) ≤ (header2 ++ Pod.encode recs2 ++ tail2).length := by
      rw [List.append_assoc, List.length_append]
      omega
    rw [mergeFiles_eq, records_append hh2 _ _ ht2, records_append hh1 _ _ ht1,
      mergeHeader_eq unset hle, List.append_assoc, ← hh2, List.take_left]
  · rw [mem_overlay ha2 ha1]
    constructor
    · rintro ⟨hlive, hmem | ⟨-, hnot⟩⟩
      · have hv : v = v2 := Option.some.inj
          (((lookup_eq_some ha2).mpr hmem).symm.trans ((lookup_eq_some ha2).mpr hv2))
        exact ⟨hv, hv ▸ hlive⟩
      · exact absurd rfl (hnot (k, v2) hv2)
    · rintro ⟨rfl, hlive⟩
      exact ⟨hlive, Or.inl hv2⟩
  · rw [mem_overlay ha2 ha1]
    constructor
    · rintro ⟨hlive, hmem | ⟨hmem, -⟩⟩
      · exact absurd hmem (hnone v)
      · exact ⟨hmem, hlive⟩
    · rintro ⟨hmem, hlive⟩
      refine ⟨hlive, Or.inr ⟨hmem, fun x hx hk ↦ hnone x.2 ?_⟩⟩
      rwa [show (k, x.2) = x from Prod.ext hk.symm rfl]

/-- The second oldest file has a tombstone for the key of the oldest, and ends in mid-record. -/
theorem mergeFiles_sorted_tombstone :
    ∃ out : List (Master.K × Master.V), mergeFiles (K := Master.K) (V := Master.V)
        ⟨List.replicate 128 0, List.length_replicate, (Master.zeroK, Master.zeroV),
          (Master.zeroK, Master.zeroV)⟩
        (List.replicate 128 0 ++ Pod.encode [(Master.zeroK, tombstone Master.V)] ++ [9])
        (List.replicate 128 0 ++ Pod.encode [(Master.zeroK, Master.zeroV)] ++ []) =
          List.replicate 128 0 ++ Pod.encode out ∧
      ∀ v, (Master.zeroK, v) ∉ out := by
  have hheader : (List.replicate 128 (0 : UInt8)).length = Pod.sizeof (Master.K × Master.V) :=
    List.length_replicate
  have hasc : ∀ v : Master.V, Ascending [(Master.zeroK, v)] := fun v ↦ List.pairwise_singleton _ _
  have htail : ([9] : Bytes).length < Pod.sizeof (Master.K × Master.V) := by decide
  have htail' : ([] : Bytes).length < Pod.sizeof (Master.K × Master.V) := by decide
  obtain ⟨out, heq, -, hout⟩ := mergeFiles_sorted
    ⟨List.replicate 128 0, hheader, (Master.zeroK, Master.zeroV), (Master.zeroK, Master.zeroV)⟩
    hheader hheader (hasc (tombstone _)) (hasc Master.zeroV) htail htail'
  refine ⟨out, heq, fun v hv ↦ ?_⟩
  have htomb := ((hout Master.zeroK).1 (tombstone Master.V) (by simp) v).mp hv
  rw [isTomb_tombstone] at htomb
  exact absurd htomb.2 (by decide)

/-- **Merging two well-formed files** gives a well-formed file without tombstones. -/
def mergedFile (f2 f1 : DataFile K V) : DataFile K V where
  header := f2.header
  recs := overlay isTomb f2.recs f1.recs
  length_header := f2.length_header
  ascending := f2.ascending.overlay f1.ascending

theorem mergeFiles_bytes (unset : Uninitialised K V) (f2 f1 : DataFile K V) :
    mergeFiles unset f2.bytes f1.bytes = (mergedFile f2 f1).bytes := by
  have hle : Pod.sizeof (K × V) ≤ f2.bytes.length := by
    rw [f2.length_bytes]; exact Nat.le_mul_of_pos_left _ (by omega)
  rw [mergeFiles_eq, mergeHeader_eq unset hle, f2.records_bytes, f1.records_bytes,
    DataFile.bytes, ← f2.length_header, List.take_left]
  rfl

end ScratchStore
