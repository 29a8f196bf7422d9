import ScratchStore.Core.Read
import ScratchStore.Master.KeyValue

/-!
# What a lookup asks the cache for

* `findEntryReads` is `findEntry` again, with its argument `value` and with a list of the ranges it passes to
  `FileIO::fread`.  `findLoop_eq_reads` says that this is the same function.
* `reads_findLoopReads`: the ranges are bounded by the interval alone, whatever the reads deliver.  It is an
  induction on the loop that needs nothing of the file.
* `findEntryReads_exact`: on a file of any length and content a lookup ends, reads within the file, and finds
  what is there.
-/

set_option autoImplicit false

namespace ScratchStore

open SortedAssoc FileIO

variable {K V : Type} [Pod K] [Pod V] [LinearOrder K]

/-- How a `findEntry` ends: its result, the variable `value`, the offsets and sizes of the reads it
made, and the system. -/
structure Found (V : Type) where
  found : Bool
  value : V
  reads : List (ℕ × ℕ)
  sys : Sys

/-- The loop of `findEntry`, noting its reads. -/
def findLoopReads (fileHandle : ℤ) (key : K) (value : V) (low high : ℤ) (s : Sys) : Option (Found V) :=
  if low ≤ high then
    let mid := (low + high) / 2
    let offset := (mid * Pod.sizeof (K × V)).toNat
    (fread (Pod.sizeof K) offset fileHandle s).bind fun (_, entryKey, s) ↦
      let found :=
        if (Pod.ofBytes entryKey : K) < key then findLoopReads fileHandle key value (mid + 1) high s
        else if key < (Pod.ofBytes entryKey : K) then
          findLoopReads fileHandle key value low (mid - 1) s
        else
          let offset := (mid * Pod.sizeof (K × V) + Pod.sizeof K).toNat
          (fread (Pod.sizeof V) offset fileHandle s).map fun (_, value, s) ↦
            ⟨true, Pod.ofBytes value, [(offset, Pod.sizeof V)], s⟩
      found.map fun r ↦ { r with reads := (offset, Pod.sizeof K) :: r.reads }
  else some ⟨false, value, [], s⟩
termination_by (high + 1 - low).toNat
decreasing_by all_goals omega

/-- `findEntry(fileHandle, key, value)`, noting its reads. -/
def findEntryReads (fileHandle : ℤ) (key : K) (value : V) (s : Sys) : Option (Found V) :=
  (fsize fileHandle s).bind fun size ↦
    findLoopReads fileHandle key value 1 ((size / Pod.sizeof (K × V) : ℕ) - 1) s

/-- The result, the variable and the system, without the reads. -/
def Found.outcome (r : Found V) : Bool × V × Sys := (r.found, r.value, r.sys)

/-- The same of what `findLoop` delivers: `value` is assigned when there is something to deliver. -/
def outcomeOf (value : V) (x : Option V × Sys) : Bool × V × Sys := (x.1.isSome, x.1.getD value, x.2)

/-- **Noting the reads changes nothing.** -/
theorem findLoop_eq_reads (fd : ℤ) (key : K) (value : V) (low high : ℤ) (s : Sys) :
    (findLoopReads fd key value low high s).map Found.outcome =
      (findLoop V fd key low high s).map (outcomeOf value) := by
  fun_induction findLoopReads fd key value low high s with
  | case1 low high s hle mid offset ihlt ihgt =>
    rw [findLoop, if_pos hle]
    dsimp only
    cases hread : fread (Pod.sizeof K) ((low + high) / 2 * Pod.sizeof (K × V)).toNat fd s with
    | none => rfl
    | some x =>
      obtain ⟨n, entryKey, s'⟩ := x
      rw [Option.bind_some, Option.bind_some]
      dsimp only
      rw [Option.map_map]
      split_ifs with hlt hgt
      · exact ihlt s'
      · exact ihgt s'
      · rw [Option.map_map, Option.map_map]
        rfl
  | case2 low high s hgt =>
    rw [findLoop, if_neg hgt]
    rfl

/-- **The reads of the loop** are those of the key or the value of a record of the interval. -/
theorem reads_findLoopReads (fd : ℤ) (key : K) (value : V) (low high : ℤ) (s : Sys) :
    ∀ r, findLoopReads fd key value low high s = some r →
      ∀ rd ∈ r.reads, ∃ mid, low ≤ mid ∧ mid ≤ high ∧
        (rd = ((mid * Pod.sizeof (K × V)).toNat, Pod.sizeof K) ∨
          rd = ((mid * Pod.sizeof (K × V) + Pod.sizeof K).toNat, Pod.sizeof V)) := by
  fun_induction findLoopReads fd key value low high s with
  | case1 low high s hle mid offset ihlt ihgt =>
    intro r h
    have hmid : low ≤ mid ∧ mid ≤ high := by
      change low ≤ (low + high) / 2 ∧ (low + high) / 2 ≤ high
      omega
    obtain ⟨⟨n, entryKey, s'⟩, -, h⟩ := Option.bind_eq_some_iff.mp h
    obtain ⟨r', hr', rfl⟩ := Option.map_eq_some_iff.mp h
    intro rd hrd
    rcases List.mem_cons.mp hrd with rfl | hrd
    · exact ⟨mid, hmid.1, hmid.2, Or.inl rfl⟩
    · split_ifs at hr' with hlt hgt
      · obtain ⟨m, hlow, hhigh, hm⟩ := ihlt s' r' hr' rd hrd
        exact ⟨m, by omega, hhigh, hm⟩
      · obtain ⟨m, hlow, hhigh, hm⟩ := ihgt s' r' hr' rd hrd
        exact ⟨m, hlow, by omega, hm⟩
      · obtain ⟨⟨n', v, s''⟩, -, rfl⟩ := Option.map_eq_some_iff.mp hr'
        exact ⟨mid, hmid.1, hmid.2, Or.inr (List.mem_singleton.mp hrd)⟩
  | case2 low high s hgt =>
    rintro r ⟨⟩
    simp

omit [LinearOrder K] in
/-- The key and the value of record `mid` lie in the file, behind the header, and in one block. -/
theorem record_in_bounds (hdvd : Pod.sizeof (K × V) ∣ blkSize) {size : ℕ} {mid : ℤ} (hlow : 1 ≤ mid)
    (hhigh : mid ≤ (size / Pod.sizeof (K × V) : ℕ) - 1) {rd : ℕ × ℕ}
    (hrd : rd = ((mid * Pod.sizeof (K × V)).toNat, Pod.sizeof K) ∨
      rd = ((mid * Pod.sizeof (K × V) + Pod.sizeof K).toNat, Pod.sizeof V)) :
    Pod.sizeof (K × V) ≤ rd.1 ∧ rd.1 + rd.2 ≤ size ∧ rd.1 % blkSize + rd.2 ≤ blkSize := by
  obtain ⟨i, rfl⟩ := Int.eq_ofNat_of_zero_le (show 0 ≤ mid by omega)
  have hsz : Pod.sizeof (K × V) = Pod.sizeof K + Pod.sizeof V := rfl
  have hfirst : Pod.sizeof (K × V) ≤ i * Pod.sizeof (K × V) := Nat.le_mul_of_pos_left _ (by omega)
  have hlast : (i + 1) * Pod.sizeof (K × V) ≤ size :=
    (Nat.mul_le_mul_right _ (by omega)).trans (Nat.div_mul_le_self size _)
  obtain ⟨hkey, hvalue⟩ := fields_in_block hdvd i
  rw [Nat.add_mul, Nat.one_mul] at hlast
  simp only [← Int.natCast_mul, ← Int.natCast_add, Int.toNat_natCast] at hrd
  rcases hrd with rfl | rfl
  · exact ⟨hfirst, by dsimp only; omega, hkey⟩
  · exact ⟨by dsimp only; omega, by dsimp only; omega, hvalue⟩

/-- **`findEntry` is an exact and bounded lookup.**  On a file of any length and content it comes to
an end; each of its reads lies in the file, behind the header and in one block; what it finds is a
record of the file, and otherwise it leaves `value` alone.  On ascending records it finds every key
there is. -/
theorem findEntryReads_exact (hdvd : Pod.sizeof (K × V) ∣ blkSize) {s : Sys} (h : s.Ok) {fd : ℤ}
    {name : String} (hfd : s.fileOf fd = some name) (key : K) (value : V) :
    ∃ r, findEntryReads fd key value s = some r ∧
      (findEntry V fd key s).map (outcomeOf value) = some r.outcome ∧
      (∀ rd ∈ r.reads, Pod.sizeof (K × V) ≤ rd.1 ∧ rd.1 + rd.2 ≤ (s.fs.read name).length ∧
        rd.1 % blkSize + rd.2 ≤ blkSize) ∧
      (r.found = true → (key, r.value) ∈ records K V (s.fs.read name)) ∧
      (r.found = false → r.value = value) ∧
      (Ascending (records K V (s.fs.read name)) →
        (r.found = true ↔ ∃ v, (key, v) ∈ records K V (s.fs.read name))) := by
  obtain ⟨rs, hrs⟩ : ∃ rs, records K V (s.fs.read name) = rs := ⟨_, rfl⟩
  obtain ⟨high, hhigh⟩ : ∃ high : ℤ, ((s.fs.read name).length / Pod.sizeof (K × V) : ℕ) - 1 = high :=
    ⟨_, rfl⟩
  have hlen := length_records (K := K) (V := V) (s.fs.read name)
  rw [hrs] at hlen
  obtain ⟨p, heq, -, -⟩ := findLoop_eq hdvd h hfd key 1 high le_rfl (by rw [hrs]; omega)
  have hsize : fsize fd s = some (s.fs.read name).length := by rw [fsize, hfd, Option.map_some]
  have herase := findLoop_eq_reads fd key value 1 high s
  rw [heq, hrs, Option.map_some] at herase
  obtain ⟨r, hr, hout⟩ := Option.map_eq_some_iff.mp herase
  have hfound : r.found = (bsearch rs key 1 high).isSome := congrArg Prod.fst hout
  have hvalue : r.value = (bsearch rs key 1 high).getD value := congrArg (·.2.1) hout
  rw [hrs]
  refine ⟨r, ?_, ?_, fun rd hrd ↦ ?_, fun hf ↦ ?_, fun hf ↦ ?_, fun hasc ↦ ?_⟩
  · rw [findEntryReads, hsize, Option.bind_some, hhigh, hr]
  · rw [findEntry, hsize, Option.bind_some, hhigh, heq, hrs, Option.map_some, hout]
  · obtain ⟨mid, hlow, hmid, hrd⟩ := reads_findLoopReads fd key value 1 high s r hr rd hrd
    exact record_in_bounds hdvd hlow (hhigh ▸ hmid) hrd
  · obtain ⟨v, hv⟩ := Option.isSome_iff_exists.mp (hfound.symm.trans hf)
    rw [hvalue, hv]
    exact bsearch_mem hv
  · have hnone : bsearch rs key 1 high = none := by
      rw [← Option.not_isSome_iff_eq_none, ← hfound, hf]
      exact Bool.false_ne_true
    rw [hvalue, hnone]
    rfl
  · have hlookup := bsearch_eq_lookup hasc key 1 high le_rfl (by omega) (fun i _ hi ↦ by omega)
      (fun i hi hlt ↦ by omega)
    rw [hfound, hlookup, Option.isSome_iff_exists]
    exact exists_congr fun v ↦ lookup_eq_some hasc

theorem reads_ne_nil {fd : ℤ} {key : K} {value : V} {low high : ℤ} {s : Sys} {r : Found V}
    (h : findLoopReads fd key value low high s = some r) (hf : r.found = true) : r.reads ≠ [] := by
  rw [findLoopReads] at h
  split_ifs at h
  · obtain ⟨_, -, h⟩ := Option.bind_eq_some_iff.mp h
    obtain ⟨r', -, rfl⟩ := Option.map_eq_some_iff.mp h
    exact List.cons_ne_nil _ _
  · cases h
    cases hf

section Torn

open Master (numbered zeroV oneV)

/-- Three records behind a header, and the beginning of a fourth. -/
def someRecords : List (Master.K × Master.V) := [(numbered 2, zeroV), (numbered 4, zeroV), (numbered 6, oneV)]
def tornFile : Bytes := List.replicate 128 0 ++ Pod.encode someRecords ++ [1, 2, 3]

/-- The file is open as descriptor 0. -/
def tornSys : Sys := ⟨FS.blank.write "file0" tornFile, [some "file0"], Pool.initial⟩

theorem records_tornFile : records Master.K Master.V tornFile = someRecords :=
  records_append List.length_replicate someRecords [1, 2, 3] (by decide)

theorem ascending_someRecords : Ascending someRecords := by
  have hlt : numbered 2 < numbered 4 ∧ numbered 2 < numbered 6 ∧ numbered 4 < numbered 6 := by decide
  simpa [someRecords, Ascending] using ⟨⟨hlt.1, hlt.2.1⟩, hlt.2.2⟩

/-- The last of the records is found, with some reads, and none of them touches the torn one. -/
theorem findEntryReads_exact_torn : ∃ r, findEntryReads 0 (numbered 6) zeroV tornSys = some r ∧
    r.found = true ∧ r.value = oneV ∧ r.reads ≠ [] ∧
      ∀ rd ∈ r.reads, 128 ≤ rd.1 ∧ rd.1 + rd.2 ≤ 515 ∧ rd.1 % blkSize + rd.2 ≤ blkSize := by
  have hok : tornSys.Ok := ⟨Pool.ok_initial, fun i hi ↦ absurd hi (by simp [tornSys, Pool.initial])⟩
  have hopen : tornSys.fileOf 0 = some "file0" := rfl
  have hread : tornSys.fs.read "file0" = tornFile := FS.read_write_self _ _ _
  have hlen : tornFile.length = 515 := by
    rw [tornFile, List.length_append, List.length_append, List.length_replicate, Pod.length_encode]
    rfl
  obtain ⟨r, hr, -, hbounds, hsound, -, hcomplete⟩ :=
    findEntryReads_exact (by decide) hok hopen (numbered 6) zeroV
  rw [hread, records_tornFile] at hsound hcomplete
  rw [hread, hlen] at hbounds
  have hfound : r.found = true := (hcomplete ascending_someRecords).mpr ⟨oneV, by simp [someRecords]⟩
  have hvalue : r.value = oneV := by
    have hmem := (lookup_eq_some ascending_someRecords).mpr (hsound hfound)
    exact Option.some.inj (hmem.symm.trans rfl)
  obtain ⟨size, -, hloop⟩ := Option.bind_eq_some_iff.mp hr
  exact ⟨r, hr, hfound, hvalue, reads_ne_nil hloop hfound, hbounds⟩

end Torn

end ScratchStore
