import ScratchStore.BufferManager.FileIO
import ScratchStore.Core.DataFile

/-!
# Looking a key up in a file

`findEntry` of `Core/Read.hpp` bisects over the records of an open file, reading keys and values
through the block cache.  Records do not straddle blocks when their size divides `BLK_SIZE`, and
then the bisection is `SortedAssoc.bsearch` on the records of the file whatever the cache holds:
`findLoop_eq`.  On a file with ascending keys that is the file's map: `findEntry_eq`.

`lookupFile` is one lookup of the store: open, find, close.

## How the loop and the bisection meet

`findLoop` reads keys from the cache and compares them, `SortedAssoc.bsearch` looks into a list.  Both go by
the same interval, so one round of the one is one round of the other (`findLoop_step`), as long as the key at
position `mid` is what the cache delivers for the bytes where it should be.  That is `read_record`, and the
only place where the layout of a record comes in.

That the cache is in order is all that is asked of it.  It may hold blocks of any open files, and afterwards
it holds others.
-/

set_option autoImplicit false

namespace ScratchStore

open SortedAssoc FileIO

variable {K V : Type} [Pod K] [Pod V] [LinearOrder K]

/-- The loop of `findEntry`.  `low` is at least 1, so the division is that of positive numbers. -/
def findLoop (V : Type) [Pod V] (fileHandle : ℤ) (key : K) (low high : ℤ) (s : Sys) :
    Option (Option V × Sys) :=
  if low ≤ high then
    let mid := (low + high) / 2
    (fread (Pod.sizeof K) (mid * Pod.sizeof (K × V)).toNat fileHandle s).bind
      fun (_, entryKey, s) ↦
        if (Pod.ofBytes entryKey : K) < key then findLoop V fileHandle key (mid + 1) high s
        else if key < (Pod.ofBytes entryKey : K) then findLoop V fileHandle key low (mid - 1) s
        else
          (fread (Pod.sizeof V) (mid * Pod.sizeof (K × V) + Pod.sizeof K).toNat fileHandle
            s).map fun (_, value, s) ↦ (some (Pod.ofBytes value), s)
  else some (none, s)
termination_by (high + 1 - low).toNat
decreasing_by all_goals omega

/-- `findEntry(fileHandle, key, value)`: the value delivered, if any. -/
def findEntry (V : Type) [Pod V] (fileHandle : ℤ) (key : K) (s : Sys) : Option (Option V × Sys) :=
  (fsize fileHandle s).bind fun size ↦
    findLoop V fileHandle key 1 ((size / Pod.sizeof (K × V) : ℕ) - 1) s

/-- One file of `Master::dbread`: open it, look the key up, and close it. -/
def lookupFile (V : Type) [Pod V] (filePath : String) (key : K) (s : Sys) :
    Option (Option V × Sys) :=
  let (fd, s) := openFile filePath s
  (findEntry V fd key s).bind fun (value, s) ↦ (closeFile fd s).map fun s ↦ (value, s)

/-! ## The bytes of a record -/

omit [LinearOrder K] in
/-- Where the record at position `i` lies in its file. -/
theorem drop_record {bs : Bytes} {i : ℕ} (hi : i < (records K V bs).length) :
    ∃ tail, bs.drop ((i + 1) * Pod.sizeof (K × V)) =
      Pod.toBytes (records K V bs)[i].1 ++ (Pod.toBytes (records K V bs)[i].2 ++ tail) := by
  obtain ⟨tail, -, htail⟩ := Pod.exists_encode_decode (α := K × V) (bs.drop (Pod.sizeof (K × V)))
  change bs.drop _ = Pod.encode (records K V bs) ++ tail at htail
  have hlen : i * Pod.sizeof (K × V) ≤ (Pod.encode (records K V bs)).length := by
    rw [Pod.length_encode]
    exact Nat.mul_le_mul_right _ hi.le
  refine ⟨Pod.encode ((records K V bs).drop (i + 1)) ++ tail, ?_⟩
  rw [Nat.add_mul, Nat.one_mul, Nat.add_comm, ← List.drop_drop, htail,
    List.drop_append_of_le_length hlen, Pod.drop_encode, List.drop_eq_getElem_cons hi,
    Pod.encode_cons, Pod.toBytes_prod, List.append_assoc, List.append_assoc]

omit [LinearOrder K] in
/-- A record lies in one block. -/
theorem record_in_block (hdvd : Pod.sizeof (K × V) ∣ blkSize) (i : ℕ) :
    i * Pod.sizeof (K × V) % blkSize + Pod.sizeof (K × V) ≤ blkSize := by
  obtain ⟨m, hm⟩ := hdvd
  have hpos : 0 < m := Nat.pos_of_ne_zero fun h0 ↦ by simp [h0, blkSize] at hm
  rw [hm, Nat.mul_comm i, Nat.mul_mod_mul_left, ← Nat.mul_succ]
  exact Nat.mul_le_mul_left _ (Nat.mod_lt _ hpos)

omit [LinearOrder K] in
/-- So do its key and its value. -/
theorem fields_in_block (hdvd : Pod.sizeof (K × V) ∣ blkSize) (i : ℕ) :
    i * Pod.sizeof (K × V) % blkSize + Pod.sizeof K ≤ blkSize ∧
      (i * Pod.sizeof (K × V) + Pod.sizeof K) % blkSize + Pod.sizeof V ≤ blkSize := by
  have hblk := record_in_block hdvd i
  have hsz : Pod.sizeof (K × V) = Pod.sizeof K + Pod.sizeof V := rfl
  have hK := Pod.sizeof_pos (α := K)
  have hV := Pod.sizeof_pos (α := V)
  refine ⟨by omega, ?_⟩
  rw [Nat.add_mod, Nat.mod_eq_of_lt (a := Pod.sizeof K) (by omega), Nat.mod_eq_of_lt (by omega)]
  omega

omit [LinearOrder K] in
/-- Reading the key and the value of a record, and that both lie in one block. -/
theorem read_record (hdvd : Pod.sizeof (K × V) ∣ blkSize) {bs : Bytes} {i off : ℕ}
    (hi : i < (records K V bs).length) (hoff : off = (i + 1) * Pod.sizeof (K × V)) :
    (bs.drop off).take (Pod.sizeof K) = Pod.toBytes (records K V bs)[i].1 ∧
      (bs.drop (off + Pod.sizeof K)).take (Pod.sizeof V) = Pod.toBytes (records K V bs)[i].2 ∧
      off % blkSize + Pod.sizeof (K × V) ≤ blkSize ∧ off + Pod.sizeof (K × V) ≤ bs.length := by
  obtain ⟨tail, htail⟩ := drop_record hi
  rw [← hoff] at htail
  refine ⟨?_, ?_, ?_, ?_⟩
  · rw [htail]; exact List.take_left' (Pod.length_toBytes _)
  · rw [← List.drop_drop, htail, List.drop_left' (Pod.length_toBytes _)]
    exact List.take_left' (Pod.length_toBytes _)
  · rw [hoff]
    exact record_in_block hdvd (i + 1)
  · have hlen := congrArg List.length htail
    simp only [List.length_drop, List.length_append, Pod.length_toBytes] at hlen
    have hsz : Pod.sizeof (K × V) = Pod.sizeof K + Pod.sizeof V := rfl
    have hpos := Pod.sizeof_pos (α := K)
    omega

/-! ## The bisection

The loop of `findEntry` is compared with a bisection of a list (`SortedAssoc`).  It reads the records it
compares through the cache, which may change with each read, and nothing else does. -/

omit [LinearOrder K] in
/-- The position `mid` of a round, as an index into the records. -/
theorem exists_mid {low high : ℤ} (hlow : 1 ≤ low) (hle : low ≤ high) {bs : Bytes} {r : K × V}
    (hr : (records K V bs)[((low + high) / 2 - 1).toNat]? = some r) :
    ∃ i, ∃ hi : i < (records K V bs).length,
      (low + high) / 2 = ((i + 1 : ℕ) : ℤ) ∧ (records K V bs)[i] = r := by
  obtain ⟨hi, hr⟩ := List.getElem?_eq_some_iff.mp hr
  exact ⟨_, hi, by omega, hr⟩

/-- One round of the loop compares the key at position `mid`. -/
theorem findLoop_step (hdvd : Pod.sizeof (K × V) ∣ blkSize) {s : Sys} (h : s.Ok) {fd : ℤ}
    {name : String} (hfd : s.fileOf fd = some name) (key : K) {low high : ℤ}
    (hle : low ≤ high) {i : ℕ} (hi : i < (records K V (s.fs.read name)).length)
    (hmid : (low + high) / 2 = ((i + 1 : ℕ) : ℤ)) :
    ∃ p, Sys.Ok { s with pool := p } ∧ (s.pool.Only fd → p.Only fd) ∧
      findLoop V fd key low high s =
        if (records K V (s.fs.read name))[i].1 < key then
          findLoop V fd key ((low + high) / 2 + 1) high { s with pool := p }
        else if key < (records K V (s.fs.read name))[i].1 then
          findLoop V fd key low ((low + high) / 2 - 1) { s with pool := p }
        else
          (fread (Pod.sizeof V) ((i + 1) * Pod.sizeof (K × V) + Pod.sizeof K) fd
            { s with pool := p }).map fun x ↦ (some (Pod.ofBytes x.2.1), x.2.2) := by
  have hK : Pod.sizeof K ≤ Pod.sizeof (K × V) := Nat.le_add_right _ _
  obtain ⟨hkey, -, hblk, hfile⟩ := read_record hdvd hi rfl
  obtain ⟨n, p, hread, hok, honly⟩ := fread_eq h hfd (n := Pod.sizeof K)
    (hblk.trans' (Nat.add_le_add_left hK _)) (hfile.trans' (Nat.add_le_add_left hK _))
  refine ⟨p, hok, honly, ?_⟩
  rw [findLoop, if_pos hle]
  simp only [hmid, ← Int.natCast_mul, ← Int.natCast_add, Int.toNat_natCast, hread, hkey,
    Option.bind_some, Pod.ofBytes_toBytes]

/-- **The loop is a bisection** over the records of the file. -/
theorem findLoop_eq (hdvd : Pod.sizeof (K × V) ∣ blkSize) {s : Sys} (h : s.Ok) {fd : ℤ}
    {name : String} (hfd : s.fileOf fd = some name) (key : K) (low high : ℤ) (hlow : 1 ≤ low)
    (hhigh : high ≤ (records K V (s.fs.read name)).length) :
    ∃ p, findLoop V fd key low high s =
        some (bsearch (records K V (s.fs.read name)) key low high, { s with pool := p }) ∧
      Sys.Ok { s with pool := p } ∧ (s.pool.Only fd → p.Only fd) := by
  obtain ⟨rs, hrs⟩ : ∃ rs, records K V (s.fs.read name) = rs := ⟨_, rfl⟩
  rw [hrs] at hhigh ⊢
  fun_induction bsearch rs key low high generalizing s with
  | case1 low high hle hnone =>
    rw [List.getElem?_eq_none_iff] at hnone
    omega
  | case2 low high hle r hsome hlt ih =>
    obtain ⟨i, hi, hmid, hr⟩ := exists_mid hlow hle (hrs.symm ▸ hsome)
    obtain ⟨p, hok, honly, heq⟩ := findLoop_step hdvd h hfd key hle hi hmid
    rw [hr] at heq
    obtain ⟨p', heq', hok', honly'⟩ := ih hok hfd (by omega) hhigh hrs
    exact ⟨p', by rw [heq, if_pos hlt, heq'], hok', fun ho ↦ honly' (honly ho)⟩
  | case3 low high hle r hsome hnlt hgt ih =>
    obtain ⟨i, hi, hmid, hr⟩ := exists_mid hlow hle (hrs.symm ▸ hsome)
    obtain ⟨p, hok, honly, heq⟩ := findLoop_step hdvd h hfd key hle hi hmid
    rw [hr] at heq
    obtain ⟨p', heq', hok', honly'⟩ := ih hok hfd hlow (by omega) hrs
    exact ⟨p', by rw [heq, if_neg hnlt, if_pos hgt, heq'], hok', fun ho ↦ honly' (honly ho)⟩
  | case4 low high hle r hsome hnlt hngt =>
    obtain ⟨i, hi, hmid, hr⟩ := exists_mid hlow hle (hrs.symm ▸ hsome)
    obtain ⟨p, hok, honly, heq⟩ := findLoop_step hdvd h hfd key hle hi hmid
    obtain ⟨-, hval, hblk, hfile⟩ := read_record hdvd hi rfl
    have hKV : Pod.sizeof (K × V) = Pod.sizeof K + Pod.sizeof V := rfl
    obtain ⟨n, p', hread, hok', honly'⟩ := fread_eq hok hfd (fields_in_block hdvd (i + 1)).2
      (by dsimp only; omega)
    refine ⟨p', ?_, hok', fun ho ↦ honly' (honly ho)⟩
    rw [heq, hr, if_neg hnlt, if_neg hngt, hread, Option.map_some]
    dsimp only
    rw [hval, Pod.ofBytes_toBytes, hr]
  | case5 low high hgt => exact ⟨s.pool, by rw [findLoop, if_neg hgt], h, id⟩

/-- **`findEntry` reads the map of the file**, through any cache that is in order. -/
theorem findEntry_eq (hdvd : Pod.sizeof (K × V) ∣ blkSize) {s : Sys} (h : s.Ok) {fd : ℤ}
    {name : String} (hfd : s.fileOf fd = some name)
    (hasc : Ascending (records K V (s.fs.read name))) (key : K) :
    ∃ p, findEntry V fd key s = some (fileMap K V (s.fs.read name) key, { s with pool := p }) ∧
      Sys.Ok { s with pool := p } ∧ (s.pool.Only fd → p.Only fd) := by
  have hlen := length_records (K := K) (V := V) (s.fs.read name)
  obtain ⟨p, heq, hok, honly⟩ := findLoop_eq hdvd h hfd key 1
    (((s.fs.read name).length / Pod.sizeof (K × V) : ℕ) - 1) le_rfl (by omega)
  refine ⟨p, ?_, hok, honly⟩
  rw [findEntry, fsize, hfd, Option.map_some, Option.bind_some, heq, fileMap,
    bsearch_eq_lookup hasc key _ _ le_rfl (by omega) (fun i _ hi ↦ by omega)
      (fun i hi hlt ↦ by omega)]

/-- **One lookup of the store**, when no file is open through the cache. -/
theorem lookupFile_eq (hdvd : Pod.sizeof (K × V) ∣ blkSize) {s : Sys} (h : s.Quiet)
    {name : String} {bs : Bytes} (hfs : s.fs.content name = some bs)
    (hasc : Ascending (records K V bs)) (key : K) :
    ∃ s', lookupFile V name key s = some (fileMap K V bs key, s') ∧ s'.Quiet ∧ s'.fs = s.fs := by
  obtain ⟨fd, fds, hopen, hok, hfd⟩ := openFile_eq h.ok hfs
  have hread : s.fs.read name = bs := by rw [FS.read, hfs]; rfl
  obtain ⟨p, hfind, hok', honly⟩ := findEntry_eq (V := V) hdvd hok hfd (by rwa [hread]) key
  obtain ⟨s', hclose, hok'', hfs', -, hfree⟩ := closeFile_eq hok' (Sys.fileOf_nonneg hfd)
  refine ⟨s', ?_, ⟨hok''.pool, hfree (honly (Pool.only_of_free h.free fd))⟩, hfs'⟩
  rw [lookupFile, hopen]
  dsimp only
  rw [hfind, Option.bind_some]
  dsimp only
  rw [hclose, Option.map_some, ← hread]

end ScratchStore
