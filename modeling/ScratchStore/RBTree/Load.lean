import ScratchStore.RBTree.Recovery

/-!
# Loading any file

`fromFile` computes the number of records in a `float` and takes the file for corrupted when that is
not a whole number.  A quotient that is close to a whole number becomes one in a `float`, so the test
lets some files pass whose length is not that of whole records; then the backward loop can miss the
start of the file and go round forever: `scanSync_zeros`.

`loadsRight_iff` says for which lengths the test does what it is there for.  All files shorter than
`2 ^ 24` bytes are among them: `separated_of_length_lt`.

* `LoadsRight` is what a caller may expect of any file, that of a crash in the middle of a record included.
* `fromFile_corrupted_iff` is what the test of the source does, by `Float24.floor_round_eq_iff`.
* `loadsRight_iff` puts them together.  A log of whole records always passes the test, as it should; the other
  direction is where it fails.
* `tornZeros` is a file that a crash leaves when `2 ^ 17` records of zeros were written and one byte of the
  next.  It passes, and `tornZeros_not_rejected` shows that the call does not return.
-/

set_option autoImplicit false

namespace ScratchStore

variable {K V : Type} [Pod K] [Pod V]

namespace BinaryTree

/-! ## The test of the length

The quotient is rounded to 24 bits and then compared with its whole part. -/

/-- The number of records in a file of this length. -/
def numRecords (K V : Type) [Pod K] [Pod V] (length : ℕ) : ℚ := length / entrySize K V

/-- The quotient is not within half a unit in the last place of a `float` of a whole number. -/
def Separated (K V : Type) [Pod K] [Pod V] (length : ℕ) : Prop :=
  ∀ m : ℤ, Float24.ulp (numRecords K V length) / 2 < |numRecords K V length - m|

theorem separated_iff (bs : Bytes) : Separated K V bs.length ↔
    (⌊Float24.round (bs.length / entrySize K V)⌋ : ℚ) ≠ Float24.round (bs.length / entrySize K V) := by
  rw [ne_eq, Float24.floor_round_eq_iff, Separated, numRecords]
  push Not
  rfl

/-- **Short files** are all told apart. -/
theorem separated_of_length_lt {length : ℕ} (hlt : length < 2 ^ 24) (hdvd : ¬entrySize K V ∣ length) :
    Separated K V length := by
  intro m
  have hsz : (0 : ℚ) < entrySize K V := Nat.cast_pos.mpr Pod.sizeof_pos
  have hpos : 0 < length := Nat.pos_of_ne_zero fun h ↦ hdvd (h ▸ dvd_zero _)
  have hq : 0 < numRecords K V length := div_pos (Nat.cast_pos.mpr hpos) hsz
  -- half the unit is at most the quotient over `2 ^ 24`, and so less than `1 / entrySize`
  have hulp : Float24.ulp (numRecords K V length) / 2 ≤ numRecords K V length / 2 ^ 24 := by
    have hlog := Int.zpow_log_le_self one_lt_two hq
    rw [Float24.ulp, zpow_sub₀ two_ne_zero, div_div]
    have hden : (2 : ℚ) ^ (23 : ℤ) * 2 = 2 ^ 24 := by norm_num
    rw [hden]
    exact div_le_div_of_nonneg_right hlog (by positivity)
  have hlen : (length : ℚ) / 2 ^ 24 < 1 := by
    rw [div_lt_one (by positivity)]
    exact_mod_cast hlt
  have hone : (1 : ℚ) ≤ |(length : ℚ) - m * entrySize K V| := by
    have hne : (length : ℤ) - m * entrySize K V ≠ 0 := by
      intro h
      refine hdvd ?_
      have hint : ((entrySize K V : ℕ) : ℤ) ∣ (length : ℤ) := ⟨m, by rw [mul_comm]; omega⟩
      exact_mod_cast hint
    exact_mod_cast Int.one_le_abs hne
  have habs : |numRecords K V length - m| = |(length : ℚ) - m * entrySize K V| / entrySize K V := by
    rw [numRecords, div_sub' hsz.ne', abs_div, abs_of_pos hsz, mul_comm]
  calc Float24.ulp (numRecords K V length) / 2 ≤ numRecords K V length / 2 ^ 24 := hulp
    _ = (length : ℚ) / 2 ^ 24 / entrySize K V := by rw [numRecords, div_right_comm]
    _ < 1 / entrySize K V := div_lt_div_of_pos_right hlen hsz
    _ ≤ |numRecords K V length - m| := habs ▸ div_le_div_of_nonneg_right hone hsz.le

/-! ## Files that are loaded as they should be -/

variable [LinearOrder K] {Time : Type} [TimeFormat Time]

/-- What loading a file should be: it is rejected when its length is not that of whole records, and
otherwise both loops end and every record after the last `_sync_` is applied, the last one perhaps once
more. -/
structure LoadsRight (t : BinaryTree K V) (fname : String) (now : Time) (fs : FS) (dummy : V)
    (bs : Bytes) : Prop where
  rejects : ¬entrySize K V ∣ bs.length → ∀ fuel, fromFile fuel dummy t fname now fs = .error .corrupted
  loads : entrySize K V ∣ bs.length → ∃ N, ∀ fuel ≥ N, ∃ again,
    fromFile fuel dummy t fname now fs =
      .ok ((afterSync (Pod.decode (LogEntry K V) bs) ++ again).foldl (applyEntry dummy)
        ((t.opened fname now fs).1.free, (t.opened fname now fs).2)) ∧
    (again = [] ∨ ∃ e, again = [e] ∧ (afterSync (Pod.decode (LogEntry K V) bs)).getLast? = some e)

variable {t : BinaryTree K V} {fname : String} {now : Time} {fs : FS} {bs : Bytes}

/-- The file is rejected when the quotient is not a whole number in a `float`. -/
theorem fromFile_corrupted_iff (hfile : (t.opened fname now fs).2.content fname = some bs) (fuel : ℕ)
    (dummy : V) :
    fromFile fuel dummy t fname now fs = .error .corrupted ↔ Separated K V bs.length := by
  rw [fromFile_eq, hfile, separated_iff]
  dsimp only
  rw [readBack]
  dsimp only
  split_ifs with h hzero
  · exact iff_of_true rfl h
  · exact iff_of_false (by simp [Except.map]) h
  · refine iff_of_false (fun heq ↦ ?_) h
    revert heq
    split
    · simp [Except.map]
    · split <;> simp [Except.map]

/-- A `_sync_` is not applied. -/
theorem applyEntry_sync (dummy : V) (s : BinaryTree K V × FS) {e : LogEntry K V} (he : e.1 = syncAction) :
    applyEntry dummy s e = s := by
  have hw : ¬e.1 = writeAction := by rw [he]; decide
  have hd : ¬e.1 = delAction := by rw [he]; decide
  rw [applyEntry, if_neg hw, if_neg hd]

theorem loads_of_dvd (hfile : (t.opened fname now fs).2.content fname = some bs) (dummy : V)
    (hdvd : entrySize K V ∣ bs.length) : ∃ N, ∀ fuel ≥ N, ∃ again,
    fromFile fuel dummy t fname now fs =
      .ok ((afterSync (Pod.decode (LogEntry K V) bs) ++ again).foldl (applyEntry dummy)
        ((t.opened fname now fs).1.free, (t.opened fname now fs).2)) ∧
    (again = [] ∨ ∃ e, again = [e] ∧ (afterSync (Pod.decode (LogEntry K V) bs)).getLast? = some e) := by
  refine ⟨(Pod.decode (LogEntry K V) bs).length + 2, fun fuel hfuel ↦ ?_⟩
  obtain ⟨again, hread, hagain⟩ := readBack_encode _ hfuel
  rw [Pod.encode_decode_of_dvd hdvd] at hread
  rw [fromFile_eq, hfile]
  dsimp only
  rw [hread]
  rcases hagain with rfl | ⟨e, rfl, hlast | ⟨hnil, hsync⟩⟩
  · exact ⟨[], rfl, Or.inl rfl⟩
  · exact ⟨[e], rfl, Or.inr ⟨e, rfl, hlast⟩⟩
  · refine ⟨[], ?_, Or.inl rfl⟩
    rw [hnil, List.append_nil, List.nil_append, List.foldl_nil]
    exact congrArg Except.ok (applyEntry_sync dummy _ hsync)

/-- **Loading does what it should** for the files of whole records, and for those whose quotient is not
rounded to a whole number.  The tree it is loaded into has no log or an open one.

`fromFile` divides in `float`, so a long file may pass for one of whole records when it is not
(`tornZeros_not_rejected`), and then the loop that goes back to the last `_sync_` misses the beginning. -/
theorem loadsRight_iff (t : BinaryTree K V) (fname : String) (now : Time) (fs : FS) (dummy : V)
    (bs : Bytes) (hfile : (t.opened fname now fs).2.content fname = some bs) :
    LoadsRight t fname now fs dummy bs ↔ entrySize K V ∣ bs.length ∨ Separated K V bs.length := by
  constructor
  · intro h
    by_cases hdvd : entrySize K V ∣ bs.length
    · exact Or.inl hdvd
    · exact Or.inr ((fromFile_corrupted_iff hfile 0 dummy).mp (h.rejects hdvd 0))
  · intro h
    refine ⟨fun hdvd fuel ↦ ?_, loads_of_dvd hfile dummy⟩
    exact (fromFile_corrupted_iff hfile fuel dummy).mpr (h.resolve_left hdvd)

/-- A log of one insertion. -/
def oneRecord : Bytes := Pod.encode [((writeAction, Master.zeroK, Master.zeroV) : LogEntry Master.K Master.V)]

/-- A file of one record. -/
theorem loadsRight_iff_oneRecord :
    LoadsRight (empty : BinaryTree Master.K Master.V) "log" (0 : DaySecond) (FS.blank.write "log" oneRecord)
        Master.zeroV oneRecord ↔
      entrySize Master.K Master.V ∣ oneRecord.length ∨ Separated Master.K Master.V oneRecord.length :=
  loadsRight_iff empty "log" 0 _ Master.zeroV oneRecord (by
    rw [opened, if_neg (by decide), FS.content_write_self])

/-! ## A file that passes the test

From a position in front of the first whole record the backward loop cannot go back a whole record, and
stays where it is. -/

section Zeros

omit [LinearOrder K]

variable {n : ℕ}

/-- A record of zeros is not a `_sync_` record. -/
theorem entryOf_zeros : (entryOf K V (List.replicate (entrySize K V) 0)).1 ≠ syncAction := by
  have hsz : 0 < entrySize K V := Pod.sizeof_pos
  obtain ⟨m, hm⟩ := Nat.exists_eq_add_of_lt hsz
  have hzero : (entryOf K V (List.replicate (entrySize K V) 0)).1 = 0 := by
    rw [entryOf, hm]
    rfl
  rw [hzero]
  decide

/-- Reading one from a file of zeros. -/
theorem freadBuf_zeros {f : RFile} (hdata : f.data = List.replicate n 0) (hroom : f.pos + entrySize K V ≤ n)
    {buff : Bytes} (hb : buff.length ≤ entrySize K V) : f.freadBuf (entrySize K V) buff =
      (List.replicate (entrySize K V) 0, { f with pos := f.pos + entrySize K V }) := by
  have hbytes : Pod.toBytes (Pod.ofBytes (List.replicate (entrySize K V) 0) : LogEntry K V) =
      List.replicate (entrySize K V) 0 := Pod.toBytes_ofBytes _ List.length_replicate
  have hrest : f.rest = Pod.toBytes (Pod.ofBytes (List.replicate (entrySize K V) 0) : LogEntry K V) ++
      List.replicate (n - f.pos - entrySize K V) 0 := by
    rw [RFile.rest, hdata, hbytes, List.drop_replicate, List.replicate_append_replicate]
    congr 1
    omega
  rw [← hbytes]
  exact freadBuf_entry hrest hb

/-- Before the first whole record there is one to read. -/
theorem add_le_of_mod_eq (hle : entrySize K V ≤ n) {pos : ℕ} (hpos : pos % entrySize K V = n % entrySize K V)
    (hlt : pos < entrySize K V) : pos + entrySize K V ≤ n := by
  have hsz : 0 < entrySize K V := Pod.sizeof_pos
  rw [Nat.mod_eq_of_lt hlt] at hpos
  have hdiv := Nat.div_add_mod n (entrySize K V)
  have hone : entrySize K V * 1 ≤ entrySize K V * (n / entrySize K V) :=
    Nat.mul_le_mul_left _ ((Nat.one_le_div_iff hsz).mpr hle)
  omega

/-- **The backward loop goes round forever** in a file of zeros: from before the first whole record it
cannot go back any further, so it reads that record again and again. -/
theorem scanSync_zeros (hle : entrySize K V ≤ n) (hmod : n % entrySize K V ≠ 0) (fuel : ℕ)
    (f : RFile) (hdata : f.data = List.replicate n 0) (hpos : f.pos % entrySize K V = n % entrySize K V)
    (hn : f.pos ≤ n) (buff : Bytes) (hb : buff.length ≤ entrySize K V) :
    scanSync K V fuel f buff false = none := by
  induction fuel generalizing f buff with
  | zero => rfl
  | succ fuel ih =>
    have hpos0 : 0 < f.pos := by
      refine Nat.pos_of_ne_zero fun h ↦ hmod ?_
      rw [← hpos, h, Nat.zero_mod]
    rw [scanSync, if_pos ⟨hpos0, rfl⟩]
    by_cases hback : entrySize K V ≤ f.pos
    · rw [RFile.fseekCur_back hback]
      have hback' : RFile.data { f with pos := f.pos - entrySize K V, eof := false } = _ := hdata
      have hgo := freadBuf_zeros hback' (by dsimp only; omega) hb
      dsimp only at hgo ⊢
      rw [hgo]
      dsimp only
      rw [RFile.fseekCur_back (Nat.le_add_left _ _)]
      dsimp only
      rw [decide_eq_false entryOf_zeros, Nat.add_sub_cancel]
      refine ih { f with pos := f.pos - entrySize K V, eof := false } hdata ?_
        (Nat.le_trans (Nat.sub_le _ _) hn) _ List.length_replicate.le
      rw [← hpos, ← Nat.mod_eq_sub_mod hback]
    · have hroom := add_le_of_mod_eq hle hpos (not_le.mp hback)
      have hstay : f.fseekCur (-(entrySize K V : ℤ)) = f := by rw [RFile.fseekCur, if_pos (by omega)]
      rw [hstay]
      dsimp only
      rw [freadBuf_zeros hdata hroom hb]
      dsimp only
      rw [RFile.fseekCur_back (Nat.le_add_left _ _)]
      dsimp only
      rw [decide_eq_false entryOf_zeros, Nat.add_sub_cancel]
      exact ih { f with eof := false } hdata hpos hn _ List.length_replicate.le

end Zeros

/-- `2 ^ 17` records and one byte. -/
def tornZeros : Bytes := List.replicate (129 * 2 ^ 17 + 1) 0

theorem length_tornZeros : tornZeros.length = 129 * 2 ^ 17 + 1 := List.length_replicate

theorem not_dvd_tornZeros : ¬entrySize Master.K Master.V ∣ tornZeros.length := by
  rw [length_tornZeros]
  decide

/-- The quotient is `1 / 129` off a whole number, and half a unit is `1 / 128`. -/
theorem not_separated_tornZeros : ¬Separated Master.K Master.V tornZeros.length := by
  intro h
  have hsz : (entrySize Master.K Master.V : ℚ) = 129 := by exact_mod_cast (rfl : entrySize Master.K Master.V = 129)
  have hq : numRecords Master.K Master.V tornZeros.length = 2 ^ 17 + 1 / 129 := by
    rw [numRecords, hsz, length_tornZeros]
    norm_num
  have hlog : (17 : ℤ) ≤ Int.log 2 (numRecords Master.K Master.V tornZeros.length) := by
    rw [← Int.zpow_le_iff_le_log one_lt_two (by rw [hq]; positivity), hq]
    norm_num
  have hulp : (1 : ℚ) / 64 ≤ Float24.ulp (numRecords Master.K Master.V tornZeros.length) := by
    have hle := zpow_le_zpow_right₀ (one_le_two (α := ℚ)) (show (-6 : ℤ) ≤ Int.log 2
      (numRecords Master.K Master.V tornZeros.length) - 23 by omega)
    refine le_trans (le_of_eq ?_) hle
    norm_num
  have hlt := h (2 ^ 17)
  rw [hq] at hlt hulp
  have habs : |(2 ^ 17 + 1 / 129 : ℚ) - ((2 ^ 17 : ℤ) : ℚ)| = 1 / 129 := by
    rw [Int.cast_pow, Int.cast_ofNat, add_sub_cancel_left]
    exact abs_of_pos (by positivity)
  rw [habs] at hlt
  linarith

/-- **A file of `2 ^ 17` records and one byte** is not rejected, and the call never returns. -/
theorem tornZeros_not_rejected :
    ¬LoadsRight (empty : BinaryTree Master.K Master.V) "log" (0 : DaySecond)
        (FS.blank.write "log" tornZeros) Master.zeroV tornZeros ∧
      ∀ fuel, fromFile fuel Master.zeroV (empty : BinaryTree Master.K Master.V) "log" (0 : DaySecond)
        (FS.blank.write "log" tornZeros) = .error .unfinished := by
  have hfile : ((empty : BinaryTree Master.K Master.V).opened "log" (0 : DaySecond)
      (FS.blank.write "log" tornZeros)).2.content "log" = some tornZeros := by
    rw [opened, if_neg (by decide), FS.content_write_self]
  constructor
  · intro h
    exact not_separated_tornZeros ((fromFile_corrupted_iff hfile 0 Master.zeroV).mp
      (h.rejects not_dvd_tornZeros 0))
  · intro fuel
    have hwhole := (separated_iff (K := Master.K) (V := Master.V) tornZeros).not.mp not_separated_tornZeros
    have hscan : scanSync Master.K Master.V fuel ⟨tornZeros, tornZeros.length, false⟩ [] false = none := by
      rw [length_tornZeros]
      exact scanSync_zeros (by decide) (by decide) fuel _ rfl rfl le_rfl [] (Nat.zero_le _)
    rw [fromFile_eq, hfile]
    dsimp only
    rw [readBack]
    dsimp only
    rw [if_neg hwhole, if_neg (by rw [length_tornZeros]; decide), hscan]
    rfl

end BinaryTree

end ScratchStore
