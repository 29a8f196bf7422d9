import ScratchStore.Master.Line

/-!
# Any line of a batch file

`serve` checks nothing about a line but its first byte.  The positions come from `find`: `npos` is one
less than 2^64, so where no blank is found the key is taken from the beginning of the line, and where no
comma is found the value from its second byte on.

`parseLine_read` and `parseLine_write` say what is left of the two branches once the positions are known,
and `safe_iff` which lines do no harm.

`harmful_lines` has an example of each kind of line that does harm.  None of them is a line of `datagen.py`,
which are the lines of `Master.Line`.
-/

set_option autoImplicit false

namespace ScratchStore

namespace Master

/-- Where the key of a read begins. -/
def readStart (a : Bytes) : ℕ := if blank ∈ a then a.idxOf blank + 1 else 0

/-- Where the value of a write begins. -/
def valueStart (a : Bytes) : ℕ := if comma ∈ a then a.idxOf comma + 2 else 1

/-- What `substr(pos, 64)` cuts out. -/
def piece (a : Bytes) (pos : ℕ) : Bytes := (a.drop pos).take 64

/-- A line with a whole key after its `w` and a blank, and a whole value after a comma and a blank. -/
structure SuppliesWrite (a : Bytes) : Prop where
  key : 2 + 64 ≤ a.length
  comma_mem : comma ∈ a
  value : a.idxOf comma + 2 + 64 ≤ a.length

/-- **A line does no harm**: no `substr` throws, no load goes past the end of what was cut out, and without
a whole key and value there is no write. -/
structure SafeLine (a : Bytes) : Prop where
  /-- No `substr` throws. -/
  in_range : parseLine a ≠ .error .outOfRange
  /-- No load reads past the end. -/
  inside : parseLine a ≠ .error .pastEnd
  /-- Nothing is stored that is not in the line. -/
  write : ∀ k v, parseLine a = .ok (.write k v) → SuppliesWrite a

variable {a : Bytes}

/-! ## Positions -/

/-- What `find` found, and a little more: from `npos` it goes round to the beginning of the line. -/
theorem sizeAdd_find (ha : a.length < npos) (c : UInt8) {n : ℕ} (hn : 0 < n) (hn' : n ≤ 2) :
    sizeAdd (find a c) n = if c ∈ a then a.idxOf c + n else n - 1 := by
  rw [find]
  rw [npos] at ha ⊢
  split_ifs with hc
  · have hlt := List.idxOf_lt_length_of_mem hc
    exact sizeAdd_of_lt (by omega)
  · rw [sizeAdd]
    omega

theorem sizeAdd_find_blank (ha : a.length < npos) : sizeAdd (find a blank) 1 = readStart a :=
  sizeAdd_find ha blank (by decide) (by decide)

theorem sizeAdd_find_comma (ha : a.length < npos) : sizeAdd (find a comma) 2 = valueStart a :=
  sizeAdd_find ha comma (by decide) (by decide)

/-- A `w` line has its first `w` at its beginning. -/
theorem find_w (hw : a.headD 0 = 'w'.toUInt8) : find a 'w'.toUInt8 = 0 := by
  cases a with
  | nil => exact absurd hw (by decide)
  | cons c a =>
    rw [List.headD_cons] at hw
    rw [hw, find, if_pos List.mem_cons_self, List.idxOf_cons_self]

theorem readStart_le (a : Bytes) : readStart a ≤ a.length := by
  rw [readStart]
  split_ifs with h
  · exact List.idxOf_lt_length_of_mem h
  · exact Nat.zero_le _

theorem length_piece (a : Bytes) (pos : ℕ) : (piece a pos).length = min 64 (a.length - pos) := by
  rw [piece, List.length_take, List.length_drop]

/-! ## The two branches -/

/-- The load of a key or value needs 63 bytes: behind them there is a zero. -/
theorem load_piece_eq {T : Type} [Pod T] (hsz : Pod.sizeof T = 64) (a : Bytes) (pos : ℕ) :
    load T (piece a pos) = if pos + 63 ≤ a.length then
      .ok (Pod.ofBytes ((piece a pos ++ [0]).take 64)) else .error .pastEnd := by
  have hlen := length_piece a pos
  rw [load, hsz]
  split_ifs <;> first | rfl | omega

/-- **A read** is only a load. -/
theorem parseLine_read (ha : a.length < npos) (hr : a.headD 0 = 'r'.toUInt8) :
    parseLine a = (load K (piece a (readStart a))).map .read := by
  rw [parseLine, if_pos hr, substr_of_le (Nat.zero_le _), sizeAdd_find_blank ha,
    substr_of_le (readStart_le a)]
  rfl

/-- **A write** is two `substr` and two loads. -/
theorem parseLine_write (ha : a.length < npos) (hw : a.headD 0 = 'w'.toUInt8) :
    parseLine a = do
      let y ← substr a 2 64
      let z ← substr a (valueStart a) 64
      let k ← load K y
      let v ← load V z
      return .write k v := by
  have hr : ¬a.headD 0 = 'r'.toUInt8 := by rw [hw]; decide
  rw [parseLine, if_neg hr, if_pos hw, substr_of_le (Nat.zero_le _), find_w hw, sizeAdd_find_comma ha]
  rfl

/-- The writes that go through: the last byte of the key and of the value may be missing. -/
theorem parseLine_write_ok (ha : a.length < npos) (hw : a.headD 0 = 'w'.toUInt8) (hkey : 2 + 63 ≤ a.length)
    (hvalue : valueStart a + 63 ≤ a.length) : ∃ k v, parseLine a = .ok (.write k v) := by
  obtain ⟨k, hk⟩ : ∃ k, load K (piece a 2) = .ok k := ⟨_, by rw [load_piece_eq rfl, if_pos hkey]⟩
  obtain ⟨v, hv⟩ : ∃ v, load V (piece a (valueStart a)) = .ok v :=
    ⟨_, by rw [load_piece_eq rfl, if_pos hvalue]⟩
  refine ⟨k, v, ?_⟩
  rw [piece] at hk hv
  rw [parseLine_write ha hw, substr_of_le (by omega), substr_of_le (by omega)]
  simp only [Except.bind, bind, hk, hv]
  rfl

/-- What a `w` line comes to is a fault or a write. -/
theorem parseLine_write_cases (ha : a.length < npos) (hw : a.headD 0 = 'w'.toUInt8) :
    (∃ fault, parseLine a = .error fault) ∨ ∃ k v, parseLine a = .ok (.write k v) := by
  rw [parseLine_write ha hw]
  cases substr a 2 64 with
  | error fault => exact Or.inl ⟨fault, rfl⟩
  | ok y =>
    cases substr a (valueStart a) 64 with
    | error fault => exact Or.inl ⟨fault, rfl⟩
    | ok z =>
      cases hk : load K y with
      | error fault => exact Or.inl ⟨fault, by simp only [Except.bind, bind, hk]⟩
      | ok k =>
        cases hv : load V z with
        | error fault => exact Or.inl ⟨fault, by simp only [Except.bind, bind, hk, hv]⟩
        | ok v => exact Or.inr ⟨k, v, by simp only [Except.bind, bind, hk, hv]; rfl⟩

/-! ## The lines that do no harm -/

/-- Reads of a line that is too short read past its end. -/
theorem safeLine_read_iff (ha : a.length < npos) (hr : a.headD 0 = 'r'.toUInt8) :
    SafeLine a ↔ readStart a + 63 ≤ a.length := by
  have hparse := parseLine_read ha hr
  rw [load_piece_eq rfl] at hparse
  constructor
  · intro h
    by_contra hlt
    rw [if_neg hlt] at hparse
    exact h.inside hparse
  · intro hle
    rw [if_pos hle] at hparse
    exact ⟨by rw [hparse]; exact nofun, by rw [hparse]; exact nofun, fun k v hwrite ↦ by
      rw [hparse] at hwrite; cases hwrite⟩

theorem safeLine_write_iff (ha : a.length < npos) (hw : a.headD 0 = 'w'.toUInt8) :
    SafeLine a ↔ SuppliesWrite a := by
  constructor
  · intro h
    obtain ⟨fault, hfault⟩ | ⟨k, v, hwrite⟩ := parseLine_write_cases ha hw
    · cases fault with
      | outOfRange => exact absurd hfault h.in_range
      | pastEnd => exact absurd hfault h.inside
    · exact h.write k v hwrite
  · intro h
    have hkey := h.key
    have hvalue : valueStart a + 63 ≤ a.length := by
      have := h.value
      rw [valueStart, if_pos h.comma_mem]
      omega
    obtain ⟨k, v, hwrite⟩ := parseLine_write_ok ha hw (by omega) hvalue
    exact ⟨by rw [hwrite]; exact nofun, by rw [hwrite]; exact nofun, fun _ _ _ ↦ h⟩

/-- **Which lines do no harm**: a read with 63 bytes from where its key begins, and a write with a whole
key and value.

For a read 63 bytes are enough, since behind them is the zero that ends the string.  A write with a key of 63
bytes goes through as well, but then that zero is part of the key it is stored under. -/
theorem safeLine_iff (ha : a.length < npos) : SafeLine a ↔
    (a.headD 0 = 'r'.toUInt8 → readStart a + 63 ≤ a.length) ∧
      (a.headD 0 = 'w'.toUInt8 → SuppliesWrite a) := by
  by_cases hr : a.headD 0 = 'r'.toUInt8
  · have hw : ¬a.headD 0 = 'w'.toUInt8 := by rw [hr]; decide
    rw [safeLine_read_iff ha hr]
    exact ⟨fun h ↦ ⟨fun _ ↦ h, fun hw' ↦ absurd hw' hw⟩, fun h ↦ h.1 hr⟩
  by_cases hw : a.headD 0 = 'w'.toUInt8
  · rw [safeLine_write_iff ha hw]
    exact ⟨fun h ↦ ⟨fun hr' ↦ absurd hr' hr, fun _ ↦ h⟩, fun h ↦ h.2 hw⟩
  · have hparse : parseLine a = .ok .none := by rw [parseLine, if_neg hr, if_neg hw]; rfl
    refine iff_of_true ⟨fun herr ↦ ?_, fun herr ↦ ?_, fun k v hwrite ↦ ?_⟩
      ⟨fun hr' ↦ absurd hr' hr, fun hw' ↦ absurd hw' hw⟩
    · cases hparse.symm.trans herr
    · cases hparse.symm.trans herr
    · cases hparse.symm.trans hwrite

/-- A line that says only `r`. -/
theorem safeLine_iff_short : ¬SafeLine (ascii "r") := by
  have hlen : (ascii "r").length < npos := by decide
  rw [safeLine_iff hlen]
  exact fun h ↦ absurd (h.1 (by decide)) (by decide)

/-- **Lines that do harm**: one for which `substr` throws, one for which the load of a key reads past its
end, and one without a comma that writes a piece of its key as the value. -/
theorem harmful_lines :
    parseLine (ascii "w") = .error .outOfRange ∧ parseLine (ascii "r k") = .error .pastEnd ∧
      (∃ k v, parseLine (ascii "w " ++ List.replicate 64 0) = .ok (.write k v)) ∧
      ¬SafeLine (ascii "w") ∧ ¬SafeLine (ascii "r k") ∧
      ¬SafeLine (ascii "w " ++ List.replicate 64 0) := by
  have hw : parseLine (ascii "w") = .error .outOfRange := rfl
  have hr : parseLine (ascii "r k") = .error .pastEnd := rfl
  have hwrite : ∃ k v, parseLine (ascii "w " ++ List.replicate 64 0) = .ok (.write k v) :=
    parseLine_write_ok (by decide) (by decide) (by decide) (by decide)
  refine ⟨hw, hr, hwrite, fun h ↦ h.in_range hw, fun h ↦ h.inside hr, fun h ↦ ?_⟩
  obtain ⟨k, v, hparse⟩ := hwrite
  exact absurd (h.write k v hparse).comma_mem (by decide)

end Master

end ScratchStore
