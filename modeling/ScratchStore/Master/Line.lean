import Mathlib.Data.List.TakeWhile
import ScratchStore.Core.Merge

/-!
# The lines of a batch file

`serve` takes a line apart by its bytes: the key is what follows the first blank or `w`, the value what
follows the first comma, each of them 64 bytes wide.  A position past the end of the line makes
`substr` throw, and a piece that is too short makes the load of a key or value read past its end.

The lines of `datagen.py` are `Line`, for keys and values that are any 64 bytes but newlines.
`parseLine_text` says what `serve` makes of them: the key is the one that was meant, and the value is
`cutValue`, since the comma it looks for may be in the key.

`Fault` has what the source does not catch.  An exception of `substr` ends the program.  A load past the end of
a string is undefined; here it is a fault of its own, so that nothing has to be said about what it returns.

A `Field` is any 64 bytes without a newline.  A value may have zeros in it, and `f2 << out1` stops at the first
(`cString`); a key may have a comma, and then the value is cut out of the wrong place (`cutBytes`).  `shown` has
both effects in it, and `shown_eq_iff` says when neither is there.
-/

set_option autoImplicit false

namespace ScratchStore

namespace Master

/-! ## Strings

Only what `serve` uses.  Positions are 64-bit numbers, and `npos + 1` is zero. -/

/-- `std::string::npos` -/
def npos : ℕ := 2 ^ 64 - 1

/-- Addition in `size_t`. -/
def sizeAdd (m n : ℕ) : ℕ := (m + n) % 2 ^ 64

/-- `a.find(c)` -/
def find (a : Bytes) (c : UInt8) : ℕ := if c ∈ a then a.idxOf c else npos

/-- What goes wrong with a line: `substr` throws, or a load reads past the end of a string. -/
inductive Fault where
  | outOfRange
  | pastEnd
deriving DecidableEq

/-- `a.substr(pos, n)` -/
def substr (a : Bytes) (pos n : ℕ) : Except Fault Bytes :=
  if a.length < pos then .error .outOfRange else .ok ((a.drop pos).take n)

/-- `*(T *)a.c_str()`: the string is followed by a zero. -/
def load (T : Type) [Pod T] (a : Bytes) : Except Fault T :=
  if a.length + 1 < Pod.sizeof T then .error .pastEnd else .ok (Pod.ofBytes ((a ++ [0]).take (Pod.sizeof T)))

abbrev newline : UInt8 := '\n'.toUInt8
abbrev blank : UInt8 := ' '.toUInt8
abbrev comma : UInt8 := ','.toUInt8
abbrev semicolon : UInt8 := ';'.toUInt8

/-- `getline`: the next line, if there is one, and what follows it. -/
def getline (input : Bytes) : Option (Bytes × Bytes) :=
  if input = [] then none
  else some (input.takeWhile (· ≠ newline), (input.dropWhile (· ≠ newline)).tail)

/-- What `f2 << out1` prints: the string ends at its first zero. -/
def cString (out1 : Bytes) : Bytes := out1.takeWhile (· ≠ 0)

/-! ## What a line asks for -/

/-- What `serve` does with a line. -/
inductive Command where
  | read (k : K)
  | write (k : K) (v : V)
  | none

/-- The two branches of `serve`, up to the call of `dbread` or `dbwrite`.  Nothing uses the `x` they cut
out first. -/
def parseLine (a : Bytes) : Except Fault Command :=
  if a.headD 0 = 'r'.toUInt8 then do
    let _x ← substr a 0 (find a blank)
    let y ← substr a (sizeAdd (find a blank) 1) 64
    let K1 ← load K y
    return .read K1
  else if a.headD 0 = 'w'.toUInt8 then do
    let _x ← substr a 0 (find a blank)
    let y ← substr a (sizeAdd (find a 'w'.toUInt8) 2) 64
    let z ← substr a (sizeAdd (find a comma) 2) 64
    let K1 ← load K y
    let V1 ← load V z
    return .write K1 V1
  else return .none

/-- What `serve` prints for the answer of `dbread`. -/
def printed : Option V → Bytes
  | some V1 => cString (Pod.toBytes V1) ++ [newline]
  | none => ascii "Key Not Found!\n"

/-! ## Well-formed lines -/

/-- A key or value in a line. -/
structure Field where
  bytes : Bytes
  length_eq : bytes.length = 64
  not_newline : newline ∉ bytes

/-- The lines `w k, v;`, `r k` and `r k;`. -/
inductive Line where
  | write (k v : Field)
  | read (k : Field) (semi : Bool)

/-- The line, without its newline. -/
def Line.text : Line → Bytes
  | write k v => 'w'.toUInt8 :: blank :: (k.bytes ++ comma :: blank :: (v.bytes ++ [semicolon]))
  | read k semi => 'r'.toUInt8 :: blank :: (k.bytes ++ if semi then [semicolon] else [])

/-- A batch file. -/
def batchFile (lines : List Line) : Bytes := lines.flatMap fun l ↦ l.text ++ [newline]

/-- The key with these bytes. -/
def Field.key (k : Field) : K := Pod.ofBytes k.bytes

/-- The 64 bytes two after the first comma of `w k, v;`. -/
def cutBytes (k v : Field) : Bytes :=
  ((k.bytes ++ comma :: blank :: v.bytes).drop (k.bytes.idxOf comma + 2)).take 64

/-- The value with these bytes. -/
def cutValue (k v : Field) : V := Pod.ofBytes (cutBytes k v)

theorem newline_not_mem_text (l : Line) : newline ∉ l.text := by
  cases l with
  | write k v =>
    have hk := k.not_newline
    have hv := v.not_newline
    simp only [Line.text, List.mem_cons, List.mem_append, List.not_mem_nil, or_false, hk, hv, false_or]
    decide
  | read k semi =>
    have hk := k.not_newline
    cases semi <;>
      simp only [Line.text, List.mem_cons, List.mem_append, List.not_mem_nil, or_false, hk, false_or, if_true,
        Bool.false_eq_true, if_false] <;> decide

/-- **`getline` takes one line after the other.** -/
theorem getline_batchFile (l : Line) (lines : List Line) :
    getline (batchFile (l :: lines)) = some (l.text, batchFile lines) := by
  have hne : ∀ c ∈ l.text, (decide (c ≠ newline)) = true := by
    intro c hc
    rw [decide_eq_true_eq]
    rintro rfl
    exact newline_not_mem_text l hc
  have hfile : batchFile (l :: lines) = l.text ++ newline :: batchFile lines := by
    rw [batchFile, List.flatMap_cons, List.append_assoc]
    rfl
  rw [getline, if_neg (by rw [hfile]; simp), hfile, List.takeWhile_append_of_pos hne,
    List.dropWhile_append_of_pos hne]
  simp

/-! ## What `serve` makes of them

The line begins with an `r` and a blank or with a `w`, so the first of these is in front of the key,
whatever the key has in it.  The first comma is in the key or right behind it. -/

theorem substr_of_le {a : Bytes} {pos : ℕ} (h : pos ≤ a.length) (n : ℕ) :
    substr a pos n = .ok ((a.drop pos).take n) := by
  rw [substr, if_neg (Nat.not_lt.mpr h)]

theorem load_of_length {T : Type} [Pod T] {a : Bytes} (h : a.length = Pod.sizeof T) :
    load T a = .ok (Pod.ofBytes a) := by
  rw [load, if_neg (by omega), List.take_append_of_le_length h.ge, List.take_of_length_le h.le]

theorem sizeAdd_of_lt {m n : ℕ} (h : m + n < 2 ^ 64) : sizeAdd m n = m + n := Nat.mod_eq_of_lt h

theorem idxOf_le (k : Field) : k.bytes.idxOf comma ≤ 64 := k.length_eq ▸ List.idxOf_le_length

/-- The first comma of `w k, v;` is in the key, or else right after it. -/
theorem find_comma (k v : Field) :
    find (Line.write k v).text comma = k.bytes.idxOf comma + 2 := by
  have hidx : ∀ rest, (k.bytes ++ comma :: rest).idxOf comma = k.bytes.idxOf comma := by
    intro rest
    by_cases hk : comma ∈ k.bytes
    · exact List.idxOf_append_of_mem hk
    · rw [List.idxOf_append_of_notMem hk, List.idxOf_cons_self, List.idxOf_eq_length hk, Nat.add_zero]
  rw [find, if_pos (by simp [Line.text]), Line.text, List.idxOf_cons_ne _ (by decide),
    List.idxOf_cons_ne _ (by decide), hidx]

theorem length_cutBytes (k v : Field) : (cutBytes k v).length = 64 := by
  have hle := idxOf_le k
  simp only [cutBytes, List.length_take, List.length_drop, List.length_append, List.length_cons, k.length_eq,
    v.length_eq]
  omega

/-- The semicolon is behind what is cut out. -/
theorem take_text (k v : Field) :
    ((Line.write k v).text.drop (k.bytes.idxOf comma + 4)).take 64 = cutBytes k v := by
  have hle := idxOf_le k
  have htext : (Line.write k v).text.drop (k.bytes.idxOf comma + 4) =
      (k.bytes ++ comma :: blank :: v.bytes).drop (k.bytes.idxOf comma + 2) ++ [semicolon] := by
    rw [Line.text, List.drop_succ_cons, List.drop_succ_cons, ← List.drop_append_of_le_length]
    · simp
    · simp only [List.length_append, List.length_cons, k.length_eq, v.length_eq]
      omega
  rw [htext, List.take_append_of_le_length, cutBytes]
  simp only [List.length_drop, List.length_append, List.length_cons, k.length_eq, v.length_eq]
  omega

/-- **What a well-formed line asks for.** -/
theorem parseLine_text (l : Line) : parseLine l.text = .ok (match l with
    | .write k v => .write k.key (cutValue k v)
    | .read k _ => .read k.key) := by
  cases l with
  | write k v =>
    have hle := idxOf_le k
    have hlen : (Line.write k v).text.length = 133 := by simp [Line.text, k.length_eq, v.length_eq]
    have hkey : ((Line.write k v).text.drop 2).take 64 = k.bytes := by
      simp [Line.text, k.length_eq]
    have hfindw : find (Line.write k v).text 'w'.toUInt8 = 0 := by simp [find, Line.text]
    have hadd : sizeAdd (find (Line.write k v).text comma) 2 = k.bytes.idxOf comma + 4 := by
      rw [find_comma, sizeAdd_of_lt (by omega)]
    rw [parseLine, if_neg (by rw [Line.text, List.headD_cons]; decide), if_pos (by simp [Line.text]),
      substr_of_le (Nat.zero_le _), hfindw, hadd, substr_of_le (by rw [hlen]; decide), substr_of_le (by omega)]
    simp only [show sizeAdd 0 2 = 2 from rfl, hkey, take_text]
    have hk := load_of_length (T := K) k.length_eq
    have hv := load_of_length (T := V) (length_cutBytes k v)
    simp only [Except.bind, bind, hk, hv]
    rfl
  | read k semi =>
    have hlen : 66 ≤ (Line.read k semi).text.length := by simp [Line.text, k.length_eq]
    have hkey : ((Line.read k semi).text.drop 2).take 64 = k.bytes := by
      simp [Line.text, k.length_eq]
    have hfind : find (Line.read k semi).text blank = 1 := by
      rw [find, if_pos (by simp [Line.text]), Line.text, List.idxOf_cons_ne _ (by decide),
        List.idxOf_cons_self]
    rw [parseLine, if_pos (by simp [Line.text]), substr_of_le (Nat.zero_le _), hfind,
      show sizeAdd 1 1 = 2 from rfl, substr_of_le (by omega), hkey]
    have hk := load_of_length (T := K) k.length_eq
    simp only [Except.bind, bind, hk]
    rfl

/-! ## What a read prints of a value -/

/-- The value with these bytes. -/
def Field.value (v : Field) : V := Pod.ofBytes v.bytes

/-- What is printed of the value that `w k, v;` stores. -/
def shown (k v : Field) : Bytes := printed (some (cutValue k v))

theorem cutBytes_of_not_mem {k : Field} (hk : comma ∉ k.bytes) (v : Field) : cutBytes k v = v.bytes := by
  rw [cutBytes, List.idxOf_eq_length hk, k.length_eq, List.drop_append, List.drop_eq_nil_of_le (by
    rw [k.length_eq]; decide), k.length_eq]
  exact List.take_of_length_le v.length_eq.le

/-- What a comma in the key makes of the value has the blank in front of the value in it. -/
theorem blank_mem_cutBytes {k : Field} (hk : comma ∈ k.bytes) (v : Field) : blank ∈ cutBytes k v := by
  have hlt : k.bytes.idxOf comma < 64 := k.length_eq ▸ List.idxOf_lt_length_of_mem hk
  refine List.mem_of_getElem? (i := 63 - k.bytes.idxOf comma) ?_
  have hpos : k.bytes.idxOf comma + 2 + (63 - k.bytes.idxOf comma) = 65 := by omega
  rw [cutBytes, List.getElem?_take_of_lt (by omega), List.getElem?_drop, hpos,
    List.getElem?_append_right (by rw [k.length_eq]; decide), k.length_eq]
  rfl

theorem ofBytes_ne_tombstone {bs : Bytes} (hlen : bs.length = 64) {b : UInt8} (hb : b ∈ bs)
    (hne : b ≠ tombstoneByte) : (Pod.ofBytes bs : V) ≠ tombstone V := by
  intro heq
  have htomb := isTomb_iff.mpr heq
  rw [isTomb, Pod.toBytes_ofBytes _ hlen, List.all_eq_true] at htomb
  exact hne (beq_iff_eq.mp (htomb _ hb))

/-- **The reserved value** is only stored when it was meant. -/
theorem cutValue_ne_tombstone {k v : Field} (hv : v.value ≠ tombstone V) :
    cutValue k v ≠ tombstone V := by
  by_cases hk : comma ∈ k.bytes
  · exact ofBytes_ne_tombstone (length_cutBytes k v) (blank_mem_cutBytes hk v) (by decide)
  · rw [cutValue, cutBytes_of_not_mem hk]
    exact hv

theorem cutBytes_eq_iff (k v : Field) : cutBytes k v = v.bytes ↔
    v.bytes <+: (k.bytes ++ comma :: blank :: v.bytes).drop (k.bytes.idxOf comma + 2) := by
  rw [List.prefix_iff_eq_take, v.length_eq, cutBytes, eq_comm]

/-- The value comes back whole when it has no zero in it and is what follows the first comma. -/
theorem shown_eq_iff (k v : Field) : shown k v = v.bytes ++ [newline] ↔
    0 ∉ v.bytes ∧ v.bytes <+: (k.bytes ++ comma :: blank :: v.bytes).drop (k.bytes.idxOf comma + 2) := by
  rw [← cutBytes_eq_iff, shown, printed, cutValue, Pod.toBytes_ofBytes _ (length_cutBytes k v),
    List.append_left_inj, cString]
  constructor
  · intro h
    have hall : (cutBytes k v).takeWhile (· ≠ 0) = cutBytes k v := by
      refine (List.takeWhile_prefix _).eq_of_length ?_
      rw [h, v.length_eq, length_cutBytes]
    rw [hall] at h
    refine ⟨fun hzero ↦ ?_, h⟩
    rw [h, List.takeWhile_eq_self_iff] at hall
    exact absurd (hall 0 hzero) (by decide)
  · rintro ⟨hzero, h⟩
    rw [h, List.takeWhile_eq_self_iff]
    intro c hc
    rw [decide_eq_true_eq]
    rintro rfl
    exact hzero hc

/-- **The lines that are meant**: no comma in the key and no zero in the value. -/
theorem shown_of_plain {k v : Field} (hk : comma ∉ k.bytes) (hv : 0 ∉ v.bytes) :
    shown k v = v.bytes ++ [newline] :=
  (shown_eq_iff k v).mpr ⟨hv, (cutBytes_eq_iff k v).mp (cutBytes_of_not_mem hk v)⟩

end Master

end ScratchStore
