import Mathlib.Data.List.Lex
import Mathlib.Data.Fin.Basic
import Mathlib.Data.List.Basic
import Mathlib.Data.Vector.Basic
import Mathlib.Tactic.Ring
import Mathlib.Tactic.IntervalCases
import ScratchStore.Lib.LittleEndian
import ScratchStore.Stdio

/-!
# Keys, values and time stamps

`K` and `V` of `master.hpp` are arrays of eight `unsigned long`, laid out little-endian.  Keys
are compared by `K::operator<`, word by word, which is the lexicographic order of the words and so
a linear order.

At the end is a clock to run the store with: the seconds of one day.

What is proved about them is little, on purpose.

* `K.operatorLt_iff`: the comparison of the source is a linear order, and that is all the trees, the files and
  the merge ask of it.
* The instances of `Pod`: the bytes of a key and of a value determine it, which is what reading a file back
  comes to.
* `numbered` and `oneV` are keys and values to run examples with.
-/

set_option autoImplicit false

namespace ScratchStore

namespace Master

/-- An array of eight `unsigned long`. -/
abbrev Words := { ws : List UInt64 // ws.length = 8 }

theorem length_encode_words (ws : Words) : (Pod.encode ws.1).length = 64 := by
  rw [Pod.length_encode, ws.2]; rfl

theorem length_decode_words {bs : Bytes} (h : bs.length = 64) :
    (Pod.decode UInt64 bs).length = 8 := by
  rw [Pod.length_decode, h]; rfl

instance : Pod Words where
  sizeof := 64
  toBytes ws := Pod.encode ws.1
  ofBytes bs :=
    if h : bs.length = 64 then ⟨Pod.decode UInt64 bs, length_decode_words h⟩
    else ⟨List.replicate 8 0, rfl⟩
  sizeof_pos := by decide
  length_toBytes := length_encode_words
  ofBytes_toBytes ws := by
    rw [dif_pos (length_encode_words ws)]
    exact Subtype.ext (Pod.decode_encode ws.1)
  toBytes_ofBytes bs h := by
    rw [dif_pos h]
    exact Pod.encode_decode_of_dvd (h ▸ by decide)

/-- `struct K` of `master.hpp`. -/
structure K where
  bytes : Words

/-- `struct V` of `master.hpp`. -/
structure V where
  bytes : Words
deriving DecidableEq

/-- The loop of `K::operator<`. -/
def ltWords : List UInt64 → List UInt64 → Bool
  | a :: as, b :: bs => if a < b then true else if b < a then false else ltWords as bs
  | _, _ => false

/-- `K::operator<`. -/
def K.operatorLt (k k2 : K) : Bool := ltWords k.bytes.1 k2.bytes.1

instance : Pod K where
  sizeof := 64
  toBytes k := Pod.toBytes k.bytes
  ofBytes bs := ⟨Pod.ofBytes bs⟩
  sizeof_pos := by decide
  length_toBytes k := Pod.length_toBytes k.bytes
  ofBytes_toBytes k := congrArg K.mk (Pod.ofBytes_toBytes k.bytes)
  toBytes_ofBytes := Pod.toBytes_ofBytes (α := Words)

instance : Pod V where
  sizeof := 64
  toBytes v := Pod.toBytes v.bytes
  ofBytes bs := ⟨Pod.ofBytes bs⟩
  sizeof_pos := by decide
  length_toBytes v := Pod.length_toBytes v.bytes
  ofBytes_toBytes v := congrArg V.mk (Pod.ofBytes_toBytes v.bytes)
  toBytes_ofBytes := Pod.toBytes_ofBytes (α := Words)

/-! ### Keys and values to run examples with -/

/-- A key and a value. -/
def zeroK : K := ⟨⟨List.replicate 8 0, rfl⟩⟩
def zeroV : V := ⟨⟨List.replicate 8 0, rfl⟩⟩

/-- A value that is not zero. -/
def oneV : V := ⟨⟨List.replicate 8 1, rfl⟩⟩

/-- Keys that differ in their first word. -/
def numbered (n : ℕ) : K := ⟨⟨UInt64.ofNat n :: List.replicate 7 0, rfl⟩⟩

theorem numbered_inj {m n : ℕ} (hm : m < 2 ^ 64) (hn : n < 2 ^ 64) (h : numbered m = numbered n) :
    m = n := by
  have hword : UInt64.ofNat m = UInt64.ofNat n := by
    simp only [numbered, K.mk.injEq, Subtype.mk.injEq, List.cons.injEq, and_true] at h
    exact h
  have hnat := congrArg UInt64.toNat hword
  rwa [UInt64.toNat_ofNat_of_lt' hm, UInt64.toNat_ofNat_of_lt' hn] at hnat

theorem sizeof_K : Pod.sizeof K = 64 := rfl

theorem sizeof_V : Pod.sizeof V = 64 := rfl

theorem sizeof_KV : Pod.sizeof (K × V) = 128 := rfl

/-! ### The order of keys -/

/-- The words of a key as numbers, most significant word first. -/
def K.nats (k : K) : List ℕ := k.bytes.1.map UInt64.toNat

theorem K.nats_injective : Function.Injective K.nats := by
  intro a b h
  have hw : a.bytes.1 = b.bytes.1 := List.map_injective_iff.mpr (fun _ _ ↦ UInt64.toNat.inj) h
  cases a; cases b
  exact congrArg K.mk (Subtype.ext hw)

theorem ltWords_iff {as bs : List UInt64} (h : as.length = bs.length) :
    ltWords as bs = true ↔ as.map UInt64.toNat < bs.map UInt64.toNat := by
  induction as generalizing bs with
  | nil =>
    cases bs with
    | nil => simp [ltWords]
    | cons b bs => simp at h
  | cons a as ih =>
    cases bs with
    | nil => simp at h
    | cons b bs =>
      rw [ltWords, List.map_cons, List.map_cons, List.cons_lt_cons_iff, ← ih (by simpa using h),
        ← UInt64.lt_iff_toNat_lt, ← UInt64.toNat_inj.symm]
      split_ifs with h1 h2
      · simp [h1]
      · have hne : a ≠ b := fun hab ↦ UInt64.lt_irrefl a (by rw [hab] at h2 ⊢; exact h2)
        simp [h1, hne]
      · have heq : a = b := UInt64.le_antisymm (UInt64.not_lt.mp h2) (UInt64.not_lt.mp h1)
        simp [heq]

/-- **`K::operator<` compares the words lexicographically.** -/
theorem K.operatorLt_iff (k k2 : K) : k.operatorLt k2 = true ↔ k.nats < k2.nats :=
  ltWords_iff (by rw [k.bytes.2, k2.bytes.2])

instance : LinearOrder K where
  le k k2 := k.nats ≤ k2.nats
  lt k k2 := k.operatorLt k2 = true
  le_refl k := le_refl k.nats
  le_trans _ _ _ h h' := le_trans h h'
  lt_iff_le_not_ge k k2 := (K.operatorLt_iff k k2).trans lt_iff_le_not_ge
  le_antisymm _ _ h h' := K.nats_injective (le_antisymm h h')
  le_total k k2 := le_total k.nats k2.nats
  toDecidableLE k k2 := inferInstanceAs (Decidable (k.nats ≤ k2.nats))
  toDecidableLT k k2 := inferInstanceAs (Decidable (k.operatorLt k2 = true))

end Master

/-! ## A clock -/

/-- The seconds of 7 May 2021. -/
abbrev DaySecond := Fin 86400

instance neZero_day : NeZero 86400 := ⟨by decide⟩

/-- Two decimal digits. -/
def twoDigits (n : ℕ) : List Char := [Char.ofNat (48 + n / 10), Char.ofNat (48 + n % 10)]

/-- The number two ASCII digits stand for. -/
def ofTwoDigits (bs : Bytes) : ℕ :=
  match bs with
  | a :: b :: _ => (a.toNat - 48) * 10 + (b.toNat - 48)
  | _ => 0

/-- The characters before the hour. -/
def date : List Char := ['2', '0', '2', '1', '-', '0', '5', '-', '0', '7', '.']

/-- The stamp of an hour, minute and second of that day. -/
def stamp (h m s : ℕ) : String :=
  String.ofList (date ++ (twoDigits h ++ (':' :: (twoDigits m ++
    (':' :: twoDigits s)))))

/-- `strftime` on that day. -/
def dayTime (t : DaySecond) : String := stamp (t.val / 3600) (t.val / 60 % 60) (t.val % 60)

/-- `mktime ∘ strptime` on that day. -/
def ofDayTime (bs : Bytes) : DaySecond :=
  Fin.ofNat 86400 (ofTwoDigits (bs.drop 11) * 3600 + ofTwoDigits (bs.drop 14) * 60 +
    ofTwoDigits (bs.drop 17))

theorem toNat_digit {n : ℕ} (h : n < 10) :
    (UInt8.ofNat (Char.ofNat (48 + n)).toNat).toNat = 48 + n := by
  interval_cases n <;> rfl

/-- The bytes of two decimal digits. -/
def digitBytes (n : ℕ) : Bytes := (twoDigits n).map fun c ↦ UInt8.ofNat c.toNat

theorem ascii_ofList (cs : List Char) :
    ascii (String.ofList cs) = cs.map fun c ↦ UInt8.ofNat c.toNat := by
  rw [ascii, String.toList_ofList]

/-- The bytes before the hour. -/
def dateBytes : Bytes := date.map fun c ↦ UInt8.ofNat c.toNat

theorem ascii_stamp (h m s : ℕ) : ascii (stamp h m s) =
    dateBytes ++ (digitBytes h ++ (58 :: (digitBytes m ++ (58 :: digitBytes s)))) := by
  have hcolon : UInt8.ofNat ':'.toNat = 58 := by decide
  simp only [stamp, ascii_ofList, List.map_append, List.map_cons, dateBytes, digitBytes, hcolon]

theorem ofTwoDigits_digitBytes {n : ℕ} (h : n < 100) (rest : Bytes) :
    ofTwoDigits (digitBytes n ++ rest) = n := by
  simp only [digitBytes, twoDigits, List.map_cons, List.map_nil, List.cons_append, List.nil_append,
    ofTwoDigits]
  rw [toNat_digit (by omega), toNat_digit (by omega)]
  omega

theorem ofDayTime_stamp {h m s : ℕ} (hh : h < 100) (hm : m < 100) (hs : s < 100) (pad : Bytes) :
    ofDayTime (ascii (stamp h m s) ++ pad) = Fin.ofNat 86400 (h * 3600 + m * 60 + s) := by
  have h11 : ∀ xs : Bytes, (dateBytes ++ xs).drop 11 = xs := fun _ ↦ List.drop_left' (by decide)
  have h3 : ∀ (n : ℕ) (xs : Bytes), (digitBytes n ++ 58 :: xs).drop 3 = xs := fun _ _ ↦ rfl
  have h14 : ∀ xs : Bytes, xs.drop 14 = (xs.drop 11).drop 3 := fun xs ↦ by rw [List.drop_drop]
  have h17 : ∀ xs : Bytes, xs.drop 17 = ((xs.drop 11).drop 3).drop 3 := by
    intro xs
    rw [List.drop_drop, List.drop_drop]
  rw [ascii_stamp, ofDayTime, h14, h17]
  simp only [List.append_assoc, List.cons_append, h11, h3]
  rw [ofTwoDigits_digitBytes hh, ofTwoDigits_digitBytes hm, ofTwoDigits_digitBytes hs]

theorem ofDayTime_dayTime (t : DaySecond) (pad : Bytes) :
    ofDayTime (ascii (dayTime t) ++ pad) = t := by
  have ht := t.isLt
  rw [dayTime, ofDayTime_stamp (by omega) (by omega) (by omega)]
  refine Fin.ext ?_
  rw [Fin.val_ofNat]
  omega

instance : TimeFormat DaySecond where
  strftime := dayTime
  mktime := ofDayTime
  length_strftime t := by
    have hdate : dateBytes.length = 11 := by decide
    simp only [dayTime, ascii_stamp, List.length_append, List.length_cons, hdate]
    rfl
  mktime_strftime := ofDayTime_dayTime

end ScratchStore
