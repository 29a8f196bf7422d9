import Mathlib.Data.List.Basic
import Mathlib.Data.List.Flatten
import Mathlib.Tactic.Ring

/-!
# Plain data and files of fixed-size chunks

A `Pod` type is one whose values are moved around as a fixed number of bytes, with no padding and
no invalid representation: a C struct of integers that a program `memcpy`s, `fwrite`s and
`fread`s.  Pairs of such types are laid out one after the other.

A file of consecutive values is `encode vs`.  Reading one back gives `decode`, which takes as many
complete chunks as there are and ignores an incomplete one at the end.

* `Pod` is the class, with `toBytes` and `ofBytes` inverse to each other on byte strings of the right
  length, so that reading a struct back never fails and never loses anything.
* `Pod.decode_encode` and `Pod.encode_decode_of_dvd` are the two halves of that for files.
* `Pod.decode_encode_append` and `Pod.exists_encode_decode` are about files with an incomplete chunk at
  the end, which is what a program that was killed in the middle of a write leaves behind.

That a size is positive is part of the class.  Dividing the length of a file by the size of a record is
what programs do all the time, and with it the number of records is what it should be.
-/

set_option autoImplicit false

/-- A byte string. -/
abbrev Bytes := List UInt8

/-- A type whose values are exactly the byte strings of one length. -/
class Pod (α : Type) where
  /-- The number of bytes of a value. -/
  sizeof : ℕ
  /-- The bytes of a value. -/
  toBytes : α → Bytes
  /-- The value a buffer of bytes stands for. -/
  ofBytes : Bytes → α
  sizeof_pos : 0 < sizeof
  length_toBytes : ∀ a, (toBytes a).length = sizeof
  ofBytes_toBytes : ∀ a, ofBytes (toBytes a) = a
  toBytes_ofBytes : ∀ bs, bs.length = sizeof → toBytes (ofBytes bs) = bs

namespace Pod

attribute [simp] length_toBytes ofBytes_toBytes

variable {α β : Type} [Pod α] [Pod β]

theorem toBytes_injective : Function.Injective (toBytes : α → Bytes) :=
  Function.LeftInverse.injective ofBytes_toBytes

instance : Pod UInt8 where
  sizeof := 1
  toBytes b := [b]
  ofBytes bs := bs.headD 0
  sizeof_pos := Nat.one_pos
  length_toBytes _ := rfl
  ofBytes_toBytes _ := rfl
  toBytes_ofBytes bs h := by
    obtain ⟨b, rfl⟩ := List.length_eq_one_iff.mp h
    rfl

instance : Pod (α × β) where
  sizeof := sizeof α + sizeof β
  toBytes p := toBytes p.1 ++ toBytes p.2
  ofBytes bs := (ofBytes (bs.take (sizeof α)), ofBytes (bs.drop (sizeof α)))
  sizeof_pos := Nat.add_pos_left sizeof_pos _
  length_toBytes p := by simp
  ofBytes_toBytes p := by
    rw [← length_toBytes p.1, List.take_left, List.drop_left, ofBytes_toBytes, ofBytes_toBytes]
  toBytes_ofBytes bs h := by
    rw [toBytes_ofBytes (bs.take (sizeof α)) (by rw [List.length_take]; omega),
      toBytes_ofBytes (bs.drop (sizeof α)) (by rw [List.length_drop]; omega),
      List.take_append_drop]

theorem sizeof_prod : sizeof (α × β) = sizeof α + sizeof β := rfl

theorem toBytes_prod (p : α × β) : toBytes p = toBytes p.1 ++ toBytes p.2 := rfl

/-! ## Consecutive values -/

/-- The bytes of consecutive values. -/
def encode (vs : List α) : Bytes := vs.flatMap toBytes

@[simp] theorem encode_nil : encode ([] : List α) = [] := rfl

@[simp] theorem encode_cons (v : α) (vs : List α) : encode (v :: vs) = toBytes v ++ encode vs :=
  List.flatMap_cons

@[simp] theorem encode_append (vs ws : List α) : encode (vs ++ ws) = encode vs ++ encode ws :=
  List.flatMap_append

@[simp] theorem length_encode (vs : List α) : (encode vs).length = vs.length * sizeof α := by
  induction vs with
  | nil => simp
  | cons v vs ih => rw [encode_cons, List.length_append, ih, length_toBytes, List.length_cons]; ring

theorem encode_concat_ne_nil (vs : List α) (v : α) : encode (vs ++ [v]) ≠ [] := by
  intro h
  have hlen := congrArg List.length h
  have hpos := sizeof_pos (α := α)
  simp at hlen
  omega

theorem drop_encode (vs : List α) (i : ℕ) :
    (encode vs).drop (i * sizeof α) = encode (vs.drop i) := by
  induction i generalizing vs with
  | zero => simp
  | succ i ih =>
    cases vs with
    | nil => simp
    | cons v vs =>
      have h : (i + 1) * sizeof α = (toBytes v).length + i * sizeof α := by
        rw [length_toBytes]; ring
      rw [encode_cons, h, ← List.drop_drop, List.drop_left, ih, List.drop_succ_cons]

/-- As many values as there are complete chunks. -/
def decode (α : Type) [Pod α] (bs : Bytes) : List α :=
  if sizeof α ≤ bs.length then ofBytes (bs.take (sizeof α)) :: decode α (bs.drop (sizeof α)) else []
termination_by bs.length
decreasing_by
  have := sizeof_pos (α := α)
  rw [List.length_drop]
  omega

theorem decode_of_length_lt {bs : Bytes} (h : bs.length < sizeof α) : decode α bs = [] := by
  rw [decode, if_neg (not_le.mpr h)]

@[simp] theorem decode_nil : decode α [] = [] :=
  decode_of_length_lt (by simpa using sizeof_pos (α := α))

theorem decode_toBytes_append (v : α) (bs : Bytes) : decode α (toBytes v ++ bs) = v :: decode α bs := by
  rw [decode, if_pos (by simp), ← length_toBytes v, List.take_left, List.drop_left,
    ofBytes_toBytes]

theorem decode_encode_append (vs : List α) (tail : Bytes) (h : tail.length < sizeof α) :
    decode α (encode vs ++ tail) = vs := by
  induction vs with
  | nil => simpa using decode_of_length_lt h
  | cons v vs ih => rw [encode_cons, List.append_assoc, decode_toBytes_append, ih]

@[simp] theorem decode_encode (vs : List α) : decode α (encode vs) = vs := by
  simpa using decode_encode_append vs [] sizeof_pos

/-- What `decode` reads is a prefix, and what it leaves is shorter than a chunk. -/
theorem exists_encode_decode (bs : Bytes) :
    ∃ tail : Bytes, tail.length < sizeof α ∧ bs = encode (decode α bs) ++ tail := by
  fun_induction decode α bs with
  | case1 bs hle ih =>
    obtain ⟨tail, hlt, htail⟩ := ih
    refine ⟨tail, hlt, ?_⟩
    rw [encode_cons, toBytes_ofBytes _ (by rw [List.length_take]; omega), List.append_assoc,
      ← htail, List.take_append_drop]
  | case2 bs hlt => exact ⟨bs, by omega, by simp⟩

theorem length_decode (bs : Bytes) : (decode α bs).length = bs.length / sizeof α := by
  obtain ⟨tail, hlt, htail⟩ := exists_encode_decode (α := α) bs
  have hlen := congrArg List.length htail
  rw [List.length_append, length_encode] at hlen
  rw [hlen, Nat.mul_comm, Nat.mul_add_div sizeof_pos, Nat.div_eq_of_lt hlt, Nat.add_zero]

theorem encode_decode_of_dvd {bs : Bytes} (h : sizeof α ∣ bs.length) : encode (decode α bs) = bs := by
  obtain ⟨tail, hlt, htail⟩ := exists_encode_decode (α := α) bs
  have hlen := congrArg List.length htail
  rw [List.length_append, length_encode] at hlen
  have hdvd : sizeof α ∣ tail.length :=
    (Nat.dvd_add_right (Dvd.intro_left _ rfl)).mp (hlen ▸ h)
  have hnil : tail = [] := List.length_eq_zero_iff.mp (Nat.eq_zero_of_dvd_of_lt hdvd hlt)
  rw [htail, hnil, List.append_nil, decode_encode]

end Pod
