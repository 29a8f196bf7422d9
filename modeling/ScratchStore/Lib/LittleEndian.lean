import Mathlib.Tactic.Ring
import ScratchStore.Lib.Pod

/-!
# Little-endian numbers

An unsigned integer of `n` bytes is stored least significant byte first.  `leBytes` and `ofLEBytes`
are inverse to each other on numbers below `256 ^ n`, which makes `UInt64` a `Pod` of eight bytes.

Which of the two orders a machine has is visible to a program that writes its structs to disk as they are
in memory.  The laws of `Pod` do not depend on it, so it is decided here and nowhere else.
-/

set_option autoImplicit false

/-- The `n` low bytes of `x`, least significant first. -/
def leBytes : ℕ → ℕ → Bytes
  | 0, _ => []
  | n + 1, x => UInt8.ofNat (x % 256) :: leBytes n (x / 256)

/-- The number with these bytes, least significant first. -/
def ofLEBytes : Bytes → ℕ
  | [] => 0
  | b :: bs => b.toNat + 256 * ofLEBytes bs

@[simp] theorem length_leBytes (n x : ℕ) : (leBytes n x).length = n := by
  induction n generalizing x with
  | zero => rfl
  | succ n ih => rw [leBytes, List.length_cons, ih]

theorem ofLEBytes_leBytes (n x : ℕ) : ofLEBytes (leBytes n x) = x % 256 ^ n := by
  induction n generalizing x with
  | zero => simp [leBytes, ofLEBytes, Nat.mod_one]
  | succ n ih =>
    have hmod : (UInt8.ofNat (x % 256)).toNat = x % 256 := by
      rw [UInt8.toNat_ofNat']
      omega
    rw [leBytes, ofLEBytes, ih, hmod, Nat.pow_succ, Nat.mul_comm (256 ^ n), Nat.mod_mul]

theorem ofLEBytes_lt (bs : Bytes) : ofLEBytes bs < 256 ^ bs.length := by
  induction bs with
  | nil => simp [ofLEBytes]
  | cons b bs ih =>
    have hb : b.toNat < 256 := b.toNat_lt
    rw [ofLEBytes, List.length_cons, Nat.pow_succ]
    omega

theorem leBytes_ofLEBytes (bs : Bytes) : leBytes bs.length (ofLEBytes bs) = bs := by
  induction bs with
  | nil => rfl
  | cons b bs ih =>
    have hb : b.toNat < 256 := b.toNat_lt
    rw [List.length_cons, leBytes, ofLEBytes,
      show (b.toNat + 256 * ofLEBytes bs) % 256 = b.toNat by omega,
      show (b.toNat + 256 * ofLEBytes bs) / 256 = ofLEBytes bs by omega, ih, UInt8.ofNat_toNat]

instance : Pod UInt64 where
  sizeof := 8
  toBytes w := leBytes 8 w.toNat
  ofBytes bs := UInt64.ofNat (ofLEBytes bs)
  sizeof_pos := by decide
  length_toBytes _ := length_leBytes 8 _
  ofBytes_toBytes w := by
    have hw : w.toNat < 256 ^ 8 := w.toNat_lt
    rw [ofLEBytes_leBytes, Nat.mod_eq_of_lt hw, UInt64.ofNat_toNat]
  toBytes_ofBytes bs h := by
    have hlt : ofLEBytes bs < 256 ^ 8 := h ▸ ofLEBytes_lt bs
    rw [UInt64.toNat_ofNat_of_lt' hlt, ← h, leBytes_ofLEBytes]
