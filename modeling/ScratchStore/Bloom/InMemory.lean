import Mathlib.Data.List.GetD
import Mathlib.Data.List.Induction
import ScratchStore.Bloom.Reload

/-!
# The Bloom filter without a file

`Bloom` of `Bloom/bloom.hpp`.  Its probe pointer is an `unsigned short *` that goes on by 16 from one
word to the next, which is 32 bytes and not 16: the third word of a key is at its bytes 64 and 65.  The
constructor asks for keys of 48 bytes, so for most keys it lets pass `set` and `get` read what happens to
be in memory behind their own copy of the key.

That memory is an argument here, `behind`.  `answersFromKey_iff` says which keys are large enough for it
not to matter.

## What is behind a key

The argument is passed by value, so the bytes behind it are those of the stack at that moment, and they may
differ from one call to the next.  Therefore `run` has what was behind the key at each `set`, and the statement
quantifies over what is behind it at the `get`.

* `Determined` is that the answer is a function of the key, and `FindsWhatWasSet` that there are no false
  negatives.
* For a key of at least 66 bytes the three words lie within the key (`word_congr`), and both hold.
* For a smaller key both fail.  The third word is then read from behind the key, and the counterexamples are
  filters of the key of zeros, with zeros behind it at one time and something else at another.
-/

set_option autoImplicit false

namespace ScratchStore

open BloomFile

/-- The member of `Bloom`. -/
structure Bloom where
  arr : Bytes

namespace Bloom

/-- `Bloom(initial)`. -/
def create (initial : Bool) : Bloom := ⟨List.replicate bloomBytes (if initial then 255 else 0)⟩

variable {K : Type} [Pod K]

/-- The bytes from the key on. -/
def memory (k : K) (behind : ℕ → UInt8) (j : ℕ) : UInt8 :=
  (Pod.toBytes k).getD j (behind (j - Pod.sizeof K))

/-- `*s` in round `i` of the loops: `s` has gone on by 16 `unsigned short`s `i` times. -/
def word (k : K) (behind : ℕ → UInt8) (i : ℕ) : ℕ :=
  ofLEBytes [memory k behind (32 * i), memory k behind (32 * i + 1)]

/-- `arr[s/8] = arr[s/8] | (1<<(s%8))` -/
def setWord (arr : Bytes) (s : ℕ) : Bytes := arr.set (s / 8) (arr.getD (s / 8) 0 ||| bit s)

/-- `set(k)`. -/
def set (b : Bloom) (k : K) (behind : ℕ → UInt8) : Bloom :=
  ⟨(List.range 3).foldl (fun arr i ↦ setWord arr (word k behind i)) b.arr⟩

/-- `get(k)`. -/
def get (b : Bloom) (k : K) (behind : ℕ → UInt8) : Bool :=
  (List.range 3).all fun i ↦ hasBit b.arr (word k behind i)

/-- A new filter after some calls of `set`, each with what is behind its key. -/
def run (initial : Bool) (sets : List (K × (ℕ → UInt8))) : Bloom :=
  sets.foldl (fun b x ↦ b.set x.1 x.2) (create initial)

/-! ## The bits -/

theorem word_lt (k : K) (behind : ℕ → UInt8) (i : ℕ) : word k behind i / 8 < bloomBytes := by
  have hlt : word k behind i < 256 ^ 2 := ofLEBytes_lt _
  rw [bloomBytes]
  omega

theorem get_iff {b : Bloom} {k : K} {behind : ℕ → UInt8} :
    b.get k behind = true ↔ ∀ i < 3, hasBit b.arr (word k behind i) = true := by
  simp [get]

/-- **The bits of `set`** are those there were and the three words it reads. -/
theorem set_iff {b : Bloom} (h : b.arr.length = bloomBytes) (k : K) (behind : ℕ → UInt8) :
    (b.set k behind).arr.length = bloomBytes ∧ ∀ s, hasBit (b.set k behind).arr s = true ↔
      hasBit b.arr s = true ∨ ∃ i < 3, word k behind i = s := by
  have hword : ∀ {arr : Bytes}, arr.length = bloomBytes → ∀ i,
      (setWord arr (word k behind i)).length = bloomBytes ∧ ∀ s,
        hasBit (setWord arr (word k behind i)) s = true ↔ hasBit arr s = true ∨ s = word k behind i :=
    fun harr i ↦ ⟨by rw [setWord, List.length_set, harr], hasBit_set_iff (harr.symm ▸ word_lt k behind i)⟩
  obtain ⟨h0, b0⟩ := hword h 0
  obtain ⟨h1, b1⟩ := hword h0 1
  obtain ⟨h2, b2⟩ := hword h1 2
  refine ⟨h2, fun s ↦ ?_⟩
  have heq : (b.set k behind).arr = setWord (setWord (setWord b.arr (word k behind 0)) (word k behind 1))
      (word k behind 2) := rfl
  rw [heq, b2, b1, b0, or_assoc, or_assoc]
  refine or_congr_right ?_
  constructor
  · rintro (rfl | rfl | rfl)
    · exact ⟨0, by decide, rfl⟩
    · exact ⟨1, by decide, rfl⟩
    · exact ⟨2, by decide, rfl⟩
  · rintro ⟨i, hi, rfl⟩
    obtain rfl | rfl | rfl : i = 0 ∨ i = 1 ∨ i = 2 := by omega
    · exact Or.inl rfl
    · exact Or.inr (Or.inl rfl)
    · exact Or.inr (Or.inr rfl)

/-- **The bits of a filter** are those of the initial fill and of the words that were read. -/
theorem run_iff (initial : Bool) (sets : List (K × (ℕ → UInt8))) :
    (run initial sets).arr.length = bloomBytes ∧ ∀ s, s / 8 < bloomBytes →
      (hasBit (run initial sets).arr s = true ↔
        initial = true ∨ ∃ x ∈ sets, ∃ i < 3, word x.1 x.2 i = s) := by
  induction sets using List.reverseRecOn with
  | nil =>
    refine ⟨List.length_replicate, fun s hs ↦ ?_⟩
    have hfill : hasBit (run initial ([] : List (K × (ℕ → UInt8)))).arr s = initial := hasBit_fill initial hs
    rw [hfill]
    simp
  | append_singleton sets x ih =>
    obtain ⟨hlen, hbits⟩ := ih
    have hrun : run initial (sets ++ [x]) = (run initial sets).set x.1 x.2 := by
      rw [run, List.foldl_append]
      rfl
    obtain ⟨hlen', hset⟩ := set_iff hlen x.1 x.2
    rw [hrun]
    refine ⟨hlen', fun s hs ↦ ?_⟩
    rw [hset, hbits s hs, or_assoc]
    refine or_congr_right ?_
    simp only [List.mem_append, List.mem_singleton, or_and_right, exists_or, exists_eq_left]

/-! ## What the answers depend on -/

/-- The words that are read lie within the bytes of the key. -/
def WordsInside (K : Type) [Pod K] : Prop := ∀ i < 3, 32 * i + 2 ≤ Pod.sizeof K

/-- What `get` says does not depend on what is behind the key. -/
def Determined (K : Type) [Pod K] : Prop :=
  ∀ (initial : Bool) (sets : List (K × (ℕ → UInt8))) (k : K) (behind behind' : ℕ → UInt8),
    (run initial sets).get k behind = (run initial sets).get k behind'

/-- A key that was set is found. -/
def FindsWhatWasSet (K : Type) [Pod K] : Prop :=
  ∀ (initial : Bool) (sets : List (K × (ℕ → UInt8))) (k : K) (behind behind' : ℕ → UInt8),
    (k, behind) ∈ sets → (run initial sets).get k behind' = true

/-- **The filter answers from the key alone**, and without false negatives. -/
structure AnswersFromKey (K : Type) [Pod K] : Prop where
  /-- Nothing is read that is not in the key. -/
  inside : WordsInside K
  /-- A call with the same key gives the same answer, whatever is behind it. -/
  determined : Determined K
  /-- No key that was set is missed. -/
  finds : FindsWhatWasSet K

theorem wordsInside_iff : WordsInside K ↔ 66 ≤ Pod.sizeof K := by
  refine ⟨fun h ↦ h 2 (by decide), fun h i hi ↦ ?_⟩
  omega

/-- A word within the key. -/
theorem word_congr {k : K} {i : ℕ} (h : 32 * i + 2 ≤ Pod.sizeof K) (behind behind' : ℕ → UInt8) :
    word k behind i = word k behind' i := by
  have hmem : ∀ j < Pod.sizeof K, memory k behind j = memory k behind' j := by
    intro j hj
    have hj' : j < (Pod.toBytes k).length := by rwa [Pod.length_toBytes]
    rw [memory, memory, List.getD_eq_getElem _ _ hj', List.getD_eq_getElem _ _ hj']
  rw [word, word, hmem _ (by omega), hmem _ (by omega)]

theorem determined_of_inside (h : WordsInside K) : Determined K := by
  intro initial sets k behind behind'
  rw [Bool.eq_iff_iff, get_iff, get_iff]
  exact forall₂_congr fun i hi ↦ by rw [word_congr (h i hi) behind behind']

theorem finds_of_inside (h : WordsInside K) : FindsWhatWasSet K := by
  intro initial sets k behind behind' hk
  rw [get_iff]
  intro i hi
  rw [word_congr (h i hi) behind' behind, (run_iff initial sets).2 _ (word_lt k behind i)]
  exact Or.inr ⟨(k, behind), hk, i, hi, rfl⟩

/-! ## Smaller keys

A word that is not in the key is whatever stands behind it, so for two calls with the same key it may be
two words.  One of them is set and the other is looked for. -/

/-- The key of zeros. -/
def zeros (K : Type) [Pod K] : K := Pod.ofBytes (List.replicate (Pod.sizeof K) 0)

theorem memory_zeros (behind : ℕ → UInt8) (j : ℕ) :
    memory (zeros K) behind j = if j < Pod.sizeof K then 0 else behind (j - Pod.sizeof K) := by
  rw [memory, zeros, Pod.toBytes_ofBytes _ List.length_replicate, List.getD_eq_getElem?_getD,
    List.getElem?_replicate]
  split_ifs <;> rfl

/-- When zeros are behind the key all words are zero. -/
theorem word_zeros (i : ℕ) : word (zeros K) (fun _ ↦ 0) i = 0 := by
  have hmem : ∀ j, memory (zeros K) (fun _ ↦ 0) j = 0 := fun j ↦ by rw [memory_zeros, ite_self]
  rw [word, hmem, hmem]
  rfl

/-- **A key that was set is not found** when something else is behind it at the time of the `get`. -/
theorem get_zeros (h : Pod.sizeof K < 66) :
    (run false [(zeros K, fun _ ↦ 0)]).get (zeros K) (fun _ ↦ 255) = false := by
  rw [Bool.eq_false_iff]
  intro hget
  have hbit := get_iff.mp hget 2 (by decide)
  rw [(run_iff false _).2 _ (word_lt _ _ _)] at hbit
  obtain hbit | ⟨x, hx, i, -, hi⟩ := hbit
  · cases hbit
  · obtain rfl := List.mem_singleton.mp hx
    dsimp only at hi
    rw [word_zeros, word, ofLEBytes, ofLEBytes, ofLEBytes, memory_zeros, memory_zeros,
      if_neg (show ¬32 * 2 + 1 < Pod.sizeof K by omega)] at hi
    have h255 : (255 : UInt8).toNat = 255 := rfl
    omega

/-- Smaller keys are already missed. -/
theorem finds_iff : FindsWhatWasSet K ↔ 66 ≤ Pod.sizeof K := by
  refine ⟨fun h ↦ ?_, fun h ↦ finds_of_inside (wordsInside_iff.mpr h)⟩
  by_contra hlt
  have hget := h false [(zeros K, fun _ ↦ 0)] (zeros K) (fun _ ↦ 0) (fun _ ↦ 255) (by simp)
  rw [get_zeros (not_le.mp hlt)] at hget
  cases hget

/-- And what is answered for them depends on what is behind them. -/
theorem determined_iff : Determined K ↔ 66 ≤ Pod.sizeof K := by
  refine ⟨fun h ↦ ?_, fun h ↦ determined_of_inside (wordsInside_iff.mpr h)⟩
  by_contra hlt
  have hsame := h false [(zeros K, fun _ ↦ 0)] (zeros K) (fun _ ↦ 255) (fun _ ↦ 0)
  rw [get_zeros (not_le.mp hlt)] at hsame
  have hfound : (run false [(zeros K, fun _ ↦ 0)]).get (zeros K) (fun _ ↦ 0) = true := by
    rw [get_iff]
    intro i hi
    rw [(run_iff false _).2 _ (word_lt _ _ _)]
    exact Or.inr ⟨_, List.mem_singleton_self _, i, hi, rfl⟩
  rw [hfound] at hsame
  cases hsame

/-- **The filter is right for the keys of at least 66 bytes**, and for no others.

The three words of two bytes that stand for a key begin at its bytes 0, 32 and 64, so the last of them ends
with byte 66.  The constructor warns of keys with fewer than 48. -/
theorem answersFromKey_iff (K : Type) [Pod K] : AnswersFromKey K ↔ 66 ≤ Pod.sizeof K :=
  ⟨fun h ↦ wordsInside_iff.mp h.inside,
    fun h ↦ ⟨wordsInside_iff.mpr h, determined_iff.mpr h, finds_iff.mpr h⟩⟩

/-- The keys of the store have 64 bytes. -/
theorem get_misses_key :
    (run false [(zeros Master.K, fun _ ↦ 0)]).get (zeros Master.K) (fun _ ↦ 255) = false ∧
      ¬AnswersFromKey Master.K := by
  have hsz : Pod.sizeof Master.K < 66 := by decide
  exact ⟨get_zeros hsz, fun h ↦ absurd (wordsInside_iff.mp h.inside) (not_le.mpr hsz)⟩

end Bloom

end ScratchStore
