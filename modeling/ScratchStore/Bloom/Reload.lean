import ScratchStore.Bloom.Bloom
import ScratchStore.Lib.Runs
import ScratchStore.Master.KeyValue

/-!
# The Bloom filter over its restarts

A filter is created once, then keys are set and the program is restarted, in any order.  A restart
reads the file back and writes it again, `BloomFile(fname, initial, true)`.

`Reflects` says which bits of the array are set: those of the initial fill and those of the words of
the keys set so far, and no other.  `setBit_iff` is the one place where two words can meet in a byte.

* `get_of_runs` is the main result, with a run before the point that is looked at and one after it: the
  array is the file, bits only ever get set, a key that was set is found from then on, and a key is found
  exactly when its three words are among those of the keys that were set.
* `Reflects.step` is the one step of it.  A restart writes the file again from the array it has just read,
  so a crash of the program between two calls costs nothing.
-/

set_option autoImplicit false

namespace ScratchStore

namespace BloomFile

variable {K : Type} [Pod K]

/-! ## Which bit a word is -/

theorem bit_and_bit_ne_zero {s s' : ℕ} : bit s &&& bit s' ≠ 0 ↔ s' % 8 = s % 8 := by
  have h : ∀ m < 8, ∀ n < 8,
      ((1 : UInt8) <<< UInt8.ofNat m &&& 1 <<< UInt8.ofNat n ≠ 0 ↔ n = m) := by decide
  exact h (s % 8) (Nat.mod_lt _ (by decide)) (s' % 8) (Nat.mod_lt _ (by decide))

/-- Setting the bit of a word sets no other. -/
theorem hasBit_set_iff {arr : Bytes} {s : ℕ} (hs : s / 8 < arr.length) (s' : ℕ) :
    hasBit (arr.set (s / 8) (arr.getD (s / 8) 0 ||| bit s)) s' = true ↔ hasBit arr s' = true ∨ s' = s := by
  have hword : s' / 8 = s / 8 ∧ s' % 8 = s % 8 ↔ s' = s := by omega
  rw [hasBit_set hs, bit_and_bit_ne_zero, hword]

/-- One round of the loop sets its own bit and no other. -/
theorem setBit_iff {b : BloomFile} {fs : FS} (h : b.Mirrors fs) {s : ℕ} (hs : s / 8 < bloomBytes)
    (s' : ℕ) : hasBit (setBit s b fs).1.arr s' = true ↔ hasBit b.arr s' = true ∨ s' = s := by
  rw [(h.setBit hs).2.2.1]
  exact hasBit_set_iff (h.length_arr.symm ▸ hs) s'

/-- **The bits of `set`** are those there were and the three words of the key. -/
theorem set_iff {b : BloomFile} {fs : FS} (h : b.Mirrors fs) (k : K) (s : ℕ) :
    hasBit (b.set k fs).1.arr s = true ↔ hasBit b.arr s = true ∨ ∃ i < 3, short k i = s := by
  have m0 := (h.setBit (short_lt k 0)).1
  have m1 := (m0.setBit (short_lt k 1)).1
  have heq : (b.set k fs).1 = (BloomFile.setBit (short k 2)
      (BloomFile.setBit (short k 1) (BloomFile.setBit (short k 0) b fs).1
        (BloomFile.setBit (short k 0) b fs).2).1
      (BloomFile.setBit (short k 1) (BloomFile.setBit (short k 0) b fs).1
        (BloomFile.setBit (short k 0) b fs).2).2).1 := rfl
  rw [heq, setBit_iff m1 (short_lt k 2), setBit_iff m0 (short_lt k 1), setBit_iff h (short_lt k 0)]
  constructor
  · rintro (((hs | rfl) | rfl) | rfl)
    · exact Or.inl hs
    · exact Or.inr ⟨0, by decide, rfl⟩
    · exact Or.inr ⟨1, by decide, rfl⟩
    · exact Or.inr ⟨2, by decide, rfl⟩
  · rintro (hs | ⟨i, hi, rfl⟩)
    · exact Or.inl (Or.inl (Or.inl hs))
    · obtain rfl | rfl | rfl : i = 0 ∨ i = 1 ∨ i = 2 := by omega
      · exact Or.inl (Or.inl (Or.inr rfl))
      · exact Or.inl (Or.inr rfl)
      · exact Or.inr rfl

/-- A new filter has all bits or none. -/
theorem hasBit_fill (initial : Bool) {s : ℕ} (hs : s / 8 < bloomBytes) :
    hasBit (List.replicate bloomBytes (if initial then 255 else 0)) s = initial := by
  have h : ∀ n < 8, (255 : UInt8) &&& 1 <<< UInt8.ofNat n ≠ 0 := by decide
  rw [hasBit, List.getD_eq_getElem?_getD, List.getElem?_replicate_of_lt hs, Option.getD_some]
  cases initial with
  | false => simp
  | true =>
    rw [if_pos rfl]
    exact decide_eq_true (h (s % 8) (Nat.mod_lt _ (by decide)))

/-! ## Calls -/

/-- What is done to a filter: a key is set, or the program is started again. -/
inductive Call (K : Type) where
  /-- `set(k)` -/
  | set (k : K)
  /-- The program is started again and loads the filter.  `initial` is passed and not looked at. -/
  | reload (initial : Bool)

/-- A call, on the filter and the disk.  A restart may end in `exit(1)`. -/
def step (st : BloomFile × FS) : Call K → Option (BloomFile × FS)
  | .set k => some (st.1.set k st.2)
  | .reload initial => create K st.1.fname initial true st.2

/-- The keys set so far. -/
def noteKey (keys : List K) : Call K → List K
  | .set k => keys ++ [k]
  | .reload _ => keys

/-- The bit is set in the initial fill, or it is that of a word of one of the keys. -/
def Marked (initial : Bool) (keys : List K) (s : ℕ) : Prop :=
  initial = true ∨ ∃ k ∈ keys, ∃ i < 3, short k i = s

/-- The filter in `fname` after these keys. -/
structure Reflects (fname : String) (initial : Bool) (st : BloomFile × FS) (keys : List K) :
    Prop where
  mirrors : st.1.Mirrors st.2
  fname_eq : st.1.fname = fname
  writable : st.2.writable fname = true
  /-- The bits are those of the initial fill and of the keys that were set, in any lifetime. -/
  bits : ∀ s, s / 8 < bloomBytes → (hasBit st.1.arr s = true ↔ Marked initial keys s)

theorem marked_concat {initial : Bool} {keys : List K} {k : K} {s : ℕ} :
    Marked initial (keys ++ [k]) s ↔ Marked initial keys s ∨ ∃ i < 3, short k i = s := by
  simp only [Marked, List.mem_append, List.mem_singleton, or_assoc]
  refine or_congr_right ⟨?_, ?_⟩
  · rintro ⟨k', hk' | rfl, hs⟩
    · exact Or.inl ⟨k', hk', hs⟩
    · exact Or.inr hs
  · rintro (⟨k', hk', hs⟩ | hs)
    · exact ⟨k', Or.inl hk', hs⟩
    · exact ⟨k, Or.inr rfl, hs⟩

variable {fname : String} {initial : Bool} {st : BloomFile × FS} {keys : List K}

theorem Reflects.set (h : Reflects fname initial st keys) (k : K) :
    Reflects fname initial (st.1.set k st.2) (keys ++ [k]) := by
  obtain ⟨hm, hname, -, -, -, hw⟩ := h.mirrors.set k
  refine ⟨hm, hname.trans h.fname_eq, by rw [hw]; exact h.writable, fun s hs ↦ ?_⟩
  rw [set_iff h.mirrors, h.bits s hs, marked_concat]

theorem Reflects.reload (h : Reflects fname initial st keys) (fill : Bool) :
    ∃ st', create K fname fill true st.2 = some st' ∧ st'.1.arr = st.1.arr ∧
      Reflects fname initial st' keys := by
  have hfile : st.2.content fname = some st.1.arr := h.fname_eq ▸ h.mirrors.content_eq
  obtain ⟨f, heq, hm⟩ := create_load (K := K) h.mirrors.length_arr h.writable hfile fill
  exact ⟨_, heq, rfl, hm, rfl, h.writable, h.bits⟩

/-- **A call goes through**, and the array has the bits of the keys that were set. -/
theorem Reflects.step (h : Reflects fname initial st keys) (call : Call K) :
    ∃ st', BloomFile.step st call = some st' ∧ Reflects fname initial st' (noteKey keys call) := by
  cases call with
  | set k => exact ⟨_, rfl, h.set k⟩
  | reload fill =>
    obtain ⟨st', heq, -, hst'⟩ := h.reload fill
    exact ⟨st', by rw [BloomFile.step, h.fname_eq, heq], hst'⟩

theorem Reflects.run (h : Reflects fname initial st keys) (calls : List (Call K)) :
    ∃ st', Runs.run BloomFile.step st calls = some st' ∧
      Reflects fname initial st' (calls.foldl noteKey keys) := by
  have hstep : ∀ st keys (call : Call K), Reflects fname initial st keys → True →
      ∃ st', BloomFile.step st call = some st' ∧ Reflects fname initial st' (noteKey keys call) :=
    fun _ _ call hst _ ↦ hst.step call
  exact Runs.run_total hstep h calls fun _ _ ↦ trivial

theorem Reflects.create {fs : FS} (hw : fs.writable fname = true) (hK : 48 ≤ Pod.sizeof K)
    (initial : Bool) :
    ∃ st, create K fname initial false fs = some st ∧
      Reflects fname initial st ([] : List K) := by
  have hlen : (List.replicate bloomBytes (if initial then (255 : UInt8) else 0)).length = bloomBytes :=
    List.length_replicate
  obtain ⟨f, heq, hm⟩ := writeArr_eq hlen hw
  refine ⟨(⟨_, fname, f⟩, fs.write fname _), ?_, hm, rfl, hw, fun s hs ↦ ?_⟩
  · simp only [BloomFile.create, Bool.false_eq_true, if_false, if_neg (not_lt.mpr hK), heq]
  · rw [hasBit_fill initial hs, Marked]
    simp

omit [Pod K] in
theorem mem_foldl_noteKey {calls : List (Call K)} {keys : List K} {k : K} :
    k ∈ calls.foldl noteKey keys ↔ k ∈ keys ∨ Call.set k ∈ calls := by
  induction calls generalizing keys with
  | nil => simp
  | cons call calls ih =>
    rw [List.foldl_cons, ih]
    cases call with
    | set k' => simp [noteKey, or_assoc]
    | reload fill => simp [noteKey]

theorem Marked.mono {keys' : List K} {s : ℕ} (h : Marked initial keys s)
    (hkeys : ∀ k ∈ keys, k ∈ keys') : Marked initial keys' s :=
  h.imp_right fun ⟨k, hk, hs⟩ ↦ ⟨k, hkeys k hk, hs⟩

theorem Reflects.get_iff (h : Reflects fname initial st keys) (k : K) :
    st.1.get k = true ↔ ∀ i < 3, Marked initial keys (short k i) := by
  rw [BloomFile.get_iff]
  exact forall₂_congr fun i _ ↦ h.bits _ (short_lt k i)

/-- Beyond the array there is no bit. -/
theorem Reflects.lt_of_hasBit (h : Reflects fname initial st keys) {s : ℕ}
    (hs : hasBit st.1.arr s = true) : s / 8 < bloomBytes := by
  refine not_le.mp fun hle ↦ ?_
  rw [hasBit, List.getD_eq_getElem?_getD,
    List.getElem?_eq_none (h.mirrors.length_arr.symm ▸ hle)] at hs
  simp at hs

/-- **The filter on disk has no false negatives, whatever restarts there are.**  From a new filter,
after any calls `before` and any further calls `after`: no call ends in `exit(1)`, the file has the
bytes of the array, no bit is lost, a key is found once it was set, and exactly those keys are found
all of whose words are bits of the initial fill or of keys that were set. -/
theorem get_of_runs {fs : FS} (hw : fs.writable fname = true) (hK : 48 ≤ Pod.sizeof K)
    (initial : Bool) (before after : List (Call K)) :
    ∃ new mid last, BloomFile.create K fname initial false fs = some new ∧
      Runs.run BloomFile.step new before = some mid ∧
      Runs.run BloomFile.step mid after = some last ∧
      last.1.arr.length = bloomBytes ∧ last.2.content fname = some last.1.arr ∧
      (∀ s, hasBit mid.1.arr s = true → hasBit last.1.arr s = true) ∧
      (∀ k : K, Call.set k ∈ before ++ after → last.1.get k = true) ∧
      ∀ k : K, last.1.get k = true ↔ ∀ i < 3, initial = true ∨
        ∃ k', Call.set k' ∈ before ++ after ∧ ∃ j < 3, short k' j = short k i := by
  obtain ⟨new, hnew, h₀⟩ := Reflects.create hw hK initial
  obtain ⟨mid, hmid, h₁⟩ := h₀.run before
  obtain ⟨last, hlast, h₂⟩ := h₁.run after
  have hkeys : ∀ k, k ∈ after.foldl noteKey (before.foldl noteKey []) ↔
      Call.set k ∈ before ++ after := fun k ↦ by
    rw [mem_foldl_noteKey, mem_foldl_noteKey, List.mem_append]
    simp
  refine ⟨new, mid, last, hnew, hmid, hlast, h₂.mirrors.length_arr,
    h₂.fname_eq ▸ h₂.mirrors.content_eq, fun s hs ↦ ?_, fun k hk ↦ ?_, fun k ↦ ?_⟩
  · have hlt := h₁.lt_of_hasBit hs
    exact (h₂.bits s hlt).mpr (((h₁.bits s hlt).mp hs).mono fun k hk ↦
      mem_foldl_noteKey.mpr (Or.inl hk))
  · exact (h₂.get_iff k).mpr fun i hi ↦ Or.inr ⟨k, (hkeys k).mpr hk, i, hi, rfl⟩
  · rw [h₂.get_iff k]
    refine forall₂_congr fun i _ ↦ or_congr_right ?_
    exact exists_congr fun k' ↦ and_congr_left fun _ ↦ hkeys k'

/-- A key is found although the filter was loaded twice since. -/
theorem get_of_runs_zeroK :
    ∃ new mid last, BloomFile.create Master.K "bloomdump" false false FS.blank = some new ∧
      Runs.run BloomFile.step new [Call.set Master.zeroK] = some mid ∧
      Runs.run BloomFile.step mid [Call.reload (K := Master.K) false, .reload true] = some last ∧
      last.1.get Master.zeroK = true := by
  have hw : FS.blank.writable "bloomdump" = true := rfl
  obtain ⟨new, mid, last, hnew, hmid, hlast, -, -, -, hget, -⟩ :=
    get_of_runs hw (by decide) false [Call.set Master.zeroK] [Call.reload false, .reload true]
  exact ⟨new, mid, last, hnew, hmid, hlast, hget _ (by simp)⟩

end BloomFile

end ScratchStore
