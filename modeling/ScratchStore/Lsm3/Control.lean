import Mathlib.Algebra.BigOperators.Group.Finset.Basic
import ScratchStore.Lsm3.Protocol

/-!
# What the control structure guarantees

`Control` is the invariant of the shared memory and of where the processes are.  Every insert that is under
way is counted, and so are those that have failed.  An insert that is under way has seen the present number
of merges and the active index, or the indexes were swapped once since, and then no merge ends before it
does; so the number of merges it remembers tells whether the indexes were swapped, however often it wraps
around.  A merge is asked for only when no insert is counted for its index any more, and the merger does
not sleep while it is asked for one.

* `State.pins` are the inserts under way, as far as they matter here, and `accesses` counts them.
* `Consistent` is the invariant inside of a section, and `Control` with what is true between two of them.
* `Consistent.asserts` are the assertions of `lsm3_insert`.
* `State.Control.step`: every step keeps the invariant, so it is true in every run from a new entry.

## What makes it work

Two numbers carry the argument.

* `access_count[a]` is the number of inserts that are counted for the top index `a`.  The invariant compares it
  with the inserts that are under way, `accesses`, and it is larger by those that have failed.
* `n_merges` is how an insert sees at its end that the indexes were swapped since it began.  It has 64 bits, and
  an insert may take as long as it likes; but no merge ends while an insert into its index is under way, so
  between the two sections of an insert there is at most one swap, and the number cannot come back to the same.

Nothing here depends on what is in the indexes.  That the merge loop gets to an end does, and is for
`Lsm3.Progress`.
-/

set_option autoImplicit false

namespace ScratchStore

namespace Lsm3

open PageScan

/-! ## The two top indexes

Of two indexes each is the other one of the other, and that is all there is to know about the numbers.
-/

theorem xor_one (a : Fin 2) : a ^^^ 1 = 1 - a := by
  revert a
  decide

theorem one_sub_one_sub (a : Fin 2) : 1 - (1 - a) = a := by
  revert a
  decide

theorem one_sub_ne (a : Fin 2) : 1 - a ≠ a := by
  revert a
  decide

theorem ne_iff_eq_one_sub {a b : Fin 2} : a ≠ b ↔ b = 1 - a := by
  revert a b
  decide

theorem top_injective : Function.Injective top := Fin.castSucc_injective 2

theorem top_ne_base (a : Fin 2) : top a ≠ base := by
  revert a
  decide

theorem eq_top_or_base (i : Fin 3) (a : Fin 2) : i = top a ∨ i = top (1 - a) ∨ i = base := by
  revert i a
  decide

variable {n : ℕ} {D : Fin n → Type} {sortKeys : SortKeys D} {B : NBTree sortKeys} {ι : Type}

/-! ## Access counts -/

theorem Lsm3DictEntry.accessCount_leave (e : Lsm3DictEntry) (a : Fin 2) :
    (e.leave a).accessCount (1 - a) = e.accessCount (1 - a) := Function.update_of_ne (one_sub_ne a) _ _

/-- The active index and the number of merges that an insert remembers. -/
def Insert.pin (ins : Insert D) : Fin 2 × UInt64 := (ins.activeIndex, ins.nMerges)

/-- What the inserts under way remember. -/
def State.pins (s : State ι B) (b : ι) : Option (Fin 2 × UInt64) := (s.backends b).insert.map Insert.pin

/-- Whether an insert is counted for the top index `a`. -/
def counted (a : Fin 2) (pin : Option (Fin 2 × UInt64)) : ℕ := if pin.map Prod.fst = some a then 1 else 0

theorem counted_eq_zero {a : Fin 2} {pin : Option (Fin 2 × UInt64)} :
    counted a pin = 0 ↔ ∀ m, pin ≠ some (a, m) := by
  rw [counted]
  cases pin with
  | none => simp
  | some pin =>
    obtain ⟨a', m⟩ := pin
    by_cases ha : a' = a <;> simp [ha]

theorem counted_some (a a' : Fin 2) (m : UInt64) : counted a (some (a', m)) = if a = a' then 1 else 0 :=
  if_congr (by simp [eq_comm]) rfl rfl

theorem Lsm3DictEntry.accessCount_enter (e : Lsm3DictEntry) (a : Fin 2) :
    e.enter.accessCount a = e.accessCount a + counted a (some (e.activeIndex, e.nMerges)) := by
  rw [counted_some, show e.enter.accessCount = Function.update e.accessCount e.activeIndex _ from rfl,
    Function.update_apply]
  by_cases ha : a = e.activeIndex
  · simp [ha]
  · simp [ha]

theorem Lsm3DictEntry.accessCount_leave_eq (e : Lsm3DictEntry) (a a' : Fin 2) (m : UInt64) :
    (e.leave a').accessCount a = e.accessCount a - counted a (some (a', m)) := by
  rw [counted_some, show (e.leave a').accessCount = Function.update e.accessCount a' _ from rfl,
    Function.update_apply]
  by_cases ha : a = a'
  · simp [ha]
  · simp [ha]

section Sum

variable [Fintype ι] [DecidableEq ι]

/-- A sum of which one summand changes. -/
theorem sum_update {γ : Type} (f : γ → ℕ) (g : ι → γ) (b : ι) (x : γ) :
    ∑ c, f (Function.update g b x c) + f (g b) = ∑ c, f (g c) + f x := by
  have hrest : ∑ c ∈ Finset.univ.erase b, f (Function.update g b x c) =
      ∑ c ∈ Finset.univ.erase b, f (g c) :=
    Finset.sum_congr rfl fun c hc ↦ by rw [Function.update_of_ne (Finset.ne_of_mem_erase hc)]
  rw [← Finset.sum_erase_add _ _ (Finset.mem_univ b), ← Finset.sum_erase_add _ (fun c ↦ f (g c))
    (Finset.mem_univ b), hrest, Function.update_self]
  omega

end Sum

/-- The inserts under way that are counted for the top index `a`. -/
def accesses [Fintype ι] (pins : ι → Option (Fin 2 × UInt64)) (a : Fin 2) : ℕ := ∑ b, counted a (pins b)

theorem accesses_eq_zero [Fintype ι] {pins : ι → Option (Fin 2 × UInt64)} {a : Fin 2} :
    accesses pins a = 0 ↔ ∀ b m, pins b ≠ some (a, m) := by
  simp only [accesses, Finset.sum_eq_zero_iff, Finset.mem_univ, forall_const, counted_eq_zero]

/-! ## The invariant -/

section Invariant

variable [Fintype ι]

/-- The invariant, but for what happens while a merge waits for inserts. -/
structure Consistent (e : Lsm3DictEntry) (latch : Bool) (merger : Merger B)
    (pins : ι → Option (Fin 2 × UInt64)) : Prop where
  /-- Every insert under way is counted, and those that have failed are counted still. -/
  count : ∀ a, accesses pins a ≤ e.accessCount a
  /-- An insert has missed no swap, or one. -/
  inserts : ∀ b a m, pins b = some (a, m) → (e.nMerges = m ∧ e.activeIndex = a) ∨
    (e.nMerges = m + 1 ∧ e.activeIndex ≠ a ∧ e.mergeInProgress = true)
  /-- While the merger is at an index, nobody is counted for it and no other merge is asked for. -/
  merging : ∀ src, merger.source = some src → e.mergeInProgress = true ∧ src = 1 - e.activeIndex ∧
    e.accessCount src = 0 ∧ e.startMerge = false
  /-- A merge is asked for when nobody is counted for its index any more, and the merger will see it. -/
  request : e.startMerge = true → e.mergeInProgress = true ∧ e.accessCount (1 - e.activeIndex) = 0 ∧
    (merger = .waitLatch → latch = true)
  /-- The entry says whether there is a worker. -/
  launched : e.merger = false ↔ merger = .absent

/-- The invariant. -/
structure Control (e : Lsm3DictEntry) (latch : Bool) (merger : Merger B)
    (pins : ι → Option (Fin 2 × UInt64)) : Prop extends Consistent e latch merger pins where
  drain : e.mergeInProgress = true → e.startMerge = false → merger.source = none →
    e.accessCount (1 - e.activeIndex) ≠ 0

/-- The invariant of a state. -/
def State.Control (s : State ι B) : Prop := Lsm3.Control s.entry s.latch s.merger s.pins

variable {e : Lsm3DictEntry} {latch : Bool} {merger : Merger B} {pins : ι → Option (Fin 2 × UInt64)}

/-- A swap, when no merge is in progress: now every insert that is under way has missed one. -/
theorem Consistent.switch (h : Consistent e latch merger pins) (hm : e.mergeInProgress = false) :
    Consistent e.switch latch merger pins where
  count := h.count
  inserts b a m hb := by
    rcases h.inserts b a m hb with ⟨hn, ha⟩ | ⟨-, -, hm'⟩
    · refine Or.inr ⟨congrArg (· + 1) hn, ?_, rfl⟩
      rw [← ha, Lsm3DictEntry.switch, xor_one]
      exact one_sub_ne e.activeIndex
    · exact absurd (hm.symm.trans hm') (by simp)
  merging src hsrc := absurd (hm.symm.trans (h.merging src hsrc).1) (by simp)
  request hr := absurd (hm.symm.trans (h.request hr).1) (by simp)
  launched := h.launched

/-- A swap while inserts into the active index are under way: the merge waits for them. -/
theorem Control.switch (h : Control e latch merger pins) (hm : e.mergeInProgress = false)
    (hcount : e.accessCount e.activeIndex ≠ 0) : Control e.switch latch merger pins where
  toConsistent := h.toConsistent.switch hm
  drain _ _ _ := by
    rw [Lsm3DictEntry.switch, xor_one, one_sub_one_sub]
    exact hcount

/-- The state in which a merge is asked for. -/
theorem Consistent.requested (h : Consistent e latch merger pins) (hm : e.mergeInProgress = true)
    (hcount : e.accessCount (1 - e.activeIndex) = 0) (hsrc : merger.source = none) :
    Control { e with startMerge := true, merger := true } true (if e.merger then merger else .waitLatch)
      pins where
  count := h.count
  inserts := h.inserts
  merging src hsrc' := by
    split at hsrc'
    · exact absurd (hsrc.symm.trans hsrc') (by simp)
    · cases hsrc'
  request _ := ⟨hm, hcount, fun _ ↦ rfl⟩
  launched := by
    refine ⟨fun ht ↦ absurd ht (by simp), fun habsent ↦ ?_⟩
    split at habsent
    · exact absurd ((h.launched.mpr habsent).symm.trans ‹_›) (by simp)
    · cases habsent
  drain _ hr := absurd hr (by simp)

variable [DecidableEq ι]

theorem accesses_update (pins : ι → Option (Fin 2 × UInt64)) (b : ι) (pin : Option (Fin 2 × UInt64))
    (a : Fin 2) :
    accesses (Function.update pins b pin) a + counted a (pins b) = accesses pins a + counted a pin :=
  sum_update (counted a) pins b pin

/-- An insert begins. -/
theorem Control.enter (h : Control e latch merger pins) {b : ι} (hb : pins b = none) :
    Control e.enter latch merger (Function.update pins b (some (e.activeIndex, e.nMerges))) := by
  have hidle : e.enter.accessCount (1 - e.activeIndex) = e.accessCount (1 - e.activeIndex) :=
    Function.update_of_ne (one_sub_ne _) _ _
  refine ⟨⟨fun a ↦ ?_, fun c a m hc ↦ ?_, fun src hsrc ↦ ?_, fun hr ↦ ?_, h.launched⟩, fun hm hs hsrc ↦ ?_⟩
  · have hsum := accesses_update pins b (some (e.activeIndex, e.nMerges)) a
    have hcount := h.count a
    rw [hb, show counted a none = 0 from rfl] at hsum
    rw [e.accessCount_enter]
    omega
  · by_cases hcb : c = b
    · subst hcb
      rw [Function.update_self] at hc
      obtain ⟨rfl, rfl⟩ := Prod.mk.inj (Option.some.inj hc)
      exact Or.inl ⟨rfl, rfl⟩
    · rw [Function.update_of_ne hcb] at hc
      exact h.inserts c a m hc
  · obtain ⟨hm, hs, hcount, hstart⟩ := h.merging src hsrc
    exact ⟨hm, hs, by rw [hs, hidle, ← hs, hcount], hstart⟩
  · obtain ⟨hm, hcount, hlatch⟩ := h.request hr
    exact ⟨hm, hidle.trans hcount, hlatch⟩
  · exact hidle ▸ h.drain hm hs hsrc

/-- An insert is not under way any more, but stays counted. -/
theorem Control.abort (h : Control e latch merger pins) (b : ι) :
    Control e latch merger (Function.update pins b none) where
  count a := by
    have hsum := accesses_update pins b none a
    have hnone : counted a none = 0 := rfl
    have := h.count a
    omega
  inserts c a m hc := by
    by_cases hcb : c = b
    · subst hcb
      rw [Function.update_self] at hc
      cases hc
    · rw [Function.update_of_ne hcb] at hc
      exact h.inserts c a m hc
  merging := h.merging
  request := h.request
  launched := h.launched
  drain := h.drain

/-- An insert ends: the invariant is kept as long as it is not the last one a merge waits for. -/
theorem Consistent.leave (h : Consistent e latch merger pins) {b : ι} {a : Fin 2} {m : UInt64}
    (hb : pins b = some (a, m)) : Consistent (e.leave a) latch merger (Function.update pins b none) := by
  have hle : ∀ c, (e.leave a).accessCount c ≤ e.accessCount c := fun c ↦
    (e.accessCount_leave_eq c a m).trans_le (Nat.sub_le _ _)
  refine ⟨fun c ↦ ?_, fun c a' m' hc ↦ ?_, fun src hsrc ↦ ?_, fun hr ↦ ?_, h.launched⟩
  · have hsum := accesses_update pins b none c
    have hcount := h.count c
    rw [hb, show counted c none = 0 from rfl] at hsum
    rw [e.accessCount_leave_eq c a m]
    omega
  · by_cases hcb : c = b
    · subst hcb
      rw [Function.update_self] at hc
      cases hc
    · rw [Function.update_of_ne hcb] at hc
      exact h.inserts c a' m' hc
  · obtain ⟨hm, hs, hcount, hstart⟩ := h.merging src hsrc
    exact ⟨hm, hs, Nat.le_zero.mp (hcount ▸ hle src), hstart⟩
  · obtain ⟨hm, hcount, hlatch⟩ := h.request hr
    exact ⟨hm, Nat.le_zero.mp (hcount ▸ hle _), hlatch⟩

omit [DecidableEq ι] in
/-- An insert is counted. -/
theorem Consistent.count_pos (h : Consistent e latch merger pins) {b : ι} {a : Fin 2} {m : UInt64}
    (hb : pins b = some (a, m)) : 0 < e.accessCount a := by
  refine lt_of_lt_of_le (Nat.pos_of_ne_zero fun hzero ↦ ?_) (h.count a)
  exact accesses_eq_zero.mp hzero b m hb

omit [DecidableEq ι] in
/-- **The assertions of `lsm3_insert`**: an insert that swaps the indexes was into the active one, and it
is counted. -/
theorem Consistent.asserts (h : Consistent e latch merger pins) {b : ι} {a : Fin 2} {m : UInt64}
    (hb : pins b = some (a, m)) (overflow : Bool) :
    (e.switches m overflow = true → e.activeIndex = a) ∧ 0 < e.accessCount a := by
  refine ⟨fun hs ↦ ?_, h.count_pos hb⟩
  simp only [Lsm3DictEntry.switches, Bool.and_eq_true, beq_iff_eq] at hs
  rcases h.inserts b a m hb with ⟨-, ha⟩ | ⟨hn, -, -⟩
  · exact ha
  · -- the number of merges it remembers is not the present one
    exact absurd (hn.symm.trans hs.2) (by simp)

end Invariant

/-! ## Every step keeps it

Most steps have nothing to do with the entry (`Control.frame`).  The others are the two sections of an
insert, an error between them, the start of a merge, and the steps of the merger that read or clear a
flag. -/

namespace State

section Sections

variable (s : State ι B)

theorem requestMerge_eq :
    s.requestMerge = { s with
      entry := { s.entry with startMerge := true, merger := true }
      merger := if s.entry.merger then s.merger else .waitLatch
      latch := true } := by
  obtain ⟨e, latch, merger, backends, index, scans⟩ := s
  obtain ⟨_, _, _, _, _, _, launched, _⟩ := e
  cases launched <;> rfl

variable [DecidableEq ι]

theorem pins_setBackend (b : ι) (x : Backend D) :
    (s.setBackend b x).pins = Function.update s.pins b (x.insert.map Insert.pin) := by
  funext c
  by_cases hc : c = b
  · subst hc
    simp [pins, setBackend]
  · simp [pins, setBackend, hc]

theorem pins_setInsert (b : ι) (insert : Option (Insert D)) :
    (s.setInsert b insert).pins = Function.update s.pins b (insert.map Insert.pin) :=
  s.pins_setBackend b _

/-- A change of a backend that leaves its insert alone. -/
theorem pins_setBackend_self (b : ι) {x : Backend D} (hx : x.insert = (s.backends b).insert) :
    (s.setBackend b x).pins = s.pins := by
  rw [pins_setBackend, hx]
  exact Function.update_eq_self b s.pins

@[simp] theorem pins_releaseLock (b : ι) (a : Fin 2) : (s.releaseLock b a).pins = s.pins := by
  rw [releaseLock]
  split
  · rfl
  · exact s.pins_setBackend_self b rfl

@[simp] theorem entry_releaseLock (b : ι) (a : Fin 2) : (s.releaseLock b a).entry = s.entry := by
  rw [releaseLock]
  split <;> rfl

@[simp] theorem latch_releaseLock (b : ι) (a : Fin 2) : (s.releaseLock b a).latch = s.latch := by
  rw [releaseLock]
  split <;> rfl

@[simp] theorem merger_releaseLock (b : ι) (a : Fin 2) : (s.releaseLock b a).merger = s.merger := by
  rw [releaseLock]
  split <;> rfl

end Sections

variable [Fintype ι] {s s' : State ι B}

theorem Control.requestMerge (h : Consistent s.entry s.latch s.merger s.pins)
    (hm : s.entry.mergeInProgress = true) (hcount : s.entry.accessCount (1 - s.entry.activeIndex) = 0)
    (hsrc : s.merger.source = none) : s.requestMerge.Control := by
  rw [requestMerge_eq]
  exact h.requested hm hcount hsrc

variable [DecidableEq ι]

/-- The end of the second section: the merge is asked for when nobody is left to wait for. -/
theorem Control.duringMerge (h : Consistent s.entry s.latch s.merger s.pins) (b : ι) {a : Fin 2}
    (hsrc : s.entry.activeIndex ≠ a → s.merger.source = none)
    (hdrain : s.entry.mergeInProgress = true → s.entry.startMerge = false → s.merger.source = none →
      s.entry.activeIndex = a → s.entry.accessCount (1 - s.entry.activeIndex) ≠ 0) :
    (s.duringMerge b a).Control := by
  rw [State.duringMerge]
  simp only [entry_releaseLock]
  have hlocks : Consistent (s.releaseLock b (1 - a)).entry (s.releaseLock b (1 - a)).latch
      (s.releaseLock b (1 - a)).merger (s.releaseLock b (1 - a)).pins := by
    rwa [entry_releaseLock, latch_releaseLock, merger_releaseLock, pins_releaseLock]
  split_ifs with hm hlast
  · obtain ⟨hne, hzero⟩ := hlast
    refine Control.requestMerge hlocks ?_ ?_ ?_
    · rwa [entry_releaseLock]
    · rwa [entry_releaseLock, ← ne_iff_eq_one_sub.mp hne]
    · rw [merger_releaseLock]
      exact hsrc hne
  · refine ⟨hlocks, ?_⟩
    simp only [entry_releaseLock, merger_releaseLock]
    intro _ hs hnone
    by_cases ha : s.entry.activeIndex = a
    · exact hdrain hm hs hnone ha
    · rw [← ne_iff_eq_one_sub.mp ha]
      exact fun hzero ↦ hlast ⟨ha, hzero⟩
  · exact ⟨h, fun hm' ↦ absurd hm' hm⟩

/-- The second section of `lsm3_insert`. -/
theorem Control.leaveSection (h : s.Control) {b : ι} {ins : Insert D} {overflow : Bool}
    (hb : (s.backends b).insert = some ins) :
    ((s.setInsert b none).leaveSection b ins overflow).Control := by
  have hpin : s.pins b = some (ins.activeIndex, ins.nMerges) := by rw [pins, hb]; rfl
  -- the swap
  have hswitch : Lsm3.Control
      (if s.entry.switches ins.nMerges overflow = true then s.entry.switch else s.entry) s.latch s.merger
      s.pins := by
    split_ifs with hs
    · obtain ⟨hactive, hpos⟩ := h.asserts hpin overflow
      have hm : s.entry.mergeInProgress = false := by
        simp only [Lsm3DictEntry.switches, Bool.and_eq_true, Bool.not_eq_true'] at hs
        exact hs.1.2
      exact Control.switch h hm (hactive hs ▸ hpos.ne')
    · exact h
  have hleave := hswitch.toConsistent.leave hpin
  rw [← Option.map_none (f := Insert.pin), ← pins_setInsert] at hleave
  refine Control.duringMerge hleave b (fun hne ↦ ?_) fun hm hs hsrc ha ↦ ?_
  · -- the insert that ends has kept the merger from its index
    cases hsrc : s.merger.source with
    | none => exact hsrc
    | some src =>
      obtain ⟨-, hs, hzero, -⟩ := hswitch.merging src hsrc
      have hpos := hswitch.count_pos hpin
      rw [ne_iff_eq_one_sub.mp hne] at hpos
      exact absurd (hs ▸ hzero) hpos.ne'
  · intro hzero
    rw [ha] at hzero
    refine hswitch.drain hm hs hsrc ?_
    rw [← hzero, ← ha]
    exact (Lsm3DictEntry.accessCount_leave _ _).symm

omit [DecidableEq ι] in
/-- `lsm3_start_merge` -/
theorem Control.startMergeSection (h : s.Control) : s.startMergeSection.Control := by
  rw [State.startMergeSection]
  by_cases hm : s.entry.mergeInProgress = true
  · rwa [if_pos hm]
  · have hm' : s.entry.mergeInProgress = false := by simpa using hm
    have hsrc : s.merger.source = none := by
      cases hsrc : s.merger.source with
      | none => rfl
      | some src => exact absurd (h.merging src hsrc).1 hm
    rw [if_neg hm]
    dsimp only
    split_ifs with hlast
    · exact Control.requestMerge (h.toConsistent.switch hm') rfl hlast hsrc
    · refine Control.switch h hm' ?_
      rwa [Lsm3DictEntry.switch, xor_one, one_sub_one_sub] at hlast

omit [DecidableEq ι] in
/-- A step that has nothing to do with the control structure. -/
theorem Control.frame (h : s.Control) (hentry : s'.entry = s.entry) (hlatch : s'.latch = s.latch)
    (hpins : s'.pins = s.pins) (hsource : s'.merger.source = s.merger.source)
    (hwait : s'.merger = .waitLatch → s.merger = .waitLatch)
    (habsent : s'.merger = .absent ↔ s.merger = .absent) : s'.Control := by
  rw [State.Control, hentry, hlatch, hpins]
  refine ⟨⟨h.count, h.inserts, hsource ▸ h.merging, fun hr ↦ ?_, h.launched.trans habsent.symm⟩,
    hsource ▸ h.drain⟩
  obtain ⟨hm, hcount, hl⟩ := h.request hr
  exact ⟨hm, hcount, fun hw ↦ hl (hwait hw)⟩

omit [Fintype ι] in
/-- An insert goes on. -/
theorem pins_stage {b : ι} {a : Fin 2} {m : UInt64} {stage : Stage D}
    (hb : (s.backends b).insert = some ⟨a, m, stage⟩) (stage' : Stage D) :
    (s.setInsert b (some ⟨a, m, stage'⟩)).pins = s.pins := by
  rw [pins_setInsert]
  refine Eq.trans ?_ (Function.update_eq_self b s.pins)
  rw [pins, hb]
  rfl

omit [DecidableEq ι] in
/-- The merger after a step of its scan. -/
theorem Control.reads {src : Fin 2} (h : s.Control) (hsrc : s.merger.source = some src)
    (pos : Option B.Pos) : (s.merging src pos).Control := by
  have hne : s.merger ≠ .absent := fun habsent ↦ by simp [habsent, Merger.source] at hsrc
  cases pos <;> exact h.frame rfl rfl rfl hsrc.symm (fun hw ↦ nomatch hw)
    ⟨(fun ha ↦ nomatch ha), fun ha ↦ absurd ha hne⟩

/-- **Every step keeps the invariant.** -/
theorem Control.step (h : s.Control) {act : Action ι B} (hstep : s.step act = some s') :
    s'.Control := by
  cases step_cases hstep with
  | enter hb =>
    rw [State.Control, pins_setInsert]
    refine Control.enter h ?_
    rw [pins, hb]
    rfl
  | btinsert hb => exact h.frame rfl rfl (pins_stage hb _) rfl id Iff.rfl
  | testMerge hb => exact h.frame rfl rfl (pins_stage hb _) rfl id Iff.rfl
  | testInserts hb => exact h.frame rfl rfl (pins_stage hb _) rfl id Iff.rfl
  | testSize hb => exact h.frame rfl rfl (pins_stage hb _) rfl id Iff.rfl
  | leave hb => exact h.leaveSection hb
  | abort b =>
    rw [State.Control, pins_setBackend]
    exact Control.abort h b
  | startMerge => exact h.startMergeSection
  | openIndex b => exact h.frame rfl rfl (s.pins_setBackend_self b rfl) rfl id Iff.rfl
  | executorFinish b => exact h.frame rfl rfl (s.pins_setBackend_self b rfl) rfl id Iff.rfl
  | closeIndex b => exact h.frame rfl rfl (s.pins_setBackend_self b rfl) rfl id Iff.rfl
  | beginscan => exact h.frame rfl rfl rfl rfl id Iff.rfl
  | endscan => exact h.frame rfl rfl rfl rfl id Iff.rfl
  | waitLatch hw =>
    exact h.frame rfl rfl rfl (by rw [hw]; rfl) (fun hw' ↦ nomatch hw') (by simp [hw])
  | cancel hw => exact h.frame rfl rfl rfl (by rw [hw]; rfl) (fun hw' ↦ nomatch hw') (by simp [hw])
  | resetLatch hw =>
    refine ⟨⟨h.count, h.inserts, (fun _ hsrc ↦ nomatch hsrc), fun hr ↦ ?_, ?_⟩, fun hm hs _ ↦ ?_⟩
    · obtain ⟨hm, hcount, -⟩ := h.request hr
      exact ⟨hm, hcount, fun hw' ↦ nomatch hw'⟩
    · exact h.launched.trans (by simp [hw])
    · exact h.drain hm hs (by rw [hw]; rfl)
  | request hw hs =>
    obtain ⟨hm, hcount, -⟩ := h.request hs
    refine ⟨⟨h.count, h.inserts, fun src hsrc ↦ ?_, (fun hr ↦ nomatch hr), ?_⟩, (fun _ _ hsrc ↦ nomatch hsrc)⟩
    · obtain rfl := Option.some.inj hsrc
      exact ⟨hm, rfl, hcount, rfl⟩
    · exact h.launched.trans (by simp [hw])
  | noRequest hw hs =>
    refine ⟨⟨h.count, h.inserts, (fun _ hsrc ↦ nomatch hsrc), fun hr ↦ ?_, ?_⟩, fun hm hs' _ ↦ ?_⟩
    · exact absurd (hs.symm.trans hr) (by simp)
    · exact h.launched.trans (by simp [hw])
    · exact h.drain hm hs' (by rw [hw]; rfl)
  | first hw => exact h.reads (by rw [hw]; rfl) _
  | doinsert hw =>
    exact h.frame rfl rfl rfl (by rw [hw]; rfl) (fun hw' ↦ nomatch hw') (by simp [hw])
  | next hw => exact h.reads (by rw [hw]; rfl) _
  | truncate hw =>
    exact h.frame rfl rfl rfl (by rw [hw]; rfl) (fun hw' ↦ nomatch hw') (by simp [hw])
  | finish hw =>
    obtain ⟨hm, hsrc, hcount, hs⟩ := h.merging _ (show s.merger.source = some _ by rw [hw]; rfl)
    refine ⟨⟨h.count, fun b a m hb ↦ ?_, (fun _ hsrc ↦ nomatch hsrc), fun hr ↦ ?_, ?_⟩,
      (fun hm _ _ ↦ nomatch hm)⟩
    · -- no insert is left that has missed a swap
      rcases h.inserts b a m hb with hcur | ⟨-, ha, -⟩
      · exact Or.inl hcur
      · have hpos := h.count_pos hb
        rw [ne_iff_eq_one_sub.mp ha, ← hsrc, hcount] at hpos
        exact absurd hpos (lt_irrefl 0)
    · exact absurd (hs.symm.trans hr) (by simp)
    · exact h.launched.trans (by simp [hw])
  | exit hw =>
    refine ⟨⟨h.count, h.inserts, (fun _ hsrc ↦ nomatch hsrc), fun hr ↦ ?_, ?_⟩, fun hm hs _ ↦ ?_⟩
    · obtain ⟨hm, hcount, -⟩ := h.request hr
      exact ⟨hm, hcount, fun hw' ↦ nomatch hw'⟩
    · simp
    · exact h.drain hm hs (by rw [hw]; rfl)

end State

end Lsm3

end ScratchStore
