import ScratchStore.BufferManager.Calls

/-!
# The least recently used block

The queue of the block cache against a clock.  `Clocked` is the cache with the time and with the
time at which each block was last used, a hit or a load; the source keeps neither.

`LruOrdered` is the invariant: the queue is in the order of those times, the most recent first.  So
what `evictLRU` takes from its back is the block that was used the longest time ago.

A block that was freed by `closeFile` and loaded again counts from its load.  Free blocks are taken first, and
nothing is evicted as long as there is one; that is part of `lru_exact`.

The order is by the time of the last use and not by a position, so the statement does not say that the queue
is right by saying what the queue is.  Two blocks never have the same time, since a call uses one block.
-/

set_option autoImplicit false

namespace ScratchStore

namespace FileIO

/-! ## The clock -/

/-- The cache, the time, and when each block was last used. -/
structure Clocked where
  sys : Sys
  time : ℕ
  lastUse : Fin maxBlk → ℕ

/-- The block that a read uses is used now. -/
def Clocked.note (c : Clocked) : Call → Fin maxBlk → ℕ
  | .fread _ offset fileHandle =>
    match usedBlock offset fileHandle c.sys with
    | some i => Function.update c.lastUse i c.time
    | none => c.lastUse
  | _ => c.lastUse

/-- A call, and a tick of the clock. -/
def Clocked.step (c : Clocked) (call : Call) : Option Clocked :=
  Option.map (fun s ↦ ⟨s, c.time + 1, c.note call⟩) <| FileIO.step c.sys call

/-- The call is on a handle that is not negative. -/
def Call.Valid : Call → Prop
  | .fread _ _ fileHandle => 0 ≤ fileHandle
  | .closeFile fileHandle => 0 ≤ fileHandle
  | _ => True

/-- The call reads within one block. -/
def Call.InBlock : Call → Prop
  | .fread n offset _ => offset % blkSize + n ≤ blkSize
  | _ => True

/-- The block indices in the queue. -/
def Pool.slots (p : Pool) : List (Fin maxBlk) := p.lruIndexQ.map Prod.snd

/-- The invariant of the queue. -/
structure LruOrdered (c : Clocked) : Prop where
  ok : c.sys.pool.Ok
  aligned : c.sys.pool.Aligned
  /-- The most recently used block comes first. -/
  ordered : c.sys.pool.slots.Pairwise fun i j ↦ c.lastUse j < c.lastUse i
  past : ∀ i, 0 ≤ (c.sys.pool.bufferMetaData i).fileHandle → c.lastUse i < c.time

/-! ## The queue

The blocks in the queue are those in use, so the order of the queue is an order of them, and the one at
its back is the one `evictLRU` takes. -/

namespace Pool

variable {p : Pool}

theorem Ok.mem_slots (h : p.Ok) {i : Fin maxBlk} :
    i ∈ p.slots ↔ 0 ≤ (p.bufferMetaData i).fileHandle := by
  rw [h.inUse_iff, Option.isSome_iff_exists, Pool.slots, List.mem_map]
  constructor
  · rintro ⟨⟨node, j⟩, hmem, rfl⟩
    exact ⟨node, (h.mem_iff _ node).mpr hmem⟩
  · rintro ⟨node, hnode⟩
    exact ⟨(node, i), (h.mem_iff i node).mp hnode, rfl⟩

theorem Ok.nodup_slots (h : p.Ok) : p.slots.Nodup := by
  refine List.Nodup.map_on ?_ h.nodup.of_map
  rintro ⟨n, i⟩ hi ⟨m, j⟩ hj (rfl : i = j)
  have hnm : n = m := Option.some.inj (((h.mem_iff i n).mpr hi).symm.trans ((h.mem_iff i m).mpr hj))
  rw [hnm]

/-- The block at the back of an ordered queue is the one that was used first. -/
theorem Ok.lastUse_lt (h : p.Ok) {lastUse : Fin maxBlk → ℕ}
    (hord : p.slots.Pairwise fun i j ↦ lastUse j < lastUse i) {node : ℕ} {i : Fin maxBlk}
    (hlast : p.lruIndexQ.getLast? = some (node, i)) {j : Fin maxBlk}
    (hj : 0 ≤ (p.bufferMetaData j).fileHandle) (hji : j ≠ i) : lastUse i < lastUse j := by
  obtain ⟨n, hn⟩ := Option.isSome_iff_exists.mp ((h.inUse_iff j).mp hj)
  have hmem : (n, j) ∈ p.lruIndexQ.dropLast := (h.mem_dropLast hlast j n).mpr ⟨hn, hji⟩
  obtain ⟨ys, hys⟩ := List.getLast?_eq_some_iff.mp hlast
  rw [hys, List.dropLast_concat] at hmem
  rw [Pool.slots, hys, List.map_append, List.pairwise_append] at hord
  exact hord.2.2 j (List.mem_map_of_mem (f := Prod.snd) hmem) i (by simp)

end Pool

/-! ## What each call keeps -/

theorem LruOrdered.fread {c : Clocked} (h : LruOrdered c) {n offset : ℕ} {fd : ℤ} (hfd : 0 ≤ fd)
    {r : ℤ} {bs : Bytes} {s : Sys} (hread : FileIO.fread n offset fd c.sys = some (r, bs, s)) :
    LruOrdered ⟨s, c.time + 1, c.note (.fread n offset fd)⟩ := by
  obtain ⟨r', i, p₁, q, block, hc, hused, heq⟩ := fread_spec h.ok h.aligned fd n offset
  obtain ⟨got, -, heq'⟩ := Option.map_eq_some_iff.mp (heq.symm.trans hread)
  cases heq'
  have hnote : c.note (.fread n offset fd) = Function.update c.lastUse i c.time := by
    unfold Clocked.note
    simp only [hused]
  rw [hnote]
  -- the other blocks of the queue were used before
  have hother : ∀ j ∈ q.map Prod.snd, j ≠ i ∧ c.lastUse j < c.time := by
    intro j hj
    obtain ⟨⟨m, j⟩, hmem, rfl⟩ := List.mem_map.mp hj
    refine ⟨((hc.mem_iff h.ok j m).mp hmem).2, h.past j (h.ok.mem_slots.mp ?_)⟩
    exact List.mem_map_of_mem (f := Prod.snd) (hc.sublist_pool.subset hmem)
  refine ⟨hc.fill_ok h.ok hfd, hc.fill_aligned h.aligned (Nat.dvd_sub_mod offset), ?_, fun j hj ↦ ?_⟩
  · have hslots : (p₁.fill q i ⟨fd, offset - offset % blkSize⟩ block).slots = i :: q.map Prod.snd := rfl
    rw [hslots, List.pairwise_cons]
    refine ⟨fun j hj ↦ ?_, ?_⟩
    · dsimp only
      rw [Function.update_self, Function.update_of_ne (hother j hj).1]
      exact (hother j hj).2
    · have hold := h.ordered.sublist (hc.sublist_pool.map Prod.snd)
      refine hold.imp_of_mem fun hj hk hlt ↦ ?_
      dsimp only
      rwa [Function.update_of_ne (hother _ hj).1, Function.update_of_ne (hother _ hk).1]
  · dsimp only at hj ⊢
    rw [hc.fill_metaData] at hj
    by_cases hji : j = i
    · rw [hji, Function.update_self]
      exact Nat.lt_succ_self _
    · rw [if_neg hji] at hj
      rw [Function.update_of_ne hji]
      exact (h.past j hj).trans (Nat.lt_succ_self _)

theorem LruOrdered.closeFile {c : Clocked} (h : LruOrdered c) {fd : ℤ} (hfd : 0 ≤ fd) :
    ∃ s, FileIO.closeFile fd c.sys = some s ∧ LruOrdered ⟨s, c.time + 1, c.lastUse⟩ := by
  obtain ⟨p, heq, hp, -, hmd, hsub⟩ := closeFile_spec h.ok hfd
  have hslots : p.slots.Sublist c.sys.pool.slots := hsub.map Prod.snd
  have hused : ∀ i, 0 ≤ (p.bufferMetaData i).fileHandle →
      p.bufferMetaData i = c.sys.pool.bufferMetaData i := by
    intro i hi
    rw [hmd] at hi ⊢
    split_ifs at hi ⊢
    · simp at hi
    · rfl
  refine ⟨_, heq, hp, fun i hi ↦ ?_, h.ordered.sublist hslots, fun i hi ↦ ?_⟩
  · have hmd := hused i hi
    rw [hmd] at hi ⊢
    exact h.aligned i hi
  · have hi' : 0 ≤ (p.bufferMetaData i).fileHandle := hi
    rw [hused i hi'] at hi'
    exact (h.past i hi').trans (Nat.lt_succ_self _)

/-- **A call on a valid handle keeps the order.** -/
theorem LruOrdered.step {c c' : Clocked} (h : LruOrdered c) {call : Call} (hv : call.Valid)
    (hstep : c.step call = some c') : LruOrdered c' := by
  obtain ⟨s, hs, rfl⟩ := Option.map_eq_some_iff.mp hstep
  have hkeep : s.pool = c.sys.pool → LruOrdered ⟨s, c.time + 1, c.lastUse⟩ := by
    intro hp
    exact ⟨hp ▸ h.ok, hp ▸ h.aligned, hp ▸ h.ordered,
      fun i hi ↦ (h.past i (hp ▸ hi)).trans (Nat.lt_succ_self _)⟩
  cases call with
  | openFile filePath =>
    cases hs
    exact hkeep (pool_openFile filePath c.sys)
  | fread n offset fd =>
    rw [step_fread] at hs
    obtain ⟨⟨r, bs, s'⟩, hread, rfl⟩ := Option.map_eq_some_iff.mp hs
    exact h.fread hv hread
  | closeFile fd =>
    obtain ⟨s', heq, hs'⟩ := h.closeFile hv
    cases heq.symm.trans hs
    exact hs'
  | change name content =>
    cases hs
    exact hkeep rfl

theorem LruOrdered.progress {c : Clocked} (h : LruOrdered c) {call : Call} (hv : call.Valid)
    (hblk : call.InBlock) : ∃ c', c.step call = some c' := by
  suffices hs : ∃ s, FileIO.step c.sys call = some s by
    obtain ⟨s, hs⟩ := hs
    exact ⟨_, by rw [Clocked.step, hs, Option.map_some]⟩
  cases call with
  | openFile filePath => exact ⟨_, rfl⟩
  | fread n offset fd =>
    obtain ⟨r, i, p₁, q, block, hc, -, heq⟩ := fread_spec h.ok h.aligned fd n offset
    rw [hc.memcpy_eq h.ok hblk, Option.map_some] at heq
    exact ⟨_, by rw [step_fread, heq, Option.map_some]⟩
  | closeFile fd =>
    obtain ⟨s, heq, -⟩ := h.closeFile hv
    exact ⟨s, heq⟩
  | change name content => exact ⟨_, rfl⟩

/-! ## Any run -/

/-- The empty cache. -/
def Clocked.initial (fs : FS) (fds : List (Option String)) : Clocked :=
  ⟨⟨fs, fds, Pool.initial⟩, 0, fun _ ↦ 0⟩

theorem lruOrdered_initial (fs : FS) (fds : List (Option String)) :
    LruOrdered (Clocked.initial fs fds) where
  ok := Pool.ok_initial
  aligned i hi := absurd hi (by simp [Clocked.initial, Pool.initial])
  ordered := List.Pairwise.nil
  past i hi := absurd hi (by simp [Clocked.initial, Pool.initial])

/-- **The cache evicts the least recently used block.**  After any calls on valid handles, the queue
has each block in use once, each iterator points at the node of its own block, and the blocks are in
the order of their last use.  The next block to be had is free; if there is a free one it is had
without any eviction, and otherwise it is the one whose last use is the oldest.  A run can only stop
where a range leaves its block. -/
theorem lru_exact (fs : FS) (fds : List (Option String)) (calls : List Call)
    (hcalls : ∀ call ∈ calls, call.Valid) :
    ((∀ call ∈ calls, call.InBlock) →
      ∃ c, Runs.run Clocked.step (Clocked.initial fs fds) calls = some c) ∧
    ∀ c, Runs.run Clocked.step (Clocked.initial fs fds) calls = some c →
      c.sys.pool.slots.Nodup ∧
      (∀ i, i ∈ c.sys.pool.slots ↔ 0 ≤ (c.sys.pool.bufferMetaData i).fileHandle) ∧
      (∀ i node, c.sys.pool.lruIndexMap i = some node ↔ (node, i) ∈ c.sys.pool.lruIndexQ) ∧
      (c.sys.pool.lruIndexQ.map Prod.fst).Nodup ∧
      (c.sys.pool.slots.Pairwise fun i j ↦ c.lastUse j < c.lastUse i) ∧
      ∃ i p, c.sys.pool.allocateBlock = some (i, p.pushFront p.lruIndexQ i) ∧
        (p.bufferMetaData i).fileHandle < 0 ∧
        ((∃ j, (c.sys.pool.bufferMetaData j).fileHandle < 0) → p = c.sys.pool) ∧
        ((∀ j, 0 ≤ (c.sys.pool.bufferMetaData j).fileHandle) →
          c.sys.pool.evictLRU = some (i, p) ∧ ∀ j, j ≠ i → c.lastUse i < c.lastUse j) := by
  constructor
  · intro hblk
    obtain ⟨c, hc, -⟩ := Runs.run_total_of_mem (fun c call hmem (hc : LruOrdered c) ↦ by
      obtain ⟨c', hc'⟩ := hc.progress (hcalls call hmem) (hblk call hmem)
      exact ⟨c', hc', hc.step (hcalls call hmem) hc'⟩) (lruOrdered_initial fs fds)
    exact ⟨c, hc⟩
  · intro c hrun
    have h : LruOrdered c := Runs.run_invariant_of_mem
      (fun _ call _ hmem hc hstep ↦ hc.step (hcalls call hmem) hstep) (lruOrdered_initial fs fds) hrun
    obtain ⟨i, p, halloc, hv⟩ := h.ok.allocateBlock
    refine ⟨h.ok.nodup_slots, fun i ↦ h.ok.mem_slots, h.ok.mem_iff, h.ok.nodup, h.ordered, i, p, halloc,
      hv.handle_lt, ?_, fun hused ↦ ?_⟩
    · rintro ⟨j, hj⟩
      cases hv with
      | free hfree => rfl
      | evicted node hused hlast => exact absurd hj (not_lt.mpr (hused j))
    · cases hv with
      | free hfree => exact absurd hfree (not_lt.mpr (hused i))
      | evicted node hused' hlast =>
        refine ⟨by rw [Pool.evictLRU, hlast]; rfl, fun j hji ↦ ?_⟩
        exact h.ok.lastUse_lt h.ordered hlast (hused j) hji

/-- A block is loaded, hit, dropped when its handle is closed, and another one is loaded.  The handles need not
be open. -/
theorem lru_exact_close :
    ∃ c, Runs.run Clocked.step (Clocked.initial FS.blank [])
        [.fread 8 0 3, .fread 8 16 3, .closeFile 3, .fread 8 8192 4] = some c ∧
      c.sys.pool.slots.Nodup ∧
      ∀ i, i ∈ c.sys.pool.slots ↔ 0 ≤ (c.sys.pool.bufferMetaData i).fileHandle := by
  obtain ⟨hrun, hexact⟩ := lru_exact FS.blank []
    [.fread 8 0 3, .fread 8 16 3, .closeFile 3, .fread 8 8192 4] (by simp [Call.Valid])
  obtain ⟨c, hc⟩ := hrun (by simp [Call.InBlock, blkSize])
  obtain ⟨hnodup, hmem, -⟩ := hexact c hc
  exact ⟨c, hc, hnodup, hmem⟩

end FileIO

end ScratchStore
