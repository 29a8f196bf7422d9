import ScratchStore.BufferManager.Lru
import ScratchStore.Core.Read
import ScratchStore.Master.KeyValue

/-!
# Lookups in files that cannot be opened

`Master::dbread` passes on what `openFile` returns without looking at it, so a failed open makes
`findEntry(-1, …)` and `closeFile(-1)`.  The handle `-1` is also how a free block is marked:

* `fstat` fails and leaves `st_size` as it was, which is anything, and what `findEntry` then reads
  puts a block in the queue that is marked as free (`findLoop_stray`);
* `closeFile(-1)` takes every free block for one of its own and erases it through an iterator that
  was never set.

`Triple` is one such open, find and close, and `Triple.Intact` what it should leave of the pool.
`triples_intact_iff` says when failed opens do no harm: when no block is free and what is in `st_size` is
less than two records, so that nothing is read and nothing is closed.

The source does not say what `st_size` is when `fstat` fails, so it is a member of `Triple`, and the results
are about every value of it.  Neither do they ask in which order files can be opened and not: a run is a list
of triples, and `Triple.Spared` is asked of each in the state it happens in.
-/

set_option autoImplicit false

namespace ScratchStore

open FileIO

variable {K V : Type} [Pod K] [Pod V] [LinearOrder K]

/-! ## The calls -/

/-- One file of `Master::dbread`: whether `open` is refused even if the file is there, and what is
in `fileStat.st_size` when `fstat` fills in nothing. -/
structure Triple (K : Type) where
  filePath : String
  key : K
  refused : Bool
  stSize : ℤ

/-- `FileIO::openFile(filesys[i])`. -/
def Triple.openFile (t : Triple K) (s : Sys) : ℤ × Sys :=
  if t.refused then (-1, s) else FileIO.openFile t.filePath s

/-- `FileIO::fsize(fd)`, also of a descriptor that is not open. -/
def Triple.fsize (t : Triple K) (fd : ℤ) (s : Sys) : ℤ :=
  match FileIO.fsize fd s with
  | some size => size
  | none => t.stSize

/-- `findEntry(fd, key, value)`. -/
def Triple.findEntry (V : Type) [Pod V] (t : Triple K) (fd : ℤ) (s : Sys) : Option (Option V × Sys) :=
  findLoop V fd t.key 1 ((t.fsize fd s).tdiv (Pod.sizeof (K × V)) - 1) s

/-- Open, find, close. -/
def Triple.run (V : Type) [Pod V] (s : Sys) (t : Triple K) : Option Sys :=
  let (fd, s) := t.openFile s
  (t.findEntry V fd s).bind fun (_, s) ↦ closeFile fd s

/-- On a file that is open this is `findEntry`. -/
theorem Triple.findEntry_eq (t : Triple K) {fd : ℤ} {s : Sys} (h : (s.fileOf fd).isSome) :
    t.findEntry V fd s = ScratchStore.findEntry V fd t.key s := by
  obtain ⟨name, hname⟩ := Option.isSome_iff_exists.mp h
  rw [Triple.findEntry, Triple.fsize, ScratchStore.findEntry, FileIO.fsize, hname, Option.map_some,
    Option.bind_some]
  rfl

/-! ## What should hold

Undefined behaviour apart, there is one thing that can go wrong for the calls that come later: a block
that is in the queue and marked as free.  It is given out once more, and then it is in the queue twice.
-/

namespace FileIO

namespace Pool

/-- A block is in the queue once, with an iterator to it, if its handle is not negative, and
otherwise it has neither. -/
def Consistent (p : Pool) : Prop :=
  ∀ i, if 0 ≤ (p.bufferMetaData i).fileHandle then
      p.slots.count i = 1 ∧ ∃ node, p.lruIndexMap i = some node ∧ (node, i) ∈ p.lruIndexQ
    else i ∉ p.slots ∧ p.lruIndexMap i = none

/-- What every call keeps that succeeds. -/
structure Ready (p : Pool) : Prop where
  ok : p.Ok
  aligned : p.Aligned
  /-- A free block is marked with `-1` and with no other number. -/
  handle_ge : ∀ i, -1 ≤ (p.bufferMetaData i).fileHandle

/-- The blocks of `p'` that are in use are those of `fd` or are in `p` too. -/
def Keeps (p : Pool) (fd : ℤ) (p' : Pool) : Prop :=
  ∀ i, 0 ≤ (p'.bufferMetaData i).fileHandle → (p'.bufferMetaData i).fileHandle = fd ∨
    p'.bufferMetaData i = p.bufferMetaData i ∧ p'.buffer i = p.buffer i

/-- The blocks in use of `p` are the same in `p'`. -/
def Unchanged (p p' : Pool) : Prop :=
  ∀ i, 0 ≤ (p.bufferMetaData i).fileHandle →
    p'.bufferMetaData i = p.bufferMetaData i ∧ p'.buffer i = p.buffer i

/-- Some block is in the queue although it is marked as free. -/
def Stray (p : Pool) : Prop := ∃ i, (p.bufferMetaData i).fileHandle < 0 ∧ i ∈ p.slots

variable {p p' p'' : Pool} {fd : ℤ}

theorem Ok.consistent (h : p.Ok) : p.Consistent := by
  intro i
  split_ifs with hused
  · obtain ⟨node, hnode⟩ := Option.isSome_iff_exists.mp ((h.inUse_iff i).mp hused)
    exact ⟨List.count_eq_one_of_mem h.nodup_slots (h.mem_slots.mpr hused), node, hnode,
      (h.mem_iff i node).mp hnode⟩
  · refine ⟨fun hmem ↦ hused (h.mem_slots.mp hmem), ?_⟩
    rwa [← Option.not_isSome_iff_eq_none, ← h.inUse_iff]

theorem Stray.not_consistent (h : p.Stray) : ¬p.Consistent := by
  intro hc
  obtain ⟨i, hfree, hmem⟩ := h
  have hi := hc i
  rw [if_neg (not_le.mpr hfree)] at hi
  exact hi.1 hmem

theorem Keeps.refl (p : Pool) (fd : ℤ) : p.Keeps fd p := fun _ _ ↦ Or.inr ⟨rfl, rfl⟩

theorem Keeps.trans (h : p.Keeps fd p') (h' : p'.Keeps fd p'') : p.Keeps fd p'' := by
  intro i hi
  rcases h' i hi with hfd | ⟨hmd, hbuf⟩
  · exact Or.inl hfd
  · rw [hmd] at hi
    refine (h i hi).imp (fun hfd ↦ by rw [hmd, hfd]) fun hsame ↦ ⟨?_, ?_⟩
    · rw [hmd, hsame.1]
    · rw [hbuf, hsame.2]

theorem ready_initial : initial.Ready :=
  ⟨ok_initial, fun i hi ↦ absurd hi (by simp [initial]), fun i ↦ by simp [initial]⟩

end Pool

end FileIO

open FileIO.Pool

/-- **A triple leaves the pool intact**: every call is defined, the pool is consistent after each,
no block in use got other contents, and when the open failed no block was evicted either. -/
def Triple.Intact (V : Type) [Pod V] (s : Sys) (t : Triple K) : Prop :=
  ∃ v s₂ s₃, t.findEntry V (t.openFile s).1 (t.openFile s).2 = some (v, s₂) ∧
    closeFile (t.openFile s).1 s₂ = some s₃ ∧ (t.openFile s).2.pool.Consistent ∧
    s₂.pool.Consistent ∧ s₃.pool.Consistent ∧
    (∀ i, 0 ≤ (s₃.pool.bufferMetaData i).fileHandle →
      s₃.pool.bufferMetaData i = s.pool.bufferMetaData i ∧ s₃.pool.buffer i = s.pool.buffer i) ∧
    ((t.openFile s).1 < 0 → s.pool.Unchanged s₃.pool)

/-- The open succeeds, or no block is free and the size is less than two records. -/
def Triple.Spared (V : Type) [Pod V] (s : Sys) (t : Triple K) : Prop :=
  (t.refused = false ∧ (s.fs.content t.filePath).isSome) ∨
    ((∀ i, 0 ≤ (s.pool.bufferMetaData i).fileHandle) ∧ t.stSize < 2 * Pod.sizeof (K × V))

/-! ## A file that is open -/

omit [Pod K] [LinearOrder K] in
theorem Triple.openFile_pool (t : Triple K) (s : Sys) : (t.openFile s).2.pool = s.pool := by
  rw [Triple.openFile, FileIO.openFile]
  split
  · rfl
  · split <;> rfl

omit [Pod K] [LinearOrder K] in
/-- A handle is not negative exactly when the open succeeded. -/
theorem Triple.openFile_fst (t : Triple K) (s : Sys) :
    0 ≤ (t.openFile s).1 ∧ t.refused = false ∧ (s.fs.content t.filePath).isSome ∨
      t.openFile s = (-1, s) ∧ ¬(t.refused = false ∧ (s.fs.content t.filePath).isSome) := by
  rw [Triple.openFile, FileIO.openFile]
  cases hr : t.refused with
  | true => simp
  | false =>
    cases hfs : s.fs.content t.filePath with
    | none => simp
    | some bs => simp

namespace FileIO

/-- A read within a block through a handle that is not negative. -/
theorem Pool.Ready.fread {s : Sys} (h : s.pool.Ready) {fd : ℤ} (hfd : 0 ≤ fd) {n offset : ℕ}
    (hblk : offset % blkSize + n ≤ blkSize) :
    ∃ r bs p, FileIO.fread n offset fd s = some (r, bs, { s with pool := p }) ∧ p.Ready ∧
      s.pool.Keeps fd p := by
  obtain ⟨r, i, p₁, q, block, hc, -, heq⟩ := fread_spec h.ok h.aligned fd n offset
  rw [hc.memcpy_eq h.ok hblk, Option.map_some] at heq
  refine ⟨r, _, _, heq, ⟨hc.fill_ok h.ok hfd,
    hc.fill_aligned h.aligned (Nat.dvd_sub_mod offset), fun j ↦ ?_⟩, fun j _ ↦ ?_⟩
  · rw [hc.fill_metaData]
    split_ifs
    · dsimp only
      omega
    · exact h.handle_ge j
  · rw [hc.fill_metaData, hc.fill_buffer]
    split_ifs
    · exact Or.inl rfl
    · exact Or.inr ⟨rfl, rfl⟩

/-- Closing a handle that is not negative. -/
theorem Pool.Ready.closeFile {s : Sys} (h : s.pool.Ready) {fd : ℤ} (hfd : 0 ≤ fd) :
    ∃ s', FileIO.closeFile fd s = some s' ∧ s'.pool.Ready ∧
      ∀ i, 0 ≤ (s'.pool.bufferMetaData i).fileHandle →
        (s.pool.bufferMetaData i).fileHandle ≠ fd ∧
          s'.pool.bufferMetaData i = s.pool.bufferMetaData i ∧ s'.pool.buffer i = s.pool.buffer i := by
  obtain ⟨p, heq, hp, hbuf, hmd, -⟩ := closeFile_spec h.ok hfd
  refine ⟨_, heq, ⟨hp, fun i hi ↦ ?_, fun i ↦ ?_⟩, fun i hi ↦ ?_⟩
  · obtain ⟨-, hmdi⟩ := kept_of_closed hmd hi
    dsimp only at hi ⊢
    rw [hmdi] at hi ⊢
    exact h.aligned i hi
  · dsimp only
    rw [hmd]
    split_ifs
    · exact le_rfl
    · exact h.handle_ge i
  · obtain ⟨hfdi, hmdi⟩ := kept_of_closed hmd hi
    exact ⟨hfdi, hmdi, congrFun hbuf i⟩

end FileIO

/-- The loop of `findEntry`, on a file of any length and content. -/
theorem findLoop_ready (hdvd : Pod.sizeof (K × V) ∣ blkSize) {s : Sys} (h : s.pool.Ready) {fd : ℤ}
    (hfd : 0 ≤ fd) (key : K) (low high : ℤ) (hlow : 1 ≤ low) :
    ∃ v p, findLoop V fd key low high s = some (v, { s with pool := p }) ∧ p.Ready ∧
      s.pool.Keeps fd p := by
  fun_induction findLoop V fd key low high s with
  | case1 low high s hle mid ihlt ihgt =>
    have hmid : mid = (low + high) / 2 := rfl
    obtain ⟨i, hi⟩ := Int.eq_ofNat_of_zero_le (show 0 ≤ mid by omega)
    obtain ⟨hkey, hvalue⟩ := fields_in_block (K := K) (V := V) hdvd i
    obtain ⟨r, bs, p, hread, hp, hkeeps⟩ := h.fread hfd hkey
    have hoff : (mid * Pod.sizeof (K × V)).toNat = i * Pod.sizeof (K × V) := by
      rw [hi, ← Int.natCast_mul, Int.toNat_natCast]
    have hoff' : (mid * Pod.sizeof (K × V) + Pod.sizeof K).toNat = i * Pod.sizeof (K × V) + Pod.sizeof K := by
      rw [hi, ← Int.natCast_mul, ← Int.natCast_add, Int.toNat_natCast]
    rw [hoff, hread, Option.bind_some]
    dsimp only
    split_ifs with hlt hgt
    · obtain ⟨v, p', heq, hp', hkeeps'⟩ := ihlt { s with pool := p } hp (by omega)
      exact ⟨v, p', heq, hp', hkeeps.trans hkeeps'⟩
    · obtain ⟨v, p', heq, hp', hkeeps'⟩ := ihgt { s with pool := p } hp hlow
      exact ⟨v, p', heq, hp', hkeeps.trans hkeeps'⟩
    · obtain ⟨r', bs', p', hread', hp', hkeeps'⟩ := Pool.Ready.fread (s := { s with pool := p }) hp hfd hvalue
      exact ⟨_, p', by rw [hoff', hread', Option.map_some], hp', hkeeps.trans hkeeps'⟩
  | case2 low high s hgt => exact ⟨none, s.pool, rfl, h, Keeps.refl _ _⟩

/-! ## A file that is not open

With the handle `-1` the cache does not fail, it takes a free block for one of the file.  A read marks
the block with `-1` again and puts it into the queue, and a close erases through an iterator that is not
there. -/

namespace FileIO

/-- The first read through a failed handle leaves a block behind. -/
theorem Pool.Ready.fread_neg {s s' : Sys} (h : s.pool.Ready) {fd : ℤ} (hfd : fd < 0) {n offset : ℕ}
    {r : ℤ} {bs : Bytes} (hread : FileIO.fread n offset fd s = some (r, bs, s')) : s'.pool.Stray := by
  obtain ⟨r', i, p₁, q, block, hc, -, heq⟩ := fread_spec h.ok h.aligned fd n offset
  obtain ⟨got, -, heq'⟩ := Option.map_eq_some_iff.mp (heq.symm.trans hread)
  cases heq'
  refine ⟨i, ?_, List.mem_cons_self⟩
  dsimp only
  rwa [hc.fill_metaData, if_pos rfl]

/-- The reads after it leave the block where it is. -/
theorem Pool.Stray.fread {s s' : Sys} (h : s.pool.Stray) {fd : ℤ} (hfd : fd < 0) {n offset : ℕ}
    {r : ℤ} {bs : Bytes} (hread : FileIO.fread n offset fd s = some (r, bs, s')) : s'.pool.Stray := by
  obtain ⟨i, hfree, hmem⟩ := h
  unfold FileIO.fread at hread
  split at hread
  · rename_i j hj
    have hholds := List.find?_some hj
    simp only [Pool.holds, not_or, not_lt, not_not, decide_eq_true_eq] at hholds
    omega
  · obtain ⟨⟨j, p⟩, halloc, hread⟩ := Option.bind_eq_some_iff.mp hread
    obtain ⟨got, -, heq⟩ := Option.map_eq_some_iff.mp hread
    cases heq
    rw [Pool.allocateBlock] at halloc
    cases hfind : (List.finRange maxBlk).find?
        fun i ↦ decide ((s.pool.bufferMetaData i).fileHandle < 0) with
    | none =>
      have hi := List.find?_eq_none.mp hfind i (List.mem_finRange i)
      simp only [decide_eq_true_eq] at hi
      omega
    | some k =>
      rw [hfind] at halloc
      cases halloc
      refine ⟨i, ?_, List.mem_cons_of_mem _ hmem⟩
      dsimp only [Pool.pushFront]
      by_cases hik : i = k
      · rw [hik, Function.update_self]
        exact hfd
      · rwa [Function.update_of_ne hik]

/-- `closeFile` passes over a pool without blocks of the handle. -/
theorem closeBlocks_skip {p : Pool} {fd : ℤ} {is : List (Fin maxBlk)}
    (h : ∀ i ∈ is, (p.bufferMetaData i).fileHandle ≠ fd) : closeBlocks fd is p = some p := by
  induction is with
  | nil => rfl
  | cons i is ih =>
    rw [closeBlocks, List.foldlM_cons, if_neg (h i (by simp))]
    exact ih fun j hj ↦ h j (List.mem_cons_of_mem _ hj)

/-- Closing a failed handle is undefined if a free block is among those it looks at. -/
theorem Pool.Ok.closeBlocks_neg {p p' : Pool} (h : p.Ok) {fd : ℤ} (hfd : fd < 0)
    {is : List (Fin maxBlk)} (hclose : closeBlocks fd is p = some p') :
    ∀ i ∈ is, (p.bufferMetaData i).fileHandle ≠ fd := by
  induction is with
  | nil => simp
  | cons i is ih =>
    rw [closeBlocks, List.foldlM_cons] at hclose
    have hi : ¬(p.bufferMetaData i).fileHandle = fd := by
      intro hi
      have hnone : p.lruIndexMap i = none := by
        rw [← Option.not_isSome_iff_eq_none, ← h.inUse_iff]
        omega
      rw [if_pos hi, Pool.eraseNode, hnone] at hclose
      cases hclose
    rw [if_neg hi] at hclose
    intro j hj
    rcases List.mem_cons.mp hj with rfl | hj
    · exact hi
    · exact ih hclose j hj

end FileIO

/-- Whatever the loop finds, the block stays. -/
theorem findLoop_stray {s : Sys} (h : s.pool.Stray) {fd : ℤ} (hfd : fd < 0) (key : K) (low high : ℤ) :
    ∀ v s', findLoop V fd key low high s = some (v, s') → s'.pool.Stray := by
  fun_induction findLoop V fd key low high s with
  | case1 low high s hle mid ihlt ihgt =>
    intro v s' heq
    obtain ⟨⟨r, bs, s₁⟩, hread, heq⟩ := Option.bind_eq_some_iff.mp heq
    have h₁ := h.fread hfd hread
    dsimp only at heq
    split_ifs at heq with hlt hgt
    · exact ihlt s₁ h₁ v s' heq
    · exact ihgt s₁ h₁ v s' heq
    · obtain ⟨⟨r', bs', s₂⟩, hread', heq⟩ := Option.map_eq_some_iff.mp heq
      cases heq
      exact h₁.fread hfd hread'
  | case2 low high s hgt =>
    rintro v s' ⟨⟩
    exact h

/-- **A lookup through a failed handle** that reads anything leaves a block in the queue that is
marked as free. -/
theorem findLoop_failed {s : Sys} (h : s.pool.Ready) {fd : ℤ} (hfd : fd < 0) (key : K) {low high : ℤ}
    (hle : low ≤ high) {v : Option V} {s' : Sys} (heq : findLoop V fd key low high s = some (v, s')) :
    s'.pool.Stray := by
  rw [findLoop, if_pos hle] at heq
  obtain ⟨⟨r, bs, s₁⟩, hread, heq⟩ := Option.bind_eq_some_iff.mp heq
  have h₁ := h.fread_neg hfd hread
  dsimp only at heq
  split_ifs at heq with hlt hgt
  · exact findLoop_stray h₁ hfd key _ _ v s' heq
  · exact findLoop_stray h₁ hfd key _ _ v s' heq
  · obtain ⟨⟨r', bs', s₂⟩, hread', heq⟩ := Option.map_eq_some_iff.mp heq
    cases heq
    exact h₁.fread hfd hread'

/-- Fewer than two records by the division of the source, which truncates. -/
theorem tdiv_lt_two {size : ℤ} {sz : ℕ} (hsz : 0 < sz) : size.tdiv sz < 2 ↔ size < 2 * sz := by
  rcases Int.le_total 0 size with hs | hs
  · rw [Int.tdiv_eq_ediv_of_nonneg hs, Int.ediv_lt_iff_lt_mul (by omega)]
  · have hneg : 0 ≤ (-size).tdiv sz := Int.tdiv_nonneg (by omega) (by omega)
    rw [Int.neg_tdiv] at hneg
    omega

/-! ## When a triple leaves the pool intact -/

theorem Triple.findEntry_failed (t : Triple K) (s : Sys) : t.findEntry V (-1) s =
    findLoop V (-1) t.key 1 (t.stSize.tdiv (Pod.sizeof (K × V)) - 1) s := rfl

/-- A triple that is spared goes through. -/
theorem Triple.Spared.run_eq (hdvd : Pod.sizeof (K × V) ∣ blkSize) {s : Sys} (h : s.pool.Ready)
    {t : Triple K} (ht : t.Spared V s) : t.Intact V s ∧
      ∃ s', t.run V s = some s' ∧ s'.pool.Ready := by
  have hpool : (t.openFile s).2.pool = s.pool := t.openFile_pool s
  have hready : (t.openFile s).2.pool.Ready := hpool ▸ h
  rcases t.openFile_fst s with ⟨hfd, -, -⟩ | ⟨hopen, hno⟩
  · obtain ⟨v, p, hfind, hp, hkeeps⟩ := findLoop_ready (V := V) hdvd hready hfd t.key 1
      ((t.fsize (t.openFile s).1 (t.openFile s).2).tdiv (Pod.sizeof (K × V)) - 1) le_rfl
    obtain ⟨s₃, hclose, h₃, hsame⟩ := Pool.Ready.closeFile (s := { (t.openFile s).2 with pool := p }) hp hfd
    refine ⟨⟨v, _, s₃, hfind, hclose, hready.ok.consistent, hp.ok.consistent, h₃.ok.consistent,
      fun i hi ↦ ?_, fun hneg ↦ absurd hneg (not_lt.mpr hfd)⟩, s₃, ?_, h₃⟩
    · obtain ⟨hne, hmd, hbuf⟩ := hsame i hi
      rw [hmd] at hi
      obtain ⟨hmd', hbuf'⟩ := (hkeeps i hi).resolve_left hne
      exact ⟨by rw [hmd, hmd', hpool], by rw [hbuf, hbuf', hpool]⟩
    · have hfind' : t.findEntry V (t.openFile s).1 (t.openFile s).2 = _ := hfind
      rw [Triple.run]
      dsimp only
      rw [hfind', Option.bind_some, hclose]
  · obtain ⟨hused, hsize⟩ := ht.resolve_left hno
    have hfind : t.findEntry V (-1) s = some (none, s) := by
      have hlt := (tdiv_lt_two Pod.sizeof_pos).mpr hsize
      rw [Triple.findEntry_failed, findLoop, if_neg (by omega)]
    have hclose : closeFile (-1) s = some s := by
      rw [closeFile, closeBlocks_skip fun i _ ↦ by have := hused i; omega]
      rfl
    have hc := h.ok.consistent
    rw [Triple.Intact, Triple.run, hopen]
    exact ⟨⟨none, s, s, hfind, hclose, hc, hc, hc, fun _ _ ↦ ⟨rfl, rfl⟩, fun _ _ _ ↦ ⟨rfl, rfl⟩⟩,
      s, by dsimp only; rw [hfind, Option.bind_some, hclose], h⟩

/-- **A triple leaves the pool intact** exactly when it is spared. -/
theorem Triple.intact_iff (hdvd : Pod.sizeof (K × V) ∣ blkSize) {s : Sys} (h : s.pool.Ready)
    (t : Triple K) : t.Intact V s ↔ t.Spared V s := by
  refine ⟨fun hi ↦ ?_, fun ht ↦ (ht.run_eq hdvd h).1⟩
  rcases t.openFile_fst s with ⟨-, hopens⟩ | ⟨hopen, -⟩
  · exact Or.inl hopens
  · rw [Triple.Intact, hopen] at hi
    obtain ⟨v, s₂, s₃, hfind, hclose, -, hc₂, -, -, -⟩ := hi
    rw [Triple.findEntry_failed] at hfind
    by_cases hle : 1 ≤ t.stSize.tdiv (Pod.sizeof (K × V)) - 1
    · exact absurd hc₂ (findLoop_failed h neg_one_lt_zero t.key hle hfind).not_consistent
    · rw [findLoop, if_neg hle] at hfind
      cases hfind
      refine Or.inr ⟨fun i ↦ ?_, (tdiv_lt_two Pod.sizeof_pos).mp (by omega)⟩
      obtain ⟨p, hp, -⟩ := Option.map_eq_some_iff.mp hclose
      have hne := h.ok.closeBlocks_neg neg_one_lt_zero hp i (List.mem_finRange i)
      have hge := h.handle_ge i
      omega

/-- **A failed open leaves the pool intact** in exactly those runs of triples where at every failed
open no block is free and `st_size` is less than two records.

The handle of a failed open is `-1`, which is also what marks a free block.  So `closeFile` takes a free block
for one of that file, and with a size of two records or more `findEntry` reads through that handle. -/
theorem triples_intact_iff (hdvd : Pod.sizeof (K × V) ∣ blkSize) {s : Sys} (h : s.pool.Ready)
    (ts : List (Triple K)) : Runs.Along (Triple.run V) (Triple.Intact V) s ts ↔
      Runs.Along (Triple.run V) (Triple.Spared V) s ts := by
  have hiff : ∀ (s : Sys) (t : Triple K), s.pool.Ready → (t.Intact V s ↔ t.Spared V s) :=
    fun _ t h ↦ t.intact_iff hdvd h
  have hstep : ∀ (s : Sys) (t : Triple K) (s' : Sys), s.pool.Ready → t.Spared V s →
      t.run V s = some s' → s'.pool.Ready := by
    intro s t s' h ht hrun
    obtain ⟨-, s'', heq, h''⟩ := ht.run_eq hdvd h
    cases heq.symm.trans hrun
    exact h''
  exact Runs.along_congr hiff hstep h ts

/-! ### A pool without a free block -/

/-- Every block has a part of one file. -/
def fullPool : Pool where
  buffer _ := List.replicate blkSize 0
  bufferMetaData i := ⟨0, i * blkSize⟩
  lruIndexQ := (List.finRange maxBlk).map fun i ↦ (i.val, i)
  lruIndexMap i := some i.val
  nextNode := maxBlk

theorem ready_fullPool : fullPool.Ready where
  ok := {
    length_buffer := fun _ ↦ List.length_replicate
    inUse_iff := fun _ ↦ by simp [fullPool]
    mem_iff := fun i node ↦ by simp [fullPool, eq_comm]
    nodup := by
      rw [fullPool, List.map_map]
      exact List.Nodup.map Fin.val_injective (List.nodup_finRange maxBlk)
    node_lt := fun x hx ↦ by
      simp only [fullPool, List.mem_map, List.mem_finRange, true_and] at hx
      obtain ⟨i, hi⟩ := hx
      rw [← hi]
      exact i.isLt }
  aligned i _ := Nat.dvd_mul_left blkSize i.val
  handle_ge _ := by simp [fullPool]

/-- The process has that file open, and another one is there. -/
def fullSys : Sys := ⟨(FS.blank.write "file0" []).write "file1" [], [some "file0"], fullPool⟩

/-- A file that is missing, and one that is there. -/
def missing : Triple Master.K := ⟨"file2", Master.zeroK, false, 0⟩
def present : Triple Master.K := ⟨"file1", Master.zeroK, false, 0⟩

/-- The first open fails, and nothing is harmed. -/
theorem triples_intact_iff_missing : (missing.openFile fullSys).1 = -1 ∧ (present.openFile fullSys).1 = 1 ∧
    Runs.Along (Triple.run Master.V) (Triple.Intact Master.V) fullSys [missing, present] := by
  have hfs : ∀ s', missing.run Master.V fullSys = some s' → s'.fs = fullSys.fs := by
    intro s' hrun
    rw [Triple.run, show missing.openFile fullSys = (-1, fullSys) from rfl] at hrun
    obtain ⟨⟨v, s⟩, hfind, hclose⟩ := Option.bind_eq_some_iff.mp hrun
    obtain ⟨p, -, rfl⟩ := Option.map_eq_some_iff.mp hclose
    rw [Triple.findEntry_failed, findLoop, if_neg (by decide)] at hfind
    cases hfind
    rfl
  refine ⟨rfl, rfl, (triples_intact_iff (by decide) ready_fullPool [missing, present]).mpr
    ⟨Or.inr ⟨fun i ↦ le_rfl, by decide⟩, fun s' hrun ↦ ⟨Or.inl ⟨rfl, ?_⟩, fun _ _ ↦ trivial⟩⟩⟩
  rw [hfs s' hrun]
  rfl

/-- The file is missing: `closeFile(-1)` takes the first free block for its own. -/
theorem missing_file_not_intact :
    ¬Runs.Along (Triple.run Master.V) (Triple.Intact Master.V) ⟨FS.blank, [], Pool.initial⟩
      [⟨"file0", Master.zeroK, false, 0⟩] := by
  rintro ⟨hi, -⟩
  have hspared := (Triple.intact_iff (V := Master.V) (by decide) ready_initial _).mp hi
  rcases hspared with ⟨-, hsome⟩ | ⟨hused, -⟩
  · exact absurd hsome Bool.false_ne_true
  · exact absurd (hused ⟨0, by decide⟩) (by decide)

end ScratchStore
