import ScratchStore.Master.Batch
import ScratchStore.Master.Reader

/-!
# Runs of a read among the other threads

The main results about a read that other threads get in between of:

* `dbread_concurrent`: in a run whose steps are all `Safe` the read delivers the value that was written
  last before it began, or one that was written since, and it is done nine steps after `fslock` is free.
* `Reading.Early.along`: until the first `adjust` after its beginning is done, nothing overtakes a read,
  whatever the order of the steps, as long as nobody deletes the key.  `slowRead` is such a read, whose
  lookups come between the operations of an `adjust`.
* `run_overtaken`: two more flushes between the lookups without a lock and the last two, and a key that
  was there all the time is not found.

The records of the key are followed as in `Master.Batch`: there is only one, and `Threads.OnlyAt` says in
which file.
-/

set_option autoImplicit false

namespace ScratchStore

namespace Master

open SortedAssoc FileIO Layers RingScan

variable {Time : Type} [TimeFormat Time] {s s' : Store} {st : Threads} {m : K → Option V} {k : K}

/-! ## A key that has gone round the ring

The worst place for a record is the oldest file, which the reader comes to last and the next `adjust`
overwrites. -/

/-- Lookups that find nothing. -/
theorem run_lookups {is : List (Fin numFiles)} (r : Fin numFiles) (todo : List (Fin numFiles))
    (h : st.store.WF) (hnone : ∀ i ∈ is, st.store.file i k = none) :
    ∃ s', Runs.run (Reading.step k) ⟨st, .scanning r (is ++ todo)⟩
        (List.replicate is.length (ReadAction.read : ReadAction Time)) =
      some ⟨{ st with store := s' }, .scanning r todo⟩ ∧ Store.Cached st.store s' := by
  induction is generalizing st with
  | nil => exact ⟨st.store, rfl, .refl h.quiet⟩
  | cons i is ih =>
    obtain ⟨sys, hlookup, hq, hfs⟩ := lookupFile_filesys h.quiet h.files i k
    have hcached : Store.Cached st.store { st.store with sys := sys } := ⟨⟨sys, rfl⟩, hfs, hq⟩
    have hi : fileAt st.store.fs i k = none := hnone i (by simp)
    have hnone' : ∀ i' ∈ is, Store.file { st.store with sys := sys } i' k = none := by
      intro i' hi'
      rw [hcached.file_eq]
      exact hnone i' (List.mem_cons_of_mem _ hi')
    obtain ⟨s', hrun, hcached'⟩ := @ih { st with store := { st.store with sys := sys } }
      (h.cached hcached) hnone'
    refine ⟨s', ?_, hcached.trans hcached'⟩
    rw [List.length_cons, List.replicate_succ, Runs.run_cons, List.cons_append, Reading.step, Reader.step,
      hlookup, hi]
    exact hrun

theorem Threads.OnlyAt.cached {v : V} {d : Fin numFiles} (h : st.OnlyAt k v d)
    (hc : Store.Cached st.store s') : Threads.OnlyAt { st with store := s' } k v d := by
  have hfile := hc.file_eq
  obtain ⟨s, waiting, holder⟩ := st
  obtain ⟨⟨sys, rfl⟩, -, -⟩ := hc
  exact ⟨⟨h.calm.holder, h.calm.waiting, h.calm.reserve⟩, h.bintree, fun i ↦ by rw [hfile]; exact h.file i⟩

/-- One key is written, and then other keys until its record is in the oldest file. -/
def beforeRead (k : K) (v : V) (keys : List K) (v' : V) (env : Env Time) : List (Action Time) :=
  (.write k v :: batch keys v' env) ++ batches 9 keys v' env

omit [TimeFormat Time] in
theorem lastWritten_beforeRead {keys : List K} (hk : k ∉ keys) (v v' : V) (env : Env Time) :
    lastWritten (beforeRead k v keys v' env) k = some v := by
  rw [lastWritten, beforeRead, List.foldl_append, note_batches hk, List.foldl_cons, note_batch hk]
  exact Function.update_self k (some v) fun _ ↦ none

theorem run_beforeRead {keys : List K} (hnodup : keys.Nodup) (hlen : maxTreeSize ≤ keys.length)
    (hk : k ∉ keys) {v : V} (hv : v ≠ tombstone V) (v' : V) (env : Env Time) (h : Fresh Time s) :
    ∃ st, Runs.run Threads.step ⟨s, 0, none⟩ (beforeRead k v keys v' env) = some st ∧
      st.OnlyAt k v (st.store.recent + 1) ∧ st.Inv Time (lastWritten (beforeRead k v keys v' env)) := by
  have hround : ∀ r : Fin numFiles, (∀ j < 9, r + 1 ≠ r + 1 + Fin.ofNat numFiles j + 1) ∧
      r + 1 + Fin.ofNat numFiles 9 = r := by decide
  obtain ⟨hne, hnine⟩ := hround s.recent
  obtain ⟨st₁, hrun₁, hat₁, hrecent₁, hinv₁⟩ := run_first hnodup hlen hk v v' env h
  obtain ⟨st, hrun, hat, hrecent, hinv⟩ :=
    run_batches hnodup hlen hk hv v' env 9 hinv₁ hat₁ (by rw [hrecent₁]; exact hne)
  rw [hrecent₁, hnine] at hrecent
  refine ⟨st, ?_, hrecent ▸ hat, ?_⟩
  · rw [beforeRead, Runs.run_append, hrun₁, Option.bind_some, hrun]
  · rw [lastWritten, beforeRead, List.foldl_append]
    exact hinv

/-- A read of a key that is not in memory goes on to the files. -/
theorem Threads.OnlyAt.begin {v : V} {d : Fin numFiles} (hat : st.OnlyAt k v d) (h : st.Inv Time m)
    (hm : m k ≠ none) :
    Reading.step k ⟨st, .idle⟩ (ReadAction.read : ReadAction Time) =
      some ⟨st, .scanning st.store.recent (newer st.store.recent)⟩ := by
  have hmemory : newest st.store.memory k = none := by
    rw [Store.memory, hat.calm.reserve, newest_cons, hat.bintree]
    rfl
  rw [Reading.step, Reader.step, readMemory_eq, if_pos (h.covers k hm), hmemory, Option.map_none,
    slots_newer]
  rfl

/-- What is in the oldest file is in none of those the reader looks at without a lock. -/
theorem Threads.OnlyAt.newer_none {v : V} (hat : st.OnlyAt k v (st.store.recent + 1))
    {i : Fin numFiles} (hi : i ∈ newer st.store.recent) : st.store.file i k = none := by
  rw [hat.file, if_neg]
  rintro rfl
  exact (not_mem_newer _).2 hi

/-! ## A read that meets one `adjust` -/

/-- Is it an operation of `adjust`? -/
def ReadAction.isWork : ReadAction Time → Bool
  | .other (.work _) => true
  | _ => false

/-- `recent` is what the reader has seen, and stays so for `n` more operations of `adjust`. -/
structure Reading.Early (n : ℕ) (st : Reading) : Prop where
  bound : n < adjustOps.length
  /-- The reader looks at files that are not among the two oldest. -/
  reader : ∀ r todo, st.reader = .scanning r todo → r = st.threads.store.recent ∧ todo ⊆ newer r
  /-- The `adjust` that is at work has more than `n` operations left. -/
  holder : ∀ ops, st.threads.holder = some ops → ops <:+ adjustOps ∧ n < ops.length

omit [TimeFormat Time] in
theorem Reading.Early.mono {n n' : ℕ} {st : Reading} (h : st.Early n') (hle : n ≤ n') : st.Early n :=
  ⟨hle.trans_lt h.bound, h.reader, fun ops hops ↦
    ⟨(h.holder ops hops).1, hle.trans_lt (h.holder ops hops).2⟩⟩

omit [TimeFormat Time] in
/-- The two oldest files are not among those the reader looks at without a lock. -/
theorem Reading.Early.safe {n : ℕ} {st : Reading} (h : st.Early n) {e : ReadAction Time}
    (hwrite : ∀ v, e = .other (.write k v) → v ≠ tombstone V) : Safe k st e := by
  cases e with
  | read =>
    intro r i todo hr ops _ hi
    obtain ⟨rfl, hsub⟩ := h.reader r _ hr
    exact absurd (hi ▸ hsub List.mem_cons_self) (not_mem_newer _).1
  | other a =>
    cases a with
    | work env =>
      intro r todo hr ops _ hnext
      obtain ⟨rfl, hsub⟩ := h.reader r _ hr
      cases todo with
      | nil => exact absurd hnext (add_two_ne_add_one _)
      | cons i todo =>
        have hi : i = st.threads.store.recent + 1 := hnext
        exact absurd (hi ▸ hsub List.mem_cons_self) (not_mem_newer _).2
    | write k' v =>
      intro r todo _ hk
      exact hwrite v (by rw [hk])
    | swap | lock | unlock => exact trivial

/-- Only the last operation of `adjust` moves `recent` on. -/
theorem AdjustOp.recent_run {op : AdjustOp} {env : Env Time} (hrun : op.run env s = some s')
    (hop : op ≠ .retire) : s'.recent = s.recent := by
  cases op with
  | emptyTemp | truncate | emptyTempAgain =>
    obtain ⟨fs, -, rfl⟩ := Option.map_eq_some_iff.mp hrun
    rfl
  | copy =>
    simp only [AdjustOp.run, Master.copy] at hrun
    split at hrun <;> cases hrun <;> rfl
  | merge =>
    obtain ⟨_, -, hrun⟩ := Option.bind_eq_some_iff.mp hrun
    obtain ⟨_, -, hrun⟩ := Option.bind_eq_some_iff.mp hrun
    obtain ⟨fs, -, rfl⟩ := Option.map_eq_some_iff.mp hrun
    rfl
  | dump =>
    obtain ⟨_, -, hrun⟩ := Option.bind_eq_some_iff.mp hrun
    obtain ⟨_, -, rfl⟩ := Option.map_eq_some_iff.mp hrun
    rfl
  | retire => exact absurd rfl hop

/-- A step of the others. -/
theorem Reading.Early.other {n n' : ℕ} {st : Reading} {threads : Threads} {a : Action Time}
    (h : st.Early n') (hn : n + (if ReadAction.isWork (.other a) then 1 else 0) ≤ n')
    (hstep : st.threads.step a = some threads) : Reading.Early n ⟨threads, st.reader⟩ := by
  have hle : n ≤ n' := (Nat.le_add_right _ _).trans hn
  have hkeep := h.mono hle
  cases Threads.step_cases hstep with
  | nothing => exact hkeep
  | write k' v => exact ⟨hkeep.bound, hkeep.reader, hkeep.holder⟩
  | swap => exact ⟨hkeep.bound, hkeep.reader, hkeep.holder⟩
  | lock =>
    refine ⟨hkeep.bound, hkeep.reader, fun ops hops ↦ ?_⟩
    cases hops
    exact ⟨List.suffix_refl _, hkeep.bound⟩
  | @work env op todo s' hholder hrun =>
    obtain ⟨hsuffix, hlen⟩ := h.holder _ hholder
    have htodo : n < todo.length := by
      simp only [ReadAction.isWork, if_true, List.length_cons] at hn hlen
      omega
    -- something is left to do, so it is not the last operation
    have hop : op ≠ .retire := by
      have hlast : ∀ ops ∈ adjustOps.tails, ops.head? = some .retire → ops.length = 1 := by decide
      rintro rfl
      have hone := hlast _ ((List.mem_tails _ _).mpr hsuffix) rfl
      rw [List.length_cons] at hone
      omega
    refine ⟨hkeep.bound, fun r ops hr ↦ ?_, fun ops hops ↦ ?_⟩
    · rw [AdjustOp.recent_run hrun hop]
      exact h.reader r ops hr
    · cases hops
      exact ⟨(List.suffix_cons op todo).trans hsuffix, htodo⟩
  | unlock =>
    refine ⟨hkeep.bound, hkeep.reader, fun ops hops ↦ ?_⟩
    cases hops

/-- A step of the read. -/
theorem Reading.Early.read {n : ℕ} {st : Reading} {reader : Reader} {sys : Sys} (h : st.Early n)
    (hstep : st.reader.step k st.threads = some (reader, sys)) :
    Reading.Early n ⟨{ st.threads with store := { st.threads.store with sys := sys } }, reader⟩ := by
  refine ⟨h.bound, ?_, h.holder⟩
  obtain ⟨threads, old⟩ := st
  match old, h.reader with
  | .idle, _ =>
    rw [Reader.step] at hstep
    intro r todo hr
    split at hstep <;> cases hstep
    · cases hr
    · cases hr
      exact ⟨rfl, by rw [slots_newer]; exact List.Subset.refl _⟩
  | .scanning r (i :: todo), hreader =>
    obtain ⟨⟨v, sys'⟩, -, hv⟩ := Option.map_eq_some_iff.mp hstep
    obtain ⟨hr, hsub⟩ := hreader r _ rfl
    cases v with
    | some v =>
      cases hv
      exact fun _ _ hdone ↦ by cases hdone
    | none =>
      cases hv
      intro r' todo' hr'
      cases hr'
      exact ⟨hr, fun x hx ↦ hsub (List.mem_cons_of_mem i hx)⟩
  | .scanning r [], hreader =>
    rw [Reader.step] at hstep
    split_ifs at hstep
    · obtain ⟨_, -, hv⟩ := Option.map_eq_some_iff.mp hstep
      cases hv
      exact fun _ _ hdone ↦ by cases hdone
    · cases hstep
      exact hreader
  | .done answer, _ =>
    cases hstep
    exact fun _ _ hdone ↦ by cases hdone

/-- **A read that meets one `adjust` at the most** is safe: nothing is unsafe before the last operation of
that `adjust`. -/
theorem Reading.Early.along {n : ℕ} {st : Reading} (h : st.Early n) {es tail : List (ReadAction Time)}
    (hes : es.countP ReadAction.isWork ≤ n) (hwrite : ∀ v, .other (.write k v) ∈ es → v ≠ tombstone V)
    (htail : ∀ st : Reading, st.Early 0 → Runs.Along (Reading.step k) (Safe k) st tail) :
    Runs.Along (Reading.step k) (Safe k) st (es ++ tail) := by
  induction es generalizing n st with
  | nil => exact htail st (h.mono (Nat.zero_le n))
  | cons e es ih =>
    rw [List.countP_cons] at hes
    refine ⟨h.safe fun v hv ↦ hwrite v (by simp [hv]), fun st' hstep ↦ ?_⟩
    have hrest : ∀ v, ReadAction.other (.write k v) ∈ es → v ≠ tombstone V := fun v hv ↦
      hwrite v (List.mem_cons_of_mem _ hv)
    cases e with
    | read =>
      obtain ⟨⟨reader, sys⟩, hread, rfl⟩ := Option.map_eq_some_iff.mp hstep
      exact ih (h.read hread) ((Nat.le_add_right _ _).trans hes) hrest
    | other a =>
      obtain ⟨threads, hother, rfl⟩ := Option.map_eq_some_iff.mp hstep
      exact ih (h.other hes hother) le_rfl hrest

/-- Nothing is unsafe before a read begins. -/
theorem along_idle (actions : List (Action Time)) (st : Threads) :
    Runs.Along (Reading.step k) (Safe k) ⟨st, .idle⟩ (actions.map .other) := by
  induction actions generalizing st with
  | nil => exact trivial
  | cons a actions ih =>
    refine ⟨?_, fun st' hstep ↦ ?_⟩
    · cases a with
      | write | work =>
        intro r todo hr
        cases hr
      | swap | lock | unlock => exact trivial
    · obtain ⟨threads, -, rfl⟩ := Option.map_eq_some_iff.mp hstep
      exact ih threads

/-- Three lookups, the writes that fill the tree, the swap, and `adjust` as far as the truncated file. -/
def slowFirst (keys : List K) (v' : V) (env : Env Time) : List (ReadAction Time) :=
  let others : List (Action Time) := writes Time keys v' ++ ([.swap, .lock] ++ List.replicate 3 (.work env))
  List.replicate 3 .read ++ others.map .other

/-- The rest of `adjust`, with four more lookups in between. -/
def slowRest (env : Env Time) : List (ReadAction Time) :=
  let works : List (Action Time) := List.replicate 2 (.work env)
  List.replicate 2 .read ++ (works.map .other ++
    (List.replicate 2 .read ++ (works.map .other ++ [.other .unlock])))

/-- The read does not touch `fslock` before its last section. -/
theorem holder_reads {n : ℕ} {st st' : Reading}
    (hrun : Runs.run (Reading.step k) st (List.replicate n (ReadAction.read : ReadAction Time)) = some st') :
    st'.threads.holder = st.threads.holder := by
  have hkeep : ∀ (st₁ : Reading) e (st₂ : Reading),
      e ∈ List.replicate n (ReadAction.read : ReadAction Time) →
        st₁.threads.holder = st.threads.holder → st₁.step k e = some st₂ →
          st₂.threads.holder = st.threads.holder := by
    intro st₁ e st₂ he h₁ hstep
    obtain rfl := List.eq_of_mem_replicate he
    obtain ⟨_, -, rfl⟩ := Option.map_eq_some_iff.mp hstep
    exact h₁
  exact Runs.run_invariant_of_mem hkeep rfl hrun

/-- Operations of `adjust` during a read. -/
theorem holder_works {env : Env Time} {ops todo : List AdjustOp} {st st' : Reading}
    (hholder : st.threads.holder = some (ops ++ todo))
    (hrun : Runs.run (Reading.step k) st ((List.replicate ops.length (Action.work env)).map .other) = some st') :
    st'.threads.holder = some todo := by
  obtain ⟨⟨s, waiting, holder⟩, reader⟩ := st
  obtain rfl : holder = some (ops ++ todo) := hholder
  rw [run_others, run_works, Option.map_map] at hrun
  obtain ⟨s', -, rfl⟩ := Option.map_eq_some_iff.mp hrun
  rfl

/-- The first half: the reader has five of the files before it, and the second oldest is empty. -/
theorem run_slowFirst {v : V} {keys : List K} (hnodup : keys.Nodup) (hlen : maxTreeSize ≤ keys.length)
    (v' : V) (env : Env Time) (h : st.Inv Time m) (hm : m k ≠ none)
    (hat : st.OnlyAt k v (st.store.recent + 1)) :
    ∃ mid, Runs.run (Reading.step k) ⟨st, .idle⟩ (.read :: slowFirst keys v' env) = some mid ∧
      mid.reader = .scanning st.store.recent ((newer st.store.recent).drop 3) ∧
      mid.threads.holder = some [.merge, .emptyTempAgain, .dump, .retire] := by
  obtain ⟨s₁, hrun₁, hcached⟩ := @run_lookups Time _ st k ((newer st.store.recent).take 3)
    st.store.recent ((newer st.store.recent).drop 3) h.wf
    fun i hi ↦ hat.newer_none (List.mem_of_mem_take hi)
  rw [List.take_append_drop, show ((newer st.store.recent).take 3).length = 3 from rfl] at hrun₁
  have hops : adjustOps = [.emptyTemp, .copy, .truncate] ++ [.merge, .emptyTempAgain, .dump, .retire] := rfl
  obtain ⟨st₂, hrun₂, hholder⟩ := run_openBatch hnodup hlen v' env (h.cached hcached)
    (hat.cached hcached).calm hops
  refine ⟨⟨st₂, _⟩, ?_, rfl, hholder⟩
  rw [Runs.run_cons, hat.begin h hm, Option.bind_some, slowFirst, Runs.run_append, hrun₁, Option.bind_some,
    run_others]
  exact congrArg (Option.map _) hrun₂

/-- At the end of the second half `fslock` is free. -/
theorem holder_slowRest {env : Env Time} {mid st : Reading}
    (hmid : mid.threads.holder = some [.merge, .emptyTempAgain, .dump, .retire])
    (hrun : Runs.run (Reading.step k) mid (slowRest env) = some st) : st.threads.holder = none := by
  simp only [slowRest, Runs.run_append, Option.bind_eq_some_iff] at hrun
  obtain ⟨st₁, hrun₁, st₂, hrun₂, st₃, hrun₃, st₄, hrun₄, hrun⟩ := hrun
  have h₁ : st₁.threads.holder = some ([.merge, .emptyTempAgain] ++ [.dump, .retire]) :=
    (holder_reads hrun₁).trans hmid
  have h₂ := holder_works h₁ hrun₂
  have h₃ : st₃.threads.holder = some ([.dump, .retire] ++ []) := (holder_reads hrun₃).trans h₂
  have h₄ := holder_works h₃ hrun₄
  obtain ⟨threads, reader⟩ := st₄
  obtain ⟨s, waiting, holder⟩ := threads
  obtain rfl : holder = some [] := h₄
  cases hrun
  rfl

omit [TimeFormat Time] in
theorem countP_slowFirst (keys : List K) (v' : V) (env : Env Time) :
    (slowFirst keys v' env).countP ReadAction.isWork = 3 := by
  have hwrites : ((writes Time keys v').map ReadAction.other).countP ReadAction.isWork = 0 := by
    rw [List.countP_eq_zero]
    intro e he
    obtain ⟨a, ha, rfl⟩ := List.mem_map.mp he
    obtain ⟨k', -, rfl⟩ := List.mem_map.mp ha
    exact Bool.false_ne_true
  rw [slowFirst, List.countP_append, List.map_append, List.countP_append, hwrites]
  rfl

omit [TimeFormat Time] in
/-- Nobody writes to the key. -/
theorem not_mem_slowRead {keys : List K} (hk : k ∉ keys) (v' : V) (env : Env Time) (v : V) :
    ReadAction.other (.write k v) ∉ slowFirst keys v' env ∧
      ReadAction.other (.write k v) ∉ slowRest env := by
  constructor
  · simp only [slowFirst, writes, List.mem_append, List.mem_replicate, List.mem_map, List.mem_cons,
      List.not_mem_nil, ReadAction.other.injEq]
    grind
  · simp [slowRest]

/-- **The whole read is safe.** -/
theorem along_slowRead {keys : List K} (hk : k ∉ keys) (v' : V) (env : Env Time)
    {before : List (Action Time)} (hrun : Runs.run Threads.step ⟨s, 0, none⟩ before = some st)
    (hholder : st.holder = none) :
    Runs.Along (Reading.step k) (Safe k) ⟨⟨s, 0, none⟩, .idle⟩
      (before.map .other ++ .read :: (slowFirst keys v' env ++ slowRest env)) := by
  have hothers := run_others k .idle before ⟨s, 0, none⟩
  rw [hrun, Option.map_some] at hothers
  refine (along_idle before _).append_of_run hothers ?_
  -- `adjust` has seven operations, and the last is left out
  have hsplit : .read :: (slowFirst keys v' env ++ slowRest env) =
      (.read :: (slowFirst keys v' env ++ (slowRest env).take 7)) ++
        [.other (.work env), .other .unlock] := by
    rw [List.cons_append, List.append_assoc]
    rfl
  have hmem := not_mem_slowRead hk v' env
  rw [hsplit]
  refine Reading.Early.along (n := 6) ⟨by decide, fun r todo hr ↦ ?_, fun ops hops ↦ ?_⟩ ?_
    (fun v hv ↦ ?_) fun st h ↦ ⟨h.safe fun v hv ↦ ?_, fun st' _ ↦ ⟨trivial, fun _ _ ↦ trivial⟩⟩
  · cases hr
  · rw [hholder] at hops
    cases hops
  · have hcount : ((slowRest env).take 7).countP ReadAction.isWork = 3 := rfl
    rw [List.countP_cons, List.countP_append, countP_slowFirst, hcount]
    exact le_rfl
  · rcases List.mem_cons.mp hv with hv | hv
    · cases hv
    · exact ((List.mem_append.mp hv).elim (hmem v).1 fun hv ↦ (hmem v).2 (List.mem_of_mem_take hv)).elim
  · cases hv

/-! ## The value that is read -/

/-- What a read may deliver: the value the key had when it began, or one that was written since. -/
def Expected (k : K) (v₀ : V) (during : List (ReadAction Time)) (v : V) : Prop :=
  v ≠ tombstone V ∧ (v = v₀ ∨ .other (.write k v) ∈ during)

/-- **A read among the other threads.**  From a fresh store, let any threads do anything, and begin a read
of a key that has a value.  Whatever the others do while it runs, if every step is `Safe`, then the read
delivers that value or one that was written since, and it is done nine steps after `fslock` is free. -/
theorem dbread_concurrent (s : Store) (h : Fresh Time s) (k : K) (before : List (Action Time)) (v₀ : V)
    (hv : lastWritten before k = some v₀) (hlive : v₀ ≠ tombstone V) (during : List (ReadAction Time))
    (hsafe : Runs.Along (Reading.step k) (Safe k) ⟨⟨s, 0, none⟩, .idle⟩
      (before.map .other ++ .read :: during)) :
    ∃ st, Runs.run (Reading.step k) ⟨⟨s, 0, none⟩, .idle⟩ (before.map .other ++ .read :: during) = some st ∧
      (∀ answer, st.reader = .done answer →
        ∃ v, answer = some v ∧ (v = v₀ ∨ .other (.write k v) ∈ during)) ∧
      (st.threads.holder = none → ∃ st' v,
        Runs.run (Reading.step k) st (List.replicate 9 (ReadAction.read : ReadAction Time)) = some st' ∧
          st'.reader = .done (some v) ∧ (v = v₀ ∨ .other (.write k v) ∈ during)) := by
  have hgood : ∀ v, Expected k v₀ during v → v ≠ tombstone V := fun _ hv ↦ hv.1
  obtain ⟨st₀, hrun₀, hinv₀⟩ := h.run before
  have hothers := run_others k .idle before ⟨s, 0, none⟩
  rw [hrun₀, Option.map_some] at hothers
  have hv₀ : Expected k v₀ during v₀ := ⟨hlive, .inl rfl⟩
  obtain ⟨reader, hread, hreads⟩ := hinv₀.reads hv hlive hv₀
  have hbegin : Reading.step k ⟨st₀, .idle⟩ (ReadAction.read : ReadAction Time) = some ⟨st₀, reader⟩ := by
    rw [Reading.step, hread, Option.map_some]
  have hstep : ∀ (st : Reading) e, st.Inv Time k (Expected k v₀ during) → Safe k st e → e ∈ during →
      ∃ st', st.step k e = some st' ∧ st'.Inv Time k (Expected k v₀ during) := fun st e hst hsafe he ↦
    hst.step hgood hsafe fun v hev hv ↦ ⟨hv, .inr (hev ▸ he)⟩
  obtain ⟨st, hrun, hinv⟩ := Runs.run_total_along hstep ⟨⟨_, hinv₀⟩, hreads⟩
    ((hsafe.of_append hothers).2 _ hbegin)
  refine ⟨st, ?_, fun answer hanswer ↦ ?_, fun hholder ↦ ?_⟩
  · rw [Runs.run_append, hothers, Option.bind_some, Runs.run_cons, hbegin, Option.bind_some, hrun]
  · have hreads := hinv.reads
    rw [hanswer] at hreads
    cases hreads with
    | done hv => exact ⟨_, rfl, hv.2⟩
  · obtain ⟨st', v, hrun', hdone, hv⟩ := hinv.finish hgood hholder
    exact ⟨st', v, hrun', hdone, hv.2⟩

/-- The key's only record is in the oldest file when the read begins.  The read has looked into three files
when an `adjust` truncates the second oldest, and is done after that `adjust` has merged the record into it
and written a tree over the oldest. -/
theorem dbread_concurrent_slowRead : ∃ mid st st',
    Runs.run (Reading.step (numbered maxTreeSize))
      ⟨⟨freshStore (fun _ ↦ (0 : DaySecond)) 9, 0, none⟩, .idle⟩
      ((beforeRead (numbered maxTreeSize) zeroV someKeys zeroV (someEnv 1)).map .other ++
        .read :: slowFirst someKeys zeroV (someEnv 1)) = some mid ∧
    (∃ r, mid.reader = .scanning r ((newer r).drop 3)) ∧
    mid.threads.holder = some [.merge, .emptyTempAgain, .dump, .retire] ∧
    Runs.run (Reading.step (numbered maxTreeSize)) mid (slowRest (someEnv 1)) = some st ∧
    st.threads.holder = none ∧
    Runs.run (Reading.step (numbered maxTreeSize)) st
      (List.replicate 9 (ReadAction.read : ReadAction DaySecond)) = some st' ∧
    st'.reader = .done (some zeroV) := by
  obtain ⟨st₀, hrun₀, hat, hinv⟩ := run_beforeRead nodup_someKeys length_someKeys.ge not_mem_someKeys
    zeroV_ne_tombstone zeroV (someEnv 1) (fresh_freshStore (fun _ ↦ (0 : DaySecond)) 9)
  have hlast := lastWritten_beforeRead not_mem_someKeys zeroV zeroV (someEnv 1)
  obtain ⟨mid, hmid, hreader, hholder⟩ := run_slowFirst nodup_someKeys length_someKeys.ge zeroV
    (someEnv 1) hinv (by rw [hlast]; simp) hat
  obtain ⟨st, hrun, -, hfinish⟩ := dbread_concurrent _ (fresh_freshStore _ 9) (numbered maxTreeSize) _ zeroV
    hlast zeroV_ne_tombstone _ (along_slowRead not_mem_someKeys zeroV (someEnv 1) hrun₀ hat.calm.holder)
  have hfirst : Runs.run (Reading.step (numbered maxTreeSize))
      ⟨⟨freshStore (fun _ ↦ (0 : DaySecond)) 9, 0, none⟩, .idle⟩
      ((beforeRead (numbered maxTreeSize) zeroV someKeys zeroV (someEnv 1)).map .other ++
        .read :: slowFirst someKeys zeroV (someEnv 1)) = some mid := by
    rw [Runs.run_append, run_others, hrun₀, Option.map_some, Option.bind_some, hmid]
  rw [← List.cons_append, ← List.append_assoc, Runs.run_append, hfirst, Option.bind_some] at hrun
  have hfree := holder_slowRest hholder hrun
  obtain ⟨st', v, hrun', hdone, hv⟩ := hfinish hfree
  obtain ⟨hnot₁, hnot₂⟩ := not_mem_slowRead not_mem_someKeys zeroV (someEnv 1) v
  rw [List.mem_append, or_iff_left (not_or.mpr ⟨hnot₁, hnot₂⟩)] at hv
  exact ⟨mid, st, st', hfirst, ⟨_, hreader⟩, hholder, hrun, hfree, hrun', hv ▸ hdone⟩

/-! ## A read that is overtaken

The reader looks for the key where it was, and the key is where the reader has been. -/

/-- The lookups without a lock, two batches of the other keys, and the section under `fslock`. -/
def duringRead (keys : List K) (v' : V) (env : Env Time) : List (ReadAction Time) :=
  List.replicate 8 .read ++ ((batch keys v' env ++ batch keys v' env).map .other ++ [.read])

/-- **Two batches move the record** from the oldest file to the next one, and from there to the next. -/
theorem run_twoBatches {keys : List K} (hnodup : keys.Nodup) (hlen : maxTreeSize ≤ keys.length)
    (hk : k ∉ keys) {v : V} (hv : v ≠ tombstone V) (v' : V) (env : Env Time) (h : st.Inv Time m)
    (hat : st.OnlyAt k v (st.store.recent + 1)) :
    ∃ st' m', Runs.run Threads.step st (batch keys v' env ++ batch keys v' env) = some st' ∧
      st'.OnlyAt k v (st.store.recent + 1 + 2) ∧ st'.Inv Time m' := by
  obtain ⟨st₁, hrun₁, hb₁, hinv₁⟩ := run_batch hnodup hlen v' env h hat.calm
  have hat₁ := hat.batched hb₁ hk hv
  rw [if_pos rfl] at hat₁
  obtain ⟨st₂, hrun₂, hb₂, hinv₂⟩ := run_batch hnodup hlen v' env hinv₁ hat₁.calm
  have hat₂ := hat₁.batched hb₂ hk hv
  rw [hb₁.recent, if_pos (add_two _)] at hat₂
  exact ⟨st₂, _, by rw [Runs.run_append, hrun₁, Option.bind_some, hrun₂], hat₂, hinv₂⟩

/-- **The first batch moves the record to the file the reader comes to next, the second to the one it
has left.** -/
theorem run_overtaken {keys : List K} (hnodup : keys.Nodup) (hlen : maxTreeSize ≤ keys.length)
    (hk : k ∉ keys) {v : V} (hv : v ≠ tombstone V) (v' : V) (env : Env Time) (h : Fresh Time s) :
    ∃ st, Runs.run (Reading.step k) ⟨⟨s, 0, none⟩, .idle⟩
      ((beforeRead k v keys v' env).map .other ++ .read :: duringRead keys v' env) = some st ∧
        st.reader = .done none := by
  obtain ⟨st, hrun, hat, hinv⟩ := run_beforeRead hnodup hlen hk hv v' env h
  obtain ⟨r, hr⟩ : ∃ r, st.store.recent = r := ⟨_, rfl⟩
  have hbegin := hat.begin hinv (by rw [lastWritten_beforeRead hk]; simp)
  rw [hr] at hbegin
  have hnone : ∀ i ∈ newer r, st.store.file i k = none := fun i hi ↦ hat.newer_none (hr ▸ hi)
  obtain ⟨s₁, hrun₁, hcached⟩ := @run_lookups Time _ st k (newer r) r [] hinv.wf hnone
  have hrecent₁ : s₁.recent = r := hcached.sameFiles.recent.trans hr
  have hat₁ := hat.cached hcached
  rw [hr, ← hrecent₁] at hat₁
  obtain ⟨st₂, m', hrun₂, hat₂, hinv₂⟩ :=
    run_twoBatches hnodup hlen hk hv v' env (hinv.cached hcached) hat₁
  dsimp only at hat₂
  rw [hrecent₁] at hat₂
  have hbehind : ∀ r : Fin numFiles, r + 2 ≠ r + 1 + 2 ∧ r + 1 ≠ r + 1 + 2 := by decide
  have hfile : ∀ i, i ≠ r + 1 + 2 → fileAt st₂.store.fs i k = none := fun i hi ↦
    (hat₂.file i).trans (if_neg hi)
  obtain ⟨sys, hscan, -, -⟩ := scan_eq hinv₂.wf.quiet hinv₂.wf.files k [r + 2, r + 1]
  rw [List.map_cons, List.map_singleton, newest_cons, newest_cons, hfile _ (hbehind r).1,
    hfile _ (hbehind r).2] at hscan
  have hothers := run_others k .idle (beforeRead k v keys v' env) ⟨s, 0, none⟩
  rw [List.append_nil, show (newer r).length = 8 from rfl] at hrun₁
  refine ⟨⟨{ st₂ with store := { st₂.store with sys := sys } }, .done none⟩, ?_, rfl⟩
  rw [Runs.run_append, hothers, hrun, Option.map_some, Option.bind_some, Runs.run_cons, hbegin,
    Option.bind_some, duringRead, Runs.run_append, hrun₁, Option.bind_some, Runs.run_append, run_others,
    hrun₂, Option.map_some, Option.bind_some, Runs.run_cons, Reading.step, Reader.step,
    if_pos hat₂.calm.holder, slots_oldest, hscan]
  rfl

/-- **The read misses the key.**  Its only record is in the oldest file when the read begins.  Between the
last lookup without a lock and the section under `fslock` two `adjust` threads run to their ends, and the
record moves on to the third oldest file, which the read has left by then. -/
theorem dbread_overtaken : ∃ st,
    Runs.run (Reading.step (numbered maxTreeSize))
      ⟨⟨freshStore (fun _ ↦ (0 : DaySecond)) 9, 0, none⟩, .idle⟩
      ((beforeRead (numbered maxTreeSize) zeroV someKeys zeroV (someEnv 1)).map .other ++
        .read :: duringRead someKeys zeroV (someEnv 1)) = some st ∧
    lastWritten (beforeRead (numbered maxTreeSize) zeroV someKeys zeroV (someEnv 1))
      (numbered maxTreeSize) = some zeroV ∧ zeroV ≠ tombstone V ∧ st.reader = .done none := by
  obtain ⟨st, hrun, hdone⟩ := run_overtaken nodup_someKeys length_someKeys.ge not_mem_someKeys
    zeroV_ne_tombstone zeroV (someEnv 1) (fresh_freshStore (fun _ ↦ (0 : DaySecond)) 9)
  exact ⟨st, hrun, lastWritten_beforeRead not_mem_someKeys _ _ _, zeroV_ne_tombstone, hdone⟩

end Master

end ScratchStore
