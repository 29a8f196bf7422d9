import ScratchStore.Master.Threads

/-!
# A batch of lines

A thread that writes to at least `MAX_TREE_SIZE` different keys makes the tree large enough for a swap,
and the `adjust` it starts writes the tree to the ring.  `run_batch` says where every key is after a
batch that nobody disturbs.

Writes, a swap and a whole `adjust` are all in it, and what it leaves is known exactly: no `adjust` is on its
way, and `Batched` has the map of each file.  So a run that is to bring a store into some state can be put
together from batches, without running the definitions on a thousand keys.

* `run_batches` is about a record while other keys are written.  Each batch makes the file that has it one place
  older, until that is the oldest file; then the merge moves it to the second oldest.
* `run_openBatch` stops in the middle of the `adjust`, after any number of its operations.
-/

set_option autoImplicit false

namespace ScratchStore

namespace Master

open SortedAssoc FileIO Layers

variable {Time : Type} [TimeFormat Time] {s : Store} {st : Threads} {m : K → Option V}

/-- The same value is written to each of the keys. -/
def writes (Time : Type) (keys : List K) (v : V) : List (Action Time) := keys.map fun k ↦ .write k v

/-- The store after these writes. -/
def wrote (keys : List K) (v : V) (s : Store) : Store := keys.foldl (fun s k ↦ dbwrite k v s) s

/-- The writes, the swap, and the whole of `adjust`. -/
def batch (keys : List K) (v : V) (env : Env Time) : List (Action Time) :=
  writes Time keys v ++ ([.swap, .lock] ++ (List.replicate adjustOps.length (.work env) ++ [.unlock]))

/-- No `adjust` was started that is not finished. -/
structure Threads.Calm (st : Threads) : Prop where
  holder : st.holder = none
  waiting : st.waiting = 0
  reserve : st.store.reserve = none

/-! ## The writes -/

theorem run_writes (keys : List K) (v : V) (st : Threads) :
    Runs.run Threads.step st (writes Time keys v) = some { st with store := wrote keys v st.store } := by
  induction keys generalizing st with
  | nil => rfl
  | cons k keys ih =>
    rw [writes, List.map_cons, Runs.run_cons]
    exact ih _

/-- What the writes leave of the store: only `bintree` has changed, and it has the keys. -/
structure WroteKeys (keys : List K) (v : V) (s s' : Store) : Prop where
  reserve : s'.reserve = s.reserve
  recent : s'.recent = s.recent
  current : s'.current = s.current
  file : s'.file = s.file
  lookup : ∀ k, s'.bintree.lookup k = if k ∈ keys then some v else s.bintree.lookup k

theorem wroteKeys (h : s.WF) (keys : List K) (v : V) : WroteKeys keys v s (wrote keys v s) := by
  induction keys generalizing s with
  | nil => exact ⟨rfl, rfl, rfl, rfl, fun k ↦ by simp [wrote]⟩
  | cons k keys ih =>
    have hrest := ih (h.dbwrite k v)
    have hfile : (dbwrite k v s).file = s.file := funext fun i ↦ file_dbwrite k v h i
    refine ⟨hrest.reserve, hrest.recent, hrest.current, hrest.file.trans hfile, fun k' ↦ ?_⟩
    have hlookup := hrest.lookup k'
    rw [lookup_dbwrite k v h] at hlookup
    rw [show wrote (k :: keys) v s = wrote keys v (dbwrite k v s) from rfl, hlookup]
    by_cases hk : k' = k
    · simp [hk]
    · simp [hk]

/-! ## `adjust` in one go -/

/-- Some operations of `adjust`, with nobody in between. -/
theorem run_works (env : Env Time) (ops todo : List AdjustOp) (s : Store) (waiting : ℕ) :
    Runs.run Threads.step ⟨s, waiting, some (ops ++ todo)⟩ (List.replicate ops.length (.work env)) =
      (runOps env ops s).map fun s' ↦ ⟨s', waiting, some todo⟩ := by
  induction ops generalizing s with
  | nil => rfl
  | cons op ops ih =>
    rw [List.length_cons, List.replicate_succ, Runs.run_cons, List.cons_append, runOps, List.foldlM_cons]
    simp only [Threads.step]
    cases op.run env s with
    | none => rfl
    | some s' => exact ih s'

/-! ## The batch -/

/-- What a batch leaves. -/
structure Batched (keys : List K) (v : V) (st st' : Threads) : Prop where
  calm : st'.Calm
  recent : st'.store.recent = st.store.recent + 1
  current : st'.store.current = st.store.current + 1
  /-- The tree has been replaced by an empty one. -/
  bintree : st'.store.bintree.root = .nil
  /-- The file that was the oldest is the tree now. -/
  newest : ∀ k, st'.store.file (st.store.recent + 1) k =
    if k ∈ keys then some v else st.store.bintree.lookup k
  /-- The two oldest files are merged. -/
  oldest : st'.store.file (st.store.recent + 2) =
    compact isTomb (st.store.file (st.store.recent + 2)) (st.store.file (st.store.recent + 1))
  /-- The other files are as they were. -/
  other : ∀ i, i ≠ st.store.recent + 1 → i ≠ st.store.recent + 2 → st'.store.file i = st.store.file i

/-- The writes make the tree large enough for a swap. -/
theorem wantsSwap_wrote {keys : List K} (hnodup : keys.Nodup) (hlen : maxTreeSize ≤ keys.length) (v : V)
    (h : s.WF) (hwf : (wrote keys v s).WF) (hr : s.reserve = none) :
    wantsSwap (wrote keys v s) = true := by
  have hw := wroteKeys h keys v
  have hsize : keys.length ≤ (wrote keys v s).bintree.size :=
    BinaryTree.length_le_size hwf.bintree hnodup fun k hk ↦ by rw [hw.lookup, if_pos hk]; rfl
  rw [wantsSwap, hw.reserve, hr, Bool.and_eq_true]
  exact ⟨decide_eq_true (hlen.trans hsize), rfl⟩

/-- A batch that is not finished. -/
theorem run_openBatch {keys : List K} (hnodup : keys.Nodup) (hlen : maxTreeSize ≤ keys.length) (v' : V)
    (env : Env Time) (h : st.Inv Time m) (hcalm : st.Calm) {ops todo : List AdjustOp}
    (hops : adjustOps = ops ++ todo) :
    ∃ st', Runs.run Threads.step st
        (writes Time keys v' ++ ([.swap, .lock] ++ List.replicate ops.length (.work env))) = some st' ∧
      st'.holder = some todo := by
  obtain ⟨st', hrun, -⟩ := h.run
    (writes Time keys v' ++ ([.swap, .lock] ++ List.replicate ops.length (.work env)))
  refine ⟨st', hrun, ?_⟩
  obtain ⟨s, waiting, holder⟩ := st
  obtain ⟨rfl, rfl, hr⟩ := hcalm
  obtain ⟨st₁, hrun₁, hinv₁⟩ := h.run (writes Time keys v')
  rw [run_writes] at hrun₁
  cases hrun₁
  have hwants := wantsSwap_wrote hnodup hlen v' h.wf hinv₁.wf hr
  simp only [Runs.run_append, run_writes, Option.bind_some, Runs.run_cons, Runs.run_nil, Threads.step,
    hwants, if_true, ne_eq, not_false_eq_true, and_self, Nat.zero_add, Nat.sub_self, one_ne_zero, hops,
    run_works] at hrun
  obtain ⟨s', -, rfl⟩ := Option.map_eq_some_iff.mp hrun
  rfl

/-- **A batch writes the tree to the ring.** -/
theorem run_batch {keys : List K} (hnodup : keys.Nodup) (hlen : maxTreeSize ≤ keys.length) (v : V)
    (env : Env Time) (h : st.Inv Time m) (hcalm : st.Calm) :
    ∃ st', Runs.run Threads.step st (batch keys v env) = some st' ∧ Batched keys v st st' ∧
      st'.Inv Time ((batch keys v env).foldl Action.note m) := by
  obtain ⟨st', hrun, hinv⟩ := h.run (batch keys v env)
  refine ⟨st', hrun, ?_, hinv⟩
  obtain ⟨s, waiting, holder⟩ := st
  obtain ⟨rfl, rfl, hr⟩ := hcalm
  dsimp only at hr
  obtain ⟨st₁, hrun₁, hinv₁⟩ := h.run (writes Time keys v)
  rw [run_writes] at hrun₁
  cases hrun₁
  have hw := wroteKeys h.wf keys v
  have hwf₁ : (wrote keys v s).WF := hinv₁.wf
  have hwants := wantsSwap_wrote hnodup hlen v h.wf hwf₁ hr
  have hwf₂ : (swap (wrote keys v s)).WF := hwf₁.swap
  have hworks := run_works env adjustOps [] (swap (wrote keys v s)) 0
  rw [List.append_nil, show runOps env adjustOps _ = adjust env _ from rfl,
    adjust_eq env hwf₂ reserve_swap, Option.map_some] at hworks
  simp only [batch, Runs.run_append, run_writes, Option.bind_some, Runs.run_cons, Runs.run_nil,
    Threads.step, hwants, if_true, ne_eq, not_false_eq_true, and_self,
    Nat.zero_add, Nat.sub_self, hworks, Option.some.injEq, one_ne_zero] at hrun
  subst hrun
  have hfile₂ : (swap (wrote keys v s)).file = s.file :=
    (funext fun i ↦ file_swap hwf₁ i).trans hw.file
  have hfile := file_adjusted env hwf₂ (t := (wrote keys v s).bintree) reserve_swap
  have hrecent : (swap (wrote keys v s)).recent = s.recent := hw.recent
  rw [hfile₂, hrecent] at hfile
  refine ⟨⟨rfl, rfl, rfl⟩, ?_, ?_, ?_, fun k ↦ ?_, ?_, fun i h1 h2 ↦ ?_⟩
  · exact congrArg (· + 1) hrecent
  · exact congrArg (· + 1) hw.current
  · exact root_swap
  · dsimp only
    rw [hfile, if_pos rfl, hw.lookup]
  · dsimp only
    rw [hfile, if_neg (add_two_ne_add_one _), if_pos rfl]
  · dsimp only at h1 h2 ⊢
    rw [hfile, if_neg h1, if_neg h2]

/-! ## A key on its way round the ring

After enough batches of other keys the record is in the oldest file, and it is in no other. -/

variable {k : K} {v : V} {d : Fin numFiles}

/-- The only record of the key is in the file `d`, and no `adjust` is on its way. -/
structure Threads.OnlyAt (st : Threads) (k : K) (v : V) (d : Fin numFiles) : Prop where
  calm : st.Calm
  bintree : st.store.bintree.lookup k = none
  /-- No other file has the key. -/
  file : ∀ i, st.store.file i k = if i = d then some v else none

/-- **A batch of other keys** moves the record when it is in the oldest file. -/
theorem Threads.OnlyAt.batched {st' : Threads} {keys : List K} {v' : V} (h : st.OnlyAt k v d)
    (hb : Batched keys v' st st') (hk : k ∉ keys) (hv : v ≠ tombstone V) :
    st'.OnlyAt k v (if d = st.store.recent + 1 then st.store.recent + 2 else d) := by
  have hlive : live isTomb (some v) = some v :=
    live_eq_some_iff.mpr ⟨rfl, Bool.eq_false_iff.mpr fun htomb ↦ hv (isTomb_iff.mp htomb)⟩
  have hne := add_two_ne_add_one st.store.recent
  refine ⟨hb.calm, BinaryTree.lookup_of_nil hb.bintree k, fun i ↦ ?_⟩
  by_cases h1 : i = st.store.recent + 1
  · rw [h1, hb.newest, if_neg hk, h.bintree]
    split_ifs with hd hi hi
    · exact absurd hi hne.symm
    · rfl
    · exact absurd hi.symm hd
    · rfl
  · by_cases h2 : i = st.store.recent + 2
    · rw [h2, hb.oldest, compact, h.file, h.file]
      by_cases hd : d = st.store.recent + 1
      · simp [hd, hne, hlive]
      · by_cases hd2 : st.store.recent + 2 = d
        · simp [hd2, hd, hlive]
        · simp [hd2, hd, Ne.symm hd]
    · rw [hb.other i h1 h2, h.file]
      by_cases hd : d = st.store.recent + 1
      · simp [hd, h1, h2]
      · simp [hd]

/-- The same batch some times in a row. -/
def batches (n : ℕ) (keys : List K) (v : V) (env : Env Time) : List (Action Time) :=
  (List.replicate n (batch keys v env)).flatten

omit [TimeFormat Time] in
/-- Actions that do not write to a key. -/
theorem foldl_note {actions : List (Action Time)} (h : ∀ a ∈ actions, ∀ m, a.note m k = m k)
    (m : K → Option V) : actions.foldl Action.note m k = m k := by
  induction actions generalizing m with
  | nil => rfl
  | cons a actions ih =>
    rw [List.foldl_cons, ih (fun a' ha' ↦ h a' (List.mem_cons_of_mem _ ha')), h a (by simp)]

omit [TimeFormat Time] in
theorem note_of_mem_writes {keys : List K} (hk : k ∉ keys) {v' : V} {a : Action Time}
    (ha : a ∈ writes Time keys v') (m : K → Option V) : a.note m k = m k := by
  obtain ⟨k', hk', rfl⟩ := List.mem_map.mp ha
  rw [Action.note, Function.update_of_ne]
  rintro rfl
  exact hk hk'

omit [TimeFormat Time] in
/-- A batch does not write to other keys. -/
theorem note_batch {keys : List K} (hk : k ∉ keys) (v' : V) (env : Env Time) (m : K → Option V) :
    (batch keys v' env).foldl Action.note m k = m k := by
  refine foldl_note (fun a ha m ↦ ?_) m
  rw [batch, List.mem_append] at ha
  rcases ha with ha | ha
  · exact note_of_mem_writes hk ha m
  · simp only [List.mem_append, List.mem_cons, List.not_mem_nil, or_false, List.mem_replicate] at ha
    rcases ha with (rfl | rfl) | ⟨-, rfl⟩ | rfl <;> rfl

omit [TimeFormat Time] in
theorem note_batches {keys : List K} (hk : k ∉ keys) (v' : V) (env : Env Time) (m : K → Option V)
    (n : ℕ) : (batches n keys v' env).foldl Action.note m k = m k := by
  induction n generalizing m with
  | zero => rfl
  | succ n ih =>
    rw [batches, List.replicate_succ, List.flatten_cons, List.foldl_append]
    exact (ih _).trans (note_batch hk v' env m)

/-- **Some batches of other keys** leave the record where it is until it is in the oldest file. -/
theorem run_batches {keys : List K} (hnodup : keys.Nodup) (hlen : maxTreeSize ≤ keys.length)
    (hk : k ∉ keys) (hv : v ≠ tombstone V) (v' : V) (env : Env Time) (n : ℕ) (h : st.Inv Time m)
    (hat : st.OnlyAt k v d) (hd : ∀ j < n, d ≠ st.store.recent + Fin.ofNat numFiles j + 1) :
    ∃ st', Runs.run Threads.step st (batches n keys v' env) = some st' ∧ st'.OnlyAt k v d ∧
      st'.store.recent = st.store.recent + Fin.ofNat numFiles n ∧
      st'.Inv Time ((batches n keys v' env).foldl Action.note m) := by
  induction n generalizing st m with
  | zero => exact ⟨st, rfl, hat, by simp, h⟩
  | succ n ih =>
    obtain ⟨st₁, hrun₁, hb, hinv₁⟩ := run_batch hnodup hlen v' env h hat.calm
    have hat₁ := hat.batched hb hk hv
    have hd0 : d ≠ st.store.recent + 1 := by simpa using hd 0 (Nat.succ_pos n)
    rw [if_neg hd0] at hat₁
    have hadd : ∀ j, st₁.store.recent + Fin.ofNat numFiles j =
        st.store.recent + Fin.ofNat numFiles (j + 1) := by
      intro j
      rw [hb.recent]
      apply Fin.ext
      change ((st.store.recent.val + 1) % 10 + j % 10) % 10 = (st.store.recent.val + (j + 1) % 10) % 10
      omega
    obtain ⟨st₂, hrun₂, hat₂, hrecent, hinv₂⟩ := ih hinv₁ hat₁ fun j hj ↦ by
      rw [hadd]
      exact hd (j + 1) (Nat.succ_lt_succ hj)
    rw [batches, List.replicate_succ, List.flatten_cons, List.foldl_append, Runs.run_append, hrun₁]
    exact ⟨st₂, hrun₂, hat₂, hrecent.trans (hadd n), hinv₂⟩

/-- One write and a batch of other keys in a fresh store. -/
theorem run_first {keys : List K} (hnodup : keys.Nodup) (hlen : maxTreeSize ≤ keys.length)
    (hk : k ∉ keys) (v : V) (v' : V) (env : Env Time) (h : Fresh Time s) :
    ∃ st, Runs.run Threads.step ⟨s, 0, none⟩ (.write k v :: batch keys v' env) = some st ∧
      st.OnlyAt k v (s.recent + 1) ∧ st.store.recent = s.recent + 1 ∧
      st.Inv Time (lastWritten (.write k v :: batch keys v' env)) := by
  have hinv := h.inv.write k v
  have hcalm : (Threads.mk (dbwrite k v s) 0 none).Calm := ⟨rfl, rfl, h.reserve⟩
  obtain ⟨st, hrun, hb, hinv'⟩ := run_batch hnodup hlen v' env hinv hcalm
  have hfile : ∀ i, (dbwrite k v s).file i k = none := by
    intro i
    rw [file_dbwrite k v h.wf, h.file_eq]
  refine ⟨st, hrun, ⟨hb.calm, BinaryTree.lookup_of_nil hb.bintree k, fun i ↦ ?_⟩, hb.recent,
    hinv'⟩
  by_cases h1 : i = s.recent + 1
  · rw [h1, if_pos rfl]
    refine (hb.newest k).trans ?_
    rw [if_neg hk]
    exact (lookup_dbwrite k v h.wf k).trans (if_pos rfl)
  · rw [if_neg h1]
    by_cases h2 : i = s.recent + 2
    · rw [h2]
      refine (congrFun hb.oldest k).trans ?_
      dsimp only
      rw [compact, hfile, hfile]
      rfl
    · exact (congrFun (hb.other i h1 h2) k).trans (hfile i)

end Master

end ScratchStore
