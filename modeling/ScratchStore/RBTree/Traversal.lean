import ScratchStore.Master.KeyValue
import ScratchStore.RBTree.History
import ScratchStore.RBTree.Reachable

/-!
# Traversals that are interrupted

`_inorder` returns one node at a time, and keeps in `stk` what it needs to go on.  Other calls come in between,
of which `dump`, `fromFile` and `_free` end the traversal and `insert` and `del` do not.

Whatever comes, the stack holds nodes of the tree (`OnTree`), so a call of `_inorder` never follows a dangling
pointer.  Where only insertions and deletions come, a traversal returns every key that was there when
it began, in order and once, and ends: `traversal_run`.

* `Linked.visits` is what the calls of `_inorder` return in a run, with the keys in place of the nodes.
* `Represents.resume` is one call in terms of `Progress.pop`, and `Represents.walk_run` any calls up to the one
  that returns `NULL`.
* `Traversed` says the rest: the keys ascend, so none is returned twice, and when the traversal ends all
  that were there in the beginning have been returned.
-/

set_option autoImplicit false

namespace ScratchStore

open SortedAssoc CellHeap ScratchStore.Tree

variable {K V Time : Type}

namespace Linked

/-- The calls that leave a traversal where it is. -/
def Op.Edits : Op K V Time → Prop
  | .insert _ _ | .del _ _ => True
  | _ => False

/-- What a call of `_inorder` returns, with the key in place of the node.  The node is there, for
`_inorder` itself reads its right link. -/
def returned (s : Linked K V) : Op K V Time → List (Option K)
  | .inorder =>
    match s.inorder with
    | none => []
    | some (n, s') => [n.bind fun n ↦ (s'.heap n).map Cell.key]
  | _ => []

theorem Op.Edits.returned {op : Op K V Time} (hop : op.Edits) (s : Linked K V) : s.returned op = [] := by
  cases op with
  | inorder => exact hop.elim
  | _ => rfl

section Visits

variable [LinearOrder K] [Pod K] [Pod V] [TimeFormat Time]

/-- What the calls of `_inorder` return in a run. -/
def visits : Linked K V → List (Op K V Time) → List (Option K)
  | _, [] => []
  | s, op :: ops => s.returned op ++ (s.step op).elim [] fun s' ↦ visits s' ops

theorem visits_cons {s s' : Linked K V} {op : Op K V Time} (hstep : s.step op = some s')
    (ops : List (Op K V Time)) :
    s.visits (op :: ops) = s.returned op ++ s'.visits ops := by
  rw [visits, hstep, Option.elim_some]

end Visits

/-- **The next call of `_inorder` returns the node with the smallest key**, or `NULL` if there is none. -/
def StartsAtSmallest [LinearOrder K] (s : Linked K V) : Prop :=
  ∃ n s', s.inorder = some (n, s') ∧
    match n with
    | none => s.root = none
    | some a => ∃ c, s.HasNode a c ∧ ∀ b d, s.HasNode b d → c.key ≤ d.key

/-- **How far a traversal has come** that began in `s` and has returned `ks` when the tree is `s'`.  When it has
returned as many keys as there are nodes, the next call ends it.  Once it ends, every key that was there
when it began was returned once, and the next call starts anew, unless another one came before it. -/
structure Traversed (Time : Type) [TimeFormat Time] [LinearOrder K] [Pod K] [Pod V] (s s' : Linked K V)
    (ks : List K) : Prop where
  ascending : ks.Pairwise (· < ·)
  /-- Every key that was returned is one of the tree. -/
  present : ∀ k ∈ ks, ∃ a c, s'.HasNode a c ∧ c.key = k
  /-- There are no more of them than nodes, so the traversal ends. -/
  bounded : ∃ nodes : List ℕ, nodes.Nodup ∧ (∀ a, a ∈ nodes ↔ Reach s'.heap s'.root a) ∧
    ks.length ≤ nodes.length ∧ (ks.length = nodes.length → ∃ s'', s'.inorder = some (none, s''))
  /-- When it has ended, each node that was there in the beginning was returned once, and the next call
  begins anew. -/
  ended : ∀ s'', s'.inorder = some (none, s'') →
    (∀ a c, s.HasNode a c → ks.count c.key = 1) ∧
      ∀ (ops : List (Op K V Time)) s₃, (∀ op ∈ ops, op ≠ .inorder) →
        Runs.run step s'' ops = some s₃ → s₃.StartsAtSmallest

end Linked

/-! ## One call of `_inorder` -/

namespace Represents

variable [LinearOrder K] {s s' : Linked K V} {t t' : BinaryTree K V} {fs fs' : FS} {start ks : List K}

theorem key_mem_iff (h : Represents s t fs) {k : K} :
    k ∈ t.root.entries.map Prod.fst ↔ ∃ a c, s.HasNode a c ∧ c.key = k := by
  rw [← map_cellEntry, List.map_map, List.mem_map]
  constructor
  · rintro ⟨⟨a, c⟩, hc, rfl⟩
    exact ⟨a, c, h.hasNode_iff.mpr hc, rfl⟩
  · rintro ⟨a, c, hc, rfl⟩
    exact ⟨(a, c), h.hasNode_iff.mp hc, rfl⟩

/-- A node on the way to some place. -/
theorem hasNode_of_plug (h : Represents s t fs) {l r : Tree K V} {n : Node K V} {path : List (Frame K V)}
    (hplug : plug (node l n r) path = t.root) : s.HasNode n.addr (cell n l.ptr r.ptr).2 :=
  h.hasNode_iff.mpr (hplug ▸ cell_mem_plug ⟨l, n, r, path⟩ path)

/-- A left spine is pushed. -/
theorem pushLeft (h : Represents s t fs) {u : Tree K V} {path : List (Frame K V)} (hplug : plug u path = t.root)
    (stk : List ℕ) : Linked.pushLeft s.heap s.next u.ptr stk = some (u.spine ++ stk) := by
  have hperm : t.root.cells.Perm (u.cells ++ frameCells u.ptr path) := hplug ▸ cells_plug u path
  have hlen : u.toList.length ≤ t.root.toList.length := by
    rw [← length_cells, ← length_cells, hperm.length_eq, List.length_append]
    exact Nat.le_add_right _ _
  exact Linked.pushLeft_eq (h.holds.perm hperm) (List.sublist_append_left _ _) (hlen.trans h.length_le) stk

/-- **A call in the middle of a traversal.** -/
theorem resume (h : Represents s t fs) (hs : s.traversalStarted = true) (hp : Progress t.root s.stk start ks) :
    (s.inorder = some (none, { s with traversalStarted := false }) ∧ s.stk = [] ∧ ∀ k ∈ start, k ∈ ks) ∨
      ∃ a c stk, s.inorder = some (some a, { s with stk := stk }) ∧ s.HasNode a c ∧
        Progress t.root stk start (ks ++ [c.key]) := by
  rw [Linked.inorder, if_pos hs, Option.bind_some]
  cases hstk : s.stk with
  | nil =>
    rw [hstk] at hp
    exact Or.inl ⟨rfl, rfl, hp.mem_of_nil⟩
  | cons a stk =>
    rw [hstk] at hp
    obtain ⟨l, n, r, path, hplug, rfl, hnext⟩ := hp.pop h.ascending
    have hnode := h.hasNode_of_plug hplug
    have hright : plug r (.right l n :: path) = t.root := hplug
    refine Or.inr ⟨n.addr, _, r.spine ++ stk, ?_, hnode, hnext⟩
    dsimp only
    rw [hnode.2, Option.bind_some]
    exact congrArg (Option.map _) (h.pushLeft hright stk)

/-- A traversal that is about to begin, or under way. -/
def Walks (s : Linked K V) (t : BinaryTree K V) (start ks : List K) : Prop :=
  if s.traversalStarted then Progress t.root s.stk start ks
  else start = t.root.entries.map Prod.fst ∧ ks = []

/-- **A call.** -/
theorem next (h : Represents s t fs) (hw : Walks s t start ks) :
    (∃ s', s.inorder = some (none, s') ∧ s'.stk = [] ∧ s'.traversalStarted = false ∧ ∀ k ∈ start, k ∈ ks) ∨
      ∃ a c s', s.inorder = some (some a, s') ∧ s.HasNode a c ∧ s'.heap = s.heap ∧
        s'.traversalStarted = true ∧ Progress t.root s'.stk start (ks ++ [c.key]) := by
  cases hs : s.traversalStarted with
  | true =>
    rw [Walks, if_pos hs] at hw
    rcases h.resume hs hw with ⟨heq, hstk, hall⟩ | ⟨a, c, stk, heq, hnode, hnext⟩
    · exact Or.inl ⟨_, heq, hstk, rfl, hall⟩
    · exact Or.inr ⟨a, c, _, heq, hnode, rfl, hs, hnext⟩
  | false =>
    rw [Walks, hs] at hw
    obtain ⟨rfl, rfl⟩ := hw
    -- the call goes on as if it had been under way at the leftmost place
    have hbegin : s.inorder = { s with traversalStarted := true, stk := t.root.spine }.inorder := by
      have hpush := h.pushLeft (show plug t.root [] = t.root from rfl) []
      rw [← h.root_eq, List.append_nil] at hpush
      rw [Linked.inorder, Linked.inorder, hs, hpush]
      rfl
    have h₁ : Represents { s with traversalStarted := true, stk := t.root.spine }
        { t with traversalStarted := true, stk := t.root.spine } fs :=
      h.of_members { h.members with started_eq := rfl, stk_eq := rfl }
    rw [hbegin]
    rcases h₁.resume rfl (Progress.first t.root) with ⟨heq, hstk, hall⟩ | ⟨a, c, stk, heq, hnode, hnext⟩
    · exact Or.inl ⟨_, heq, hstk, rfl, hall⟩
    · exact Or.inr ⟨a, c, _, heq, hnode, rfl, rfl, hnext⟩

theorem walks_of_not_started (hs : s.traversalStarted = false) (t : BinaryTree K V) :
    Walks s t (t.root.entries.map Prod.fst) [] := by
  rw [Walks, hs]
  exact ⟨rfl, rfl⟩

/-- **A traversal starts at the smallest key.** -/
theorem startsAtSmallest (h : Represents s t fs) (hs : s.traversalStarted = false) : s.StartsAtSmallest := by
  rcases h.next (walks_of_not_started hs t) with ⟨s', heq, -, -, hall⟩ | ⟨a, c, s', heq, hnode, -, -, hnext⟩
  · refine ⟨none, s', heq, ?_⟩
    have hnil : t.root.entries.map Prod.fst = [] := List.eq_nil_iff_forall_not_mem.mpr fun k hk ↦ nomatch hall k hk
    rw [List.map_eq_nil_iff, entries_eq_nil_iff] at hnil
    dsimp only
    rw [h.root_eq, hnil, ptr]
  · refine ⟨some a, s', heq, c, hnode, fun b d hd ↦ ?_⟩
    have hstart := h.key_mem_iff.mpr ⟨b, d, hd, rfl⟩
    by_cases hmem : d.key ∈ [] ++ [c.key]
    · exact (List.mem_singleton.mp hmem).ge
    · exact (hnext.lt_of_notMem h.ascending hstart hmem (List.mem_singleton.mpr rfl)).le

end Represents

/-! ## The stack -/

section OnTree

theorem Tree.exists_cell_of_mem_leftAddrs {path : List (Frame K V)} {a : ℕ} (h : a ∈ leftAddrs path)
    (p : Option ℕ) : ∃ c, (a, c) ∈ frameCells p path := by
  induction path generalizing p with
  | nil => cases h
  | cons f path ih =>
    cases f with
    | left n r =>
      rcases List.mem_cons.mp h with rfl | h
      · exact ⟨_, List.mem_cons_self⟩
      · obtain ⟨c, hc⟩ := ih h (some n.addr)
        exact ⟨c, List.mem_cons_of_mem _ (List.mem_append_right _ hc)⟩
    | right l n =>
      obtain ⟨c, hc⟩ := ih h (some n.addr)
      exact ⟨c, List.mem_cons_of_mem _ (List.mem_append_right _ hc)⟩

variable [LinearOrder K] {s s' : Linked K V}

/-- **The stack holds nodes of the tree.** -/
def Linked.OnTree (s : Linked K V) : Prop := ∃ t fs, Represents s t fs ∧ Progress t.root s.stk [] []

theorem Linked.OnTree.hasNode (h : s.OnTree) : ∀ a ∈ s.stk, ∃ c, s.HasNode a c := by
  obtain ⟨t, fs, h, hp⟩ := h
  obtain ⟨hole, path, hplug, hstk, -, -⟩ := hp.place
  intro a ha
  obtain ⟨c, hc⟩ := exists_cell_of_mem_leftAddrs (hstk ▸ ha) hole.ptr
  have hmem := (cells_plug hole path).mem_iff.mpr (List.mem_append_right _ hc)
  exact ⟨c, h.hasNode_iff.mpr (hplug ▸ hmem)⟩

/-- A traversal in which nothing is asked for. -/
theorem Linked.OnTree.walks (h : s.OnTree) :
    ∃ t fs start ks, Represents s t fs ∧ Represents.Walks s t start ks := by
  obtain ⟨t, fs, h, hp⟩ := h
  cases hs : s.traversalStarted with
  | true => exact ⟨t, fs, [], [], h, (if_pos hs).mpr hp⟩
  | false => exact ⟨t, fs, _, [], h, Represents.walks_of_not_started hs t⟩

/-- **`_inorder` returns.** -/
theorem Linked.OnTree.exists_inorder (h : s.OnTree) : ∃ n s', s.inorder = some (n, s') := by
  obtain ⟨t, fs, start, ks, h, hw⟩ := h.walks
  rcases h.next hw with ⟨s', heq, -⟩ | ⟨a, c, s', heq, -⟩
  · exact ⟨none, s', heq⟩
  · exact ⟨some a, s', heq⟩

theorem Linked.OnTree.inorder (h : s.OnTree) {n : Option ℕ} (hs : s.inorder = some (n, s')) : s'.OnTree := by
  obtain ⟨t, fs, start, ks, h, hw⟩ := h.walks
  refine ⟨_, fs, h.inorder hs, ?_⟩
  rcases h.next hw with ⟨s₁, heq, hstk, -⟩ | ⟨a, c, s₁, heq, -, -, -, hnext⟩
  · cases heq.symm.trans hs
    rw [hstk]
    exact Progress.nil _
  · cases heq.symm.trans hs
    exact hnext.weaken

variable [Pod K] [Pod V] [TimeFormat Time]

/-- **One call.** -/
theorem Linked.OnTree.step (h : s.OnTree) {op : Linked.Op K V Time} (hstep : s.step op = some s') : s'.OnTree := by
  by_cases hop : op = .inorder
  · subst hop
    obtain ⟨⟨n, s₁⟩, heq, rfl⟩ := Option.map_eq_some_iff.mp hstep
    exact h.inorder heq
  · obtain ⟨t, fs, h, hp⟩ := h
    obtain ⟨t', fs', h', -, hwalk⟩ := h.step hstep
    refine ⟨t', fs', h', ?_⟩
    rw [h'.members.stk_eq]
    rw [h.members.stk_eq] at hp
    rcases hwalk hop with hgrows | hrest
    · rw [hgrows.stk_eq]
      exact hp.grow hgrows.extends_root
    · rw [hrest.stk_eq]
      exact Progress.nil _

/-- Calls other than `_inorder` begin no traversal. -/
theorem Linked.not_started_run {ops : List (Linked.Op K V Time)} (hops : ∀ op ∈ ops, op ≠ .inorder)
    (h : ∃ t fs, Represents s t fs ∧ s.traversalStarted = false) (hrun : Runs.run Linked.step s ops = some s') :
    ∃ t fs, Represents s' t fs ∧ s'.traversalStarted = false := by
  have hkeep : ∀ (s : Linked K V) (op : Linked.Op K V Time) (s' : Linked K V), op ∈ ops →
      (∃ t fs, Represents s t fs ∧ s.traversalStarted = false) → s.step op = some s' →
        ∃ t fs, Represents s' t fs ∧ s'.traversalStarted = false := by
    rintro s op s' hop ⟨t, fs, h, hs⟩ hstep
    obtain ⟨t', fs', h', -, hwalk⟩ := h.step hstep
    refine ⟨t', fs', h', ?_⟩
    rw [h'.members.started_eq]
    rw [h.members.started_eq] at hs
    rcases hwalk (hops op hop) with hgrows | hrest
    · exact hgrows.started_eq.trans hs
    · exact hrest.started_eq
  exact Runs.run_invariant_of_mem hkeep h hrun

end OnTree

/-! ## A traversal

Between two calls of `_inorder` the tree may get new nodes and marks, but no node is moved or removed.
So the stack stays what it was: nodes that come after the place of the traversal, in order. -/

namespace Represents

variable [LinearOrder K] [Pod K] [Pod V] [TimeFormat Time] {s s' : Linked K V} {t t' : BinaryTree K V}
  {fs fs' : FS} {start ks : List K}

/-- **An insertion or a deletion.** -/
theorem edit (h : Represents s t fs) {op : Linked.Op K V Time} (hop : op.Edits) :
    ∃ s' t' fs', s.step op = some s' ∧ Represents s' t' fs' ∧ t.Grows t' := by
  cases op with
  | insert k v =>
    obtain ⟨s', hs', h'⟩ := h.insert k v
    exact ⟨s', _, _, hs', h', BinaryTree.grows_insert h.ascending k v fs⟩
  | del k dummy =>
    obtain ⟨r, s', hs', -, h'⟩ := h.del k dummy
    exact ⟨s', _, _, by rw [Linked.step, hs', Option.map_some], h', BinaryTree.grows_del h.ascending k dummy fs⟩
  | dump f now dummy => exact hop.elim
  | fromFile fuel dummy fname now => exact hop.elim
  | inorder => exact hop.elim
  | free => exact hop.elim
  | setLogFile name => exact hop.elim

/-- **A call that does not end it.** -/
theorem next_visits (h : Represents s t fs) (hw : Walks s t start ks) {calls : List (Linked.Op K V Time)}
    {new : List K} (hnew : s.visits (.inorder :: calls) = new.map some) :
    ∃ k new' s₁ t₁ fs₁, new = k :: new' ∧ s.step (.inorder : Linked.Op K V Time) = some s₁ ∧
      Represents s₁ t₁ fs₁ ∧ s₁.traversalStarted = true ∧ Progress t₁.root s₁.stk start (ks ++ [k]) ∧
        s₁.visits calls = new'.map some := by
  rcases h.next hw with ⟨s₁, heq, -⟩ | ⟨a, c, s₁, heq, hnode, hheap, hstarted, hnext⟩
  · have hstep : s.step (.inorder : Linked.Op K V Time) = some s₁ := by rw [Linked.step, heq, Option.map_some]
    rw [Linked.visits_cons hstep, Linked.returned, heq] at hnew
    cases new <;> simp at hnew
  · have hstep : s.step (.inorder : Linked.Op K V Time) = some s₁ := by rw [Linked.step, heq, Option.map_some]
    have hkey : (s₁.heap a).map Cell.key = some c.key := by rw [hheap, hnode.2, Option.map_some]
    rw [Linked.visits_cons hstep, Linked.returned, heq] at hnew
    dsimp only at hnew
    rw [Option.bind_some, hkey, List.singleton_append] at hnew
    cases new with
    | nil => simp at hnew
    | cons k new =>
      rw [List.map_cons, List.cons.injEq, Option.some_inj] at hnew
      obtain ⟨rfl, hnew⟩ := hnew
      exact ⟨_, new, s₁, _, _, rfl, hstep, h.inorder heq, hstarted, hnext, hnew⟩

/-- **A traversal under way**, as long as it does not end. -/
theorem walk_run (h : Represents s t fs) (hs : s.traversalStarted = true) (hp : Progress t.root s.stk start ks)
    {calls : List (Linked.Op K V Time)} (hcalls : ∀ op ∈ calls, op.Edits ∨ op = .inorder)
    (hrun : Runs.run Linked.step s calls = some s') {new : List K} (hnew : s.visits calls = new.map some) :
    ∃ t' fs', Represents s' t' fs' ∧ s'.traversalStarted = true ∧ Progress t'.root s'.stk start (ks ++ new) := by
  induction calls generalizing s t fs ks new with
  | nil =>
    cases hrun
    have hnil : new = [] := List.map_eq_nil_iff.mp hnew.symm
    rw [hnil, List.append_nil]
    exact ⟨t, fs, h, hs, hp⟩
  | cons op calls ih =>
    have hrest : ∀ op ∈ calls, op.Edits ∨ op = .inorder := fun op hop ↦ hcalls op (List.mem_cons_of_mem _ hop)
    rw [Runs.run_cons] at hrun
    rcases hcalls op List.mem_cons_self with hop | rfl
    · obtain ⟨s₁, t₁, fs₁, hs₁, h₁, hgrows⟩ := h.edit hop
      rw [hs₁] at hrun
      rw [Linked.visits_cons hs₁, hop.returned, List.nil_append] at hnew
      have hstarted : s₁.traversalStarted = true := by
        rw [h₁.members.started_eq, hgrows.started_eq, ← h.members.started_eq, hs]
      have hp₁ : Progress t₁.root s₁.stk start ks := by
        rw [h₁.members.stk_eq, hgrows.stk_eq, ← h.members.stk_eq]
        exact hp.grow hgrows.extends_root
      exact ih h₁ hstarted hp₁ hrest hrun hnew
    · obtain ⟨k, new', s₁, t₁, fs₁, rfl, hs₁, h₁, hstarted, hp₁, hnew'⟩ := h.next_visits ((if_pos hs).mpr hp) hnew
      rw [hs₁] at hrun
      obtain ⟨t', fs', h', hs', hp'⟩ := ih h₁ hstarted hp₁ hrest hrun hnew'
      exact ⟨t', fs', h', hs', by rwa [List.append_assoc] at hp'⟩

/-- **How far it has come.** -/
theorem traversed (h : Represents s t fs) (h' : Represents s' t' fs')
    (hw : Walks s' t' (t.root.entries.map Prod.fst) ks) : Linked.Traversed Time s s' ks := by
  have hkeys : ks.Pairwise (· < ·) ∧ ks ⊆ t'.root.entries.map Prod.fst ∧ ks.length ≤ t'.root.entries.length := by
    rw [Walks] at hw
    split_ifs at hw
    · exact ⟨hw.ascending, hw.subset_keys, hw.length_le⟩
    · rw [hw.2]
      exact ⟨.nil, nofun, Nat.zero_le _⟩
  have haddrs : t'.root.addrs.length = t'.root.entries.length := by
    rw [Tree.addrs, Tree.entries, List.length_map, List.length_map]
  refine ⟨hkeys.1, fun k hk ↦ h'.key_mem_iff.mp (hkeys.2.1 hk),
    ⟨t'.root.addrs, h'.nodup_addrs, fun a ↦ h'.reach_iff.symm, haddrs ▸ hkeys.2.2, fun hlen ↦ ?_⟩,
    fun s'' hs'' ↦ ?_⟩
  · rcases h'.next hw with ⟨s₁, heq, -⟩ | ⟨a, c, s₁, -, -, -, -, hnext⟩
    · exact ⟨s₁, heq⟩
    · have hle := hnext.length_le
      rw [List.length_append, List.length_singleton, hlen, haddrs] at hle
      omega
  · rcases h'.next hw with ⟨s₁, heq, -, hstarted, hall⟩ | ⟨a, c, s₁, heq, -⟩
    · cases heq.symm.trans hs''
      refine ⟨fun a c hc ↦ ?_, fun ops s₃ hops hrun ↦ ?_⟩
      · exact List.count_eq_one_of_mem (hkeys.1.imp fun hlt ↦ hlt.ne) (hall _ (h.key_mem_iff.mpr ⟨a, c, hc, rfl⟩))
      · obtain ⟨t₃, fs₃, h₃, hs₃⟩ := Linked.not_started_run hops ⟨_, _, h'.inorder hs'', hstarted⟩ hrun
        exact h₃.startsAtSmallest hs₃
    · cases heq.symm.trans hs''

end Represents

/-! ## Every run -/

namespace Linked

/-- A call that a traversal allows returns. -/
theorem OnTree.exists_step [LinearOrder K] [Pod K] [Pod V] [TimeFormat Time] {s : Linked K V} (h : s.OnTree)
    {op : Op K V Time} (hop : op.Edits ∨ op = .inorder) : ∃ s', s.step op = some s' ∧ s'.OnTree := by
  obtain ⟨s', hs'⟩ : ∃ s', s.step op = some s' := by
    rcases hop with hop | rfl
    · obtain ⟨t, fs, h, -⟩ := h
      obtain ⟨s', -, -, hs', -⟩ := h.edit hop
      exact ⟨s', hs'⟩
    · obtain ⟨n, s', hs'⟩ := h.exists_inorder
      exact ⟨s', by rw [Linked.step, hs', Option.map_some]⟩
  exact ⟨s', hs', h.step hs'⟩

variable [LinearOrder K]

theorem onTree_make (fs : FS) (c : Constructor K V) : (c.make fs).OnTree := by
  have hstk : (c.tree fs).1.stk = [] := by
    cases c with
    | empty => rfl
    | logFile _logfile => exact (BinaryTree.grows_setLogFile _ _ _).stk_eq
    | node k v del => rfl
    | keyValue k v => rfl
  refine ⟨_, _, represents_make fs c, ?_⟩
  rw [(represents_make fs c).members.stk_eq, hstk]
  exact Progress.nil _

variable [Pod K] [Pod V] [TimeFormat Time]

/-- **Traversals**, after any calls.  The stack holds nodes of the tree and a call of `_inorder` returns.  Where
no traversal is under way the next call begins one, and whatever is inserted and deleted between the calls
from then on, what they return is as `Traversed` says. -/
theorem traversal_run (fs : FS) (c : Constructor K V) (ops : List (Op K V Time)) {s : Linked K V}
    (hrun : Runs.run step (c.make fs) ops = some s) :
    (∀ a ∈ s.stk, ∃ c, s.HasNode a c) ∧ (∃ n s', s.inorder = some (n, s')) ∧
      (s.traversalStarted = false → s.StartsAtSmallest ∧
        ∀ calls : List (Op K V Time), (∀ op ∈ calls, op.Edits ∨ op = .inorder) →
          (∀ op ∈ calls.head?, op = .inorder) →
            ∃ s', Runs.run step s calls = some s' ∧
              ∀ ks, s.visits calls = ks.map some → Traversed Time s s' ks) := by
  have htree : s.OnTree := Runs.run_invariant (fun _ _ _ h hstep ↦ h.step hstep) (onTree_make fs c) hrun
  refine ⟨htree.hasNode, htree.exists_inorder, fun hs ↦ ?_⟩
  obtain ⟨t, fs', h, -⟩ := id htree
  refine ⟨h.startsAtSmallest hs, fun calls hcalls hhead ↦ ?_⟩
  obtain ⟨s', hrun', -⟩ := Runs.run_total_of_mem
    (fun s op hop hs ↦ OnTree.exists_step hs (hcalls op hop)) htree
  refine ⟨s', hrun', fun ks hks ↦ ?_⟩
  cases calls with
  | nil =>
    cases hrun'
    have hnil : ks = [] := List.map_eq_nil_iff.mp hks.symm
    rw [hnil]
    exact h.traversed h (Represents.walks_of_not_started hs t)
  | cons op calls =>
    obtain rfl : op = .inorder := hhead op rfl
    obtain ⟨k, ks', s₁, t₁, fs₁, rfl, hs₁, h₁, hstarted, hp₁, hks'⟩ :=
      h.next_visits (Represents.walks_of_not_started hs t) hks
    rw [Runs.run_cons, hs₁] at hrun'
    obtain ⟨t', fs', h', hs', hp'⟩ :=
      h₁.walk_run hstarted hp₁ (fun op hop ↦ hcalls op (List.mem_cons_of_mem _ hop)) hrun' hks'
    exact h.traversed h' ((if_pos hs').mpr hp')

section Interrupted

open Master (numbered zeroV oneV)

/-- Three keys, and a traversal of them with changes in between: a key before the place it has come to, one
after it, and the deletion of the last one. -/
def threeKeys : List (Op Master.K Master.V DaySecond) :=
  [.insert (numbered 2) zeroV, .insert (numbered 4) zeroV, .insert (numbered 6) zeroV]
def interrupted : List (Op Master.K Master.V DaySecond) :=
  [.inorder, .insert (numbered 5) oneV, .inorder, .del (numbered 6) zeroV, .insert (numbered 1) oneV, .inorder,
    .inorder]

/-- The new key after the place is returned, the one before it is not, and the deleted one is. -/
theorem traversal_run_interrupted : ∃ s s',
    Runs.run step (Constructor.empty.make FS.blank) threeKeys = some s ∧
      s.visits interrupted = [numbered 2, numbered 4, numbered 5, numbered 6].map some ∧
      Runs.run step s interrupted = some s' ∧
      Traversed DaySecond s s' [numbered 2, numbered 4, numbered 5, numbered 6] ∧
      ∃ s'', s'.inorder = some (none, s'') := by
  obtain ⟨s, hrun⟩ : ∃ s, Runs.run step (Constructor.empty.make FS.blank) threeKeys = some s := ⟨_, rfl⟩
  have hs : s.traversalStarted = false := by
    cases hrun
    rfl
  have hvisits : s.visits interrupted = [numbered 2, numbered 4, numbered 5, numbered 6].map some := by
    cases hrun
    rfl
  have hlast : (Runs.run step s interrupted).bind (fun s' ↦ s'.inorder.map Prod.fst) = some none := by
    cases hrun
    rfl
  have hcalls : ∀ op ∈ interrupted, op.Edits ∨ op = .inorder := by
    simp [interrupted, Op.Edits]
  obtain ⟨s', hrun', htraversed⟩ :=
    ((traversal_run _ _ _ hrun).2.2 hs).2 interrupted hcalls (by simp [interrupted])
  rw [hrun', Option.bind_some] at hlast
  obtain ⟨⟨n, s''⟩, hend, rfl⟩ := Option.map_eq_some_iff.mp hlast
  exact ⟨s, s', hrun, hvisits, hrun', htraversed _ hvisits, s'', hend⟩

end Interrupted

end Linked

end ScratchStore
