import ScratchStore.RBTree.Represents

/-!
# What calls do to the tree

A call of a method inserts nodes, marks them, or deletes all of them: these are `Basic`, and `basics` lists
them for each call.  A replay is a `_free` and one of them for each record that it reads back.

What the tree shows is then a fold over its history, from any tree and over any calls: `Represents.run`.  A walk
through the tree is kept or given up: `Represents.step` says so for each call but that of `_inorder`.

* `Basic.apply` is the whole effect on the entries and on `size`, by which insertion order, overwriting and
  marking are all told.
* `Represents.step` also says what becomes of a walk (`Grows` or `AtRest`), so that `RBTree.Traversal` need
  not look at the calls again.

A constructor that makes a tree of one node starts a history with that node; it has no call of its own.
-/

set_option autoImplicit false

namespace ScratchStore

open SortedAssoc

variable {K V : Type}

/-- What happens to the tree. -/
inductive Basic (K V : Type) where
  | insert (k : K) (v : V)
  | del (k : K)
  | free

/-- The entries of a tree, and its size. -/
def BinaryTree.shape (t : BinaryTree K V) : List (K × V × Bool) × ℕ := (t.root.entries, t.size)

/-- What a record of the log makes happen. -/
def LogEntry.basic (e : LogEntry K V) : Option (Basic K V) :=
  if e.1 = writeAction then some (.insert e.2.1 e.2.2) else if e.1 = delAction then some (.del e.2.1) else none

theorem BinaryTree.shape_setLogFile (t : BinaryTree K V) (name : String) (fs : FS) :
    (t.setLogFile name fs).1.shape = t.shape := by
  rw [BinaryTree.setLogFile]
  dsimp only
  split_ifs
  · rfl
  · split <;> rfl

namespace Linked.Constructor

/-- The constructors that make an empty tree. -/
def MakesEmpty : Constructor K V → Prop
  | .empty | .logFile _ => True
  | .node _ _ _ | .keyValue _ _ => False

theorem MakesEmpty.shape_tree {c : Constructor K V} (hc : c.MakesEmpty) (fs : FS) :
    (c.tree fs).1.shape = ([], 0) := by
  cases c with
  | empty => rfl
  | logFile _logfile => exact BinaryTree.shape_setLogFile _ _ fs
  | node k v del => exact hc.elim
  | keyValue k v => exact hc.elim

end Linked.Constructor

variable [LinearOrder K] [Pod V]

/-- What becomes of the entries and the size. -/
def Basic.apply (m : List (K × V × Bool) × ℕ) : Basic K V → List (K × V × Bool) × ℕ
  | insert k v => (upsert k (v, false) m.1, if (m.1.lookup k).isSome then m.2 else m.2 + 1)
  | del k => (if (m.1.lookup k).isSome then upsert k (tombstone V, true) m.1 else m.1, m.2)
  | free => ([], 0)

theorem Basic.ascending_apply {m : List (K × V × Bool) × ℕ} (h : Ascending m.1) (b : Basic K V) :
    Ascending (b.apply m).1 := by
  cases b with
  | insert k v => exact h.upsert k _
  | del k =>
    rw [Basic.apply]
    dsimp only
    split_ifs
    · exact h.upsert k _
    · exact h
  | free => exact ascending_nil

theorem Basic.ascending_foldl {m : List (K × V × Bool) × ℕ} (h : Ascending m.1) (bs : List (Basic K V)) :
    Ascending (bs.foldl Basic.apply m).1 := by
  induction bs generalizing m with
  | nil => exact h
  | cons b bs ih => exact ih (Basic.ascending_apply h b)

variable [Pod K]

namespace BinaryTree

variable {t : BinaryTree K V}

theorem shape_insert (h : Ascending t.root.entries) (k : K) (v : V) (fs : FS) :
    (t.insert k v fs).1.shape = (Basic.insert k v).apply t.shape := by
  rw [shape, entries_insert h, BinaryTree.insert, size_logAction, size_insertNode, search_isSome h]
  rfl

theorem shape_del (h : Ascending t.root.entries) (k : K) (dummy : V) (fs : FS) :
    (t.del k dummy fs).2.1.shape = (Basic.del k).apply t.shape := by
  have hsize : (t.del k dummy fs).2.1.size = t.size := by
    rw [BinaryTree.del]
    split
    · rfl
    · rw [size_logAction]
      rfl
  rw [shape, entries_del h, hsize]
  rfl

theorem shape_applyEntry (h : Ascending t.root.entries) (dummy : V) (fs : FS) (e : LogEntry K V) :
    (applyEntry dummy (t, fs) e).1.shape = e.basic.toList.foldl Basic.apply t.shape := by
  rw [applyEntry, LogEntry.basic]
  split_ifs
  · exact shape_insert h _ _ _
  · exact shape_del h _ _ _
  · rfl

theorem grows_applyEntry (h : Ascending t.root.entries) (dummy : V) (fs : FS) (e : LogEntry K V) :
    t.Grows (applyEntry dummy (t, fs) e).1 := by
  rw [applyEntry]
  split_ifs
  · exact grows_insert h _ _ _
  · exact grows_del h _ _ _
  · exact .refl t

end BinaryTree

namespace Linked

variable {Time : Type} [TimeFormat Time]

/-- What a call makes happen. -/
def basics (s : Linked K V) : Op K V Time → List (Basic K V)
  | .insert k v => [.insert k v]
  | .del k _ => [.del k]
  | .fromFile fuel _ fname now =>
    match (s.renamed fname now).fs.content fname with
    | none => []
    | some bs =>
      match BinaryTree.readBack K V fuel bs with
      | .error _ => []
      | .ok es => .free :: es.filterMap LogEntry.basic
  | .free => [.free]
  | .dump _ _ _ | .inorder | .setLogFile _ => []

/-- What happens in a run. -/
def history : Linked K V → List (Op K V Time) → List (Basic K V)
  | _, [] => []
  | s, op :: ops => s.basics op ++ ((s.step op).elim [] fun s' ↦ history s' ops)

end Linked

namespace Represents

variable {Time : Type} [TimeFormat Time] {s s' : Linked K V} {t : BinaryTree K V} {fs : FS}

theorem shape_foldl_applyEntry (h : Represents s t fs) (dummy : V) (es : List (LogEntry K V)) :
    (es.foldl (BinaryTree.applyEntry dummy) (t, fs)).1.shape =
      (es.filterMap LogEntry.basic).foldl Basic.apply t.shape := by
  induction es generalizing s t fs with
  | nil => rfl
  | cons e es ih =>
    obtain ⟨s₁, -, h₁⟩ := h.applyEntry dummy e
    have hshape := BinaryTree.shape_applyEntry h.ascending dummy fs e
    rw [List.foldl_cons, ih h₁, hshape, List.filterMap_cons]
    cases e.basic <;> rfl

theorem grows_foldl_applyEntry (h : Represents s t fs) (dummy : V) (es : List (LogEntry K V)) :
    t.Grows (es.foldl (BinaryTree.applyEntry dummy) (t, fs)).1 := by
  induction es generalizing s t fs with
  | nil => exact .refl t
  | cons e es ih =>
    obtain ⟨s₁, -, h₁⟩ := h.applyEntry dummy e
    exact (BinaryTree.grows_applyEntry h.ascending dummy fs e).trans (ih h₁)

/-- **One call**: what happens to the tree, and to a walk through it. -/
theorem step (h : Represents s t fs) {op : Linked.Op K V Time} (hstep : s.step op = some s') :
    ∃ t' fs', Represents s' t' fs' ∧ t'.shape = (s.basics op).foldl Basic.apply t.shape ∧
      (op ≠ .inorder → t.Grows t' ∨ t'.AtRest) := by
  cases op with
  | insert k v =>
    obtain ⟨s₁, hs₁, hrep⟩ := h.insert k v
    cases hs₁.symm.trans hstep
    exact ⟨_, _, hrep, BinaryTree.shape_insert h.ascending k v fs,
      fun _ ↦ Or.inl (BinaryTree.grows_insert h.ascending k v fs)⟩
  | del k dummy =>
    obtain ⟨r, s₁, hs₁, -, hrep⟩ := h.del k dummy
    obtain ⟨x, hx, rfl⟩ := Option.map_eq_some_iff.mp hstep
    cases hs₁.symm.trans hx
    exact ⟨_, _, hrep, BinaryTree.shape_del h.ascending k dummy fs,
      fun _ ↦ Or.inl (BinaryTree.grows_del h.ascending k dummy fs)⟩
  | dump f now dummy =>
    have hsz : 20 ≤ Pod.sizeof (K × V) := by
      by_contra hlt
      rw [Linked.step, Linked.dump, if_pos (Nat.not_le.mp hlt)] at hstep
      cases hstep
    obtain ⟨s₁, hs₁, hrep⟩ := h.dump hsz f now dummy
    cases hs₁.symm.trans hstep
    refine ⟨_, _, hrep, ?_, fun _ ↦ Or.inr ((BinaryTree.grows_logAction _ _ _ _ _).atRest ⟨rfl, rfl⟩)⟩
    rw [BinaryTree.shape, BinaryTree.root_dump, BinaryTree.dump, BinaryTree.size_logAction]
    rfl
  | fromFile fuel dummy fname now =>
    have hren := h.renamed fname now
    obtain ⟨s₁, hs₁, h₁⟩ := hren.free
    rw [Linked.step, Linked.fromFile, hs₁] at hstep
    obtain ⟨bs, hbs, hstep⟩ := Option.bind_eq_some_iff.mp hstep
    rw [Option.bind_some] at hstep
    rw [Linked.basics, hbs]
    dsimp only
    cases hes : BinaryTree.readBack K V fuel bs with
    | error e =>
      rw [hes] at hstep
      cases hstep
    | ok es =>
      rw [hes] at hstep
      obtain ⟨s₂, hs₂, h₂⟩ := h₁.foldlM_applyEntry dummy es
      cases hs₂.symm.trans hstep
      exact ⟨_, _, h₂, h₁.shape_foldl_applyEntry dummy es,
        fun _ ↦ Or.inr ((h₁.grows_foldl_applyEntry dummy es).atRest ⟨rfl, rfl⟩)⟩
  | inorder =>
    obtain ⟨⟨n, s₁⟩, hs₁, rfl⟩ := Option.map_eq_some_iff.mp hstep
    exact ⟨_, _, h.inorder hs₁, rfl, fun hne ↦ absurd rfl hne⟩
  | free =>
    obtain ⟨s₁, hs₁, hrep⟩ := h.free
    cases hs₁.symm.trans hstep
    exact ⟨_, _, hrep, rfl, fun _ ↦ Or.inr ⟨rfl, rfl⟩⟩
  | setLogFile name =>
    cases hstep
    exact ⟨_, _, h.setLogFile name, BinaryTree.shape_setLogFile t name fs,
      fun _ ↦ Or.inl (BinaryTree.grows_setLogFile t name fs)⟩

/-- **Any calls.** -/
theorem run (h : Represents s t fs) {ops : List (Linked.Op K V Time)}
    (hrun : Runs.run Linked.step s ops = some s') :
    ∃ t' fs', Represents s' t' fs' ∧ t'.shape = (s.history ops).foldl Basic.apply t.shape := by
  induction ops generalizing s t fs with
  | nil =>
    cases hrun
    exact ⟨t, fs, h, rfl⟩
  | cons op ops ih =>
    obtain ⟨s₁, hs₁, hrun⟩ := Runs.run_cons_eq_some.mp hrun
    obtain ⟨t₁, fs₁, h₁, hshape₁, -⟩ := h.step hs₁
    obtain ⟨t', fs', h', hshape⟩ := ih h₁ hrun
    refine ⟨t', fs', h', ?_⟩
    rw [hshape, hshape₁, Linked.history, hs₁, List.foldl_append]
    rfl

end Represents

end ScratchStore
