import ScratchStore.Master.KeyValue
import ScratchStore.RBTree.History
import ScratchStore.RBTree.Reachable

/-!
# The size of a tree

`size` is kept by `insert` and `_free`, and starts at zero with every constructor, also with the two that
make a tree of one node.  Such a tree counts one node less than it has, until it is emptied for the first
time: `length_foldl_apply` is what each change does to the difference, and `sizeRight_iff` says which runs
lead to a tree with the right size.

* `SizeRight` compares `size` with the nodes that can be reached and with the records a dump would write.
* `Basic.length_apply` is the invariant: the number of nodes is `size` and what was `missing` in the
  beginning, which only emptying the tree makes zero.
* `keyValue_size` is the tree of one node whose size is zero.  An insertion into it counts what it adds and
  stays one behind.
-/

set_option autoImplicit false

namespace ScratchStore

open SortedAssoc

variable {K V : Type}

namespace Linked

/-- **The size is right**: there are as many nodes, and as many records in a dump, and it is zero when the
root is `NULL` and at no other time. -/
structure SizeRight (s : Linked K V) : Prop where
  /-- The nodes that can be reached. -/
  nodes : ∃ nodes : List ℕ, nodes.Nodup ∧ (∀ a, a ∈ nodes ↔ Reach s.heap s.root a) ∧ s.size = nodes.length
  /-- The records of a dump. -/
  records : ∃ recs, s.dumpRecords = some recs ∧ s.size = recs.length
  zero_iff : s.size = 0 ↔ s.root = none

/-- The calls that empty the tree. -/
def Op.Empties {Time : Type} : Op K V Time → Prop
  | .free | .fromFile _ _ _ _ => True
  | _ => False

end Linked

/-! ## What each change does to the size -/

section Basics

variable [LinearOrder K] [Pod V]

/-- What is missing in the size stays missing until the tree is emptied. -/
theorem Basic.length_apply {m : List (K × V × Bool) × ℕ} (h : Ascending m.1) {missing : ℕ}
    (hlen : m.1.length = m.2 + missing) {b : Basic K V} (hb : b ≠ .free) :
    (b.apply m).1.length = (b.apply m).2 + missing := by
  cases b with
  | insert k v =>
    rw [Basic.apply, length_upsert h]
    dsimp only
    split_ifs <;> omega
  | del k =>
    rw [Basic.apply]
    dsimp only
    split_ifs with hk
    · rw [length_upsert h, if_pos hk, hlen]
    · exact hlen
  | free => exact absurd rfl hb

theorem length_foldl_apply {m : List (K × V × Bool) × ℕ} (h : Ascending m.1) {missing : ℕ}
    (hlen : m.1.length = m.2 + missing) (bs : List (Basic K V)) :
    ∃ missing', (bs.foldl Basic.apply m).1.length = (bs.foldl Basic.apply m).2 + missing' ∧
      (.free ∈ bs → missing' = 0) ∧ (.free ∉ bs → missing' = missing) := by
  induction bs generalizing m missing with
  | nil => exact ⟨missing, hlen, nofun, fun _ ↦ rfl⟩
  | cons b bs ih =>
    by_cases hb : b = .free
    · subst hb
      have hzero : (Basic.apply m .free).1.length = (Basic.apply m .free).2 + 0 := rfl
      obtain ⟨missing', hlen', hfree, hnot⟩ := ih (Basic.ascending_apply h .free) hzero
      refine ⟨missing', hlen', fun _ ↦ ?_, fun hmem ↦ absurd List.mem_cons_self hmem⟩
      by_cases hmem : .free ∈ bs
      · exact hfree hmem
      · exact hnot hmem
    · obtain ⟨missing', hlen', hfree, hnot⟩ := ih (Basic.ascending_apply h b) (Basic.length_apply h hlen hb)
      refine ⟨missing', hlen', fun hmem ↦ hfree ?_, fun hmem ↦ hnot ?_⟩
      · exact (List.mem_cons.mp hmem).resolve_left fun heq ↦ hb heq.symm
      · exact fun hmem' ↦ hmem (List.mem_cons_of_mem _ hmem')

end Basics

namespace Linked

variable [LinearOrder K] [Pod K] [Pod V] {Time : Type} [TimeFormat Time]

/-- A call that went through. -/
theorem free_mem_basics {s s' : Linked K V} {op : Op K V Time} (hstep : s.step op = some s') :
    .free ∈ s.basics op ↔ op.Empties := by
  cases op with
  | fromFile fuel dummy fname now =>
    refine iff_of_true ?_ trivial
    obtain ⟨bs, hbs, hstep⟩ := Option.bind_eq_some_iff.mp hstep
    obtain ⟨s₁, -, hstep⟩ := Option.bind_eq_some_iff.mp hstep
    rw [basics, hbs]
    dsimp only
    cases hes : BinaryTree.readBack K V fuel bs with
    | error e =>
      rw [hes] at hstep
      cases hstep
    | ok es => exact List.mem_cons_self
  | free => exact iff_of_true List.mem_cons_self trivial
  | insert k v => exact iff_of_false (by simp [basics]) id
  | del k dummy => exact iff_of_false (by simp [basics]) id
  | dump f now dummy => exact iff_of_false (by simp [basics]) id
  | inorder => exact iff_of_false (by simp [basics]) id
  | setLogFile name => exact iff_of_false (by simp [basics]) id

theorem free_mem_history {s s' : Linked K V} {ops : List (Op K V Time)}
    (hrun : Runs.run step s ops = some s') : .free ∈ s.history ops ↔ ∃ op ∈ ops, op.Empties := by
  induction ops generalizing s with
  | nil => simp [history]
  | cons op ops ih =>
    obtain ⟨s₁, hs₁, hrun⟩ := Runs.run_cons_eq_some.mp hrun
    rw [history, hs₁, List.mem_append, free_mem_basics hs₁, Option.elim_some, ih hrun]
    simp

end Linked

/-! ## The size of what is represented -/

namespace Represents

variable [LinearOrder K] {s : Linked K V} {t : BinaryTree K V} {fs : FS}

/-- The size is right when it is that of the tree. -/
theorem sizeRight_iff_length (h : Represents s t fs) : s.SizeRight ↔ t.root.entries.length = t.size := by
  have haddrs : t.root.addrs.length = t.root.entries.length := by
    rw [Tree.addrs, Tree.entries, List.length_map, List.length_map]
  rw [← h.members.size_eq]
  constructor
  · rintro ⟨⟨nodes, hnodup, hmem, hsize⟩, -, -⟩
    have hperm : nodes.Perm t.root.addrs :=
      (List.perm_ext_iff_of_nodup hnodup h.nodup_addrs).mpr fun a ↦ (hmem a).trans h.reach_iff
    rw [hsize, hperm.length_eq, haddrs]
  · intro hsize
    refine ⟨⟨t.root.addrs, h.nodup_addrs, fun a ↦ h.reach_iff.symm, by rw [haddrs, hsize]⟩,
      ⟨_, h.dumpRecords, ?_⟩, ?_⟩
    · rw [List.length_map, ← hsize, Tree.entries, List.length_map]
    · rw [← hsize, List.length_eq_zero_iff, Tree.entries_eq_nil_iff, h.root_eq]
      cases t.root <;> simp [Tree.ptr]

end Represents

namespace Linked

variable [LinearOrder K] [Pod K] [Pod V] {Time : Type} [TimeFormat Time]

/-- **Which trees have the right size**: those that were made empty, or emptied since.

The constructors from a node and from a key and a value leave `size` at zero.  Later calls count what they add,
so it stays one too small until the tree is emptied. -/
theorem sizeRight_iff (fs : FS) (c : Constructor K V) (ops : List (Op K V Time)) {s : Linked K V}
    (hrun : Runs.run step (c.make fs) ops = some s) :
    s.SizeRight ↔ c.MakesEmpty ∨ ∃ op ∈ ops, op.Empties := by
  have hmake := represents_make fs c
  obtain ⟨t, fs', h, hshape⟩ := hmake.run hrun
  -- what is missing in the size of the new tree
  obtain ⟨missing, hlen, hmissing⟩ : ∃ missing,
      (c.tree fs).1.shape.1.length = (c.tree fs).1.shape.2 + missing ∧ (missing = 0 ↔ c.MakesEmpty) := by
    by_cases hc : c.MakesEmpty
    · exact ⟨0, by rw [hc.shape_tree]; rfl, iff_of_true rfl hc⟩
    · cases c with
      | empty => exact absurd trivial hc
      | logFile _logfile => exact absurd trivial hc
      | node k v del => exact ⟨1, rfl, iff_of_false one_ne_zero id⟩
      | keyValue k v => exact ⟨1, rfl, iff_of_false one_ne_zero id⟩
  obtain ⟨missing', hlen', hfree, hnot⟩ :=
    length_foldl_apply hmake.ascending hlen ((c.make fs).history ops)
  rw [← hshape] at hlen'
  have hsize : t.root.entries.length = t.size ↔ missing' = 0 := by
    rw [show t.root.entries.length = t.size + missing' from hlen', Nat.add_eq_left]
  rw [h.sizeRight_iff_length, hsize, ← free_mem_history hrun, ← hmissing]
  by_cases hmem : .free ∈ (c.make fs).history ops
  · exact iff_of_true (hfree hmem) (Or.inr hmem)
  · rw [hnot hmem, or_iff_left hmem]

/-- A tree that was made empty. -/
theorem sizeRight_iff_empty :
    ∃ s, Runs.run step (Constructor.empty.make FS.blank)
        [(.insert Master.zeroK Master.zeroV : Op Master.K Master.V DaySecond)] = some s ∧ s.SizeRight := by
  obtain ⟨s, hrun⟩ : ∃ s, Runs.run step (Constructor.empty.make FS.blank)
    [(.insert Master.zeroK Master.zeroV : Op Master.K Master.V DaySecond)] = some s := ⟨_, rfl⟩
  exact ⟨s, hrun, (sizeRight_iff _ _ _ hrun).mpr (Or.inl trivial)⟩

/-- **A tree that is made of a key and a value** has a node and no size. -/
theorem keyValue_size :
    ((Constructor.keyValue Master.zeroK Master.zeroV).make FS.blank).size = 0 ∧
      ((Constructor.keyValue Master.zeroK Master.zeroV).make FS.blank).root = some 0 ∧
      ¬((Constructor.keyValue Master.zeroK Master.zeroV).make FS.blank).SizeRight :=
  ⟨rfl, rfl, fun h ↦ nomatch h.zero_iff.mp rfl⟩

end Linked

end ScratchStore
