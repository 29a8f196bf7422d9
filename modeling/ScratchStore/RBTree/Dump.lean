import ScratchStore.Core.DataFile
import ScratchStore.RBTree.BinaryTree

/-!
# Dumping a tree

`BinaryTree::dump` walks the tree in order with an explicit stack and writes a header with the
time and one record per node.  The stack holds pointers into a tree that does not change during
the walk, so each of them is the subtree it points to.

`walk_pushLeft` is the invariant of the walk: what is still to be written is the part of the tree
not yet pushed, in order, followed by what the stack stands for.  From it a dump of a search tree
is a `DataFile` whose records are the entries of the tree: `dumpFile`.

The same walk is in `_inorder`, which does one round of it for each call; there other calls come in between
and change the tree below the stack (`RBTree.Walk`).

`BinaryTree.lookup` is what everybody else needs of a tree: the value of a key, with a deleted key having
the reserved value.  That is also what a reader of the dump finds (`fileMap_dumpBytes`), since the flag of a
deleted node is not written and the reserved value is.
-/

set_option autoImplicit false

namespace ScratchStore

open SortedAssoc

variable {K V : Type}

namespace Tree

/-- `while(n != NULL){ stk.push(n); n = n -> l; }` -/
def pushLeft : Tree K V → List (Tree K V) → List (Tree K V)
  | nil, stk => stk
  | node l n r, stk => pushLeft l (node l n r :: stk)

/-- The nodes a stack still has to visit. -/
def pending : List (Tree K V) → ℕ
  | [] => 0
  | nil :: stk => pending stk + 1
  | node _ _ r :: stk => pending stk + r.toList.length + 1

theorem pending_pushLeft (t : Tree K V) (stk : List (Tree K V)) :
    pending (pushLeft t stk) = pending stk + t.toList.length := by
  induction t generalizing stk with
  | nil => rfl
  | node l n r ihl _ =>
    rw [pushLeft, ihl, pending, toList, List.length_append, List.length_cons]
    omega

/-- `while(!stk.empty())`: the nodes in the order they are written. -/
def walk : List (Tree K V) → List (Node K V)
  | [] => []
  | nil :: stk => walk stk
  | node _ n r :: stk => n :: walk (pushLeft r stk)
termination_by stk => pending stk
decreasing_by
  · rw [pending]; omega
  · rw [pending_pushLeft, pending]; omega

/-- **The walk is in order.** -/
theorem walk_pushLeft (t : Tree K V) (stk : List (Tree K V)) :
    walk (pushLeft t stk) = t.toList ++ walk stk := by
  induction t generalizing stk with
  | nil => rfl
  | node l n r ihl ihr => rw [pushLeft, ihl, walk, ihr, toList, List.append_assoc, List.cons_append]

/-- The record `dump` writes for a node. -/
def record (n : Node K V) : K × V := (n.key, n.value)

theorem map_record (t : Tree K V) :
    t.toList.map record = t.entries.map fun e ↦ (e.1, e.2.1) := by
  rw [entries, List.map_map]
  rfl

end Tree

variable {Time : Type} [TimeFormat Time]

/-- The header: `sz` characters, the time and then zeros.  The buffer has `sz` bytes, so with less than twenty
the source writes past its end: what this says is meant for `20 ≤ sz` only. -/
def timeStr (sz : ℕ) (now : Time) : Bytes :=
  ascii (TimeFormat.strftime now) ++ List.replicate (sz - 19) (UInt8.ofNat '0'.toNat)

theorem length_timeStr {sz : ℕ} (h : 19 ≤ sz) (now : Time) : (timeStr sz now).length = sz := by
  rw [timeStr, List.length_append, TimeFormat.length_strftime, List.length_replicate]
  omega

theorem mktime_timeStr (sz : ℕ) (now : Time) (rest : Bytes) :
    TimeFormat.mktime (timeStr sz now ++ rest) = now := by
  rw [timeStr, List.append_assoc, TimeFormat.mktime_strftime]

variable [Pod K] [Pod V]

namespace BinaryTree

/-- What `dump` writes to its file. -/
def dumpBytes (t : BinaryTree K V) (now : Time) : Bytes :=
  timeStr (Pod.sizeof (K × V)) now ++
    Pod.encode ((Tree.walk (Tree.pushLeft t.root [])).map Tree.record)

/-- `dump(f)`: write the file, then a `_sync_` record to the log.  `dummy` is the unset node that
is logged. -/
def dump (t : BinaryTree K V) (f : WFile) (now : Time) (dummy : K × V) (fs : FS) :
    BinaryTree K V × FS :=
  let fs := (fs.fwrite f (t.dumpBytes now)).1
  { t with stk := [], traversalStarted := false }.logAction dummy.1 dummy.2 syncAction fs

theorem root_dump (t : BinaryTree K V) (f : WFile) (now : Time) (dummy : K × V) (fs : FS) :
    (t.dump f now dummy fs).1.root = t.root := by simp [dump]

theorem dumpBytes_eq (t : BinaryTree K V) (now : Time) :
    t.dumpBytes now = timeStr (Pod.sizeof (K × V)) now ++
      Pod.encode (t.root.entries.map fun e ↦ (e.1, e.2.1)) := by
  rw [dumpBytes, Tree.walk_pushLeft, Tree.walk, List.append_nil, Tree.map_record]

theorem records_dumpBytes (h : 19 ≤ Pod.sizeof (K × V)) (t : BinaryTree K V) (now : Time) :
    records K V (t.dumpBytes now) = t.root.entries.map fun e ↦ (e.1, e.2.1) := by
  rw [dumpBytes_eq]
  simpa using records_append (length_timeStr h now) (t.root.entries.map fun e ↦ (e.1, e.2.1))
    [] Pod.sizeof_pos

variable [LinearOrder K]

theorem WF.dump {t : BinaryTree K V} (h : t.WF) (f : WFile) (now : Time) (dummy : K × V) (fs : FS) :
    (t.dump f now dummy fs).1.WF := by
  refine WF.logAction ?_ _ _ _ _
  exact ⟨h.ascending, h.size_eq⟩

/-- **A dumped search tree is a well-formed file.** -/
def dumpFile (hsz : 19 ≤ Pod.sizeof (K × V)) (t : BinaryTree K V) (h : t.WF) (now : Time) :
    DataFile K V where
  header := timeStr (Pod.sizeof (K × V)) now
  recs := t.root.entries.map fun e ↦ (e.1, e.2.1)
  length_header := length_timeStr hsz now
  ascending := h.ascending.map_snd fun _ w ↦ w.1

theorem bytes_dumpFile (hsz : 19 ≤ Pod.sizeof (K × V)) (t : BinaryTree K V) (h : t.WF)
    (now : Time) : (t.dumpFile hsz h now).bytes = t.dumpBytes now := (t.dumpBytes_eq now).symm

/-- The value the tree has for a key, tombstones included. -/
def lookup (t : BinaryTree K V) (k : K) : Option V := (t.search k).map fun c ↦ c.n.value

omit [Pod K] [Pod V] in
theorem lookup_eq {t : BinaryTree K V} (h : t.WF) (k : K) :
    t.lookup k = (t.root.entries.lookup k).map Prod.fst := by
  rw [lookup, ← search_eq_lookup h.ascending, Option.map_map]
  rfl

omit [Pod K] [Pod V] in
/-- A tree that has all of these keys is at least that large. -/
theorem length_le_size {t : BinaryTree K V} (h : t.WF) {keys : List K} (hnodup : keys.Nodup)
    (hfound : ∀ k ∈ keys, (t.lookup k).isSome) : keys.length ≤ t.size := by
  have hsub : keys ⊆ t.root.entries.map Prod.fst := by
    intro k hk
    have hsome := hfound k hk
    rw [lookup_eq h, Option.isSome_map] at hsome
    obtain ⟨w, hw⟩ := Option.isSome_iff_exists.mp hsome
    exact List.mem_map.mpr ⟨(k, w), (lookup_eq_some h.ascending).mp hw, rfl⟩
  have hlen := hnodup.length_le_of_subset hsub
  rwa [List.length_map, ← h.size_eq] at hlen

theorem fileMap_dumpBytes (hsz : 19 ≤ Pod.sizeof (K × V)) {t : BinaryTree K V} (h : t.WF)
    (now : Time) : fileMap K V (t.dumpBytes now) = t.lookup := by
  funext k
  rw [fileMap, records_dumpBytes hsz, lookup_eq h]
  exact lookup_map_snd t.root.entries (fun _ w ↦ w.1) k

end BinaryTree

end ScratchStore
