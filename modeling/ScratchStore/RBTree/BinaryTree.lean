import ScratchStore.Lib.SortedAssoc
import ScratchStore.Stdio

/-!
# The in-memory tree and its log

`BinaryTree` of `RBTree/rbtree.hpp`: a binary search tree that is never rebalanced, together with
the log file every change is appended to.  A deletion only marks the node.

A `Node*` is a `Cursor`: the node, its two subtrees and the way back up to the root, so that
assigning to `p->l`, `p->r` or `p->value` is rebuilding the tree with `plug`.  Nodes also carry
the address `new` gave them, which is what `stk` holds between two calls of `_inorder`.

`Tree.entries` lists key, value and deletion flag in order.  A tree is a search tree when that
list ascends, and then `_search`, `insert` and `del` are `List.lookup` and `SortedAssoc.upsert`
on it: `search_eq_lookup`, `entries_insert`, `entries_del`.

## Why this model of the nodes

The links of a node are the tree itself, so there is no heap and nothing to say about aliasing: an assignment
through a pointer is a new tree.  That two pointers never lead to one node, and that none of them dangles, is
what this takes for granted.  `RBTree.Linked` has the nodes in a heap, with links that may lead anywhere, and
`RBTree.Represents` shows that the methods here are what those there do.

The class is named after red-black trees and the members of `Node` have no colour.  Nothing here depends on
the shape of the tree, and only the cost would.
-/

set_option autoImplicit false

namespace ScratchStore

open SortedAssoc

/-- `TOMBSTONE_BYTE`. -/
def tombstoneByte : UInt8 := 0xFF

/-- What `memset(&value, TOMBSTONE_BYTE, sz_v)` leaves. -/
def tombstone (V : Type) [Pod V] : V := Pod.ofBytes (List.replicate (Pod.sizeof V) tombstoneByte)

/-- A node of the tree, without its two links. -/
structure Node (K V : Type) where
  /-- The address `new` returned. -/
  addr : ℕ
  key : K
  value : V
  /-- `int del`, only ever 0 or 1. -/
  del : Bool

/-- A node with everything below it, or `NULL`. -/
inductive Tree (K V : Type) where
  | nil
  | node (l : Tree K V) (n : Node K V) (r : Tree K V)

variable {K V : Type}

namespace Tree

/-- The nodes in order. -/
def toList : Tree K V → List (Node K V)
  | nil => []
  | node l n r => l.toList ++ n :: r.toList

/-- What a reader of the tree sees of a node. -/
def entry (n : Node K V) : K × V × Bool := (n.key, n.value, n.del)

/-- Keys with value and deletion flag, in order. -/
def entries (t : Tree K V) : List (K × V × Bool) := t.toList.map entry

@[simp] theorem entries_nil : (nil : Tree K V).entries = [] := rfl

@[simp] theorem entries_node (l : Tree K V) (n : Node K V) (r : Tree K V) :
    (node l n r).entries = l.entries ++ entry n :: r.entries := by
  simp [entries, toList]

theorem entries_eq_nil_iff {t : Tree K V} : t.entries = [] ↔ t = nil := by
  cases t <;> simp

def isNil : Tree K V → Bool
  | nil => true
  | node .. => false

theorem isNil_iff {t : Tree K V} : t.isNil = true ↔ t = nil := by
  cases t <;> simp [isNil]

/-! ## Pointers into a tree

Going down keeps what is left aside, so a change below can be put back in its place. -/

/-- One step down from a node, with the part of the tree that was left aside. -/
inductive Frame (K V : Type) where
  /-- To the left, with the node and what is to the right of it. -/
  | left (n : Node K V) (r : Tree K V)
  /-- To the right, with what is to the left of the node and the node. -/
  | right (l : Tree K V) (n : Node K V)

/-- The tree whose subtree at the end of the path is `t`. -/
def plug (t : Tree K V) : List (Frame K V) → Tree K V
  | [] => t
  | .left n r :: path => plug (node t n r) path
  | .right l n :: path => plug (node l n t) path

/-- The entries before, and after, the subtree at the end of a path. -/
def before : List (Frame K V) → List (K × V × Bool)
  | [] => []
  | .left _ _ :: path => before path
  | .right l n :: path => before path ++ l.entries ++ [entry n]

def after : List (Frame K V) → List (K × V × Bool)
  | [] => []
  | .left n r :: path => entry n :: r.entries ++ after path
  | .right _ _ :: path => after path

theorem entries_plug (t : Tree K V) (path : List (Frame K V)) :
    (plug t path).entries = before path ++ t.entries ++ after path := by
  induction path generalizing t with
  | nil => simp [plug, before, after]
  | cons f path ih =>
    cases f with
    | left n r => rw [plug, ih, before, after]; simp
    | right l n => rw [plug, ih, before, after]; simp

end Tree

/-- A non-null `Node*`: the node, its links, and where it hangs. -/
structure Cursor (K V : Type) where
  l : Tree K V
  n : Node K V
  r : Tree K V
  path : List (Tree.Frame K V)

/-- The subtree a pointer points to. -/
def Cursor.subtree (c : Cursor K V) : Tree K V := .node c.l c.n c.r

variable [LinearOrder K]

namespace Tree

/-- The loop of `_search`: go down towards `k` until it is found or the link to follow is
`NULL`. -/
def descend (k : K) : Tree K V → List (Frame K V) → Option (Cursor K V)
  | nil, _ => none
  | node l n r, path =>
    if k < n.key then
      if l.isNil then some ⟨l, n, r, path⟩ else descend k l (.left n r :: path)
    else if n.key < k then
      if r.isNil then some ⟨l, n, r, path⟩ else descend k r (.right l n :: path)
    else some ⟨l, n, r, path⟩

theorem descend_eq_none_iff {k : K} {t : Tree K V} {path : List (Frame K V)} :
    descend k t path = none ↔ t = nil := by
  induction t generalizing path with
  | nil => simp [descend]
  | node l n r ihl ihr =>
    rw [descend]
    split_ifs with h1 h2 h2 h3
    · simp
    · rw [ihl]; simp [← isNil_iff, h2]
    · simp
    · rw [ihr]; simp [← isNil_iff, h3]
    · simp

/-- Everything off the path is on the right side of `k`. -/
def Brackets (path : List (Frame K V)) (k : K) : Prop :=
  (∀ x ∈ before path, x.1 < k) ∧ ∀ x ∈ after path, k < x.1

/-- Where `_search` stops. -/
structure Lands (k : K) (t : Tree K V) (path : List (Frame K V)) (c : Cursor K V) : Prop where
  /-- The pointer points into the tree. -/
  plug_eq : plug c.subtree c.path = plug t path
  brackets : Brackets c.path k
  /-- Either the node has the key or the link towards it is `NULL`. -/
  stops : (k < c.n.key ∧ c.l = nil) ∨ (c.n.key < k ∧ c.r = nil) ∨ c.n.key = k

theorem descend_lands {k : K} {t : Tree K V} {path : List (Frame K V)} {c : Cursor K V}
    (ht : Ascending t.entries) (hp : Brackets path k) (h : descend k t path = some c) :
    Lands k t path c := by
  induction t generalizing path with
  | nil => simp [descend] at h
  | node l n r ihl ihr =>
    rw [entries_node, ascending_append, ascending_cons] at ht
    obtain ⟨hl, ⟨hnr, hr⟩, hln⟩ := ht
    rw [descend] at h
    split_ifs at h with h1 h2 h2 h3
    · cases h
      exact ⟨rfl, hp, Or.inl ⟨h1, isNil_iff.mp h2⟩⟩
    · have hp' : Brackets (.left n r :: path) k := by
        refine ⟨hp.1, fun x hx ↦ ?_⟩
        rw [after, List.cons_append, List.mem_cons, List.mem_append] at hx
        rcases hx with rfl | hx | hx
        · exact h1
        · exact h1.trans (hnr x hx)
        · exact hp.2 x hx
      obtain ⟨hplug, hbr, hstop⟩ := ihl hl hp' h
      exact ⟨hplug, hbr, hstop⟩
    · cases h
      exact ⟨rfl, hp, Or.inr (Or.inl ⟨h2, isNil_iff.mp h3⟩)⟩
    · have hp' : Brackets (.right l n :: path) k := by
        refine ⟨fun x hx ↦ ?_, hp.2⟩
        rw [before, List.mem_append, List.mem_append, List.mem_singleton] at hx
        rcases hx with (hx | hx) | rfl
        · exact hp.1 x hx
        · exact (hln x hx (entry n) (by simp)).trans h2
        · exact h2
      obtain ⟨hplug, hbr, hstop⟩ := ihr hr hp' h
      exact ⟨hplug, hbr, hstop⟩
    · cases h
      exact ⟨rfl, hp, Or.inr (Or.inr (le_antisymm (not_lt.mp h1) (not_lt.mp h2)))⟩

/-- The entries around the place where `_search` stops. -/
theorem Lands.entries_eq {k : K} {t : Tree K V} {c : Cursor K V} (h : Lands k t [] c) :
    t.entries = before c.path ++ (c.l.entries ++ entry c.n :: c.r.entries) ++ after c.path := by
  rw [← entries_node, ← entries_plug]
  exact congrArg entries h.plug_eq.symm

/-- The link towards the key, where the key is not in the tree. -/
theorem Lands.left_eq_nil {k : K} {t : Tree K V} {path : List (Frame K V)} {c : Cursor K V}
    (h : Lands k t path c) (hlt : k < c.n.key) : c.l = nil := by
  rcases h.stops with ⟨-, hnil⟩ | ⟨hgt, -⟩ | hkey
  · exact hnil
  · exact absurd hlt hgt.not_gt
  · exact absurd hlt hkey.not_gt

theorem Lands.right_eq_nil {k : K} {t : Tree K V} {path : List (Frame K V)} {c : Cursor K V}
    (h : Lands k t path c) (hlt : c.n.key < k) : c.r = nil := by
  rcases h.stops with ⟨hgt, -⟩ | ⟨-, hnil⟩ | hkey
  · exact absurd hlt hgt.not_gt
  · exact hnil
  · exact absurd hlt hkey.not_lt

end Tree

/-! ## The class -/

/-- One record of the log: action, key, value. -/
abbrev LogEntry (K V : Type) := UInt8 × K × V

/-- The actions of a log record. -/
def writeAction : UInt8 := 1
def delAction : UInt8 := 2
def syncAction : UInt8 := 3

/-- The members of `BinaryTree` that its methods use. -/
structure BinaryTree (K V : Type) where
  size : ℕ
  traversalStarted : Bool
  /-- `NULL`, or the stream the log is written to. -/
  logfile : Option WFile
  logfilename : String
  stk : List ℕ
  root : Tree K V
  /-- The next address `new Node` returns. -/
  next : ℕ

namespace BinaryTree

/-- `BinaryTree()`. -/
def empty : BinaryTree K V :=
  { size := 0, traversalStarted := false, logfile := none, logfilename := "", stk := [],
    root := .nil, next := 0 }

/-- `setLogFile`.  With the empty name the old stream is closed but stays in `logfile`. -/
def setLogFile (t : BinaryTree K V) (_logfile : String) (fs : FS) : BinaryTree K V × FS :=
  let t := { t with
    logfilename := _logfile, logfile := t.logfile.map fun f ↦ { f with isOpen := false } }
  if _logfile = "" then (t, fs)
  else
    match fs.fopenWrite _logfile with
    | none => ({ t with logfile := none }, fs)
    | some fs => ({ t with logfile := some ⟨_logfile, 0, true⟩ }, fs)

/-- `BinaryTree(_logfile)`. -/
def ofLogFile (_logfile : String) (fs : FS) : BinaryTree K V × FS := empty.setLogFile _logfile fs

/-- `_free`: every node is deleted. -/
def free (t : BinaryTree K V) : BinaryTree K V :=
  { t with root := .nil, size := 0, stk := [], traversalStarted := false }

section Ops

variable [Pod K] [Pod V]

/-- `log_action`: append one record to the log, if there is one. -/
def logAction (t : BinaryTree K V) (k : K) (v : V) (act : UInt8) (fs : FS) :
    BinaryTree K V × FS :=
  match t.logfile with
  | none => (t, fs)
  | some f =>
    let (fs, f) := fs.fwrite f (Pod.toBytes ((act, k, v) : LogEntry K V))
    ({ t with logfile := some f }, fs)

/-- `_search`: the node with key `k`, or else the one it would hang under. -/
def searchNode (t : BinaryTree K V) (k : K) : Option (Cursor K V) := t.root.descend k []

/-- `search`: the node with key `k`. -/
def search (t : BinaryTree K V) (k : K) : Option (Cursor K V) :=
  match t.searchNode k with
  | none => none
  | some c => if c.n.key < k ∨ k < c.n.key then none else some c

/-- `new Node(k, v)`. -/
def newNode (t : BinaryTree K V) (k : K) (v : V) : Tree K V := .node .nil ⟨t.next, k, v, false⟩ .nil

/-- What `insert` does to the tree before it logs. -/
def insertNode (t : BinaryTree K V) (k : K) (v : V) : BinaryTree K V :=
  match t.searchNode k with
  | none => { t with root := t.newNode k v, size := t.size + 1, next := t.next + 1 }
  | some p =>
    if p.n.key < k then
      { t with
        root := .plug (.node p.l p.n (t.newNode k v)) p.path
        size := t.size + 1, next := t.next + 1 }
    else if k < p.n.key then
      { t with
        root := .plug (.node (t.newNode k v) p.n p.r) p.path
        size := t.size + 1, next := t.next + 1 }
    else { t with root := .plug (.node p.l { p.n with value := v, del := false } p.r) p.path }

/-- `insert(k, v)`. -/
def insert (t : BinaryTree K V) (k : K) (v : V) (fs : FS) : BinaryTree K V × FS :=
  (t.insertNode k v).logAction k v writeAction fs

/-- What `del` does to the tree once `search` has found the node. -/
def markNode (t : BinaryTree K V) (n : Cursor K V) : BinaryTree K V :=
  { t with root := .plug (.node n.l { n.n with value := tombstone V, del := true } n.r) n.path }

/-- `del(k)`.  `dummy` is the value field of the unset node that is logged. -/
def del (t : BinaryTree K V) (k : K) (dummy : V) (fs : FS) : ℤ × BinaryTree K V × FS :=
  match t.search k with
  | none => (-1, t, fs)
  | some n => (0, (t.markNode n).logAction k dummy delAction fs)

end Ops

end BinaryTree

/-! ## The tree is a finite map

The keys off the path are on the right side of the key that is looked for (`Brackets`), so `_search` is
a lookup in the list of entries and the tree need not be looked at any more. -/

namespace BinaryTree

/-- What every operation keeps: a search tree, with `size` counting its nodes. -/
structure WF (t : BinaryTree K V) : Prop where
  ascending : Ascending t.root.entries
  size_eq : t.size = t.root.entries.length

theorem wf_empty : (empty : BinaryTree K V).WF := ⟨ascending_nil, rfl⟩

theorem wf_free (t : BinaryTree K V) : t.free.WF := ⟨ascending_nil, rfl⟩

omit [LinearOrder K] in
@[simp] theorem entries_free (t : BinaryTree K V) : t.free.root.entries = [] := rfl

variable {t : BinaryTree K V}

theorem search_lands (h : Ascending t.root.entries) {k : K} {c : Cursor K V} (hs : t.searchNode k = some c) :
    Tree.Lands k t.root [] c :=
  Tree.descend_lands h ⟨by simp [Tree.before], by simp [Tree.after]⟩ hs

/-- The entries around the place where `_search` stops, and how they compare with `k`. -/
theorem search_split (h : Ascending t.root.entries) {k : K} {c : Cursor K V} (hs : t.searchNode k = some c) :
    t.root.entries = Tree.before c.path ++
        (c.l.entries ++ Tree.entry c.n :: (c.r.entries ++ Tree.after c.path)) ∧
      (∀ x ∈ Tree.before c.path, x.1 < k) ∧ (∀ x ∈ Tree.after c.path, k < x.1) ∧
      (∀ x ∈ c.l.entries, x.1 < c.n.key) ∧ ∀ x ∈ c.r.entries, c.n.key < x.1 := by
  have hc := search_lands h hs
  have heq := hc.entries_eq
  have hasc := h
  rw [heq, ascending_append, ascending_append, ascending_append, ascending_cons] at hasc
  obtain ⟨⟨-, ⟨-, ⟨hnr, -⟩, hln⟩, -⟩, -, -⟩ := hasc
  refine ⟨by rw [heq]; simp, hc.brackets.1, hc.brackets.2, fun x hx ↦ ?_, hnr⟩
  exact hln x hx (Tree.entry c.n) (by simp)

/-- **`search` is a lookup** in the entries of the tree. -/
theorem search_eq_lookup (h : Ascending t.root.entries) (k : K) :
    (t.search k).map (fun c ↦ (c.n.value, c.n.del)) = t.root.entries.lookup k := by
  rw [search]
  cases hs : t.searchNode k with
  | none => rw [Tree.descend_eq_none_iff.mp hs]; rfl
  | some c =>
    obtain ⟨heq, hbefore, hafter, hl, hr⟩ := search_split h hs
    dsimp only
    split_ifs with hne
    · refine (lookup_eq_none.mpr fun x hx ↦ ?_).symm
      have hk : c.n.key ≠ k := fun hk ↦ by simp [hk] at hne
      have hstop := (search_lands h hs).stops
      simp only [heq, List.mem_append, List.mem_cons] at hx
      rcases hx with hx | hx | rfl | hx | hx
      · exact ne_of_lt (hbefore x hx)
      · rcases hstop with ⟨-, hnil⟩ | ⟨hlt, -⟩ | hkey
        · simp [hnil] at hx
        · exact ne_of_lt ((hl x hx).trans hlt)
        · exact absurd hkey hk
      · exact hk
      · rcases hstop with ⟨hlt, -⟩ | ⟨-, hnil⟩ | hkey
        · exact ne_of_gt (hlt.trans (hr x hx))
        · simp [hnil] at hx
        · exact absurd hkey hk
      · exact ne_of_gt (hafter x hx)
    · rw [not_or, not_lt, not_lt] at hne
      have hk : c.n.key = k := le_antisymm hne.2 hne.1
      refine ((lookup_eq_some h).mpr ?_).symm
      rw [heq]
      simp [Tree.entry, hk]

theorem search_isSome (h : Ascending t.root.entries) (k : K) :
    (t.search k).isSome = (t.root.entries.lookup k).isSome := by
  rw [← search_eq_lookup h, Option.isSome_map]

/-- A node `search` returns has the key it was asked for. -/
theorem key_of_search {k : K} {c : Cursor K V} (hs : t.search k = some c) :
    t.searchNode k = some c ∧ c.n.key = k := by
  rw [search] at hs
  split at hs
  · simp at hs
  · rename_i p hp
    split_ifs at hs with hne
    cases hs
    rw [not_or, not_lt, not_lt] at hne
    exact ⟨hp, le_antisymm hne.2 hne.1⟩

/-! ### Insertion and deletion -/

/-- **`insert` is an `upsert`** with the deletion flag cleared. -/
theorem entries_insertNode (h : Ascending t.root.entries) (k : K) (v : V) :
    (t.insertNode k v).root.entries = upsert k (v, false) t.root.entries := by
  rw [insertNode]
  cases hs : t.searchNode k with
  | none => rw [Tree.descend_eq_none_iff.mp hs]; rfl
  | some p =>
    obtain ⟨heq, hbefore, hafter, hl, hr⟩ := search_split h hs
    have hnew : (t.newNode k v).entries = [(k, v, false)] := rfl
    rw [heq, upsert_append_of_gt hbefore]
    dsimp only
    split_ifs with h1 h2
    · have hr0 : p.r = .nil := (search_lands h hs).right_eq_nil h1
      have hlk : ∀ x ∈ p.l.entries ++ [Tree.entry p.n], x.1 < k := by
        intro x hx
        rcases List.mem_append.mp hx with hx | hx
        · exact (hl x hx).trans h1
        · rw [List.mem_singleton.mp hx]; exact h1
      have hcons : p.l.entries ++ Tree.entry p.n :: (p.r.entries ++ Tree.after p.path)
          = (p.l.entries ++ [Tree.entry p.n]) ++ Tree.after p.path := by simp [hr0]
      rw [hcons, upsert_append_of_gt hlk, upsert_of_lt hafter]
      simp [Tree.entries_plug, hnew]
    · have hl0 : p.l = .nil := (search_lands h hs).left_eq_nil h2
      rw [hl0, Tree.entries_nil, List.nil_append, upsert,
        if_pos (show k < (Tree.entry p.n).1 from h2)]
      simp [Tree.entries_plug, hnew]
    · have hk : p.n.key = k := le_antisymm (not_lt.mp h2) (not_lt.mp h1)
      rw [upsert_append_of_gt (fun x hx ↦ hk ▸ hl x hx), Tree.entry, hk, upsert_cons_self]
      simp [Tree.entries_plug, Tree.entry]

theorem size_insertNode (t : BinaryTree K V) (k : K) (v : V) :
    (t.insertNode k v).size = if (t.search k).isSome then t.size else t.size + 1 := by
  rw [insertNode, search]
  cases t.searchNode k with
  | none => rfl
  | some p =>
    by_cases h1 : p.n.key < k
    · simp [h1]
    · by_cases h2 : k < p.n.key
      · simp [h1, h2]
      · simp [h1, h2]

theorem WF.insertNode (h : t.WF) (k : K) (v : V) : (t.insertNode k v).WF := by
  have hent := entries_insertNode h.ascending k v
  refine ⟨hent ▸ h.ascending.upsert k _, ?_⟩
  rw [size_insertNode, hent, length_upsert h.ascending, search_isSome h.ascending, h.size_eq]

variable [Pod V]

/-- **`del` is an `upsert` of the tombstone**, for a key that is there. -/
theorem entries_markNode (h : Ascending t.root.entries) {k : K} {c : Cursor K V} (hs : t.search k = some c) :
    (t.markNode c).root.entries = upsert k (tombstone V, true) t.root.entries := by
  obtain ⟨hs', hk⟩ := key_of_search hs
  obtain ⟨heq, hbefore, hafter, hl, hr⟩ := search_split h hs'
  rw [heq, upsert_append_of_gt hbefore, upsert_append_of_gt (fun x hx ↦ hk ▸ hl x hx), Tree.entry,
    hk, upsert_cons_self]
  simp [markNode, Tree.entries_plug, Tree.entry, hk]

theorem WF.markNode (h : t.WF) {k : K} {c : Cursor K V} (hs : t.search k = some c) :
    (t.markNode c).WF := by
  have hent := entries_markNode h.ascending hs
  refine ⟨hent ▸ h.ascending.upsert k _, ?_⟩
  have hsome : (t.root.entries.lookup k).isSome := by rw [← search_isSome h.ascending, hs]; rfl
  rw [hent, length_upsert h.ascending, if_pos hsome, ← h.size_eq]
  rfl

/-! ### Logging touches the log only -/

variable [Pod K]

omit [LinearOrder K] in
@[simp] theorem root_logAction (t : BinaryTree K V) (k : K) (v : V) (act : UInt8) (fs : FS) :
    (t.logAction k v act fs).1.root = t.root := by
  rw [logAction]
  split <;> rfl

omit [LinearOrder K] in
@[simp] theorem size_logAction (t : BinaryTree K V) (k : K) (v : V) (act : UInt8) (fs : FS) :
    (t.logAction k v act fs).1.size = t.size := by
  rw [logAction]
  split <;> rfl

theorem WF.logAction (h : t.WF) (k : K) (v : V) (act : UInt8) (fs : FS) :
    (t.logAction k v act fs).1.WF :=
  ⟨by simpa using h.ascending, by simpa using h.size_eq⟩

theorem WF.insert (h : t.WF) (k : K) (v : V) (fs : FS) : (t.insert k v fs).1.WF :=
  (h.insertNode k v).logAction k v _ fs

@[simp] theorem entries_insert (h : Ascending t.root.entries) (k : K) (v : V) (fs : FS) :
    (t.insert k v fs).1.root.entries = upsert k (v, false) t.root.entries := by
  rw [insert, root_logAction, entries_insertNode h]

theorem WF.del (h : t.WF) (k : K) (dummy : V) (fs : FS) : (t.del k dummy fs).2.1.WF := by
  rw [BinaryTree.del]
  split
  · exact h
  · rename_i c hs
    exact (h.markNode hs).logAction k dummy _ fs

theorem entries_del (h : Ascending t.root.entries) (k : K) (dummy : V) (fs : FS) :
    (t.del k dummy fs).2.1.root.entries =
      if (t.root.entries.lookup k).isSome then upsert k (tombstone V, true) t.root.entries
      else t.root.entries := by
  rw [del, ← search_isSome h]
  split
  · rename_i hs; simp [hs]
  · rename_i c hs
    rw [hs]
    simp [entries_markNode h hs]

end BinaryTree

end ScratchStore
