import ScratchStore.Lib.CellHeap
import ScratchStore.RBTree.Linked
import ScratchStore.RBTree.Walk

/-!
# The tree in memory is the tree

`Represents s t fs` says that the nodes in memory are those of the tree `t`, each in a cell of its own with
pointers to its subtrees, and that there are no others.  Every method then does in memory what its
counterpart in `BinaryTree` does to `t`, and comes to an end: `Represents.insert`, `Represents.del`,
`Represents.dump`, `Represents.free` and `Represents.fromFile`.

An assignment to a node changes one cell and leaves the path to it alone: `cells_plug` takes the cells of a
tree apart at a node.

* `cells` lists the nodes of a tree with their links, and `Represents.holds` says that the heap has these
  and nothing else (`CellHeap.Holds`).
* `cells_plug_node` brings the node at some place to the front of that list, where an assignment can be made.
* The loops are compared with the recursive functions of `BinaryTree`: `searchLoop_eq`, `pushLeft_eq`,
  `dumpLoop_eq` and `freeLoop_eq`.  The number of nodes is their fuel (`length_le`).

That a result exists is part of every one of these statements, so none of the methods reads through a
dangling pointer, deletes a node twice, or runs for ever, on any tree that is represented.
-/

set_option autoImplicit false

namespace ScratchStore

open SortedAssoc CellHeap

variable {K V : Type}

/-! ## The cells of a tree

That no two nodes share a cell is that the list of addresses has no repetition. -/

namespace Tree

/-- The pointer to a tree. -/
def ptr : Tree K V → Option ℕ
  | nil => none
  | node _ n _ => some n.addr

/-- A node with its links. -/
def cell (n : Node K V) (l r : Option ℕ) : ℕ × Cell K V := (n.addr, ⟨n.key, n.value, n.del, l, r⟩)

/-- The cells of a tree, in order. -/
def cells : Tree K V → List (ℕ × Cell K V)
  | nil => []
  | node l n r => l.cells ++ cell n l.ptr r.ptr :: r.cells

/-- The cells that a path adds to a tree with this pointer. -/
def frameCells : Option ℕ → List (Frame K V) → List (ℕ × Cell K V)
  | _, [] => []
  | p, .left n r :: path => cell n p r.ptr :: (r.cells ++ frameCells (some n.addr) path)
  | p, .right l n :: path => cell n l.ptr p :: (l.cells ++ frameCells (some n.addr) path)

/-- The addresses of a tree, in order. -/
def addrs (t : Tree K V) : List ℕ := t.toList.map Node.addr

theorem map_fst_cells (t : Tree K V) : t.cells.map Prod.fst = t.addrs := by
  induction t with
  | nil => rfl
  | node l n r ihl ihr => simp [cells, addrs, toList, ihl, ihr, cell]

theorem length_cells (t : Tree K V) : t.cells.length = t.toList.length := by
  rw [← List.length_map (f := Prod.fst), map_fst_cells, addrs, List.length_map]

theorem sublist_cells_left (l : Tree K V) (n : Node K V) (r : Tree K V) :
    l.cells.Sublist (node l n r).cells := List.sublist_append_left _ _

theorem sublist_cells_right (l : Tree K V) (n : Node K V) (r : Tree K V) :
    r.cells.Sublist (node l n r).cells := (List.sublist_cons_self _ _).trans (List.sublist_append_right _ _)

theorem cell_mem_cells (l : Tree K V) (n : Node K V) (r : Tree K V) :
    cell n l.ptr r.ptr ∈ (node l n r).cells := by simp [cells]

theorem cells_node_perm (l : Tree K V) (n : Node K V) (r : Tree K V) :
    (node l n r).cells.Perm (cell n l.ptr r.ptr :: (l.cells ++ r.cells)) := List.perm_middle

/-- **The cells around a place in a tree.** -/
theorem cells_plug (t : Tree K V) (path : List (Frame K V)) :
    (plug t path).cells.Perm (t.cells ++ frameCells t.ptr path) := by
  induction path generalizing t with
  | nil => simp [plug, frameCells]
  | cons f path ih =>
    cases f with
    | left n r =>
      rw [plug, frameCells]
      refine (ih (node t n r)).trans ?_
      rw [cells, ptr]
      simp
    | right l n =>
      rw [plug, frameCells]
      refine (ih (node l n t)).trans ?_
      refine ((cells_node_perm l n t).append_right _).trans (List.Perm.trans ?_ List.perm_middle.symm)
      rw [ptr, List.cons_append, ← List.append_assoc t.cells]
      exact (List.perm_append_comm.append_right _).cons _

/-- The cells around a node. -/
theorem cells_plug_node (l : Tree K V) (n : Node K V) (r : Tree K V) (path : List (Frame K V)) :
    (plug (node l n r) path).cells.Perm
      (cell n l.ptr r.ptr :: (l.cells ++ r.cells ++ frameCells (some n.addr) path)) :=
  (cells_plug _ path).trans ((cells_node_perm l n r).append_right _)

/-- What hangs at the end of a path matters to the root only through its pointer. -/
theorem ptr_plug {t t' : Tree K V} (h : t.ptr = t'.ptr) (path : List (Frame K V)) :
    (plug t path).ptr = (plug t' path).ptr := by
  induction path generalizing t t' with
  | nil => exact h
  | cons f path ih =>
    cases f with
    | left n r => exact ih rfl
    | right l n => exact ih rfl

/-- **An assignment to a node**, after which some more cells hang below it: one cell is another. -/
theorem cells_assign {extra : List (ℕ × Cell K V)} {l r l' r' : Tree K V} {n n' : Node K V}
    (path : List (Frame K V)) (haddr : n'.addr = n.addr)
    (hperm : (l'.cells ++ r'.cells).Perm (extra ++ (l.cells ++ r.cells))) :
    ∃ rest, (extra ++ (plug (node l n r) path).cells).Perm ((n.addr, (cell n l.ptr r.ptr).2) :: rest) ∧
      (plug (node l' n' r') path).cells.Perm ((n.addr, (cell n' l'.ptr r'.ptr).2) :: rest) := by
  refine ⟨extra ++ (l.cells ++ r.cells ++ frameCells (some n.addr) path), ?_, ?_⟩
  · exact ((cells_plug_node l n r path).append_left _).trans List.perm_middle
  · refine (cells_plug_node l' n' r' path).trans ?_
    rw [cell, haddr, ← List.append_assoc extra]
    exact (hperm.append_right _).cons _

theorem cell_mem_plug (c : Cursor K V) (path : List (Frame K V)) :
    cell c.n c.l.ptr c.r.ptr ∈ (plug c.subtree path).cells :=
  (cells_plug_node c.l c.n c.r path).mem_iff.mpr List.mem_cons_self

end Tree

open ScratchStore.Tree

namespace Linked

/-! ## Following the links -/

section Search

variable [LinearOrder K] {heap : ℕ → Option (Cell K V)} {cells : List (ℕ × Cell K V)}

/-- **The loop of `_search`** goes down the tree. -/
theorem searchLoop_eq (h : Holds heap cells) {k : K} {t : Tree K V} {path : List (Frame K V)}
    {c : Cursor K V} (hsub : t.cells.Sublist cells) (hd : descend k t path = some c) {fuel : ℕ}
    (hfuel : t.toList.length ≤ fuel) :
    ∃ a, t.ptr = some a ∧ searchLoop heap k fuel a = some c.n.addr := by
  induction t generalizing path fuel with
  | nil => cases hd
  | node l n r ihl ihr =>
    refine ⟨n.addr, rfl, ?_⟩
    have hcell : heap n.addr = some ⟨n.key, n.value, n.del, l.ptr, r.ptr⟩ :=
      h.get (hsub.subset (cell_mem_cells l n r))
    rw [toList, List.length_append, List.length_cons] at hfuel
    obtain ⟨fuel, rfl⟩ : ∃ m, fuel = m + 1 := ⟨fuel - 1, by omega⟩
    rw [searchLoop, hcell, Option.bind_some]
    rw [descend] at hd
    dsimp only
    split_ifs at hd ⊢ with h1 h2 h3 h4
    · cases hd
      rw [isNil_iff.mp h2]
      rfl
    · obtain ⟨a, ha, hloop⟩ := ihl ((sublist_cells_left l n r).trans hsub) hd (by omega : _ ≤ fuel)
      rw [ha]
      exact hloop
    · cases hd
      rw [isNil_iff.mp h4]
      rfl
    · obtain ⟨a, ha, hloop⟩ := ihr ((sublist_cells_right l n r).trans hsub) hd (by omega : _ ≤ fuel)
      rw [ha]
      exact hloop
    · cases hd
      rfl

end Search

/-! ## Walks with the stack

The stack has pointers to trees that are still to be walked, one to the right of the other, and a loop
is compared with the list of their entries. -/

section Walks

variable {heap : ℕ → Option (Cell K V)} {cells : List (ℕ × Cell K V)}

/-- The pointers to the trees that are not empty. -/
def ptrs (stk : List (Tree K V)) : List ℕ := stk.flatMap fun t ↦ t.ptr.toList

@[simp] theorem ptrs_nil : ptrs ([] : List (Tree K V)) = [] := rfl

@[simp] theorem ptrs_cons (t : Tree K V) (stk : List (Tree K V)) :
    ptrs (t :: stk) = t.ptr.toList ++ ptrs stk := rfl

theorem ptrs_pushLeft (t : Tree K V) (stk : List (Tree K V)) :
    ptrs (Tree.pushLeft t stk) = t.spine ++ ptrs stk := by
  induction t generalizing stk with
  | nil => rfl
  | node l n r ihl _ => rw [Tree.pushLeft, ihl, ptrs_cons, ptr, Option.toList_some, spine, List.append_assoc]

/-- The first loop of a walk goes down the left spine. -/
theorem pushLeft_eq (h : Holds heap cells) {t : Tree K V} (hsub : t.cells.Sublist cells) {fuel : ℕ}
    (hfuel : t.toList.length ≤ fuel) (stk : List ℕ) :
    pushLeft heap fuel t.ptr stk = some (t.spine ++ stk) := by
  induction t generalizing fuel stk with
  | nil => cases fuel <;> rfl
  | node l n r ihl _ =>
    have hcell : heap n.addr = some ⟨n.key, n.value, n.del, l.ptr, r.ptr⟩ :=
      h.get (hsub.subset (cell_mem_cells l n r))
    rw [toList, List.length_append, List.length_cons] at hfuel
    obtain ⟨fuel, rfl⟩ : ∃ m, fuel = m + 1 := ⟨fuel - 1, by omega⟩
    rw [ptr, pushLeft, hcell, Option.bind_some, ihl ((sublist_cells_left l n r).trans hsub) (by omega), spine,
      List.append_assoc, List.singleton_append]

/-- What is pushed belongs to the tree. -/
theorem cells_of_mem_pushLeft {t u : Tree K V} {stk : List (Tree K V)} (hu : u ∈ Tree.pushLeft t stk) :
    u ∈ stk ∨ u.cells.Sublist t.cells := by
  induction t generalizing stk with
  | nil => exact Or.inl hu
  | node l n r ihl _ =>
    rcases ihl hu with hu | hu
    · rcases List.mem_cons.mp hu with rfl | hu
      · exact Or.inr (List.Sublist.refl _)
      · exact Or.inl hu
    · exact Or.inr (hu.trans (sublist_cells_left l n r))

/-- **The second loop of `dump`.** -/
theorem dumpLoop_eq (h : Holds heap cells) {next : ℕ} (hnext : cells.length ≤ next)
    {stk : List (Tree K V)} (hsub : ∀ u ∈ stk, u.cells.Sublist cells) {fuel : ℕ}
    (hfuel : pending stk ≤ fuel) :
    dumpLoop heap next fuel (ptrs stk) = some ((walk stk).map record) := by
  induction stk using walk.induct generalizing fuel with
  | case1 => cases fuel <;> simp [dumpLoop, walk]
  | case2 stk ih =>
    rw [pending] at hfuel
    rw [walk]
    exact ih (fun u hu ↦ hsub u (List.mem_cons_of_mem _ hu)) (by omega)
  | case3 l n r stk ih =>
    have htree := hsub _ List.mem_cons_self
    have hr : r.cells.Sublist cells := (sublist_cells_right l n r).trans htree
    have hcell : heap n.addr = some ⟨n.key, n.value, n.del, l.ptr, r.ptr⟩ :=
      h.get (htree.subset (cell_mem_cells l n r))
    have hlen : r.toList.length ≤ next := length_cells r ▸ hr.length_le.trans hnext
    have hpending := pending_pushLeft r stk
    rw [pending] at hfuel
    obtain ⟨fuel, rfl⟩ : ∃ m, fuel = m + 1 := ⟨fuel - 1, by omega⟩
    have hrest := ih (fun u hu ↦ (cells_of_mem_pushLeft hu).elim
      (fun hu ↦ hsub u (List.mem_cons_of_mem _ hu)) fun hu ↦ hu.trans hr) (by omega : _ ≤ fuel)
    rw [ptrs_cons, ptr, Option.toList_some, List.singleton_append, dumpLoop, hcell, Option.bind_some,
      pushLeft_eq h hr hlen, Option.bind_some, ← ptrs_pushLeft, hrest, walk]
    rfl

/-- **The loop of `_free`** deletes the nodes of the trees on the stack, each once. -/
theorem freeLoop_eq {stk : List (Tree K V)} {fuel : ℕ} (hfuel : (stk.flatMap toList).length ≤ fuel)
    (h : Holds heap (stk.flatMap Tree.cells)) :
    ∃ heap', freeLoop fuel heap (ptrs stk) = some heap' ∧ Holds heap' [] := by
  induction fuel generalizing heap stk with
  | zero =>
    induction stk with
    | nil => exact ⟨heap, rfl, h⟩
    | cons t stk ih =>
      cases t with
      | nil => exact ih hfuel h
      | node l n r =>
        rw [List.flatMap_cons, toList, List.length_append, List.length_append, List.length_cons] at hfuel
        omega
  | succ fuel ih =>
    induction stk with
    | nil => exact ⟨heap, rfl, h⟩
    | cons t stk ih' =>
      cases t with
      | nil => exact ih' hfuel h
      | node l n r =>
        rw [List.flatMap_cons] at h
        have hfront := h.perm ((cells_node_perm l n r).append_right _)
        have hcell : heap n.addr = some ⟨n.key, n.value, n.del, l.ptr, r.ptr⟩ :=
          hfront.get List.mem_cons_self
        have hrest : Holds (Function.update heap n.addr none) ((r :: l :: stk).flatMap Tree.cells) := by
          refine (hfront.free).perm ?_
          rw [List.flatMap_cons, List.flatMap_cons, ← List.append_assoc]
          exact List.perm_append_comm.append_right _
        have hlen : ((r :: l :: stk).flatMap toList).length ≤ fuel := by
          simp only [List.flatMap_cons, toList, List.length_append, List.length_cons] at hfuel ⊢
          omega
        obtain ⟨heap', heq, hempty⟩ := ih hlen hrest
        refine ⟨heap', ?_, hempty⟩
        rw [ptrs_cons, ptr, Option.toList_some, List.singleton_append, freeLoop, hcell, Option.bind_some]
        exact heq

end Walks

end Linked

/-! ## What is represented -/

/-- The members of `t` apart from the root. -/
structure SameMembers (s : Linked K V) (t : BinaryTree K V) (fs : FS) : Prop where
  next_eq : s.next = t.next
  size_eq : s.size = t.size
  started_eq : s.traversalStarted = t.traversalStarted
  logfile_eq : s.logfile.map Stream.file = t.logfile
  name_eq : s.logfilename = t.logfilename
  stk_eq : s.stk = t.stk
  fs_eq : s.fs = fs

/-- **The tree in memory is `t`**, a search tree, and the disk is `fs`. -/
structure Represents [LinearOrder K] (s : Linked K V) (t : BinaryTree K V) (fs : FS) : Prop where
  /-- The nodes of the tree, each in its own cell, and no others. -/
  holds : Holds s.heap t.root.cells
  root_eq : s.root = t.root.ptr
  /-- An address that `new` returns is not in use. -/
  addr_lt : ∀ x ∈ t.root.cells, x.1 < s.next
  ascending : Ascending t.root.entries
  /-- The members other than the root. -/
  members : SameMembers s t fs

namespace Represents

variable [LinearOrder K] {s : Linked K V} {t : BinaryTree K V} {fs : FS}

theorem nodup_addrs (h : Represents s t fs) : t.root.addrs.Nodup := by
  rw [← map_fst_cells]
  exact h.holds.nodup

/-- There are at least as many addresses in use as nodes. -/
theorem length_le (h : Represents s t fs) : t.root.toList.length ≤ s.next := by
  have hsub : t.root.addrs ⊆ List.range s.next := by
    intro a ha
    rw [← map_fst_cells, List.mem_map] at ha
    obtain ⟨x, hx, rfl⟩ := ha
    exact List.mem_range.mpr (h.addr_lt x hx)
  have hlen := (List.subperm_of_subset h.nodup_addrs hsub).length_le
  rwa [addrs, List.length_map, List.length_range] at hlen

theorem next_notMem (h : Represents s t fs) : s.next ∉ t.root.cells.map Prod.fst := by
  intro hmem
  obtain ⟨x, hx, heq⟩ := List.mem_map.mp hmem
  exact (h.addr_lt x hx).ne heq

/-! ### Search -/

theorem searchNode (h : Represents s t fs) (k : K) :
    s.searchNode k = some ((t.searchNode k).map fun c ↦ c.n.addr) := by
  rw [Linked.searchNode, h.root_eq]
  cases hs : t.searchNode k with
  | none =>
    rw [descend_eq_none_iff.mp hs]
    rfl
  | some c =>
    obtain ⟨a, ha, hloop⟩ := Linked.searchLoop_eq h.holds (List.Sublist.refl _) hs h.length_le
    rw [ha]
    dsimp only
    rw [hloop]
    rfl

/-- The cell of a node that was found. -/
theorem heap_cursor (h : Represents s t fs) {k : K} {c : Cursor K V} (hs : t.searchNode k = some c) :
    s.heap c.n.addr = some ⟨c.n.key, c.n.value, c.n.del, c.l.ptr, c.r.ptr⟩ := by
  have hmem := cell_mem_plug c c.path
  rw [(BinaryTree.search_lands h.ascending hs).plug_eq] at hmem
  exact h.holds.get hmem

/-- **`search`.** -/
theorem search (h : Represents s t fs) (k : K) :
    s.search k = some ((t.search k).map fun c ↦ c.n.addr) := by
  rw [Linked.search, h.searchNode, BinaryTree.search]
  cases hs : t.searchNode k with
  | none => rfl
  | some c =>
    rw [Option.map_some, Option.bind_some]
    dsimp only
    rw [h.heap_cursor hs, Option.map_some]
    dsimp only
    split_ifs <;> rfl

/-! ### Insertion and deletion -/

/-- A tree in memory with a cell to spare, in which a node is assigned to. -/
theorem of_assign {s₁ : Linked K V} {t₁ : BinaryTree K V} {extra : List (ℕ × Cell K V)}
    {l r l' r' : Tree K V} {n n' : Node K V} {path : List (Frame K V)} {f : Cell K V → Cell K V}
    (hholds : Holds s₁.heap (extra ++ (plug (node l n r) path).cells))
    (hlt : ∀ x ∈ extra ++ (plug (node l n r) path).cells, x.1 < s₁.next)
    (hroot : s₁.root = (plug (node l n r) path).ptr) (hmembers : SameMembers s₁ t₁ fs)
    (ht₁ : t₁.root = plug (node l' n' r') path) (hasc : Ascending t₁.root.entries)
    (hf : f (cell n l.ptr r.ptr).2 = (cell n' l'.ptr r'.ptr).2) (haddr : n'.addr = n.addr)
    (hperm : (l'.cells ++ r'.cells).Perm (extra ++ (l.cells ++ r.cells))) :
    ∃ s', s₁.assign n.addr f = some s' ∧ Represents s' t₁ fs := by
  have hcell : s₁.heap n.addr = some (cell n l.ptr r.ptr).2 :=
    hholds.get (List.mem_append_right _ (cell_mem_plug ⟨l, n, r, path⟩ path))
  obtain ⟨rest, hold, hnew⟩ := cells_assign path haddr hperm
  refine ⟨{ s₁ with heap := Function.update s₁.heap n.addr (some (cell n' l'.ptr r'.ptr).2) }, ?_, ?_⟩
  · rw [Linked.assign, hcell, Option.map_some, hf]
  refine ⟨?_, ?_, fun x hx ↦ ?_, hasc, { hmembers with }⟩
  · rw [ht₁]
    exact ((hholds.perm hold).store _).perm hnew.symm
  · rw [ht₁]
    exact hroot.trans (ptr_plug (by rw [ptr, ptr, haddr]) path)
  · rw [ht₁, hnew.mem_iff, List.mem_cons] at hx
    rcases hx with rfl | hx
    · exact hlt (n.addr, (cell n l.ptr r.ptr).2) (hold.mem_iff.mpr List.mem_cons_self)
    · exact hlt x (hold.mem_iff.mpr (List.mem_cons_of_mem _ hx))

theorem newNode (h : Represents s t fs) (k : K) (v : V) :
    Holds (s.newNode k v).2.heap ((t.newNode k v).cells ++ t.root.cells) ∧
      ∀ x ∈ (t.newNode k v).cells ++ t.root.cells, x.1 < (s.newNode k v).2.next := by
  rw [BinaryTree.newNode, ← h.members.next_eq]
  refine ⟨h.holds.alloc h.next_notMem _, fun x hx ↦ ?_⟩
  rcases List.mem_append.mp hx with hx | hx
  · rw [List.mem_singleton.mp hx]
    exact Nat.lt_succ_self _
  · exact (h.addr_lt x hx).trans (Nat.lt_succ_self _)

/-- A new node is hung below another. -/
theorem hang (h : Represents s t fs) (k : K) (v : V) {p : Cursor K V} {l' r' : Tree K V}
    (hroot : plug (node p.l p.n p.r) p.path = t.root) (f : Cell K V → Cell K V)
    (hf : f (cell p.n p.l.ptr p.r.ptr).2 = (cell p.n l'.ptr r'.ptr).2)
    (hperm : (l'.cells ++ r'.cells).Perm ((t.newNode k v).cells ++ (p.l.cells ++ p.r.cells)))
    (hasc : Ascending (plug (node l' p.n r') p.path).entries) :
    ∃ s', Linked.assign { (s.newNode k v).2 with size := s.size + 1 } p.n.addr f = some s' ∧
      Represents s' { t with
        root := plug (node l' p.n r') p.path, size := t.size + 1, next := t.next + 1 } fs := by
  obtain ⟨hholds, hlt⟩ := h.newNode k v
  rw [← hroot] at hholds hlt
  refine of_assign hholds hlt (h.root_eq.trans (congrArg ptr hroot.symm)) ?_ rfl hasc hf rfl hperm
  exact { h.members with
    next_eq := congrArg (· + 1) h.members.next_eq, size_eq := congrArg (· + 1) h.members.size_eq }

/-- The value and the flag of a node are set. -/
theorem overwrite (h : Represents s t fs) {p : Cursor K V}
    (hroot : plug (node p.l p.n p.r) p.path = t.root) (n' : Node K V) (f : Cell K V → Cell K V)
    (hf : f (cell p.n p.l.ptr p.r.ptr).2 = (cell n' p.l.ptr p.r.ptr).2) (haddr : n'.addr = p.n.addr)
    (hasc : Ascending (plug (node p.l n' p.r) p.path).entries) :
    ∃ s', s.assign p.n.addr f = some s' ∧
      Represents s' { t with root := plug (node p.l n' p.r) p.path } fs := by
  have hholds : Holds s.heap ([] ++ (plug (node p.l p.n p.r) p.path).cells) := hroot ▸ h.holds
  have hlt : ∀ x ∈ [] ++ (plug (node p.l p.n p.r) p.path).cells, x.1 < s.next := hroot ▸ h.addr_lt
  exact of_assign hholds hlt (h.root_eq.trans (congrArg ptr hroot.symm)) { h.members with } rfl hasc hf haddr
    (List.Perm.refl _)

/-- What `insert` does to the tree before it logs. -/
theorem insertNode [Pod K] [Pod V] (h : Represents s t fs) (k : K) (v : V) :
    ∃ s', s.insert k v = some (s'.logAction k v writeAction) ∧ Represents s' (t.insertNode k v) fs := by
  have hasc : Ascending (t.insertNode k v).root.entries :=
    BinaryTree.entries_insertNode h.ascending k v ▸ h.ascending.upsert k _
  rw [Linked.insert, h.searchNode]
  rw [BinaryTree.insertNode] at hasc ⊢
  cases hs : t.searchNode k with
  | none =>
    obtain ⟨hholds, hlt⟩ := h.newNode k v
    have hnil : t.root.cells = [] := by
      rw [descend_eq_none_iff.mp hs]
      rfl
    rw [hnil, List.append_nil] at hholds hlt
    rw [hs] at hasc
    refine ⟨_, rfl, hholds, congrArg some h.members.next_eq, hlt, hasc, ?_⟩
    exact { h.members with
      next_eq := congrArg (· + 1) h.members.next_eq, size_eq := congrArg (· + 1) h.members.size_eq }
  | some p =>
    have hlands := BinaryTree.search_lands h.ascending hs
    have hroot : plug (node p.l p.n p.r) p.path = t.root := hlands.plug_eq
    have hptr : (t.newNode k v).ptr = some s.next := congrArg some h.members.next_eq.symm
    rw [hs] at hasc
    dsimp only at hasc
    simp only [Option.map_some, Option.bind_some, h.heap_cursor hs]
    split_ifs at hasc ⊢ with h1 h2
    · have hr : p.r = .nil := hlands.right_eq_nil h1
      have hf : { (cell p.n p.l.ptr p.r.ptr).2 with r := some s.next } =
          (cell p.n p.l.ptr (t.newNode k v).ptr).2 := by rw [hptr, cell, cell]
      have hperm : (p.l.cells ++ (t.newNode k v).cells).Perm
          ((t.newNode k v).cells ++ (p.l.cells ++ p.r.cells)) := by
        rw [hr, Tree.cells, List.append_nil]
        exact List.perm_append_comm
      obtain ⟨s', hs', hrep⟩ := h.hang k v hroot (fun c ↦ { c with r := some s.next }) hf hperm hasc
      exact ⟨s', congrArg (Option.map _) hs', hrep⟩
    · have hl : p.l = .nil := hlands.left_eq_nil h2
      have hf : { (cell p.n p.l.ptr p.r.ptr).2 with l := some s.next } =
          (cell p.n (t.newNode k v).ptr p.r.ptr).2 := by rw [hptr, cell, cell]
      have hperm : ((t.newNode k v).cells ++ p.r.cells).Perm
          ((t.newNode k v).cells ++ (p.l.cells ++ p.r.cells)) := by
        rw [hl, Tree.cells, List.nil_append]
      obtain ⟨s', hs', hrep⟩ := h.hang k v hroot (fun c ↦ { c with l := some s.next }) hf hperm hasc
      exact ⟨s', congrArg (Option.map _) hs', hrep⟩
    · obtain ⟨s', hs', hrep⟩ := h.overwrite hroot { p.n with value := v, del := false }
        (fun c ↦ { c with value := v, del := false }) rfl rfl hasc
      exact ⟨s', congrArg (Option.map _) hs', hrep⟩

/-- What `del` does to a node that was found. -/
theorem markNode [Pod V] (h : Represents s t fs) {k : K} {n : Cursor K V} (hn : t.search k = some n) :
    ∃ s', s.assign n.n.addr (fun c ↦ { c with value := tombstone V, del := true }) = some s' ∧
      Represents s' (t.markNode n) fs := by
  have hasc : Ascending (t.markNode n).root.entries :=
    BinaryTree.entries_markNode h.ascending hn ▸ h.ascending.upsert k _
  have hlands := BinaryTree.search_lands h.ascending (BinaryTree.key_of_search hn).1
  exact h.overwrite hlands.plug_eq { n.n with value := tombstone V, del := true } _ rfl rfl hasc

/-! ### The log -/

/-- The same tree, with other members. -/
theorem of_members (h : Represents s t fs) {s' : Linked K V} {t' : BinaryTree K V} {fs' : FS}
    (hmembers : SameMembers s' t' fs') (hheap : s'.heap = s.heap := by rfl) (hroot : s'.root = s.root := by rfl)
    (hnext : s'.next = s.next := by rfl) (htree : t'.root = t.root := by rfl) : Represents s' t' fs' where
  holds := hheap ▸ htree ▸ h.holds
  root_eq := hroot ▸ htree ▸ h.root_eq
  addr_lt := hnext ▸ htree ▸ h.addr_lt
  ascending := htree ▸ h.ascending
  members := hmembers

theorem setLogFile (h : Represents s t fs) (name : String) :
    Represents (s.setLogFile name) (t.setLogFile name fs).1 (t.setLogFile name fs).2 := by
  -- the old log is closed
  have hclose : Represents (Linked.closeLog { s with logfilename := name })
      { t with logfilename := name, logfile := t.logfile.map fun f ↦ { f with isOpen := false } } fs := by
    have hm := h.members
    rw [← hm.logfile_eq, Linked.closeLog]
    cases hs : s.logfile with
    | none => exact h.of_members { hm with logfile_eq := by simp, name_eq := rfl }
    | some f => exact h.of_members { hm with logfile_eq := rfl, name_eq := rfl }
  have hm := hclose.members
  rw [Linked.setLogFile, BinaryTree.setLogFile]
  by_cases hname : name = ""
  · rw [if_pos hname, if_pos hname]
    exact hclose.of_members { hm with }
  · rw [if_neg hname, if_neg hname, hm.fs_eq]
    cases fs.fopenWrite name with
    | none => exact hclose.of_members { hm with logfile_eq := rfl, fs_eq := rfl }
    | some fs' => exact hclose.of_members { hm with logfile_eq := rfl, fs_eq := rfl }

/-! ### `_free` -/

/-- **`_free`** deletes every node. -/
theorem free (h : Represents s t fs) : ∃ s', s.free = some s' ∧ Represents s' t.free fs := by
  have hptrs : s.root.toList = Linked.ptrs [t.root] := by
    rw [h.root_eq, Linked.ptrs_cons, Linked.ptrs_nil, List.append_nil]
  have hholds : Holds s.heap ([t.root].flatMap Tree.cells) := by simpa using h.holds
  have hlen : ([t.root].flatMap toList).length ≤ s.next := by simpa using h.length_le
  obtain ⟨heap, heq, hempty⟩ := Linked.freeLoop_eq hlen hholds
  refine ⟨_, by rw [Linked.free, hptrs, heq, Option.map_some], hempty, rfl, nofun, ascending_nil, ?_⟩
  exact { h.members with size_eq := rfl, started_eq := rfl, stk_eq := rfl }

variable [Pod K] [Pod V]

theorem logAction (h : Represents s t fs) (k : K) (v : V) (act : UInt8) :
    Represents (s.logAction k v act) (t.logAction k v act fs).1 (t.logAction k v act fs).2 := by
  have hm := h.members
  have hlog := hm.logfile_eq
  rw [Linked.logAction, BinaryTree.logAction]
  dsimp only
  cases hs : s.logfile with
  | none =>
    rw [hs] at hlog
    rw [← hlog]
    exact h.of_members { hm with logfile_eq := hlog }
  | some f =>
    rw [hs] at hlog
    rw [← hlog, ← hm.fs_eq]
    exact h.of_members { hm with logfile_eq := rfl, fs_eq := rfl }

/-- **`insert`.** -/
theorem insert (h : Represents s t fs) (k : K) (v : V) :
    ∃ s', s.insert k v = some s' ∧ Represents s' (t.insert k v fs).1 (t.insert k v fs).2 := by
  obtain ⟨s', heq, hrep⟩ := h.insertNode k v
  exact ⟨_, heq, hrep.logAction k v writeAction⟩

/-- **`del`.** -/
theorem del (h : Represents s t fs) (k : K) (dummy : V) :
    ∃ r s', s.del k dummy = some (r, s') ∧ r = (t.del k dummy fs).1 ∧
      Represents s' (t.del k dummy fs).2.1 (t.del k dummy fs).2.2 := by
  rw [Linked.del, h.search, BinaryTree.del]
  cases hn : t.search k with
  | none => exact ⟨-1, s, rfl, rfl, h⟩
  | some n =>
    obtain ⟨s', heq, hrep⟩ := h.markNode hn
    refine ⟨0, s'.logAction k dummy delAction, ?_, rfl, hrep.logAction k dummy delAction⟩
    simp only [Option.map_some, Option.bind_some, heq]

/-! ### Files -/

omit [Pod K] [Pod V] in
/-- The records of a dump are the nodes in order. -/
theorem dumpRecords (h : Represents s t fs) : s.dumpRecords = some (t.root.toList.map record) := by
  have hpush := Linked.pushLeft_eq h.holds (List.Sublist.refl _) h.length_le []
  have hspine := Linked.ptrs_pushLeft t.root []
  have hpending := pending_pushLeft t.root []
  have hdump := Linked.dumpLoop_eq h.holds (length_cells t.root ▸ h.length_le)
    (fun u hu ↦ (Linked.cells_of_mem_pushLeft hu).resolve_left (by simp))
    (by rw [hpending]; simpa [pending] using h.length_le : pending (Tree.pushLeft t.root []) ≤ s.next)
  rw [Linked.ptrs_nil] at hspine
  rw [Linked.dumpRecords, h.root_eq, hpush, Option.bind_some, ← hspine, hdump, walk_pushLeft, walk,
    List.append_nil]

variable {Time : Type} [TimeFormat Time]

/-- **`dump`**, of pairs that have room for the time. -/
theorem dump (h : Represents s t fs) (hsz : 20 ≤ Pod.sizeof (K × V)) (f : WFile) (now : Time)
    (dummy : K × V) :
    ∃ s', s.dump f now dummy = some s' ∧
      Represents s' (t.dump f now dummy fs).1 (t.dump f now dummy fs).2 := by
  refine ⟨_, by rw [Linked.dump, if_neg (Nat.not_lt.mpr hsz), h.dumpRecords, Option.map_some], ?_⟩
  rw [BinaryTree.dump, BinaryTree.dumpBytes, walk_pushLeft, walk, List.append_nil, ← h.members.fs_eq]
  refine Represents.logAction ?_ _ _ _
  exact h.of_members { h.members with started_eq := rfl, stk_eq := rfl, fs_eq := rfl }

theorem applyEntry (h : Represents s t fs) (dummy : V) (e : LogEntry K V) :
    ∃ s', Linked.applyEntry dummy s e = some s' ∧ Represents s' (BinaryTree.applyEntry dummy (t, fs) e).1
      (BinaryTree.applyEntry dummy (t, fs) e).2 := by
  rw [Linked.applyEntry, BinaryTree.applyEntry]
  split_ifs
  · exact h.insert _ _
  · obtain ⟨r, s', heq, -, hrep⟩ := h.del e.2.1 dummy
    exact ⟨s', by rw [heq, Option.map_some], hrep⟩
  · exact ⟨s, rfl, h⟩

theorem foldlM_applyEntry (h : Represents s t fs) (dummy : V) (es : List (LogEntry K V)) :
    ∃ s', es.foldlM (Linked.applyEntry dummy) s = some s' ∧
      Represents s' (es.foldl (BinaryTree.applyEntry dummy) (t, fs)).1
        (es.foldl (BinaryTree.applyEntry dummy) (t, fs)).2 := by
  induction es generalizing s t fs with
  | nil => exact ⟨s, rfl, h⟩
  | cons e es ih =>
    obtain ⟨s₁, hs₁, h₁⟩ := h.applyEntry dummy e
    obtain ⟨s₂, hs₂, h₂⟩ := ih h₁
    refine ⟨s₂, ?_, h₂⟩
    rw [List.foldlM_cons, hs₁]
    exact hs₂

omit [Pod K] [Pod V] in
theorem renamed (h : Represents s t fs) (fname : String) (now : Time) :
    Represents (s.renamed fname now) (t.opened fname now fs).1 (t.opened fname now fs).2 := by
  rw [Linked.renamed, BinaryTree.opened, h.members.name_eq]
  split_ifs
  · exact h.setLogFile _
  · exact h

/-- **`fromFile`.** -/
theorem fromFile (h : Represents s t fs) (fuel : ℕ) (dummy : V) (fname : String) (now : Time) :
    match BinaryTree.fromFile fuel dummy t fname now fs with
    | .error _ => s.fromFile fuel dummy fname now = none
    | .ok (t', fs') => ∃ s', s.fromFile fuel dummy fname now = some s' ∧ Represents s' t' fs' := by
  have hren := h.renamed fname now
  obtain ⟨s₁, hs₁, h₁⟩ := hren.free
  rw [BinaryTree.fromFile_eq, Linked.fromFile, hren.members.fs_eq, hs₁]
  cases (t.opened fname now fs).2.content fname with
  | none => rfl
  | some bs =>
    dsimp only
    rw [Option.bind_some, Option.bind_some]
    cases BinaryTree.readBack K V fuel bs with
    | error e => rfl
    | ok es => exact h₁.foldlM_applyEntry dummy es

/-! ### `_inorder` -/

omit [Pod K] [Pod V] in
/-- A walk changes no node. -/
theorem inorder (h : Represents s t fs) {n : Option ℕ} {s' : Linked K V} (hs : s.inorder = some (n, s')) :
    Represents s' { t with stk := s'.stk, traversalStarted := s'.traversalStarted } fs := by
  rw [Linked.inorder_eq hs]
  exact h.of_members { h.members with started_eq := rfl, stk_eq := rfl }

end Represents

/-! ## The constructors -/

/-- The tree of one node. -/
def BinaryTree.ofNode (k : K) (v : V) (del : Bool) : BinaryTree K V :=
  { (BinaryTree.empty : BinaryTree K V) with root := .node .nil ⟨0, k, v, del⟩ .nil, next := 1 }

/-- The tree and the disk that a constructor makes. -/
def Linked.Constructor.tree (fs : FS) : Constructor K V → BinaryTree K V × FS
  | .empty => (.empty, fs)
  | .logFile _logfile => BinaryTree.ofLogFile _logfile fs
  | .node k v del => (.ofNode k v del, fs)
  | .keyValue k v => (.ofNode k v false, fs)

variable [LinearOrder K]

theorem represents_empty (fs : FS) : Represents (Linked.empty fs) (BinaryTree.empty : BinaryTree K V) fs where
  holds := holds_nil_iff.mpr rfl
  root_eq := rfl
  addr_lt := nofun
  ascending := ascending_nil
  members := ⟨rfl, rfl, rfl, rfl, rfl, rfl, rfl⟩

theorem represents_ofNode (k : K) (v : V) (del : Bool) (fs : FS) :
    Represents (Linked.ofNode ⟨k, v, del, none, none⟩ fs) (.ofNode k v del) fs where
  holds := (holds_nil_iff.mpr rfl).alloc (by simp) _
  root_eq := rfl
  addr_lt x hx := by
    rw [List.mem_singleton.mp hx]
    exact Nat.zero_lt_one
  ascending := List.pairwise_singleton _ _
  members := ⟨rfl, rfl, rfl, rfl, rfl, rfl, rfl⟩

/-- **A new tree.** -/
theorem represents_make (fs : FS) (c : Linked.Constructor K V) :
    Represents (c.make fs) (c.tree fs).1 (c.tree fs).2 := by
  cases c with
  | empty => exact represents_empty fs
  | logFile _logfile => exact (represents_empty fs).setLogFile _logfile
  | node k v del => exact represents_ofNode k v del fs
  | keyValue k v => exact represents_ofNode k v false fs

end ScratchStore
