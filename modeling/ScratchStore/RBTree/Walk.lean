import Mathlib.Data.List.Perm.Subperm
import ScratchStore.RBTree.BinaryTree

/-!
# A walk through a tree that grows

Between two calls of `_inorder` a walk is at a place in the tree.  What comes `before` that place is over, what
comes `after` it is still ahead, and the stack holds the nodes where the way to it goes to the left
(`leftAddrs`).

Meanwhile the tree may grow: nodes get other values, and trees hang where there were none.  `Extends` says so,
and a place in a tree is one in every tree that extends it (`exists_plug_of_extends`), with the same stack and
with no less before and after it.

`Progress` is what a walk has returned and has still to return: it starts with `Progress.first`, is kept when
the tree grows by `Progress.grow`, and moves on by `Progress.pop`.

## Places

A walk does not keep its place: it keeps addresses on a stack.  `Progress` says that there is a place to which
the stack is `leftAddrs`, and that is enough to know what is returned next, since the next node is the last
one to whose left the way went (`exists_node_of_leftAddrs`).

A tree that grows keeps the place because a new node hangs where there was none, and the path to the place
leads through nodes that were there.  A key that is inserted before the place is not returned, one that is
inserted after it is, and a node that is marked stays in its place.
-/

set_option autoImplicit false

namespace ScratchStore

open SortedAssoc

variable {K V : Type}

namespace Tree

/-! ## Growth

An insertion hangs one node below another, and nothing else changes. -/

/-- The same nodes with the same keys, and perhaps others below them. -/
inductive Extends : Tree K V → Tree K V → Prop
  | nil (t : Tree K V) : Extends nil t
  | node {l l' r r' : Tree K V} {n n' : Node K V} (hl : Extends l l') (haddr : n'.addr = n.addr)
      (hkey : n'.key = n.key) (hr : Extends r r') : Extends (node l n r) (node l' n' r')

/-- The same for what a path leaves aside. -/
inductive Frame.Extends : Frame K V → Frame K V → Prop
  | left {n n' : Node K V} {r r' : Tree K V} (haddr : n'.addr = n.addr) (hkey : n'.key = n.key)
      (hr : Tree.Extends r r') : Frame.Extends (.left n r) (.left n' r')
  | right {l l' : Tree K V} {n n' : Node K V} (hl : Tree.Extends l l') (haddr : n'.addr = n.addr)
      (hkey : n'.key = n.key) : Frame.Extends (.right l n) (.right l' n')

theorem Extends.refl (t : Tree K V) : Extends t t := by
  induction t with
  | nil => exact .nil _
  | node l n r ihl ihr => exact .node ihl rfl rfl ihr

theorem Extends.trans {t t' t'' : Tree K V} (h : Extends t t') (h' : Extends t' t'') : Extends t t'' := by
  induction h generalizing t'' with
  | nil => exact .nil _
  | node _ haddr hkey _ ihl ihr =>
    cases h' with
    | node hl haddr' hkey' hr => exact .node (ihl hl) (haddr'.trans haddr) (hkey'.trans hkey) (ihr hr)

theorem Extends.plug {t t' : Tree K V} (h : Extends t t') (path : List (Frame K V)) :
    Extends (plug t path) (plug t' path) := by
  induction path generalizing t t' with
  | nil => exact h
  | cons f path ih =>
    cases f with
    | left n r => exact ih (.node h rfl rfl (.refl r))
    | right l n => exact ih (.node (.refl l) rfl rfl h)

/-- **A place in a tree** is one in a tree that extends it. -/
theorem exists_plug_of_extends {t u : Tree K V} {path : List (Frame K V)} (h : Extends (plug t path) u) :
    ∃ t' path', plug t' path' = u ∧ Extends t t' ∧ List.Forall₂ Frame.Extends path path' := by
  induction path generalizing t with
  | nil => exact ⟨u, [], rfl, h, .nil⟩
  | cons f path ih =>
    cases f with
    | left n r =>
      obtain ⟨t', path', hplug, ht, hpath⟩ := ih h
      cases ht with
      | node hl haddr hkey hr => exact ⟨_, _ :: path', hplug, hl, .cons (.left haddr hkey hr) hpath⟩
    | right l n =>
      obtain ⟨t', path', hplug, ht, hpath⟩ := ih h
      cases ht with
      | node hl haddr hkey hr => exact ⟨_, _ :: path', hplug, hr, .cons (.right hl haddr hkey) hpath⟩

theorem Extends.sublist_keys {t t' : Tree K V} (h : Extends t t') :
    (t.entries.map Prod.fst).Sublist (t'.entries.map Prod.fst) := by
  induction h with
  | nil => exact List.nil_sublist _
  | node _ _ hkey _ ihl ihr =>
    rw [entries_node, entries_node, List.map_append, List.map_append, List.map_cons, List.map_cons, entry, entry,
      hkey]
    exact ihl.append (ihr.cons_cons _)

theorem sublist_before {path path' : List (Frame K V)} (h : List.Forall₂ Frame.Extends path path') :
    ((before path).map Prod.fst).Sublist ((before path').map Prod.fst) := by
  induction h with
  | nil => exact List.Sublist.refl _
  | cons hf _ ih =>
    cases hf with
    | left => exact ih
    | right hl _ hkey =>
      rw [before, before, List.map_append, List.map_append, List.map_append, List.map_append, List.map_singleton,
        List.map_singleton, entry, entry, hkey]
      exact (ih.append hl.sublist_keys).append (List.Sublist.refl _)

theorem sublist_after {path path' : List (Frame K V)} (h : List.Forall₂ Frame.Extends path path') :
    ((after path).map Prod.fst).Sublist ((after path').map Prod.fst) := by
  induction h with
  | nil => exact List.Sublist.refl _
  | cons hf _ ih =>
    cases hf with
    | left _ hkey hr =>
      rw [after, after, List.map_append, List.map_append, List.map_cons, List.map_cons, entry, entry, hkey]
      exact (hr.sublist_keys.cons_cons _).append ih
    | right => exact ih

/-! ## Places -/

/-- The nodes where a path goes to the left, from the last to the first. -/
def leftAddrs : List (Frame K V) → List ℕ
  | [] => []
  | .left n _ :: path => n.addr :: leftAddrs path
  | .right _ _ :: path => leftAddrs path

/-- What the first loop of a walk pushes. -/
def spine : Tree K V → List ℕ
  | nil => []
  | node l n _ => l.spine ++ [n.addr]

/-- The path to the leftmost place. -/
def leftmost : Tree K V → List (Frame K V) → List (Frame K V)
  | nil, path => path
  | node l n r, path => leftmost l (.left n r :: path)

theorem leftAddrs_eq {path path' : List (Frame K V)} (h : List.Forall₂ Frame.Extends path path') :
    leftAddrs path' = leftAddrs path := by
  induction h with
  | nil => rfl
  | cons hf _ ih =>
    cases hf with
    | left haddr => rw [leftAddrs, leftAddrs, haddr, ih]
    | right => exact ih

theorem plug_leftmost (t : Tree K V) (path : List (Frame K V)) : plug nil (leftmost t path) = plug t path := by
  induction t generalizing path with
  | nil => rfl
  | node l n r ihl _ => exact ihl _

theorem leftAddrs_leftmost (t : Tree K V) (path : List (Frame K V)) :
    leftAddrs (leftmost t path) = t.spine ++ leftAddrs path := by
  induction t generalizing path with
  | nil => rfl
  | node l n r ihl _ => rw [leftmost, ihl, leftAddrs, spine, List.append_assoc, List.singleton_append]

theorem before_leftmost (t : Tree K V) (path : List (Frame K V)) : before (leftmost t path) = before path := by
  induction t generalizing path with
  | nil => rfl
  | node l n r ihl _ => exact ihl _

theorem after_leftmost (t : Tree K V) (path : List (Frame K V)) :
    after (leftmost t path) = t.entries ++ after path := by
  induction t generalizing path with
  | nil => rfl
  | node l n r ihl _ => rw [leftmost, ihl, after, entries_node, List.append_assoc]

theorem after_of_leftAddrs_eq_nil {path : List (Frame K V)} (h : leftAddrs path = []) : after path = [] := by
  induction path with
  | nil => rfl
  | cons f path ih =>
    cases f with
    | left n r => cases h
    | right l n => exact ih h

/-- **The node on top of the stack** is the next one: up from the place, to where the path last goes left. -/
theorem exists_node_of_leftAddrs {path : List (Frame K V)} {a : ℕ} {stk : List ℕ} (h : leftAddrs path = a :: stk)
    (hole : Tree K V) :
    ∃ l n r path', plug hole path = plug (node l n r) path' ∧ n.addr = a ∧ leftAddrs path' = stk ∧
      before path ++ hole.entries = before path' ++ l.entries ∧
      after path = entry n :: (r.entries ++ after path') := by
  induction path generalizing hole with
  | nil => cases h
  | cons f path ih =>
    cases f with
    | left n r =>
      cases h
      exact ⟨hole, n, r, path, rfl, rfl, rfl, rfl, rfl⟩
    | right l n =>
      obtain ⟨l', n', r', path', hplug, haddr, hstk, hbefore, hafter⟩ := ih h (node l n hole)
      refine ⟨l', n', r', path', hplug, haddr, hstk, ?_, hafter⟩
      rw [← hbefore, before, entries_node]
      simp

/-! ## Progress -/

variable [LinearOrder K]

/-- **A walk in the middle of a tree**: it is at the place that the stack tells, has returned `ks`, in order, and
what is missing of `start` is ahead. -/
structure Progress (t : Tree K V) (stk : List ℕ) (start ks : List K) : Prop where
  /-- The stack is the way to the place, what was returned is before it, and the rest is to come. -/
  place : ∃ hole path, plug hole path = t ∧ leftAddrs path = stk ∧
    (∀ k ∈ ks, k ∈ (before path).map Prod.fst) ∧ ∀ k ∈ start, k ∈ ks ∨ k ∈ (after path).map Prod.fst
  ascending : ks.Pairwise (· < ·)

namespace Progress

variable {t t' : Tree K V} {stk : List ℕ} {start ks : List K}

/-- No walk. -/
protected theorem nil (t : Tree K V) : Progress t [] [] [] where
  place := ⟨t, [], rfl, rfl, nofun, nofun⟩
  ascending := .nil

/-- Any walk. -/
theorem weaken (h : Progress t stk start ks) : Progress t stk [] [] where
  place := by
    obtain ⟨hole, path, hplug, hstk, -, -⟩ := h.place
    exact ⟨hole, path, hplug, hstk, nofun, nofun⟩
  ascending := .nil

/-- **The first loop of a walk.** -/
theorem first (t : Tree K V) : Progress t t.spine (t.entries.map Prod.fst) [] where
  place := by
    refine ⟨nil, leftmost t [], plug_leftmost t [], ?_, nofun, fun k hk ↦ Or.inr ?_⟩
    · rw [leftAddrs_leftmost, leftAddrs, List.append_nil]
    · rwa [after_leftmost, after, List.append_nil]
  ascending := .nil

/-- **The tree grows.** -/
theorem grow (h : Progress t stk start ks) (ht : Extends t t') : Progress t' stk start ks where
  place := by
    obtain ⟨hole, path, rfl, hstk, hks, hstart⟩ := h.place
    obtain ⟨hole', path', hplug, -, hpath⟩ := exists_plug_of_extends ht
    refine ⟨hole', path', hplug, (leftAddrs_eq hpath).trans hstk, fun k hk ↦ ?_, fun k hk ↦ ?_⟩
    · exact (sublist_before hpath).subset (hks k hk)
    · exact (hstart k hk).imp_right fun hafter ↦ (sublist_after hpath).subset hafter
  ascending := h.ascending

/-- **The next node.** -/
theorem pop {a : ℕ} (h : Progress t (a :: stk) start ks) (ht : Ascending t.entries) :
    ∃ l n r path, plug (node l n r) path = t ∧ n.addr = a ∧
      Progress t (r.spine ++ stk) start (ks ++ [n.key]) := by
  obtain ⟨hole, path, hplug, hstk, hks, hstart⟩ := h.place
  obtain ⟨l, n, r, path', hplug', haddr, hstk', hbefore, hafter⟩ := exists_node_of_leftAddrs hstk hole
  rw [hplug] at hplug'
  -- what was returned lies to the left of the node
  have hleft : ∀ k ∈ ks, k ∈ (before path' ++ l.entries).map Prod.fst := by
    intro k hk
    rw [← hbefore, List.map_append]
    exact List.mem_append_left _ (hks k hk)
  refine ⟨l, n, r, path', hplug'.symm, haddr, ⟨nil, leftmost r (.right l n :: path'), ?_, ?_, ?_, ?_⟩, ?_⟩
  · rw [plug_leftmost, plug, hplug']
  · rw [leftAddrs_leftmost, leftAddrs, hstk']
  · intro k hk
    rw [before_leftmost, before, List.map_append, List.mem_append]
    rcases List.mem_append.mp hk with hk | hk
    · exact Or.inl (hleft k hk)
    · exact Or.inr hk
  · intro k hk
    rw [after_leftmost, after]
    rcases hstart k hk with hk | hk
    · exact Or.inl (List.mem_append_left _ hk)
    · rw [hafter, List.map_cons, List.mem_cons] at hk
      exact hk.imp_left fun hk ↦ List.mem_append_right _ (List.mem_singleton.mpr hk)
  · refine List.pairwise_append.mpr ⟨h.ascending, List.pairwise_singleton _ _, fun k hk k' hk' ↦ ?_⟩
    rw [List.mem_singleton.mp hk']
    obtain ⟨x, hx, rfl⟩ := List.mem_map.mp (hleft k hk)
    rw [hplug', entries_plug, entries_node, ← List.append_assoc, ascending_append, ascending_append] at ht
    exact ht.1.2.2 x hx (entry n) List.mem_cons_self

/-- **The end of the walk.** -/
theorem mem_of_nil (h : Progress t [] start ks) : ∀ k ∈ start, k ∈ ks := by
  obtain ⟨hole, path, -, hstk, -, hstart⟩ := h.place
  intro k hk
  refine (hstart k hk).resolve_right fun hafter ↦ ?_
  rw [after_of_leftAddrs_eq_nil hstk] at hafter
  cases hafter

theorem subset_keys (h : Progress t stk start ks) : ks ⊆ t.entries.map Prod.fst := by
  obtain ⟨hole, path, rfl, -, hks, -⟩ := h.place
  intro k hk
  rw [entries_plug, List.map_append, List.map_append]
  exact List.mem_append_left _ (List.mem_append_left _ (hks k hk))

theorem nodup (h : Progress t stk start ks) : ks.Nodup := h.ascending.imp fun hlt ↦ hlt.ne

/-- No more keys are returned than there are nodes. -/
theorem length_le (h : Progress t stk start ks) : ks.length ≤ t.entries.length := by
  have hlen := (List.subperm_of_subset h.nodup h.subset_keys).length_le
  rwa [List.length_map] at hlen

/-- What is still ahead comes after what was returned. -/
theorem lt_of_notMem (h : Progress t stk start ks) (ht : Ascending t.entries) {k k' : K} (hk : k ∈ start)
    (hnot : k ∉ ks) (hk' : k' ∈ ks) : k' < k := by
  obtain ⟨hole, path, rfl, -, hks, hstart⟩ := h.place
  obtain ⟨x, hx, rfl⟩ := List.mem_map.mp ((hstart k hk).resolve_left hnot)
  obtain ⟨x', hx', rfl⟩ := List.mem_map.mp (hks k' hk')
  rw [entries_plug, ascending_append] at ht
  exact ht.2.2 x' (List.mem_append_left _ hx') x hx

end Progress

end Tree

/-! ## What calls do to a walk -/

namespace BinaryTree

/-- The walk is where it was, in a tree that has grown. -/
structure Grows (t t' : BinaryTree K V) : Prop where
  stk_eq : t'.stk = t.stk
  started_eq : t'.traversalStarted = t.traversalStarted
  extends_root : t.root.Extends t'.root

/-- There is no walk. -/
structure AtRest (t : BinaryTree K V) : Prop where
  stk_eq : t.stk = []
  started_eq : t.traversalStarted = false

theorem Grows.refl (t : BinaryTree K V) : t.Grows t := ⟨rfl, rfl, .refl _⟩

theorem Grows.trans {t t' t'' : BinaryTree K V} (h : t.Grows t') (h' : t'.Grows t'') : t.Grows t'' where
  stk_eq := h'.stk_eq.trans h.stk_eq
  started_eq := h'.started_eq.trans h.started_eq
  extends_root := h.extends_root.trans h'.extends_root

theorem Grows.atRest {t t' : BinaryTree K V} (h : t.Grows t') (ht : t.AtRest) : t'.AtRest where
  stk_eq := h.stk_eq.trans ht.stk_eq
  started_eq := h.started_eq.trans ht.started_eq

theorem grows_setLogFile (t : BinaryTree K V) (name : String) (fs : FS) : t.Grows (t.setLogFile name fs).1 := by
  rw [setLogFile]
  dsimp only
  split_ifs
  · exact ⟨rfl, rfl, .refl _⟩
  · split
    · exact ⟨rfl, rfl, .refl _⟩
    · exact ⟨rfl, rfl, .refl _⟩

theorem grows_logAction [Pod K] [Pod V] (t : BinaryTree K V) (k : K) (v : V) (act : UInt8) (fs : FS) :
    t.Grows (t.logAction k v act fs).1 := by
  rw [logAction]
  split
  · exact .refl t
  · exact ⟨rfl, rfl, .refl _⟩

variable [LinearOrder K] {t : BinaryTree K V}

/-- A node that is found is assigned to. -/
theorem extends_plug (h : Ascending t.root.entries) {k : K} {c : Cursor K V} (hs : t.searchNode k = some c)
    {u : Tree K V} (hu : c.subtree.Extends u) : t.root.Extends (Tree.plug u c.path) := by
  have hroot : Tree.plug c.subtree c.path = t.root := (search_lands h hs).plug_eq
  exact hroot ▸ hu.plug c.path

theorem grows_insertNode (h : Ascending t.root.entries) (k : K) (v : V) : t.Grows (t.insertNode k v) := by
  rw [insertNode]
  cases hs : t.searchNode k with
  | none =>
    refine ⟨rfl, rfl, ?_⟩
    rw [Tree.descend_eq_none_iff.mp hs]
    exact .nil _
  | some p =>
    have hlands := search_lands h hs
    dsimp only
    split_ifs with h1 h2
    · refine ⟨rfl, rfl, extends_plug h hs (.node (.refl _) rfl rfl ?_)⟩
      rw [hlands.right_eq_nil h1]
      exact .nil _
    · refine ⟨rfl, rfl, extends_plug h hs (.node ?_ rfl rfl (.refl _))⟩
      rw [hlands.left_eq_nil h2]
      exact .nil _
    · exact ⟨rfl, rfl, extends_plug h hs (.node (.refl _) rfl rfl (.refl _))⟩

variable [Pod K] [Pod V]

/-- **`insert`.** -/
theorem grows_insert (h : Ascending t.root.entries) (k : K) (v : V) (fs : FS) : t.Grows (t.insert k v fs).1 :=
  (grows_insertNode h k v).trans (grows_logAction _ k v _ fs)

/-- **`del`.** -/
theorem grows_del (h : Ascending t.root.entries) (k : K) (dummy : V) (fs : FS) :
    t.Grows (t.del k dummy fs).2.1 := by
  rw [BinaryTree.del]
  split
  · exact .refl t
  · rename_i n hn
    have hmark : t.Grows (t.markNode n) :=
      ⟨rfl, rfl, extends_plug h (key_of_search hn).1 (.node (.refl _) rfl rfl (.refl _))⟩
    exact hmark.trans (grows_logAction _ k dummy _ fs)

end BinaryTree

end ScratchStore
