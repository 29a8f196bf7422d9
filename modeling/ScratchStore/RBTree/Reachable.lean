import Mathlib.Data.List.Nodup
import ScratchStore.RBTree.Represents

/-!
# A search tree of pointers

What a tree is, said of the cells and their links alone.  `follow` goes down from a pointer, to the left or to
the right at each step, and a node is `Reach`ed when some way leads to it.  `SearchTree` asks that no link
dangles, that the keys on either side of a node compare with its own, that no key is there twice and that
no two ways lead to one node, which leaves no room for a cycle or for a node with two parents.

What represents a search tree is one: `Represents.searchTree`.

No inductive tree is mentioned in `SearchTree`, so that it can be read without the model: it is about `heap`,
`root` and what is reached from there.

* `reach_iff` is where the two descriptions meet.
* `follow_inj` excludes sharing and cycles at once.  With two ways to a node, one of them could be made longer
  and longer if they were nested, and would be a second parent if they were not.
* `reach_lt` compares every node below a link, not only the next one, with the node the link is in.
-/

set_option autoImplicit false

namespace ScratchStore

open SortedAssoc CellHeap ScratchStore.Tree

variable {K V : Type}

/-- The two links of a node. -/
inductive Side where
  | left
  | right

def Cell.link (c : Cell K V) : Side → Option ℕ
  | .left => c.l
  | .right => c.r

namespace Linked

/-- The pointer at the end of a way down. -/
def follow (heap : ℕ → Option (Cell K V)) : Option ℕ → List Side → Option ℕ
  | p, [] => p
  | p, d :: way => (p.bind heap).bind fun c ↦ follow heap (c.link d) way

/-- Some way leads from the pointer to the node. -/
def Reach (heap : ℕ → Option (Cell K V)) (p : Option ℕ) (a : ℕ) : Prop := ∃ way, follow heap p way = some a

/-- A node of the tree, with what is in it. -/
def HasNode (s : Linked K V) (a : ℕ) (c : Cell K V) : Prop := Reach s.heap s.root a ∧ s.heap a = some c

/-- **A search tree**, of nodes that point to each other. -/
structure SearchTree [LinearOrder K] (s : Linked K V) : Prop where
  /-- No pointer dangles. -/
  allocated : ∀ a, Reach s.heap s.root a → (s.heap a).isSome
  /-- Smaller keys are on the left. -/
  left : ∀ a c b d, s.HasNode a c → Reach s.heap c.l b → s.heap b = some d → d.key < c.key
  /-- Larger keys are on the right. -/
  right : ∀ a c b d, s.HasNode a c → Reach s.heap c.r b → s.heap b = some d → c.key < d.key
  /-- No key has two nodes. -/
  key_inj : ∀ a c b d, s.HasNode a c → s.HasNode b d → c.key = d.key → a = b
  /-- No node can be reached in two ways. -/
  way_inj : ∀ a way way', follow s.heap s.root way = some a → follow s.heap s.root way' = some a → way = way'

end Linked

/-! ## The cells and the entries -/

namespace Tree

/-- The entry of a cell. -/
def cellEntry (x : ℕ × Cell K V) : K × V × Bool := (x.2.key, x.2.value, x.2.del)

theorem map_cellEntry (t : Tree K V) : t.cells.map cellEntry = t.entries := by
  induction t with
  | nil => rfl
  | node l n r ihl ihr =>
    rw [cells, List.map_append, List.map_cons, ihl, ihr, entries_node]
    rfl

theorem entry_of_mem_cells {t : Tree K V} {a : ℕ} {c : Cell K V} (h : (a, c) ∈ t.cells) :
    (c.key, c.value, c.del) ∈ t.entries := by
  rw [← map_cellEntry]
  exact List.mem_map_of_mem (f := cellEntry) h

theorem mem_addrs_iff {t : Tree K V} {a : ℕ} : a ∈ t.addrs ↔ ∃ c, (a, c) ∈ t.cells := by
  rw [← map_fst_cells, List.mem_map]
  constructor
  · rintro ⟨x, hx, rfl⟩
    exact ⟨x.2, hx⟩
  · rintro ⟨c, hc⟩
    exact ⟨(a, c), hc, rfl⟩

theorem mem_addrs_node {l r : Tree K V} {n : Node K V} {a : ℕ} :
    a ∈ (node l n r).addrs ↔ a ∈ l.addrs ∨ a = n.addr ∨ a ∈ r.addrs := by
  simp [addrs, toList, or_left_comm]

/-- The three places a node can be in do not meet. -/
theorem nodup_addrs_node {l r : Tree K V} {n : Node K V} (h : (node l n r).addrs.Nodup) :
    l.addrs.Nodup ∧ r.addrs.Nodup ∧ n.addr ∉ l.addrs ∧ n.addr ∉ r.addrs ∧ ∀ a ∈ l.addrs, a ∉ r.addrs := by
  rw [addrs, toList, List.map_append, List.map_cons, List.nodup_append, List.nodup_cons] at h
  obtain ⟨hl, ⟨hnr, hr⟩, hdisj⟩ := h
  refine ⟨hl, hr, fun hmem ↦ hdisj _ hmem _ List.mem_cons_self rfl, hnr, fun a hal har ↦ ?_⟩
  exact hdisj a hal a (List.mem_cons_of_mem _ har) rfl

/-- Two cells with the same key are one. -/
theorem cells_key_inj [LinearOrder K] {t : Tree K V} (h : Ascending t.entries) {x y : ℕ × Cell K V}
    (hx : x ∈ t.cells) (hy : y ∈ t.cells) (hkey : x.2.key = y.2.key) : x = y := by
  have hnodup : (t.cells.map fun x ↦ x.2.key).Nodup := by
    rw [Ascending, ← map_cellEntry, List.pairwise_map] at h
    exact List.pairwise_map.mpr (h.imp fun hlt ↦ hlt.ne)
  exact List.inj_on_of_nodup_map hnodup hx hy hkey

end Tree

namespace Linked

variable {heap : ℕ → Option (Cell K V)} {cells : List (ℕ × Cell K V)}

@[simp] theorem follow_none (way : List Side) : follow heap none way = none := by
  cases way <;> rfl

/-- A step down. -/
theorem follow_node (h : Holds heap cells) {l : Tree K V} {n : Node K V} {r : Tree K V}
    (hsub : (node l n r).cells.Sublist cells) (d : Side) (way : List Side) :
    follow heap (node l n r).ptr (d :: way) = match d with
      | .left => follow heap l.ptr way
      | .right => follow heap r.ptr way := by
  rw [follow, ptr, Option.bind_some, h.get (hsub.subset (cell_mem_cells l n r)), Option.bind_some]
  cases d <;> rfl

/-- **The nodes that can be reached** are those of the tree. -/
theorem reach_iff (h : Holds heap cells) {t : Tree K V} (hsub : t.cells.Sublist cells) {a : ℕ} :
    Reach heap t.ptr a ↔ a ∈ t.addrs := by
  induction t with
  | nil => simp [Reach, ptr, addrs, toList]
  | node l n r ihl ihr =>
    have hl := ihl ((sublist_cells_left l n r).trans hsub)
    have hr := ihr ((sublist_cells_right l n r).trans hsub)
    rw [mem_addrs_node, ← hl, ← hr]
    constructor
    · rintro ⟨way, hway⟩
      cases way with
      | nil => exact Or.inr (Or.inl (Option.some.inj hway).symm)
      | cons d way =>
        rw [follow_node h hsub] at hway
        cases d with
        | left => exact Or.inl ⟨way, hway⟩
        | right => exact Or.inr (Or.inr ⟨way, hway⟩)
    · rintro (⟨way, hway⟩ | rfl | ⟨way, hway⟩)
      · exact ⟨.left :: way, (follow_node h hsub _ _).trans hway⟩
      · exact ⟨[], rfl⟩
      · exact ⟨.right :: way, (follow_node h hsub _ _).trans hway⟩

/-- **One way to each node.** -/
theorem follow_inj (h : Holds heap cells) {t : Tree K V} (hsub : t.cells.Sublist cells) (hnodup : t.addrs.Nodup)
    {a : ℕ} {way way' : List Side} (hway : follow heap t.ptr way = some a)
    (hway' : follow heap t.ptr way' = some a) : way = way' := by
  induction t generalizing way way' with
  | nil => simp [ptr] at hway
  | node l n r ihl ihr =>
    have hl := (sublist_cells_left l n r).trans hsub
    have hr := (sublist_cells_right l n r).trans hsub
    obtain ⟨hnodupl, hnodupr, hnl, hnr, hdisj⟩ := nodup_addrs_node hnodup
    have hmeml : ∀ {way}, follow heap l.ptr way = some a → a ∈ l.addrs := fun hway ↦ (reach_iff h hl).mp ⟨_, hway⟩
    have hmemr : ∀ {way}, follow heap r.ptr way = some a → a ∈ r.addrs := fun hway ↦ (reach_iff h hr).mp ⟨_, hway⟩
    cases way with
    | nil =>
      obtain rfl : n.addr = a := Option.some.inj hway
      cases way' with
      | nil => rfl
      | cons d' way' =>
        rw [follow_node h hsub] at hway'
        cases d' with
        | left => exact absurd (hmeml hway') hnl
        | right => exact absurd (hmemr hway') hnr
    | cons d way =>
      rw [follow_node h hsub] at hway
      cases way' with
      | nil =>
        obtain rfl : n.addr = a := Option.some.inj hway'
        cases d with
        | left => exact absurd (hmeml hway) hnl
        | right => exact absurd (hmemr hway) hnr
      | cons d' way' =>
        rw [follow_node h hsub] at hway'
        cases d with
        | left =>
          cases d' with
          | left => rw [ihl hl hnodupl hway hway']
          | right => exact absurd (hmemr hway') (hdisj a (hmeml hway))
        | right =>
          cases d' with
          | left => exact absurd (hmemr hway) (hdisj a (hmeml hway'))
          | right => rw [ihr hr hnodupr hway hway']

/-- The keys on either side of a node. -/
theorem reach_lt [LinearOrder K] (h : Holds heap cells) {t : Tree K V} (hsub : t.cells.Sublist cells)
    (hasc : Ascending t.entries) {a b : ℕ} {c d : Cell K V} (hc : (a, c) ∈ t.cells) (hd : heap b = some d) :
    (Reach heap c.l b → d.key < c.key) ∧ (Reach heap c.r b → c.key < d.key) := by
  induction t with
  | nil => cases hc
  | node l n r ihl ihr =>
    have hl := (sublist_cells_left l n r).trans hsub
    have hr := (sublist_cells_right l n r).trans hsub
    rw [entries_node, ascending_append, ascending_cons] at hasc
    obtain ⟨hal, ⟨hnr, har⟩, hln⟩ := hasc
    rw [Tree.cells, List.mem_append, List.mem_cons] at hc
    rcases hc with hc | hc | hc
    · exact ihl hl hal hc
    · cases hc
      -- what is reached is a cell of one of the subtrees
      have hentry : ∀ {u : Tree K V}, u.cells.Sublist cells → Reach heap u.ptr b →
          (d.key, d.value, d.del) ∈ u.entries := by
        intro u hu hreach
        obtain ⟨d', hd'⟩ := mem_addrs_iff.mp ((reach_iff h hu).mp hreach)
        cases (h.get (hu.subset hd')).symm.trans hd
        exact entry_of_mem_cells hd'
      exact ⟨fun hreach ↦ hln _ (hentry hl hreach) (entry n) List.mem_cons_self,
        fun hreach ↦ hnr _ (hentry hr hreach)⟩
    · exact ihr hr har hc

end Linked

namespace Represents

variable [LinearOrder K] {s : Linked K V} {t : BinaryTree K V} {fs : FS}

theorem reach_iff (h : Represents s t fs) {a : ℕ} : Linked.Reach s.heap s.root a ↔ a ∈ t.root.addrs := by
  rw [h.root_eq]
  exact Linked.reach_iff h.holds (List.Sublist.refl _)

theorem hasNode_iff (h : Represents s t fs) {a : ℕ} {c : Cell K V} : s.HasNode a c ↔ (a, c) ∈ t.root.cells := by
  rw [Linked.HasNode, h.reach_iff, h.holds.mem_iff]
  exact ⟨And.right, fun hc ↦ ⟨mem_addrs_iff.mpr ⟨c, hc⟩, hc⟩⟩

/-- **What represents a search tree is a search tree.** -/
theorem searchTree (h : Represents s t fs) : s.SearchTree where
  allocated a ha := by
    obtain ⟨c, hc⟩ := mem_addrs_iff.mp (h.reach_iff.mp ha)
    rw [h.holds.get hc]
    rfl
  left a c b d hc hreach hd :=
    (Linked.reach_lt h.holds (List.Sublist.refl _) h.ascending (h.hasNode_iff.mp hc) hd).1 hreach
  right a c b d hc hreach hd :=
    (Linked.reach_lt h.holds (List.Sublist.refl _) h.ascending (h.hasNode_iff.mp hc) hd).2 hreach
  key_inj a c b d hc hd hkey :=
    congrArg Prod.fst (cells_key_inj h.ascending (h.hasNode_iff.mp hc) (h.hasNode_iff.mp hd) hkey)
  way_inj a way way' hway hway' := by
    rw [h.root_eq] at hway hway'
    exact Linked.follow_inj h.holds (List.Sublist.refl _) h.nodup_addrs hway hway'

end Represents

end ScratchStore
