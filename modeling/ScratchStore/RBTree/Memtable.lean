import Mathlib.Data.List.DropRight
import ScratchStore.Master.KeyValue
import ScratchStore.RBTree.History
import ScratchStore.RBTree.Reachable

/-!
# The memtable is a map

What a tree should show is read off its history: a key is there when it was `Inserted` since the tree was
last emptied, and `lastOn` is what happened to it last.  A `del` has no effect on a key that is not there, and
for one that is there the last thing that happened is the last that had an effect.

`IsMap` says that the nodes in memory are a search tree that shows just that, and `isMap_run` that every run
from an empty tree leads to one.  There the keys are those of the store, and their order is `K::operator<`.

## How to read `lastOn`

The history is read from its end: the last thing that was done to the key since the tree was emptied decides
what its node has.  A `del` before the first insertion did nothing, and a `del` after it marked the node, so
`lastOn` may be a `del` only when there is a node.

`isMap_run` has the frame conditions next to it: an operation on one key leaves what is found for every other
key as it was, and a `del` that finds nothing changes nothing at all.  Each is about the state that the run
has reached, and so about every state there is.
-/

set_option autoImplicit false

namespace ScratchStore

open SortedAssoc ScratchStore.Tree

variable {K V : Type}

/-! ## What a history says about a key -/

namespace Basic

def isFree : Basic K V → Bool
  | free => true
  | _ => false

/-- What happened since the tree was last emptied. -/
def sinceFree (h : List (Basic K V)) : List (Basic K V) := h.rtakeWhile fun b ↦ !b.isFree

/-- The key was inserted since. -/
def Inserted (h : List (Basic K V)) (k : K) : Prop := ∃ v, insert k v ∈ sinceFree h

/-- What happens to the node with this key. -/
def isOn [DecidableEq K] (k : K) : Basic K V → Bool
  | insert k' _ | del k' => k' = k
  | free => false

/-- What happened last to the node with this key. -/
def lastOn [DecidableEq K] (h : List (Basic K V)) (k : K) : Option (Basic K V) :=
  ((sinceFree h).filter (isOn k)).getLast?

/-- What it leaves in the node: the value of an insertion, or the tombstone of a deletion and the flag. -/
def leaves [Pod V] : Option (Basic K V) → V × Bool
  | some (insert _ v) => (v, false)
  | _ => (tombstone V, true)

theorem sinceFree_concat_free (h : List (Basic K V)) : sinceFree (h ++ [free]) = [] :=
  List.rtakeWhile_concat_neg _ _ _ (by simp [isFree])

theorem sinceFree_concat {b : Basic K V} (hb : b.isFree = false) (h : List (Basic K V)) :
    sinceFree (h ++ [b]) = sinceFree h ++ [b] :=
  List.rtakeWhile_concat_pos _ _ _ (by simp [hb])

theorem not_inserted_concat_free (h : List (Basic K V)) (k : K) : ¬Inserted (h ++ [free]) k := by
  simp [Inserted, sinceFree_concat_free]

theorem inserted_concat {b : Basic K V} (hb : b.isFree = false) {h : List (Basic K V)} {k : K} :
    Inserted (h ++ [b]) k ↔ Inserted h k ∨ ∃ v, b = insert k v := by
  simp only [Inserted, sinceFree_concat hb, List.mem_append, List.mem_singleton, exists_or, eq_comm]

theorem lastOn_concat [DecidableEq K] {b : Basic K V} (hb : b.isFree = false) (h : List (Basic K V)) (k : K) :
    lastOn (h ++ [b]) k = if b.isOn k then some b else lastOn h k := by
  rw [lastOn, sinceFree_concat hb, List.filter_append]
  cases hk : b.isOn k with
  | true => simp [hk]
  | false => simp [hk, lastOn]

variable [LinearOrder K] [Pod V]

/-- **What the entries show of a key.** -/
theorem lookup_foldl (h : List (Basic K V)) (k : K) :
    (¬Inserted h k ∧ (h.foldl apply ([], 0)).1.lookup k = none) ∨
      (Inserted h k ∧ (h.foldl apply ([], 0)).1.lookup k = some (leaves (lastOn h k))) := by
  induction h using List.reverseRecOn with
  | nil => exact Or.inl ⟨by simp [Inserted, sinceFree], rfl⟩
  | append_singleton h b ih =>
    have hasc : Ascending (h.foldl apply ([], 0)).1 := ascending_foldl ascending_nil h
    rw [List.foldl_append, List.foldl_cons, List.foldl_nil]
    cases b with
    | insert k' v =>
      rw [inserted_concat rfl, lastOn_concat rfl, apply]
      by_cases hk : k' = k
      · subst hk
        exact Or.inr ⟨Or.inr ⟨v, rfl⟩, by simp [lookup_upsert_self hasc, isOn, leaves]⟩
      · rw [lookup_upsert_of_ne hasc (Ne.symm hk)]
        simpa [hk, isOn] using ih
    | del k' =>
      rw [inserted_concat rfl, lastOn_concat rfl, apply]
      by_cases hk : k' = k
      · subst hk
        rcases ih with ⟨hnot, hlook⟩ | ⟨hins, hlook⟩
        · exact Or.inl ⟨by simpa using hnot, by simp [hlook]⟩
        · exact Or.inr ⟨Or.inl hins, by simp [hlook, lookup_upsert_self hasc, isOn, leaves]⟩
      · have hsame : (if ((h.foldl apply ([], 0)).1.lookup k').isSome
            then upsert k' (tombstone V, true) (h.foldl apply ([], 0)).1
            else (h.foldl apply ([], 0)).1).lookup k = (h.foldl apply ([], 0)).1.lookup k := by
          split_ifs
          · exact lookup_upsert_of_ne hasc (Ne.symm hk) _
          · rfl
        rw [hsame]
        simpa [hk, isOn] using ih
    | free => exact Or.inl ⟨not_inserted_concat_free h k, rfl⟩

end Basic

/-! ## What the nodes in memory show -/

namespace Linked

variable [LinearOrder K]

/-- The value and the flag of the node that `search` returns. -/
def found (s : Linked K V) (k : K) : Option (Option (V × Bool)) :=
  (s.search k).bind fun n ↦
    match n with
    | none => some none
    | some n => (s.heap n).map fun c ↦ some (c.value, c.del)

/-- **A search tree that shows what happened to each key**: no node if it was not inserted, or else one, with
what the last insertion or deletion left in it. -/
structure IsMap [Pod V] (s : Linked K V) (h : List (Basic K V)) : Prop where
  searchTree : s.SearchTree
  /-- A key that was not inserted since the tree was emptied has no node. -/
  absent : ∀ k, s.search k = some none ↔ ¬Basic.Inserted h k
  /-- Any other has one node, with what was done last. -/
  present : ∀ k, Basic.Inserted h k → ∃ a c, s.search k = some (some a) ∧ s.HasNode a c ∧ c.key = k ∧
    (∀ b d, s.HasNode b d → d.key = k → b = a) ∧ (c.value, c.del) = Basic.leaves (Basic.lastOn h k)

end Linked

namespace Represents

variable [LinearOrder K] {s : Linked K V} {t : BinaryTree K V} {fs : FS}

theorem search_eq_none_iff (h : Represents s t fs) {k : K} :
    s.search k = some none ↔ t.root.entries.lookup k = none := by
  rw [h.search, ← BinaryTree.search_eq_lookup h.ascending, Option.some_inj, Option.map_eq_none_iff,
    Option.map_eq_none_iff]

theorem search_eq_some (h : Represents s t fs) {k : K} {x : V × Bool} (hx : t.root.entries.lookup k = some x) :
    ∃ a c, s.search k = some (some a) ∧ s.HasNode a c ∧ c.key = k ∧ (c.value, c.del) = x := by
  rw [← BinaryTree.search_eq_lookup h.ascending] at hx
  obtain ⟨c, hc, rfl⟩ := Option.map_eq_some_iff.mp hx
  obtain ⟨hs, hkey⟩ := BinaryTree.key_of_search hc
  have hnode := h.hasNode_iff.mpr ((h.holds.mem_iff _ _).mp (h.heap_cursor hs))
  exact ⟨_, _, by rw [h.search, hc]; rfl, hnode, hkey, rfl⟩

theorem found (h : Represents s t fs) (k : K) : s.found k = some (t.root.entries.lookup k) := by
  rw [Linked.found]
  cases hx : t.root.entries.lookup k with
  | none =>
    rw [h.search_eq_none_iff.mpr hx]
    rfl
  | some x =>
    obtain ⟨a, c, hs, hnode, -, rfl⟩ := h.search_eq_some hx
    rw [hs, Option.bind_some]
    dsimp only
    rw [hnode.2]
    rfl

/-- Other keys. -/
theorem found_of_upsert (h : Represents s t fs) {s' : Linked K V} {t' : BinaryTree K V} {fs' : FS}
    (h' : Represents s' t' fs') {k : K} {x : V × Bool} (hup : t'.root.entries = upsert k x t.root.entries)
    {k' : K} (hk : k' ≠ k) : s'.found k' = s.found k' := by
  rw [h'.found, h.found, hup, lookup_upsert_of_ne h.ascending hk]

variable [Pod K] [Pod V]

theorem found_insert (h : Represents s t fs) (k : K) (v : V) :
    ∃ s', s.insert k v = some s' ∧ ∀ k' ≠ k, s'.found k' = s.found k' := by
  obtain ⟨s', hs', h'⟩ := h.insert k v
  exact ⟨s', hs', fun k' hk ↦ h.found_of_upsert h' (BinaryTree.entries_insert h.ascending k v fs) hk⟩

theorem found_del (h : Represents s t fs) (k : K) (dummy : V) :
    ∃ r s', s.del k dummy = some (r, s') ∧ ∀ k' ≠ k, s'.found k' = s.found k' := by
  obtain ⟨r, s', hs', -, h'⟩ := h.del k dummy
  have hent := BinaryTree.entries_del h.ascending k dummy fs
  refine ⟨r, s', hs', fun k' hk ↦ ?_⟩
  split_ifs at hent
  · exact h.found_of_upsert h' hent hk
  · rw [h'.found, h.found, hent]

omit [Pod K] in
/-- **The tree of a history** is the map of that history. -/
theorem isMap (h : Represents s t fs) {hist : List (Basic K V)}
    (hhist : t.root.entries = (hist.foldl Basic.apply ([], 0)).1) : s.IsMap hist where
  searchTree := h.searchTree
  absent k := by
    rw [h.search_eq_none_iff, hhist]
    rcases Basic.lookup_foldl hist k with ⟨hnot, hnone⟩ | ⟨hins, hsome⟩
    · exact iff_of_true hnone hnot
    · exact iff_of_false (by simp [hsome]) fun hnot ↦ hnot hins
  present k hins := by
    have hlook := (Basic.lookup_foldl hist k).resolve_left fun hnot ↦ hnot.1 hins
    obtain ⟨a, c, hs, hnode, hkey, hval⟩ := h.search_eq_some (hhist ▸ hlook.2)
    refine ⟨a, c, hs, hnode, hkey, fun b d hb hd ↦ ?_, hval⟩
    exact h.searchTree.key_inj b d a c hb hnode (hd.trans hkey.symm)

/-- A replay of a file that is there. -/
theorem exists_fromFile (h : Represents s t fs) {Time : Type} [TimeFormat Time] {fuel : ℕ} {fname : String}
    {now : Time} {bs : Bytes} {es : List (LogEntry K V)} (hbs : (s.renamed fname now).fs.content fname = some bs)
    (hes : BinaryTree.readBack K V fuel bs = .ok es) (dummy : V) :
    ∃ s', s.fromFile fuel dummy fname now = some s' := by
  obtain ⟨s₁, hs₁, h₁⟩ := (h.renamed fname now).free
  obtain ⟨s₂, hs₂, -⟩ := h₁.foldlM_applyEntry dummy es
  refine ⟨s₂, ?_⟩
  rw [Linked.fromFile, hbs, hs₁, Option.bind_some, Option.bind_some, hes]
  exact hs₂

end Represents

/-! ## Every run -/

namespace Linked

open Master

/-- **The memtable is a map**, after any calls on an empty tree.  An operation on one key leaves the others
alone, a deletion of a key that is not there changes nothing, and every call comes to an end, a replay
if the file is there and can be read back. -/
theorem isMap_run {Time : Type} [TimeFormat Time] (fs : FS) (c : Constructor Master.K Master.V)
    (hc : c.MakesEmpty) (ops : List (Op Master.K Master.V Time)) {s : Linked Master.K Master.V}
    (hrun : Runs.run step (c.make fs) ops = some s) :
    s.IsMap ((c.make fs).history ops) ∧
      (∀ k v, ∃ s', s.insert k v = some s' ∧ ∀ k' ≠ k, s'.found k' = s.found k') ∧
      (∀ k dummy, ∃ r s', s.del k dummy = some (r, s') ∧ ∀ k' ≠ k, s'.found k' = s.found k') ∧
      (∀ k dummy, s.search k = some none → s.del k dummy = some (-1, s)) ∧
      (∃ s', s.free = some s') ∧
      ∀ fuel dummy fname (now : Time) bs es, (s.renamed fname now).fs.content fname = some bs →
        BinaryTree.readBack Master.K Master.V fuel bs = .ok es →
          ∃ s', s.fromFile fuel dummy fname now = some s' := by
  obtain ⟨t, fs', h, hshape⟩ := (represents_make fs c).run hrun
  rw [hc.shape_tree] at hshape
  refine ⟨h.isMap (congrArg Prod.fst hshape), h.found_insert, h.found_del, ?_, ?_, ?_⟩
  · intro k dummy hk
    rw [del, hk]
    rfl
  · obtain ⟨s', hs', -⟩ := h.free
    exact ⟨s', hs'⟩
  · intro fuel dummy fname now bs es hbs hes
    exact h.exists_fromFile hbs hes dummy

/-- A key that is inserted, deleted and inserted again, and one that is not there. -/
theorem isMap_run_three : ∃ s, Runs.run step (Constructor.empty.make FS.blank)
    [(.insert zeroK zeroV : Op Master.K Master.V DaySecond), .del zeroK zeroV, .insert zeroK zeroV] = some s ∧
      s.IsMap [.insert zeroK zeroV, .del zeroK, .insert zeroK zeroV] := by
  obtain ⟨s, hrun⟩ : ∃ s, Runs.run step (Constructor.empty.make FS.blank)
    [(.insert zeroK zeroV : Op Master.K Master.V DaySecond), .del zeroK zeroV, .insert zeroK zeroV] = some s :=
    ⟨_, rfl⟩
  exact ⟨s, hrun, (isMap_run FS.blank .empty trivial _ hrun).1⟩

end Linked

end ScratchStore
