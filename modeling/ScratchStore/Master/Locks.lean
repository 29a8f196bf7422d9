import Mathlib.Data.Fintype.Order
import Mathlib.Order.Fin.Basic
import ScratchStore.Lib.LockOrder
import ScratchStore.Master.Store

/-!
# The two locks

`memlock` is for the members of `Master` and the trees, `fslock` for the files `adjust` moves.  Here only
the locks are followed: each function of `Master` is the tree of what it can do next, with a branch at
each `if`, whatever the data say, and a `returned` at each `return`.  Each of them passes the check of
`LockOrder.Code.Sound` for `fslock` before `memlock` (`sound_dbread` and the others), and so does a
thread that calls any number of them one after the other, so any number of threads do what they should
and never wait for each other in a circle: `locks_run`.

## Why the data are left out

Which way a thread goes at an `if` depends on the trees and the files, and with the data in the model nothing
could be said without the invariants of the store.  A tree of all the ways a call can go has more runs than the
call, so what holds of each of its runs holds of the program.

`Member.guard` is the discipline in one place: which lock it takes to write to a member of `Master`.  Reading
`recent` at the beginning of `dbread` takes none, and neither do the lookups in the files, and the tree of
`dbread` has these accesses without a lock, as the source does.
-/

set_option autoImplicit false

namespace ScratchStore

namespace Master

namespace Locks

open LockOrder

/-- The locks of `Master`. -/
inductive Mutex where
  | fslock
  | memlock

/-- The order in which they are taken. -/
def Mutex.rank : Mutex → Fin 2
  | fslock => 0
  | memlock => 1

theorem Mutex.rank_injective : Function.Injective Mutex.rank := by
  intro l l' h
  cases l <;> cases l' <;> first | rfl | cases h

instance : LinearOrder Mutex := LinearOrder.lift' Mutex.rank Mutex.rank_injective

instance : Finite Mutex := .of_injective Mutex.rank Mutex.rank_injective

/-- What the threads share: members of `Master`, the nodes of its trees, its files, and the blocks the
buffer manager keeps. -/
inductive Member where
  | recent
  | current
  | bintree
  | reserve
  | nodes
  | bloom
  | logs
  | filesys
  | pool
deriving DecidableEq

/-- The lock it takes to write to them.  The log of a tree is written by the thread that inserts into it
and later by the one that dumps it, and the buffer manager has no lock. -/
def Member.guard : Member → Option Mutex
  | recent | current | bintree | reserve | nodes | bloom => some .memlock
  | filesys => some .fslock
  | logs | pool => none

/-- What a thread does besides taking locks. -/
inductive Access where
  | read (m : Member)
  | write (m : Member)
  | returned

/-- The locks it takes to do so.  A function returns without any. -/
def Access.Allowed : Access → Finset Mutex → Prop
  | read _, _ => True
  | write m, held => ∀ l, m.guard = some l → l ∈ held
  | returned, held => held = ∅

/-- Some accesses, one after the other. -/
def accesses (as : List Access) (next : Code Mutex Access) : Code Mutex Access := as.foldr .act next

/-! ## The functions -/

/-- A loop over files: the thread leaves it when it finds the key. -/
def lookups (found : Code Mutex Access) (files : List (Fin numFiles)) (next : Code Mutex Access) :
    Code Mutex Access :=
  files.foldr (fun _ rest ↦ accesses [.read .filesys, .write .pool] (.branch found rest)) next

/-- `dbread`, when it has read `recent = r`. -/
def dbread (r : Fin numFiles) (next : Code Mutex Access) : Code Mutex Access :=
  let ret := .act .returned next
  let files :=
    .unlock .memlock <|
      lookups ret (slots r (r + 2)) <|
        .lock .fslock <|
          lookups (.unlock .fslock ret) (slots (r + 2) r) <|
            .unlock .fslock ret
  -- the value is copied out of the node that was found
  let copied := .act (.read .nodes) (.unlock .memlock ret)
  let searched := .branch copied (.branch copied files)
  .lock .memlock <|
    accesses [.read .recent, .read .bloom] <|
      .branch (.unlock .memlock ret) <|
        accesses [.read .bintree, .read .nodes, .read .reserve] <|
          .branch (.act (.read .nodes) searched) searched

/-- `dbwrite` -/
def dbwrite (next : Code Mutex Access) : Code Mutex Access :=
  .lock .memlock <|
    accesses [.read .bintree, .write .nodes, .write .logs, .write .bloom] <|
      .unlock .memlock <|
        .act .returned next

/-- `adjust` -/
def adjust : Code Mutex Access :=
  .lock .fslock <|
    -- tempfile, the copy and the merge
    accesses [.write .filesys, .read .recent, .read .filesys, .write .filesys, .write .filesys,
        .read .recent, .read .filesys, .write .filesys, .write .filesys] <|
      -- the dump
      accesses [.read .recent, .read .reserve, .read .nodes, .write .filesys, .write .logs] <|
        .lock .memlock <|
          accesses [.read .recent, .write .recent, .read .current, .write .logs, .read .reserve,
              .write .nodes, .write .reserve] <|
            .unlock .memlock <|
              .unlock .fslock <|
                .act .returned .done

/-- The test for a swap. -/
def checkSwap (next : Code Mutex Access) : Code Mutex Access :=
  let ret := .act .returned next
  let swap :=
    accesses [.read .bintree, .write .reserve, .read .current, .write .current, .write .logs,
        .write .bintree] <|
      .unlock .memlock <|
        .spawn adjust ret
  let no := .unlock .memlock ret
  .lock .memlock <|
    accesses [.read .bintree, .read .nodes] <|
      .branch
        (.act (.read .reserve) <|
          .branch swap (.act (.read .nodes) (.branch swap no)))
        no

/-- What a server calls. -/
inductive Call where
  /-- With the `recent` that it sees at its beginning. -/
  | dbread (r : Fin numFiles)
  | dbwrite
  /-- The test of `serve` for a swap, and the swap. -/
  | checkSwap

def Call.code : Call → Code Mutex Access → Code Mutex Access
  | dbread r => Locks.dbread r
  | dbwrite => Locks.dbwrite
  | checkSwap => Locks.checkSwap

/-- The threads: servers with their calls, and those that run `adjust`. -/
inductive Thread where
  | serve (calls : List Call)
  | adjust

def Thread.code : Thread → Code Mutex Access
  | serve calls => calls.foldr Call.code .done
  | adjust => Locks.adjust

/-! ## They pass the check -/

section Sound

variable {next : Code Mutex Access} {held : Finset Mutex}

theorem sound_accesses {as : List Access} (has : ∀ a ∈ as, a.Allowed held)
    (hnext : next.Sound Access.Allowed held) : (accesses as next).Sound Access.Allowed held := by
  induction as with
  | nil => exact hnext
  | cons a as ih => exact ⟨has a (by simp), ih fun a' ha' ↦ has a' (List.mem_cons_of_mem _ ha')⟩

/-- A loop is left with the same locks as it is entered. -/
theorem sound_lookups {found : Code Mutex Access} (files : List (Fin numFiles))
    (hfound : found.Sound Access.Allowed held) (hnext : next.Sound Access.Allowed held) :
    (lookups found files next).Sound Access.Allowed held := by
  induction files with
  | nil => exact hnext
  | cons i files ih => exact sound_accesses (by simp [Access.Allowed, Member.guard]) ⟨hfound, ih⟩

theorem sound_returned (hnext : next.Sound Access.Allowed ∅) :
    (Code.act Access.returned next).Sound Access.Allowed (∅ : Finset Mutex) := ⟨rfl, hnext⟩

/-- Releasing the only lock. -/
theorem sound_unlock {l : Mutex} (hnext : next.Sound Access.Allowed ∅) :
    (Code.unlock l next).Sound Access.Allowed {l} := by
  refine ⟨Finset.mem_singleton_self l, ?_⟩
  rwa [Finset.erase_singleton]

/-- Taking a lock when there is none. -/
theorem sound_lock {l : Mutex} (hnext : next.Sound Access.Allowed {l}) :
    (Code.lock l next).Sound Access.Allowed ∅ :=
  ⟨by simp, by rwa [insert_empty_eq]⟩

/-- **Every path of `dbread`**: the filter, the two trees, the files without a lock, the last two files
under `fslock`, and none of them. -/
theorem sound_dbread (r : Fin numFiles) (hnext : next.Sound Access.Allowed ∅) :
    (dbread r next).Sound Access.Allowed ∅ := by
  have hret := sound_returned hnext
  have hfslock := sound_lookups (slots (r + 2) r) (sound_unlock (l := .fslock) hret)
    (sound_unlock (l := .fslock) hret)
  have hfiles := sound_unlock (l := .memlock) (sound_lookups (slots r (r + 2)) hret (sound_lock hfslock))
  have hcopied : (Code.act (.read .nodes) (.unlock .memlock (.act .returned next))).Sound
      Access.Allowed ({.memlock} : Finset Mutex) := ⟨trivial, sound_unlock hret⟩
  refine sound_lock (sound_accesses (by simp [Access.Allowed]) ⟨sound_unlock hret, ?_⟩)
  refine sound_accesses (by simp [Access.Allowed]) ⟨⟨trivial, ?_⟩, ?_⟩
  · exact ⟨hcopied, hcopied, hfiles⟩
  · exact ⟨hcopied, hcopied, hfiles⟩

theorem sound_dbwrite (hnext : next.Sound Access.Allowed ∅) : (dbwrite next).Sound Access.Allowed ∅ := by
  refine sound_lock (sound_accesses ?_ (sound_unlock (sound_returned hnext)))
  simp [Access.Allowed, Member.guard]

/-- **`adjust`** takes `memlock` while it has `fslock`, which is the order. -/
theorem sound_adjust : adjust.Sound Access.Allowed ∅ := by
  have hret : (Code.act Access.returned Code.done).Sound Access.Allowed (∅ : Finset Mutex) :=
    sound_returned rfl
  have horder : ∀ l ∈ ({.fslock} : Finset Mutex), l < .memlock := by decide
  have hmem : Mutex.memlock ∈ insert .memlock ({.fslock} : Finset Mutex) := Finset.mem_insert_self _ _
  have herase : (insert .memlock ({.fslock} : Finset Mutex)).erase .memlock = {.fslock} := by decide
  refine sound_lock (sound_accesses ?_ (sound_accesses ?_ ⟨horder, sound_accesses ?_ ⟨hmem, ?_⟩⟩))
  · simp [Access.Allowed, Member.guard]
  · simp [Access.Allowed, Member.guard]
  · simp [Access.Allowed, Member.guard]
  · rw [herase]
    exact sound_unlock hret

theorem sound_checkSwap (hnext : next.Sound Access.Allowed ∅) :
    (checkSwap next).Sound Access.Allowed ∅ := by
  have hno := sound_unlock (l := .memlock) (sound_returned hnext)
  have hspawn : (Code.spawn adjust (.act .returned next)).Sound Access.Allowed (∅ : Finset Mutex) :=
    ⟨sound_adjust, sound_returned hnext⟩
  have hswap : (accesses [.read .bintree, .write .reserve, .read .current, .write .current, .write .logs,
      .write .bintree] (.unlock .memlock (.spawn adjust (.act .returned next)))).Sound Access.Allowed
        {.memlock} :=
    sound_accesses (by simp [Access.Allowed, Member.guard]) (sound_unlock hspawn)
  refine sound_lock (sound_accesses (by simp [Access.Allowed]) ⟨⟨trivial, hswap, trivial, hswap, hno⟩, hno⟩)

/-- **Every thread** passes the check. -/
theorem sound_thread (thread : Thread) : thread.code.Sound Access.Allowed ∅ := by
  cases thread with
  | serve calls =>
    induction calls with
    | nil => rfl
    | cons call calls ih =>
      cases call with
      | dbread r => exact sound_dbread r ih
      | dbwrite => exact sound_dbwrite ih
      | checkSwap => exact sound_checkSwap ih
  | adjust => exact sound_adjust

end Sound

/-! ## Any number of threads -/

/-- What the locks are for, in one state: no thread takes a lock it has or releases one it does not have,
who returns from a function or is done has none, `recent`, `bintree` and `reserve` are written with
`memlock` only, and unless all are done some thread can go on. -/
structure Disciplined (st : State Mutex Access) : Prop where
  /-- No thread takes a lock that it has, or releases one that it does not have. -/
  not_faulty : ∀ i, ¬st.Faulty i
  /-- Who returns, or is done, has no lock. -/
  returned : ∀ (i : ℕ) (next : Code Mutex Access),
    st.threads[i]? = some (.act .returned next) ∨ st.threads[i]? = some .done → ∀ l, st.owner l ≠ some i
  /-- These members are only written by a thread that has `memlock`. -/
  guarded : ∀ (i : ℕ) (m : Member) (next : Code Mutex Access), st.threads[i]? = some (.act (.write m) next) →
    m ∈ [.recent, .bintree, .reserve] → st.owner .memlock = some i
  /-- As long as some thread is not done, some thread can take a step. -/
  progress : ∀ (i : ℕ) (code : Code Mutex Access), st.threads[i]? = some code → code ≠ .done →
    ∃ e st', st.step e = some st'

/-- **The discipline of the locks**, in every state that any number of threads can reach.  A thread is a
server with any calls, or one that runs `adjust`, and at each `if` it may go either way. -/
theorem locks_run (threads : List Thread) (es : List (ℕ × Bool)) (st : State Mutex Access)
    (hrun : Runs.run State.step (State.start (threads.map Thread.code)) es = some st) :
    Disciplined st := by
  have hthreads : ∀ code ∈ threads.map Thread.code, code.Sound Access.Allowed ∅ := by
    intro code hcode
    obtain ⟨thread, -, rfl⟩ := List.mem_map.mp hcode
    exact sound_thread thread
  obtain ⟨held, hst⟩ := sound_run hthreads hrun
  refine ⟨hst.not_faulty, fun i next hi l howner ↦ ?_, fun i m next hi hm ↦ ?_,
    fun i code hi hdone ↦ hst.progress hi hdone⟩
  · have hempty : held i = ∅ := by
      rcases hi with hi | hi
      · exact (hst.sound i _ hi).1
      · exact hst.sound i _ hi
    exact Finset.notMem_empty l (hempty ▸ (hst.mem_iff i l).mpr howner)
  · refine (hst.mem_iff i _).mp ((hst.sound i _ hi).1 .memlock ?_)
    simp only [List.mem_cons, List.not_mem_nil, or_false] at hm
    rcases hm with rfl | rfl | rfl <;> rfl

/-- A server has taken `memlock` for a write, and an `adjust` has taken `fslock`. -/
theorem locks_run_bothLocked : ∃ st, Runs.run State.step
    (State.start (List.map Thread.code [.serve [.dbwrite, .dbread 0, .checkSwap], .adjust]))
      [(0, true), (1, true)] = some st ∧ Disciplined st :=
  ⟨_, rfl, locks_run [.serve [.dbwrite, .dbread 0, .checkSwap], .adjust] [(0, true), (1, true)] _ rfl⟩

end Locks

end Master

end ScratchStore
