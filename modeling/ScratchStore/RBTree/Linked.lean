import ScratchStore.Lib.Runs
import ScratchStore.RBTree.Replay

/-!
# The tree in memory

`BinaryTree` once more, this time as the source has it: nodes are cells of a heap that point to each
other, and every method follows and stores pointers.  A pointer is an address, or `none` for `NULL`.
The log is kept with the calls of the C library that are made for it, since a `FILE *` may outlive its
stream.

A method that reads through a dangling pointer, deletes a node twice, calls `exit` or does not come to an
end has no result.  Every loop follows the links from node to node, so it takes as many rounds at most as
there are addresses in use, unless there is a cycle.  `new` never gives an address out again: a pointer
to a deleted node stays dangling and can be told from all others.

## What can go wrong

* `heap a = none` is an address that is not in use, and reading through it gives no result.
* A loop gets as much fuel as there are addresses in use.  A structure without a cycle cannot be longer, and
  on one with a cycle the loops of the source do not end.
* `LogCall` is written down at every `fopen`, `fclose` and `log_action`, with the number of the stream, since
  what matters there is whether a stream is still open, and the disk alone does not tell.

`Linked.Op` has all public methods, with the arguments and with what the call takes from elsewhere: the clock,
the contents of unset variables, and the bound on the loops of `fromFile`.
-/

set_option autoImplicit false

namespace ScratchStore

/-- A `Node` in memory. -/
structure Cell (K V : Type) where
  key : K
  value : V
  del : Bool
  l : Option ℕ
  r : Option ℕ

/-- What `fopen` returns for a log: a stream, and the number of the call that opened it. -/
structure Stream where
  id : ℕ
  file : WFile

/-- What is done about the log, in the order in which it is done. -/
inductive LogCall where
  | fopen (id : ℕ)
  | fclose (id : ℕ)
  /-- `setLogFile("")` returns, or `fopen` fails. -/
  | unset
  /-- `log_action`, with what `logfile` is then. -/
  | logAction (logfile : Option ℕ)

/-- The members of `BinaryTree`, its nodes, the disk, and what was done about the log. -/
structure Linked (K V : Type) where
  size : ℕ
  traversalStarted : Bool
  logfile : Option Stream
  logfilename : String
  stk : List ℕ
  root : Option ℕ
  heap : ℕ → Option (Cell K V)
  /-- The next address `new` returns. -/
  next : ℕ
  fs : FS
  /-- How many logs were opened. -/
  opened : ℕ
  calls : List LogCall

namespace Linked

variable {K V : Type}

/-! ## The log -/

/-- `if(logfile != NULL) fclose(logfile);` -/
def closeLog (s : Linked K V) : Linked K V :=
  match s.logfile with
  | none => s
  | some f => { s with
      logfile := some { f with file := { f.file with isOpen := false } }
      calls := s.calls ++ [.fclose f.id] }

/-- `setLogFile`. -/
def setLogFile (s : Linked K V) (_logfile : String) : Linked K V :=
  let s := { s with logfilename := _logfile }.closeLog
  if _logfile = "" then { s with calls := s.calls ++ [.unset] }
  else
    match s.fs.fopenWrite _logfile with
    | none => { s with logfile := none, calls := s.calls ++ [.unset] }
    | some fs => { s with
        logfile := some ⟨s.opened, ⟨_logfile, 0, true⟩⟩
        fs := fs
        opened := s.opened + 1
        calls := s.calls ++ [.fopen s.opened] }

/-- `log_action`. -/
def logAction [Pod K] [Pod V] (s : Linked K V) (k : K) (v : V) (act : UInt8) : Linked K V :=
  let s := { s with calls := s.calls ++ [LogCall.logAction (s.logfile.map Stream.id)] }
  match s.logfile with
  | none => s
  | some f =>
    let (fs, file) := s.fs.fwrite f.file (Pod.toBytes ((act, k, v) : LogEntry K V))
    { s with logfile := some { f with file := file }, fs := fs }

/-! ## The constructors and the destructor -/

/-- The members as they are initialised, with a root. -/
def initial (root : Option ℕ) (heap : ℕ → Option (Cell K V)) (next : ℕ) (fs : FS) : Linked K V where
  size := 0
  traversalStarted := false
  logfile := none
  logfilename := ""
  stk := []
  root := root
  heap := heap
  next := next
  fs := fs
  opened := 0
  calls := []

/-- `BinaryTree()`. -/
def empty (fs : FS) : Linked K V := initial none (fun _ ↦ none) 0 fs

/-- `BinaryTree(_logfile)`. -/
def ofLogFile (_logfile : String) (fs : FS) : Linked K V := (empty fs).setLogFile _logfile

/-- `BinaryTree(n)`: the new root is a copy of `n`. -/
def ofNode (n : Cell K V) (fs : FS) : Linked K V :=
  initial (some 0) (Function.update (fun _ ↦ none) 0 (some n)) 1 fs

/-- `BinaryTree(k, v)`. -/
def ofKeyValue (k : K) (v : V) (fs : FS) : Linked K V := ofNode ⟨k, v, false, none, none⟩ fs

/-- `~BinaryTree`. -/
def destroy (s : Linked K V) : Linked K V := { s with stk := [] }.setLogFile ""

/-! ## Nodes -/

/-- `new Node(k, v)` -/
def newNode (s : Linked K V) (k : K) (v : V) : ℕ × Linked K V :=
  (s.next, { s with
    heap := Function.update s.heap s.next (some ⟨k, v, false, none, none⟩), next := s.next + 1 })

/-- An assignment to members of the node at `p`. -/
def assign (s : Linked K V) (p : ℕ) (f : Cell K V → Cell K V) : Option (Linked K V) :=
  (s.heap p).map fun n ↦ { s with heap := Function.update s.heap p (some (f n)) }

section Search

variable [LinearOrder K]

/-- The loop of `_search`, with `cur` not `NULL`. -/
def searchLoop (heap : ℕ → Option (Cell K V)) (k : K) : ℕ → ℕ → Option ℕ
  | 0, _ => none
  | fuel + 1, cur => (heap cur).bind fun n ↦
    if k < n.key then
      match n.l with
      | some l => searchLoop heap k fuel l
      | none => some cur
    else if n.key < k then
      match n.r with
      | some r => searchLoop heap k fuel r
      | none => some cur
    else some cur

/-- `_search`. -/
def searchNode (s : Linked K V) (k : K) : Option (Option ℕ) :=
  match s.root with
  | none => some none
  | some cur => (searchLoop s.heap k s.next cur).map some

/-- `search`. -/
def search (s : Linked K V) (k : K) : Option (Option ℕ) :=
  (s.searchNode k).bind fun n ↦
    match n with
    | none => some none
    | some n => (s.heap n).map fun c ↦ if c.key < k ∨ k < c.key then none else some n

variable [Pod K] [Pod V]

/-- `insert(k, v)`. -/
def insert (s : Linked K V) (k : K) (v : V) : Option (Linked K V) :=
  (s.searchNode k).bind fun p ↦
    match p with
    | none =>
      let (n, s) := s.newNode k v
      some ({ s with root := some n, size := s.size + 1 }.logAction k v writeAction)
    | some p => (s.heap p).bind fun c ↦
      let done : Option (Linked K V) :=
        if c.key < k then
          let (n, s) := s.newNode k v
          { s with size := s.size + 1 }.assign p fun c ↦ { c with r := some n }
        else if k < c.key then
          let (n, s) := s.newNode k v
          { s with size := s.size + 1 }.assign p fun c ↦ { c with l := some n }
        else s.assign p fun c ↦ { c with value := v, del := false }
      done.map fun s ↦ s.logAction k v writeAction

/-- `del(k)`.  `dummy` is the value field of the unset node that is logged. -/
def del (s : Linked K V) (k : K) (dummy : V) : Option (ℤ × Linked K V) :=
  (s.search k).bind fun n ↦
    match n with
    | none => some (-1, s)
    | some n => (s.assign n fun c ↦ { c with value := tombstone V, del := true }).map fun s ↦
      (0, s.logAction k dummy delAction)

end Search

/-! ## Walks with the stack

`_inorder`, `dump` and `_free` go through the tree with the same stack.  The first keeps it between two
calls, and each of the other two begins by emptying it. -/

/-- `while(n != NULL){ stk.push(n); n = n -> l; }` -/
def pushLeft (heap : ℕ → Option (Cell K V)) : ℕ → Option ℕ → List ℕ → Option (List ℕ)
  | _, none, stk => some stk
  | 0, some _, _ => none
  | fuel + 1, some n, stk => (heap n).bind fun c ↦ pushLeft heap fuel c.l (n :: stk)

/-- `_inorder`: what it returns, and the members after it. -/
def inorder (s : Linked K V) : Option (Option ℕ × Linked K V) :=
  let started : Option (Linked K V) :=
    if s.traversalStarted then some s
    else (pushLeft s.heap s.next s.root []).map fun stk ↦ { s with traversalStarted := true, stk := stk }
  started.bind fun s ↦
    match s.stk with
    | [] => some (none, { s with traversalStarted := false })
    | n :: stk => (s.heap n).bind fun c ↦ (pushLeft s.heap s.next c.r stk).map fun stk ↦
      (some n, { s with stk := stk })

/-- A walk changes the stack and the flag, and nothing else. -/
theorem inorder_eq {s s' : Linked K V} {n : Option ℕ} (h : s.inorder = some (n, s')) :
    s' = { s with stk := s'.stk, traversalStarted := s'.traversalStarted } := by
  obtain ⟨s₁, hs₁, h⟩ := Option.bind_eq_some_iff.mp h
  have hstart : s₁ = { s with stk := s₁.stk, traversalStarted := s₁.traversalStarted } := by
    split_ifs at hs₁
    · cases hs₁
      rfl
    · obtain ⟨stk, -, rfl⟩ := Option.map_eq_some_iff.mp hs₁
      rfl
  rw [hstart] at h
  split at h
  · cases h
    rfl
  · obtain ⟨c, -, h⟩ := Option.bind_eq_some_iff.mp h
    obtain ⟨stk, -, h⟩ := Option.map_eq_some_iff.mp h
    cases h
    rfl

/-- The second loop of `dump`: the records it writes. -/
def dumpLoop (heap : ℕ → Option (Cell K V)) (next : ℕ) : ℕ → List ℕ → Option (List (K × V))
  | _, [] => some []
  | 0, _ :: _ => none
  | fuel + 1, n :: stk => (heap n).bind fun c ↦ (pushLeft heap next c.r stk).bind fun stk ↦
    (dumpLoop heap next fuel stk).map ((c.key, c.value) :: ·)

/-- The records of a dump. -/
def dumpRecords (s : Linked K V) : Option (List (K × V)) :=
  (pushLeft s.heap s.next s.root []).bind (dumpLoop s.heap s.next s.next)

/-- The loop of `_free`. -/
def freeLoop : ℕ → (ℕ → Option (Cell K V)) → List ℕ → Option (ℕ → Option (Cell K V))
  | _, heap, [] => some heap
  | 0, _, _ :: _ => none
  | fuel + 1, heap, n :: stk => (heap n).bind fun c ↦
    freeLoop fuel (Function.update heap n none) (c.r.toList ++ (c.l.toList ++ stk))

/-- `_free`. -/
def free (s : Linked K V) : Option (Linked K V) :=
  (freeLoop s.next s.heap s.root.toList).map fun heap ↦
    { s with heap := heap, root := none, size := 0, stk := [], traversalStarted := false }

section Files

variable [Pod K] [Pod V] {Time : Type} [TimeFormat Time]

/-- `dump(f)`.  `dummy` is the unset node that is logged.  The time is formatted into a buffer as large as a
pair, and where its twenty bytes do not fit the call is undefined. -/
def dump (s : Linked K V) (f : WFile) (now : Time) (dummy : K × V) : Option (Linked K V) :=
  if Pod.sizeof (K × V) < 20 then none
  else
    s.dumpRecords.map fun recs ↦
      let bytes := timeStr (Pod.sizeof (K × V)) now ++ Pod.encode recs
      { s with fs := (s.fs.fwrite f bytes).1, stk := [], traversalStarted := false }.logAction
        dummy.1 dummy.2 syncAction

variable [LinearOrder K]

/-- What `fromFile` does with a record. -/
def applyEntry (dummy : V) (s : Linked K V) (e : LogEntry K V) : Option (Linked K V) :=
  if e.1 = writeAction then s.insert e.2.1 e.2.2
  else if e.1 = delAction then (s.del e.2.1 dummy).map Prod.snd
  else some s

/-- The members when `fromFile` opens the file. -/
def renamed (s : Linked K V) (fname : String) (now : Time) : Linked K V :=
  if fname = s.logfilename then s.setLogFile (BinaryTree.backupName now) else s

/-- `fromFile(fname)`. -/
def fromFile (fuel : ℕ) (dummy : V) (s : Linked K V) (fname : String) (now : Time) :
    Option (Linked K V) :=
  ((s.renamed fname now).fs.content fname).bind fun bs ↦ (s.renamed fname now).free.bind fun s ↦
    match BinaryTree.readBack K V fuel bs with
    | .error _ => none
    | .ok es => es.foldlM (applyEntry dummy) s

end Files

/-! ## Calls -/

/-- A call of a method, with what it takes from elsewhere: the stream of a dump, the clock, unset
memory. -/
inductive Op (K V Time : Type) where
  | insert (k : K) (v : V)
  | del (k : K) (dummy : V)
  | dump (f : WFile) (now : Time) (dummy : K × V)
  | fromFile (fuel : ℕ) (dummy : V) (fname : String) (now : Time)
  | inorder
  | free
  | setLogFile (name : String)

variable [LinearOrder K] [Pod K] [Pod V] {Time : Type} [TimeFormat Time]

/-- The members after a call. -/
def step (s : Linked K V) : Op K V Time → Option (Linked K V)
  | .insert k v => s.insert k v
  | .del k dummy => (s.del k dummy).map Prod.snd
  | .dump f now dummy => s.dump f now dummy
  | .fromFile fuel dummy fname now => s.fromFile fuel dummy fname now
  | .inorder => s.inorder.map Prod.snd
  | .free => s.free
  | .setLogFile name => some (s.setLogFile name)

/-- The constructors, with what they are given: a `Node` without children, a key and a value. -/
inductive Constructor (K V : Type) where
  /-- `BinaryTree()` -/
  | empty
  /-- `BinaryTree(_logfile)` -/
  | logFile (_logfile : String)
  /-- `BinaryTree(n)` -/
  | node (k : K) (v : V) (del : Bool)
  /-- `BinaryTree(k, v)` -/
  | keyValue (k : K) (v : V)

/-- The tree a constructor makes. -/
def Constructor.make (fs : FS) : Constructor K V → Linked K V
  | .empty => Linked.empty fs
  | .logFile _logfile => Linked.ofLogFile _logfile fs
  | .node k v del => Linked.ofNode ⟨k, v, del, none, none⟩ fs
  | .keyValue k v => Linked.ofKeyValue k v fs

end Linked

end ScratchStore
