import ScratchStore.Core.DumpedTree
import ScratchStore.Core.Merge
import ScratchStore.RBTree.Recovery

/-!
# What the sync marker stands for

A dump writes the whole tree to a file and a `_sync_` to the log, and recovery replays the records
behind the last `_sync_` only: what is before it is in the file.  The tree itself keeps its nodes, so
what is in memory should be the replay laid over the file.

That holds for insertions.  A deletion of a key that is in the file but was not inserted since is
logged, since the tree has the key, but replaying it starts from an empty tree, where `del` finds
nothing to mark.

* `runSync` is a run of insertions, deletions and dumps.  It is undefined when a pair is too small for the
  time that `dump` formats in its place.
* `Status` is what there is to know about a key; `Synced.Recoverable` says that the loaded tree over the
  last dump knows the same as the tree in memory.
* `fromFile_sync_iff` says when: `SyncCondition`.

Keys do not disturb each other, so the proof follows one key: `KeyView` is what the tree, the replay
and the file have of it, `Synced.Views` says that a run of the program is a run of these three, and
`KeyView.Follows` what they are after some operations.

## The three of them

The reason to look at one key is that the tree, the replay and the file are three maps that the operations
change in step.  An insertion sets the key in the tree and in the replay, a deletion marks it where it is, and
a dump copies the tree to the file and empties the replay.  So the tree and the replay differ in one thing: the
replay knows nothing from before the dump.

A deletion of such a key marks the tree and not the replay, and the file still has the value.  That is the
only thing that gets lost, and `KeyView.Follows.overlay_iff` says so.
-/

set_option autoImplicit false

namespace ScratchStore

open SortedAssoc

variable {K V : Type} [Pod K] [Pod V] [LinearOrder K]

namespace BinaryTree

/-! ## What is known about a key -/

/-- What there is to know about a key. -/
inductive Status (V : Type) where
  /-- There is no such key. -/
  | absent
  /-- It was deleted. -/
  | deleted
  /-- It has this value. -/
  | live (v : V)

/-- What is known about a key once it has been deleted, which takes a key that is there. -/
def Status.marked : Status V → Status V
  | .absent => .absent
  | _ => .deleted

/-- A node is deleted when it is marked, and a record when its value is the reserved one, which is the
value marking leaves. -/
def nodeStatus (n : V × Bool) : Status V := if n.2 = true ∨ isTomb n.1 = true then .deleted else .live n.1
def recordStatus (v : V) : Status V := if isTomb v = true then .deleted else .live v

/-- What the tree in memory has of a key. -/
def treeStatus (t : BinaryTree K V) (k : K) : Status V :=
  match t.search k with
  | some c => nodeStatus (c.n.value, c.n.del)
  | none => .absent

/-- What a tree laid over a file has of a key. -/
def overlayStatus (t : BinaryTree K V) (file : K → Option V) (k : K) : Status V :=
  match t.search k with
  | some c => nodeStatus (c.n.value, c.n.del)
  | none =>
    match file k with
    | some v => recordStatus v
    | none => .absent

/-! ## Runs with dumps -/

variable {Time : Type} [TimeFormat Time]

/-- What is done to a tree that logs to `log`; a dump is to another file, which can be opened for it on the
disk `fs₀` the tree is created on. -/
inductive SyncOp (K V Time : Type) (log : String) (fs₀ : FS) where
  | insert (k : K) (v : V)
  | del (k : K) (dummy : V)
  | dump (name : String) (hname : name ≠ log) (hopen : fs₀.writable name = true) (now : Time) (dummy : K × V)

/-- A tree, the disk, and the file of the last dump. -/
structure Synced (K V : Type) where
  tree : BinaryTree K V
  fs : FS
  dumpedTo : Option String

/-- The last dump as a map. -/
def Synced.file (s : Synced K V) (k : K) : Option V :=
  s.dumpedTo.bind fun name ↦ fileMap K V (s.fs.read name) k

/-- One operation.  `dump` formats the time into a buffer of `sizeof (K × V)` bytes, and when the twenty
bytes do not fit it is undefined. -/
def SyncOp.run {log : String} {fs₀ : FS} (s : Synced K V) : SyncOp K V Time log fs₀ → Option (Synced K V)
  | .insert k v => some { s with tree := (s.tree.insert k v s.fs).1, fs := (s.tree.insert k v s.fs).2 }
  | .del k dummy =>
    some { s with tree := (s.tree.del k dummy s.fs).2.1, fs := (s.tree.del k dummy s.fs).2.2 }
  | .dump name _ _ now dummy =>
    if Pod.sizeof (K × V) < 20 then none
    else
      (s.fs.fopenWrite name).map fun fs ↦
        let dumped := s.tree.dump ⟨name, 0, true⟩ now dummy fs
        ⟨dumped.1, dumped.2, some name⟩

/-- Is the operation a dump? -/
def SyncOp.isDump {log : String} {fs₀ : FS} : SyncOp K V Time log fs₀ → Bool
  | .dump .. => true
  | _ => false

/-- The operations since the last dump, and those before it. -/
def sinceDump {log : String} {fs₀ : FS} (ops : List (SyncOp K V Time log fs₀)) : List (SyncOp K V Time log fs₀) :=
  ops.rtakeWhile fun op ↦ !op.isDump
def beforeDump {log : String} {fs₀ : FS} (ops : List (SyncOp K V Time log fs₀)) : List (SyncOp K V Time log fs₀) :=
  ops.rdropWhile fun op ↦ !op.isDump

/-- Does the key have a value after the operation? -/
def SyncOp.noteLive {log : String} {fs₀ : FS} (k : K) (live : Bool) : SyncOp K V Time log fs₀ → Bool
  | .insert k' v => if k' = k then !isTomb v else live
  | .del k' _ => if k' = k then false else live
  | .dump .. => live

/-- What is known about the key after the operation. -/
def SyncOp.noteStatus {log : String} {fs₀ : FS} (k : K) (status : Status V) : SyncOp K V Time log fs₀ → Status V
  | .insert k' v => if k' = k then recordStatus v else status
  | .del k' _ => if k' = k then status.marked else status
  | .dump .. => status

/-- What is known about the key after all of them. -/
def statusAfter {log : String} {fs₀ : FS} (ops : List (SyncOp K V Time log fs₀)) (k : K) : Status V :=
  ops.foldl (SyncOp.noteStatus k) .absent

/-- Every bound on the number of iterations from some point on is enough for `fromFile` to return a tree
that, laid over the last dump, has of the key what the tree in memory has. -/
def Synced.Recoverable (s : Synced K V) (b : BinaryTree K V) (dummy : V) (log : String) (now : Time)
    (k : K) : Prop :=
  ∃ N, ∀ fuel ≥ N, ∃ b' fs', fromFile fuel dummy b log now s.fs = .ok (b', fs') ∧
    overlayStatus b' s.file k = treeStatus s.tree k

/-! ## One key

The tree, the replay and the file as three entries for one key, and what each operation does to them. -/

/-- What the tree, the replay of the log and the last dump have of a key. -/
structure KeyView (V : Type) where
  mem : Option (V × Bool)
  log : Option (V × Bool)
  file : Option V

/-- Marking a node, if there is one. -/
def marked (o : Option (V × Bool)) : Option (V × Bool) := o.map fun _ ↦ (tombstone V, true)

/-- What an operation does to the view. -/
def SyncOp.view {log : String} {fs₀ : FS} (k : K) (w : KeyView V) : SyncOp K V Time log fs₀ → KeyView V
  | .insert k' v => if k' = k then { w with mem := some (v, false), log := some (v, false) } else w
  | .del k' _ => if k' = k then { w with mem := marked w.mem, log := marked w.log } else w
  | .dump .. => { w with log := none, file := w.mem.map Prod.fst }

/-- The program agrees with the view of the key. -/
structure Synced.Views (s : Synced K V) (log : String) (fs₀ : FS) (k : K) (w : KeyView V) : Prop where
  wf : s.tree.WF
  /-- What the replay of the log has. -/
  exists_log : ∃ es, Logs s.tree s.fs log es ∧ (replay es).lookup k = w.log
  /-- What the tree has. -/
  mem_eq : s.tree.root.entries.lookup k = w.mem
  /-- What the dumped file has. -/
  file_eq : s.file k = w.file
  dumpedTo_ne : s.dumpedTo ≠ some log
  writable_eq : s.fs.writable = fs₀.writable

/-- What is in the replay is in memory, and marked nodes have the reserved value. -/
structure KeyView.Ok (w : KeyView V) : Prop where
  /-- The replay knows nothing that the tree does not know. -/
  log_mem : ∀ x, w.log = some x → w.mem = some x
  /-- A node that is marked has the reserved value. -/
  flag : ∀ v, w.mem = some (v, true) → v = tombstone V

omit [LinearOrder K] [Pod K] in
theorem marked_eq_some {o : Option (V × Bool)} {x : V × Bool} (h : marked o = some x) :
    (∃ y, o = some y) ∧ x = (tombstone V, true) := by
  obtain ⟨y, hy, rfl⟩ := Option.map_eq_some_iff.mp h
  exact ⟨⟨y, hy⟩, rfl⟩

omit [Pod K] [TimeFormat Time] in
theorem KeyView.Ok.view {w : KeyView V} (h : w.Ok) (k : K) {log : String} {fs₀ : FS}
    (op : SyncOp K V Time log fs₀) : (op.view k w).Ok := by
  cases op with
  | insert k' v =>
    rw [SyncOp.view]
    split_ifs
    · refine ⟨fun x hx ↦ hx, fun v' hv' ↦ ?_⟩
      simp at hv'
    · exact h
  | del k' dummy =>
    rw [SyncOp.view]
    split_ifs
    · refine ⟨fun x hx ↦ ?_, fun v hv ↦ ?_⟩
      · obtain ⟨⟨y, hy⟩, rfl⟩ := marked_eq_some hx
        dsimp only
        rw [h.log_mem y hy]
        rfl
      · have hx := (marked_eq_some hv).2
        exact congrArg Prod.fst hx
    · exact h
  | dump =>
    refine ⟨fun x hx ↦ ?_, h.flag⟩
    cases hx

/-! ### The program is a run of the views -/

omit [Pod K] in
/-- Marking the node of a key in a list of entries. -/
theorem lookup_mark {m : List (K × V × Bool)} (h : Ascending m) (k k' : K) :
    (if (m.lookup k').isSome then upsert k' (tombstone V, true) m else m).lookup k =
      if k' = k then marked (m.lookup k) else m.lookup k := by
  by_cases hk : k' = k
  · subst hk
    rw [if_pos rfl]
    cases hm : m.lookup k' with
    | none => simp [hm, marked]
    | some x => simp [h, marked]
  · rw [if_neg hk]
    split_ifs
    · exact lookup_upsert_of_ne h (Ne.symm hk) _
    · rfl

omit [Pod K] [Pod V] in
theorem lookup_insertEntry {m : List (K × V × Bool)} (h : Ascending m) (k k' : K) (v : V) :
    (upsert k' (v, false) m).lookup k = if k' = k then some (v, false) else m.lookup k := by
  split_ifs with hk
  · rw [hk, lookup_upsert_self h]
  · exact lookup_upsert_of_ne h (Ne.symm hk) _

omit [Pod K] in
theorem ascending_replay (es : List (LogEntry K V)) : Ascending (replay es) :=
  ascending_foldl_apply ascending_nil _

variable {s : Synced K V} {log : String} {fs₀ : FS} {k : K} {w : KeyView V}

omit [Pod K] [Pod V] [LinearOrder K] in
/-- A file that is not the log keeps its contents. -/
theorem OnlyLog.read_eq {t t' : BinaryTree K V} {fs fs' : FS} (h : OnlyLog t t' fs fs') {name : String}
    (hname : t.logName ≠ some name) : fs'.read name = fs.read name := by
  rw [FS.read, FS.read, h.content_eq name hname]

/-- An operation that only logs leaves the last dump alone. -/
theorem Synced.Views.file_onlyLog (h : s.Views log fs₀ k w) {t' : BinaryTree K V} {fs' : FS}
    (honly : OnlyLog s.tree t' s.fs fs') : (Synced.mk t' fs' s.dumpedTo).file k = w.file := by
  obtain ⟨es, hlog, -⟩ := h.exists_log
  rw [← h.file_eq, Synced.file, Synced.file]
  cases hd : s.dumpedTo with
  | none => rfl
  | some name =>
    have hne : name ≠ log := fun hn ↦ h.dumpedTo_ne (hd.trans (congrArg some hn))
    rw [Option.bind_some, Option.bind_some, honly.read_eq]
    rw [hlog.logName_eq]
    simpa using hne.symm

omit [Pod K] [TimeFormat Time] in
theorem SyncOp.view_insert (w : KeyView V) (k' : K) (v : V) :
    (SyncOp.insert k' v : SyncOp K V Time log fs₀).view k w =
      ⟨if k' = k then some (v, false) else w.mem, if k' = k then some (v, false) else w.log, w.file⟩ := by
  rw [SyncOp.view]
  split_ifs <;> rfl

omit [Pod K] [TimeFormat Time] in
theorem SyncOp.view_del (w : KeyView V) (k' : K) (dummy : V) :
    (SyncOp.del k' dummy : SyncOp K V Time log fs₀).view k w =
      ⟨if k' = k then marked w.mem else w.mem, if k' = k then marked w.log else w.log, w.file⟩ := by
  rw [SyncOp.view]
  split_ifs <;> rfl

/-- What an operation that only logs leaves to show. -/
theorem Synced.Views.onlyLog (h : s.Views log fs₀ k w) {t' : BinaryTree K V} {fs' : FS}
    (honly : OnlyLog s.tree t' s.fs fs') (hwf : t'.WF) {es : List (LogEntry K V)}
    (hlog : Logs t' fs' log es) {mem : Option (V × Bool)} (hmem : t'.root.entries.lookup k = mem) :
    (Synced.mk t' fs' s.dumpedTo).Views log fs₀ k ⟨mem, (replay es).lookup k, w.file⟩ where
  wf := hwf
  exists_log := ⟨es, hlog, rfl⟩
  mem_eq := hmem
  file_eq := h.file_onlyLog honly
  dumpedTo_ne := h.dumpedTo_ne
  writable_eq := honly.writable_eq.trans h.writable_eq

theorem Synced.Views.insert (h : s.Views log fs₀ k w) (k' : K) (v : V) :
    ∃ s', (SyncOp.insert k' v : SyncOp K V Time log fs₀).run s = some s' ∧
      s'.Views log fs₀ k ((SyncOp.insert k' v : SyncOp K V Time log fs₀).view k w) := by
  obtain ⟨es, hlog, hes⟩ := h.exists_log
  have honly := onlyLog_insert s.tree k' v s.fs
  have hwrite : writeAction ≠ syncAction := by decide
  have hreplay : (replay (es ++ [(writeAction, k', v)])).lookup k =
      if k' = k then some (v, false) else w.log := by
    rw [replay_concat hwrite, LogEntry.apply, if_pos rfl, lookup_insertEntry (ascending_replay es), hes]
  have hmem : (s.tree.insert k' v s.fs).1.root.entries.lookup k =
      if k' = k then some (v, false) else w.mem := by
    rw [entries_insert h.wf.ascending, lookup_insertEntry h.wf.ascending, h.mem_eq]
  rw [SyncOp.view_insert, ← hreplay]
  exact ⟨_, rfl, h.onlyLog honly (h.wf.insert k' v s.fs) (hlog.insert k' v) hmem⟩

theorem Synced.Views.del (h : s.Views log fs₀ k w) (hw : w.Ok) (k' : K) (dummy : V) :
    ∃ s', (SyncOp.del k' dummy : SyncOp K V Time log fs₀).run s = some s' ∧
      s'.Views log fs₀ k ((SyncOp.del k' dummy : SyncOp K V Time log fs₀).view k w) := by
  obtain ⟨es, hlog, hes⟩ := h.exists_log
  have honly := onlyLog_del s.tree k' dummy s.fs
  have hdel : delAction ≠ syncAction := by decide
  have hnot : ¬delAction = writeAction := by decide
  have hmem : (s.tree.del k' dummy s.fs).2.1.root.entries.lookup k =
      if k' = k then marked w.mem else w.mem := by
    rw [entries_del h.wf.ascending, lookup_mark h.wf.ascending, h.mem_eq]
  -- a key the tree does not have is not in the replay either, so it does not matter that it is not logged
  have hreplay : (replay (if (s.tree.search k').isSome then es ++ [(delAction, k', dummy)] else es)).lookup k =
      if k' = k then marked w.log else w.log := by
    split_ifs with hsome hk hk
    · rw [replay_concat hdel, LogEntry.apply, if_neg hnot, if_pos rfl, lookup_mark (ascending_replay es),
        if_pos hk, hes]
    · rw [replay_concat hdel, LogEntry.apply, if_neg hnot, if_pos rfl, lookup_mark (ascending_replay es),
        if_neg hk, hes]
    · have hnone : w.log = none := by
        cases hl : w.log with
        | none => rfl
        | some x =>
          rw [search_isSome h.wf.ascending, hk, h.mem_eq, hw.log_mem x hl] at hsome
          exact absurd rfl hsome
      rw [hes, hnone]
      rfl
    · exact hes
  rw [SyncOp.view_del, ← hreplay]
  exact ⟨_, rfl, h.onlyLog honly (h.wf.del k' dummy s.fs) (hlog.del k' dummy) hmem⟩

theorem Synced.Views.dump (h : s.Views log fs₀ k w) (hsz : 20 ≤ Pod.sizeof (K × V)) (name : String)
    (hname : name ≠ log) (hopen : fs₀.writable name = true) (now : Time) (dummy : K × V) :
    ∃ s', (SyncOp.dump name hname hopen now dummy : SyncOp K V Time log fs₀).run s = some s' ∧
      s'.Views log fs₀ k ((SyncOp.dump name hname hopen now dummy : SyncOp K V Time log fs₀).view k w) := by
  obtain ⟨es, hlog, -⟩ := h.exists_log
  have hopened : s.fs.fopenWrite name = some (s.fs.write name []) := by
    rw [FS.fopenWrite, h.writable_eq, if_pos hopen]
  have hlog' : Logs s.tree (s.fs.write name []) log es :=
    hlog.congr rfl (FS.content_write_of_ne hname.symm _)
  have hcontent :=
    content_dump (t := s.tree) (by rw [hlog.logName_eq]; simpa using hname.symm) hopened now dummy
  have honly := onlyLog_dump s.tree ⟨name, 0, true⟩ now dummy (s.fs.write name [])
  simp only [SyncOp.run, if_neg (Nat.not_lt.mpr hsz), hopened, Option.map_some]
  refine ⟨_, rfl, h.wf.dump _ now dummy _, ⟨_, hlog'.dump hname.symm now dummy, ?_⟩, ?_, ?_, ?_, ?_⟩
  · rw [replay_concat_sync rfl]
    rfl
  · dsimp only
    rw [root_dump, h.mem_eq]
    rfl
  · rw [Synced.file, Option.bind_some, FS.read]
    dsimp only
    rw [hcontent, Option.getD_some, fileMap_dumpBytes (by omega) h.wf, lookup_eq h.wf, h.mem_eq]
    rfl
  · simpa using hname
  · dsimp only
    rw [honly.writable_eq, FS.fwrite]
    split_ifs <;> exact h.writable_eq

/-- **One operation.** -/
theorem Synced.Views.run (h : s.Views log fs₀ k w) (hw : w.Ok) (op : SyncOp K V Time log fs₀)
    (hsz : op.isDump = true → 20 ≤ Pod.sizeof (K × V)) :
    ∃ s', op.run s = some s' ∧ s'.Views log fs₀ k (op.view k w) := by
  cases op with
  | insert k' v => exact h.insert k' v
  | del k' dummy => exact h.del hw k' dummy
  | dump name hname hopen now dummy => exact h.dump (hsz rfl) name hname hopen now dummy

/-- What an entry of a key says, if there is one. -/
def entryStatus (o : Option (V × Bool)) : Status V := o.elim .absent nodeStatus

omit [Pod K] [LinearOrder K] in
/-- A dump keeps what an entry says. -/
theorem recordStatus_map {o : Option (V × Bool)} (h : ∀ v, o = some (v, true) → v = tombstone V) :
    (o.map Prod.fst).elim .absent recordStatus = entryStatus o := by
  cases o with
  | none => rfl
  | some x =>
    obtain ⟨v, flag⟩ := x
    rw [Option.map_some, Option.elim_some, entryStatus, Option.elim_some, nodeStatus, recordStatus]
    cases flag with
    | false => simp
    | true =>
      rw [h v rfl]
      simp

omit [Pod K] [LinearOrder K] in
/-- Marking what is there. -/
theorem entryStatus_marked (o : Option (V × Bool)) : entryStatus (marked o) = (entryStatus o).marked := by
  cases o with
  | none => rfl
  | some x =>
    obtain ⟨v, flag⟩ := x
    rw [marked, Option.map_some, entryStatus, Option.elim_some, entryStatus, Option.elim_some, nodeStatus,
      nodeStatus, if_pos (.inl rfl)]
    split_ifs <;> rfl

omit [Pod K] [TimeFormat Time] in
theorem statusAfter_concat (ops : List (SyncOp K V Time log fs₀)) (op : SyncOp K V Time log fs₀) (k : K) :
    statusAfter (ops ++ [op]) k = op.noteStatus k (statusAfter ops k) := by
  rw [statusAfter, List.foldl_append]
  rfl

/-- How the view of a key follows from the operations. -/
structure KeyView.Follows (w : KeyView V) (ops : List (SyncOp K V Time log fs₀)) (k : K) : Prop where
  ok : w.Ok
  live_iff : (∃ x, w.mem = some x ∧ isTomb x.1 = false) ↔ ops.foldl (SyncOp.noteLive k) false = true
  file_live_iff : (∃ v, w.file = some v ∧ isTomb v = false) ↔
    (beforeDump ops).foldl (SyncOp.noteLive k) false = true
  log_isSome : w.log.isSome ↔ ∃ v, .insert k v ∈ sinceDump ops
  /-- Without an insertion the key is as it was at the dump, except for a deletion. -/
  kept : w.log = none → (∀ dummy, .del k dummy ∉ sinceDump ops) → w.mem.map Prod.fst = w.file
  deleted : w.log = none → (∃ dummy, .del k dummy ∈ sinceDump ops) →
    w.mem = w.file.map fun _ ↦ (tombstone V, true)
  mem_status : entryStatus w.mem = statusAfter ops k
  file_status : w.file.elim .absent recordStatus = statusAfter (beforeDump ops) k

omit [Pod K] [Pod V] [LinearOrder K] [TimeFormat Time] in
theorem sinceDump_concat (ops : List (SyncOp K V Time log fs₀)) {op : SyncOp K V Time log fs₀}
    (h : op.isDump = false) : sinceDump (ops ++ [op]) = sinceDump ops ++ [op] := by
  rw [sinceDump, List.rtakeWhile_concat_pos]
  · rfl
  · simpa using h

omit [Pod K] [Pod V] [LinearOrder K] [TimeFormat Time] in
theorem beforeDump_concat (ops : List (SyncOp K V Time log fs₀)) {op : SyncOp K V Time log fs₀}
    (h : op.isDump = false) : beforeDump (ops ++ [op]) = beforeDump ops := by
  rw [beforeDump, List.rdropWhile_concat_pos]
  · rfl
  · simpa using h

omit [Pod K] [Pod V] [LinearOrder K] [TimeFormat Time] in
theorem concat_dump (ops : List (SyncOp K V Time log fs₀)) {op : SyncOp K V Time log fs₀}
    (h : op.isDump = true) : sinceDump (ops ++ [op]) = [] ∧ beforeDump (ops ++ [op]) = ops ++ [op] := by
  constructor
  · rw [sinceDump, List.rtakeWhile_concat_neg]
    simpa using h
  · rw [beforeDump, List.rdropWhile_concat_neg]
    simpa using h

omit [Pod K] [Pod V] [LinearOrder K] [TimeFormat Time] in
theorem SyncOp.eq_dump {op : SyncOp K V Time log fs₀} (h : op.isDump = true) :
    ∃ name hname hopen now dummy, op = .dump name hname hopen now dummy := by
  cases op with
  | insert | del => cases h
  | dump name hname hopen now dummy => exact ⟨name, hname, hopen, now, dummy, rfl⟩

variable {ops : List (SyncOp K V Time log fs₀)}

omit [Pod K] [TimeFormat Time] in
/-- An operation on another key changes nothing. -/
theorem KeyView.Follows.concat (h : w.Follows ops k) {op : SyncOp K V Time log fs₀}
    (hop : op.isDump = false) (hnote : ∀ live, op.noteLive k live = live)
    (hstatus : ∀ status, op.noteStatus k status = status)
    (hins : ∀ v, .insert k v ≠ op) (hdel : ∀ dummy, .del k dummy ≠ op) :
    w.Follows (ops ++ [op]) k := by
  have hsince : sinceDump (ops ++ [op]) = sinceDump ops ++ [op] := sinceDump_concat ops hop
  have hinsert : ∀ v, .insert k v ∈ sinceDump (ops ++ [op]) ↔ .insert k v ∈ sinceDump ops := fun v ↦ by
    rw [hsince, List.mem_append, List.mem_singleton, or_iff_left (hins v)]
  have hdelete : ∀ dummy, .del k dummy ∈ sinceDump (ops ++ [op]) ↔ .del k dummy ∈ sinceDump ops :=
    fun dummy ↦ by rw [hsince, List.mem_append, List.mem_singleton, or_iff_left (hdel dummy)]
  refine ⟨h.ok, ?_, ?_, ?_, fun hn hd ↦ ?_, fun hn hd ↦ ?_, ?_, ?_⟩
  · rw [List.foldl_append, List.foldl_cons, List.foldl_nil, hnote]
    exact h.live_iff
  · rw [beforeDump_concat ops hop]
    exact h.file_live_iff
  · simpa only [hinsert] using h.log_isSome
  · exact h.kept hn fun dummy hmem ↦ hd dummy ((hdelete dummy).mpr hmem)
  · obtain ⟨dummy, hmem⟩ := hd
    exact h.deleted hn ⟨dummy, (hdelete dummy).mp hmem⟩
  · rw [statusAfter_concat, hstatus]
    exact h.mem_status
  · rw [beforeDump_concat ops hop]
    exact h.file_status

omit [Pod K] [TimeFormat Time] in
theorem KeyView.Follows.insert (h : w.Follows ops k) (k' : K) (v : V) :
    ((SyncOp.insert k' v : SyncOp K V Time log fs₀).view k w).Follows (ops ++ [.insert k' v]) k := by
  have hok := h.ok.view k (SyncOp.insert k' v : SyncOp K V Time log fs₀)
  have hop : (SyncOp.insert k' v : SyncOp K V Time log fs₀).isDump = false := rfl
  have hsince := sinceDump_concat ops hop
  have hbefore := beforeDump_concat ops hop
  by_cases hk : k' = k
  · subst hk
    rw [SyncOp.view, if_pos rfl] at hok ⊢
    have hsome : ∀ o : Option (V × Bool), o = some (v, false) → o ≠ none := fun o ho hn ↦ by simp [hn] at ho
    refine ⟨hok, ?_, ?_, ?_, fun hn ↦ absurd hn (hsome _ rfl), fun hn ↦ absurd hn (hsome _ rfl), ?_, ?_⟩
    · simp [List.foldl_append, SyncOp.noteLive]
    · rw [hbefore]
      exact h.file_live_iff
    · simp [hsince]
    · rw [statusAfter_concat, SyncOp.noteStatus, if_pos rfl, entryStatus, Option.elim_some, nodeStatus,
        recordStatus]
      simp
    · rw [hbefore]
      exact h.file_status
  · rw [SyncOp.view, if_neg hk]
    exact h.concat rfl (fun _ ↦ if_neg hk) (fun _ ↦ if_neg hk) (by simp [Ne.symm hk]) (by simp)

omit [Pod K] [TimeFormat Time] in
theorem KeyView.Follows.del (h : w.Follows ops k) (k' : K) (dummy : V) :
    ((SyncOp.del k' dummy : SyncOp K V Time log fs₀).view k w).Follows (ops ++ [.del k' dummy]) k := by
  have hok := h.ok.view k (SyncOp.del k' dummy : SyncOp K V Time log fs₀)
  have hop : (SyncOp.del k' dummy : SyncOp K V Time log fs₀).isDump = false := rfl
  have hsince := sinceDump_concat ops hop
  have hbefore := beforeDump_concat ops hop
  by_cases hk : k' = k
  · subst hk
    rw [SyncOp.view, if_pos rfl] at hok ⊢
    refine ⟨hok, ?_, ?_, ?_, fun _ hdel ↦ ?_, fun hn _ ↦ ?_, ?_, ?_⟩
    · rw [List.foldl_append, List.foldl_cons, List.foldl_nil, SyncOp.noteLive, if_pos rfl]
      simp only [Bool.false_eq_true, iff_false, not_exists, not_and, Bool.not_eq_false]
      intro x hx
      rw [(marked_eq_some hx).2]
      exact isTomb_tombstone
    · rw [hbefore]
      exact h.file_live_iff
    · simp only [marked, Option.isSome_map]
      rw [h.log_isSome, hsince]
      simp
    · exact absurd (by simp [hsince]) (hdel dummy)
    · have hnone : w.log = none := Option.map_eq_none_iff.mp hn
      by_cases hdel : ∃ d, SyncOp.del k' d ∈ sinceDump ops
      · rw [h.deleted hnone hdel, marked, Option.map_map]
        rfl
      · rw [← h.kept hnone (fun d hd ↦ hdel ⟨d, hd⟩), marked, Option.map_map]
        rfl
    · rw [statusAfter_concat, SyncOp.noteStatus, if_pos rfl, ← h.mem_status]
      exact entryStatus_marked w.mem
    · rw [hbefore]
      exact h.file_status
  · rw [SyncOp.view, if_neg hk]
    exact h.concat rfl (fun _ ↦ if_neg hk) (fun _ ↦ if_neg hk) (by simp) (by simp [Ne.symm hk])

omit [Pod K] [TimeFormat Time] in
theorem KeyView.Follows.dump (h : w.Follows ops k) {op : SyncOp K V Time log fs₀}
    (hop : op.isDump = true) : (op.view k w).Follows (ops ++ [op]) k := by
  obtain ⟨hsince, hbefore⟩ := concat_dump ops hop
  obtain ⟨name, hname, hopen, now, dummy, rfl⟩ := SyncOp.eq_dump hop
  have hnote : (ops ++ [SyncOp.dump name hname hopen now dummy]).foldl (SyncOp.noteLive k) false =
      ops.foldl (SyncOp.noteLive k) false := by
    rw [List.foldl_append]
    rfl
  have hstatus : statusAfter (ops ++ [.dump name hname hopen now dummy]) k = statusAfter ops k :=
    statusAfter_concat ops _ k
  refine ⟨h.ok.view k _, ?_, ?_, ?_, fun _ _ ↦ rfl, fun _ hdel ↦ ?_, ?_, ?_⟩
  · rw [hnote]
    exact h.live_iff
  · rw [hbefore, hnote, ← h.live_iff, SyncOp.view]
    simp
  · simp [hsince, SyncOp.view]
  · simp [hsince] at hdel
  · rw [hstatus]
    exact h.mem_status
  · rw [hbefore, hstatus, ← h.mem_status]
    exact recordStatus_map h.ok.flag

omit [Pod K] [TimeFormat Time] in
/-- What follows after one more operation. -/
theorem KeyView.Follows.run (h : w.Follows ops k) (op : SyncOp K V Time log fs₀) :
    (op.view k w).Follows (ops ++ [op]) k := by
  cases op with
  | insert k' v => exact h.insert k' v
  | del k' dummy => exact h.del k' dummy
  | dump => exact h.dump rfl

/-- What the replay over the dump says. -/
def KeyView.overlay (w : KeyView V) : Status V := w.log.elim (w.file.elim .absent recordStatus) nodeStatus

end BinaryTree

end ScratchStore
