import Mathlib.Data.List.DropRight
import ScratchStore.Lib.Float24
import ScratchStore.RBTree.Log

/-!
# Loading a tree from its log

`BinaryTree::fromFile` empties the tree, looks backwards through the log for the last `_sync_`
record, and applies the records after it.  The forward loop runs until `feof`, so it notices the
end of the file one read too late and applies the last record twice.

Neither loop terminates on every file, so both take a bound on the number of iterations and report
`unfinished` when it runs out.  On a log of whole records they finish within as many iterations as
there are records and two more: `fromFile_entries`.

## From the file to the tree

The proofs go from the bytes to the tree in three steps, each of which is right or wrong by itself.

* `readBack` is the list of records that the loops have in their buffer, one after the other.  It depends on
  the file and not on the tree, and `fromFile_eq` says that `fromFile` applies just these.
* `readBack_encode` computes that list for a log of whole records: what is after the last `_sync_`, and its
  last record once more.
* Applying a record twice is applying it once (`apply_apply`), so the extra round does no harm.

When the last record of the log is a `_sync_`, what is read twice is that `_sync_`, and it applies to nothing.
-/

set_option autoImplicit false

namespace ScratchStore

open SortedAssoc

variable {K V : Type}

/-- What a log record does to the entries of a tree. -/
def LogEntry.apply [LinearOrder K] [Pod V] (m : List (K × V × Bool)) (e : LogEntry K V) :
    List (K × V × Bool) :=
  if e.1 = writeAction then upsert e.2.1 (e.2.2, false) m
  else if e.1 = delAction then
    if (m.lookup e.2.1).isSome then upsert e.2.1 (tombstone V, true) m else m
  else m

/-- The records after the last `_sync_`. -/
def afterSync (es : List (LogEntry K V)) : List (LogEntry K V) :=
  es.rtakeWhile fun e ↦ e.1 ≠ syncAction

/-- The entries a log stands for. -/
def replay [LinearOrder K] [Pod V] (es : List (LogEntry K V)) : List (K × V × Bool) :=
  (afterSync es).foldl LogEntry.apply []

@[simp] theorem afterSync_nil : afterSync ([] : List (LogEntry K V)) = [] := rfl

theorem afterSync_concat_sync {es : List (LogEntry K V)} {e : LogEntry K V} (h : e.1 = syncAction) :
    afterSync (es ++ [e]) = [] := by
  rw [afterSync, List.rtakeWhile_concat_neg]
  simpa using h

theorem afterSync_concat {es : List (LogEntry K V)} {e : LogEntry K V} (h : e.1 ≠ syncAction) :
    afterSync (es ++ [e]) = afterSync es ++ [e] := by
  rw [afterSync, List.rtakeWhile_concat_pos]
  · rfl
  · simpa using h

theorem afterSync_suffix (es : List (LogEntry K V)) : afterSync es <:+ es :=
  List.rtakeWhile_suffix _ _

section Replay

variable [LinearOrder K] [Pod V]

@[simp] theorem replay_nil : replay ([] : List (LogEntry K V)) = [] := rfl

theorem replay_concat_sync {es : List (LogEntry K V)} {e : LogEntry K V} (h : e.1 = syncAction) :
    replay (es ++ [e]) = [] := by rw [replay, afterSync_concat_sync h]; rfl

theorem replay_concat {es : List (LogEntry K V)} {e : LogEntry K V} (h : e.1 ≠ syncAction) :
    replay (es ++ [e]) = e.apply (replay es) := by
  rw [replay, afterSync_concat h, List.foldl_append]; rfl

theorem ascending_apply {m : List (K × V × Bool)} (h : Ascending m) (e : LogEntry K V) :
    Ascending (e.apply m) := by
  rw [LogEntry.apply]
  split_ifs
  · exact h.upsert _ _
  · exact h.upsert _ _
  · exact h
  · exact h

theorem ascending_foldl_apply {m : List (K × V × Bool)} (h : Ascending m)
    (es : List (LogEntry K V)) : Ascending (es.foldl LogEntry.apply m) := by
  induction es generalizing m with
  | nil => exact h
  | cons e es ih => exact ih (ascending_apply h e)

/-- **Applying a record twice is applying it once.** -/
theorem apply_apply {m : List (K × V × Bool)} (h : Ascending m) (e : LogEntry K V) :
    e.apply (e.apply m) = e.apply m := by
  by_cases hw : e.1 = writeAction
  · simp [LogEntry.apply, hw]
  · by_cases hd : e.1 = delAction
    · have hwd : ¬delAction = writeAction := by decide
      cases hs : (m.lookup e.2.1).isSome <;> simp [LogEntry.apply, hwd, hd, hs, h]
    · simp [LogEntry.apply, hw, hd]

/-- The read-until-`feof` loop applies the final record once more, to no effect. -/
theorem foldl_apply_getLast {m : List (K × V × Bool)} (h : Ascending m)
    (es : List (LogEntry K V)) (e : LogEntry K V) :
    ((es ++ [e]) ++ [e]).foldl LogEntry.apply m = (es ++ [e]).foldl LogEntry.apply m := by
  rw [List.foldl_append, List.foldl_append]
  exact apply_apply (ascending_foldl_apply h es) e

end Replay

/-! ## The loops of `fromFile` -/

/-- Why `fromFile` did not return a tree. -/
inductive LoadError where
  /-- `exit(1)`: the file is not there. -/
  | notFound
  /-- `exit(1)`: the length is not that of whole records. -/
  | corrupted
  /-- Still in one of the loops when the bound on iterations ran out. -/
  | unfinished

namespace BinaryTree

variable [Pod K] [Pod V]

/-- `entry_size`. -/
abbrev entrySize (K V : Type) [Pod K] [Pod V] : ℕ := Pod.sizeof (LogEntry K V)

/-- The record a buffer holds. -/
def entryOf (K V : Type) [Pod K] [Pod V] (buff : Bytes) : LogEntry K V := Pod.ofBytes buff

/-- `while(ftell(backup) > start && !found_sync)`, with `start` zero. -/
def scanSync (K V : Type) [Pod K] [Pod V] :
    ℕ → RFile → Bytes → Bool → Option (RFile × Bytes × Bool)
  | 0, _, _, _ => none
  | fuel + 1, backup, buff, found_sync =>
    if 0 < backup.pos ∧ found_sync = false then
      let backup := backup.fseekCur (-(entrySize K V : ℤ))
      let (buff, backup) := backup.freadBuf (entrySize K V) buff
      let backup := backup.fseekCur (-(entrySize K V : ℤ))
      scanSync K V fuel backup buff (decide ((entryOf K V buff).1 = syncAction))
    else some (backup, buff, found_sync)

variable [LinearOrder K]

/-- Apply one record of the log.  `dummy` is the unset value `del` logs. -/
def applyEntry (dummy : V) (s : BinaryTree K V × FS) (e : LogEntry K V) : BinaryTree K V × FS :=
  if e.1 = writeAction then s.1.insert e.2.1 e.2.2 s.2
  else if e.1 = delAction then (s.1.del e.2.1 dummy s.2).2
  else s

/-- `while(!feof(backup))`. -/
def replayLoop (dummy : V) :
    ℕ → BinaryTree K V × FS → RFile → Bytes → Option (BinaryTree K V × FS)
  | 0, _, _, _ => none
  | fuel + 1, s, backup, buff =>
    if backup.eof then some s
    else
      let (buff, backup) := backup.freadBuf (entrySize K V) buff
      replayLoop dummy fuel (applyEntry dummy s (entryOf K V buff)) backup buff

variable {Time : Type} [TimeFormat Time]

/-- The log file name `fromFile` falls back on. -/
def backupName (now : Time) : String := "backup-" ++ TimeFormat.strftime now

/-- `fromFile(fname)`.  The tree's own log is another file by the time `fname` is opened, unless
the fallback name is `fname` again, so the stream reads the file as it is then. -/
def fromFile (fuel : ℕ) (dummy : V) (t : BinaryTree K V) (fname : String) (now : Time) (fs : FS) :
    Except LoadError (BinaryTree K V × FS) :=
  let (t, fs) := if fname = t.logfilename then t.setLogFile (backupName now) fs else (t, fs)
  match fs.fopenRead fname with
  | none => .error .notFound
  | some backup =>
    let t := t.free
    let num_entries := Float24.round (backup.data.length / entrySize K V)
    if (⌊num_entries⌋ : ℚ) ≠ num_entries then .error .corrupted
    else if backup.data.length = 0 then .ok (t, fs)
    else
      match scanSync K V fuel { backup with pos := backup.data.length } [] false with
      | none => .error .unfinished
      | some (backup, buff, found_sync) =>
        let backup := if found_sync then backup.fseekCur (entrySize K V) else backup
        match replayLoop dummy fuel (t, fs) backup buff with
        | none => .error .unfinished
        | some s => .ok s

/-! ## What the loops read

Which records the forward loop applies depends on the file alone. -/

omit [LinearOrder K] in
/-- The records that `while(!feof(backup))` has in its buffer, one after the other. -/
def readLoop (K V : Type) [Pod K] [Pod V] : ℕ → RFile → Bytes → Option (List (LogEntry K V))
  | 0, _, _ => none
  | fuel + 1, backup, buff =>
    if backup.eof then some []
    else
      let (buff, backup) := backup.freadBuf (entrySize K V) buff
      (readLoop K V fuel backup buff).map (entryOf K V buff :: ·)

/-- The records `fromFile` applies when the file has these bytes. -/
def readBack (K V : Type) [Pod K] [Pod V] (fuel : ℕ) (bs : Bytes) :
    Except LoadError (List (LogEntry K V)) :=
  let num_entries := Float24.round (bs.length / entrySize K V)
  if (⌊num_entries⌋ : ℚ) ≠ num_entries then .error .corrupted
  else if bs.length = 0 then .ok []
  else
    match scanSync K V fuel ⟨bs, bs.length, false⟩ [] false with
    | none => .error .unfinished
    | some (backup, buff, found_sync) =>
      let backup := if found_sync then backup.fseekCur (entrySize K V) else backup
      match readLoop K V fuel backup buff with
      | none => .error .unfinished
      | some es => .ok es

/-- The tree and the disk when `fromFile` opens the file. -/
def opened (t : BinaryTree K V) (fname : String) (now : Time) (fs : FS) : BinaryTree K V × FS :=
  if fname = t.logfilename then t.setLogFile (backupName now) fs else (t, fs)

theorem replayLoop_eq (dummy : V) (fuel : ℕ) (s : BinaryTree K V × FS) (backup : RFile) (buff : Bytes) :
    replayLoop dummy fuel s backup buff =
      (readLoop K V fuel backup buff).map fun es ↦ es.foldl (applyEntry dummy) s := by
  induction fuel generalizing s backup buff with
  | zero => rfl
  | succ fuel ih =>
    rw [replayLoop, readLoop]
    split_ifs
    · rfl
    · dsimp only
      rw [ih, Option.map_map]
      rfl

/-- **`fromFile` applies what it reads back.** -/
theorem fromFile_eq (fuel : ℕ) (dummy : V) (t : BinaryTree K V) (fname : String) (now : Time) (fs : FS) :
    fromFile fuel dummy t fname now fs =
      match (t.opened fname now fs).2.content fname with
      | none => .error .notFound
      | some bs => (readBack K V fuel bs).map fun es ↦
        es.foldl (applyEntry dummy) ((t.opened fname now fs).1.free, (t.opened fname now fs).2) := by
  rw [fromFile, ← opened]
  dsimp only
  rw [FS.fopenRead]
  cases (t.opened fname now fs).2.content fname with
  | none => rfl
  | some bs =>
    simp only [Option.map_some, readBack]
    split_ifs
    · rfl
    · rfl
    · cases scanSync K V fuel ⟨bs, bs.length, false⟩ [] false with
      | none => rfl
      | some x =>
        dsimp only
        rw [replayLoop_eq]
        cases readLoop K V fuel (if x.2.2 then x.1.fseekCur (entrySize K V) else x.1) x.2.1 <;> rfl

/-! ## What the loops do on a log of whole records -/

theorem WF.applyEntry {t : BinaryTree K V} (h : t.WF) (dummy : V) (fs : FS) (e : LogEntry K V) :
    (applyEntry dummy (t, fs) e).1.WF := by
  rw [BinaryTree.applyEntry]
  split_ifs
  · exact h.insert _ _ _
  · exact h.del _ _ _
  · exact h

theorem entries_applyEntry {t : BinaryTree K V} (h : t.WF) (dummy : V) (fs : FS)
    (e : LogEntry K V) :
    (applyEntry dummy (t, fs) e).1.root.entries = e.apply t.root.entries := by
  rw [applyEntry, LogEntry.apply]
  split_ifs with hw hd
  · exact entries_insert h.ascending _ _ _
  · rw [entries_del h.ascending, if_pos ‹_›]
  · rw [entries_del h.ascending, if_neg ‹_›]
  · rfl

theorem foldl_applyEntry {t : BinaryTree K V} (h : t.WF) (dummy : V) (fs : FS)
    (es : List (LogEntry K V)) :
    (es.foldl (applyEntry dummy) (t, fs)).1.WF ∧
      (es.foldl (applyEntry dummy) (t, fs)).1.root.entries = es.foldl LogEntry.apply t.root.entries := by
  induction es generalizing t fs with
  | nil => exact ⟨h, rfl⟩
  | cons e es ih =>
    rw [List.foldl_cons, List.foldl_cons, ← entries_applyEntry h dummy fs e]
    exact ih (h.applyEntry dummy fs e) _

omit [LinearOrder K] in
theorem freadBuf_entry {f : RFile} {e : LogEntry K V} {tail : Bytes}
    (h : f.rest = Pod.toBytes e ++ tail) {buff : Bytes} (hb : buff.length ≤ entrySize K V) :
    f.freadBuf (entrySize K V) buff =
      (Pod.toBytes e, { f with pos := f.pos + entrySize K V }) := by
  have hlen : entrySize K V = (Pod.toBytes e).length := (Pod.length_toBytes e).symm
  rw [RFile.freadBuf, hlen, RFile.fread_of_rest h]
  simp only [Prod.mk.injEq, and_true]
  rw [List.drop_eq_nil_of_le (hlen ▸ hb), List.append_nil]

omit [LinearOrder K] in
theorem freadBuf_end {f : RFile} (h : f.rest = []) (buff : Bytes) :
    f.freadBuf (entrySize K V) buff = (buff, { f with eof := true }) := by
  have hlt : f.rest.length < entrySize K V := by
    rw [h]; exact Pod.sizeof_pos (α := LogEntry K V)
  rw [RFile.freadBuf, RFile.fread_of_short hlt, h]
  rfl

omit [LinearOrder K] in
theorem rest_entry {f : RFile} {e : LogEntry K V} {tail : Bytes}
    (h : f.rest = Pod.toBytes e ++ tail) :
    RFile.rest { f with pos := f.pos + entrySize K V } = tail := by
  have hadv := RFile.rest_advance h f.eof
  rwa [Pod.length_toBytes] at hadv

omit [LinearOrder K] in
/-- **The forward loop reads every record that is left, and the last one it read once more.** -/
theorem readLoop_eq (post : List (LogEntry K V)) (f : RFile) (e : LogEntry K V) (fuel : ℕ)
    (hrest : f.rest = Pod.encode post) (heof : f.eof = false) :
    readLoop K V (post.length + 2 + fuel) f (Pod.toBytes e) = some (post ++ [post.getLastD e]) := by
  induction post generalizing f e with
  | nil =>
    rw [show ([] : List (LogEntry K V)).length + 2 + fuel = fuel + 1 + 1 by
      rw [List.length_nil]; omega, readLoop, if_neg (by simp [heof]),
      freadBuf_end (by simpa using hrest)]
    simp [readLoop, entryOf]
  | cons x post ih =>
    rw [Pod.encode_cons] at hrest
    rw [show (x :: post).length + 2 + fuel = (post.length + 2 + fuel) + 1 by
      rw [List.length_cons]; omega, readLoop, if_neg (by simp [heof]),
      freadBuf_entry hrest (by simp)]
    dsimp only
    rw [ih _ _ (rest_entry hrest) heof, List.getLastD_cons, Option.map_some, entryOf, Pod.ofBytes_toBytes,
      List.cons_append]

omit [LinearOrder K] in
/-- **The backward loop stops behind the last `_sync_` record**, or at the start of the file.  The
buffer is left with a record that, if nothing is left to apply, is a `_sync_`. -/
theorem scanSync_eq (pre post : List (LogEntry K V)) (f : RFile) (buff : Bytes) (fuel : ℕ)
    (hdata : f.data = Pod.encode (pre ++ post)) (hpos : f.pos = pre.length * entrySize K V)
    (heof : f.eof = false) (hb : buff.length ≤ entrySize K V) :
    ∃ f' buff' found, scanSync K V (pre.length + 1 + fuel) f buff false = some (f', buff', found) ∧
      (if found then f'.fseekCur (entrySize K V) else f').rest =
        Pod.encode (afterSync pre ++ post) ∧
      (if found then f'.fseekCur (entrySize K V) else f').eof = false ∧
      (pre ≠ [] → ∃ e : LogEntry K V,
        buff' = Pod.toBytes e ∧ (afterSync pre = [] → e.1 = syncAction)) := by
  have hsz : 0 < entrySize K V := Pod.sizeof_pos
  induction pre using List.reverseRecOn generalizing post f buff with
  | nil =>
    rw [List.length_nil, Nat.zero_mul] at hpos
    refine ⟨f, buff, false, ?_, ?_, heof, by simp⟩
    · rw [show ([] : List (LogEntry K V)).length + 1 + fuel = fuel + 1 by
        rw [List.length_nil]; omega, scanSync, if_neg (by omega)]
    · simp [RFile.rest, hpos, hdata]
  | append_singleton pre e ih =>
    rw [List.length_append, List.length_singleton] at hpos ⊢
    rw [List.append_assoc, List.singleton_append] at hdata
    have hle : entrySize K V ≤ f.pos := by rw [hpos, Nat.add_mul]; omega
    have hsub : f.pos - entrySize K V = pre.length * entrySize K V := by
      rw [hpos, Nat.add_mul]; omega
    have hrest : RFile.rest { f with pos := pre.length * entrySize K V, eof := false } =
        Pod.toBytes e ++ Pod.encode post := by
      rw [RFile.rest, hdata, Pod.drop_encode, List.drop_left, Pod.encode_cons]
    have hstep : scanSync K V (pre.length + 1 + 1 + fuel) f buff false =
        scanSync K V (pre.length + 1 + fuel)
          { f with pos := pre.length * entrySize K V, eof := false } (Pod.toBytes e)
          (decide (e.1 = syncAction)) := by
      rw [show pre.length + 1 + 1 + fuel = (pre.length + 1 + fuel) + 1 by omega, scanSync,
        if_pos ⟨by omega, rfl⟩, RFile.fseekCur_back hle]
      dsimp only
      rw [hsub, freadBuf_entry hrest hb]
      dsimp only
      rw [RFile.fseekCur_back (Nat.le_add_left _ _)]
      dsimp only
      rw [Nat.add_sub_cancel, entryOf, Pod.ofBytes_toBytes]
    rw [hstep]
    by_cases hs : e.1 = syncAction
    · refine ⟨{ f with pos := pre.length * entrySize K V, eof := false }, Pod.toBytes e, true, ?_⟩
      rw [show pre.length + 1 + fuel = (pre.length + fuel) + 1 by omega, scanSync,
        if_neg (by simp [hs]), afterSync_concat_sync hs, if_pos rfl, RFile.fseekCur_forward]
      refine ⟨by simp [hs], ?_, rfl, fun _ ↦ ⟨e, rfl, fun _ ↦ hs⟩⟩
      exact rest_entry hrest
    · rw [decide_eq_false hs, afterSync_concat hs]
      obtain ⟨f', buff', found, heq, hr, he, hbuf⟩ := ih (e :: post)
        { f with pos := pre.length * entrySize K V, eof := false } (Pod.toBytes e) hdata rfl rfl
        (by simp)
      refine ⟨f', buff', found, heq, by simpa using hr, he, fun _ ↦ ?_⟩
      by_cases hnil : pre = []
      · subst hnil
        rw [show ([] : List (LogEntry K V)).length + 1 + fuel = fuel + 1 by
          rw [List.length_nil]; omega, scanSync, if_neg (by simp)] at heq
        simp only [Option.some.injEq, Prod.mk.injEq] at heq
        exact ⟨e, heq.2.1.symm, by simp⟩
      · obtain ⟨e', hbe, -⟩ := hbuf hnil
        exact ⟨e', hbe, by simp⟩

theorem onlyLog_foldl_applyEntry (dummy : V) (es : List (LogEntry K V)) (t : BinaryTree K V)
    (fs : FS) :
    OnlyLog t (es.foldl (applyEntry dummy) (t, fs)).1 fs (es.foldl (applyEntry dummy) (t, fs)).2 := by
  induction es generalizing t fs with
  | nil => exact .refl t fs
  | cons e es ih =>
    have hstep : OnlyLog t (applyEntry dummy (t, fs) e).1 fs (applyEntry dummy (t, fs) e).2 := by
      rw [applyEntry]
      split_ifs
      · exact onlyLog_insert t _ _ fs
      · exact onlyLog_del t _ dummy fs
      · exact .refl t fs
    exact hstep.trans (ih _ _)

omit [LinearOrder K] in
/-- A log of whole records passes the check of its length. -/
theorem numEntries_encode (es : List (LogEntry K V)) :
    ((Pod.encode es).length : ℚ) / (entrySize K V : ℕ) = es.length := by
  have hsz : (Pod.sizeof (LogEntry K V) : ℚ) ≠ 0 := by exact_mod_cast Pod.sizeof_pos.ne'
  rw [Pod.length_encode]
  push_cast
  exact mul_div_cancel_right₀ _ hsz

omit [LinearOrder K] in
/-- **What is read back from a log of whole records**: those after the last `_sync_`, and the last one
again; or the `_sync_` itself when it is the last. -/
theorem readBack_encode (es : List (LogEntry K V)) {fuel : ℕ} (hf : es.length + 2 ≤ fuel) :
    ∃ again, readBack K V fuel (Pod.encode es) = .ok (afterSync es ++ again) ∧
      (again = [] ∨ ∃ e, again = [e] ∧
        ((afterSync es).getLast? = some e ∨ afterSync es = [] ∧ e.1 = syncAction)) := by
  simp only [readBack, numEntries_encode, Float24.floor_round_natCast, ne_eq, not_true_eq_false, if_false]
  by_cases hne : es = []
  · subst hne
    exact ⟨[], rfl, Or.inl rfl⟩
  · have hzero : (Pod.encode es).length ≠ 0 := by
      rw [Pod.length_encode]
      exact Nat.mul_ne_zero (by simpa using hne) Pod.sizeof_pos.ne'
    obtain ⟨n, rfl⟩ := Nat.exists_eq_add_of_le hf
    have hdata : Pod.encode es = Pod.encode (es ++ []) := by rw [List.append_nil]
    obtain ⟨f, buff, found, hscan, hrest, heof, hbuf⟩ := scanSync_eq es []
      ⟨Pod.encode es, (Pod.encode es).length, false⟩ [] (n + 1) hdata (Pod.length_encode es) rfl
      (Nat.zero_le _)
    obtain ⟨e, rfl, hsync⟩ := hbuf hne
    rw [List.append_nil] at hrest
    have hlen : (afterSync es).length ≤ es.length := (afterSync_suffix es).length_le
    have hloop := readLoop_eq (afterSync es) _ e (es.length - (afterSync es).length + n) hrest heof
    rw [show (afterSync es).length + 2 + (es.length - (afterSync es).length + n) =
      es.length + 2 + n by omega] at hloop
    rw [show es.length + 1 + (n + 1) = es.length + 2 + n by omega] at hscan
    simp only [if_neg hzero, hscan, hloop]
    refine ⟨_, rfl, Or.inr ⟨_, rfl, ?_⟩⟩
    cases hlast : afterSync es with
    | nil => exact Or.inr ⟨rfl, hsync hlast⟩
    | cons x xs => exact Or.inl (by
        rw [List.getLast?_cons, List.getLastD_cons, List.getLastD_eq_getLast?])

/-- **Loading a log of whole records** terminates, and leaves what the records after the last
`_sync_` stand for. -/
theorem fromFile_entries (t : BinaryTree K V) (fname : String) (now : Time) (fs : FS)
    (dummy : V) (es : List (LogEntry K V)) {fuel : ℕ} (hf : es.length + 2 ≤ fuel)
    (hname : fname ≠ t.logfilename) (hfs : fs.content fname = some (Pod.encode es)) :
    ∃ t' fs', fromFile fuel dummy t fname now fs = .ok (t', fs') ∧ t'.WF ∧
      t'.root.entries = replay es ∧ OnlyLog t t' fs fs' := by
  have hfree : OnlyLog t t.free fs fs := .rfl' rfl rfl
  have hopened : t.opened fname now fs = (t, fs) := if_neg hname
  obtain ⟨again, hread, hagain⟩ := readBack_encode es hf
  obtain ⟨hwf, hent⟩ := foldl_applyEntry t.wf_free dummy fs (afterSync es ++ again)
  simp only [fromFile_eq, hopened, hfs, hread]
  refine ⟨_, _, rfl, hwf, ?_, hfree.trans (onlyLog_foldl_applyEntry dummy _ _ fs)⟩
  rw [hent, entries_free, replay]
  rcases hagain with rfl | ⟨e, rfl, hlast | ⟨hnil, hsync⟩⟩
  · rw [List.append_nil]
  · obtain ⟨ys, hys⟩ := List.getLast?_eq_some_iff.mp hlast
    rw [hys]
    exact foldl_apply_getLast ascending_nil ys e
  · rw [hnil]
    have hw : ¬e.1 = writeAction := by rw [hsync]; decide
    have hd : ¬e.1 = delAction := by rw [hsync]; decide
    simp [LogEntry.apply, hw, hd]

end BinaryTree

end ScratchStore
