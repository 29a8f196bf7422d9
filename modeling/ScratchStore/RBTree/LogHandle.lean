import ScratchStore.Master.KeyValue
import ScratchStore.RBTree.Linked

/-!
# The handle of the log

`setLogFile` closes the stream in `logfile` and puts the new one there, but with the empty name it returns
before it does: then `logfile` is left with the closed stream, which the next `log_action` writes to and
the next `setLogFile` closes again.  The destructor is such a `setLogFile`, so this shows in every run in
the end: `disciplined_iff`.

The calls only grow, and what a call of the C library may be depends on the calls before it, so a run is
in order as long as each of its calls is: `eachCall_concat`.

* `Proper` is what the C library and the class ask of one call after the calls before it, and `Disciplined`
  that every call of a run is proper.
* `LogOk` is the invariant, `LogBad` the state after `setLogFile("")` with a log, from which no run comes back:
  whatever is done, the destructor closes the stream once more (`LogBad.not_disciplined`).
* `disciplined_iff` therefore is an equivalence for every run, whether the log is written to after it was
  given up or not.

`fromFile` gives the tree another log when its own is to be loaded.  That is a `setLogFile` like any other, and
it is in order.
-/

set_option autoImplicit false

namespace ScratchStore

/-! ## What is expected of the calls

The calls are numbered by the `fopen` that opened their stream, so it can be said of each stream how
often it was closed and whether it was written to afterwards. -/

namespace LogCall

/-- A stream that was opened and not closed since. -/
def IsOpen (before : List LogCall) (id : ℕ) : Prop := fopen id ∈ before ∧ fclose id ∉ before

/-- The log was given up, by `setLogFile("")` or an `fopen` that failed, and no other was opened since.  Any
`fopen` that succeeds ends this, that of the name `fromFile` falls back on included: the log it opens is
the tree's log again. -/
def Unset (before : List LogCall) : Prop :=
  ∃ pre mid, before = pre ++ unset :: mid ∧ ∀ id, fopen id ∉ mid

/-- A call that is in order after the calls before it. -/
def Proper (before : List LogCall) : LogCall → Prop
  | logAction (some id) => IsOpen before id ∧ ¬Unset before
  | fclose id => fclose id ∉ before
  | _ => True

end LogCall

open LogCall

/-- **The log is used in order**: `log_action` writes to an open stream or not at all, and not at all once
the log was given up; and no stream is closed twice. -/
def Disciplined (calls : List LogCall) : Prop :=
  ∀ pre c post, calls = pre ++ c :: post → c.Proper pre

theorem disciplined_nil : Disciplined [] := fun _ _ _ h ↦ absurd h (by simp)

/-- **One more call.** -/
theorem disciplined_concat {calls : List LogCall} {c : LogCall} :
    Disciplined (calls ++ [c]) ↔ Disciplined calls ∧ c.Proper calls := by
  constructor
  · intro h
    exact ⟨fun pre c' post hcalls ↦ h pre c' (post ++ [c]) (by simp [hcalls]), h calls c [] rfl⟩
  · rintro ⟨h, hc⟩ pre c' post hcalls
    rcases Runs.concat_eq_append_cons hcalls with ⟨rfl, rfl, -⟩ | ⟨post', -, hcalls⟩
    · exact hc
    · exact h pre c' post' hcalls

theorem Disciplined.of_append {calls calls' : List LogCall} (h : Disciplined (calls ++ calls')) :
    Disciplined calls := fun pre c post hcalls ↦ h pre c (post ++ calls') (by simp [hcalls])

/-! ### What stays open -/

section Calls

variable {calls : List LogCall} {id : ℕ}

/-- A call that gives up nothing. -/
theorem not_unset_concat (h : ¬Unset calls) {c : LogCall} (hc : c ≠ unset) : ¬Unset (calls ++ [c]) := by
  rintro ⟨pre, mid, hcalls, hmid⟩
  rcases Runs.concat_eq_append_cons hcalls with ⟨-, rfl, -⟩ | ⟨mid, rfl, hcalls'⟩
  · exact hc rfl
  · exact h ⟨pre, mid, hcalls', fun i hi ↦ hmid i (List.mem_append_left _ hi)⟩

/-- A stream that was just opened. -/
theorem not_unset_fopen (calls : List LogCall) (id : ℕ) : ¬Unset (calls ++ [fopen id]) := by
  rintro ⟨pre, mid, hcalls, hmid⟩
  rcases Runs.concat_eq_append_cons hcalls with ⟨-, h, -⟩ | ⟨mid, rfl, -⟩
  · cases h
  · exact hmid id (by simp)

theorem isOpen_logAction (h : IsOpen calls id) (p : Option ℕ) : IsOpen (calls ++ [LogCall.logAction p]) id :=
  ⟨List.mem_append_left _ h.1, by simpa using h.2⟩

end Calls

namespace Linked

variable {K V : Type}

/-- The stream `logfile` points to. -/
def logId (s : Linked K V) : Option ℕ := s.logfile.map Stream.id

/-- Nothing but some calls of `log_action`. -/
structure Appends (s s' : Linked K V) : Prop where
  logId_eq : s'.logId = s.logId
  opened_eq : s'.opened = s.opened
  calls_eq : ∃ n, s'.calls = s.calls ++ List.replicate n (LogCall.logAction s.logId)

/-- The log is in order, and `logfile` is `NULL` or an open stream. -/
structure LogOk (s : Linked K V) : Prop where
  disciplined : Disciplined s.calls
  /-- The stream in `logfile` is open, and the log is in use. -/
  isOpen : ∀ id, s.logId = some id → IsOpen s.calls id ∧ ¬Unset s.calls
  /-- Streams are numbered in the order in which they are opened. -/
  logId_lt : ∀ id, s.logId = some id → id < s.opened
  closed_lt : ∀ id, fclose id ∈ s.calls → id < s.opened

/-- `logfile` is left with a closed stream, or something was out of order already. -/
def LogBad (s : Linked K V) : Prop :=
  (∃ id, s.logId = some id ∧ fclose id ∈ s.calls) ∨ ¬Disciplined s.calls

variable {s s' : Linked K V}

/-! ## Calls of `log_action` -/

theorem Appends.of_eq {s s' : Linked K V} (hlog : s'.logfile = s.logfile := by rfl)
    (hopened : s'.opened = s.opened := by rfl) (hcalls : s'.calls = s.calls := by rfl) : Appends s s' :=
  ⟨by rw [logId, logId, hlog], hopened, 0, by simp [hcalls]⟩

theorem Appends.refl (s : Linked K V) : Appends s s := .of_eq

theorem Appends.trans {s₁ s₂ s₃ : Linked K V} (h : Appends s₁ s₂) (h' : Appends s₂ s₃) : Appends s₁ s₃ := by
  obtain ⟨n, hn⟩ := h.calls_eq
  obtain ⟨m, hm⟩ := h'.calls_eq
  refine ⟨h'.logId_eq.trans h.logId_eq, h'.opened_eq.trans h.opened_eq, n + m, ?_⟩
  rw [hm, hn, h.logId_eq, List.append_assoc, List.replicate_append_replicate]

theorem LogOk.logAction (h : LogOk s) (hid : s'.logId = s.logId) (hopened : s'.opened = s.opened)
    (hcalls : s'.calls = s.calls ++ [LogCall.logAction s.logId]) : LogOk s' where
  disciplined := by
    rw [hcalls, disciplined_concat]
    refine ⟨h.disciplined, ?_⟩
    cases hlog : s.logId with
    | none => trivial
    | some id => exact h.isOpen id hlog
  isOpen id hlog := by
    rw [hcalls]
    obtain ⟨hopen, hunset⟩ := h.isOpen id (hid ▸ hlog)
    exact ⟨isOpen_logAction hopen _, not_unset_concat hunset nofun⟩
  logId_lt id hlog := hopened ▸ h.logId_lt id (hid ▸ hlog)
  closed_lt id hclosed := by
    rw [hcalls] at hclosed
    exact hopened ▸ h.closed_lt id (by simpa using hclosed)

theorem LogOk.appends (h : LogOk s) (happ : Appends s s') : LogOk s' := by
  obtain ⟨hid, hopened, n, hcalls⟩ := happ
  induction n generalizing s' with
  | zero =>
    rw [List.replicate_zero, List.append_nil] at hcalls
    exact ⟨hcalls ▸ h.disciplined, fun id hlog ↦ hcalls ▸ h.isOpen id (hid ▸ hlog),
      fun id hlog ↦ hopened ▸ h.logId_lt id (hid ▸ hlog),
      fun id hclosed ↦ hopened ▸ h.closed_lt id (hcalls ▸ hclosed)⟩
  | succ n ih =>
    have hmid : LogOk { s' with calls := s.calls ++ List.replicate n (LogCall.logAction s.logId) } :=
      ih hid hopened rfl
    refine hmid.logAction rfl rfl ?_
    rw [hcalls, List.replicate_succ', ← List.append_assoc]
    exact congrArg (fun id ↦ _ ++ [LogCall.logAction id]) hid.symm

theorem LogBad.appends (h : LogBad s) (happ : Appends s s') : LogBad s' := by
  obtain ⟨hid, -, n, hcalls⟩ := happ
  rcases h with ⟨id, hlog, hclosed⟩ | h
  · exact Or.inl ⟨id, hid ▸ hlog, hcalls ▸ List.mem_append_left _ hclosed⟩
  · exact Or.inr fun hd ↦ h (Disciplined.of_append (hcalls ▸ hd))

/-! ## Another log

`setLogFile` is the only method that opens and closes. -/

/-- What closing the log does. -/
theorem closeLog_calls (s : Linked K V) :
    s.closeLog.calls = s.calls ++ (s.logId.map fclose).toList ∧ s.closeLog.opened = s.opened ∧
      s.closeLog.logId = s.logId := by
  rw [closeLog]
  cases h : s.logfile with
  | none => simp [logId, h]
  | some f => simp [logId, h]

/-- What `setLogFile` does once the old log is closed. -/
theorem setLogFile_cases (s : Linked K V) (name : String) :
    (name = "" ∧ (s.setLogFile name).logId = s.logId ∧ (s.setLogFile name).opened = s.opened ∧
        (s.setLogFile name).calls = s.calls ++ (s.logId.map fclose).toList ++ [unset]) ∨
      (name ≠ "" ∧ (s.setLogFile name).logId = none ∧ (s.setLogFile name).opened = s.opened ∧
        (s.setLogFile name).calls = s.calls ++ (s.logId.map fclose).toList ++ [unset]) ∨
      (name ≠ "" ∧ (s.setLogFile name).logId = some s.opened ∧
        (s.setLogFile name).opened = s.opened + 1 ∧
        (s.setLogFile name).calls = s.calls ++ (s.logId.map fclose).toList ++ [fopen s.opened]) := by
  obtain ⟨hcalls, hopened, hid⟩ := closeLog_calls { s with logfilename := name }
  rw [setLogFile]
  by_cases hname : name = ""
  · rw [if_pos hname]
    exact Or.inl ⟨hname, hid, hopened, congrArg (· ++ [unset]) hcalls⟩
  · rw [if_neg hname]
    cases FS.fopenWrite (closeLog { s with logfilename := name }).fs name with
    | none => exact Or.inr (Or.inl ⟨hname, rfl, hopened, congrArg (· ++ [unset]) hcalls⟩)
    | some fs =>
      refine Or.inr (Or.inr ⟨hname, congrArg some hopened, congrArg (· + 1) hopened, ?_⟩)
      dsimp only
      rw [hcalls, hopened]
      rfl

/-- Closing the log, when that is in order. -/
theorem LogOk.close (h : LogOk s) : Disciplined (s.calls ++ (s.logId.map fclose).toList) ∧
    ∀ id, fclose id ∈ s.calls ++ (s.logId.map fclose).toList → id < s.opened := by
  cases hlog : s.logId with
  | none => simpa using ⟨h.disciplined, h.closed_lt⟩
  | some id =>
    obtain ⟨⟨hopen, hclosed⟩, -⟩ := h.isOpen id hlog
    refine ⟨disciplined_concat.mpr ⟨h.disciplined, hclosed⟩, fun id' hid' ↦ ?_⟩
    rcases List.mem_append.mp hid' with hid' | hid'
    · exact h.closed_lt id' hid'
    · cases List.mem_singleton.mp hid'
      exact h.logId_lt id hlog

theorem LogOk.of_unset {calls : List LogCall} (hd : Disciplined calls)
    (hlt : ∀ id, fclose id ∈ calls → id < s.opened) (hid : s'.logId = none) (hopened : s'.opened = s.opened)
    (hcalls : s'.calls = calls ++ [unset]) : LogOk s' where
  disciplined := by
    rw [hcalls, disciplined_concat]
    exact ⟨hd, trivial⟩
  isOpen id hlog := by cases hid.symm.trans hlog
  logId_lt id hlog := by cases hid.symm.trans hlog
  closed_lt id hclosed := by
    rw [hcalls, List.mem_append, List.mem_singleton] at hclosed
    exact hopened ▸ hlt id (hclosed.resolve_right nofun)

/-- **A new log**, or none, or the end of what was none. -/
theorem LogOk.setLogFile (h : LogOk s) {name : String} (hkeep : name = "" → s.logfile = none) :
    LogOk (s.setLogFile name) := by
  obtain ⟨hd, hlt⟩ := h.close
  rcases setLogFile_cases s name with ⟨hname, hid, hopened, hcalls⟩ | ⟨-, hid, hopened, hcalls⟩ |
    ⟨-, hid, hopened, hcalls⟩
  · have hnone : (s.setLogFile name).logId = none := by rw [hid, logId, hkeep hname]; rfl
    exact .of_unset hd hlt hnone hopened hcalls
  · exact .of_unset hd hlt hid hopened hcalls
  · have hclosed_lt : ∀ id, fclose id ∈ (s.setLogFile name).calls → id < s.opened := by
      intro id hclosed
      rw [hcalls, List.mem_append, List.mem_singleton] at hclosed
      exact hlt id (hclosed.resolve_right nofun)
    refine ⟨?_, fun id hlog ↦ ?_, fun id hlog ↦ ?_, fun id hclosed ↦ ?_⟩
    · rw [hcalls, disciplined_concat]
      exact ⟨hd, trivial⟩
    · cases hid.symm.trans hlog
      refine ⟨⟨by rw [hcalls]; simp, fun hclosed ↦ (hclosed_lt _ hclosed).false⟩, ?_⟩
      rw [hcalls]
      exact not_unset_fopen _ _
    · cases hid.symm.trans hlog
      rw [hopened]
      exact Nat.lt_succ_self _
    · rw [hopened]
      exact (hclosed_lt id hclosed).trans (Nat.lt_succ_self _)

/-- Giving up a log that is there. -/
theorem logBad_setLogFile (hlog : s.logfile ≠ none) : LogBad (s.setLogFile "") := by
  obtain ⟨f, hf⟩ := Option.ne_none_iff_exists'.mp hlog
  have hid : s.logId = some f.id := by rw [logId, hf]; rfl
  rcases setLogFile_cases s "" with ⟨-, hid', -, hcalls⟩ | ⟨hname, -⟩ | ⟨hname, -⟩
  · refine Or.inl ⟨f.id, hid'.trans hid, ?_⟩
    rw [hcalls, hid]
    simp
  · exact absurd rfl hname
  · exact absurd rfl hname

/-- **A closed stream is closed again.** -/
theorem LogBad.not_disciplined (h : LogBad s) (name : String) : ¬Disciplined (s.setLogFile name).calls := by
  intro hd
  have hclosed : Disciplined (s.calls ++ (s.logId.map fclose).toList) := by
    rcases setLogFile_cases s name with ⟨-, -, -, hcalls⟩ | ⟨-, -, -, hcalls⟩ | ⟨-, -, -, hcalls⟩ <;>
      exact Disciplined.of_append (hcalls ▸ hd)
  rcases h with ⟨id, hid, hmem⟩ | h
  · rw [hid] at hclosed
    exact (disciplined_concat.mp hclosed).2 hmem
  · exact h hclosed.of_append

/-- The destructor closes an open log. -/
theorem LogOk.destroy (h : LogOk s) : Disciplined s.destroy.calls := by
  have hok : LogOk { s with stk := [] } := h.appends (.of_eq)
  rcases setLogFile_cases { s with stk := [] } "" with ⟨-, -, -, hcalls⟩ | ⟨hname, -⟩ | ⟨hname, -⟩
  · rw [Linked.destroy, hcalls, disciplined_concat]
    exact ⟨hok.close.1, trivial⟩
  · exact absurd rfl hname
  · exact absurd rfl hname

theorem LogBad.destroy (h : LogBad s) : ¬Disciplined s.destroy.calls := by
  have hbad : LogBad { s with stk := [] } := h.appends (.of_eq)
  exact hbad.not_disciplined ""

/-! ## New trees -/

theorem logOk_empty (fs : FS) : LogOk (Linked.empty fs : Linked K V) where
  disciplined := disciplined_nil
  isOpen _ hlog := nomatch hlog
  logId_lt _ hlog := nomatch hlog
  closed_lt _ hclosed := nomatch hclosed

theorem logOk_make (fs : FS) (c : Constructor K V) : LogOk (c.make fs) := by
  cases c with
  | empty => exact logOk_empty fs
  | logFile _logfile => exact (logOk_empty fs).setLogFile fun _ ↦ rfl
  | node k v del => exact (logOk_empty fs).appends (.of_eq)
  | keyValue k v => exact (logOk_empty fs).appends (.of_eq)

/-! ## What each method does about the log -/

theorem appends_assign {s s' : Linked K V} {p : ℕ} {f : Cell K V → Cell K V} (h : s.assign p f = some s') :
    Appends s s' := by
  obtain ⟨n, -, rfl⟩ := Option.map_eq_some_iff.mp h
  exact .of_eq

theorem appends_free {s s' : Linked K V} (h : s.free = some s') : Appends s s' := by
  obtain ⟨heap, -, rfl⟩ := Option.map_eq_some_iff.mp h
  exact .of_eq

theorem appends_inorder {s s' : Linked K V} {n : Option ℕ} (h : s.inorder = some (n, s')) : Appends s s' := by
  rw [inorder_eq h]
  exact .of_eq

variable {Time : Type} [TimeFormat Time]

theorem backupName_ne (now : Time) : BinaryTree.backupName now ≠ "" := by
  intro h
  have hlen := congrArg String.length h
  rw [BinaryTree.backupName, String.length_append] at hlen
  exact absurd hlen (by simp)

variable [Pod K] [Pod V]

theorem appends_logAction (s : Linked K V) (k : K) (v : V) (act : UInt8) :
    Appends s (s.logAction k v act) := by
  rw [logAction]
  cases h : s.logfile with
  | none => exact ⟨by simp [logId, h], rfl, 1, by simp [logId, h]⟩
  | some f => exact ⟨by simp [logId, h], rfl, 1, by simp [logId, h]⟩

theorem appends_dump {s s' : Linked K V} {f : WFile} {now : Time} {dummy : K × V}
    (h : s.dump f now dummy = some s') : Appends s s' := by
  rw [dump] at h
  split_ifs at h
  obtain ⟨recs, -, rfl⟩ := Option.map_eq_some_iff.mp h
  refine Appends.trans ?_ (appends_logAction _ _ _ _)
  exact .of_eq

variable [LinearOrder K]

theorem appends_insert {s s' : Linked K V} {k : K} {v : V} (h : s.insert k v = some s') : Appends s s' := by
  obtain ⟨p, -, h⟩ := Option.bind_eq_some_iff.mp h
  cases p with
  | none =>
    cases h
    refine Appends.trans ?_ (appends_logAction _ _ _ _)
    exact .of_eq
  | some p =>
    obtain ⟨c, -, h⟩ := Option.bind_eq_some_iff.mp h
    obtain ⟨s₁, hs₁, rfl⟩ := Option.map_eq_some_iff.mp h
    refine Appends.trans ?_ (appends_logAction _ _ _ _)
    split_ifs at hs₁
    · refine Appends.trans ?_ (appends_assign hs₁)
      exact .of_eq
    · refine Appends.trans ?_ (appends_assign hs₁)
      exact .of_eq
    · exact appends_assign hs₁

theorem appends_del {s s' : Linked K V} {k : K} {dummy : V} {r : ℤ} (h : s.del k dummy = some (r, s')) :
    Appends s s' := by
  obtain ⟨n, -, h⟩ := Option.bind_eq_some_iff.mp h
  cases n with
  | none =>
    cases h
    exact .refl s
  | some n =>
    obtain ⟨s₁, hs₁, h⟩ := Option.map_eq_some_iff.mp h
    cases h
    exact (appends_assign hs₁).trans (appends_logAction _ _ _ _)

theorem appends_applyEntry {dummy : V} {s s' : Linked K V} {e : LogEntry K V}
    (h : applyEntry dummy s e = some s') : Appends s s' := by
  rw [applyEntry] at h
  split_ifs at h
  · exact appends_insert h
  · obtain ⟨⟨r, s₁⟩, hdel, rfl⟩ := Option.map_eq_some_iff.mp h
    exact appends_del hdel
  · cases h
    exact .refl s

/-- A replay is not about the log, except for the name clash. -/
theorem appends_fromFile {fuel : ℕ} {dummy : V} {s s' : Linked K V} {fname : String} {now : Time}
    (h : s.fromFile fuel dummy fname now = some s') : Appends (s.renamed fname now) s' := by
  obtain ⟨bs, -, h⟩ := Option.bind_eq_some_iff.mp h
  obtain ⟨s₁, hfree, h⟩ := Option.bind_eq_some_iff.mp h
  refine (appends_free hfree).trans ?_
  split at h
  · cases h
  · have hkeep : ∀ s₂ e s₃, Appends s₁ s₂ → applyEntry dummy s₂ e = some s₃ → Appends s₁ s₃ :=
      fun _ _ _ hs hstep ↦ hs.trans (appends_applyEntry hstep)
    exact Runs.run_invariant hkeep (.refl s₁) h

/-! ## Any run -/

/-- `setLogFile("")` only when there is no log. -/
def KeepsLog (s : Linked K V) : Op K V Time → Prop
  | .setLogFile name => name = "" → s.logfile = none
  | _ => True

/-- **A call** is about the log only where it sets another one. -/
theorem step_cases {op : Op K V Time} (hstep : s.step op = some s') :
    (Appends s s' ∧ KeepsLog s op) ∨
      ∃ name, Appends (s.setLogFile name) s' ∧ (KeepsLog s op ↔ (name = "" → s.logfile = none)) := by
  cases op with
  | insert k v => exact Or.inl ⟨appends_insert hstep, trivial⟩
  | del k dummy =>
    obtain ⟨⟨r, s₁⟩, hdel, rfl⟩ := Option.map_eq_some_iff.mp hstep
    exact Or.inl ⟨appends_del hdel, trivial⟩
  | dump f now dummy => exact Or.inl ⟨appends_dump hstep, trivial⟩
  | fromFile fuel dummy fname now =>
    have happ := appends_fromFile hstep
    rw [renamed] at happ
    split_ifs at happ
    · exact Or.inr ⟨_, happ, iff_of_true trivial fun hname ↦ absurd hname (backupName_ne now)⟩
    · exact Or.inl ⟨happ, trivial⟩
  | inorder =>
    obtain ⟨⟨n, s₁⟩, hinorder, rfl⟩ := Option.map_eq_some_iff.mp hstep
    exact Or.inl ⟨appends_inorder hinorder, trivial⟩
  | free => exact Or.inl ⟨appends_free hstep, trivial⟩
  | setLogFile name =>
    cases hstep
    exact Or.inr ⟨name, .refl _, Iff.rfl⟩

theorem LogOk.step (h : LogOk s) {op : Op K V Time} (hkeep : KeepsLog s op) (hstep : s.step op = some s') :
    LogOk s' := by
  rcases step_cases hstep with ⟨happ, -⟩ | ⟨name, happ, hiff⟩
  · exact h.appends happ
  · exact (h.setLogFile (hiff.mp hkeep)).appends happ

theorem LogBad.step (h : LogBad s) {op : Op K V Time} (hstep : s.step op = some s') : LogBad s' := by
  rcases step_cases hstep with ⟨happ, -⟩ | ⟨name, happ, -⟩
  · exact h.appends happ
  · exact LogBad.appends (Or.inr (h.not_disciplined name)) happ

/-- A call that gives up a log that is there. -/
theorem logBad_step {op : Op K V Time} (hkeep : ¬KeepsLog s op) (hstep : s.step op = some s') :
    LogBad s' := by
  rcases step_cases hstep with ⟨-, hkeep'⟩ | ⟨name, happ, hiff⟩
  · exact absurd hkeep' hkeep
  · obtain ⟨rfl, hlog⟩ := not_forall.mp fun hname ↦ hkeep (hiff.mpr hname)
    exact (logBad_setLogFile hlog).appends happ

/-- **What a run does to the log**, up to and with the destructor. -/
theorem LogOk.run (h : LogOk s) {ops : List (Op K V Time)} (hrun : Runs.run Linked.step s ops = some s') :
    Disciplined s'.destroy.calls ↔ Runs.Along Linked.step KeepsLog s ops := by
  induction ops generalizing s with
  | nil =>
    cases hrun
    exact iff_of_true h.destroy trivial
  | cons op ops ih =>
    obtain ⟨s₁, hs₁, hrun⟩ := Runs.run_cons_eq_some.mp hrun
    rw [Runs.Along]
    by_cases hkeep : KeepsLog s op
    · rw [ih (h.step hkeep hs₁) hrun]
      exact ⟨fun halong ↦ ⟨hkeep, fun s' hs' ↦ Option.some.inj (hs₁.symm.trans hs') ▸ halong⟩,
        fun halong ↦ halong.2 s₁ hs₁⟩
    · have hbad : LogBad s' :=
        Runs.run_invariant (fun _ _ _ hb hstep ↦ hb.step hstep) (logBad_step hkeep hs₁) hrun
      exact iff_of_false hbad.destroy fun halong ↦ hkeep halong.1

/-- **The log handle**, over any calls and the destructor: it is used in order unless a log that is there
is given up.

Giving it up is `setLogFile("")`: it closes the stream and leaves the handle where it is. -/
theorem disciplined_iff (fs : FS) (c : Constructor K V) (ops : List (Op K V Time)) {s : Linked K V}
    (hrun : Runs.run step (c.make fs) ops = some s) :
    Disciplined s.destroy.calls ↔ Runs.Along step KeepsLog (c.make fs) ops :=
  (logOk_make fs c).run hrun

/-- A log that is kept. -/
theorem disciplined_iff_insert :
    ∃ s, Runs.run step ((Constructor.logFile "log").make FS.blank)
        [(.insert Master.zeroK Master.zeroV : Op Master.K Master.V DaySecond)] = some s ∧
      Disciplined s.destroy.calls := by
  obtain ⟨s, hrun⟩ : ∃ s, Runs.run step ((Constructor.logFile "log").make FS.blank)
    [(.insert Master.zeroK Master.zeroV : Op Master.K Master.V DaySecond)] = some s := ⟨_, rfl⟩
  exact ⟨s, hrun, (disciplined_iff _ _ _ hrun).mpr ⟨trivial, fun _ _ ↦ trivial⟩⟩

/-- **A log that is given up** is written to, and closed twice. -/
theorem closed_log_used :
    ∃ s, Runs.run step ((Constructor.logFile "log").make FS.blank)
        [.setLogFile "", (.insert Master.zeroK Master.zeroV : Op Master.K Master.V DaySecond)] = some s ∧
      s.destroy.calls = [fopen 0, fclose 0, unset, LogCall.logAction (some 0), fclose 0, unset] ∧
      ¬Disciplined s.destroy.calls := by
  refine ⟨_, rfl, rfl, fun hd ↦ ?_⟩
  have hproper := hd [fopen 0, fclose 0, unset] (LogCall.logAction (some 0)) [fclose 0, unset] rfl
  exact hproper.1.2 (by simp)

end Linked

end ScratchStore
