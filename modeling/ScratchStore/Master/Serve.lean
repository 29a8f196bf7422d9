import ScratchStore.Master.Line
import ScratchStore.Master.Reader

/-!
# Serving a batch file

One thread serves the lines of a file, and the `adjust` threads it starts run while it does so, between
any two steps of it and in the middle of its reads.  A read is safe from them (`Reads.safe_read`):
there is no swap while it lasts, so there is no more than one `adjust`, and the files that one moves are
those the read looks at under `fslock`.

So what a read prints is the value stored last, whatever else the file has and however the threads
take turns: `serve_prints`.  It is the line that was meant when the value has no zero and the key has
no comma, and otherwise nearly never: `serve_prints_iff`.

## Why a lone thread reads what was written

In general a read may miss a record that moves on while it looks for it (`Safe`).  Here the thread that
reads is the one that swaps, so between the two `adjust` threads that it would take there is a swap, and that
cannot be in the middle of a read.  `Alone` is this argument as an invariant: while the read lasts no more than
one `adjust` gets done.

`Answering` adds what is known of the read itself, `Serves` what was printed, and `Server.Inv` has all of it
with the invariant of the threads.
-/

set_option autoImplicit false

namespace ScratchStore

namespace Master

open SortedAssoc FileIO Layers RingScan

variable {Time : Type} [TimeFormat Time]

/-- Where `serve` is: before the next line, in a `dbread`, before the test for a swap, or done. -/
inductive ServePoint where
  /-- Before `getline`. -/
  | next
  /-- In a `dbread`. -/
  | reading (k : K) (reader : Reader)
  /-- Before the test for a swap. -/
  | testing
  /-- After the loop. -/
  | finished

/-- The thread that serves a file and the others.  Of the file that is written we keep what each read has
printed. -/
structure Server where
  threads : Threads
  serving : ServePoint
  input : Bytes
  output : List Bytes

/-- A step of `serve` or of an `adjust`. -/
inductive ServeAction (Time : Type) where
  | serve
  | lock
  | work (env : Env Time)
  | unlock

/-- The steps of `adjust` as steps of the threads. -/
def ServeAction.action : ServeAction Time → Option (Action Time)
  | .serve => none
  | .lock => some .lock
  | .work env => some (.work env)
  | .unlock => some .unlock

/-- One step of `serve`. -/
def Server.serve (Time : Type) [TimeFormat Time] (st : Server) : Option Server :=
  match st.serving with
  | .next =>
    match getline st.input with
    | none => some { st with serving := .finished }
    | some (a, input) =>
      (parseLine a).toOption.bind fun command ↦
        match command with
        | .read k => some { st with serving := .reading k .idle, input := input }
        | .write k v => (st.threads.step (.write k v : Action Time)).map fun threads ↦
          { st with threads := threads, serving := .testing, input := input }
        | .none => some { st with serving := .testing, input := input }
  | .reading _ (.done answer) =>
    some { st with serving := .testing, output := st.output ++ [printed answer] }
  | .reading k reader => (reader.step k st.threads).map fun (reader, sys) ↦
    { st with
      threads := { st.threads with store := { st.threads.store with sys := sys } }
      serving := .reading k reader }
  | .testing => (st.threads.step (.swap : Action Time)).map fun threads ↦
    { st with threads := threads, serving := .next }
  | .finished => some st

/-- One step of some thread. -/
def Server.step (st : Server) (e : ServeAction Time) : Option Server :=
  match e.action with
  | none => st.serve Time
  | some a => (st.threads.step a).map fun threads ↦ { st with threads := threads }

/-- `serve` when it has opened its files. -/
def Server.start (s : Store) (lines : List Line) : Server := ⟨⟨s, 0, none⟩, .next, batchFile lines, []⟩

/-! ## What the lines say -/

/-- What a line does to the map of the values stored last. -/
def Line.note (m : K → Option V) : Line → K → Option V
  | .write k v => Function.update m k.key (some (cutValue k v))
  | .read _ _ => m

/-- The value stored last for each key. -/
def noted (lines : List Line) : K → Option V := lines.foldl Line.note fun _ ↦ none

def Line.isRead : Line → Bool
  | .write _ _ => false
  | .read _ _ => true

theorem noted_concat (lines : List Line) (l : Line) : noted (lines ++ [l]) = l.note (noted lines) := by
  rw [noted, List.foldl_append]
  rfl

/-- Every read of a key that has a value has printed it. -/
structure Answered (done : List Line) (output : List Bytes) : Prop where
  /-- One answer for each read. -/
  length_eq : output.length = done.countP Line.isRead
  /-- A key that has a value is answered with it. -/
  answer : ∀ before k semi after, done = before ++ .read k semi :: after →
    ∃ answer, output[before.countP Line.isRead]? = some (printed answer) ∧
      ∀ w, noted before k.key = some w → w ≠ tombstone V → answer = some w

theorem answered_nil : Answered [] [] :=
  ⟨rfl, fun before k semi after h ↦ absurd h (by simp)⟩

theorem Answered.write {done : List Line} {output : List Bytes} (h : Answered done output) (k v : Field) :
    Answered (done ++ [.write k v]) output where
  length_eq := by
    rw [h.length_eq, List.countP_append]
    rfl
  answer before k' semi after hdone := by
    rcases Runs.concat_eq_append_cons hdone with ⟨-, hl, -⟩ | ⟨after', -, hdone'⟩
    · cases hl
    · exact h.answer before k' semi after' hdone'

theorem Answered.read {done : List Line} {output : List Bytes} (h : Answered done output) (k : Field)
    (semi : Bool) (answer : Option V)
    (hanswer : ∀ w, noted done k.key = some w → w ≠ tombstone V → answer = some w) :
    Answered (done ++ [.read k semi]) (output ++ [printed answer]) where
  length_eq := by
    rw [List.length_append, h.length_eq, List.countP_append]
    rfl
  answer before k' semi' after hdone := by
    rcases Runs.concat_eq_append_cons hdone with ⟨rfl, hl, -⟩ | ⟨after', -, hdone'⟩
    · cases hl
      exact ⟨answer, by rw [← h.length_eq, List.getElem?_concat_length], hanswer⟩
    · obtain ⟨answer', hget, hanswer'⟩ := h.answer before k' semi' after' hdone'
      exact ⟨answer', by rw [List.getElem?_append_left (List.getElem?_eq_some_iff.mp hget).1, hget], hanswer'⟩

/-! ## A read and one `adjust`

The files that one `adjust` moves are the two oldest, and those are looked at under `fslock`.  The
newest one is written by the dump, and its records were in `reserve` when the read looked there. -/

section Alone

variable {k : K} {m : K → Option V} {good : V → Prop} {st st' : Threads} {reader : Reader}

/-- No more than one `adjust` gets done while the read lasts. -/
def Alone (st : Threads) (reader : Reader) : Prop :=
  ∀ r todo, reader = .scanning r todo → st.store.recent = r ∨ st.store.reserve = none

/-- **The unlocked lookups** do not come to a truncated file. -/
theorem Reads.safe_read (hread : Reads k good st reader) (h : st.Inv Time m) (halone : Alone st reader) :
    Safe k ⟨st, reader⟩ (.read : ReadAction Time) := by
  intro r i todo hreader ops hops hi
  obtain ⟨t, -, ht, -⟩ := h.working hops
  cases hread with
  | done => cases hreader
  | @scanning r' a j hj memory anchor merged =>
    rcases halone _ _ rfl with hrecent | hr
    · obtain ⟨rfl, hdrop⟩ := Reader.scanning.inj hreader
      dsimp only at hi
      have hmem : i ∈ newer r' := List.mem_of_mem_drop (i := j) (by rw [hdrop]; simp)
      rw [hi, hrecent] at hmem
      exact absurd hmem (not_mem_newer r').1
    · rw [hr] at ht
      cases ht

/-- **The dump** is not over the file the read comes to next. -/
theorem Reads.safe_work (hread : Reads k good st reader) (h : st.Inv Time m) (halone : Alone st reader)
    (env : Env Time) : Safe k ⟨st, reader⟩ (.other (.work env)) := by
  intro r todo hreader ops hops hnext hne
  obtain ⟨t, -, ht, -⟩ := h.working hops
  cases hread with
  | done => cases hreader
  | @scanning r' a j hj memory anchor merged =>
    rcases halone _ _ rfl with hrecent | hr
    · obtain ⟨rfl, rfl⟩ := Reader.scanning.inj hreader
      dsimp only at hnext
      obtain ⟨i, hi, hage⟩ := headD_drop_newer r' hj
      rw [hi, hrecent] at hnext
      rw [hnext, show age (n := 7) r' (r' + 1) = 9 from age_next r'] at hage
      omega
    · rw [hr] at ht
      cases ht

/-- What a step of `adjust` does to `recent` and `reserve`. -/
theorem Alone.step (halone : Alone st reader) (h : st.Inv Time m) {e : ServeAction Time} {a : Action Time}
    (ha : e.action = some a) (hstep : st.step a = some st') : Alone st' reader := by
  intro r todo hreader
  have hr := halone r todo hreader
  cases Threads.step_cases hstep with
  | nothing => exact hr
  | write => cases e <;> cases ha
  | swap => cases e <;> cases ha
  | lock => exact hr
  | @work env op todo s' hholder hrun =>
    obtain ⟨t, -, ht, -⟩ := h.working hholder
    rw [AdjustOp.run_eq h.wf _ ht, Option.some.injEq] at hrun
    subst hrun
    have hrecent := hr.resolve_right (by rw [ht]; simp)
    cases op with
    | emptyTemp | copy | truncate | merge | emptyTempAgain | dump => exact .inl hrecent
    | retire => exact .inr rfl
  | unlock => exact hr

/-- What is known of a read that has not delivered its answer. -/
structure Answering (m : K → Option V) (k : K) (st : Threads) (reader : Reader) : Prop where
  alone : Alone st reader
  reads : reader = .idle ∨ ∀ w, m k = some w → w ≠ tombstone V → Reads k (· = w) st reader

theorem answering_idle (m : K → Option V) (k : K) (st : Threads) : Answering m k st .idle :=
  ⟨fun r todo h ↦ (by cases h), .inl rfl⟩

/-- **A step of `adjust`** in the middle of a read. -/
theorem Answering.other (hans : Answering m k st reader) (h : st.Inv Time m) {e : ServeAction Time}
    {a : Action Time} (ha : e.action = some a) (hstep : st.step a = some st') :
    Answering m k st' reader := by
  refine ⟨hans.alone.step h ha hstep, hans.reads.imp_right fun hreads w hw hlive ↦ ?_⟩
  have hread := hreads w hw hlive
  have hsafe : Safe k ⟨st, reader⟩ (.other a) := by
    cases e with
    | serve => cases ha
    | lock | unlock => cases ha; trivial
    | work env => cases ha; exact hread.safe_work h hans.alone env
  refine hread.other h (fun v hv ↦ hv ▸ hlive) hsafe (fun r todo v _ hwrite ↦ ?_) hstep
  subst hwrite
  cases e <;> cases ha

/-- Every step of a read goes through. -/
theorem exists_readerStep (h : st.store.WF) (reader : Reader) :
    ∃ reader' sys, reader.step k st = some (reader', sys) ∧
      Store.Cached st.store { st.store with sys := sys } := by
  cases reader with
  | idle =>
    rw [Reader.step]
    cases readMemory k st.store with
    | some answer => exact ⟨_, _, rfl, .refl h.quiet⟩
    | none => exact ⟨_, _, rfl, .refl h.quiet⟩
  | scanning r todo =>
    cases todo with
    | nil =>
      rw [Reader.step]
      split_ifs
      · obtain ⟨sys, hscan, hq, hfs⟩ := scan_eq h.quiet h.files k (slots (r + 2) r)
        exact ⟨_, _, by rw [hscan, Option.map_some], ⟨⟨sys, rfl⟩, hfs, hq⟩⟩
      · exact ⟨_, _, rfl, .refl h.quiet⟩
    | cons i todo =>
      obtain ⟨sys, hlookup, hq, hfs⟩ := lookupFile_filesys h.quiet h.files i k
      rw [Reader.step, hlookup, Option.map_some]
      cases fileAt st.store.fs i k <;> exact ⟨_, _, rfl, ⟨⟨sys, rfl⟩, hfs, hq⟩⟩
  | done answer => exact ⟨_, _, rfl, .refl h.quiet⟩

/-- The `recent` a read keeps to is the one it has seen first. -/
theorem Alone.read (halone : Alone st reader) {reader' : Reader} {sys : Sys}
    (hstep : reader.step k st = some (reader', sys)) :
    Alone { st with store := { st.store with sys := sys } } reader' := by
  intro r todo hreader
  subst hreader
  cases reader with
  | idle =>
    rw [Reader.step] at hstep
    split at hstep <;> cases hstep
    exact .inl rfl
  | scanning r' todo' =>
    have hr := halone r' todo' rfl
    cases todo' with
    | nil =>
      rw [Reader.step] at hstep
      split_ifs at hstep
      · obtain ⟨⟨v, sys'⟩, -, heq⟩ := Option.map_eq_some_iff.mp hstep
        cases heq
      · cases hstep
        exact hr
    | cons i todo' =>
      obtain ⟨⟨v, sys'⟩, -, heq⟩ := Option.map_eq_some_iff.mp hstep
      cases v <;> cases heq
      exact hr
  | done answer => cases hstep

/-- **A step of the read.** -/
theorem Answering.read (hans : Answering m k st reader) (h : st.Inv Time m) :
    ∃ reader' sys, reader.step k st = some (reader', sys) ∧
      Store.Cached st.store { st.store with sys := sys } ∧
      Answering m k { st with store := { st.store with sys := sys } } reader' := by
  obtain ⟨reader', sys, hstep, hcached⟩ := exists_readerStep (k := k) h.wf reader
  refine ⟨reader', sys, hstep, hcached, hans.alone.read hstep, .inr fun w hw hlive ↦ ?_⟩
  rcases hans.reads with rfl | hreads
  · obtain ⟨reader₁, hstep₁, hread⟩ : ∃ reader₁, Reader.step k st .idle = some (reader₁, st.store.sys) ∧
        Reads k (· = w) st reader₁ := h.reads hw hlive rfl
    rw [hstep, Option.some.injEq, Prod.mk.injEq] at hstep₁
    obtain ⟨rfl, rfl⟩ := hstep₁
    exact hread
  · have hread := hreads w hw hlive
    obtain ⟨reader₁, sys₁, hstep₁, -, hread₁⟩ := hread.read h (hread.safe_read h hans.alone)
    rw [hstep, Option.some.injEq, Prod.mk.injEq] at hstep₁
    obtain ⟨rfl, rfl⟩ := hstep₁
    exact hread₁

end Alone

/-! ## The invariant -/

/-- `serve` has answered the lines `done`, or is in the middle of the last of them. -/
inductive Serves (Time : Type) [TimeFormat Time] : List Line → Server → Prop
  | between {done : List Line} {st : Server} (serving : ∀ k reader, st.serving ≠ .reading k reader)
      (finished : st.serving = .finished → st.input = []) (threads : st.threads.Inv Time (noted done))
      (output : Answered done st.output) : Serves Time done st
  | reading {done : List Line} {k : Field} {semi : Bool} {reader : Reader} {st : Server}
      (serving : st.serving = .reading k.key reader) (threads : st.threads.Inv Time (noted done))
      (output : Answered done st.output) (answering : Answering (noted done) k.key st.threads reader) :
      Serves Time (done ++ [.read k semi]) st

/-- What is known of `serve` and the threads while it serves these lines. -/
structure Server.Inv (Time : Type) [TimeFormat Time] (lines : List Line) (st : Server) : Prop where
  exists_done : ∃ done todo, lines = done ++ todo ∧ st.input = batchFile todo ∧ Serves Time done st

variable {lines : List Line} {st : Server}

/-- **A step of `adjust`.** -/
theorem Server.Inv.other (h : st.Inv Time lines) {e : ServeAction Time} {a : Action Time}
    (ha : e.action = some a) : ∃ st', st.step e = some st' ∧ st'.Inv Time lines := by
  obtain ⟨done, todo, rfl, hinput, hserves⟩ := h
  have hnote : ∀ m : K → Option V, a.note m = m := by
    intro m
    cases e <;> cases ha <;> rfl
  cases hserves with
  | between serving finished threads output =>
    obtain ⟨threads', hstep, hinv⟩ := threads.step a
    rw [hnote] at hinv
    exact ⟨{ st with threads := threads' }, by simp only [Server.step, ha, hstep, Option.map_some],
      done, todo, rfl, hinput, .between serving finished hinv output⟩
  | reading serving threads output answering =>
    obtain ⟨threads', hstep, hinv⟩ := threads.step a
    rw [hnote] at hinv
    exact ⟨{ st with threads := threads' }, by simp only [Server.step, ha, hstep, Option.map_some],
      _, todo, rfl, hinput, .reading serving hinv output (answering.other threads ha hstep)⟩

/-- **A step of `serve`.** -/
theorem Server.Inv.serve (h : st.Inv Time lines) : ∃ st', st.serve Time = some st' ∧ st'.Inv Time lines := by
  obtain ⟨threads, serving, input, output⟩ := st
  obtain ⟨done, todo, rfl, rfl, hserves⟩ := h
  cases hserves with
  | between hserving hfinished hthreads houtput =>
    dsimp only at hserving hfinished hthreads houtput
    cases serving with
    | next =>
      cases todo with
      | nil => exact ⟨_, rfl, done, [], rfl, rfl, .between (by simp) (fun _ ↦ rfl) hthreads houtput⟩
      | cons l todo =>
        have hget := getline_batchFile l todo
        have hparse := parseLine_text l
        have hlines : done ++ l :: todo = (done ++ [l]) ++ todo := by simp
        cases l with
        | write k v =>
          obtain ⟨threads', hstep, hinv⟩ := hthreads.step (.write k.key (cutValue k v))
          refine ⟨⟨threads', .testing, batchFile todo, output⟩, ?_, done ++ [.write k v], todo, hlines, rfl,
            .between (by simp) (by simp) ?_ (houtput.write k v)⟩
          · simp only [Server.serve, hget, hparse, Except.toOption, Option.bind_some, hstep, Option.map_some]
          · rw [noted_concat]
            exact hinv
        | read k semi =>
          refine ⟨⟨threads, .reading k.key .idle, batchFile todo, output⟩, ?_, done ++ [.read k semi], todo,
            hlines, rfl, .reading rfl hthreads houtput (answering_idle _ _ _)⟩
          simp only [Server.serve, hget, hparse, Except.toOption, Option.bind_some]
    | reading k reader => exact absurd rfl (hserving k reader)
    | testing =>
      obtain ⟨threads', hstep, hinv⟩ := hthreads.step .swap
      exact ⟨⟨threads', .next, batchFile todo, output⟩, by simp only [Server.serve, hstep, Option.map_some],
        done, todo, rfl, rfl, .between (by simp) (by simp) hinv houtput⟩
    | finished => exact ⟨_, rfl, done, todo, rfl, rfl, .between (by simp) hfinished hthreads houtput⟩
  | @reading done k semi reader _ hserving hthreads houtput hans =>
    obtain rfl : serving = .reading k.key reader := hserving
    dsimp only at hthreads houtput hans
    by_cases hdone : ∃ answer, reader = .done answer
    · obtain ⟨answer, rfl⟩ := hdone
      have hanswer : ∀ w, noted done k.key = some w → w ≠ tombstone V → answer = some w := by
        intro w hw hlive
        rcases hans.reads with hidle | hreads
        · cases hidle
        · cases hreads w hw hlive with
          | done hv => rw [hv]
      refine ⟨_, rfl, _, todo, rfl, rfl, .between (by simp) (by simp) ?_
        (houtput.read k semi answer hanswer)⟩
      rw [noted_concat]
      exact hthreads
    · obtain ⟨reader', sys, hstep, hcached, hans'⟩ := hans.read hthreads
      refine ⟨⟨{ threads with store := { threads.store with sys := sys } }, .reading k.key reader',
        batchFile todo, output⟩, ?_, _, todo, rfl, rfl, .reading rfl (hthreads.cached hcached) houtput hans'⟩
      cases reader with
      | done answer => exact absurd ⟨answer, rfl⟩ hdone
      | idle | scanning => simp only [Server.serve, hstep, Option.map_some]

/-- **Every step** goes through and keeps the invariant. -/
theorem Server.Inv.step (h : st.Inv Time lines) (e : ServeAction Time) :
    ∃ st', st.step e = some st' ∧ st'.Inv Time lines := by
  cases e with
  | serve => exact h.serve
  | lock => exact h.other (e := .lock) rfl
  | work env => exact h.other (e := .work env) rfl
  | unlock => exact h.other (e := .unlock) rfl

/-- **Every run** from a fresh store. -/
theorem Fresh.serves {s : Store} (h : Fresh Time s) (lines : List Line) (es : List (ServeAction Time)) :
    ∃ st, Runs.run Server.step (Server.start s lines) es = some st ∧ st.Inv Time lines := by
  have hstart : (Server.start s lines).Inv Time lines :=
    ⟨[], lines, rfl, rfl, .between (by simp [Server.start]) (by simp [Server.start]) h.inv answered_nil⟩
  exact Runs.run_total_of_mem (fun st e _ hst ↦ hst.step e) hstart

/-! ## `serve` gets to the end

A thread waits only for `fslock`, and an `adjust` that has it gives it back after its operations. -/

/-- The steps a read may still need, while `fslock` is free. -/
def Reader.left : Reader → ℕ
  | .idle => 10
  | .scanning _ todo => todo.length + 1
  | .done _ => 0

/-- The steps `serve` may still need, while `fslock` is free. -/
def Server.left (st : Server) : ℕ :=
  match st.serving with
  | .next => 14 * st.input.length + 1
  | .reading _ reader => 14 * st.input.length + 3 + reader.left
  | .testing => 14 * st.input.length + 2
  | .finished => 0

theorem Reader.left_le (reader : Reader) {k : K} {st : Threads} {sys : Sys} {reader' : Reader}
    (hholder : st.holder = none) (hdone : ∀ answer, reader ≠ .done answer)
    (hstep : reader.step k st = some (reader', sys)) : reader'.left < reader.left := by
  cases reader with
  | idle =>
    rw [Reader.step] at hstep
    split at hstep <;> cases hstep
    · exact Nat.succ_pos 9
    · rw [slots_newer]
      exact Nat.lt_succ_self 9
  | scanning r todo =>
    cases todo with
    | nil =>
      rw [Reader.step, if_pos hholder] at hstep
      obtain ⟨⟨v, sys'⟩, -, heq⟩ := Option.map_eq_some_iff.mp hstep
      cases heq
      exact Nat.succ_pos _
    | cons i todo =>
      obtain ⟨⟨v, sys'⟩, -, heq⟩ := Option.map_eq_some_iff.mp hstep
      cases v with
      | none => cases heq; exact Nat.lt_succ_self _
      | some v => cases heq; exact Nat.succ_pos _
  | done answer => exact absurd rfl (hdone answer)

theorem length_getline {input rest a : Bytes} (h : getline input = some (a, rest)) :
    rest.length < input.length := by
  rw [getline] at h
  split_ifs at h with hempty
  obtain ⟨-, rfl⟩ := Prod.mk.inj (Option.some.inj h)
  have hpos := List.length_pos_of_ne_nil hempty
  have hle := (List.dropWhile_suffix (· ≠ newline) (l := input)).length_le
  rw [List.length_tail]
  omega

/-- **Each step of `serve`** leaves it less to do, while `fslock` is free. -/
theorem Server.left_lt {st' : Server} (hholder : st.threads.holder = none)
    (hleft : st.left ≠ 0) (hstep : st.serve Time = some st') :
    st'.threads.holder = none ∧ st'.left < st.left := by
  obtain ⟨threads, serving, input, output⟩ := st
  dsimp only at hholder
  cases serving with
  | next =>
    rw [Server.serve] at hstep
    dsimp only at hstep
    cases hget : getline input with
    | none =>
      rw [hget] at hstep
      cases hstep
      exact ⟨hholder, Nat.succ_pos _⟩
    | some line =>
      obtain ⟨a, rest⟩ := line
      have hlt := length_getline hget
      rw [hget] at hstep
      obtain ⟨command, -, hstep⟩ := Option.bind_eq_some_iff.mp hstep
      cases command with
      | read k =>
        cases hstep
        refine ⟨hholder, ?_⟩
        simp only [Server.left, Reader.left]
        omega
      | write k v =>
        cases hstep
        refine ⟨hholder, ?_⟩
        simp only [Server.left]
        omega
      | none =>
        cases hstep
        refine ⟨hholder, ?_⟩
        simp only [Server.left]
        omega
  | reading k reader =>
    by_cases hdone : ∃ answer, reader = .done answer
    · obtain ⟨answer, rfl⟩ := hdone
      cases hstep
      exact ⟨hholder, Nat.lt_succ_self _⟩
    · have hne : ∀ answer, reader ≠ .done answer := fun answer h ↦ hdone ⟨answer, h⟩
      have hserve : (reader.step k threads).map (fun (reader, sys) ↦
          (⟨{ threads with store := { threads.store with sys := sys } }, .reading k reader, input,
            output⟩ : Server)) = some st' := by
        cases reader with
        | done answer => exact absurd rfl (hne answer)
        | idle | scanning => exact hstep
      obtain ⟨⟨reader', sys⟩, hreader, rfl⟩ := Option.map_eq_some_iff.mp hserve
      exact ⟨hholder, Nat.add_lt_add_left (reader.left_le hholder hne hreader) _⟩
  | testing =>
    cases hstep
    refine ⟨?_, Nat.lt_succ_self _⟩
    dsimp only
    split_ifs <;> exact hholder
  | finished => exact absurd rfl hleft

/-- What is in the output are the answers to the first lines. -/
theorem Server.Inv.exists_answered (h : st.Inv Time lines) :
    ∃ done todo, lines = done ++ todo ∧ Answered done st.output := by
  obtain ⟨done, todo, rfl, -, hserves⟩ := h
  cases hserves with
  | between _ _ _ output => exact ⟨done, todo, rfl, output⟩
  | reading _ _ output => exact ⟨_, _, List.append_assoc _ _ _, output⟩

/-- When `serve` is done it has answered every line. -/
theorem Server.Inv.answered (h : st.Inv Time lines) (hfinished : st.serving = .finished) :
    Answered lines st.output := by
  obtain ⟨done, todo, rfl, hinput, hserves⟩ := h
  cases hserves with
  | between _ finished _ output =>
    rw [finished hfinished] at hinput
    cases todo with
    | nil => rwa [List.append_nil]
    | cons l todo => simp [batchFile] at hinput
  | reading serving =>
    rw [hfinished] at serving
    cases serving

/-- **Some run** gets to the end of the file. -/
theorem Fresh.serves_all {s : Store} (h : Fresh Time s) (lines : List Line) :
    ∃ (es : List (ServeAction Time)) (st : Server),
      Runs.run Server.step (Server.start s lines) es = some st ∧ Answered lines st.output := by
  have hstep : ∀ st : Server, st.Inv Time lines ∧ st.threads.holder = none → st.left ≠ 0 →
      ∃ (e : ServeAction Time) (st' : Server), st.step e = some st' ∧
        (st'.Inv Time lines ∧ st'.threads.holder = none) ∧ st'.left < st.left := by
    rintro st ⟨hinv, hholder⟩ hleft
    obtain ⟨st', hserve, hinv'⟩ := hinv.serve
    obtain ⟨hholder', hlt⟩ := Server.left_lt hholder hleft hserve
    exact ⟨.serve, st', hserve, ⟨hinv', hholder'⟩, hlt⟩
  obtain ⟨st₀, hrun₀, hinv₀⟩ := h.serves lines ([] : List (ServeAction Time))
  cases hrun₀
  obtain ⟨es, st, hrun, ⟨hinv, -⟩, hzero⟩ := Runs.exists_run_of_measure hstep ⟨hinv₀, rfl⟩
  refine ⟨es, st, hrun, hinv.answered ?_⟩
  cases hserving : st.serving with
  | finished => rfl
  | next | reading | testing => simp [Server.left, hserving] at hzero

/-! ## What a read prints

By now the threads are out of the picture: what is printed is a function of the lines that were served
before. -/

/-- The read of the key that comes after the lines `earlier` prints `chunk`, however the threads take
turns: some run gets there, and none prints anything else or goes wrong. -/
def Prints (Time : Type) [TimeFormat Time] (s : Store) (earlier : List Line) (k : Field) (semi : Bool)
    (after : List Line) (chunk : Bytes) : Prop :=
  let start := Server.start s (earlier ++ .read k semi :: after)
  let n := earlier.countP Line.isRead
  (∃ (es : List (ServeAction Time)) (st : Server),
    Runs.run Server.step start es = some st ∧ st.output[n]? = some chunk) ∧
  ∀ es : List (ServeAction Time), ∃ st, Runs.run Server.step start es = some st ∧
    ∀ chunk', st.output[n]? = some chunk' → chunk' = chunk

theorem Prints.unique {s : Store} {earlier : List Line} {k : Field} {semi : Bool} {after : List Line}
    {chunk chunk' : Bytes} (h : Prints Time s earlier k semi after chunk)
    (h' : Prints Time s earlier k semi after chunk') : chunk = chunk' := by
  obtain ⟨es, st, hrun, hchunk⟩ := h.1
  obtain ⟨st', hrun', hall⟩ := h'.2 es
  rw [hrun, Option.some.injEq] at hrun'
  exact hall chunk (hrun' ▸ hchunk)

theorem Field.key_inj {k k' : Field} : k.key = k'.key ↔ k = k' := by
  refine ⟨fun h ↦ ?_, fun h ↦ h ▸ rfl⟩
  have hbytes : k.bytes = k'.bytes := by
    rw [← Pod.toBytes_ofBytes (α := K) k.bytes k.length_eq, ← Pod.toBytes_ofBytes (α := K) k'.bytes k'.length_eq]
    exact congrArg Pod.toBytes h
  cases k; cases k'; cases hbytes
  rfl

/-- The line writes to the key. -/
def Line.Writes (k : Field) (l : Line) : Prop := ∃ v, l = .write k v

theorem noted_between (before : List Line) (k v : Field) {between : List Line}
    (hbetween : ∀ l ∈ between, ¬l.Writes k) :
    noted (before ++ .write k v :: between) k.key = some (cutValue k v) := by
  have hfold : ∀ m : K → Option V, between.foldl Line.note m k.key = m k.key := by
    induction between with
    | nil => exact fun _ ↦ rfl
    | cons l between ih =>
      intro m
      rw [List.foldl_cons, ih fun l' hl' ↦ hbetween l' (List.mem_cons_of_mem _ hl')]
      cases l with
      | write k' v' =>
        refine Function.update_of_ne (fun hk ↦ ?_) _ _
        rw [Field.key_inj] at hk
        exact hbetween _ List.mem_cons_self ⟨v', by rw [hk]⟩
      | read => rfl
  rw [noted, List.foldl_append, List.foldl_cons, hfold]
  exact Function.update_self _ _ _

/-- Lines of which more reads are answered than there are before the next one have that one in them. -/
theorem exists_after {lines done todo before after : List Line} {l : Line}
    (hlines : lines = before ++ l :: after) (hdone : lines = done ++ todo)
    (hcount : before.countP Line.isRead < done.countP Line.isRead) :
    ∃ after', done = before ++ l :: after' := by
  rw [hlines] at hdone
  rcases List.append_eq_append_iff.mp hdone with ⟨rest, rfl, hrest⟩ | ⟨rest, rfl, -⟩
  · cases rest with
    | nil => simp at hcount
    | cons x rest =>
      obtain ⟨rfl, -⟩ := List.cons.inj hrest
      exact ⟨rest, rfl⟩
  · rw [List.countP_append] at hcount
    omega

/-- **A read prints the value stored last**, whatever came before it, in between and after. -/
theorem serve_prints {s : Store} (h : Fresh Time s) {k v : Field} (hv : v.value ≠ tombstone V)
    (before : List Line) {between : List Line} (hbetween : ∀ l ∈ between, ¬l.Writes k) (semi : Bool)
    (after : List Line) :
    Prints Time s (before ++ .write k v :: between) k semi after (shown k v) := by
  have hnoted := noted_between before k v hbetween
  generalize before ++ .write k v :: between = earlier at hnoted ⊢
  have hchunk : ∀ {lines : List Line} {output : List Bytes} {after' : List Line}, Answered lines output →
      lines = earlier ++ .read k semi :: after' →
      output[earlier.countP Line.isRead]? = some (shown k v) := by
    intro lines output after' hans hlines
    obtain ⟨answer, hget, hanswer⟩ := hans.answer _ k semi after' hlines
    rw [hget, hanswer _ hnoted (cutValue_ne_tombstone hv), shown]
  refine ⟨?_, fun es ↦ ?_⟩
  · obtain ⟨es, st, hrun, hans⟩ := h.serves_all (earlier ++ .read k semi :: after)
    exact ⟨es, st, hrun, hchunk hans rfl⟩
  · obtain ⟨st, hrun, hinv⟩ := h.serves (earlier ++ .read k semi :: after) es
    refine ⟨st, hrun, fun chunk hget ↦ ?_⟩
    obtain ⟨done, todo, hdone, hans⟩ := hinv.exists_answered
    have hlt := (List.getElem?_eq_some_iff.mp hget).1
    rw [hans.length_eq] at hlt
    obtain ⟨after', hafter⟩ := exists_after rfl hdone hlt
    rw [hchunk hans hafter, Option.some.injEq] at hget
    exact hget.symm

/-- **The round trip of a line.**  The read prints `shown k v`, which depends on nothing but the line that
wrote the key, and that is the value and a newline exactly when the value has no zero and is what
follows the first comma of its line. -/
theorem serve_prints_iff (s : Store) (h : Fresh Time s) (k v : Field) (hv : v.value ≠ tombstone V)
    (before between : List Line) (hbetween : ∀ l ∈ between, ¬l.Writes k) (semi : Bool)
    (after : List Line) :
    Prints Time s (before ++ .write k v :: between) k semi after (shown k v) ∧
      (Prints Time s (before ++ .write k v :: between) k semi after (v.bytes ++ [newline]) ↔
        0 ∉ v.bytes ∧
          v.bytes <+: (k.bytes ++ comma :: blank :: v.bytes).drop (k.bytes.idxOf comma + 2)) := by
  have hprints := serve_prints h hv before hbetween semi after
  refine ⟨hprints, ?_⟩
  rw [← shown_eq_iff]
  constructor
  · exact fun hprints' ↦ hprints.unique hprints'
  · exact fun heq ↦ heq ▸ hprints

/-- A key or value that is one byte 64 times. -/
def sameByte (b : UInt8) (hb : b ≠ newline) : Field :=
  ⟨List.replicate 64 b, List.length_replicate, fun h ↦ hb (List.eq_of_mem_replicate h).symm⟩

def someKey : Field := sameByte 'k'.toUInt8 (by decide)

def someValue : Field := sameByte 'v'.toUInt8 (by decide)

/-- A key that begins with a comma. -/
def commaKey : Field := ⟨comma :: List.replicate 63 'k'.toUInt8, by simp, by simp; decide⟩

theorem value_someValue : someValue.value ≠ tombstone V :=
  ofBytes_ne_tombstone someValue.length_eq (b := 'v'.toUInt8)
    (List.mem_replicate.mpr ⟨by decide, rfl⟩) (by decide)

/-- Between the write and the read there is a write to another key, which begins with a comma. -/
theorem serve_prints_iff_otherKey :
    Prints DaySecond (freshStore (fun _ ↦ (0 : DaySecond)) 9)
        ([] ++ .write someKey someValue :: [.write commaKey someValue]) someKey true []
        (shown someKey someValue) ∧
      (Prints DaySecond (freshStore (fun _ ↦ (0 : DaySecond)) 9)
          ([] ++ .write someKey someValue :: [.write commaKey someValue]) someKey true []
          (someValue.bytes ++ [newline]) ↔
        0 ∉ someValue.bytes ∧ someValue.bytes <+:
          (someKey.bytes ++ comma :: blank :: someValue.bytes).drop (someKey.bytes.idxOf comma + 2)) := by
  refine serve_prints_iff _ (fresh_freshStore _ 9) someKey someValue value_someValue [] [_] (fun l hl ↦ ?_)
    true []
  rintro ⟨v, rfl⟩
  have hkeys : someKey.bytes = commaKey.bytes := by
    rw [List.mem_singleton] at hl
    injection hl with hk
    rw [hk]
  revert hkeys
  decide

/-- The value is cut out one comma too early. -/
theorem serve_cuts_at_first_comma : someValue.value ≠ tombstone V ∧
    ¬Prints DaySecond (freshStore (fun _ ↦ (0 : DaySecond)) 9) [.write commaKey someValue] commaKey false []
      (someValue.bytes ++ [newline]) := by
  refine ⟨value_someValue, fun hprints ↦ ?_⟩
  have hshown := serve_prints (fresh_freshStore (fun _ ↦ (0 : DaySecond)) 9) (k := commaKey) value_someValue
    [] (show ∀ l ∈ ([] : List Line), ¬l.Writes commaKey by simp) false []
  have heq := (shown_eq_iff commaKey someValue).mp (hshown.unique hprints)
  revert heq
  decide

end Master

end ScratchStore
