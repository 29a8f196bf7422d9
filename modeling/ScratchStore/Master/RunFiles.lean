import Mathlib.Algebra.Order.BigOperators.Group.Finset
import ScratchStore.Master.Origins
import ScratchStore.Master.Serve

/-!
# Many batch files

`Master::run` starts a thread for each batch file, which serves it, and waits until all are done.  The
threads share the store with each other and with the `adjust` threads they start, and may be overtaken in
the middle of a read by any number of them.

Such a read may miss its key.  But whatever the files and however the threads take turns, nothing goes
wrong, a read only prints what was written to its key before (`run_answers`), and in the end each key has
the value that one of the files wrote to it last (`run_files`).

## The steps

A thread takes one step for everything it does under `memlock`, and one for each file it looks a key up in.  The
lookup has a cache that all threads share without a lock, and here the whole lookup is one step: what two of
them do to each other in that cache is not in this model.

## The proofs

* `Server.At` and `Server.Does` say what one step of one thread does to the store and to the output, as if it
  were alone.
* `Running.Serves` is the invariant of all of them.  It has the place of each thread and what it has
  printed, and of the store that each key has what some file wrote to it last (`LastOf`).
* `Running.left` goes down with every step that `Running.Serves.exists_step_left_lt` finds, so `exists_end` is
  an induction on it.
-/

set_option autoImplicit false

namespace ScratchStore

namespace Master

open SortedAssoc FileIO Layers

variable {Time : Type} [TimeFormat Time] {ι : Type}

/-! ## The threads of `run` -/

/-- A thread that serves a file: where it is, what it has still to read, and what it has printed. -/
structure ServingThread where
  place : ServePoint
  input : Bytes
  output : List Bytes

/-- The store with its `adjust` threads, and a thread for each batch file. -/
structure Running (ι : Type) where
  threads : Threads
  servers : ι → ServingThread

/-- A step of the thread that serves the file `i`, or of an `adjust`. -/
inductive RunAction (ι Time : Type) where
  | serve (i : ι)
  | lock
  | work (env : Env Time)
  | unlock

/-- The thread that serves the file `i`, and what it shares with the others. -/
def Running.server (st : Running ι) (i : ι) : Server :=
  ⟨st.threads, (st.servers i).place, (st.servers i).input, (st.servers i).output⟩

section Step

variable [DecidableEq ι]

def Running.put (st : Running ι) (i : ι) (server : Server) : Running ι :=
  ⟨server.threads, Function.update st.servers i ⟨server.serving, server.input, server.output⟩⟩

@[simp] theorem Running.servers_put_self (st : Running ι) (i : ι) (server : Server) :
    (st.put i server).servers i = ⟨server.serving, server.input, server.output⟩ :=
  Function.update_self _ _ _

theorem Running.servers_put_of_ne (st : Running ι) {i j : ι} (hj : j ≠ i) (server : Server) :
    (st.put i server).servers j = st.servers j := Function.update_of_ne hj _ _

/-- A step of an `adjust`. -/
def Running.act (st : Running ι) (a : Action Time) : Option (Running ι) :=
  (st.threads.step a).map fun threads ↦ { st with threads := threads }

/-- One step of some thread.  In a read each lookup in a file is one step, its cached reads and all: the
cache of `FileIO` is static and has no lock, and what two lookups do to each other that are in the middle of
their reads is not modelled. -/
def Running.step (st : Running ι) : RunAction ι Time → Option (Running ι)
  | .serve i => ((st.server i).serve Time).map (st.put i)
  | .lock => st.act (.lock : Action Time)
  | .work env => st.act (.work env)
  | .unlock => st.act (.unlock : Action Time)

end Step

/-- `run` when it has started its threads. -/
def Running.start (s : Store) (files : ι → List Line) : Running ι :=
  ⟨⟨s, 0, none⟩, fun i ↦ ⟨.next, batchFile (files i), []⟩⟩

/-! ## One step of one thread -/

/-- The thread has served the lines `done`, and may be reading for the next one. -/
inductive Server.At (lines done : List Line) (st : Server) : Prop
  | between {todo : List Line} (hlines : lines = done ++ todo) (hinput : st.input = batchFile todo)
      (hplace : ∀ k reader, st.serving ≠ .reading k reader) (hfinished : st.serving = .finished → todo = [])
  | reading {k : Field} {semi : Bool} {reader : Reader} {todo : List Line}
      (hlines : lines = done ++ .read k semi :: todo) (hinput : st.input = batchFile todo)
      (hplace : st.serving = .reading k.key reader)

/-- What a step of `serve` can do, and the lines that are served then. -/
inductive Server.Does (Time : Type) [TimeFormat Time] (done : List Line) (st : Server) :
    Server → List Line → Prop
  | write (k v : Field) (input : Bytes) : Does Time done st
      ⟨{ st.threads with store := dbwrite k.key (cutValue k v) st.threads.store }, .testing, input, st.output⟩
      (done ++ [.write k v])
  | begin (k : Field) (input : Bytes) :
      Does Time done st ⟨st.threads, .reading k.key .idle, input, st.output⟩ done
  | lookup {k : Field} {reader reader' : Reader} {sys : Sys} (hplace : st.serving = .reading k.key reader)
      (hstep : reader.step k.key st.threads = some (reader', sys))
      (hcached : Store.Cached st.threads.store { st.threads.store with sys := sys }) :
      Does Time done st ⟨{ st.threads with store := { st.threads.store with sys := sys } },
        .reading k.key reader', st.input, st.output⟩ done
  | answer {k : Field} {answer : Option V} (semi : Bool)
      (hplace : st.serving = .reading k.key (.done answer)) :
      Does Time done st ⟨st.threads, .testing, st.input, st.output ++ [printed answer]⟩
        (done ++ [.read k semi])
  | test {threads : Threads} (hstep : st.threads.step (.swap : Action Time) = some threads) :
      Does Time done st ⟨threads, .next, st.input, st.output⟩ done
  | finish : Does Time done st ⟨st.threads, .finished, st.input, st.output⟩ done

/-- **Every step of `serve`** goes through, and is one of these. -/
theorem Server.At.serve {lines done : List Line} {st : Server} {m : K → Option V} (h : st.At lines done)
    (hinv : st.threads.Inv Time m) :
    ∃ st' done', st.serve Time = some st' ∧ st.Does Time done st' done' ∧ st'.At lines done' := by
  obtain ⟨threads, serving, input, output⟩ := st
  dsimp only at hinv
  rcases h with @⟨todo, rfl, hinput, hplace, hfinished⟩ | @⟨k, semi, reader, todo, rfl, hinput, hplace⟩
  · dsimp only at hinput hplace hfinished
    subst hinput
    rcases serving with _ | ⟨k, reader⟩ | _ | _
    · rcases todo with _ | ⟨l, todo⟩
      · exact ⟨_, _, rfl, .finish, .between rfl rfl (by simp) fun _ ↦ rfl⟩
      · have hget := getline_batchFile l todo
        have hparse := parseLine_text l
        rcases l with ⟨k, v⟩ | ⟨k, semi⟩
        · refine ⟨_, _, ?_, .write k v (batchFile todo), .between (by simp) rfl (by simp) (by simp)⟩
          simp only [Server.serve, hget, hparse, Except.toOption, Option.bind_some, Threads.step,
            Option.map_some]
        · refine ⟨_, _, ?_, .begin k (batchFile todo), .reading rfl rfl rfl⟩
          simp only [Server.serve, hget, hparse, Except.toOption, Option.bind_some]
    · exact absurd rfl (hplace k reader)
    · obtain ⟨threads', hstep, -⟩ := hinv.step .swap
      refine ⟨_, _, ?_, .test hstep, .between rfl rfl (by simp) (by simp)⟩
      rw [Server.serve, hstep, Option.map_some]
    · exact ⟨_, _, rfl, .finish, .between rfl rfl (by simp) fun _ ↦ hfinished rfl⟩
  · dsimp only at hinput hplace
    subst hinput hplace
    rcases hreader : reader with _ | ⟨r, files⟩ | answer
    rotate_right
    · exact ⟨_, _, rfl, .answer semi rfl, .between (by simp) rfl (by simp) (by simp)⟩
    all_goals
      obtain ⟨reader', sys, hstep, hcached⟩ := exists_readerStep (k := k.key) hinv.wf reader
      subst hreader
      refine ⟨_, _, ?_, .lookup rfl hstep hcached, .reading rfl rfl rfl⟩
      simp only [Server.serve, hstep, Option.map_some]

/-! ## What a thread finds and prints

Nothing is known of where a read that was overtaken looks, but whatever it finds was written to the key.
-/

section Does

variable {P : K → V → Prop} {m : K → Option V} {done done' : List Line} {st st' : Server}

/-- **A step of a read** makes nothing up. -/
theorem Threads.Only.reader {st : Threads} (h : st.Only P) (hwf : st.store.WF) {k : K}
    {reader reader' : Reader} {sys : Sys} (hfound : ∀ v, reader = .done (some v) → P k v)
    (hstep : reader.step k st = some (reader', sys)) (v : V) (hv : reader' = .done (some v)) : P k v := by
  subst hv
  rcases reader with _ | ⟨r, _ | ⟨i, todo⟩⟩ | answer
  · rw [Reader.step, readMemory_eq] at hstep
    split_ifs at hstep
    · rcases hnew : newest st.store.memory k with _ | w
      · rw [hnew] at hstep
        cases hstep
      · rw [hnew] at hstep
        cases hstep
        obtain ⟨l, hl, hlk⟩ := exists_of_newest hnew
        exact h.memory k l hl v hlk
    · cases hstep
  · rw [Reader.step] at hstep
    split_ifs at hstep
    · obtain ⟨sys', hscan, -⟩ := scan_eq hwf.quiet hwf.files k (slots (r + 2) r)
      rw [hscan, Option.map_some, Option.some.injEq, Prod.mk.injEq, Reader.done.injEq] at hstep
      obtain ⟨l, hl, hlk⟩ := exists_of_newest hstep.1
      obtain ⟨i, -, rfl⟩ := List.mem_map.mp hl
      exact h.files i k v hlk
    · cases hstep
  · obtain ⟨sys', hlookup, -⟩ := lookupFile_filesys hwf.quiet hwf.files i k
    rw [Reader.step, hlookup, Option.map_some] at hstep
    rcases hfile : fileAt st.store.fs i k with _ | w
    · rw [hfile] at hstep
      cases hstep
    · rw [hfile] at hstep
      cases hstep
      exact h.files i k v hfile
  · cases hstep
    exact hfound v rfl

/-- The keys that are read. -/
def Line.readKey : Line → Option K
  | .write _ _ => none
  | .read k _ => some k.key

def readKeys (lines : List Line) : List K := lines.filterMap Line.readKey

/-- What was printed for each read says that there is no value, or is one of these. -/
def Printed (P : K → V → Prop) (lines : List Line) (output : List Bytes) : Prop :=
  List.Forall₂ (fun k chunk ↦ ∃ answer, chunk = printed answer ∧ ∀ v, answer = some v → P k v)
    (readKeys lines) output

omit [TimeFormat Time] in
theorem Printed.mono {Q : K → V → Prop} {output : List Bytes} (h : Printed P done output)
    (hle : ∀ k v, P k v → Q k v) : Printed Q done output :=
  List.Forall₂.imp (fun k _ ⟨answer, hchunk, hP⟩ ↦ ⟨answer, hchunk, fun v hv ↦ hle k v (hP v hv)⟩) h

/-- The lines that are served then have the last writes, if the others had them. -/
theorem Server.Does.inv (h : st.Does Time done st' done') (hinv : st.threads.Inv Time m) :
    ∃ ls, done' = done ++ ls ∧ st'.threads.Inv Time (ls.foldl Line.note m) := by
  rcases h with ⟨k, v⟩ | _ | ⟨-, -, hcached⟩ | ⟨semi⟩ | hstep | _
  · exact ⟨_, rfl, hinv.write k.key (cutValue k v)⟩
  · exact ⟨[], (List.append_nil _).symm, hinv⟩
  · exact ⟨[], (List.append_nil _).symm, hinv.cached hcached⟩
  · exact ⟨_, rfl, hinv⟩
  · obtain ⟨threads', hstep', hinv'⟩ := hinv.step .swap
    obtain rfl := Option.some.inj (hstep'.symm.trans hstep)
    exact ⟨[], (List.append_nil _).symm, hinv'⟩
  · exact ⟨[], (List.append_nil _).symm, hinv⟩

theorem Server.Does.only (h : st.Does Time done st' done') (hinv : st.threads.Inv Time m)
    (honly : st.threads.Only P) (hwrite : ∀ k v, .write k v ∈ done' → P k.key (cutValue k v)) :
    st'.threads.Only P := by
  rcases h with ⟨k, v⟩ | _ | ⟨-, -, hcached⟩ | _ | hstep | _
  · refine honly.step (a := .write k.key (cutValue k v)) hinv (fun k' v' ha ↦ ?_) rfl
    cases ha
    exact hwrite k v (by simp)
  · exact honly
  · exact honly.cached hcached
  · exact honly
  · exact honly.step hinv (fun k v ha ↦ by cases ha) hstep
  · exact honly

theorem Server.Does.found (h : st.Does Time done st' done') (hwf : st.threads.store.WF)
    (honly : st.threads.Only P) (hfound : ∀ k v, st.serving = .reading k (.done (some v)) → P k v) :
    ∀ k v, st'.serving = .reading k (.done (some v)) → P k v := by
  intro k v hv
  rcases h with _ | _ | ⟨hplace, hstep, -⟩ | _ | _ | _
  · cases hv
  · cases hv
  · cases hv
    exact honly.reader hwf (fun w hw ↦ hfound _ w (hw ▸ hplace)) hstep v rfl
  · cases hv
  · cases hv
  · cases hv

theorem Server.Does.printed (h : st.Does Time done st' done')
    (hfound : ∀ k v, st.serving = .reading k (.done (some v)) → P k v)
    (hprinted : Printed P done st.output) : Printed P done' st'.output := by
  rcases h with ⟨k, v⟩ | _ | _ | @⟨k, answer, semi, hplace⟩ | _ | _
  · have hkeys : readKeys (done ++ [.write k v]) = readKeys done := by simp [readKeys, Line.readKey]
    rw [Printed, hkeys]
    exact hprinted
  · exact hprinted
  · exact hprinted
  · have hkeys : readKeys (done ++ [.read k semi]) = readKeys done ++ [k.key] := by
      simp [readKeys, Line.readKey]
    rw [Printed, hkeys]
    exact List.rel_append hprinted (.cons ⟨answer, rfl, fun v hv ↦ hfound _ v (hv ▸ hplace)⟩ .nil)
  · exact hprinted
  · exact hprinted

end Does

/-! ## The invariant -/

/-- The pair was there before, or one of the files has written it. -/
def Stored (P₀ : K → V → Prop) (done : ι → List Line) (k : K) (v : V) : Prop :=
  P₀ k v ∨ ∃ i k' v', Line.write k' v' ∈ done i ∧ k'.key = k ∧ cutValue k' v' = v

/-- Each key has the value that some file has written to it last, and if none has, the one it had. -/
def LastOf (m₀ : K → Option V) (done : ι → List Line) (m : K → Option V) : Prop :=
  ∀ k, (∃ i, noted (done i) k ≠ none ∧ m k = noted (done i) k) ∨ (∀ i, noted (done i) k = none) ∧ m k = m₀ k

/-- The lines `done` of each file have been served. -/
structure Running.Serves (Time : Type) [TimeFormat Time] (files : ι → List Line) (P₀ : K → V → Prop)
    (m₀ : K → Option V) (st : Running ι) (done : ι → List Line) : Prop where
  place : ∀ i, (st.server i).At (files i) (done i)
  /-- Every record was written by one of the files, or was there before. -/
  only : st.threads.Only (Stored P₀ done)
  /-- So is what a read has found and not printed yet. -/
  found : ∀ i k v, (st.servers i).place = .reading k (.done (some v)) → Stored P₀ done k v
  /-- And what has been printed. -/
  printed : ∀ i, Printed (Stored P₀ done) (done i) (st.servers i).output
  /-- Each key has the last write of some file. -/
  last : ∃ m, st.threads.Inv Time m ∧ LastOf m₀ done m

section Run

variable {files done : ι → List Line} {P₀ : K → V → Prop} {m₀ m : K → Option V} {st st' : Running ι}

theorem foldl_lineNote (ls : List Line) (k : K) :
    (∃ v, ∀ m : K → Option V, ls.foldl Line.note m k = some v) ∨
      ∀ m : K → Option V, ls.foldl Line.note m k = m k := by
  induction ls with
  | nil => exact .inr fun _ ↦ rfl
  | cons l ls ih =>
    rcases ih with ⟨v, hv⟩ | hsame
    · exact .inl ⟨v, fun m ↦ hv _⟩
    · rcases l with ⟨k', v'⟩ | _
      · by_cases hk : k = k'.key
        · refine .inl ⟨cutValue k' v', fun m ↦ ?_⟩
          rw [List.foldl_cons, hsame, Line.note, hk, Function.update_self]
        · exact .inr fun m ↦ by rw [List.foldl_cons, hsame, Line.note, Function.update_of_ne hk]
      · exact .inr fun m ↦ by rw [List.foldl_cons, hsame, Line.note]

variable [DecidableEq ι]

/-- More lines of one file. -/
theorem LastOf.update (h : LastOf m₀ done m) (i : ι) (ls : List Line) :
    LastOf m₀ (Function.update done i (done i ++ ls)) (ls.foldl Line.note m) := by
  intro k
  have hnoted : noted (done i ++ ls) = ls.foldl Line.note (noted (done i)) := List.foldl_append
  rcases foldl_lineNote ls k with ⟨v, hv⟩ | hsame
  · refine .inl ⟨i, ?_⟩
    rw [Function.update_self, hnoted, hv, hv]
    exact ⟨by simp, rfl⟩
  · have hsame' : ∀ j, noted (Function.update done i (done i ++ ls) j) k = noted (done j) k := by
      intro j
      by_cases hj : j = i
      · rw [hj, Function.update_self, hnoted, hsame]
      · rw [Function.update_of_ne hj]
    simp only [hsame', hsame]
    exact h k

theorem Stored.update {k : K} {v : V} (h : Stored P₀ done k v) (i : ι) (ls : List Line) :
    Stored P₀ (Function.update done i (done i ++ ls)) k v := by
  refine h.imp id fun ⟨j, k', v', hmem, hk, hv⟩ ↦ ⟨j, k', v', ?_, hk, hv⟩
  by_cases hj : j = i
  · rw [hj, Function.update_self]
    exact List.mem_append_left _ (hj ▸ hmem)
  · rwa [Function.update_of_ne hj]

omit [DecidableEq ι] in
theorem Server.At.congr {lines served : List Line} {server server' : Server} (h : server.At lines served)
    (hplace : server'.serving = server.serving) (hinput : server'.input = server.input) :
    server'.At lines served := by
  rcases h with ⟨hlines, hi, hp, hf⟩ | ⟨hlines, hi, hp⟩
  · exact .between hlines (hinput.trans hi) (hplace ▸ hp) (hplace ▸ hf)
  · exact .reading hlines (hinput.trans hi) (hplace.trans hp)

omit [DecidableEq ι] in
/-- **A step of an `adjust`.** -/
theorem Running.Serves.act (h : st.Serves Time files P₀ m₀ done) {a : Action Time}
    (ha : ∀ m : K → Option V, a.note m = m) (hwrite : ∀ k v, a ≠ .write k v) :
    ∃ st', st.act a = some st' ∧ ∃ done', st'.Serves Time files P₀ m₀ done' := by
  obtain ⟨m, hinv, hlast⟩ := h.last
  obtain ⟨threads, hstep, hinv'⟩ := hinv.step a
  rw [ha] at hinv'
  exact ⟨{ st with threads := threads }, by rw [Running.act, hstep, Option.map_some], done,
    fun i ↦ (h.place i).congr rfl rfl, h.only.step hinv (fun k v hkv ↦ absurd hkv (hwrite k v)) hstep,
    h.found, h.printed, m, hinv', hlast⟩

/-- **A step of a thread that serves a file.** -/
theorem Running.Serves.serve (h : st.Serves Time files P₀ m₀ done) (i : ι) :
    ∃ st', st.step (.serve i : RunAction ι Time) = some st' ∧
      ∃ done', st'.Serves Time files P₀ m₀ done' := by
  obtain ⟨m, hinv, hlast⟩ := h.last
  obtain ⟨server, served, hserve, hdoes, hat⟩ := (h.place i).serve hinv
  obtain ⟨ls, rfl, hinv'⟩ := hdoes.inv hinv
  have hstored : ∀ k v, Stored P₀ done k v → Stored P₀ (Function.update done i (done i ++ ls)) k v :=
    fun k v hkv ↦ hkv.update i ls
  have hfound := fun k v hkv ↦ hstored k v (h.found i k v hkv)
  have honly := h.only.mono hstored
  refine ⟨st.put i server, by rw [Running.step, hserve, Option.map_some],
    Function.update done i (done i ++ ls), fun j ↦ ?_, ?_, fun j k v hkv ↦ ?_, fun j ↦ ?_, _, hinv',
    hlast.update i ls⟩
  · by_cases hj : j = i
    · subst hj
      rw [Function.update_self]
      exact hat.congr (by simp [Running.server]) (by simp [Running.server])
    · rw [Function.update_of_ne hj]
      exact (h.place j).congr (by simp only [Running.server, st.servers_put_of_ne hj])
        (by simp only [Running.server, st.servers_put_of_ne hj])
  · refine hdoes.only hinv honly fun k v hkv ↦ .inr ⟨i, k, v, ?_, rfl, rfl⟩
    rwa [Function.update_self]
  · by_cases hj : j = i
    · subst hj
      rw [Running.servers_put_self] at hkv
      exact hdoes.found hinv.wf honly hfound k v hkv
    · rw [st.servers_put_of_ne hj] at hkv
      exact hstored k v (h.found j k v hkv)
  · by_cases hj : j = i
    · subst hj
      rw [Running.servers_put_self, Function.update_self]
      exact hdoes.printed hfound ((h.printed j).mono hstored)
    · rw [st.servers_put_of_ne hj, Function.update_of_ne hj]
      exact (h.printed j).mono hstored

/-- **Every step** goes through and keeps the invariant. -/
theorem Running.Serves.step (h : st.Serves Time files P₀ m₀ done) (e : RunAction ι Time) :
    ∃ st', st.step e = some st' ∧ ∃ done', st'.Serves Time files P₀ m₀ done' := by
  rcases e with i | _ | env | _
  · exact h.serve i
  · exact h.act (a := .lock) (fun _ ↦ rfl) (by simp)
  · exact h.act (a := .work env) (fun _ ↦ rfl) (by simp)
  · exact h.act (a := .unlock) (fun _ ↦ rfl) (by simp)

/-- **Every run.** -/
theorem Running.Serves.run (h : st.Serves Time files P₀ m₀ done) (es : List (RunAction ι Time)) :
    ∃ st', Runs.run Running.step st es = some st' ∧ ∃ done', st'.Serves Time files P₀ m₀ done' := by
  have hstep : ∀ (st : Running ι), ∀ e ∈ es, (∃ done, st.Serves Time files P₀ m₀ done) →
      ∃ st', st.step e = some st' ∧ ∃ done, st'.Serves Time files P₀ m₀ done := by
    rintro st e - ⟨done, hst⟩
    exact hst.step e
  exact Runs.run_total_of_mem hstep ⟨done, h⟩

omit [DecidableEq ι] in
/-- The threads have begun. -/
theorem Running.serves_start {s : Store} (hinv : (Threads.mk s 0 none).Inv Time m₀)
    (honly : (Threads.mk s 0 none).Only P₀) (files : ι → List Line) :
    (Running.start s files).Serves Time files P₀ m₀ fun _ ↦ [] where
  place i := .between (List.nil_append _).symm rfl (by simp [Running.server, Running.start])
    (by simp [Running.server, Running.start])
  only := honly.mono fun _ _ ↦ .inl
  found i k v hplace := by cases hplace
  printed _ := .nil
  last := ⟨m₀, hinv, fun _ ↦ .inr ⟨fun _ ↦ rfl, rfl⟩⟩

/-! ## The end of a run

The steps that are left are counted.  A step of a server counts for more than all the steps of an
`adjust`, since it may start one. -/

/-- Every file is served to its end, and no `adjust` is left. -/
structure Running.Ended (st : Running ι) : Prop where
  places : ∀ i, (st.servers i).place = .finished
  holder : st.threads.holder = none
  waiting : st.threads.waiting = 0

omit [DecidableEq ι] in
theorem Running.Serves.done_eq (h : st.Serves Time files P₀ m₀ done)
    (hplaces : ∀ i, (st.servers i).place = .finished) : done = files := by
  funext i
  rcases h.place i with ⟨hlines, -, -, hfinished⟩ | ⟨-, -, hplace⟩
  · rw [hlines, hfinished (hplaces i), List.append_nil]
  · exact absurd ((hplaces i).symm.trans hplace) (by simp)

/-- The steps that the `adjust` threads still need. -/
def Threads.left (st : Threads) : ℕ :=
  10 * st.waiting + match st.holder with
    | none => 0
    | some ops => ops.length + 1

omit [DecidableEq ι] in
theorem Server.Does.waiting_le {lines lines' : List Line} {server server' : Server}
    (h : server.Does Time lines server' lines') : server'.threads.waiting ≤ server.threads.waiting + 1 := by
  rcases h with _ | _ | _ | _ | hstep | _
  · exact Nat.le_succ _
  · exact Nat.le_succ _
  · exact Nat.le_succ _
  · exact Nat.le_succ _
  · rcases Threads.step_cases hstep with _ | _ | _ | _ | _ | _
    · exact Nat.le_succ _
    · exact le_rfl
  · exact Nat.le_succ _

omit [DecidableEq ι] in
theorem Server.finished_of_left {server : Server} (h : server.left = 0) : server.serving = .finished := by
  rcases hplace : server.serving with _ | _ | _ | _
  · simp [Server.left, hplace] at h
  · simp [Server.left, hplace] at h
  · simp [Server.left, hplace] at h
  · rfl

/-- **An `adjust` that has begun** gets on. -/
theorem Running.exists_work (env : Env Time) (h : st.Serves Time files P₀ m₀ done)
    (hholder : st.threads.holder ≠ none) :
    ∃ (e : RunAction ι Time) (st' : Running ι), st.step e = some st' ∧
      st'.threads.left < st.threads.left ∧ st'.servers = st.servers := by
  obtain ⟨⟨s, waiting, holder⟩, servers⟩ := st
  obtain ⟨m, hinv, -⟩ := h.last
  dsimp only at hinv hholder ⊢
  rcases holder with _ | ⟨_ | ⟨op, todo⟩⟩
  · exact absurd rfl hholder
  · refine ⟨.unlock, ⟨⟨s, waiting, none⟩, servers⟩, rfl, ?_, rfl⟩
    simp [Threads.left]
  · obtain ⟨s', hrun, -⟩ := hinv.work env rfl
    refine ⟨.work env, ⟨⟨s', waiting, some todo⟩, servers⟩, ?_, ?_, rfl⟩
    · simp only [Running.step, Running.act, Threads.step, hrun, Option.map_some]
    · simp [Threads.left]

variable [Fintype ι]

/-- The steps that are still needed.  A thread that serves a file may start an `adjust` at a step. -/
def Running.left (st : Running ι) : ℕ := 20 * ∑ i, (st.server i).left + st.threads.left

/-- **A thread that has lines left** gets on while `fslock` is free. -/
theorem Running.exists_serve (h : st.Serves Time files P₀ m₀ done) (hholder : st.threads.holder = none)
    {i : ι} (hleft : (st.server i).left ≠ 0) :
    ∃ st', st.step (.serve i : RunAction ι Time) = some st' ∧ st'.threads.holder = none ∧
      st'.left < st.left := by
  obtain ⟨m, hinv, -⟩ := h.last
  obtain ⟨server, served, hserve, hdoes, -⟩ := (h.place i).serve hinv
  have hserver : (st.server i).threads.holder = none := hholder
  obtain ⟨hfree, hlt⟩ := Server.left_lt hserver hleft hserve
  refine ⟨st.put i server, by rw [Running.step, hserve, Option.map_some], hfree, ?_⟩
  have hself : (st.put i server).server i = server := by
    obtain ⟨threads, serving, input, output⟩ := server
    simp [Running.server, Running.put]
  have hother : ∀ j, j ≠ i → ((st.put i server).server j).left = (st.server j).left := fun j hj ↦ by
    simp only [Running.server, Server.left, st.servers_put_of_ne hj]
  have hsum : ∑ j, ((st.put i server).server j).left < ∑ j, (st.server j).left := by
    refine Finset.sum_lt_sum (fun j _ ↦ ?_) ⟨i, Finset.mem_univ i, by rwa [hself]⟩
    by_cases hj : j = i
    · rw [hj, hself]
      exact hlt.le
    · exact (hother j hj).le
  have hadjust : (st.put i server).threads.left ≤ st.threads.left + 10 := by
    have hwaiting : server.threads.waiting ≤ st.threads.waiting + 1 := hdoes.waiting_le
    rw [show (st.put i server).threads = server.threads from rfl, Threads.left, Threads.left, hfree, hholder]
    dsimp only
    omega
  rw [Running.left, Running.left]
  omega

omit [DecidableEq ι] in
/-- A step of an `adjust` leaves the other threads where they are. -/
theorem Running.left_lt_of_threads (hservers : st'.servers = st.servers)
    (hlt : st'.threads.left < st.threads.left) : st'.left < st.left := by
  have hsame : ∀ i, (st'.server i).left = (st.server i).left := fun i ↦ by
    simp only [Running.server, Server.left, hservers]
  rw [Running.left, Running.left]
  simp only [hsame]
  omega

/-- **An `adjust` that waits** gets `fslock` when all that is left are such threads. -/
theorem Running.exists_lock (hholder : st.threads.holder = none) (hserved : ∀ i, (st.server i).left = 0)
    (hleft : st.left ≠ 0) :
    ∃ st', st.step (.lock : RunAction ι Time) = some st' ∧ st'.left < st.left := by
  obtain ⟨⟨s, waiting, holder⟩, servers⟩ := st
  obtain rfl : holder = none := hholder
  have hwaiting : waiting ≠ 0 := by
    rintro rfl
    exact hleft (by simp [Running.left, hserved, Threads.left])
  have hops : adjustOps.length = 7 := rfl
  refine ⟨⟨⟨s, waiting - 1, some adjustOps⟩, servers⟩, ?_, Running.left_lt_of_threads rfl ?_⟩
  · simp [Running.step, Running.act, Threads.step, hwaiting]
  · simp only [Threads.left, hops]
    omega

/-- **Some thread gets on** as long as anything is left. -/
theorem Running.Serves.exists_step_left_lt (env : Env Time) (h : st.Serves Time files P₀ m₀ done)
    (hleft : st.left ≠ 0) :
    ∃ (e : RunAction ι Time) (st' : Running ι), st.step e = some st' ∧ st'.left < st.left := by
  by_cases hholder : st.threads.holder = none
  · by_cases hserved : ∀ i, (st.server i).left = 0
    · obtain ⟨st', hst', hlt⟩ :
          ∃ st', st.step (.lock : RunAction ι Time) = some st' ∧ st'.left < st.left :=
        Running.exists_lock hholder hserved hleft
      exact ⟨.lock, st', hst', hlt⟩
    · obtain ⟨i, hi⟩ := not_forall.mp hserved
      obtain ⟨st', hst', -, hlt⟩ := Running.exists_serve h hholder hi
      exact ⟨.serve i, st', hst', hlt⟩
  · obtain ⟨e, st', hst', hlt, hservers⟩ := Running.exists_work env h hholder
    exact ⟨e, st', hst', Running.left_lt_of_threads hservers hlt⟩

omit [DecidableEq ι] in
theorem Running.ended_of_left (h : st.left = 0) : st.Ended := by
  obtain ⟨hservers, hadjust⟩ := Nat.add_eq_zero_iff.mp h
  refine ⟨fun i ↦ ?_, ?_, ?_⟩
  · have hsum : ∑ i, (st.server i).left = 0 := by omega
    exact Server.finished_of_left (Finset.sum_eq_zero_iff.mp hsum i (Finset.mem_univ i))
  · rcases hholder : st.threads.holder with _ | ops
    · rfl
    · simp [Threads.left, hholder] at hadjust
  · rw [Threads.left] at hadjust
    omega

/-- **No thread is stuck**: from every state some run gets to the end. -/
theorem Running.Serves.exists_end (env : Env Time) (h : st.Serves Time files P₀ m₀ done) :
    ∃ (es : List (RunAction ι Time)) (st' : Running ι), Runs.run Running.step st es = some st' ∧
      st'.Serves Time files P₀ m₀ files ∧ st'.Ended := by
  have hstep : ∀ st : Running ι, (∃ done, st.Serves Time files P₀ m₀ done) → st.left ≠ 0 →
      ∃ (e : RunAction ι Time) (st' : Running ι), st.step e = some st' ∧
        (∃ done, st'.Serves Time files P₀ m₀ done) ∧ st'.left < st.left := by
    rintro st ⟨done, h⟩ hleft
    obtain ⟨e, st', hst', hlt⟩ := h.exists_step_left_lt env hleft
    obtain ⟨st'', hst'', h''⟩ := h.step e
    obtain rfl := Option.some.inj (hst'.symm.trans hst'')
    exact ⟨e, st', hst', h'', hlt⟩
  obtain ⟨es, st', hrun, ⟨done', h'⟩, hzero⟩ := Runs.exists_run_of_measure hstep ⟨done, h⟩
  have hended := Running.ended_of_left hzero
  exact ⟨es, st', hrun, h'.done_eq hended.places ▸ h', hended⟩

end Run

/-! ## What `run` does with a fresh store -/

theorem noted_ne_none {lines : List Line} {k v : Field} (h : .write k v ∈ lines) :
    noted lines k.key ≠ none := by
  obtain ⟨before, after, rfl⟩ := List.append_of_mem h
  rw [noted, List.foldl_append, List.foldl_cons]
  rcases foldl_lineNote after k.key with ⟨w, hw⟩ | hsame
  · rw [hw]
    simp
  · rw [hsame, Line.note, Function.update_self]
    simp

theorem Fresh.only {s : Store} (h : Fresh Time s) : (Threads.mk s 0 none).Only fun _ _ ↦ False := by
  refine ⟨fun k l hl v hv ↦ ?_, fun i k v hv ↦ ?_, fun i k v hv ↦ ?_⟩
  · rw [newest_eq_none_iff.mp (h.newest_eq k) l (List.mem_append_left _ hl)] at hv
    cases hv
  · rw [h.file_eq] at hv
    cases hv
  · exact absurd ((h.file_eq i k).symm.trans hv) (by simp)

variable [DecidableEq ι]

/-- **The end of `run`.**  Whatever the files and however the threads take turns, every step goes through,
from every state the files can be served to their ends, and when they are, and no `adjust` is left,
`dbread` finds for each key the value that one of the files wrote to it last, and nothing for a key that no
file has written. -/
theorem run_files [Fintype ι] {s : Store} (h : Fresh Time s) (files : ι → List Line) (env : Env Time)
    (es : List (RunAction ι Time)) :
    ∃ st, Runs.run Running.step (Running.start s files) es = some st ∧
      (∃ (es' : List (RunAction ι Time)) (st' : Running ι),
        Runs.run Running.step st es' = some st' ∧ st'.Ended) ∧
      (st.Ended → ∀ k, ∃ v c, dbread k st.threads.store = some (v, c) ∧
        ((∃ i, noted (files i) k ≠ none ∧ live isTomb v = live isTomb (noted (files i) k)) ∨
          (∀ i, noted (files i) k = none) ∧ v = none)) := by
  obtain ⟨st, hrun, done, hst⟩ := (Running.serves_start h.inv h.only files).run es
  obtain ⟨es', st', hrun', -, hended⟩ := hst.exists_end env
  refine ⟨st, hrun, ⟨es', st', hrun', hended⟩, fun hend k ↦ ?_⟩
  obtain ⟨m, hinv, hlast⟩ := hst.last
  rw [hst.done_eq hend.places] at hlast
  obtain ⟨v, c, hread, hlive⟩ := hinv.dbread_eq hend.holder k
  refine ⟨v, c, hread, (hlast k).imp (fun ⟨i, hi, hm⟩ ↦ ⟨i, hi, hm ▸ hlive⟩) fun ⟨hnone, _⟩ ↦ ⟨hnone, ?_⟩⟩
  -- a record would be of some file
  rcases v with _ | w
  · rfl
  · obtain hfalse | ⟨i, k', v', hmem, rfl, -⟩ := hst.only.dbread hinv.wf hread
    · exact hfalse.elim
    · rw [hst.done_eq hend.places] at hmem
      exact absurd (hnone i) (noted_ne_none hmem)

/-- **What the threads print.**  Whatever the files and however the threads take turns, even when reads are
overtaken by others and by any number of `adjust` threads: each read of a key prints that there is none, or
the value of a line for that key that some thread has served by then. -/
theorem run_answers {s : Store} (h : Fresh Time s) (files : ι → List Line) (es : List (RunAction ι Time)) :
    ∃ (st : Running ι) (done : ι → List Line), Runs.run Running.step (Running.start s files) es = some st ∧
      (∀ i, (st.server i).At (files i) (done i)) ∧
      ∀ i, List.Forall₂ (fun k chunk ↦ chunk = printed none ∨
          ∃ j k' v, Line.write k' v ∈ done j ∧ k'.key = k ∧ chunk = shown k' v)
        (readKeys (done i)) (st.servers i).output := by
  obtain ⟨st, hrun, done, hst⟩ := (Running.serves_start h.inv h.only files).run es
  refine ⟨st, done, hrun, hst.place, fun i ↦ List.Forall₂.imp ?_ (hst.printed i)⟩
  rintro k chunk ⟨_ | w, rfl, hstored⟩
  · exact .inl rfl
  · obtain hfalse | ⟨j, k', v, hmem, hk, rfl⟩ := hstored w rfl
    · exact hfalse.elim
    · exact .inr ⟨j, k', v, hmem, hk, rfl⟩

/-- A file that writes a key, and one that reads it. -/
def twoFiles (i : Fin 2) : List Line := if i = 0 then [.write someKey someValue] else [.read someKey true]

/-- The key has its value when both files are served. -/
theorem run_files_twoFiles : ∃ (es : List (RunAction (Fin 2) DaySecond)) (st : Running (Fin 2)),
    Runs.run Running.step (Running.start (freshStore (fun _ ↦ (0 : DaySecond)) 9) twoFiles) es = some st ∧
      st.Ended ∧ ∃ c, dbread someKey.key st.threads.store = some (some (cutValue someKey someValue), c) := by
  have hfresh : Fresh DaySecond (freshStore (fun _ ↦ (0 : DaySecond)) 9) := fresh_freshStore _ 9
  obtain ⟨st₀, hrun₀, ⟨es, st, hrun, hended⟩, -⟩ :=
    run_files hfresh twoFiles (someEnv 1) ([] : List (RunAction (Fin 2) DaySecond))
  obtain rfl := Option.some.inj hrun₀
  obtain ⟨st', hrun', -, hread⟩ := run_files hfresh twoFiles (someEnv 1) es
  obtain rfl := Option.some.inj (hrun.symm.trans hrun')
  obtain ⟨v, c, hc, hlast⟩ := hread hended someKey.key
  have hzero : noted (twoFiles 0) someKey.key = some (cutValue someKey someValue) := by
    simp [twoFiles, noted, Line.note]
  have hone : noted (twoFiles 1) someKey.key = none := rfl
  refine ⟨es, st, hrun, hended, c, ?_⟩
  rcases hlast with ⟨i, hi, hlive⟩ | ⟨hnone, -⟩
  · obtain rfl | rfl : i = 0 ∨ i = 1 := by omega
    · rw [hzero, live_of_ne (cutValue_ne_tombstone value_someValue), live_eq_some_iff] at hlive
      rw [hc, hlive.1]
    · exact absurd hone hi
  · exact absurd (hzero.symm.trans (hnone 0)) (by simp)

/-- The file that reads the key gets its first step before the one that writes it. -/
theorem run_answers_twoFiles : ∃ (st : Running (Fin 2)) (done : Fin 2 → List Line),
    Runs.run Running.step (Running.start (freshStore (fun _ ↦ (0 : DaySecond)) 9) twoFiles)
        ([.serve 1, .serve 0] : List (RunAction (Fin 2) DaySecond)) = some st ∧
      (∀ i, (st.server i).At (twoFiles i) (done i)) ∧
      ∀ i, List.Forall₂ (fun k chunk ↦ chunk = printed none ∨
          ∃ j k' v, Line.write k' v ∈ done j ∧ k'.key = k ∧ chunk = shown k' v)
        (readKeys (done i)) (st.servers i).output :=
  run_answers (fresh_freshStore (fun _ ↦ (0 : DaySecond)) 9) twoFiles [.serve 1, .serve 0]

end Master

end ScratchStore
