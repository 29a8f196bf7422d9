import Mathlib.Data.List.Basic

/-!
# Runs of a partial step function

A step function `σ → ε → Option σ` makes a system that may get stuck: `run` takes a list of events
one after the other.

`run_total` is progress and preservation together: if from a good state every allowed event leads to
a good state, then every run of allowed events goes through and ends in a good state.  What is good may
depend on a value that the events determine by themselves, such as what a specification says should
have happened so far.  `run_invariant` is preservation alone, for systems that may get stuck, and
`exists_run_of_measure` and `reaches_of_measure` are for systems in which something must happen in the
end.

The variants differ in what an event may depend on.

* In `run_total` and `run_invariant` nothing is asked of an event that the step does not ask.
* In `run_total_of_mem` and `run_invariant_of_mem` it is one of the events of the run, which is how a
  property of the whole list, such as that some key is never written, gets to the step.
* In `run_total_along` and `run_invariant_along` it is allowed in the state it happens in.  `Along` says so
  of every event of a run, and by `Along.decidable` a concrete run is checked by evaluating it.

`Reaches` forgets which events it were, and is what a statement is about that asks for some continuation of
a run and not for a particular one.
-/

set_option autoImplicit false

namespace Runs

variable {σ ε γ : Type*} {step : σ → ε → Option σ}

/-- The events one after the other. -/
def run (step : σ → ε → Option σ) (s : σ) (es : List ε) : Option σ := es.foldlM step s

@[simp] theorem run_nil (s : σ) : run step s [] = some s := rfl

@[simp] theorem run_cons (s : σ) (e : ε) (es : List ε) :
    run step s (e :: es) = (step s e).bind fun s' ↦ run step s' es := rfl

theorem run_cons_eq_some {s s' : σ} {e : ε} {es : List ε} :
    run step s (e :: es) = some s' ↔ ∃ s₁, step s e = some s₁ ∧ run step s₁ es = some s' := by
  rw [run_cons, Option.bind_eq_some_iff]

theorem run_append (s : σ) (es es' : List ε) :
    run step s (es ++ es') = (run step s es).bind fun s' ↦ run step s' es' := by
  rw [run, List.foldlM_append]
  rfl

/-- What is true of the state in which a run ends, when it goes through. -/
theorem exists_of_isSome {s : σ} {es : List ε} {p : σ → Prop} (h : (run step s es).isSome = true)
    (hp : ∀ s', run step s es = some s' → p s') : ∃ s', run step s es = some s' ∧ p s' := by
  obtain ⟨s', hs'⟩ := Option.isSome_iff_exists.mp h
  exact ⟨s', hs', hp s' hs'⟩

/-- An event of a list with one more event at its end. -/
theorem concat_eq_append_cons {es pre post : List ε} {e e' : ε} (h : es ++ [e] = pre ++ e' :: post) :
    (es = pre ∧ e = e' ∧ post = []) ∨ ∃ post', post = post' ++ [e] ∧ es = pre ++ e' :: post' := by
  rcases List.eq_nil_or_concat post with rfl | ⟨post', e'', rfl⟩
  · obtain ⟨hpre, he⟩ := List.append_inj' h rfl
    exact Or.inl ⟨hpre, List.singleton_inj.mp he, rfl⟩
  · rw [List.concat_eq_append, ← List.cons_append, ← List.append_assoc] at h
    obtain ⟨hpre, he⟩ := List.append_inj' h rfl
    exact Or.inr ⟨post', by rw [List.concat_eq_append, ← he], hpre⟩

/-- **Progress and preservation.** -/
theorem run_total {good : σ → γ → Prop} {note : γ → ε → γ} {allowed : ε → Prop}
    (hstep : ∀ s m e, good s m → allowed e → ∃ s', step s e = some s' ∧ good s' (note m e))
    {s : σ} {m : γ} (h : good s m) (es : List ε) (hes : ∀ e ∈ es, allowed e) :
    ∃ s', run step s es = some s' ∧ good s' (es.foldl note m) := by
  induction es generalizing s m with
  | nil => exact ⟨s, rfl, h⟩
  | cons e es ih =>
    obtain ⟨s₁, hs₁, h₁⟩ := hstep s m e h (hes e (by simp))
    obtain ⟨s₂, hs₂, h₂⟩ := ih h₁ fun e' he' ↦ hes e' (List.mem_cons_of_mem _ he')
    exact ⟨s₂, by rw [run_cons, hs₁, Option.bind_some, hs₂], h₂⟩

/-- Every event of the run is allowed in the state it happens in. -/
def Along (step : σ → ε → Option σ) (allowed : σ → ε → Prop) : σ → List ε → Prop
  | _, [] => True
  | s, e :: es => allowed s e ∧ ∀ s', step s e = some s' → Along step allowed s' es

/-- Whether the events of a run are allowed is found out by the run. -/
instance Along.decidable (allowed : σ → ε → Prop) [∀ s e, Decidable (allowed s e)] :
    ∀ (s : σ) (es : List ε), Decidable (Along step allowed s es)
  | _, [] => isTrue trivial
  | s, e :: es =>
    have : Decidable (∀ s', step s e = some s' → Along step allowed s' es) :=
      match step s e with
      | none => isTrue fun _ h ↦ nomatch h
      | some s₁ =>
        have := Along.decidable allowed s₁ es
        decidable_of_iff (Along step allowed s₁ es) ⟨fun h _ heq ↦ Option.some.inj heq ▸ h, fun h ↦ h s₁ rfl⟩
    inferInstanceAs (Decidable (_ ∧ _))

theorem Along.mono {allowed allowed' : σ → ε → Prop} {s : σ} {es : List ε} (h : Along step allowed s es)
    (hle : ∀ s e, allowed s e → allowed' s e) : Along step allowed' s es := by
  induction es generalizing s with
  | nil => exact trivial
  | cons e es ih => exact ⟨hle s e h.1, fun s' hs' ↦ ih (h.2 s' hs')⟩

theorem Along.append {allowed : σ → ε → Prop} {s : σ} {es es' : List ε} (h : Along step allowed s es)
    (h' : ∀ s', Along step allowed s' es') : Along step allowed s (es ++ es') := by
  induction es generalizing s with
  | nil => exact h' s
  | cons e es ih => exact ⟨h.1, fun s' hs' ↦ ih (h.2 s' hs')⟩

theorem Along.append_of_run {allowed : σ → ε → Prop} {s s' : σ} {es es' : List ε}
    (h : Along step allowed s es) (hrun : run step s es = some s') (h' : Along step allowed s' es') :
    Along step allowed s (es ++ es') := by
  induction es generalizing s with
  | nil =>
    obtain rfl := Option.some.inj hrun
    exact h'
  | cons e es ih =>
    obtain ⟨s₁, hs₁, hrun⟩ := run_cons_eq_some.mp hrun
    refine ⟨h.1, fun s₂ hs₂ ↦ ?_⟩
    obtain rfl := Option.some.inj (hs₁.symm.trans hs₂)
    exact ih (h.2 s₁ hs₁) hrun

theorem Along.left_of_append {allowed : σ → ε → Prop} {s : σ} {es es' : List ε}
    (h : Along step allowed s (es ++ es')) : Along step allowed s es := by
  induction es generalizing s with
  | nil => exact trivial
  | cons e es ih => exact ⟨h.1, fun s' hs' ↦ ih (h.2 s' hs')⟩

theorem Along.of_append {allowed : σ → ε → Prop} {s s' : σ} {es es' : List ε}
    (h : Along step allowed s (es ++ es')) (hrun : run step s es = some s') :
    Along step allowed s' es' := by
  induction es generalizing s with
  | nil =>
    cases hrun
    exact h
  | cons e es ih =>
    obtain ⟨s₁, hs₁, hrun⟩ := run_cons_eq_some.mp hrun
    exact ih (h.2 s₁ hs₁) hrun

/-- Two conditions that agree on the good states allow the same runs. -/
theorem along_congr {good : σ → Prop} {allowed allowed' : σ → ε → Prop}
    (hiff : ∀ s e, good s → (allowed s e ↔ allowed' s e))
    (hstep : ∀ s e s', good s → allowed' s e → step s e = some s' → good s') {s : σ} (h : good s)
    (es : List ε) : Along step allowed s es ↔ Along step allowed' s es := by
  induction es generalizing s with
  | nil => exact Iff.rfl
  | cons e es ih =>
    rw [Along, Along, hiff s e h]
    exact and_congr_right fun ha ↦ forall₂_congr fun s' hs' ↦ ih (hstep s e s' h ha hs')

/-- **Progress and preservation**, when what is allowed depends on the state. -/
theorem run_total_along {good : σ → Prop} {allowed : σ → ε → Prop} {es : List ε}
    (hstep : ∀ s e, good s → allowed s e → e ∈ es → ∃ s', step s e = some s' ∧ good s')
    {s : σ} (h : good s) (hes : Along step allowed s es) : ∃ s', run step s es = some s' ∧ good s' := by
  induction es generalizing s with
  | nil => exact ⟨s, rfl, h⟩
  | cons e es ih =>
    obtain ⟨s₁, hs₁, h₁⟩ := hstep s e h hes.1 (by simp)
    obtain ⟨s₂, hs₂, h₂⟩ :=
      ih (fun s' e' h' ha he ↦ hstep s' e' h' ha (List.mem_cons_of_mem _ he)) h₁ (hes.2 s₁ hs₁)
    exact ⟨s₂, by rw [run_cons, hs₁, Option.bind_some, hs₂], h₂⟩

/-- **Progress and preservation**, when both depend on more than the state. -/
theorem run_total_note_along {good : σ → γ → Prop} {note : γ → ε → γ} {allowed : σ → ε → Prop}
    (hstep : ∀ s m e, good s m → allowed s e → ∃ s', step s e = some s' ∧ good s' (note m e))
    {s : σ} {m : γ} (h : good s m) {es : List ε} (hes : Along step allowed s es) :
    ∃ s', run step s es = some s' ∧ good s' (es.foldl note m) := by
  induction es generalizing s m with
  | nil => exact ⟨s, rfl, h⟩
  | cons e es ih =>
    obtain ⟨s₁, hs₁, h₁⟩ := hstep s m e h hes.1
    obtain ⟨s₂, hs₂, h₂⟩ := ih h₁ (hes.2 s₁ hs₁)
    exact ⟨s₂, by rw [run_cons, hs₁, Option.bind_some, hs₂], h₂⟩

/-- **Progress and preservation**, by the events of the run. -/
theorem run_total_of_mem {good : σ → Prop} {es : List ε}
    (hstep : ∀ s e, e ∈ es → good s → ∃ s', step s e = some s' ∧ good s') {s : σ} (h : good s) :
    ∃ s', run step s es = some s' ∧ good s' := by
  induction es generalizing s with
  | nil => exact ⟨s, rfl, h⟩
  | cons e es ih =>
    obtain ⟨s₁, hs₁, h₁⟩ := hstep s e (by simp) h
    obtain ⟨s₂, hs₂, h₂⟩ := ih (fun s e' he' ↦ hstep s e' (List.mem_cons_of_mem _ he')) h₁
    exact ⟨s₂, by rw [run_cons, hs₁, Option.bind_some, hs₂], h₂⟩

/-- **Preservation**, when what is allowed depends on the state. -/
theorem run_invariant_along {good : σ → Prop} {allowed : σ → ε → Prop}
    (hstep : ∀ s e s', good s → allowed s e → step s e = some s' → good s') {s s' : σ} (h : good s)
    {es : List ε} (hes : Along step allowed s es) (hrun : run step s es = some s') : good s' := by
  induction es generalizing s with
  | nil =>
    obtain rfl := Option.some.inj hrun
    exact h
  | cons e es ih =>
    obtain ⟨s₁, hs₁, hrun⟩ := run_cons_eq_some.mp hrun
    exact ih (hstep s e s₁ h hes.1 hs₁) (hes.2 s₁ hs₁) hrun

/-- **Preservation**, by the events of the run. -/
theorem run_invariant_of_mem {good : σ → Prop} {es : List ε}
    (hstep : ∀ s e s', e ∈ es → good s → step s e = some s' → good s') {s s' : σ} (h : good s)
    (hrun : run step s es = some s') : good s' := by
  induction es generalizing s with
  | nil =>
    cases hrun
    exact h
  | cons e es ih =>
    obtain ⟨s₁, hs₁, hrun⟩ := run_cons_eq_some.mp hrun
    refine ih (fun s e' s' he' ↦ hstep s e' s' (List.mem_cons_of_mem _ he')) ?_ hrun
    exact hstep s e s₁ (by simp) h hs₁

/-- **Preservation.** -/
theorem run_invariant {good : σ → Prop} (hstep : ∀ s e s', good s → step s e = some s' → good s')
    {s s' : σ} (h : good s) {es : List ε} (hrun : run step s es = some s') : good s' :=
  run_invariant_of_mem (fun s e s' _ ↦ hstep s e s') h hrun

/-- **Progress**: when some event lowers the measure as long as it is not zero, some run ends where it
is. -/
theorem exists_run_of_measure {good : σ → Prop} {μ : σ → ℕ}
    (hstep : ∀ s, good s → μ s ≠ 0 → ∃ e s', step s e = some s' ∧ good s' ∧ μ s' < μ s) {s : σ}
    (h : good s) : ∃ es s', run step s es = some s' ∧ good s' ∧ μ s' = 0 := by
  induction hn : μ s using Nat.strongRecOn generalizing s with
  | ind n ih =>
    by_cases hzero : μ s = 0
    · exact ⟨[], s, rfl, h, hzero⟩
    · obtain ⟨e, s₁, hs₁, h₁, hlt⟩ := hstep s h hzero
      obtain ⟨es, s₂, hrun, h₂, hzero₂⟩ := ih _ (hn ▸ hlt) h₁ rfl
      exact ⟨e :: es, s₂, by rw [run_cons, hs₁, Option.bind_some, hrun], h₂, hzero₂⟩

/-- A run of allowed events from `s` to `s'`. -/
def Reaches (step : σ → ε → Option σ) (allowed : ε → Prop) (s s' : σ) : Prop :=
  ∃ es, (∀ e ∈ es, allowed e) ∧ run step s es = some s'

namespace Reaches

variable {allowed allowed' : ε → Prop} {s s₁ s' : σ}

theorem refl (s : σ) : Reaches step allowed s s := ⟨[], List.forall_mem_nil _, rfl⟩

theorem of_step {e : ε} (he : allowed e) (h : step s e = some s') : Reaches step allowed s s' :=
  ⟨[e], List.forall_mem_singleton.mpr he, by rw [run_cons, h, Option.bind_some, run_nil]⟩

theorem trans (h : Reaches step allowed s s₁) (h' : Reaches step allowed s₁ s') :
    Reaches step allowed s s' := by
  obtain ⟨es, hes, hrun⟩ := h
  obtain ⟨es', hes', hrun'⟩ := h'
  exact ⟨es ++ es', List.forall_mem_append.mpr ⟨hes, hes'⟩, by rw [run_append, hrun, Option.bind_some, hrun']⟩

theorem mono (h : Reaches step allowed s s') (hle : ∀ e, allowed e → allowed' e) :
    Reaches step allowed' s s' := by
  obtain ⟨es, hes, hrun⟩ := h
  exact ⟨es, fun e he ↦ hle e (hes e he), hrun⟩

/-- What every allowed step preserves. -/
theorem invariant {good : σ → Prop} (h : Reaches step allowed s s')
    (hstep : ∀ s e s', allowed e → good s → step s e = some s' → good s') (hs : good s) : good s' := by
  obtain ⟨es, hes, hrun⟩ := h
  exact run_invariant_of_mem (fun s e s' he ↦ hstep s e s' (hes e he)) hs hrun

end Reaches

/-- **Progress** by runs of allowed events, each of which lowers the measure. -/
theorem reaches_of_measure {allowed : ε → Prop} {good : σ → Prop} {μ : σ → ℕ}
    (hstep : ∀ s, good s → μ s ≠ 0 → ∃ s', Reaches step allowed s s' ∧ good s' ∧ μ s' < μ s) {s : σ}
    (h : good s) : ∃ s', Reaches step allowed s s' ∧ good s' ∧ μ s' = 0 := by
  induction hn : μ s using Nat.strongRecOn generalizing s with
  | ind n ih =>
    by_cases hzero : μ s = 0
    · exact ⟨s, .refl s, h, hzero⟩
    · obtain ⟨s₁, hs₁, h₁, hlt⟩ := hstep s h hzero
      obtain ⟨s₂, hs₂, h₂, hzero₂⟩ := ih _ (hn ▸ hlt) h₁ rfl
      exact ⟨s₂, hs₁.trans hs₂, h₂, hzero₂⟩

/-- What a run makes of something that each step changes in a way of its own. -/
theorem run_foldl {f : σ → γ} {note : γ → ε → γ}
    (hstep : ∀ s e s', step s e = some s' → f s' = note (f s) e) {s s' : σ} {es : List ε}
    (hrun : run step s es = some s') : f s' = es.foldl note (f s) := by
  induction es generalizing s with
  | nil =>
    cases hrun
    rfl
  | cons e es ih =>
    obtain ⟨s₁, hs₁, hrun⟩ := run_cons_eq_some.mp hrun
    rw [ih hrun, hstep s e s₁ hs₁, List.foldl_cons]

end Runs
