import Mathlib.Data.List.Basic

/-!
# Runs of a partial step function

A system is given by its step function `σ → ε → Option σ`: an event carries
every choice the environment makes, and `none` says the event is not enabled.
`run` executes a list of events, `Meets` says that every step of a run meets a
condition in the state it is taken from, and `run_invariant` is the induction
every safety proof over runs goes through.
-/

namespace Tributary.Lib

variable {σ ε : Type*}

/-- Execute the events in order; `none` as soon as one is not enabled. -/
def run (step : σ → ε → Option σ) : σ → List ε → Option σ
  | s, [] => some s
  | s, e :: es => (step s e).bind fun t => run step t es

attribute [grind =] run

/-- Every step of the run meets `ok`, read in the state before the step. -/
def Meets (step : σ → ε → Option σ) (ok : σ → ε → Prop) : σ → List ε → Prop
  | _, [] => True
  | s, e :: es => ok s e ∧ ∀ t, step s e = some t → Meets step ok t es

instance Meets.decidable (step : σ → ε → Option σ) (ok : σ → ε → Prop) [DecidableRel ok] :
    (s : σ) → (es : List ε) → Decidable (Meets step ok s es)
  | _, [] => isTrue trivial
  | s, e :: es =>
      match h : step s e with
      | none => decidable_of_iff (ok s e) (by simp [Meets, h])
      | some t =>
          have := Meets.decidable step ok t es
          decidable_of_iff (ok s e ∧ Meets step ok t es) (by simp [Meets, h])

section

variable {step : σ → ε → Option σ} {ok : σ → ε → Prop}

@[simp] theorem run_nil (s : σ) : run step s [] = some s := rfl

theorem run_cons {s u : σ} {e : ε} {es : List ε} :
    run step s (e :: es) = some u
      ↔ ∃ t, step s e = some t ∧ run step t es = some u := by
  simp [run, Option.bind_eq_some_iff]

/-- A run goes on from where its first part ends. -/
theorem run_append {s u : σ} {es fs : List ε} :
    run step s (es ++ fs) = some u
      ↔ ∃ t, run step s es = some t ∧ run step t fs = some u := by
  induction es generalizing s with
  | nil => simp
  | cons e es ih =>
      rw [List.cons_append, run_cons]
      constructor
      · rintro ⟨v, hv, hrest⟩
        obtain ⟨t, ht, hfs⟩ := ih.mp hrest
        exact ⟨t, run_cons.mpr ⟨v, hv, ht⟩, hfs⟩
      · rintro ⟨t, ht, hfs⟩
        obtain ⟨v, hv, hes⟩ := run_cons.mp ht
        exact ⟨v, hv, ih.mpr ⟨t, hes, hfs⟩⟩

theorem run_concat {s u : σ} {es : List ε} {e : ε} :
    run step s (es ++ [e]) = some u ↔ ∃ t, run step s es = some t ∧ step t e = some u := by
  rw [run_append]
  simp [run]

theorem Meets.append {s t : σ} {es fs : List ε} (h : Meets step ok s (es ++ fs))
    (hr : run step s es = some t) : Meets step ok t fs := by
  induction es generalizing s with
  | nil =>
      cases Option.some.inj hr
      exact h
  | cons e es ih =>
      obtain ⟨u, hu, hrest⟩ := run_cons.mp hr
      exact ih (h.2 u hu) hrest

/-- **The invariant rule**: what the start state has and every step meeting
`ok` keeps holds at the end of every run whose steps all meet `ok`. -/
theorem run_invariant {I : σ → Prop}
    (hstep : ∀ s e t, I s → ok s e → step s e = some t → I t)
    {s t : σ} {es : List ε} (hs : I s) (hok : Meets step ok s es)
    (hr : run step s es = some t) : I t := by
  induction es generalizing s with
  | nil =>
      cases Option.some.inj hr
      exact hs
  | cons e es ih =>
      obtain ⟨u, hu, hrest⟩ := run_cons.mp hr
      exact ih (hstep s e u hs hok.1 hu) (hok.2 u hu) hrest

/-- A property that each step keeps exactly when it meets `ok` holds at the end
exactly when it held at the start and every step met `ok`. -/
theorem run_meets_iff {I Q : σ → Prop}
    (hI : ∀ s e t, I s → step s e = some t → I t)
    (hQ : ∀ s e t, I s → step s e = some t → (Q t ↔ Q s ∧ ok s e))
    {s t : σ} {es : List ε} (hs : I s) (hr : run step s es = some t) :
    Q t ↔ Q s ∧ Meets step ok s es := by
  induction es generalizing s with
  | nil =>
      cases Option.some.inj hr
      simp [Meets]
  | cons e es ih =>
      obtain ⟨u, hu, hrest⟩ := run_cons.mp hr
      rw [ih (hI s e u hs hu) hrest, hQ s e u hs hu]
      simp [Meets, hu, and_assoc]

theorem Meets.mono {ok' : σ → ε → Prop} {s : σ} {es : List ε} (h : Meets step ok s es)
    (hmono : ∀ t e, ok t e → ok' t e) : Meets step ok' s es := by
  induction es generalizing s with
  | nil => exact True.intro
  | cons e es ih => exact ⟨hmono s e h.1, fun t ht => ih (h.2 t ht)⟩

theorem Meets.and {ok' : σ → ε → Prop} {s : σ} {es : List ε} (h : Meets step ok s es)
    (h' : Meets step ok' s es) : Meets step (fun t e => ok t e ∧ ok' t e) s es := by
  induction es generalizing s with
  | nil => exact True.intro
  | cons e es ih => exact ⟨⟨h.1, h'.1⟩, fun t ht => ih (h.2 t ht) (h'.2 t ht)⟩

/-- Events that meet the condition in any state. -/
theorem Meets.of_forall {s : σ} {es : List ε} (h : ∀ e ∈ es, ∀ t, ok t e) :
    Meets step ok s es := by
  induction es generalizing s with
  | nil => exact True.intro
  | cons e es ih =>
      exact ⟨h e (List.mem_cons_self ..) s, fun _ _ => ih fun e he => h e (List.mem_cons_of_mem _ he)⟩

theorem Meets.trivial {s : σ} {es : List ε} :
    Meets step (fun _ _ => True) s es :=
  .of_forall fun _ _ _ => True.intro

/-- The invariant rule with no condition on the steps. -/
theorem run_preserves {I : σ → Prop}
    (hstep : ∀ s e t, I s → step s e = some t → I t)
    {s t : σ} {es : List ε} (hs : I s) (hr : run step s es = some t) : I t :=
  have hok : Meets step (fun _ _ => True) s es := Meets.trivial
  run_invariant (fun s e t hi _ h => hstep s e t hi h) hs hok hr

end

end Tributary.Lib
