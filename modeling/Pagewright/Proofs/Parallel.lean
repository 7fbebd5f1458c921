import Pagewright.Proofs.Outcome

/-!
# Runs that agree

Two steps run in parallel if from states that belong together they both fail with
the same error, or both succeed with results that belong together, and the states
belong together again in either case. Steps that are put together in the same way
from parallel steps are parallel.

Where only success counts the second run is free as soon as the first one fails.
This is what `strict` is for.
-/

namespace Pagewright.Outcome

variable {ε σ τ α β γ δ : Type} {step : EStateM ε σ α} {other : EStateM ε τ β} {xs : List γ}
  {next : α → EStateM ε σ γ} {e : ε} {next' : β → EStateM ε τ δ} {a : α}

/-- Both runs succeed with results that belong together, or both fail with the same error; unless it
is `strict`, nothing is said of the second run if the first one fails. -/
inductive Agree (strict : Bool) (same : α → β → Prop) (kept : σ → τ → Prop) :
    EStateM.Result ε σ α → EStateM.Result ε τ β → Prop
  | ok {a : α} {b : β} {s : σ} {t : τ} : same a b → kept s t →
      Agree strict same kept (.ok a s) (.ok b t)
  | error {e : ε} {s : σ} {t : τ} : kept s t → Agree strict same kept (.error e s) (.error e t)
  | lost {e : ε} {s : σ} {result : EStateM.Result ε τ β} : strict = false →
      Agree strict same kept (.error e s) result

theorem Agree.imp {strict : Bool} {same same' : α → β → Prop} {kept kept' : σ → τ → Prop}
    {result : EStateM.Result ε σ α} {result' : EStateM.Result ε τ β}
    (agree : Agree strict same kept result result') (results : ∀ a b, same a b → same' a b)
    (states : ∀ s t, kept s t → kept' s t) : Agree strict same' kept' result result' := by
  cases agree with
  | ok values after => exact .ok (results _ _ values) (states _ _ after)
  | error after => exact .error (states _ _ after)
  | lost free => exact .lost free

/-- The steps agree from all states that belong together. -/
def Parallel (strict : Bool) (same : α → β → Prop) (kept : σ → τ → Prop) (step : EStateM ε σ α)
    (other : EStateM ε τ β) : Prop :=
  ∀ s t, kept s t → Agree strict same kept (step s) (other t)

variable {strict : Bool} {same : α → β → Prop} {same' : γ → δ → Prop} {kept : σ → τ → Prop}

/-- If the first of two parallel steps succeeds then so does the other. -/
theorem Parallel.ok (parallel : Parallel strict same kept step other) {s s' : σ} {t : τ}
    (start : kept s t) (run : step s = .ok a s') :
    ∃ b t', other t = .ok b t' ∧ same a b ∧ kept s' t' := by
  have agree := parallel s t start
  rw [run] at agree
  generalize other t = result at agree
  cases agree with
  | ok results states => exact ⟨_, _, rfl, results, states⟩

/-- Steps of which the second succeeds whenever the first one does. -/
theorem Parallel.of_ok
    (follows : ∀ s t a s', kept s t → step s = .ok a s' →
      ∃ b t', other t = .ok b t' ∧ same a b ∧ kept s' t') :
    Parallel false same kept step other := by
  intro s t start
  cases run : step s with
  | ok a s' =>
    obtain ⟨b, t', ran, results, states⟩ := follows s t a s' start run
    rw [ran]
    exact .ok results states
  | error e s' => exact .lost rfl

theorem Parallel.relax (parallel : Parallel true same kept step other) :
    Parallel strict same kept step other := by
  intro s t start
  have agree := parallel s t start
  generalize step s = result at agree ⊢
  generalize other t = result' at agree ⊢
  cases agree with
  | ok results states => exact .ok results states
  | error states => exact .error states
  | lost free => cases free

theorem Parallel.pure {b : β} (results : same a b) :
    Parallel strict same kept (pure a : EStateM ε σ α) (pure b) :=
  fun _ _ start => .ok results start

theorem Parallel.throw :
    Parallel strict same kept (throw e : EStateM ε σ α) (throw e : EStateM ε τ β) :=
  fun _ _ start => .error start

theorem Parallel.throw_bind :
    Parallel strict same' kept ((MonadExcept.throw e : EStateM ε σ α) >>= next)
      ((MonadExcept.throw e : EStateM ε τ β) >>= next') :=
  fun _ _ start => .error start

/-- Runs that agree on a first step and on every continuation agree on the whole. -/
theorem Parallel.bind (first : Parallel strict same kept step other)
    (later : ∀ a b, same a b → Parallel strict same' kept (next a) (next' b)) :
    Parallel strict same' kept (step >>= next) (other >>= next') := by
  intro s t start
  have agree := first s t start
  show Agree _ _ _ (EStateM.bind step next s) (EStateM.bind other next' t)
  unfold EStateM.bind
  generalize step s = result at agree
  generalize other t = result' at agree
  cases agree with
  | ok results states => exact later _ _ results _ _ states
  | error states => exact .error states
  | lost free => exact .lost free

/-- The first steps have one result, with which both go on. -/
theorem Parallel.bind_eq {other : EStateM ε τ α} {next' : α → EStateM ε τ δ}
    (first : Parallel strict Eq kept step other)
    (later : ∀ a, Parallel strict same' kept (next a) (next' a)) :
    Parallel strict same' kept (step >>= next) (other >>= next') := by
  refine first.bind ?_
  rintro a _ rfl
  exact later a

theorem Parallel.map {f : α → γ} {g : β → δ} (parallel : Parallel strict same kept step other)
    (images : ∀ a b, same a b → same' (f a) (g b)) :
    Parallel strict same' kept (f <$> step) (g <$> other) := by
  intro s t start
  have agree := parallel s t start
  show Agree _ _ _ (EStateM.map f step s) (EStateM.map g other t)
  unfold EStateM.map
  generalize step s = result at agree
  generalize other t = result' at agree
  cases agree with
  | ok results states => exact .ok (images _ _ results) states
  | error states => exact .error states
  | lost free => exact .lost free

theorem Parallel.get : Parallel strict kept kept (get : EStateM ε σ σ) (get : EStateM ε τ τ) :=
  fun _ _ start => .ok start start

theorem Parallel.ofExcept {attempt : Except ε α} {other : Except ε β}
    (yes : ∀ a, attempt = .ok a → ∃ b, other = .ok b ∧ same a b)
    (no : ∀ e, attempt = .error e → other = .error e) :
    Parallel strict same kept (ofExcept attempt : EStateM ε σ α)
      (ofExcept other : EStateM ε τ β) := by
  cases attempt with
  | ok a =>
    obtain ⟨b, rfl, results⟩ := yes a rfl
    exact .pure results
  | error e =>
    obtain rfl := no e rfl
    exact .throw

theorem Parallel.modifyGet {f : σ → α × σ} {g : τ → β × τ}
    (results : ∀ s t, kept s t → same (f s).1 (g t).1 ∧ kept (f s).2 (g t).2) :
    Parallel strict same kept (modifyGet f : EStateM ε σ α) (modifyGet g) :=
  fun s t start => .ok (results s t start).1 (results s t start).2

theorem Parallel.adaptExcept {ε' : Type} (parallel : Parallel strict same kept step other)
    (f : ε → ε') : Parallel strict same kept (step.adaptExcept f) (other.adaptExcept f) := by
  intro s t start
  have agree := parallel s t start
  unfold EStateM.adaptExcept
  generalize step s = result at agree
  generalize other t = result' at agree
  cases agree with
  | ok results states => exact .ok results states
  | error states => exact .error states
  | lost free => exact .lost free

/-- Results also remember the runs that they come from. -/
theorem Parallel.remember (parallel : Parallel strict same kept step other) :
    Parallel strict (fun a b => same a b ∧ ∃ s t s' t', kept s t ∧ step s = .ok a s' ∧
      other t = .ok b t') kept step other := by
  intro s t start
  have agree := parallel s t start
  cases run : step s with
  | ok a s' =>
    obtain ⟨b, t', ran, results, states⟩ := parallel.ok start run
    rw [ran]
    exact .ok ⟨results, s, t, s', t', start, run, ran⟩ states
  | error e s' =>
    rw [run] at agree
    generalize other t = result at agree ⊢
    cases agree with
    | error states => exact .error states
    | lost free => exact .lost free

/-- The same walk over two lists that belong together entry by entry. -/
theorem Parallel.mapM {related : γ → δ → Prop} {step : γ → EStateM ε σ α}
    {other : δ → EStateM ε τ β} {ys : List δ} (entries : List.Forall₂ related xs ys)
    (each : ∀ x ∈ xs, ∀ y, related x y → Parallel strict same kept (step x) (other y)) :
    Parallel strict (List.Forall₂ same) kept (xs.mapM step) (ys.mapM other) := by
  induction entries with
  | nil =>
    rw [List.mapM_nil, List.mapM_nil]
    exact .pure .nil
  | cons here rest ih =>
    rw [List.mapM_cons, List.mapM_cons]
    refine (each _ (by simp) _ here).bind fun a b first => ?_
    refine (ih (List.forall_mem_cons.mp each).2).bind fun as bs later => ?_
    exact .pure (.cons first later)

theorem Parallel.mapM_eq {step : γ → EStateM ε σ α} {other : γ → EStateM ε τ α}
    (each : ∀ x ∈ xs, Parallel strict Eq kept (step x) (other x)) :
    Parallel strict Eq kept (xs.mapM step) (xs.mapM other) := by
  have steps : ∀ x ∈ xs, ∀ y, x = y → Parallel strict Eq kept (step x) (other y) := by
    rintro x member _ rfl
    exact each x member
  intro s t start
  refine (Parallel.mapM (List.forall₂_refl xs) steps s t start).imp ?_ fun _ _ => id
  intro as bs same
  rwa [List.forall₂_eq_eq_eq] at same

theorem Parallel.forM {step : γ → EStateM ε σ PUnit} {other : γ → EStateM ε τ PUnit}
    (each : ∀ x ∈ xs, Parallel strict Eq kept (step x) (other x)) :
    Parallel strict Eq kept (xs.forM step) (xs.forM other) := by
  induction xs with
  | nil => exact .pure rfl
  | cons x rest ih =>
    refine (each x (by simp)).bind fun _ _ _ => ?_
    exact ih (List.forall_mem_cons.mp each).2

end Pagewright.Outcome
