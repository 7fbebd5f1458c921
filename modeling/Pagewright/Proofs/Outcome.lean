import Mathlib.Data.List.Forall2

/-!
# Successful steps

Checking and building are steps that may fail and that change a state. A
sequence of steps succeeds exactly when each of its steps does, one after the
other. The lemmas here say this for every way in which steps are put together,
so that a proof can take a successful run apart without opening the monad.
-/

namespace Pagewright.Outcome

universe u

variable {ε σ τ α β : Type u} {s s' : σ} {xs : List α} {e : ε} {step : EStateM ε σ α} {ys : List β}
  {b a : α} {next : α → EStateM ε σ β} {attempt result : Except ε α} {f : α → β}
  {invariant : σ → Prop}

/-! ### Steps with a state -/

theorem bind_ok {b : β} :
    (step >>= next) s = .ok b s' ↔ ∃ a t, step s = .ok a t ∧ next a t = .ok b s' := by
  show EStateM.bind step next s = _ ↔ _
  unfold EStateM.bind
  cases h : step s with
  | ok | error => simp

theorem map_ok {b : β} : (f <$> step) s = .ok b s' ↔ ∃ a, step s = .ok a s' ∧ f a = b := by
  show EStateM.map f step s = _ ↔ _
  unfold EStateM.map
  cases h : step s with
  | ok a t => simp [and_comm]
  | error e t => simp

theorem discard_ok {result : PUnit} :
    (discard step) s = .ok result s' ↔ ∃ a, step s = .ok a s' := by
  show (Function.const _ PUnit.unit <$> step) s = _ ↔ _
  rw [map_ok]
  simp

theorem pure_ok : (pure a : EStateM ε σ α) s = .ok b s' ↔ a = b ∧ s = s' := by
  show EStateM.Result.ok a s = .ok b s' ↔ _
  simp

theorem throw_ok : (throw e : EStateM ε σ α) s = .ok b s' ↔ False := by
  show EStateM.Result.error e s = .ok b s' ↔ _
  simp

theorem get_bind (next : σ → EStateM ε σ β) (s : σ) : (get >>= next) s = next s s :=
  rfl

theorem get_ok {b : σ} : (get : EStateM ε σ σ) s = .ok b s' ↔ s = b ∧ s = s' := by
  show EStateM.Result.ok s s = .ok b s' ↔ _
  simp

theorem modify_ok {f : σ → σ} {b : PUnit} :
    (modify f : EStateM ε σ PUnit) s = .ok b s' ↔ f s = s' := by
  show EStateM.Result.ok PUnit.unit (f s) = .ok b s' ↔ _
  simp

theorem modifyGet_ok {f : σ → α × σ} :
    (modifyGet f : EStateM ε σ α) s = .ok b s' ↔ f s = (b, s') := by
  show EStateM.Result.ok (f s).1 (f s).2 = .ok b s' ↔ _
  simp [Prod.ext_iff]

theorem adaptExcept_ok {ε' : Type u} {f : ε → ε'} :
    (step.adaptExcept f) s = .ok b s' ↔ step s = .ok b s' := by
  unfold EStateM.adaptExcept
  cases h : step s with
  | ok | error => simp

theorem ofExcept_ok : (ofExcept result : EStateM ε σ α) s = .ok b s' ↔ result = .ok b ∧ s = s' := by
  cases result with
  | ok a => simp [ofExcept, pure_ok]
  | error e => simp [ofExcept, throw_ok]

/-! ### Steps that fail -/

theorem bind_error :
    (step >>= next) s = .error e s' ↔
      step s = .error e s' ∨ ∃ a t, step s = .ok a t ∧ next a t = .error e s' := by
  show EStateM.bind step next s = _ ↔ _
  unfold EStateM.bind
  cases h : step s with
  | ok | error => simp

theorem map_error : (f <$> step) s = .error e s' ↔ step s = .error e s' := by
  show EStateM.map f step s = _ ↔ _
  unfold EStateM.map
  cases h : step s with
  | ok | error => simp

theorem pure_error : (pure a : EStateM ε σ α) s = .error e s' ↔ False := by
  show EStateM.Result.ok a s = .error e s' ↔ _
  simp

theorem throw_error {e' : ε} : (throw e : EStateM ε σ α) s = .error e' s' ↔ e = e' ∧ s = s' := by
  show EStateM.Result.error e s = .error e' s' ↔ _
  simp

theorem get_error : (get : EStateM ε σ σ) s = .error e s' ↔ False := by
  show EStateM.Result.ok s s = .error e s' ↔ _
  simp

theorem modify_error {f : σ → σ} : (modify f : EStateM ε σ PUnit) s = .error e s' ↔ False := by
  show EStateM.Result.ok PUnit.unit (f s) = .error e s' ↔ _
  simp

theorem ofExcept_error :
    (ofExcept result : EStateM ε σ α) s = .error e s' ↔ result = .error e ∧ s = s' := by
  cases result with
  | ok a => simp [ofExcept, pure_error]
  | error e => simp [ofExcept, throw_error]

/-! ### The same step over a list -/

/-- `step` takes the values one after the other and gives the results, the state going along. -/
inductive Threads (step : α → EStateM ε σ β) : List α → σ → List β → σ → Prop
  | nil (s : σ) : Threads step [] s [] s
  | cons {x : α} {y : β} {xs : List α} {ys : List β} {s t u : σ} :
      step x s = .ok y t → Threads step xs t ys u → Threads step (x :: xs) s (y :: ys) u

/-- A loop succeeds when its steps do, each from the state the one before it left. -/
theorem mapM_ok {step : α → EStateM ε σ β} :
    xs.mapM step s = .ok ys s' ↔ Threads step xs s ys s' := by
  induction xs generalizing ys s with
  | nil =>
    rw [List.mapM_nil, pure_ok]
    constructor
    · rintro ⟨rfl, rfl⟩
      exact .nil s
    · intro threads
      cases threads
      exact ⟨rfl, rfl⟩
  | cons x xs ih =>
    simp only [List.mapM_cons, bind_ok, pure_ok]
    constructor
    · rintro ⟨y, t, first, zs, u, rest, rfl, rfl⟩
      exact .cons first (ih.mp rest)
    · intro threads
      cases threads with
      | cons first rest => exact ⟨_, _, first, _, _, ih.mpr rest, rfl, rfl⟩

/-- Steps that each change nothing change nothing together. -/
theorem Threads.refl {step : α → EStateM ε σ α} (each : ∀ x ∈ xs, step x s = .ok x s) :
    Threads step xs s xs s := by
  induction xs with
  | nil => exact .nil s
  | cons x xs ih =>
    exact .cons (each x List.mem_cons_self) (ih fun y later => each y (List.mem_cons_of_mem x later))

/-- What every step keeps is kept by all of them, and what every step establishes between value and
result holds throughout. -/
theorem Threads.forall₂ {step : α → EStateM ε σ β} {related : α → β → Prop}
    (threads : Threads step xs s ys s') (invariant : σ → Prop) (initially : invariant s)
    (each : ∀ x ∈ xs, ∀ s y t, invariant s → step x s = .ok y t → invariant t ∧ related x y) :
    invariant s' ∧ List.Forall₂ related xs ys := by
  induction threads with
  | nil s => exact ⟨initially, .nil⟩
  | @cons x y xs ys s t u first rest ih =>
    obtain ⟨kept, here⟩ := each x (by simp) s y t initially first
    obtain ⟨afterwards, later⟩ := ih kept (List.forall_mem_cons.mp each).2
    exact ⟨afterwards, .cons here later⟩

/-- What every step establishes from some depth on holds throughout from some depth on. -/
theorem Threads.eventually {step : α → EStateM ε σ β} (threads : Threads step xs s ys s')
    (related : Nat → α → β → Prop) (initially : invariant s)
    (deeper : ∀ x y depth more, depth ≤ more → related depth x y → related more x y)
    (each : ∀ x ∈ xs, ∀ s y t, invariant s → step x s = .ok y t →
      invariant t ∧ ∃ depth, related depth x y) :
    invariant s' ∧ ∃ depth, List.Forall₂ (related depth) xs ys := by
  induction threads with
  | nil s => exact ⟨initially, 0, .nil⟩
  | @cons x y xs ys s t u first rest ih =>
    obtain ⟨kept, depth, here⟩ := each x (by simp) s y t initially first
    obtain ⟨afterwards, more, later⟩ :=
      ih kept (List.forall_mem_cons.mp each).2
    refine ⟨afterwards, max depth more, .cons ?_ ?_⟩
    · exact deeper _ _ _ _ (Nat.le_max_left _ _) here
    · exact later.imp fun x y => deeper x y _ _ (Nat.le_max_right _ _)

theorem Threads.keeps {step : α → EStateM ε σ β} (threads : Threads step xs s ys s')
    (initially : invariant s)
    (each : ∀ x ∈ xs, ∀ s y t, invariant s → step x s = .ok y t → invariant t) : invariant s' := by
  induction threads with
  | nil s => exact initially
  | @cons x y xs ys s t u first rest ih =>
    exact ih (each x (by simp) s y t initially first)
      (List.forall_mem_cons.mp each).2

/-- Every result comes from one of the values. -/
theorem Threads.exists_of_mem {step : α → EStateM ε σ β} (threads : Threads step xs s ys s')
    {y : β} (member : y ∈ ys) : ∃ x ∈ xs, ∃ t u, step x t = .ok y u := by
  induction threads with
  | nil s => simp at member
  | @cons x z xs ys s t u first rest ih =>
    rcases List.mem_cons.mp member with rfl | inRest
    · exact ⟨x, by simp, s, t, first⟩
    · obtain ⟨x', among, found⟩ := ih inRest
      exact ⟨x', List.mem_cons_of_mem _ among, found⟩

/-- Every value has been taken by a step. -/
theorem Threads.step_of_mem {step : α → EStateM ε σ β} (threads : Threads step xs s ys s') {x : α}
    (member : x ∈ xs) : ∃ y t u, step x t = .ok y u := by
  induction threads with
  | nil s => simp at member
  | @cons z y xs ys s t u first rest ih =>
    rcases List.mem_cons.mp member with rfl | inRest
    · exact ⟨y, s, t, first⟩
    · exact ih inRest

/-- If every step returns its value then so do all of them. -/
theorem Threads.eq_of_each {step : α → EStateM ε σ α} {ys : List α}
    (threads : Threads step xs s ys s')
    (each : ∀ x ∈ xs, ∀ y ∈ ys, ∀ s t, step x s = .ok y t → y = x) : ys = xs := by
  induction threads with
  | nil s => rfl
  | @cons x y xs ys s t u first rest ih =>
    rw [each x List.mem_cons_self y List.mem_cons_self s t first]
    rw [ih fun x member y among => each x (List.mem_cons_of_mem _ member) y
      (List.mem_cons_of_mem _ among)]

/-- A view that no step changes is the same of all values and of all results. -/
theorem Threads.map_eq {γ : Type u} {step : α → EStateM ε σ β} {before : α → γ} {after : β → γ}
    (threads : Threads step xs s ys s')
    (each : ∀ x s y t, step x s = .ok y t → after y = before x) : ys.map after = xs.map before := by
  induction threads with
  | nil s => rfl
  | cons first rest ih => simp [each _ _ _ _ first, ih]

inductive Runs (step : α → EStateM ε σ PUnit) : List α → σ → σ → Prop
  | nil (s : σ) : Runs step [] s s
  | cons {x : α} {xs : List α} {s t u : σ} :
      step x s = .ok ⟨⟩ t → Runs step xs t u → Runs step (x :: xs) s u

theorem forM_ok {step : α → EStateM ε σ PUnit} :
    xs.forM step s = .ok ⟨⟩ s' ↔ Runs step xs s s' := by
  induction xs generalizing s with
  | nil =>
    rw [List.forM, pure_ok]
    constructor
    · rintro ⟨-, rfl⟩
      exact .nil s
    · intro runs
      cases runs
      exact ⟨rfl, rfl⟩
  | cons x xs ih =>
    rw [List.forM, bind_ok]
    constructor
    · rintro ⟨_, t, first, rest⟩
      exact .cons first (ih.mp rest)
    · intro runs
      cases runs with
      | cons first rest => exact ⟨_, _, first, ih.mpr rest⟩

/-- A run fails at one of the values, after it has gone over those before. -/
theorem forM_error {step : α → EStateM ε σ PUnit} (failed : xs.forM step s = .error e s') :
    ∃ before x rest t, xs = before ++ x :: rest ∧ Runs step before s t ∧ step x t = .error e s' := by
  induction xs generalizing s with
  | nil => exact (pure_error.mp failed).elim
  | cons x xs ih =>
    rw [List.forM, bind_error] at failed
    rcases failed with here | ⟨_, t, first, later⟩
    · exact ⟨[], x, xs, s, rfl, .nil s, here⟩
    · obtain ⟨before, y, rest, u, rfl, runs, there⟩ := ih later
      exact ⟨x :: before, y, rest, u, rfl, .cons first runs, there⟩

/-! ### Steps without a state -/

theorem except_bind_ok {next : α → Except ε β} {b : β} :
    (attempt >>= next) = .ok b ↔ ∃ a, attempt = .ok a ∧ next a = .ok b := by
  cases attempt with
  | ok | error => simp [bind, Except.bind]

theorem except_then_ok {attempt : Except ε PUnit} {next : PUnit → Except ε α} :
    (attempt >>= next) = .ok b ↔ attempt = .ok ⟨⟩ ∧ next ⟨⟩ = .ok b := by
  rw [except_bind_ok]
  exact ⟨fun ⟨_, first, rest⟩ => ⟨first, rest⟩, fun ⟨first, rest⟩ => ⟨_, first, rest⟩⟩

theorem except_discard_ok {u : PUnit} : (discard attempt) = .ok u ↔ ∃ a, attempt = .ok a := by
  cases attempt with
  | ok | error => simp [discard, Functor.mapConst, Except.map]

theorem except_pure_ok : (pure a : Except ε α) = .ok b ↔ a = b := by
  simp [pure, Except.pure]

theorem except_mapM_ok {attempt : α → Except ε β} :
    xs.mapM attempt = .ok ys ↔ List.Forall₂ (fun x y => attempt x = .ok y) xs ys := by
  induction xs generalizing ys with
  | nil =>
    rw [List.mapM_nil, except_pure_ok, List.forall₂_nil_left_iff]
    exact eq_comm
  | cons x xs ih =>
    rw [List.mapM_cons, except_bind_ok]
    constructor
    · rintro ⟨y, first, run⟩
      obtain ⟨rest, later, last⟩ := except_bind_ok.mp run
      cases except_pure_ok.mp last
      exact .cons first (ih.mp later)
    · rintro (_ | ⟨first, later⟩)
      exact ⟨_, first, except_bind_ok.mpr ⟨_, ih.mpr later, rfl⟩⟩

theorem except_mapM_isOk {attempt : α → Except ε β} :
    (∃ ys, xs.mapM attempt = .ok ys) ↔ ∀ x ∈ xs, ∃ y, attempt x = .ok y := by
  induction xs with
  | nil => simp [pure, Except.pure]
  | cons x xs ih =>
    rw [List.forall_mem_cons, ← ih]
    simp only [except_mapM_ok, List.forall₂_cons_left_iff]
    constructor
    · rintro ⟨_, y, ys, first, later, -⟩
      exact ⟨⟨y, first⟩, ys, later⟩
    · rintro ⟨⟨y, first⟩, ys, later⟩
      exact ⟨y :: ys, y, ys, first, later, rfl⟩

end Pagewright.Outcome
