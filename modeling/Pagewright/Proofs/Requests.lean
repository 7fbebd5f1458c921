import Pagewright.Proofs.Parallel
import Pagewright.Proofs.Traversal
import Pagewright.Proofs.Tree

/-!
# The requests of a walk

A walk uses its state only to make requests, and what it requests does not
depend on the state. So a walk can be run once under rules that only write the
requested names down; under any other rules it succeeds exactly if this recording
does and all the requests do, one after the other.
-/

namespace Pagewright

open Outcome

variable {condition : Prop} {strict : Bool}

/-- Rules that write down what is requested. -/
def recording (table : Table) (rowLimit : Nat) : Rules (List String) :=
  { table, rowLimit, request := fun name => modify fun asked => asked ++ [name] }

/-- Makes the requests that were written down, then ends as it was recorded. -/
def replay {σ α : Type} (request : String → EStateM Error σ Unit) :
    EStateM.Result Error (List String) α → EStateM Error σ α
  | .ok a asked => do asked.forM request; return a
  | .error e asked => do asked.forM request; throw e

/-- What was written down, after what had been written before. -/
def continued {α : Type} (earlier : List String) :
    EStateM.Result Error (List String) α → EStateM.Result Error (List String) α
  | .ok a asked => .ok a (earlier ++ asked)
  | .error e asked => .error e (earlier ++ asked)

private theorem replay_continued {σ α : Type} (request : String → EStateM Error σ Unit)
    (earlier : List String) (result : EStateM.Result Error (List String) α) :
    replay request (continued earlier result) =
      earlier.forM request >>= fun _ => replay request result := by
  cases result <;> simp [replay, continued]

private theorem continued_append {α : Type} (earlier later : List String)
    (result : EStateM.Result Error (List String) α) :
    continued (earlier ++ later) result = continued earlier (continued later result) := by
  cases result <;> simp [continued]

/-- `record` writes down the requests that `step` makes. -/
structure Records {σ α : Type} (request : String → EStateM Error σ Unit)
    (step : EStateM Error σ α) (record : EStateM Error (List String) α) : Prop where
  /-- Nothing depends on what was written down before. -/
  continues : ∀ earlier, record earlier = continued earlier (record [])
  /-- The step does nothing to its state but make these requests. -/
  replays : step = replay request (record [])

namespace Records

variable {σ α β : Type} {request : String → EStateM Error σ Unit}

theorem step_ok {step : EStateM Error σ α} {record : EStateM Error (List String) α}
    (records : Records request step record) {a : α} {s s' : σ} :
    step s = .ok a s' ↔ ∃ asked, record [] = .ok a asked ∧ Runs request asked s s' := by
  rw [records.replays]
  cases record [] with
  | ok b asked =>
    simp only [replay, bind_ok, pure_ok]
    constructor
    · rintro ⟨_, t, requested, rfl, rfl⟩
      exact ⟨asked, rfl, forM_ok.mp requested⟩
    · rintro ⟨_, ⟨⟩, requested⟩
      exact ⟨⟨⟩, s', forM_ok.mpr requested, rfl, rfl⟩
  | error e asked => simp [replay, bind_ok, throw_ok]

private theorem pure (a : α) : Records request (pure a) (pure a) where
  continues earlier := by simp [continued, Pure.pure, EStateM.pure]
  replays := rfl

private theorem throw (e : Error) : Records request (throw e : EStateM Error σ α) (throw e) where
  continues earlier := congrArg (EStateM.Result.error e) (List.append_nil earlier).symm
  replays := rfl

private theorem ofExcept (result : Except Error α) :
    Records request (ofExcept result) (ofExcept result) := by
  cases result with
  | ok a => exact .pure a
  | error e => exact .throw e

private theorem bind {step : EStateM Error σ α} {record : EStateM Error (List String) α}
    {next : α → EStateM Error σ β} {recordNext : α → EStateM Error (List String) β}
    (first : Records request step record)
    (later : ∀ a, Records request (next a) (recordNext a)) :
    Records request (step >>= next) (record >>= recordNext) where
  continues earlier := by
    show EStateM.bind record recordNext earlier = continued _ (EStateM.bind record recordNext [])
    unfold EStateM.bind
    rw [first.continues earlier]
    cases record [] with
    | ok a asked =>
      show recordNext a (earlier ++ asked) = continued earlier (recordNext a asked)
      rw [(later a).continues (earlier ++ asked), continued_append, ← (later a).continues asked]
    | error e asked => rfl
  replays := by
    show _ = replay request (EStateM.bind record recordNext [])
    unfold EStateM.bind
    rw [first.replays]
    cases record [] with
    | ok a asked =>
      dsimp only
      rw [(later a).continues asked, replay_continued, ← (later a).replays]
      simp [replay]
    | error e asked =>
      simp only [replay, bind_assoc]
      rfl

private theorem ite [Decidable condition] {first second : EStateM Error σ α}
    {recordFirst recordSecond : EStateM Error (List String) α}
    (yes : Records request first recordFirst) (no : Records request second recordSecond) :
    Records request (if condition then first else second)
      (if condition then recordFirst else recordSecond) := by
  split
  · exact yes
  · exact no

/-- What follows a check that may fail. -/
theorem check [Decidable condition] {e : Error} {step : EStateM Error σ α}
    {record : EStateM Error (List String) α} (rest : Records request step record) :
    Records request
      (if condition then (MonadExcept.throw e : EStateM Error σ Unit) >>= fun _ => step else step)
      (if condition then
        (MonadExcept.throw e : EStateM Error (List String) Unit) >>= fun _ => record
      else record) :=
  .ite ((Records.throw e).bind fun _ => rest) rest

private theorem discard {step : EStateM Error σ α} {record : EStateM Error (List String) α}
    (records : Records request step record) :
    Records request (discard step) (discard record) := by
  have forget : ∀ {τ : Type} (step : EStateM Error τ α),
      Functor.discard step = step >>= fun _ => Pure.pure ⟨⟩ := by
    intro τ step
    funext s
    show EStateM.map _ step s = EStateM.bind step _ s
    unfold EStateM.map EStateM.bind
    cases step s <;> rfl
  rw [forget, forget]
  exact records.bind fun _ => .pure _

/-- Steps that were recorded alike are parallel if their requests are. -/
theorem parallel {τ : Type} {request' : String → EStateM Error τ Unit} {step : EStateM Error σ α}
    {step' : EStateM Error τ α} {record : EStateM Error (List String) α}
    (records : Records request step record) (records' : Records request' step' record)
    {kept : σ → τ → Prop}
    (requests : ∀ name, Parallel strict Eq kept (request name) (request' name)) :
    Parallel strict Eq kept step step' := by
  rw [records.replays, records'.replays]
  cases record [] with
  | ok a asked => exact (Parallel.forM fun name _ => requests name).bind fun _ _ _ => .pure rfl
  | error e asked => exact (Parallel.forM fun name _ => requests name).bind fun _ _ _ => .throw

end Records

section

variable {σ : Type} (rules : Rules σ)

private theorem request_records (name : String) :
    Records rules.request (rules.request name)
      ((recording rules.table rules.rowLimit).request name) where
  continues earlier := rfl
  replays := by
    show rules.request name = do [name].forM rules.request; Pure.pure ()
    simp

private theorem refer_records (e : Expression) (target : String) :
    Records rules.request (refer rules e target)
      (refer (recording rules.table rules.rowLimit) e target) := by
  unfold refer
  rw [show (recording rules.table rules.rowLimit).table = rules.table from rfl]
  cases rules.table.find? target with
  | none => exact .throw _
  | some definition =>
    refine (request_records rules target).bind fun _ => ?_
    dsimp only
    cases definition.expression.parameters.find? fun parameter => !e.has parameter with
    | none => exact .pure _
    | some parameter => exact .throw _

private theorem kindOf_records (e : Expression) :
    Records rules.request (kindOf rules e) (kindOf (recording rules.table rules.rowLimit) e) := by
  unfold kindOf
  cases Kind.ofName? e.kind with
  | some kind => exact .pure _
  | none =>
    dsimp only
    refine .check (.check ?_)
    refine (refer_records rules e e.kind).bind fun filled => ?_
    exact (Records.ofExcept _).bind fun kind => .pure (kind, filled)

private theorem inherited_records (e : Expression) (kind : Kind) :
    Records rules.request (inherited rules e kind)
      (inherited (recording rules.table rules.rowLimit) e kind) := by
  unfold inherited
  cases e.get? "inherits" with
  | none => exact .pure _
  | some value =>
    cases value with
    | text target =>
      refine (refer_records rules e target).bind fun filled => ?_
      refine (Records.ofExcept _).bind fun targetKind => ?_
      dsimp only
      exact .check (.pure filled)
    | atom | number | block | list => exact .throw _

private theorem checkItemType_records (target : String) :
    Records rules.request (checkItemType rules target)
      (checkItemType (recording rules.table rules.rowLimit) target) := by
  unfold checkItemType
  rw [show (recording rules.table rules.rowLimit).table = rules.table from rfl]
  cases rules.table.find? target with
  | none => exact .throw _
  | some definition =>
    refine (request_records rules target).bind fun _ => ?_
    dsimp only
    refine .check ?_
    refine (Records.ofExcept _).bind fun kind => ?_
    exact .ite (.throw _) (.pure ())

private theorem checkArguments_records (subject : Subject) (kind : Kind) (context : Context)
    (ids : IdScope) :
    Records rules.request (checkArguments rules subject kind context ids)
      (checkArguments (recording rules.table rules.rowLimit) subject kind context ids) := by
  cases kind with
  | list =>
    refine (Records.ofExcept _).bind fun _ => (Records.ofExcept _).bind fun type => ?_
    cases type with
    | none => exact (Records.ofExcept _).bind fun _ => .pure ids
    | some type =>
      refine (checkItemType_records rules type).bind fun _ => ?_
      exact (Records.ofExcept _).bind fun _ => .pure ids
  | page | div | form | select | option | label | input | text | h1 | p | span | button =>
    exact .ofExcept _

private theorem enter_records (e : Expression) (context : Context) (ids : IdScope) :
    Records rules.request (enter rules e context ids)
      (enter (recording rules.table rules.rowLimit) e context ids) := by
  refine (Records.ofExcept _).bind fun _ => (Records.ofExcept _).bind fun _ => ?_
  refine (kindOf_records rules e).bind fun kinded => ?_
  refine (inherited_records rules e kinded.1).bind fun byInherits => ?_
  refine (Records.ofExcept _).bind fun _ => (Records.ofExcept _).bind fun identified => ?_
  refine (Records.ofExcept _).bind fun _ => (Records.ofExcept _).bind fun _ => ?_
  exact (checkArguments_records rules _ _ _ _).bind fun ids => .pure _

private theorem walkBlock_records {children : List Expression}
    (each : ∀ child ∈ children, ∀ context ids, Records rules.request (walk rules child context ids)
      (walk (recording rules.table rules.rowLimit) child context ids))
    (context : Context) (ids : IdScope) :
    Records rules.request (walkBlock rules children context ids)
      (walkBlock (recording rules.table rules.rowLimit) children context ids) := by
  induction children generalizing ids with
  | nil => exact .pure ids
  | cons child rest ih =>
    unfold walkBlock
    dsimp only
    refine .check ((each child (by simp) context ids).bind fun ids => ?_)
    exact ih (List.forall_mem_cons.mp each).2 ids

private theorem walk_records (e : Expression) (context : Context) (ids : IdScope) :
    Records rules.request (walk rules e context ids)
      (walk (recording rules.table rules.rowLimit) e context ids) := by
  induction e using Expression.inductionOn generalizing context ids with
  | step owner ih =>
    have entering := enter_records rules owner context ids
    obtain ⟨id, parent, kind, arguments⟩ := owner
    unfold walk
    refine entering.bind fun entered => ?_
    have closing : ∀ ids : IdScope, Records rules.request (do ofExcept entered.close; return ids)
        (do ofExcept entered.close; return ids) :=
      fun ids => (Records.ofExcept _).bind fun _ => .pure ids
    cases entered.content? with
    | none => exact (Records.pure _).bind closing
    | some name =>
      refine Records.bind ?_ closing
      rw [walkArgument_eq, walkArgument_eq]
      cases found : arguments.lookup name with
      | none => exact .pure _
      | some value =>
        cases value with
        | block children =>
          refine walkBlock_records rules ?_ _ _
          intro child member
          exact ih name child ⟨children, Entries.mem_of_lookup found, member⟩
        | atom | text | number | list => exact .pure _

/-- A walk does nothing to the state but make the requests that are recorded. -/
theorem walkDefinition_records (e : Expression) (name : String) :
    Records rules.request (walkDefinition rules e name)
      (walkDefinition (recording rules.table rules.rowLimit) e name) := by
  unfold walkDefinition
  split
  · refine (walk_records rules e _ _).bind fun ids => ?_
    exact (Records.ofExcept _).bind fun _ => .pure _
  · exact (walk_records rules e _ _).discard.bind fun _ => .pure none

/-- A walk needs of its rules that their requests are parallel. -/
theorem walkDefinition_parallel {τ : Type} {rules : Rules σ} {other : Rules τ}
    (tables : rules.table = other.table) (limits : rules.rowLimit = other.rowLimit)
    {kept : σ → τ → Prop}
    (requests : ∀ name, Parallel strict Eq kept (rules.request name) (other.request name))
    (e : Expression) (name : String) :
    Parallel strict Eq kept (walkDefinition rules e name) (walkDefinition other e name) := by
  have records := walkDefinition_records rules e name
  rw [tables, limits] at records
  exact records.parallel (walkDefinition_records other e name) requests

end

end Pagewright
