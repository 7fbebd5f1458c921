import Pagewright.Proofs.Outcome
import Pagewright.Shape.Check

/-!
# Errors of checks

An internal error says that a step met something that the steps before it should
have ruled out. Every other error is an ordinary one: it is about the program
that is analysed. Here the steps of walks and checks are followed one by one. All
errors they raise themselves are ordinary.
-/

namespace Pagewright

open Outcome

variable {condition : Prop} {name : String} {table : Table}

/-- Below all names of definitions, the error is an internal one. -/
def Error.isInternal : Error → Bool
  | .definition _ source => source.isInternal
  | .internal _ => true
  | _ => false

theorem Error.isInternal_eq_false {error : Error} :
    error.isInternal = false ↔ ∀ fault, error.root ≠ .internal fault := by
  induction error with
  | definition symbol source ih => exact ih
  | internal fault => simp [Error.isInternal, Error.root]
  | _ => simp [Error.isInternal, Error.root]

@[simp] theorem Error.isInternal_inDefinition (name : String) (error : Error) :
    (error.inDefinition name).isInternal = error.isInternal := by
  cases error <;> rfl

/-- Whatever the attempt fails with, it is an ordinary error. -/
def OrdinaryCheck {α : Type} (attempt : Except Error α) : Prop :=
  ∀ error, attempt = .error error → error.isInternal = false

def Ordinary {σ α : Type} (step : EStateM Error σ α) : Prop :=
  ∀ s error s', step s = .error error s' → error.isInternal = false

namespace OrdinaryCheck

variable {α β : Type}

theorem ok (a : α) : OrdinaryCheck (.ok a) := nofun

theorem error {error : Error} (ordinary : error.isInternal = false) :
    OrdinaryCheck (.error error : Except Error α) := by
  rintro _ ⟨⟩
  exact ordinary

theorem bind {attempt : Except Error α} {next : α → Except Error β}
    (first : OrdinaryCheck attempt) (later : ∀ a, OrdinaryCheck (next a)) :
    OrdinaryCheck (attempt >>= next) := by
  cases attempt with
  | ok a => exact later a
  | error error =>
    rintro _ ⟨⟩
    exact first error rfl

private theorem map {attempt : Except Error α} (first : OrdinaryCheck attempt) (f : α → β) :
    OrdinaryCheck (attempt.map f) := by
  cases attempt with
  | ok a => exact ok (f a)
  | error error =>
    rintro _ ⟨⟩
    exact first error rfl

private theorem discard {attempt : Except Error α} (first : OrdinaryCheck attempt) :
    OrdinaryCheck (discard attempt) :=
  first.map _

theorem ite [Decidable condition] {yes no : Except Error α} (one : OrdinaryCheck yes)
    (two : OrdinaryCheck no) : OrdinaryCheck (if condition then yes else no) := by
  split
  · exact one
  · exact two

/-- A check that is made under a condition, before the others. -/
theorem guard [Decidable condition] {check : Except Error PUnit} {later : PUnit → Except Error α}
    (first : OrdinaryCheck check) (rest : ∀ u, OrdinaryCheck (later u)) :
    OrdinaryCheck (if condition then check >>= later else later ⟨⟩) :=
  .ite (first.bind rest) (rest ⟨⟩)

end OrdinaryCheck

namespace Ordinary

variable {σ α β : Type}

theorem pure (a : α) : Ordinary (pure a : EStateM Error σ α) := nofun

theorem throw {error : Error} (ordinary : error.isInternal = false) :
    Ordinary (throw error : EStateM Error σ α) := by
  rintro s _ _ ⟨⟩
  exact ordinary

/-- What comes after a step may rely on the step having succeeded. -/
theorem bind {step : EStateM Error σ α} {next : α → EStateM Error σ β} (first : Ordinary step)
    (later : ∀ s a t, step s = .ok a t → Ordinary (next a)) : Ordinary (step >>= next) := by
  intro s error s' run
  change EStateM.bind step next s = _ at run
  unfold EStateM.bind at run
  cases ran : step s with
  | ok a t =>
    rw [ran] at run
    exact later s a t ran t error s' run
  | error other t =>
    rw [ran] at run
    cases run
    exact first s _ _ ran

theorem andThen {step : EStateM Error σ α} {next : α → EStateM Error σ β} (first : Ordinary step)
    (later : ∀ a, Ordinary (next a)) : Ordinary (step >>= next) :=
  first.bind fun _ a _ _ => later a

theorem ofExcept {attempt : Except Error α} (ordinary : OrdinaryCheck attempt) :
    Ordinary (ofExcept attempt : EStateM Error σ α) := by
  cases attempt with
  | ok a => exact pure a
  | error error => exact throw (ordinary error rfl)

theorem get : Ordinary (get : EStateM Error σ σ) := nofun

theorem modify (f : σ → σ) : Ordinary (modify f : EStateM Error σ PUnit) := nofun

theorem modifyGet (f : σ → α × σ) : Ordinary (modifyGet f : EStateM Error σ α) := nofun

private theorem map {step : EStateM Error σ α} (first : Ordinary step) (f : α → β) :
    Ordinary (f <$> step) := by
  intro s error s' run
  change EStateM.map f step s = _ at run
  unfold EStateM.map at run
  cases ran : step s with
  | ok a t =>
    rw [ran] at run
    cases run
  | error other t =>
    rw [ran] at run
    cases run
    exact first s _ _ ran

theorem discard {step : EStateM Error σ α} (first : Ordinary step) : Ordinary (discard step) :=
  first.map _

/-- The name of a definition makes no error an internal one. -/
theorem inDefinition {step : EStateM Error σ α} (first : Ordinary step) (name : String) :
    Ordinary (step.adaptExcept (Error.inDefinition name)) := by
  intro s error s' run
  unfold EStateM.adaptExcept at run
  cases ran : step s with
  | ok a t =>
    rw [ran] at run
    cases run
  | error other t =>
    rw [ran] at run
    cases run
    rw [Error.isInternal_inDefinition]
    exact first s _ _ ran

/-- A step that only fails where another step fails, possibly on a part of its state. -/
theorem of_part {τ : Type} {step : EStateM Error σ α} {whole : EStateM Error τ β}
    (first : Ordinary step)
    (fails : ∀ s error s', whole s = .error error s' → ∃ t t', step t = .error error t') :
    Ordinary whole := by
  intro s error s' run
  obtain ⟨t, t', ran⟩ := fails s error s' run
  exact first t error t' ran

theorem mapM {step : α → EStateM Error σ β} {xs : List α} (each : ∀ x ∈ xs, Ordinary (step x)) :
    Ordinary (xs.mapM step) := by
  induction xs with
  | nil => exact pure []
  | cons x rest ih =>
    rw [List.mapM_cons]
    refine (each x List.mem_cons_self).andThen fun y => ?_
    refine (ih (List.forall_mem_cons.mp each).2).andThen fun ys => ?_
    exact pure (y :: ys)

theorem forM {step : α → EStateM Error σ PUnit} {xs : List α}
    (each : ∀ x ∈ xs, Ordinary (step x)) : Ordinary (xs.forM step) := by
  induction xs with
  | nil => exact pure _
  | cons x rest ih =>
    exact (each x List.mem_cons_self).andThen fun _ =>
      ih (List.forall_mem_cons.mp each).2

theorem ite [Decidable condition] {yes no : EStateM Error σ α} (one : Ordinary yes)
    (two : Ordinary no) : Ordinary (if condition then yes else no) := by
  split
  · exact one
  · exact two

/-- A step that is refused under a condition. -/
theorem guard [Decidable condition] {error : Error} {later : PUnit → EStateM Error σ α}
    (ordinary : error.isInternal = false) (rest : ∀ u, Ordinary (later u)) :
    Ordinary (if condition then MonadExcept.throw error >>= later else later ⟨⟩) :=
  .ite ((throw ordinary).andThen rest) (rest ⟨⟩)

end Ordinary

/-! ### Arguments -/

namespace Subject

variable (subject : Subject) (name : String)

private theorem fail_ordinary {α : Type} (fault : ShapeFault) :
    OrdinaryCheck (subject.fail fault : Except Error α) :=
  .error rfl

private theorem absent_ordinary (required : Bool) : OrdinaryCheck (subject.absent name required) :=
  .ite (subject.fail_ordinary _) (.ok _)

private theorem text_ordinary (required : Bool) : OrdinaryCheck (subject.text name required) := by
  unfold Subject.text
  split
  · exact (subject.absent_ordinary name required).map _
  · exact .ok _
  · exact .ite (.ok _) (subject.fail_ordinary _)

private theorem number_ordinary : OrdinaryCheck (subject.number name) := by
  unfold Subject.number
  split
  · exact .ok _
  · split
    · exact .ok _
    · exact subject.fail_ordinary _
  · exact .ite (.ok _) (subject.fail_ordinary _)

private theorem texts_ordinary : OrdinaryCheck (subject.texts name) := by
  unfold Subject.texts
  split
  · exact .ok _
  · split
    · exact .ok _
    · exact subject.fail_ordinary _
  · exact .ite (.ok _) (subject.fail_ordinary _)

private theorem block_ordinary (required : Bool) : OrdinaryCheck (subject.block name required) := by
  unfold Subject.block
  split
  · exact subject.absent_ordinary name required
  · exact .ok _
  · exact .ite (.ok _) (subject.fail_ordinary _)

private theorem ordered_ordinary (min initial max : Option Nat) :
    OrdinaryCheck (subject.ordered min initial max) := by
  unfold Subject.ordered
  extract_lets last middle
  have closing : ∀ u, OrdinaryCheck (last u) := by
    intro u
    dsimp only [last]
    split
    · exact .ite (subject.fail_ordinary _) (.ok _)
    · exact .ok _
  have going : ∀ u, OrdinaryCheck (middle u) := by
    intro u
    dsimp only [middle]
    split
    · exact .guard (subject.fail_ordinary _) closing
    · exact closing ()
  split
  · exact .guard (subject.fail_ordinary _) going
  · exact going ()

private theorem onlyHas_ordinary (names : List String) : OrdinaryCheck (subject.onlyHas names) := by
  unfold Subject.onlyHas
  split
  · exact .ok _
  · exact subject.fail_ordinary _

end Subject

/-! ### One expression -/

private theorem checkNesting_ordinary (e : Expression) : OrdinaryCheck (checkNesting e) :=
  .ite (.error rfl) (.ok _)

private theorem checkFormals_ordinary (kind : String) (seen : List String) (items : List Argument) :
    OrdinaryCheck (checkFormals kind seen items) := by
  fun_induction checkFormals kind seen items with
  | case1 => exact .ok _
  | case2 => exact .error rfl
  | case3 _ _ _ _ ih => exact ih
  | case4 => exact .error rfl

private theorem checkParameters_ordinary (e : Expression) : OrdinaryCheck (checkParameters e) := by
  unfold checkParameters
  split
  · exact .ok _
  · refine .ite (.error rfl) ?_
    split
    · exact checkFormals_ordinary _ _ _
    · exact .error rfl

private theorem checkPlace_ordinary (e : Expression) (kind : Kind) (context : Context) :
    OrdinaryCheck (checkPlace e kind context) := by
  unfold checkPlace
  split
  · exact .ite (.error rfl) (.ok _)
  · exact .ite (.error rfl) (.ok _)
  · exact .ite (.error rfl) (.ok _)
  · exact .ok _

theorem IdScope.declare_ordinary (ids : IdScope) (fullId : String) :
    OrdinaryCheck (ids.declare fullId) :=
  .ite (.error rfl) (.ok _)

private theorem IdScope.checkTargets_ordinary (ids : IdScope) : OrdinaryCheck ids.checkTargets := by
  refine .ite (.ok _) ?_
  split
  · exact .ok _
  · exact .error rfl

private theorem Table.resolveKind_ordinary (table : Table) (name : String) :
    OrdinaryCheck (table.resolveKind name) := by
  have following : ∀ budget current, OrdinaryCheck (table.followKind name budget current) := by
    intro budget
    induction budget with
    | zero => exact fun _ => .error rfl
    | succ budget ih =>
      intro current
      unfold Table.followKind
      split
      · exact .error rfl
      · split
        · exact .ok _
        · exact ih _
  exact following _ _

section

variable (subject : Subject) (kind : Kind) (context : Context) (ids : IdScope)

private theorem checkId_ordinary : OrdinaryCheck (checkId subject kind context ids) := by
  unfold checkId
  split
  · exact .ite (subject.fail_ordinary _) (.ok _)
  · refine .ite (subject.fail_ordinary _) ?_
    split
    · refine .ite (subject.fail_ordinary _) ?_
      split
      · exact subject.fail_ordinary _
      · exact .ite ((ids.declare_ordinary _).bind fun _ => .ok _) (.ok _)
    · exact .ite (.ok _) (subject.fail_ordinary _)

private theorem checkListId_ordinary : OrdinaryCheck (checkListId subject) := by
  unfold checkListId
  split
  · exact .ite (.ok _) (subject.fail_ordinary _)
  · exact .ok _

private theorem checkRows_ordinary (rowLimit : Nat) :
    OrdinaryCheck (checkRows subject rowLimit) := by
  refine (subject.number_ordinary _).bind fun initial => ?_
  refine (subject.number_ordinary _).bind fun min => ?_
  refine (subject.number_ordinary _).bind fun max => ?_
  refine (subject.ordered_ordinary _ _ _).bind fun _ => ?_
  split
  · exact .ite (subject.fail_ordinary _) (.ok _)
  · exact .ok _

private theorem checkInput_ordinary : OrdinaryCheck (checkInput subject) := by
  refine (subject.text_ordinary _ _).bind fun type => ?_
  split
  · exact .ok _
  · refine .guard (subject.fail_ordinary _) fun _ => .ite ?_ (.ite ?_ (.ite ?_ ?_))
    · refine (subject.number_ordinary _).bind fun min => ?_
      refine (subject.number_ordinary _).bind fun max => ?_
      exact (subject.number_ordinary _).bind fun initial => subject.ordered_ordinary _ _ _
    · refine (subject.text_ordinary _ _).discard.bind fun _ => ?_
      refine (subject.text_ordinary _ _).discard.bind fun _ => ?_
      exact (subject.text_ordinary _ _).discard
    · refine (subject.number_ordinary _).bind fun initial => ?_
      split
      · exact .ite (subject.fail_ordinary _) (.ok _)
      · exact .ok _
    · refine (subject.number_ordinary _).discard.bind fun _ => ?_
      refine (subject.number_ordinary _).discard.bind fun _ => ?_
      exact (subject.text_ordinary _ _).discard

private theorem checkTarget_ordinary : OrdinaryCheck (checkTarget subject context ids) := by
  refine (subject.text_ordinary _ _).bind fun raw => ?_
  split
  · exact .ok _
  · split
    · exact subject.fail_ordinary _
    · exact .ite (.ok _) (.ok _)

end

/-! ### Walks -/

section

variable {σ : Type} {rules : Rules σ} (requests : ∀ name, Ordinary (rules.request name))

include requests

private theorem refer_ordinary (e : Expression) (target : String) :
    Ordinary (refer rules e target) := by
  unfold refer
  split
  · exact .throw rfl
  · refine (requests target).andThen fun _ => ?_
    dsimp only
    split
    · exact .throw rfl
    · exact .pure _

private theorem kindOf_ordinary (e : Expression) : Ordinary (kindOf rules e) := by
  unfold kindOf
  split
  · exact .pure _
  · refine .guard rfl fun _ => .guard rfl fun _ => ?_
    refine (refer_ordinary requests e _).andThen fun filled => ?_
    exact (Ordinary.ofExcept (rules.table.resolveKind_ordinary _)).andThen fun kind => .pure _

private theorem inherited_ordinary (e : Expression) (kind : Kind) :
    Ordinary (inherited rules e kind) := by
  unfold inherited
  split
  · exact .pure _
  · refine (refer_ordinary requests e _).andThen fun filled => ?_
    refine (Ordinary.ofExcept (rules.table.resolveKind_ordinary _)).andThen fun target => ?_
    exact .guard rfl fun _ => .pure _
  · exact .throw rfl

private theorem checkItemType_ordinary (target : String) :
    Ordinary (checkItemType rules target) := by
  unfold checkItemType
  split
  · exact .throw rfl
  · refine (requests target).andThen fun _ => .guard rfl fun _ => ?_
    refine (Ordinary.ofExcept (rules.table.resolveKind_ordinary _)).andThen fun kind => ?_
    exact .ite (.throw rfl) (.pure _)

private theorem checkArguments_ordinary (subject : Subject) (kind : Kind) (context : Context)
    (ids : IdScope) : Ordinary (checkArguments rules subject kind context ids) := by
  unfold checkArguments
  split
  · refine .ofExcept ?_
    refine (subject.text_ordinary _ _).discard.bind fun _ => ?_
    refine (subject.text_ordinary _ _).discard.bind fun _ => ?_
    refine (subject.texts_ordinary _).bind fun _ => (subject.texts_ordinary _).bind fun _ => ?_
    exact (subject.block_ordinary _ _).bind fun _ => .ok _
  iterate 6 exact .ofExcept ((subject.block_ordinary _ _).bind fun _ => .ok _)
  · refine (Ordinary.ofExcept (checkListId_ordinary subject)).andThen fun _ => ?_
    refine (Ordinary.ofExcept (subject.text_ordinary _ _)).andThen fun type => ?_
    have rows : Ordinary (ofExcept (checkRows subject rules.rowLimit) >>= fun _ =>
        pure ids : EStateM Error σ IdScope) :=
      (Ordinary.ofExcept (checkRows_ordinary subject _)).andThen fun _ => .pure _
    split
    · exact (checkItemType_ordinary requests _).andThen fun _ => rows
    · exact rows
  · exact .ofExcept ((subject.block_ordinary _ _).bind fun _ => .ok _)
  · refine .ofExcept ((subject.text_ordinary _ _).discard.bind fun _ => ?_)
    exact (subject.text_ordinary _ _).discard.bind fun _ => .ok _
  · refine .ofExcept ((checkTarget_ordinary subject context ids).bind fun _ => ?_)
    exact (subject.block_ordinary _ _).bind fun _ => .ok _
  · exact .ofExcept ((checkInput_ordinary subject).bind fun _ => .ok _)
  · exact .ofExcept ((subject.text_ordinary _ _).discard.bind fun _ => .ok _)

private theorem enter_ordinary (e : Expression) (context : Context) (ids : IdScope) :
    Ordinary (enter rules e context ids) := by
  refine (Ordinary.ofExcept (checkNesting_ordinary e)).andThen fun _ => ?_
  refine (Ordinary.ofExcept (checkParameters_ordinary e)).andThen fun _ => ?_
  refine (kindOf_ordinary requests e).andThen fun (kind, byKind) => ?_
  refine (inherited_ordinary requests e kind).andThen fun byInherits => ?_
  refine (Ordinary.ofExcept (checkPlace_ordinary e kind context)).andThen fun _ => ?_
  refine (Ordinary.ofExcept (checkId_ordinary _ kind context _)).andThen fun (ids, stem) => ?_
  refine (Ordinary.ofExcept (Subject.texts_ordinary _ _)).andThen fun _ => ?_
  refine (Ordinary.ofExcept (Subject.texts_ordinary _ _)).andThen fun _ => ?_
  exact (checkArguments_ordinary requests _ kind context ids).andThen fun _ => .pure _

end

section

variable {σ : Type} {rules : Rules σ}

mutual

private theorem walk_ordinary (requests : ∀ name, Ordinary (rules.request name)) :
    ∀ (e : Expression) (context : Context) (ids : IdScope), Ordinary (walk rules e context ids)
  | ⟨id, parent, kind, arguments⟩, context, ids => by
    refine (enter_ordinary requests _ context ids).andThen fun entered => ?_
    have closing : ∀ ids, Ordinary (ofExcept entered.close >>= fun _ =>
        pure ids : EStateM Error σ IdScope) := fun ids =>
      (Ordinary.ofExcept (entered.subject.onlyHas_ordinary _)).andThen fun _ => .pure ids
    split
    · exact closing _
    · exact (walkArgument_ordinary requests _ arguments _ _).andThen closing

private theorem walkArgument_ordinary (requests : ∀ name, Ordinary (rules.request name))
    (name : String) :
    ∀ (arguments : Arguments) (context : Context) (ids : IdScope),
      Ordinary (walkArgument rules name arguments context ids)
  | [], _, ids => .pure ids
  | (_, value) :: rest, context, ids =>
    .ite (walkValue_ordinary requests value context ids)
      (walkArgument_ordinary requests name rest context ids)

private theorem walkValue_ordinary (requests : ∀ name, Ordinary (rules.request name)) :
    ∀ (value : Argument) (context : Context) (ids : IdScope),
      Ordinary (walkValue rules value context ids)
  | .block children, context, ids => walkBlock_ordinary requests children context ids
  | .atom _, _, ids | .text _, _, ids | .number _, _, ids | .list _, _, ids => .pure ids

private theorem walkBlock_ordinary (requests : ∀ name, Ordinary (rules.request name)) :
    ∀ (children : List Expression) (context : Context) (ids : IdScope),
      Ordinary (walkBlock rules children context ids)
  | [], _, ids => .pure ids
  | child :: rest, context, ids =>
    .guard rfl fun _ => (walk_ordinary requests child context ids).andThen fun ids =>
      walkBlock_ordinary requests rest context ids

end

private theorem walkDefinition_ordinary (requests : ∀ name, Ordinary (rules.request name))
    (e : Expression) (name : String) : Ordinary (walkDefinition rules e name) := by
  refine .ite ?_ ?_
  · refine (walk_ordinary requests e _ _).andThen fun ids => ?_
    exact (Ordinary.ofExcept ids.checkTargets_ordinary).andThen fun _ => .pure _
  · exact (walk_ordinary requests e _ _).discard.andThen fun _ => .pure _

/-- A walk over a concrete definition keeps its ids. -/
theorem walkDefinition_tracked {e : Expression} (concrete : e.isConcrete = true)
    {result : Option IdScope} {s s' : σ} (run : walkDefinition rules e name s = .ok result s') :
    ∃ ids t, result = some ids ∧
      walk rules e { stem := rootStem e name, concrete := true } {} s = .ok ids t := by
  simp only [walkDefinition, concrete, if_true, bind_ok, pure_ok] at run
  obtain ⟨ids, t, walked, -, -, -, rfl, -⟩ := run
  exact ⟨ids, t, rfl, walked⟩

end

/-! ### Checks of a table -/

private theorem visit_ordinary {next : Definition → EStateM Error Markers Unit}
    (later : ∀ d, Ordinary (next d)) : Ordinary (visit table name next) := by
  unfold visit
  split
  · exact .throw rfl
  · refine Ordinary.get.andThen fun markers => ?_
    split
    · exact .pure _
    · exact .throw rfl
    · exact later _

private theorem process_ordinary {rules : Rules Markers}
    (requests : ∀ name, Ordinary (rules.request name)) (definition : Definition) :
    Ordinary (process rules definition) := by
  intro s error s' run
  unfold process at run
  split at run
  next => cases run
  next ran =>
    cases run
    rw [Error.isInternal_inDefinition]
    exact walkDefinition_ordinary requests _ _ _ _ _ ran

theorem checkWithin_ordinary (table : Table) (rowLimit budget : Nat) (name : String) :
    Ordinary (checkWithin table rowLimit budget name) := by
  induction budget generalizing name with
  | zero => exact visit_ordinary fun _ => .throw rfl
  | succ budget ih => exact visit_ordinary fun definition => process_ordinary ih definition

/-- An instance that is concrete is checked without an internal error: its walk keeps track of its
ids. -/
theorem checkInstance_ordinary {rowLimit : Nat} {inst : Expression}
    (concrete : inst.isConcrete = true) : Ordinary (checkInstance table rowLimit inst name) := by
  unfold checkInstance
  simp only [concrete, Bool.not_true, Bool.false_eq_true, if_false]
  have requests : ∀ name, Ordinary ((tableRules table rowLimit).request name) :=
    checkWithin_ordinary table rowLimit _
  refine ((walkDefinition_ordinary requests inst name).inDefinition name).bind
    fun s result t ran => ?_
  obtain ⟨ids, -, rfl, -⟩ := walkDefinition_tracked concrete (adaptExcept_ok.mp ran)
  exact .pure ids

end Pagewright
