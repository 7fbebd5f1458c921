import Pagewright.Proofs.InstanceOrders

/-!
# Instances under guard

`guardedInstantiate` makes exports as `instantiate` does, and raises an alarm if
calls nest deeper than the table allows, if a stack holds a name twice, if an
instance is begun while something is being resolved, or if a reference or a
build leaves other stacks than it found, whether it succeeds or not.

No alarm is ever raised, whatever the table is like (`instantiate_guarded`). So
the budgets never run out, and every instantiation ends with empty stacks.
-/

namespace Pagewright

open Outcome

variable {depth budget : Nat} {name : String}

namespace Building

variable {α : Type}

/-- Raises the alarm unless a test holds at the start. -/
def asserting (alarm : Error) (test : Workshop → Bool) (step : Building α) : Building α :=
  fun w => if test w then step w else .error alarm w

/-- Raises the alarm if a step, whether it succeeds or not, leaves other stacks than it found. -/
def restoring (alarm : Error) (step : Building α) : Building α := fun w =>
  if (w.after step).resolving = w.resolving ∧ (w.after step).building = w.building then step w
  else .error alarm (w.after step)

end Building

open Building

def guardedRefer (alarm : Error) (plan : Plan) : Nat → Refer
  | 0, _, _ => throw alarm
  | depth + 1, target, site => restoring alarm do
    if (← get).resolving.contains target then
      throw (.cycle target)
    whileResolving target <| asserting alarm (fun w => w.resolving.Nodup) <|
      copyDefinition plan (guardedRefer alarm plan depth) target site

def guardedCheck (alarm : Error) (table : Table) (rowLimit : Nat) :
    Nat → String → EStateM Error Markers Unit
  | 0, name => visit table name fun _ => throw alarm
  | depth + 1, name =>
    visit table name
      (process { table, rowLimit, request := guardedCheck alarm table rowLimit depth })

def guardedCheckInstance (alarm : Error) (table : Table) (rowLimit : Nat) (inst : Expression)
    (name : String) : EStateM Error Markers IdScope := do
  if !inst.isConcrete then
    throw (.internal (.unresolvedInstance name))
  let rules := { table, rowLimit, request := guardedCheck alarm table rowLimit table.size }
  let ids ← (walkDefinition rules inst name).adaptExcept (Error.inDefinition name)
  match ids with
  | some ids => return ids
  | none => throw (.internal (.untrackedInstance name))

def guardedAssemble (alarm : Error) (plan : Plan) (build : String → Building Expression)
    (name : String) : Building Expression :=
  asserting alarm (fun w => w.resolving.isEmpty) do
    let (inst, _) ← (guardedRefer alarm plan (plan.table.size + 1) name []).adaptExcept
      (Error.inDefinition name)
    discard <| onMarkers (guardedCheckInstance alarm plan.table plan.rowLimit inst name)
    let inst ← fillLists build inst
    match uniqueIds inst (rootStem inst name) with
    | .ok _ => return inst
    | .error error => throw (error.inDefinition name)

def guardedBuild (alarm : Error) (plan : Plan) : Nat → String → Building Expression
  | 0, _ => throw alarm
  | depth + 1, name => restoring alarm do
    match (← get).finished.lookup name with
    | some inst => return inst
    | none =>
      if (← get).building.contains name then
        throw (.cycle name)
      let inst ← whileBuilding name <| asserting alarm (fun w => w.building.Nodup) <|
        guardedAssemble alarm plan (guardedBuild alarm plan depth) name
      modify fun workshop => { workshop with finished := (name, inst) :: workshop.finished }
      return inst

def guardedInstantiate (alarm : Error) (plan : Plan) (name : String) : Building Expression := do
  match plan.table.find? name with
  | none => throw (.reference (.unknownDefinition name))
  | some definition =>
    if definition.expression.isGeneric then
      throw (.reference (.generic name))
    let inst ← guardedBuild alarm plan (plan.table.size + 1) name
    if inst.kind = "page" then
      modify fun workshop =>
        { workshop with
          files := (plan.pageFiles inst).foldl (fun files file => insertName file files)
            workshop.files }
      return plan.withScripts inst
    else
      return inst

/-! ### Walks -/

/-- Checks go on from the same markers and never go back behind `start`. -/
def SameLead (start : Markers) (s t : Markers) : Prop :=
  s = t ∧ start.Leads s

private theorem SameLead.eq {α : Type} {start : Markers}
    {result result' : EStateM.Result Error Markers α}
    (agree : Agree true Eq (SameLead start) result result') : result = result' := by
  cases agree with
  | ok same states => rw [same, states.1]
  | error states => rw [states.1]
  | lost free => cases free

section

variable {alarm : Error} {table : Table} {rowLimit : Nat} {name : String} {start : Markers}

private theorem visit_parallel {next next' : Definition → EStateM Error Markers Unit}
    (processed : ∀ definition s, table.find? name = some definition → start.Leads s →
      s.get name = .discovered → Agree true Eq (SameLead start) (next definition s)
        (next' definition s)) :
    Parallel true Eq (SameLead start) (visit table name next) (visit table name next') := by
  rintro s _ ⟨rfl, leads⟩
  unfold visit
  cases found : table.find? name with
  | none => exact .error ⟨rfl, leads⟩
  | some definition =>
    dsimp only
    rw [get_bind, get_bind]
    cases marked : s.get name with
    | done => exact .ok rfl ⟨rfl, leads⟩
    | processing => exact .error ⟨rfl, leads⟩
    | discovered => exact processed definition s found leads marked

/-- Where something is left to walk there is room for one more walk. -/
theorem Markers.Leads.idle_pos {s : Markers} {definition : Definition} (leads : start.Leads s)
    (found : table.find? name = some definition) (fresh : s.get name = .discovered) :
    ((s.set name .processing).idle table).length < (start.idle table).length := by
  rw [← leads.idle]
  exact Markers.idle_set (Table.mem_names_of_find? found) (by simp [fresh])

/-- The induction is on the budget; a definition that is walked is idle no longer. -/
theorem guardedCheck_parallel (room : (start.idle table).length ≤ budget)
    (room' : (start.idle table).length ≤ depth) :
    Parallel true Eq (SameLead start) (checkWithin table rowLimit budget name)
      (guardedCheck alarm table rowLimit depth name) := by
  induction budget generalizing depth start name with
  | zero =>
    -- No definition is idle, so neither check can start one.
    have nothing : ∀ next, Parallel true Eq (SameLead start) (checkWithin table rowLimit 0 name)
        (visit table name next) := by
      refine fun next => visit_parallel fun definition s found leads fresh => ?_
      exact absurd (leads.idle_pos found fresh) (by omega)
    cases depth <;> exact nothing _
  | succ budget ih =>
    cases depth with
    | zero =>
      refine visit_parallel fun definition s found leads fresh => ?_
      exact absurd (leads.idle_pos found fresh) (by omega)
    | succ depth =>
      refine visit_parallel fun definition s found leads fresh => ?_
      have less := leads.idle_pos found fresh
      have requests : ∀ other, Parallel true Eq (SameLead (s.set name .processing))
          (checkWithin table rowLimit budget other) (guardedCheck alarm table rowLimit depth other) :=
        fun other => ih (by omega) (by omega)
      let rules : Rules Markers := ⟨table, rowLimit, checkWithin table rowLimit budget⟩
      let guarded : Rules Markers := ⟨table, rowLimit, guardedCheck alarm table rowLimit depth⟩
      have walks : Parallel true Eq (SameLead (s.set name .processing))
          (walkDefinition rules definition.expression name)
          (walkDefinition guarded definition.expression name) :=
        walkDefinition_parallel (by rfl) (by rfl) requests _ _
      have agree := walks _ _ ⟨rfl, .refl _⟩
      show Agree _ _ _ (process rules definition s) (process guarded definition s)
      unfold process
      rw [Table.name_of_find? found]
      generalize walkDefinition rules definition.expression name _ = result at agree
      generalize walkDefinition guarded definition.expression name _ = result' at agree
      cases agree with
      | ok _ states =>
        obtain ⟨rfl, inside⟩ := states
        exact .ok rfl ⟨rfl, leads.trans (inside.around fresh)⟩
      | error states =>
        obtain ⟨rfl, inside⟩ := states
        exact .error ⟨rfl, leads.trans (inside.around fresh)⟩
      | lost free => cases free

end

private theorem guardedCheckInstance_eq (alarm : Error) (table : Table) (rowLimit : Nat) :
    guardedCheckInstance alarm table rowLimit = checkInstance table rowLimit := by
  have checks : guardedCheck alarm table rowLimit table.size = checkSymbol table rowLimit := by
    funext name markers
    have room : (markers.idle table).length ≤ table.size := by
      refine (List.length_filter_le _ _).trans (le_of_eq ?_)
      simp [Catalog.names, Catalog.size]
    exact (SameLead.eq (guardedCheck_parallel room room markers markers ⟨rfl, .refl markers⟩)).symm
  have rules : Rules.mk table rowLimit (guardedCheck alarm table rowLimit table.size) =
      tableRules table rowLimit := congrArg (Rules.mk table rowLimit) checks
  funext inst name
  simp only [guardedCheckInstance, rules]
  rfl

/-! ### References -/

/-- Steps go on from the same workshop, which has these stacks. -/
def Twins (resolving building : List String) (w v : Workshop) : Prop :=
  w = v ∧ w.resolving = resolving ∧ w.building = building

section

variable {α : Type} {alarm : Error} {resolving building : List String} {step other : Building α}

private theorem twins_self (keeps : ∀ w : Workshop, (w.after step).resolving = w.resolving ∧
      (w.after step).building = w.building) :
    Parallel true Eq (Twins resolving building) step step := by
  rintro w _ ⟨rfl, rfl, rfl⟩
  have stays := keeps w
  unfold Workshop.after at stays
  cases run : step w with
  | ok value w' =>
    rw [run] at stays
    exact .ok rfl ⟨rfl, stays⟩
  | error e w' =>
    rw [run] at stays
    exact .error ⟨rfl, stays⟩

/-- Steps that see the same part of two workshops, and not their stacks. -/
theorem within_twins {σ : Type} {enter : Workshop → σ} {leave : Workshop → σ → Workshop}
    (action : EStateM Error σ α)
    (leaves : ∀ w s, (leave w s).resolving = w.resolving ∧ (leave w s).building = w.building) :
    Parallel true Eq (Twins resolving building) (within enter leave action)
      (within enter leave action) := by
  refine twins_self fun w => ?_
  unfold Workshop.after within
  cases action (enter w) with
  | ok value s | error e s => exact leaves w s

private theorem onIds_twins (action : EStateM Error Supply α) :
    Parallel true Eq (Twins resolving building) (onIds action) (onIds action) :=
  within_twins action fun _ _ => ⟨rfl, rfl⟩

private theorem onMarkers_twins (action : EStateM Error Markers α) :
    Parallel true Eq (Twins resolving building) (onMarkers action) (onMarkers action) :=
  within_twins action fun _ _ => ⟨rfl, rfl⟩

private theorem restoring_parallel
    (steps : Parallel true Eq (Twins resolving building) step other) :
    Parallel true Eq (Twins resolving building) step (restoring alarm other) := by
  intro w v start
  have agree := steps w v start
  have stays : (v.after other).resolving = v.resolving ∧ (v.after other).building = v.building := by
    obtain ⟨rfl, rfl, rfl⟩ := start
    unfold Workshop.after
    generalize step w = result at agree
    generalize other w = result' at agree
    cases agree with
    | ok _ states | error states => exact states.1 ▸ states.2
    | lost free => cases free
  unfold restoring
  rwa [if_pos stays]

private theorem asserting_parallel {test : Workshop → Bool}
    (holds : ∀ w, w.resolving = resolving → w.building = building → test w = true)
    (steps : Parallel true Eq (Twins resolving building) step other) :
    Parallel true Eq (Twins resolving building) step (asserting alarm test other) := by
  intro w v start
  have agree := steps w v start
  obtain ⟨rfl, first, second⟩ := start
  unfold asserting
  rwa [if_pos (holds w first second)]

private theorem whileResolving_twins
    (steps : Parallel true Eq (Twins (name :: resolving) building) step other) :
    Parallel true Eq (Twins resolving building) (whileResolving name step)
      (whileResolving name other) := by
  refine within_parallel (fun _ _ _ => steps) ?_ ?_
  · rintro w _ ⟨rfl, rfl, rfl⟩
    exact ⟨rfl, rfl, rfl⟩
  · rintro _ _ s _ - ⟨rfl, pushed, still⟩
    exact ⟨rfl, congrArg List.tail pushed, still⟩

private theorem whileBuilding_twins
    (steps : Parallel true Eq (Twins resolving (name :: building)) step other) :
    Parallel true Eq (Twins resolving building) (whileBuilding name step)
      (whileBuilding name other) := by
  refine within_parallel (fun _ _ _ => steps) ?_ ?_
  · rintro w _ ⟨rfl, rfl, rfl⟩
    exact ⟨rfl, rfl, rfl⟩
  · rintro _ _ s _ - ⟨rfl, still, pushed⟩
    exact ⟨rfl, still, congrArg List.tail pushed⟩

end

section

variable {plan : Plan} {alarm : Error} {resolving building : List String} {refer other : Refer}

private theorem join_twins
    (refers : ∀ target site, Parallel true Eq (Twins resolving building) (refer target site)
      (other target site)) (e : Expression) :
    Parallel true Eq (Twins resolving building) (join refer e) (join other e) := by
  have taken : ∀ target, Parallel true Eq (Twins resolving building)
      (do
        let found ← refer target (Entries.erase e.arguments "inherits")
        return merge { e with arguments := found.2 } found.1)
      (do
        let found ← other target (Entries.erase e.arguments "inherits")
        return merge { e with arguments := found.2 } found.1) := by
    exact fun target => (refers target _).bind_eq fun found => .pure rfl
  unfold join
  cases e.get? "inherits" with
  | none =>
    dsimp only
    split_ifs
    · exact .pure rfl
    · exact taken e.kind
  | some value =>
    cases value with
    | text target => exact taken target
    | atom | number | block | list => exact .throw

private theorem resolve_twins
    (refers : ∀ target site, Parallel true Eq (Twins resolving building) (refer target site)
      (other target site)) (e : Expression) :
    Parallel true Eq (Twins resolving building) (resolve refer e) (resolve other e) := by
  induction e using Expression.inductionOn with
  | step owner ih =>
    have each : Parallel true Eq (Twins resolving building)
        (resolveArguments refer owner.arguments) (resolveArguments other owner.arguments) := by
      rw [resolveArguments_eq, resolveArguments_eq]
      refine .mapM_eq fun entry member => Parallel.bind_eq ?_ fun value => .pure rfl
      obtain ⟨name, value⟩ := entry
      cases value with
      | block children =>
        simp only [resolveArgument, resolveBlock_eq]
        refine Parallel.bind_eq (.mapM_eq fun child inside => ?_) fun children => .pure rfl
        exact ih name child ⟨children, member, inside⟩
      | atom | text | number | list => exact .pure rfl
    obtain ⟨id, parent, kind, arguments⟩ := owner
    simp only [resolve]
    exact each.bind_eq fun arguments => join_twins refers _

private theorem copyDefinition_twins {target : String}
    (refers : target ∈ plan.table.names → ∀ target site, Parallel true Eq
      (Twins resolving building) (refer target site) (other target site)) (site : Arguments) :
    Parallel true Eq (Twins resolving building) (copyDefinition plan refer target site)
      (copyDefinition plan other target site) := by
  unfold copyDefinition
  cases found : plan.table.find? target with
  | none => exact .throw
  | some definition =>
    have resolves := resolve_twins (refers (Table.mem_names_of_find? found))
    have resolved : ∀ (e : Expression) (site : Arguments), Parallel true Eq
        (Twins resolving building) (do return (← resolve refer e, site))
        (do return (← resolve other e, site)) :=
      fun e site => (resolves e).bind_eq fun inst => .pure rfl
    refine (onIds_twins _).bind_eq fun copy => ?_
    dsimp only
    split_ifs
    · refine Parallel.bind_eq (.ofExcept (fun a same => ⟨a, same, rfl⟩) fun e same => same) ?_
      rintro ⟨bindings, site⟩
      exact (onIds_twins _).bind_eq fun body => resolved body site
    · exact resolved copy site

private theorem guardedRefer_parallel (allows : plan.Allows resolving budget)
    (allows' : plan.Allows resolving depth) (target : String) (site : Arguments) :
    Parallel true Eq (Twins resolving building) (referWithin plan budget target site)
      (guardedRefer alarm plan depth target site) := by
  induction budget generalizing resolving depth target site with
  | zero => exact absurd allows.budget_pos (lt_irrefl 0)
  | succ budget ih =>
    cases depth with
    | zero => exact absurd allows'.budget_pos (lt_irrefl 0)
    | succ depth =>
      refine restoring_parallel (Parallel.get.bind ?_)
      rintro w _ ⟨rfl, pushed, -⟩
      rw [pushed]
      split_ifs with again
      · exact .throw_bind
      · have fresh : target ∉ resolving := by simpa using again
        refine whileResolving_twins (asserting_parallel ?_ (copyDefinition_twins ?_ site))
        · intro w stack _
          simpa [stack] using ⟨fresh, allows.distinct⟩
        · exact fun known => ih (allows.push fresh known) (allows'.push fresh known)

end

/-! ### Instances -/

section

variable {plan : Plan} {alarm : Error} {building : List String}
  {build other : String → Building Expression}

private theorem fillLists_twins
    (builds : ∀ type, Parallel true Eq (Twins [] building) (build type) (other type))
    (e : Expression) :
    Parallel true Eq (Twins [] building) (fillLists build e) (fillLists other e) := by
  induction e using Expression.inductionOn with
  | step owner ih =>
    by_cases list : owner.kind = "list"
    · rw [fillLists_list list, fillLists_list list]
      unfold fillList
      cases owner.number? "initial" with
      | none => exact .pure rfl
      | some count =>
        cases owner.text? "type" with
        | none => exact .throw
        | some type =>
          refine (builds type).bind_eq fun item => ?_
          exact (onIds_twins _).bind_eq fun rows => .pure rfl
    · rw [fillLists_other list, fillLists_other list, fillArguments_eq, fillArguments_eq]
      refine Parallel.bind_eq (.mapM_eq fun entry member => ?_) fun arguments => .pure rfl
      refine Parallel.bind_eq ?_ fun value => .pure rfl
      obtain ⟨name, value⟩ := entry
      cases value with
      | block children =>
        simp only [fillArgument, fillBlock_eq]
        refine Parallel.bind_eq (.mapM_eq fun child inside => ?_) fun children => .pure rfl
        exact ih name child ⟨children, member, inside⟩
      | atom | text | number | list => exact .pure rfl

/-- Items are only built for a definition that exists. -/
theorem guardedAssemble_parallel
    (builds : name ∈ plan.table.names →
      ∀ type, Parallel true Eq (Twins [] building) (build type) (other type)) :
    Parallel true Eq (Twins [] building) (assemble plan build name)
      (guardedAssemble alarm plan other name) := by
  refine asserting_parallel (fun w empty _ => by simp [empty]) ?_
  have refers : Parallel true Eq (Twins [] building) (referTo plan name [])
      (guardedRefer alarm plan (plan.table.size + 1) name []) :=
    guardedRefer_parallel plan.allows_nil plan.allows_nil name []
  unfold assemble
  rw [guardedCheckInstance_eq]
  refine (refers.remember.adaptExcept _).bind ?_
  rintro found _ ⟨rfl, _, _, _, _, -, referred, -⟩
  refine Parallel.bind_eq ((onMarkers_twins _).map fun _ _ _ => rfl) fun _ => ?_
  refine (fillLists_twins (builds (referTo_known referred)) found.1).bind_eq fun inst => ?_
  cases uniqueIds inst (rootStem inst name) with
  | ok scope => exact .pure rfl
  | error error => exact .throw

private theorem guardedBuild_parallel (allows : plan.Allows building budget)
    (allows' : plan.Allows building depth) (name : String) :
    Parallel true Eq (Twins [] building) (buildWithin plan budget name)
      (guardedBuild alarm plan depth name) := by
  induction budget generalizing building depth name with
  | zero => exact absurd allows.budget_pos (lt_irrefl 0)
  | succ budget ih =>
    cases depth with
    | zero => exact absurd allows'.budget_pos (lt_irrefl 0)
    | succ depth =>
      simp only [buildWithin]
      refine restoring_parallel (Parallel.get.bind ?_)
      rintro w _ ⟨rfl, -, -⟩
      cases w.finished.lookup name with
      | some inst => exact .pure rfl
      | none =>
        refine Parallel.get.bind ?_
        rintro w _ ⟨rfl, -, pushed⟩
        rw [pushed]
        split_ifs with again
        · exact .throw_bind
        · have fresh : name ∉ building := by simpa using again
          refine Parallel.bind_eq ?_ fun inst => ?_
          · refine whileBuilding_twins (asserting_parallel ?_ (guardedAssemble_parallel ?_))
            · intro w _ stack
              simpa [stack] using ⟨fresh, allows.distinct⟩
            · exact fun known => ih (allows.push fresh known) (allows'.push fresh known)
          · exact (twins_self fun w => ⟨rfl, rfl⟩).bind_eq fun _ => .pure rfl

private theorem guardedInstantiate_parallel (name : String) :
    Parallel true Eq (Twins [] []) (instantiate plan name) (guardedInstantiate alarm plan name) := by
  unfold instantiate guardedInstantiate
  cases plan.table.find? name with
  | none => exact .throw
  | some definition =>
    dsimp only
    split_ifs
    · exact .throw_bind
    · refine (guardedBuild_parallel plan.allows_nil plan.allows_nil name).bind_eq fun inst => ?_
      split_ifs
      · exact (twins_self fun w => ⟨rfl, rfl⟩).bind_eq fun _ => .pure rfl
      · exact .pure rfl

end

/-- **Instantiation ends and restores its stacks.** For every plan and name, in a workshop with empty
stacks that may be in any state otherwise, instantiation under guard is the same step, whatever the
alarm, and the stacks are empty again afterwards. -/
theorem instantiate_guarded (alarm : Error) (plan : Plan) (name : String) {w : Workshop}
    (resolving : w.resolving = []) (building : w.building = []) :
    guardedInstantiate alarm plan name w = instantiate plan name w ∧
      (w.after (instantiate plan name)).resolving = [] ∧
      (w.after (instantiate plan name)).building = [] := by
  have agree : Agree true Eq (Twins [] []) (instantiate plan name w)
      (guardedInstantiate alarm plan name w) :=
    guardedInstantiate_parallel name w w ⟨rfl, resolving, building⟩
  unfold Workshop.after
  generalize instantiate plan name w = result at agree
  generalize guardedInstantiate alarm plan name w = result' at agree
  cases agree with
  | ok same states =>
    obtain ⟨rfl, emptied⟩ := states
    exact ⟨by rw [same], emptied⟩
  | error states =>
    obtain ⟨rfl, emptied⟩ := states
    exact ⟨rfl, emptied⟩
  | lost free => cases free

/-- Two definitions that inherit from each other, and a third that lists itself. -/
def ringPlan : Plan where
  table.definitions := [
    ⟨"a", ⟨0, none, "div", [("defines", .text "a"), ("inherits", .text "b")]⟩⟩,
    ⟨"b", ⟨1, none, "div", [("defines", .text "b"), ("inherits", .text "a")]⟩⟩,
    ⟨"c", ⟨2, none, "div", [("body", .block [⟨3, some 2, "list",
      [("id", .text "l"), ("initial", .number "1"), ("type", .text "c")]⟩]), ("defines", .text "c")]⟩⟩]
  table.places := [("a", 0), ("b", 1), ("c", 2)]
  rowLimit := 10
  defaultScripts := []

def failure? {α : Type} : EStateM.Result Error Workshop α → Option Error
  | .ok _ _ => none
  | .error e _ => some e

/-- Nothing has been checked, so the third cycle is found by the walk of the instance; if everything
is marked as done it is found when the rows are built. -/
theorem instantiate_guarded_ring :
    (Workshop.after {} (instantiate ringPlan "a")).resolving = [] ∧
      ∀ alarm, failure? (guardedInstantiate alarm ringPlan "a" {}) =
          some (.definition "a" (.cycle "a")) ∧
        failure? (guardedInstantiate alarm ringPlan "c" {}) = some (.definition "c" (.cycle "c")) ∧
        failure? (guardedInstantiate alarm ringPlan "c" ringPlan.workshop) = some (.cycle "c") := by
  refine ⟨(instantiate_guarded (.cycle "") ringPlan "a" (w := {}) rfl rfl).2.1, fun alarm => ?_⟩
  rw [(instantiate_guarded alarm ringPlan "a" (w := {}) rfl rfl).1,
    (instantiate_guarded alarm ringPlan "c" (w := {}) rfl rfl).1,
    (instantiate_guarded alarm ringPlan "c" (w := ringPlan.workshop) rfl rfl).1]
  refine ⟨?_, ?_, ?_⟩ <;> decide +kernel

end Pagewright
