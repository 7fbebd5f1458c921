import Pagewright.Proofs.RepeatedBuilds

/-!
# Orders on one workshop

Exports are ordered one at a time or all together. What a workshop has built is
kept for the orders that come later, also if an order fails. None of this shows in
what an order gives: it fails with the error, or gives the exports, that it would
give in a new workshop. Files are collected from all pages that were exported on
the way.
-/

namespace Pagewright

open Outcome

variable {plan : Plan} {w : Workshop} {first : Nat} {files : List String}

/-- What can be asked of a workshop: one export, or those of all definitions without parameters. -/
inductive Order where
  | one (name : String)
  | all

def Order.names (plan : Plan) : Order → List String
  | .one name => [name]
  | .all => plan.table.exportNames

def Order.run (plan : Plan) : Order → Building (List Expression)
  | .one name => do return [← instantiate plan name]
  | .all => instantiateAll plan

private theorem Order.run_eq (order : Order) :
    order.run plan = (order.names plan).mapM (instantiate plan) := by
  cases order with
  | one name => simp [Order.run, Order.names]
  | all => rfl

def Workshop.after {α : Type} (w : Workshop) (step : Building α) : Workshop :=
  match step w with
  | .ok _ w' | .error _ w' => w'

private theorem Workshop.after_bind {α β : Type} (w : Workshop) (step : Building α)
    (next : α → Building β) :
    w.after (step >>= next) =
      match step w with
      | .ok a w' => w'.after (next a)
      | .error _ w' => w' := by
  unfold Workshop.after
  show (match EStateM.bind step next w with
    | .ok _ w' => w'
    | .error _ w' => w') = _
  unfold EStateM.bind
  cases step w <;> rfl

/-- The workshop after some orders, of which any may have failed. -/
def Workshop.carryOut (w : Workshop) (plan : Plan) (orders : List Order) : Workshop :=
  orders.foldl (fun w order => w.after (order.run plan)) w

/-- The exports that are made one after the other until one of them fails. -/
def exportsUntilError (plan : Plan) : List String → Workshop → List Expression
  | [], _ => []
  | name :: rest, w =>
    match instantiate plan name w with
    | .ok root w' => root :: exportsUntilError plan rest w'
    | .error _ _ => []

/-- All exports that orders have made, those included that were made before an order failed. -/
def exportsMade (plan : Plan) : List Order → Workshop → List Expression
  | [], _ => []
  | order :: rest, w =>
    exportsUntilError plan (order.names plan) w ++ exportsMade plan rest (w.after (order.run plan))

/-! ### Steps of an order -/

/-- A faithful workshop in which nothing is being built. -/
def Workshop.IsIdle (w : Workshop) (plan : Plan) : Prop :=
  w.Stands plan [] w.files

private theorem Workshop.Stands.isIdle (stands : w.Stands plan [] files) : w.IsIdle plan := by
  unfold Workshop.IsIdle
  rwa [stands.files]

private theorem Workshop.IsIdle.withFiles (idle : w.IsIdle plan) (files : List String) :
    Workshop.IsIdle { w with files } plan :=
  ⟨⟨⟨idle.resolving, idle.checked⟩, idle.finished⟩, idle.building, idle.linked, rfl⟩

private theorem Workshop.isIdle_start {markers : Markers} (done : markers.AllDone plan.table)
    (ids : Supply) : Workshop.IsIdle { ids, markers } plan :=
  ⟨⟨⟨rfl, done⟩, by simp⟩, rfl, Workshop.linked_start ids markers, rfl⟩

private theorem build_parallel (name : String) (files files' : List String) :
    Parallel true SameOutline (BothStand plan [] files files') (build plan name) (build plan name) :=
  buildWithin_parallel plan.allows_nil (by simp)

def BothIdle (plan : Plan) (w v : Workshop) : Prop :=
  w.IsIdle plan ∧ v.IsIdle plan

private theorem instantiate_parallel (name : String) :
    Parallel true SameOutline (BothIdle plan) (instantiate plan name) (instantiate plan name) := by
  rintro w v ⟨first, second⟩
  rw [instantiate_run, instantiate_run]
  cases plan.table.find? name with
  | none => exact .error ⟨first, second⟩
  | some definition =>
    dsimp only
    split_ifs
    · exact .error ⟨first, second⟩
    · have agree := build_parallel name w.files v.files w v ⟨first, second⟩
      generalize build plan name w = result at agree
      generalize build plan name v = result' at agree
      cases agree with
      | ok outlines states =>
        exact .ok (Plan.exported_of_outline outlines)
          ⟨states.1.isIdle.withFiles _, states.2.isIdle.withFiles _⟩
      | error states => exact .error ⟨states.1.isIdle, states.2.isIdle⟩
      | lost free => cases free

private theorem Order.run_parallel (order : Order) :
    Parallel true (List.Forall₂ SameOutline) (BothIdle plan) (order.run plan) (order.run plan) := by
  rw [Order.run_eq]
  have each : ∀ name ∈ order.names plan, ∀ other, name = other → Parallel true SameOutline
      (BothIdle plan) (instantiate plan name) (instantiate plan other) := by
    rintro name - _ rfl
    exact instantiate_parallel name
  exact .mapM (List.forall₂_refl _) each

/-! ### Histories -/

private theorem Workshop.IsIdle.after (idle : w.IsIdle plan) (order : Order) :
    (w.after (order.run plan)).IsIdle plan := by
  have agree := order.run_parallel w w ⟨idle, idle⟩
  unfold Workshop.after
  generalize order.run plan w = result at agree
  cases agree with
  | ok _ states | error states => exact states.1
  | lost free => cases free

private theorem Workshop.IsIdle.carryOut (idle : w.IsIdle plan) (orders : List Order) :
    (w.carryOut plan orders).IsIdle plan := by
  induction orders generalizing w with
  | nil => exact idle
  | cons order rest ih => exact ih (idle.after order)

private theorem Workshop.KeptSince.after (since : w.KeptSince first) (order : Order) :
    (w.after (order.run plan)).KeptSince first := by
  have balances : workshopLedger.Balances 0 (fun _ => 0) (order.run plan) := by
    rw [Order.run_eq]
    exact instantiateEach_balances _
  unfold Workshop.after
  cases run : order.run plan w with
  | ok roots w' => exact since.carries (balances.ok run)
  | error e w' => exact since.carries (balances.error run)

private theorem Workshop.KeptSince.carryOut (since : w.KeptSince first) (orders : List Order) :
    (w.carryOut plan orders).KeptSince first := by
  induction orders generalizing w with
  | nil => exact since
  | cons order rest ih => exact ih (since.after order)

/-! ### Files -/

/-- The export is a page that loads the file, and not every page does. -/
def Plan.LoadsFile (plan : Plan) (file : String) (root : Expression) : Prop :=
  root.kind = "page" ∧ file ∈ root.resources ∧ file ∉ plan.defaultScripts

theorem Plan.mem_withFiles_iff {inst : Expression} {file : String} :
    file ∈ plan.withFiles inst files ↔ file ∈ files ∨ plan.LoadsFile file (plan.exported inst) := by
  rw [Plan.mem_withFiles, or_comm, Plan.LoadsFile, Plan.exported_kind]
  refine or_congr_right (and_congr_right fun isPage => ?_)
  exact Plan.mem_pageFiles isPage

/-- Files are added by an export that succeeds, and by nothing else. -/
theorem mem_files_instantiate (idle : w.IsIdle plan) (name file : String) :
    match instantiate plan name w with
    | .ok root w' => w'.IsIdle plan ∧ (file ∈ w'.files ↔ file ∈ w.files ∨ plan.LoadsFile file root)
    | .error _ w' => w'.IsIdle plan ∧ (file ∈ w'.files ↔ file ∈ w.files) := by
  rw [instantiate_run]
  cases plan.table.find? name with
  | none => exact ⟨idle, Iff.rfl⟩
  | some definition =>
    dsimp only
    split_ifs
    · exact ⟨idle, Iff.rfl⟩
    · have agree := build_parallel name w.files w.files w w ⟨idle, idle⟩
      generalize build plan name w = result at agree
      cases agree with
      | ok _ states =>
        refine ⟨states.1.isIdle.withFiles _, ?_⟩
        rw [← states.1.files]
        exact Plan.mem_withFiles_iff
      | error states => exact ⟨states.1.isIdle, by rw [states.1.files]⟩
      | lost free => cases free

private theorem mem_files_until_error (names : List String) (idle : w.IsIdle plan) (file : String) :
    file ∈ (w.after (names.mapM (instantiate plan))).files ↔
      file ∈ w.files ∨ ∃ root ∈ exportsUntilError plan names w, plan.LoadsFile file root := by
  induction names generalizing w with
  | nil => simp [exportsUntilError, Workshop.after, pure, EStateM.pure]
  | cons name rest ih =>
    have step := mem_files_instantiate idle name file
    rw [List.mapM_cons, exportsUntilError, Workshop.after_bind]
    generalize instantiate plan name w = result at step
    cases result with
    | error e w' => simpa using step.2
    | ok root w' =>
      have later := ih step.1
      have same : w'.after (rest.mapM (instantiate plan) >>= fun roots => pure (root :: roots)) =
          w'.after (rest.mapM (instantiate plan)) := by
        rw [Workshop.after_bind, Workshop.after]
        cases rest.mapM (instantiate plan) w' <;> rfl
      dsimp only
      rw [same, later, step.2, List.exists_mem_cons_iff, or_assoc]

private theorem mem_files_carryOut (idle : w.IsIdle plan) (orders : List Order) (file : String) :
    file ∈ (w.carryOut plan orders).files ↔
      file ∈ w.files ∨ ∃ root ∈ exportsMade plan orders w, plan.LoadsFile file root := by
  induction orders generalizing w with
  | nil => simp [Workshop.carryOut, exportsMade]
  | cons order rest ih =>
    have here := mem_files_until_error (order.names plan) idle file
    rw [← Order.run_eq] at here
    have later := ih (idle.after order)
    simp only [exportsMade, List.mem_append, or_and_right, exists_or, ← or_assoc, ← here]
    exact later

/-! ### Identifiers -/

private theorem Order.names_nodup (distinct : plan.table.names.Nodup) (order : Order) :
    (order.names plan).Nodup := by
  cases order with
  | one name => exact List.nodup_singleton name
  | all => exact distinct.sublist plan.table.exportNames_sublist

private theorem Order.run_neat (checked : plan.Checked) (distinct : plan.table.names.Nodup)
    {order : Order} {w' : Workshop} {roots : List Expression} (idle : w.IsIdle plan)
    (since : w.KeptSince first) (run : order.run plan w = .ok roots w')
    (fits : w'.ids.next ≤ UInt32.size) :
    (∀ root ∈ roots, root.parent = none ∧ root.Throughout Expression.IsNeat) ∧
      blockIds true roots = blockIds false roots ∧ (blockIds false roots).Nodup := by
  rw [Order.run_eq] at run
  obtain ⟨fresh, linked⟩ := instantiateEach_ids (order.names_nodup distinct) idle.linked since run
  have exports := instantiateEach_sound idle.toFaithful run
  have resolved : ∀ root ∈ roots, root.Throughout Expression.IsResolved := by
    intro root member
    obtain ⟨name, -, exported⟩ := exists_of_forall₂_right exports member
    exact (exported.resolved checked).2
  refine ⟨?_, blockIds_of_resolved resolved, Multiset.nodup_of_le fresh (issued_nodup fits)⟩
  intro root member
  obtain ⟨free, below⟩ := linked root member
  exact ⟨free, fun inner inside => ⟨below inner inside, resolved root member inner inside⟩⟩

/-- **Earlier orders do not show.** Where everything has been checked, an order that comes after any
others on one workshop, of which some may have failed, gives what it gives on a new workshop: the same
error, or exports of the same outlines. For tables as they are read, and as long as identifiers have
not come round, one injective change of identifiers turns the ones into the others. The files are those
of the pages that were exported so far. -/
theorem earlier_orders_hidden {plan : Plan} {markers markers' : Markers}
    (done : markers.AllDone plan.table) (done' : markers'.AllDone plan.table) (ids ids' : Supply)
    (orders : List Order) (order : Order) :
    Agree true (List.Forall₂ SameOutline) (fun _ _ => True)
        (order.run plan (Workshop.carryOut { ids, markers } plan orders))
        (order.run plan { ids := ids', markers := markers' }) ∧
      (plan.Checked → plan.table.names.Nodup → ∀ roots w roots' w',
        order.run plan (Workshop.carryOut { ids, markers } plan orders) = .ok roots w →
        order.run plan { ids := ids', markers := markers' } = .ok roots' w' →
        w.ids.next ≤ UInt32.size → w'.ids.next ≤ UInt32.size →
        ∃ change, Set.InjOn change {id | id ∈ blockIds true roots} ∧
          roots.map (Expression.renumber change) = roots') ∧
      ∀ file, file ∈ (Workshop.carryOut { ids, markers } plan orders).files ↔
        ∃ root ∈ exportsMade plan orders { ids, markers }, plan.LoadsFile file root := by
  have start := Workshop.isIdle_start done ids
  have fresh := Workshop.isIdle_start done' ids'
  have used := start.carryOut orders
  have agree := order.run_parallel _ _ ⟨used, fresh⟩
  refine ⟨agree.imp (fun _ _ => id) fun _ _ _ => trivial, ?_, ?_⟩
  · intro checked distinct roots w roots' w' run run' fits fits'
    rw [run, run'] at agree
    obtain ⟨neat, listed, once⟩ := Order.run_neat checked distinct used
      ((Workshop.keptSince_start ids markers).carryOut orders) run fits
    obtain ⟨neat', -, once'⟩ := Order.run_neat checked distinct fresh
      (Workshop.keptSince_start ids' markers') run' fits'
    cases agree with
    | ok outlines _ =>
      rw [listed]
      exact exists_renumbering outlines neat neat' once once'
  · intro file
    rw [mem_files_carryOut start orders file]
    simp

private theorem Plan.workshop_eq (plan : Plan) :
    ({ markers := plan.workshop.markers } : Workshop) = plan.workshop :=
  rfl

/-- A list of rows and a list of itself, once the parameter is bound. -/
def endlessSources : List String :=
  ["p defines: \"row\"",
    "div defines: \"f\", parameters: [t], body: \x7b list id: \"m\", type: \"row\", initial: 1 " ++
      "list id: \"l\", type: t, initial: 1 \x7d",
    "page defines: \"home\", scripts: [\"a\"], body: \x7b list id: \"l\", type: \"row\", initial: 1 \x7d",
    "f defines: \"endless\", t: \"endless\""]

def endlessSession : Session :=
  (Transcript.run {} (endlessSources.map Call.parse)).session

def endlessPlan : Plan :=
  Session.plan endlessSession.config
    (match Table.ofExpressions endlessSession.expressions with
      | .ok table => table
      | .error _ => ⟨{}, Catalog.isIndexed_empty⟩)

/-- The rows are left over from the order that failed, and the page from the one that failed after
it. -/
def usedWorkshop : Workshop :=
  endlessPlan.workshop.carryOut endlessPlan [.one "endless", .all]

theorem earlier_orders_hidden_endless :
    usedWorkshop.finished.map Prod.fst = ["home", "row"] ∧
      (∃ e w w', (Order.one "endless").run endlessPlan usedWorkshop = .error e w ∧
        (Order.one "endless").run endlessPlan endlessPlan.workshop = .error e w') ∧
      ∃ roots w roots' w', (Order.one "home").run endlessPlan usedWorkshop = .ok roots w ∧
        (Order.one "home").run endlessPlan endlessPlan.workshop = .ok roots' w' ∧
        (∃ change, Set.InjOn change {id | id ∈ blockIds true roots} ∧
          roots.map (Expression.renumber change) = roots') ∧
        ∃ root ∈ exportsMade endlessPlan [.one "endless", .all] endlessPlan.workshop,
          endlessPlan.LoadsFile "a" root := by
  have evaluated : (Table.ofExpressions endlessSession.expressions).toBool = true ∧
      usedWorkshop.finished.map Prod.fst = ["home", "row"] ∧
      usedWorkshop.files = ["a"] ∧
      (match checkAll endlessPlan.table endlessPlan.rowLimit {} with
        | .ok _ _ => true
        | .error _ _ => false) = true ∧
      (match (Order.one "endless").run endlessPlan usedWorkshop with
        | .ok _ _ => false
        | .error _ _ => true) = true ∧
      (match (Order.one "home").run endlessPlan usedWorkshop with
        | .ok _ w => decide (w.ids.next ≤ UInt32.size)
        | .error _ _ => false) = true ∧
      (match (Order.one "home").run endlessPlan endlessPlan.workshop with
        | .ok _ w => decide (w.ids.next ≤ UInt32.size)
        | .error _ _ => false) = true := by
    decide +kernel
  obtain ⟨makes, finished, files, validated, fails, given, given'⟩ := evaluated
  obtain ⟨table, ofSession, same⟩ : ∃ table, Table.ofExpressions endlessSession.expressions =
      .ok table ∧ endlessPlan = Session.plan endlessSession.config table := by
    unfold endlessPlan
    cases made : Table.ofExpressions endlessSession.expressions with
    | ok table => exact ⟨table, rfl, rfl⟩
    | error e =>
      rw [made] at makes
      cases makes
  have done : endlessPlan.workshop.markers.AllDone endlessPlan.table :=
    endlessPlan.workshop_atRest.checked
  have distinct : endlessPlan.table.names.Nodup := by
    rw [same]
    exact (Table.ofExpressions_holds ofSession).distinct
  have reachable : endlessSession.Reachable := (Transcript.run_accounted _ _).reachable
  have clear : endlessPlan.table.Clear endlessPlan.rowLimit := by
    split at validated
    · next run => exact (checkAll_sound Markers.fresh_empty run).1
    · cases validated
  have checked : endlessPlan.Checked := by
    rw [same] at clear ⊢
    dsimp only [Session.plan] at clear
    exact reachable.checked ofSession clear
  have hidden := earlier_orders_hidden done done {} {} [.one "endless", .all]
  rw [endlessPlan.workshop_eq] at hidden
  refine ⟨finished, ?_, ?_⟩
  · obtain ⟨agree, -⟩ := hidden (.one "endless")
    unfold usedWorkshop at fails ⊢
    split at fails
    · cases fails
    · next e w run =>
      rw [run] at agree ⊢
      generalize (Order.one "endless").run endlessPlan endlessPlan.workshop = result at agree
      cases agree with
      | @error _ _ w' => exact ⟨e, w, w', rfl, rfl⟩
      | lost free => cases free
  · obtain ⟨-, renumbered, named⟩ := hidden (.one "home")
    have loaded := (named "a").mp (by
      show "a" ∈ usedWorkshop.files
      rw [files]
      exact List.mem_singleton_self _)
    unfold usedWorkshop at given ⊢
    split at given
    · next roots w run =>
      split at given'
      · next roots' w' run' =>
        have change := renumbered checked distinct roots w roots' w' run run'
          (of_decide_eq_true given) (of_decide_eq_true given')
        exact ⟨roots, w, roots', w', run, run', change, loaded⟩
      · cases given'
    · cases given

end Pagewright
