import Pagewright.Proofs.Clearance
import Pagewright.Proofs.Filling

/-!
# Instances built on their own

Building remembers what it has built, and it is guarded by stacks and by
markers. None of this shows in an instance: `standalone` builds the instance of
a definition from nothing but the plan, and building within a session gives an
instance of the same outline.
-/

namespace Pagewright

open Outcome

variable {plan other : Plan} {name : String} {inst inst' result e : Expression}
  {depth more rowLimit budget : Nat} {w w' : Workshop} {markers markers' : Markers} {table : Table}
  {build : String → Building Expression} {value : Argument}

/-! ### Checks when everything has been checked -/

/-- When everything has been checked, a request only asks whether the definition exists. -/
theorem checkSymbol_done (done : markers.AllDone table) :
    checkSymbol table rowLimit name markers =
      if table.contains name then .ok () markers
      else .error (.reference (.unknownDefinition name)) markers := by
  have visited : ∀ next, visit table name next markers =
      if table.contains name then .ok () markers
      else .error (.reference (.unknownDefinition name)) markers := by
    intro next
    rw [Table.contains_eq]
    unfold visit
    cases found : table.find? name with
    | none => rfl
    | some definition =>
      have marked := done name (Table.mem_names_of_find? found)
      dsimp only
      rw [get_bind]
      simp only [marked]
      rfl
  unfold checkSymbol
  cases table.size with
  | zero | succ => exact visited _

theorem checkSymbol_done_ok (done : markers.AllDone table) :
    checkSymbol table rowLimit name markers = .ok () markers' ↔
      name ∈ table.names ∧ markers = markers' := by
  rw [checkSymbol_done done, ← Table.contains_iff]
  split_ifs with known <;> simp [known]

private theorem runs_done {asked : List String} (done : markers.AllDone table) :
    Runs (checkSymbol table rowLimit) asked markers markers' ↔
      (∀ name ∈ asked, name ∈ table.names) ∧ markers = markers' := by
  induction asked with
  | nil =>
    constructor
    · intro runs
      cases runs
      simp
    · rintro ⟨-, rfl⟩
      exact .nil _
  | cons name rest ih =>
    constructor
    · intro runs
      cases runs with
      | cons first later =>
        obtain ⟨known, rfl⟩ := (checkSymbol_done_ok done).mp first
        obtain ⟨others, same⟩ := ih.mp later
        exact ⟨List.forall_mem_cons.mpr ⟨known, others⟩, same⟩
    · rintro ⟨known, same⟩
      obtain ⟨here, others⟩ := List.forall_mem_cons.mp known
      exact .cons ((checkSymbol_done_ok done).mpr ⟨here, rfl⟩) (ih.mpr ⟨others, same⟩)

/-- An instance passes its check: it is concrete, its walk gets through, and everything that it
requests is defined. -/
def Plan.Passes (plan : Plan) (inst : Expression) (name : String) : Prop :=
  inst.isConcrete = true ∧ ∃ asked, demands plan.table plan.rowLimit ⟨name, inst⟩ = some asked ∧
    ∀ other ∈ asked, other ∈ plan.table.names

private theorem checkInstance_done (done : markers.AllDone plan.table) :
    (∃ ids, checkInstance plan.table plan.rowLimit inst name markers = .ok ids markers') ↔
      plan.Passes inst name ∧ markers = markers' := by
  have walked : (∃ ids, walkDefinition (tableRules plan.table plan.rowLimit) inst name markers =
      .ok ids markers') ↔ (∃ asked, demands plan.table plan.rowLimit ⟨name, inst⟩ = some asked ∧
        ∀ other ∈ asked, other ∈ plan.table.names) ∧ markers = markers' := by
    refine (walkDefinition_ok_iff (tableRules plan.table plan.rowLimit) ⟨name, inst⟩).trans ?_
    constructor
    · rintro ⟨asked, demanded, requested⟩
      obtain ⟨known, same⟩ := (runs_done done).mp requested
      exact ⟨⟨asked, demanded, known⟩, same⟩
    · rintro ⟨⟨asked, demanded, known⟩, same⟩
      exact ⟨asked, demanded, (runs_done done).mpr ⟨known, same⟩⟩
  unfold checkInstance Plan.Passes
  cases concrete : inst.isConcrete with
  | false =>
    simp only [Bool.not_false, if_true, Bool.false_eq_true, false_and, iff_false]
    rintro ⟨ids, run⟩
    obtain ⟨_, _, thrown, -⟩ := bind_ok.mp run
    exact throw_ok.mp thrown
  | true =>
    simp only [Bool.not_true, Bool.false_eq_true, if_false, true_and, ← walked, bind_ok,
      adaptExcept_ok]
    constructor
    · rintro ⟨ids, found, t, run, last⟩
      cases found with
      | none => exact (throw_ok.mp last).elim
      | some ids =>
        obtain ⟨-, rfl⟩ := pure_ok.mp last
        exact ⟨_, run⟩
    · rintro ⟨result, run⟩
      -- A concrete definition returns its ids.
      have some : ∃ ids, result = some ids := by
        unfold walkDefinition at run
        simp only [concrete, if_true, bind_ok, pure_ok] at run
        obtain ⟨ids, _, -, _, _, -, rfl, -⟩ := run
        exact ⟨ids, rfl⟩
      obtain ⟨ids, rfl⟩ := some
      exact ⟨ids, _, _, run, rfl⟩

theorem onMarkers_ok {α : Type} {action : EStateM Error Markers α} {value : α} :
    Building.onMarkers action w = .ok value w' ↔
      ∃ markers, action w.markers = .ok value markers ∧ { w with markers } = w' :=
  within_ok

/-- Building an instance refers to the definition, checks what that gives, fills its lists and looks
at the ids of the whole. -/
theorem assemble_iff :
    assemble plan build name w = .ok result w' ↔
      ∃ inst rest ids found markers scope, referTo plan name [] w = .ok (inst, rest) { w with ids } ∧
        checkInstance plan.table plan.rowLimit inst name w.markers = .ok found markers ∧
        fillLists build inst { w with ids, markers } = .ok result w' ∧
        uniqueIds result (rootStem result name) = .ok scope := by
  unfold assemble
  simp only [bind_ok, adaptExcept_ok, discard_ok, onMarkers_ok]
  constructor
  · rintro ⟨⟨inst, rest⟩, u, referred, _, v, ⟨found, markers, checked, rfl⟩, filled, x, fills, last⟩
    obtain ⟨ids, rfl⟩ := referWithin_onlyIds referred
    cases unique : uniqueIds filled (rootStem filled name) with
    | error e => simp only [unique, throw_ok] at last
    | ok scope =>
      simp only [unique, pure_ok] at last
      obtain ⟨rfl, rfl⟩ := last
      exact ⟨inst, rest, ids, found, markers, scope, referred, checked, fills, unique⟩
  · rintro ⟨inst, rest, ids, found, markers, scope, referred, checked, fills, unique⟩
    refine ⟨(inst, rest), _, referred, ⟨⟩, _, ⟨found, markers, checked, rfl⟩, result, w', fills, ?_⟩
    simp only [unique, pure_ok, and_self]

/-- Where all definitions have been checked, the check of an instance leaves no trace. -/
theorem assemble_ok (done : w.markers.AllDone plan.table) :
    assemble plan build name w = .ok result w' ↔
      ∃ inst rest ids scope, referTo plan name [] w = .ok (inst, rest) { w with ids } ∧
        plan.Passes inst name ∧ fillLists build inst { w with ids } = .ok result w' ∧
        uniqueIds result (rootStem result name) = .ok scope := by
  rw [assemble_iff]
  constructor
  · rintro ⟨inst, rest, ids, found, markers, scope, referred, checked, fills, unique⟩
    obtain ⟨passes, rfl⟩ := (checkInstance_done done).mp ⟨found, checked⟩
    exact ⟨inst, rest, ids, scope, referred, passes, fills, unique⟩
  · rintro ⟨inst, rest, ids, scope, referred, passes, fills, unique⟩
    obtain ⟨found, checked⟩ := (checkInstance_done done).mpr ⟨passes, rfl⟩
    exact ⟨inst, rest, ids, found, _, scope, referred, checked, fills, unique⟩

/-! ### Instances do not depend on the run -/

private theorem Plan.Alike.names (plans : plan.Alike other) (name : String) :
    name ∈ plan.table.names ↔ name ∈ other.table.names := by
  rw [Table.mem_names_iff, Table.mem_names_iff]
  rcases plans.table.cases name with ⟨first, second⟩ | ⟨_, _, first, second, -⟩ <;>
    simp [first, second]

private theorem Expression.isConcrete_of_outline {first second : Expression}
    (same : first.outline = second.outline) : first.isConcrete = second.isConcrete := by
  simpa [Expression.outline] using congrArg Expression.isConcrete same

theorem Plan.Passes.alike (plans : plan.Alike other) (same : inst.outline = inst'.outline)
    (passes : plan.Passes inst name) : other.Passes inst' name := by
  obtain ⟨concrete, asked, demanded, known⟩ := passes
  have equal : demands plan.table plan.rowLimit ⟨name, inst⟩ =
      demands other.table plan.rowLimit ⟨name, inst'⟩ := plans.table.demands same rfl
  refine ⟨Expression.isConcrete_of_outline same ▸ concrete, asked, ?_, ?_⟩
  · rw [← plans.rowLimit, ← equal, demanded]
  · exact fun next member => (plans.names next).mp (known next member)

/-- Workshops between two instances: nothing is being resolved, and everything has been checked. -/
structure Workshop.AtRest (w : Workshop) (plan : Plan) : Prop where
  resolving : w.resolving = []
  checked : w.markers.AllDone plan.table

/-- Instances of one outline pass or fail their check alike, and the check leaves no trace. -/
theorem checkInstance_parallel (plans : plan.Alike other) (same : inst.outline = inst'.outline)
    (name : String) (done : markers.AllDone plan.table) (done' : markers'.AllDone other.table) :
    Parallel true Eq (fun s t => s = markers ∧ t = markers')
      (checkInstance plan.table plan.rowLimit inst name)
      (checkInstance other.table other.rowLimit inst' name) := by
  have requests : ∀ next, Parallel true Eq (fun s t => s = markers ∧ t = markers')
      (checkSymbol plan.table plan.rowLimit next) (checkSymbol other.table other.rowLimit next) := by
    rintro next _ _ ⟨rfl, rfl⟩
    have known : plan.table.contains next = other.table.contains next := by
      rw [Bool.eq_iff_iff, Table.contains_iff, Table.contains_iff]
      exact plans.names next
    rw [checkSymbol_done done, checkSymbol_done done', known]
    split_ifs
    · exact .ok rfl ⟨rfl, rfl⟩
    · exact .error ⟨rfl, rfl⟩
  have walks : Parallel true Eq (fun s t => s = markers ∧ t = markers')
      (walkDefinition (tableRules plan.table plan.rowLimit) inst name)
      (walkDefinition (tableRules other.table other.rowLimit) inst' name) := by
    -- the rules of the one plan, with the requests of the other
    let between : Rules Markers :=
      ⟨other.table, other.rowLimit, checkSymbol plan.table plan.rowLimit⟩
    have alike : (tableRules plan.table plan.rowLimit).Alike between :=
      ⟨plans.table, plans.rowLimit, rfl⟩
    have swapped : ∀ e, Parallel true Eq (fun s t => s = markers ∧ t = markers')
        (walkDefinition between e name)
        (walkDefinition (tableRules other.table other.rowLimit) e name) :=
      fun e => walkDefinition_parallel (by rfl) (by rfl) requests e name
    rw [walkDefinition_of_outline alike same name]
    exact swapped inst'
  unfold checkInstance
  rw [Expression.isConcrete_of_outline same]
  split_ifs
  · exact .throw_bind
  · refine (walks.adaptExcept _).bind ?_
    rintro ids _ rfl
    cases ids with
    | none => exact .throw
    | some ids => exact .pure rfl

section

variable {other : Plan} (plans : plan.Alike other) {build build' : String → Building Expression}
  {strict : Bool} {kept : Workshop → Workshop → Prop}
  (rest : ∀ w v, kept w v → w.AtRest plan ∧ v.AtRest other)
  (stable : ∀ w v ids ids', kept w v → kept { w with ids } { v with ids := ids' })

include plans rest stable

theorem referTo_parallel (name : String) :
    Parallel true SameInstance kept (referTo plan name []) (referTo other name []) := by
  intro w v start
  obtain ⟨restW, restV⟩ := rest w v start
  have agree := referTo_same plans (restW.resolving.trans restV.resolving.symm) name [] [] (.refl [])
    w v (.start w v)
  refine agree.imp (fun _ _ => id) ?_
  rintro _ _ ⟨⟨ids, rfl⟩, ids', rfl⟩
  exact stable w v ids ids' start

omit plans rest stable in
private theorem onMarkers_parallel {α : Type} {action action' : EStateM Error Markers α}
    (actions : ∀ w v, kept w v → Parallel strict Eq (fun s t => s = w.markers ∧ t = v.markers)
      action action') :
    Parallel strict Eq kept (Building.onMarkers action) (Building.onMarkers action') := by
  refine within_parallel actions (fun _ _ _ => ⟨rfl, rfl⟩) ?_
  rintro w v _ _ start ⟨rfl, rfl⟩
  exact start

/-- If instances of item types are built alike then so are instances that have lists of them. -/
theorem assemble_parallel (name : String)
    (builds : ∀ root left w w' type, w.AtRest plan → referTo plan name [] w = .ok (root, left) w' →
      root.Wants type → Parallel strict SameOutline kept (build type) (build' type)) :
    Parallel strict SameOutline kept (assemble plan build name) (assemble other build' name) := by
  have refers := (referTo_parallel plans rest stable name).remember
  refine (refers.adaptExcept _).relax.bind ?_
  rintro ⟨inst, left⟩ ⟨inst', left'⟩ ⟨⟨instances, -⟩, w, v, w', -, start, referred, -⟩
  have checks : Parallel true (fun _ _ => True) kept
      (discard (Building.onMarkers (checkInstance plan.table plan.rowLimit inst name)))
      (discard (Building.onMarkers (checkInstance other.table other.rowLimit inst' name))) := by
    refine Parallel.map (onMarkers_parallel ?_) fun _ _ _ => trivial
    exact fun w v start => checkInstance_parallel plans instances name (rest w v start).1.checked
      (rest w v start).2.checked
  refine checks.relax.bind fun _ _ _ => ?_
  have fills := fillLists_parallel stable
    (fun type => builds inst left w w' type (rest w v start).1 referred) instances
  refine fills.bind fun result result' outlines => ?_
  have stems : rootStem result name = rootStem result' name := by
    rw [rootStem, rootStem, Expression.kind_of_outline outlines]
  rw [stems, uniqueIds_of_outline outlines]
  cases uniqueIds result' (rootStem result' name) with
  | ok scope => exact .pure outlines
  | error error => exact .throw

end

/-- Instances that are given, whatever state the workshop is in. -/
def supplied (items : String → Option Expression) (type : String) : Building Expression :=
  match items type with
  | some item => pure item
  | none => throw (.cycle type)

/-- A workshop in which everything has been checked and nothing has been built. -/
def Plan.workshop (plan : Plan) : Workshop :=
  { markers := ⟨plan.table.names.map fun name => (name, .done)⟩ }

/-- The instance of a definition, built from the plan alone; rows of lists are nested less than
`depth` deep. -/
def standalone (plan : Plan) : Nat → String → Option Expression
  | 0, _ => none
  | depth + 1, name =>
    match assemble plan (supplied (standalone plan depth)) name plan.workshop with
    | .ok inst _ => some inst
    | .error _ _ => none

theorem supplied_ok {items : String → Option Expression} {type : String} {item : Expression} :
    supplied items type w = .ok item w' ↔ items type = some item ∧ w = w' := by
  unfold supplied
  cases items type with
  | none => simp [throw_ok]
  | some found => simp [pure_ok]

/-- A stand-alone instance takes its items from stand-alone instances one level below. -/
theorem standalone_succ :
    standalone plan (depth + 1) name = some inst ↔
      ∃ w, assemble plan (supplied (standalone plan depth)) name plan.workshop = .ok inst w := by
  simp only [standalone]
  cases assemble plan (supplied (standalone plan depth)) name plan.workshop with
  | ok | error => simp

/-- A fresh workshop refers to nothing, and every definition counts as checked. -/
theorem Plan.workshop_atRest (plan : Plan) : plan.workshop.AtRest plan := by
  refine ⟨rfl, fun name member => ?_⟩
  have found : (plan.table.names.map fun name => (name, Marker.done)).lookup name = some .done := by
    generalize plan.table.names = names at member
    induction names with
    | nil => simp at member
    | cons first rest ih =>
      by_cases same : name = first
      · simp [same]
      · rw [List.map_cons, Entries.lookup_cons_of_ne same]
        exact ih ((List.mem_cons.mp member).resolve_left same)
  simp [Plan.workshop, Markers.get, found]

def BothAtRest (plan other : Plan) (w v : Workshop) : Prop :=
  w.AtRest plan ∧ v.AtRest other

theorem BothAtRest.stable (w v : Workshop) (ids ids' : Supply) (both : BothAtRest plan other w v) :
    BothAtRest plan other { w with ids } { v with ids := ids' } :=
  ⟨⟨both.1.resolving, both.1.checked⟩, ⟨both.2.resolving, both.2.checked⟩⟩

/-- More depth and another order of definitions do not change an instance. -/
theorem standalone_alike (plans : plan.Alike other) {deeper : Nat} (enough : depth ≤ deeper)
    (found : standalone plan depth name = some inst) :
    ∃ inst', standalone other deeper name = some inst' ∧ SameOutline inst inst' := by
  induction depth generalizing deeper name inst with
  | zero => cases found
  | succ depth ih =>
    obtain ⟨deeper, rfl⟩ : ∃ less, deeper = less + 1 := ⟨deeper - 1, by omega⟩
    obtain ⟨w, run⟩ := standalone_succ.mp found
    have builds : ∀ type, Parallel false SameOutline (BothAtRest plan other)
        (supplied (standalone plan depth) type) (supplied (standalone other deeper) type) := by
      refine fun type => .of_ok fun w v item w' start built => ?_
      obtain ⟨known, rfl⟩ := supplied_ok.mp built
      obtain ⟨item', known', same⟩ := ih (Nat.le_of_succ_le_succ enough) known
      exact ⟨item', v, supplied_ok.mpr ⟨known', rfl⟩, same, start⟩
    have parallel := assemble_parallel plans (fun _ _ both => both) BothAtRest.stable name
      fun _ _ _ _ type _ _ _ => builds type
    obtain ⟨inst', v, run', same, -⟩ :=
      parallel.ok ⟨plan.workshop_atRest, other.workshop_atRest⟩ run
    exact ⟨inst', standalone_succ.mpr ⟨v, run'⟩, same⟩

/-- An instance does not depend on the depth that it is built with. -/
theorem standalone_unique {depth' : Nat} (first : standalone plan depth name = some inst)
    (second : standalone plan depth' name = some inst') : SameOutline inst inst' := by
  obtain ⟨middle, found, same⟩ := standalone_alike (.refl plan) (Nat.le_max_left depth depth') first
  obtain ⟨middle', found', same'⟩ :=
    standalone_alike (.refl plan) (Nat.le_max_right depth depth') second
  rw [found] at found'
  cases found'
  exact same.trans same'.symm

/-! ### From a run to standalone instances -/

/-- Lists of `e` get their rows from standalone instances of this depth, with the given result. -/
def FillsWithin (plan : Plan) (depth : Nat) (e result : Expression) : Prop :=
  ∀ e' w, SameOutline e e' → ∃ result' w',
    fillLists (supplied (standalone plan depth)) e' w = .ok result' w' ∧ SameOutline result result'

private theorem FillsWithin.deeper (enough : depth ≤ more)
    (fills : FillsWithin plan depth e result) : FillsWithin plan more e result := by
  intro e' w same
  obtain ⟨middle, v, run, outlines⟩ := fills e' w same
  have builds : ∀ type, Parallel false SameOutline (fun _ _ => True)
      (supplied (standalone plan depth) type) (supplied (standalone plan more) type) := by
    refine fun type => .of_ok fun w v item w' _ built => ?_
    obtain ⟨known, rfl⟩ := supplied_ok.mp built
    obtain ⟨item', known', same⟩ := standalone_alike (.refl plan) enough known
    exact ⟨item', v, supplied_ok.mpr ⟨known', rfl⟩, same, trivial⟩
  have fills := fillLists_parallel (e := e') (fun _ _ _ _ _ => trivial) (fun type _ => builds type) rfl
  obtain ⟨result', w', run', outlines', -⟩ := fills.ok (t := w) trivial run
  exact ⟨result', w', run', outlines.trans outlines'⟩

/-- Expressions of a block that all get their rows from standalone instances get them together. -/
theorem fillBlock_within {children results children' : List Expression}
    (fills : List.Forall₂ (FillsWithin plan depth) children results)
    (same : List.Forall₂ SameOutline children children') (w : Workshop) :
    ∃ results' w', Threads (fillLists (supplied (standalone plan depth))) children' w results' w' ∧
      List.Forall₂ SameOutline results results' := by
  induction fills generalizing children' w with
  | nil =>
    cases same
    exact ⟨[], w, .nil w, .nil⟩
  | cons first rest ih =>
    cases same with
    | cons here more =>
      obtain ⟨result', v, run, outlines⟩ := first _ w here
      obtain ⟨results', w', threads, others⟩ := ih more v
      exact ⟨result' :: results', w', .cons run threads, .cons outlines others⟩

def FillsValue (plan : Plan) (depth : Nat) (value result : Argument) : Prop :=
  value.block? = none ∧ value = result ∨
    ∃ children results, value = .block children ∧ .block results = result ∧
      List.Forall₂ (FillsWithin plan depth) children results

private theorem FillsValue.deeper (enough : depth ≤ more) {result : Argument}
    (fills : FillsValue plan depth value result) : FillsValue plan more value result := by
  rcases fills with leaf | ⟨children, results, equal, equal', each⟩
  · exact .inl leaf
  · exact .inr ⟨children, results, equal, equal', each.imp fun _ _ => FillsWithin.deeper enough⟩

private theorem FillsValue.run {result value' : Argument}
    (fills : FillsValue plan depth value result) (same : value.outline = value'.outline)
    (w : Workshop) :
    ∃ result' w', fillArgument (supplied (standalone plan depth)) value' w = .ok result' w' ∧
      result.outline = result'.outline := by
  rcases fills with ⟨leaf, rfl⟩ | ⟨children, results, rfl, rfl, each⟩
  · have leaf' := Argument.leaf_of_outline same leaf
    exact ⟨value', w, fillArgument_ok.mpr (.inl ⟨leaf', rfl, rfl⟩), same⟩
  · obtain ⟨children', rfl, entries⟩ := Argument.outline_eq_block same
    obtain ⟨results', w', threads, outlines⟩ := fillBlock_within each entries w
    exact ⟨.block results', w',
      fillArgument_ok.mpr (.inr ⟨children', results', rfl, rfl, threads⟩),
      Argument.outline_block_eq_iff.mpr outlines⟩

def FillsEntry (plan : Plan) (depth : Nat) (entry result : String × Argument) : Prop :=
  entry.1 = result.1 ∧ FillsValue plan depth entry.2 result.2

private theorem fillArguments_within {arguments results arguments' : Arguments}
    (fills : List.Forall₂ (FillsEntry plan depth) arguments results)
    (same : SameArguments arguments arguments') (w : Workshop) :
    ∃ results' w', fillArguments (supplied (standalone plan depth)) arguments' w =
        .ok results' w' ∧ SameArguments results results' := by
  simp only [fillArguments_ok]
  induction fills generalizing arguments' w with
  | nil =>
    cases same
    exact ⟨[], w, .nil w, .nil⟩
  | cons first rest ih =>
    cases same with
    | cons here more =>
      obtain ⟨value', v, run, outlines⟩ := first.2.run here.2 w
      obtain ⟨results', w', threads, others⟩ := ih more v
      refine ⟨(_, value') :: results', w', .cons (bind_ok.mpr ⟨value', v, run, rfl⟩) threads,
        .cons ⟨?_, outlines⟩ others⟩
      exact first.1.symm.trans here.1

section

variable {build : String → Building Expression} {good : Workshop → Prop}
  (stable : ∀ w ids, good w → good { w with ids })
  (builds : ∀ type w item w', good w → build type w = .ok item w' →
    good w' ∧ ∃ depth item', standalone plan depth type = some item' ∧ SameOutline item item')

include stable builds

private theorem fillList_standalone {list : Expression} (start : good w)
    (isList : list.kind = "list") (run : fillList build list w = .ok result w') :
    good w' ∧ ∃ depth, FillsWithin plan depth list result := by
  rcases fillList_ok.mp run with ⟨none, rfl, rfl⟩ | ⟨count, type, item, u, initial, typed, built,
    rfl, rfl⟩
  · refine ⟨start, 0, fun e' v same => ⟨e', v, fillLists_ok.mpr (.inl ⟨?_, ?_⟩), same⟩⟩
    · rwa [← Expression.kind_of_outline same]
    · rw [Expression.number?_of_outline same] at none
      exact fillList_ok.mpr (.inl ⟨none, rfl, rfl⟩)
  · obtain ⟨now, depth, item', known, items⟩ := builds type w item u start built
    refine ⟨stable u _ now, depth, fun e' v same => ?_⟩
    rw [Expression.number?_of_outline same] at initial
    rw [Expression.text?_of_outline same] at typed
    refine ⟨_, _, fillLists_ok.mpr (.inl ⟨?_, fillList_ok.mpr (.inr ⟨count, type, item', v, initial,
      typed, supplied_ok.mpr ⟨known, rfl⟩, rfl, rfl⟩)⟩), ?_⟩
    · rwa [← Expression.kind_of_outline same]
    · refine Expression.outline_set same "body" ?_
      exact Argument.outline_block_eq_iff.mpr (outline_makeRows items _ _ _ _ _ _)

private theorem fillLists_standalone (start : good w) (run : fillLists build e w = .ok result w') :
    good w' ∧ ∃ depth, FillsWithin plan depth e result := by
  induction e using Expression.inductionOn generalizing result w w' with
  | step owner ih =>
    rcases fillLists_ok.mp run with ⟨isList, filled⟩ | ⟨noList, results, filled, rfl⟩
    · exact fillList_standalone stable builds start isList filled
    · have entries := (fillArguments_ok.mp filled).eventually (FillsEntry plan) start
        (fun _ _ _ _ enough fills => ⟨fills.1, fills.2.deeper enough⟩) ?_
      · obtain ⟨now, depth, fills⟩ := entries
        refine ⟨now, depth, fun e' v same => ?_⟩
        obtain ⟨links, kinds, arguments⟩ := Expression.outline_eq_iff.mp same
        obtain ⟨results', v', filled', outlines⟩ := fillArguments_within fills arguments v
        refine ⟨{ e' with arguments := results' }, v',
          fillLists_ok.mpr (.inr ⟨kinds ▸ noList, results', filled', rfl⟩), ?_⟩
        exact Expression.outline_eq_iff.mpr ⟨links, kinds, outlines⟩
      · intro entry member u filledEntry u' now step
        obtain ⟨value, _, ran, last⟩ := bind_ok.mp step
        obtain ⟨rfl, rfl⟩ := pure_ok.mp last
        rcases fillArgument_ok.mp ran with ⟨leaf, equal, rfl⟩ | ⟨children, filled, equal, rfl, threads⟩
        · exact ⟨now, 0, rfl, .inl ⟨leaf, equal⟩⟩
        · obtain ⟨afterwards, depth, fills⟩ := threads.eventually (FillsWithin plan) now
            (fun _ _ _ _ enough => FillsWithin.deeper enough)
            (fun child inside t result t' now step =>
              ih entry.1 child ⟨children, equal ▸ member, inside⟩ now step)
          exact ⟨afterwards, depth, rfl, .inr ⟨children, filled, equal, rfl, fills⟩⟩

end

/-- `inst` is the instance of a definition, up to identifiers, with rows nested less than `depth`
deep. -/
def Plan.HasInstanceWithin (plan : Plan) (depth : Nat) (name : String) (inst : Expression) : Prop :=
  ∃ inst', standalone plan depth name = some inst' ∧ SameOutline inst inst'

def Plan.HasInstance (plan : Plan) (name : String) (inst : Expression) : Prop :=
  ∃ depth, plan.HasInstanceWithin depth name inst

theorem Plan.HasInstanceWithin.deeper (enough : depth ≤ more)
    (instances : plan.HasInstanceWithin depth name inst) :
    plan.HasInstanceWithin more name inst := by
  obtain ⟨inst', found, same⟩ := instances
  obtain ⟨again, found', same'⟩ := standalone_alike (.refl plan) enough found
  exact ⟨again, found', Eq.trans same same'⟩

theorem Plan.HasInstanceWithin.same {other : Expression}
    (instances : plan.HasInstanceWithin depth name inst) (outlines : SameOutline other inst) :
    plan.HasInstanceWithin depth name other := by
  obtain ⟨inst', found, same⟩ := instances
  exact ⟨inst', found, Eq.trans outlines same⟩

/-- A workshop at rest whose finished instances are those of the plan. -/
structure Workshop.Faithful (w : Workshop) (plan : Plan) : Prop extends w.AtRest plan where
  finished : ∀ name inst, (name, inst) ∈ w.finished → plan.HasInstance name inst

/-- An instance is at hand, or it is assembled and put with the finished ones. -/
theorem buildWithin_succ_ok :
    buildWithin plan (budget + 1) name w = .ok inst w' ↔
      (w.finished.lookup name = some inst ∧ w = w') ∨
        (w.finished.lookup name = none ∧ name ∉ w.building ∧ ∃ u,
          assemble plan (buildWithin plan budget) name
              { w with building := name :: w.building } = .ok inst u ∧
            { u with building := u.building.tail, finished := (name, inst) :: u.finished } =
              w') := by
  simp only [buildWithin]
  rw [bind_ok]
  simp only [get_ok]
  constructor
  · rintro ⟨_, _, ⟨rfl, rfl⟩, run⟩
    cases known : w.finished.lookup name with
    | some found =>
      simp only [known, pure_ok] at run
      exact .inl ⟨congrArg some run.1, run.2⟩
    | none =>
      simp only [known] at run
      obtain ⟨_, _, now, run⟩ := bind_ok.mp run
      obtain ⟨rfl, rfl⟩ := get_ok.mp now
      split_ifs at run with again
      · obtain ⟨_, _, thrown, -⟩ := bind_ok.mp run
        exact (throw_ok.mp thrown).elim
      · obtain ⟨result, v, built, run⟩ := bind_ok.mp run
        obtain ⟨u, assembled, rfl⟩ := within_ok.mp built
        obtain ⟨_, x, added, last⟩ := bind_ok.mp run
        obtain rfl := modify_ok.mp added
        obtain ⟨rfl, rfl⟩ := pure_ok.mp last
        exact .inr ⟨rfl, by simpa using again, u, assembled, rfl⟩
  · rintro (⟨known, rfl⟩ | ⟨unknown, fresh, u, assembled, rfl⟩)
    · refine ⟨w, w, ⟨rfl, rfl⟩, ?_⟩
      simp only [known, pure_ok, and_self]
    · refine ⟨w, w, ⟨rfl, rfl⟩, ?_⟩
      have again : ¬ w.building.contains name = true := by simpa using fresh
      simp only [unknown]
      refine bind_ok.mpr ⟨w, w, rfl, ?_⟩
      rw [if_neg again]
      refine bind_ok.mpr ⟨inst, _, within_ok.mpr ⟨u, assembled, rfl⟩, ?_⟩
      exact bind_ok.mpr ⟨⟨⟩, _, modify_ok.mpr rfl, rfl⟩

/-- What is assembled in a faithful workshop is the instance of the plan. -/
theorem assemble_sound (faithful : w.Faithful plan)
    (builds : ∀ type w item w', w.Faithful plan → build type w = .ok item w' →
      w'.Faithful plan ∧ plan.HasInstance type item)
    (run : assemble plan build name w = .ok inst w') :
    w'.Faithful plan ∧ plan.HasInstance name inst := by
  obtain ⟨root, rest, ids, scope, referred, passes, filled, unique⟩ :=
    (assemble_ok faithful.checked).mp run
  have refers := referTo_parallel (.refl plan) (fun _ _ both => both) BothAtRest.stable name
  obtain ⟨⟨root', rest'⟩, v, referred', ⟨roots, -⟩, -⟩ :=
    refers.ok ⟨faithful.toAtRest, plan.workshop_atRest⟩ referred
  obtain ⟨ids', rfl⟩ := referWithin_onlyIds referred'
  have start : Workshop.Faithful { w with ids } plan :=
    ⟨⟨faithful.resolving, faithful.checked⟩, faithful.finished⟩
  obtain ⟨now, depth, fills⟩ := fillLists_standalone
    (fun w ids faithful => ⟨⟨faithful.resolving, faithful.checked⟩, faithful.finished⟩)
    builds start filled
  obtain ⟨inst', v', filled', outlines⟩ := fills root' { plan.workshop with ids := ids' } roots
  refine ⟨now, depth + 1, inst', standalone_succ.mpr ⟨v', ?_⟩, outlines⟩
  refine (assemble_ok plan.workshop_atRest.checked).mpr ⟨root', rest', ids', scope, referred',
    passes.alike (.refl plan) roots, filled', ?_⟩
  rw [← unique, rootStem, rootStem, Expression.kind_of_outline outlines]
  exact (uniqueIds_of_outline outlines _).symm

/-- What is built in a faithful workshop is an instance, and the workshop stays faithful. -/
theorem buildWithin_sound (faithful : w.Faithful plan)
    (run : buildWithin plan budget name w = .ok inst w') :
    w'.Faithful plan ∧ plan.HasInstance name inst := by
  induction budget generalizing name inst w w' with
  | zero => exact (throw_ok.mp run).elim
  | succ budget ih =>
    rcases buildWithin_succ_ok.mp run with ⟨known, rfl⟩ | ⟨-, -, u, assembled, rfl⟩
    · exact ⟨faithful, faithful.finished name inst (Entries.mem_of_lookup known)⟩
    · have start : Workshop.Faithful { w with building := name :: w.building } plan :=
        ⟨⟨faithful.resolving, faithful.checked⟩, faithful.finished⟩
      obtain ⟨now, here⟩ := assemble_sound start (fun _ _ _ _ => ih) assembled
      refine ⟨⟨⟨now.resolving, now.checked⟩, ?_⟩, here⟩
      intro other found member
      rcases List.mem_cons.mp member with same | earlier
      · cases same
        exact here
      · exact now.finished other found earlier

end Pagewright
