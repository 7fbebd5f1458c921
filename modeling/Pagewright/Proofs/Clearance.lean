import Pagewright.Proofs.Requests
import Pagewright.Proofs.WalkOutline

/-!
# Which tables pass their check

A definition clears if its own walk gets through and all definitions that the
walk requests clear. This does not mention markers, budgets or an order. Checking
a table succeeds exactly if all its definitions clear: a marked definition is one
that clears, and a definition that clears never comes back to itself, since what
it requests clears in fewer steps.
-/

namespace Pagewright

open Outcome

variable {table other : Table} {rowLimit depth budget : Nat} {markers markers' : Markers}
  {name : String} {definition : Definition} {asked : List String}
  {request : String → EStateM Error Markers Unit}

/-- What the walk of a definition requests, if it gets through. -/
def demands (table : Table) (rowLimit : Nat) (definition : Definition) : Option (List String) :=
  match walkDefinition (recording table rowLimit) definition.expression definition.name [] with
  | .ok _ asked => some asked
  | .error _ _ => none

/-- The definition `name` gets through, and so does what it requests, with requests nested less than
`depth` deep. -/
def Clears (table : Table) (rowLimit : Nat) : Nat → String → Prop
  | 0, _ => False
  | depth + 1, name => ∃ definition asked, table.find? name = some definition ∧
      demands table rowLimit definition = some asked ∧
      ∀ other ∈ asked, Clears table rowLimit depth other

/-- What a definition demands is what its walk records. -/
theorem demands_eq_some :
    demands table rowLimit definition = some asked ↔
      ∃ ids, walkDefinition (recording table rowLimit) definition.expression definition.name [] =
        .ok ids asked := by
  unfold demands
  cases walkDefinition (recording table rowLimit) definition.expression definition.name [] with
  | ok | error => simp

/-- A walk succeeds if it gets through and its requests succeed. -/
theorem walkDefinition_ok_iff {σ : Type} (rules : Rules σ) (definition : Definition) {s s' : σ} :
    (∃ ids, walkDefinition rules definition.expression definition.name s = .ok ids s') ↔
      ∃ asked, demands rules.table rules.rowLimit definition = some asked ∧
        Runs rules.request asked s s' := by
  have records := walkDefinition_records rules definition.expression definition.name
  constructor
  · rintro ⟨ids, run⟩
    obtain ⟨asked, recorded, requested⟩ := records.step_ok.mp run
    exact ⟨asked, demands_eq_some.mpr ⟨ids, recorded⟩, requested⟩
  · rintro ⟨asked, demanded, requested⟩
    obtain ⟨ids, recorded⟩ := demands_eq_some.mp demanded
    exact ⟨ids, records.step_ok.mpr ⟨asked, recorded, requested⟩⟩

private theorem Clears.succ (clears : Clears table rowLimit depth name) :
    Clears table rowLimit (depth + 1) name := by
  induction depth generalizing name with
  | zero => exact clears.elim
  | succ depth ih =>
    obtain ⟨definition, asked, found, demanded, others⟩ := clears
    exact ⟨definition, asked, found, demanded, fun other member => ih (others other member)⟩

theorem Clears.mono {deeper : Nat} (clears : Clears table rowLimit depth name)
    (more : depth ≤ deeper) : Clears table rowLimit deeper name := by
  induction more with
  | refl => exact clears
  | step _ ih => exact ih.succ

/-! ### One visit -/

theorem process_ok {rules : Rules Markers} :
    process rules definition markers = .ok () markers' ↔
      ∃ ids after, walkDefinition rules definition.expression definition.name
          (markers.set definition.name .processing) = .ok ids after ∧
        after.set definition.name .done = markers' := by
  unfold process
  cases walkDefinition rules definition.expression definition.name
      (markers.set definition.name .processing) with
  | ok | error => simp

/-- A visit finds a checked definition and does nothing, or one that it has to process. -/
theorem visit_ok {next : Definition → EStateM Error Markers Unit} :
    visit table name next markers = .ok () markers' ↔
      ∃ definition, table.find? name = some definition ∧
        (markers.get name = .done ∧ markers = markers' ∨
          markers.get name = .discovered ∧ next definition markers = .ok () markers') := by
  unfold visit
  cases found : table.find? name with
  | none => simp [throw_ok]
  | some definition =>
    simp only [bind_ok, get_ok, Option.some.injEq, exists_eq_left']
    constructor
    · rintro ⟨now, _, ⟨rfl, rfl⟩, run⟩
      cases marked : markers.get name with
      | done =>
        simp only [marked, pure_ok] at run
        exact .inl ⟨rfl, run.2⟩
      | processing => simp only [marked, throw_ok] at run
      | discovered =>
        simp only [marked] at run
        exact .inr ⟨rfl, run⟩
    · rintro (⟨marked, rfl⟩ | ⟨marked, run⟩)
      · exact ⟨markers, markers, ⟨rfl, rfl⟩, by simp only [marked, pure_ok, and_self]⟩
      · exact ⟨markers, markers, ⟨rfl, rfl⟩, by simpa only [marked] using run⟩

/-! ### A check that succeeds -/

def Markers.Sound (markers : Markers) (table : Table) (rowLimit : Nat) : Prop :=
  ∃ depth, ∀ name ∈ table.names, markers.get name = .done → Clears table rowLimit depth name

/-- What checking does to markers: more is done, and the same is being processed. -/
structure Markers.Leads (markers markers' : Markers) : Prop where
  done : ∀ name, markers.get name = .done → markers'.get name = .done
  processing : ∀ name, markers'.get name = .processing ↔ markers.get name = .processing

theorem Markers.Leads.refl (markers : Markers) : markers.Leads markers :=
  ⟨fun _ => id, fun _ => Iff.rfl⟩

theorem Markers.Leads.trans {first second third : Markers} (start : first.Leads second)
    (rest : second.Leads third) : first.Leads third :=
  ⟨fun name => rest.done name ∘ start.done name,
    fun name => (rest.processing name).trans (start.processing name)⟩

/-- Processing a definition changes its own marker, around what its walk does. -/
theorem Markers.Leads.around {after : Markers} (fresh : markers.get name = .discovered)
    (inside : (markers.set name .processing).Leads after) :
    markers.Leads (after.set name .done) := by
  constructor
  · intro other done
    by_cases same : other = name
    · rw [same, Markers.get_set_self]
    · rw [Markers.get_set_of_ne _ _ same]
      refine inside.done other ?_
      rwa [Markers.get_set_of_ne _ _ same]
  · intro other
    by_cases same : other = name
    · simp [same, fresh]
    · rw [Markers.get_set_of_ne _ _ same, inside.processing, Markers.get_set_of_ne _ _ same]

/-- Requests that are each sound are sound together, and leave everything requested done. -/
theorem Outcome.Runs.sound (runs : Runs request asked markers markers')
    (each : ∀ name markers markers', request name markers = .ok () markers' →
      markers.Sound table rowLimit →
        markers'.Sound table rowLimit ∧ markers.Leads markers' ∧
          name ∈ table.names ∧ markers'.get name = .done) (sound : markers.Sound table rowLimit) :
    markers'.Sound table rowLimit ∧ markers.Leads markers' ∧
      ∀ name ∈ asked, name ∈ table.names ∧ markers'.get name = .done := by
  induction runs with
  | nil s => exact ⟨sound, .refl s, by simp⟩
  | @cons name rest s t u first later ih =>
    obtain ⟨soundNow, leads, known, done⟩ := each name s t first sound
    obtain ⟨soundLater, leadsOn, others⟩ := ih soundNow
    refine ⟨soundLater, leads.trans leadsOn, ?_⟩
    intro other member
    rcases List.mem_cons.mp member with rfl | inRest
    · exact ⟨known, leadsOn.done _ done⟩
    · exact others other inRest

private theorem checkWithin_sound
    (run : checkWithin table rowLimit budget name markers = .ok () markers')
    (sound : markers.Sound table rowLimit) :
    markers'.Sound table rowLimit ∧ markers.Leads markers' ∧
      name ∈ table.names ∧ markers'.get name = .done := by
  induction budget generalizing name markers markers' with
  | zero =>
    obtain ⟨definition, found, ⟨done, rfl⟩ | ⟨-, thrown⟩⟩ := visit_ok.mp run
    · exact ⟨sound, .refl _, Table.mem_names_of_find? found, done⟩
    · exact (throw_ok.mp thrown).elim
  | succ budget ih =>
    obtain ⟨definition, found, ⟨done, rfl⟩ | ⟨fresh, processed⟩⟩ := visit_ok.mp run
    · exact ⟨sound, .refl _, Table.mem_names_of_find? found, done⟩
    · obtain ⟨ids, after, walked, rfl⟩ := process_ok.mp processed
      obtain ⟨asked, demanded, requested⟩ := (walkDefinition_ok_iff _ definition).mp ⟨ids, walked⟩
      rw [Table.name_of_find? found] at requested ⊢
      have start : (markers.set name .processing).Sound table rowLimit := by
        obtain ⟨depth, clear⟩ := sound
        refine ⟨depth, fun other known done => ?_⟩
        by_cases same : other = name
        · simp [same] at done
        · rw [Markers.get_set_of_ne _ _ same] at done
          exact clear other known done
      obtain ⟨⟨depth, clear⟩, leads, done⟩ :=
        requested.sound (fun name markers markers' => ih) start
      have known := Table.mem_names_of_find? found
      -- The definition clears one step above all that it requested.
      refine ⟨⟨depth + 1, ?_⟩, leads.around fresh, known, Markers.get_set_self _ _ _⟩
      intro other known marked
      by_cases same : other = name
      · subst same
        refine ⟨definition, asked, found, demanded, fun next member => ?_⟩
        obtain ⟨nextKnown, nextDone⟩ := done next member
        exact clear next nextKnown nextDone
      · rw [Markers.get_set_of_ne _ _ same] at marked
        exact (clear other known marked).succ

/-! ### A definition that clears -/

def Markers.idle (markers : Markers) (table : Table) : List String :=
  table.names.filter fun name => markers.get name ≠ .processing

theorem Markers.Leads.idle (leads : markers.Leads markers') :
    markers'.idle table = markers.idle table := by
  refine List.filter_congr fun name _ => ?_
  simp [leads.processing name]

/-- Every walk leaves fewer definitions to walk, so walks nest no deeper than the table is long. -/
theorem Markers.idle_set (known : name ∈ table.names) (fresh : markers.get name ≠ .processing) :
    ((markers.set name .processing).idle table).length < (markers.idle table).length := by
  have fewer : (markers.set name .processing).idle table =
      (markers.idle table).filter fun other => other ≠ name := by
    rw [Markers.idle, Markers.idle, List.filter_filter]
    refine List.filter_congr fun other _ => ?_
    by_cases same : other = name
    · simp [same]
    · simp [same, Markers.get_set_of_ne _ _ same]
  rw [fewer, List.length_filter_lt_length_iff_exists]
  exact ⟨name, List.mem_filter.mpr ⟨known, by simpa using fresh⟩, by simp⟩

/-- Requests that each succeed from good markers succeed one after the other. -/
theorem Outcome.Runs.complete (good : Markers → Prop)
    (stable : ∀ markers markers', Markers.Leads markers markers' → good markers → good markers')
    (each : ∀ name ∈ asked, ∀ markers, good markers →
      ∃ markers', request name markers = .ok () markers' ∧ markers.Leads markers')
    (start : good markers) :
    ∃ markers', Runs request asked markers markers' ∧ markers.Leads markers' := by
  induction asked generalizing markers with
  | nil => exact ⟨markers, .nil _, .refl _⟩
  | cons name rest ih =>
    obtain ⟨middle, first, leads⟩ := each name (by simp) markers start
    obtain ⟨markers', later, leadsOn⟩ :=
      ih (List.forall_mem_cons.mp each).2
        (stable markers middle leads start)
    exact ⟨markers', .cons first later, leads.trans leadsOn⟩

/-- Nothing that is being processed clears at this depth, and walks may nest once for each
definition that is not being processed. -/
structure Apart (table : Table) (rowLimit depth budget : Nat) (markers : Markers) : Prop where
  clear : ∀ other, markers.get other = .processing → ¬ Clears table rowLimit depth other
  room : (markers.idle table).length ≤ budget

private theorem Apart.leads (apart : Apart table rowLimit depth budget markers)
    (leads : markers.Leads markers') :
    Apart table rowLimit depth budget markers' where
  clear other marked := apart.clear other ((leads.processing other).mp marked)
  room := by
    rw [leads.idle]
    exact apart.room

/-- The induction is on how deep the requests of `name` nest. Since nothing that is being processed
clears at this depth, no request comes back to it. -/
theorem checkWithin_complete (clears : Clears table rowLimit depth name)
    (apart : Apart table rowLimit depth budget markers) :
    ∃ markers', checkWithin table rowLimit budget name markers = .ok () markers' ∧
      markers.Leads markers' := by
  induction depth generalizing budget name markers with
  | zero => exact clears.elim
  | succ depth ih =>
    by_cases sooner : Clears table rowLimit depth name
    · exact ih sooner ⟨fun other marked clear => apart.clear other marked clear.succ, apart.room⟩
    obtain ⟨definition, asked, found, demanded, others⟩ := clears
    have known := Table.mem_names_of_find? found
    have free : markers.get name ≠ .processing := fun marked =>
      apart.clear name marked ⟨definition, asked, found, demanded, others⟩
    have less := Markers.idle_set known free
    have room := apart.room
    cases budget with
    | zero => omega
    | succ budget =>
      cases marked : markers.get name with
      | processing => exact absurd marked free
      | done =>
        exact ⟨markers, visit_ok.mpr ⟨definition, found, .inl ⟨marked, rfl⟩⟩, .refl _⟩
      | discovered =>
        -- `name` is now in progress, and by `sooner` it does not clear at `depth`.
        have start : Apart table rowLimit depth budget (markers.set name .processing) := by
          refine ⟨fun other marked clear => ?_, by omega⟩
          by_cases same : other = name
          · exact sooner (same ▸ clear)
          · rw [Markers.get_set_of_ne _ _ same] at marked
            exact apart.clear other marked clear.succ
        obtain ⟨after, requested, leads⟩ :=
          Outcome.Runs.complete _ (fun _ _ leads apart => apart.leads leads)
            (fun other member now apart => ih (others other member) apart) start
        rw [← Table.name_of_find? found] at requested
        let rules : Rules Markers :=
          { table, rowLimit, request := checkWithin table rowLimit budget }
        obtain ⟨ids, walked⟩ :=
          (walkDefinition_ok_iff rules definition).mpr ⟨asked, demanded, requested⟩
        have processed := process_ok.mpr ⟨ids, after, walked, rfl⟩
        refine ⟨_, visit_ok.mpr ⟨definition, found, .inr ⟨marked, processed⟩⟩, ?_⟩
        rw [Table.name_of_find? found]
        exact leads.around marked

/-! ### Whole tables -/

def Table.Clear (table : Table) (rowLimit : Nat) : Prop :=
  ∀ name ∈ table.names, ∃ depth, Clears table rowLimit depth name

def Markers.AllDone (markers : Markers) (table : Table) : Prop :=
  ∀ name ∈ table.names, markers.get name = .done

/-- No definition of the table has been looked at. -/
def Markers.Fresh (markers : Markers) (table : Table) : Prop :=
  ∀ name ∈ table.names, markers.get name = .discovered

theorem Markers.fresh_empty : Markers.Fresh {} table := by
  intro name _
  simp [Markers.get]

private theorem Markers.Fresh.sound (fresh : markers.Fresh table) :
    markers.Sound table rowLimit := by
  refine ⟨0, fun name known done => ?_⟩
  rw [fresh name known] at done
  cases done

theorem Clears.mem_names (clears : Clears table rowLimit depth name) : name ∈ table.names := by
  cases depth with
  | zero => exact clears.elim
  | succ depth =>
    obtain ⟨definition, asked, found, -, -⟩ := clears
    exact Table.mem_names_of_find? found

/-- A check that passes clears every definition and leaves each of them marked done. -/
theorem checkAll_sound (fresh : markers.Fresh table)
    (run : checkAll table rowLimit markers = .ok () markers') :
    table.Clear rowLimit ∧ markers'.AllDone table := by
  obtain ⟨⟨depth, clear⟩, -, done⟩ := (forM_ok.mp run).sound
    (fun name markers markers' => checkWithin_sound) fresh.sound
  have allDone : markers'.AllDone table := fun name member => (done name member).2
  exact ⟨fun name member => ⟨depth, clear name member (allDone name member)⟩, allDone⟩

/-- A table that clears passes its check. -/
theorem checkAll_complete (fresh : markers.Fresh table) (clear : table.Clear rowLimit) :
    ∃ markers', checkAll table rowLimit markers = .ok () markers' := by
  -- between two definitions nothing is being processed
  let good := fun now : Markers => ∀ name ∈ table.names, now.get name ≠ .processing
  have stable : ∀ now next : Markers, now.Leads next → good now → good next :=
    fun now next leads idle name known marked =>
      idle name known ((leads.processing name).mp marked)
  have each : ∀ name ∈ table.names, ∀ now : Markers, good now →
      ∃ next, checkSymbol table rowLimit name now = .ok () next ∧ now.Leads next := by
    intro name member now idle
    obtain ⟨depth, clears⟩ := clear name member
    refine checkWithin_complete clears ⟨fun other marked clears => ?_, ?_⟩
    · exact idle other clears.mem_names marked
    · have fewer :=
        List.length_filter_le (fun name => decide (now.get name ≠ .processing)) table.names
      simpa [Markers.idle, Catalog.names, Catalog.size] using fewer
  have start : good markers := by
    intro name known marked
    rw [fresh name known] at marked
    cases marked
  obtain ⟨markers', runs, -⟩ := Outcome.Runs.complete _ stable each start
  exact ⟨markers', forM_ok.mpr runs⟩

/-! ### Other orders and other identifiers -/

theorem Table.Alike.demands (alike : table.Alike other) {counterpart : Definition}
    (same : definition.expression.outline = counterpart.expression.outline)
    (named : definition.name = counterpart.name) :
    Pagewright.demands table rowLimit definition = Pagewright.demands other rowLimit counterpart := by
  have rules : (recording table rowLimit).Alike (recording other rowLimit) := ⟨alike, rfl, rfl⟩
  rw [Pagewright.demands, Pagewright.demands, walkDefinition_of_outline rules same, named]

theorem Clears.alike (alike : table.Alike other) (clears : Clears table rowLimit depth name) :
    Clears other rowLimit depth name := by
  induction depth generalizing name with
  | zero => exact clears
  | succ depth ih =>
    obtain ⟨definition, asked, found, demanded, others⟩ := clears
    rcases alike.cases name with ⟨absent, -⟩ | ⟨definition', counterpart, first, second, same⟩
    · rw [absent] at found
      cases found
    · rw [found] at first
      cases first
      refine ⟨counterpart, asked, second, ?_, fun next member => ih (others next member)⟩
      have named : definition.name = counterpart.name := by
        rw [Table.name_of_find? found, Table.name_of_find? second]
      rw [← alike.demands same named]
      exact demanded

end Pagewright
