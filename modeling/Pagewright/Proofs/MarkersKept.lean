import Pagewright.Proofs.Clearance

/-!
# Markers between checks

Checks change markers at every level of a recursion that can break off anywhere.
Still a check keeps what is done and what is being processed, whatever becomes
of it, and leaves nothing else as being processed: a definition is marked so
only while it is walked, and a walk does nothing to markers but make requests.
-/

namespace Pagewright

open Outcome

variable {α β : Type} {step : EStateM Error Markers α} {next : α → EStateM Error Markers β}

def Markers.after (markers : Markers) (step : EStateM Error Markers α) : Markers :=
  match step markers with
  | .ok _ later | .error _ later => later

theorem Markers.after_bind_ok {markers markers' : Markers} {a : α}
    (run : step markers = .ok a markers') :
    markers.after (step >>= next) = markers'.after (next a) := by
  have same : (step >>= next) markers = next a markers' := by
    show EStateM.bind step next markers = _
    unfold EStateM.bind
    rw [run]
  unfold Markers.after
  rw [same]

/-! ### Steps that keep markers -/

/-- Whatever becomes of the step, what is done stays done, and what is being processed afterwards is
what was being processed before. -/
def KeepsMarkers (step : EStateM Error Markers α) : Prop :=
  ∀ markers : Markers, markers.Leads (markers.after step)

namespace KeepsMarkers

private theorem pure (a : α) : KeepsMarkers (pure a : EStateM Error Markers α) :=
  fun markers => .refl markers

private theorem throw (error : Error) : KeepsMarkers (throw error : EStateM Error Markers α) :=
  fun markers => .refl markers

/-- What follows a step keeps the markers that the step leaves. -/
theorem behind (later : ∀ a, KeepsMarkers (next a)) (step : EStateM Error Markers α)
    (markers : Markers) : (markers.after step).Leads (markers.after (step >>= next)) := by
  cases run : step markers with
  | ok a middle =>
    rw [Markers.after_bind_ok run]
    unfold Markers.after
    simp only [run]
    exact later a middle
  | error error middle =>
    have failed : (step >>= next) markers = .error error middle := bind_error.mpr (.inl run)
    unfold Markers.after
    simp only [run, failed]
    exact .refl middle

private theorem bind (first : KeepsMarkers step) (later : ∀ a, KeepsMarkers (next a)) :
    KeepsMarkers (step >>= next) :=
  fun markers => (first markers).trans (behind later step markers)

/-- What follows a check that may fail. -/
theorem check {condition : Prop} [Decidable condition] {error : Error} (rest : KeepsMarkers step) :
    KeepsMarkers
      (if condition then (MonadExcept.throw error : EStateM Error Markers PUnit) >>= fun _ => step
        else step) := by
  split
  · exact (KeepsMarkers.throw error).bind fun _ => rest
  · exact rest

private theorem forM {step : α → EStateM Error Markers PUnit} {values : List α}
    (each : ∀ value, KeepsMarkers (step value)) : KeepsMarkers (values.forM step) := by
  induction values with
  | nil => exact .pure _
  | cons value rest ih => exact (each value).bind fun _ => ih

private theorem adaptExcept (keeps : KeepsMarkers step) (change : Error → Error) :
    KeepsMarkers (step.adaptExcept change) := by
  intro markers
  have kept := keeps markers
  unfold Markers.after EStateM.adaptExcept at *
  cases run : step markers with
  | ok | error => simpa only [run] using kept

end KeepsMarkers

/-- A walk keeps markers if its requests do. -/
theorem walkDefinition_keeps {rules : Rules Markers}
    (requests : ∀ name, KeepsMarkers (rules.request name)) (e : Expression) (name : String) :
    KeepsMarkers (walkDefinition rules e name) := by
  rw [(walkDefinition_records rules e name).replays]
  cases walkDefinition (recording rules.table rules.rowLimit) e name [] with
  | ok ids asked => exact (KeepsMarkers.forM requests).bind fun _ => .pure ids
  | error error asked => exact (KeepsMarkers.forM requests).bind fun _ => .throw error

/-! ### Checks -/

section

variable {table : Table} {rowLimit : Nat} {name : String} {markers : Markers}

private theorem process_after (rules : Rules Markers) (definition : Definition)
    (markers : Markers) :
    markers.after (process rules definition) =
      ((markers.set definition.name .processing).after
        (walkDefinition rules definition.expression definition.name)).set definition.name .done := by
  unfold Markers.after process
  cases walkDefinition rules definition.expression definition.name
      (markers.set definition.name .processing) with
  | ok | error => rfl

/-- A visit processes a definition that has only been discovered, and else changes nothing. -/
theorem visit_after {definition : Definition} (found : table.find? name = some definition)
    (next : Definition → EStateM Error Markers Unit) (markers : Markers) :
    markers.after (visit table name next) =
      if markers.get name = .discovered then markers.after (next definition) else markers := by
  unfold Markers.after visit
  simp only [found, get_bind]
  cases markers.get name with
  | discovered | processing | done => rfl

private theorem visit_keeps {next : Definition → EStateM Error Markers Unit}
    (processed : ∀ (definition : Definition) (markers : Markers),
      table.find? name = some definition → markers.get name = .discovered →
        markers.Leads (markers.after (next definition))) :
    KeepsMarkers (visit table name next) := by
  intro markers
  cases found : table.find? name with
  | none =>
    unfold Markers.after visit
    rw [found]
    exact .refl markers
  | some definition =>
    rw [visit_after found]
    split_ifs with fresh
    · exact processed definition markers found fresh
    · exact .refl markers

/-- The induction is on the budget, that is on how deep walks may still nest. -/
theorem checkWithin_keeps (table : Table) (rowLimit budget : Nat) (name : String) :
    KeepsMarkers (checkWithin table rowLimit budget name) := by
  induction budget generalizing name with
  | zero => exact visit_keeps fun _ markers _ _ => .refl markers
  | succ budget ih =>
    refine visit_keeps fun definition markers found fresh => ?_
    rw [process_after, Table.name_of_find? found]
    exact Markers.Leads.around fresh (walkDefinition_keeps ih _ _ _)

/-- A definition that is asked for is done afterwards, unless it is being processed. -/
theorem checkSymbol_done_after (known : name ∈ table.names)
    (idle : markers.get name ≠ .processing) (rowLimit : Nat) :
    (markers.after (checkSymbol table rowLimit name)).get name = .done := by
  obtain ⟨definition, found⟩ := Table.mem_names_iff.mp known
  obtain ⟨budget, enough⟩ : ∃ budget, table.size = budget + 1 := by
    refine Nat.exists_eq_add_one.mpr ?_
    rw [Catalog.names] at known
    simpa [Catalog.size] using List.length_pos_of_mem known
  unfold checkSymbol
  rw [enough]
  unfold checkWithin
  rw [visit_after found]
  split_ifs with fresh
  · rw [process_after, Table.name_of_find? found, Markers.get_set_self]
  · cases marked : markers.get name with
    | discovered => exact absurd marked fresh
    | processing => exact absurd marked idle
    | done => rfl

private theorem checkSymbol_processing (known : name ∈ table.names)
    (marked : markers.get name = .processing) (rowLimit : Nat) :
    checkSymbol table rowLimit name markers = .error (.cycle name) markers := by
  obtain ⟨definition, found⟩ := Table.mem_names_iff.mp known
  unfold checkSymbol
  cases table.size <;> (unfold checkWithin visit; simp only [found, get_bind, marked]; rfl)

private theorem checkInstance_keeps (table : Table) (rowLimit : Nat) (inst : Expression)
    (name : String) : KeepsMarkers (checkInstance table rowLimit inst name) := by
  have walks : KeepsMarkers (walkDefinition (tableRules table rowLimit) inst name) :=
    walkDefinition_keeps (checkWithin_keeps table rowLimit table.size) inst name
  unfold checkInstance
  refine .check ((walks.adaptExcept _).bind fun ids => ?_)
  cases ids with
  | some ids => exact .pure ids
  | none => exact .throw _

end

/-! ### Calls one after the other -/

/-- A call of a check: of one definition, of all of them, or of a tree under some name. Every call
may have a row limit of its own. -/
inductive CheckCall where
  | symbol (rowLimit : Nat) (name : String)
  | all (rowLimit : Nat)
  | tree (rowLimit : Nat) (inst : Expression) (name : String)

namespace CheckCall

def after (table : Table) (markers : Markers) : CheckCall → Markers
  | .symbol rowLimit name => markers.after (checkSymbol table rowLimit name)
  | .all rowLimit => markers.after (checkAll table rowLimit)
  | .tree rowLimit inst name => markers.after (checkInstance table rowLimit inst name)

/-- A definition that a call asks for by its name. When all definitions are checked, a definition is
asked for if the checks of those before it have all succeeded. -/
def Asks (table : Table) (markers : Markers) : CheckCall → String → Prop
  | .symbol _ asked, name => name = asked
  | .all rowLimit, name => ∃ before rest reached, table.names = before ++ name :: rest ∧
      Runs (checkSymbol table rowLimit) before markers reached
  | .tree _ _ _, _ => False

variable {table : Table} {markers : Markers}

private theorem after_leads (table : Table) (markers : Markers) (call : CheckCall) :
    markers.Leads (call.after table markers) := by
  cases call with
  | symbol rowLimit name => exact checkWithin_keeps table rowLimit table.size name markers
  | all rowLimit => exact KeepsMarkers.forM (checkWithin_keeps table rowLimit table.size) markers
  | tree rowLimit inst name => exact checkInstance_keeps table rowLimit inst name markers

private theorem run_leads (table : Table) (markers : Markers) (calls : List CheckCall) :
    markers.Leads (calls.foldl (CheckCall.after table) markers) := by
  induction calls generalizing markers with
  | nil => exact .refl markers
  | cons call rest ih => exact (call.after_leads table markers).trans (ih _)

private theorem runs_lead {rowLimit : Nat} {asked : List String} {markers' : Markers}
    (runs : Runs (checkSymbol table rowLimit) asked markers markers') : markers.Leads markers' := by
  have keeps : KeepsMarkers (asked.forM (checkSymbol table rowLimit)) :=
    .forM (checkWithin_keeps table rowLimit table.size)
  have leads := keeps markers
  unfold Markers.after at leads
  rwa [forM_ok.mpr runs] at leads

private theorem Asks.done_after {call : CheckCall} {name : String}
    (asks : call.Asks table markers name) (known : name ∈ table.names)
    (idle : markers.get name ≠ .processing) : (call.after table markers).get name = .done := by
  cases call with
  | symbol rowLimit asked =>
    obtain rfl : name = asked := asks
    exact checkSymbol_done_after known idle rowLimit
  | all rowLimit =>
    obtain ⟨before, rest, reached, order, runs⟩ := asks
    have free : reached.get name ≠ .processing := mt ((runs_lead runs).processing name).mp idle
    -- the check of this definition, and behind it those of the rest
    have done := checkSymbol_done_after known free rowLimit
    have later : ∀ _ : PUnit, KeepsMarkers (rest.forM (checkSymbol table rowLimit)) :=
      fun _ => .forM (checkWithin_keeps table rowLimit table.size)
    have inOrder : checkAll table rowLimit = before.forM (checkSymbol table rowLimit) >>= fun _ =>
        checkSymbol table rowLimit name >>= fun _ => rest.forM (checkSymbol table rowLimit) := by
      rw [checkAll, order]
      exact List.forM_append
    show (markers.after (checkAll table rowLimit)).get name = .done
    rw [inOrder, Markers.after_bind_ok (forM_ok.mpr runs)]
    exact (KeepsMarkers.behind later _ reached).done name done
  | tree rowLimit inst asked => exact asks.elim

end CheckCall

/-- **Markers never leak.** Whatever the markers are and whatever becomes of a call, what was being
processed or done stays so, and what had only been discovered is either that or done afterwards; a
definition of the table that is asked for is done. Asking for a definition that is being processed is
a cycle. So if no definition is being processed at first, none is after any number of calls. -/
theorem checks_keep_markers (table : Table) (markers : Markers) :
    (∀ (call : CheckCall) (name : String),
      (markers.get name = .processing → (call.after table markers).get name = .processing) ∧
      (markers.get name = .done → (call.after table markers).get name = .done) ∧
      (markers.get name = .discovered → (call.after table markers).get name = .discovered ∨
        (call.after table markers).get name = .done) ∧
      (markers.get name = .discovered → name ∈ table.names → call.Asks table markers name →
        (call.after table markers).get name = .done)) ∧
    (∀ rowLimit, ∀ name ∈ table.names, markers.get name = .processing →
      checkSymbol table rowLimit name markers = .error (.cycle name) markers) ∧
    ∀ calls : List CheckCall, (∀ name ∈ table.names, markers.get name ≠ .processing) →
      ∀ name ∈ table.names, (calls.foldl (CheckCall.after table) markers).get name ≠ .processing := by
  refine ⟨fun call name => ?_, ?_, ?_⟩
  · have leads := call.after_leads table markers
    refine ⟨(leads.processing name).mpr, leads.done name, ?_, ?_⟩
    · intro fresh
      cases marked : (call.after table markers).get name with
      | discovered => exact .inl rfl
      | done => exact .inr rfl
      | processing =>
        have before := (leads.processing name).mp marked
        rw [fresh] at before
        cases before
    · intro fresh known asks
      exact asks.done_after known (by simp [fresh])
  · exact fun rowLimit name known marked => checkSymbol_processing known marked rowLimit
  · intro calls idle name known marked
    exact idle name known ((CheckCall.run_leads table markers calls).processing name |>.mp marked)

/-- Two definitions, each of the kind that the other one defines. -/
def crossTable : Table :=
  { definitions := [⟨"first", ⟨1, none, "second", [("defines", .text "first")]⟩⟩,
      ⟨"second", ⟨2, none, "first", [("defines", .text "second")]⟩⟩]
    places := [("first", 0), ("second", 1)] }

theorem checks_keep_markers_cross :
    let markers := Markers.set {} "second" .processing
    let call := CheckCall.symbol 10 "first"
    (call.after crossTable markers).get "second" = .processing ∧
      (call.after crossTable markers).get "first" = .done ∧
      checkSymbol crossTable 10 "second" markers = .error (.cycle "second") markers := by
  intro markers call
  obtain ⟨frame, cycles, -⟩ := checks_keep_markers crossTable markers
  exact ⟨(frame call "second").1 (by decide), (frame call "first").2.2.2 (by decide) (by decide) rfl,
    cycles 10 "second" (by decide) (by decide)⟩

end Pagewright
