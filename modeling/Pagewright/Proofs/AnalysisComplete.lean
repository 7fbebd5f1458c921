import Pagewright.Proofs.Exports
import Pagewright.Proofs.Rebuilding
import Pagewright.Proofs.Reordering

/-!
# When an analysis succeeds

Expressions make a table if each of them defines an identifier and no two define
the same. A table that clears passes its check, and if every definition without
parameters has an instance then all of them can be built one after the other,
whatever was built before. So an analysis succeeds exactly if these three hold
(`Session.analyze_succeeds_iff`). None of them mentions an order or a state.
-/

namespace Pagewright

open Outcome

variable {table : Table} {name : String} {expressions : List Expression} {e : Expression}
  {w : Workshop}

/-! ### Making the table -/

theorem Expression.defines?_eq_some :
    e.defines? = some name ↔ e.get? "defines" = some (.text name) :=
  Expression.text?_eq_some

private theorem Table.define_complete (defines : e.defines? = some name)
    (identifier : isIdentifier name = true) (fresh : name ∉ table.names) :
    ∃ table', table.define e = .ok table' ∧ table'.names = table.names ++ [name] := by
  refine ⟨⟨_, table.indexed.add ⟨name, e⟩⟩, Table.define_ok.mpr ?_, by simp [Catalog.names]⟩
  exact ⟨name, Expression.defines?_eq_some.mp defines, identifier, fresh, rfl⟩

/-- Expressions that each define an identifier, all of them different. -/
structure Definable (expressions : List Expression) : Prop where
  named : ∀ e ∈ expressions, ∃ name, e.defines? = some name ∧ isIdentifier name = true
  distinct : (expressions.filterMap Expression.defines?).Nodup

/-- Definitions are named by what their expressions define. -/
theorem filterMap_defines? {definitions : List Definition}
    (named : ∀ definition ∈ definitions,
      definition.expression.get? "defines" = some (.text definition.name)) :
    (definitions.map Definition.expression).filterMap Expression.defines? =
      definitions.map Definition.name := by
  rw [List.filterMap_map, ← List.filterMap_eq_map]
  refine List.filterMap_congr fun definition among => ?_
  exact Expression.defines?_eq_some.mpr (named definition among)

theorem Table.Holds.names_eq (holds : table.Holds expressions) :
    table.names = expressions.filterMap Expression.defines? := by
  rw [← holds.expressions, filterMap_defines? holds.named]
  rfl

theorem Table.Holds.definable (holds : table.Holds expressions) : Definable expressions := by
  constructor
  · intro e member
    rw [← holds.expressions] at member
    obtain ⟨definition, among, rfl⟩ := List.mem_map.mp member
    refine ⟨definition.name, Expression.defines?_eq_some.mpr (holds.named definition among), ?_⟩
    exact holds.identifiers definition.name (List.mem_map_of_mem among)
  · rw [← holds.names_eq]
    exact holds.distinct

theorem Definable.makes_table (definable : Definable expressions) :
    ∃ table, Table.ofExpressions expressions = .ok table := by
  have general : ∀ (rest : List Expression) (start : Table),
      (∀ e ∈ rest, ∃ name, e.defines? = some name ∧ isIdentifier name = true) →
      (start.names ++ rest.filterMap Expression.defines?).Nodup →
      ∃ table, rest.foldlM Table.define start = .ok table := by
    intro rest
    induction rest with
    | nil => exact fun start _ _ => ⟨start, rfl⟩
    | cons e rest ih =>
      intro start named distinct
      obtain ⟨name, defines, identifier⟩ := named e List.mem_cons_self
      rw [List.filterMap_cons_some defines] at distinct
      have fresh : name ∉ start.names := by
        intro member
        exact (List.nodup_append.mp distinct).2.2 name member name List.mem_cons_self rfl
      obtain ⟨next, defined, names⟩ := Table.define_complete defines identifier fresh
      obtain ⟨table, made⟩ := ih next (List.forall_mem_cons.mp named).2
        (by simpa [names] using distinct)
      exact ⟨table, by rw [List.foldlM_cons, except_bind_ok]; exact ⟨_, defined, made⟩⟩
  have distinct := definable.distinct
  exact general expressions {} definable.named (by simpa [Catalog.names] using distinct)

/-! ### Building all exports -/

variable {plan : Plan}

/-- Exactly the definitions without parameters are exported. -/
theorem Table.mem_exportNames (distinct : table.names.Nodup) :
    name ∈ table.exportNames ↔
      ∃ definition, table.find? name = some definition ∧
        definition.expression.isGeneric = false := by
  simp only [Table.exportNames, List.mem_map, List.mem_filter, Table.find?_eq_some_iff distinct,
    Bool.not_eq_true']
  constructor
  · rintro ⟨definition, ⟨member, concrete⟩, named⟩
    exact ⟨definition, ⟨member, named⟩, concrete⟩
  · rintro ⟨definition, ⟨member, named⟩, concrete⟩
    exact ⟨definition, ⟨member, concrete⟩, named⟩

def Plan.CanExport (plan : Plan) : Prop :=
  ∀ name ∈ plan.table.exportNames, ∃ inst, plan.HasInstance name inst

private theorem instantiate_complete (distinct : plan.table.names.Nodup)
    (exported : name ∈ plan.table.exportNames) {inst : Expression}
    (instances : plan.HasInstance name inst) (faithful : w.Faithful plan) (idle : w.building = []) :
    ∃ root w', instantiate plan name w = .ok root w' ∧ w'.Faithful plan ∧ w'.building = [] := by
  obtain ⟨definition, found, concrete⟩ := (Table.mem_exportNames distinct).mp exported
  obtain ⟨depth, alone, standing, -⟩ := instances
  -- nothing is being built, so there is room for everything
  have ready : w.Ready plan depth (plan.table.size + 1) :=
    ⟨faithful, by simp [idle], idle.symm ▸ plan.allows_nil⟩
  obtain ⟨inst', u, built, -, now, still⟩ := buildWithin_complete standing ready
  refine ⟨plan.exported inst', { u with files := plan.withFiles inst' u.files }, ?_, ?_, ?_⟩
  · exact instantiate_ok.mpr ⟨definition, found, concrete, inst', u, built, rfl, rfl⟩
  · exact ⟨⟨now.resolving, now.checked⟩, now.finished⟩
  · exact still.trans idle

private theorem instantiateAll_complete (distinct : plan.table.names.Nodup)
    (possible : plan.CanExport) (faithful : w.Faithful plan) (idle : w.building = []) :
    ∃ roots w', instantiateAll plan w = .ok roots w' := by
  have general : ∀ names : List String, (∀ name ∈ names, name ∈ plan.table.exportNames) →
      ∀ w : Workshop, w.Faithful plan → w.building = [] →
        ∃ roots w', Threads (instantiate plan) names w roots w' := by
    intro names
    induction names with
    | nil => exact fun _ w _ _ => ⟨[], w, .nil w⟩
    | cons name rest ih =>
      intro among w faithful idle
      obtain ⟨first, later⟩ := List.forall_mem_cons.mp among
      obtain ⟨inst, instances⟩ := possible name first
      obtain ⟨root, t, run, now, still⟩ :=
        instantiate_complete distinct first instances faithful idle
      obtain ⟨roots, w', threads⟩ := ih later t now still
      exact ⟨root :: roots, w', .cons run threads⟩
  obtain ⟨roots, w', threads⟩ := general _ (fun _ member => member) w faithful idle
  exact ⟨roots, w', mapM_ok.mpr threads⟩

/-! ### Analysis -/

/-- When an analysis succeeds, without an order and without a state. -/
theorem Session.analyze_succeeds_iff {session : Session} :
    (∃ set session', Session.analyze session = .ok set session') ↔
      ∃ table, Table.ofExpressions session.expressions = .ok table ∧
        table.Clear session.config.maxListRows ∧
        (Session.plan session.config table).CanExport := by
  constructor
  · rintro ⟨set, session', run⟩
    obtain ⟨table, made, clear, exports⟩ := Session.analyze_sound run
    refine ⟨table, made, clear, ?_⟩
    intro name member
    obtain ⟨root, zipped⟩ := exists_zip_of_mem exports member
    obtain ⟨inst, instances, -⟩ := (List.forall₂_iff_zip.mp exports).2 zipped
    exact ⟨inst, instances⟩
  · rintro ⟨table, made, clear, possible⟩
    obtain ⟨markers, checked⟩ := checkAll_complete Markers.fresh_empty clear
    obtain ⟨-, done⟩ := checkAll_sound Markers.fresh_empty checked
    have distinct := (Table.ofExpressions_holds made).distinct
    have faithful : Workshop.Faithful { ids := session.ids, markers }
        (Session.plan session.config table) := ⟨⟨rfl, done⟩, by simp⟩
    obtain ⟨roots, w, instances⟩ := instantiateAll_complete distinct possible faithful rfl
    refine ⟨{ exports := roots, files := w.files }, { session with ids := w.ids }, ?_⟩
    apply Session.analyze_ok.mpr
    refine ⟨table, w, made, ?_, rfl⟩
    exact Session.buildExports_ok.mpr ⟨markers, roots, w, checked, instances, rfl, rfl⟩

end Pagewright
