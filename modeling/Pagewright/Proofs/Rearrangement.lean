import Pagewright.Proofs.AnalysisComplete
import Pagewright.Proofs.CoherentExports
import Pagewright.Proofs.ReferencedFiles
import Pagewright.Proofs.Renumbering

/-!
# Definitions can be read in any order

What an analysis gives depends on the definitions alone. Two sessions that have
read the same definitions, in other orders, from other sources and with other
calls in between, succeed or fail together, and what they export under a name
differs in identifiers only. The main result is `analysis_order_irrelevant`.
-/

namespace Pagewright

open Outcome

variable {plan other : Plan} {second first session session' first' second' : Session}
  {table : Table} {set set' : ExportSet} {name : String} {expressions : List Expression}
  {root root' : Expression}

/-! ### Plans that are alike -/

private theorem Plan.HasInstance.alike (plans : plan.Alike other) {inst : Expression}
    (instances : plan.HasInstance name inst) : other.HasInstance name inst := by
  obtain ⟨depth, inst', found, same⟩ := instances
  obtain ⟨inst'', found', same'⟩ := standalone_alike plans le_rfl found
  exact ⟨depth, inst'', found', Eq.trans same same'⟩

private theorem Plan.Alike.pageFiles (plans : plan.Alike other) (page : Expression) :
    plan.pageFiles page = other.pageFiles page := by
  unfold Plan.pageFiles Plan.additional
  rw [plans.defaultScripts]

private theorem Plan.Needs.alike (plans : plan.Alike other) {file : String}
    (needs : plan.Needs name file) : other.Needs name file := by
  obtain ⟨inst, instances, page, named⟩ := needs
  exact ⟨inst, instances.alike plans, page, plans.pageFiles inst ▸ named⟩

theorem Plan.exported_of_outline {first second : Expression} (same : SameOutline first second) :
    SameOutline (plan.exported first) (plan.exported second) := by
  unfold Plan.exported
  rw [Expression.kind_of_outline same]
  split_ifs with page
  · unfold Plan.withScripts
    rw [Expression.texts_of_outline same]
    exact Expression.outline_set same _ rfl
  · exact same

private theorem Plan.Exports.alike (plans : plan.Alike other) (exported : plan.Exports name root)
    (exported' : other.Exports name root') : SameOutline root root' := by
  obtain ⟨inst, instances, rfl⟩ := exported
  obtain ⟨inst', instances', rfl⟩ := exported'
  have scripts : plan.exported inst = other.exported inst := by
    unfold Plan.exported Plan.withScripts Plan.additional
    rw [plans.defaultScripts]
  rw [scripts]
  exact Plan.exported_of_outline ((instances.alike plans).unique instances')

/-! ### Sessions that have read the same -/

/-- Sessions of one configuration that have read the same expressions, up to identifiers, in some
order. -/
structure Session.Rearranges (first second : Session) : Prop where
  config : first.config = second.config
  expressions : (first.expressions.map Expression.outline).Perm
    (second.expressions.map Expression.outline)

theorem Session.Rearranges.symm (same : first.Rearranges second) : second.Rearranges first :=
  ⟨same.config.symm, same.expressions.symm⟩

@[simp] theorem Expression.defines?_outline (e : Expression) : e.outline.defines? = e.defines? := by
  simp [Expression.defines?, Expression.outline]

@[simp] theorem Expression.isGeneric_outline (e : Expression) :
    e.outline.isGeneric = e.isGeneric := by
  simp [Expression.outline]

private theorem Definable.rearranged {others : List Expression}
    (same : (expressions.map Expression.outline).Perm (others.map Expression.outline))
    (definable : Definable expressions) : Definable others := by
  constructor
  · intro e member
    have among := same.mem_iff.mpr (List.mem_map_of_mem member)
    obtain ⟨counterpart, there, outlines⟩ := List.mem_map.mp among
    obtain ⟨name, defines, identifier⟩ := definable.named counterpart there
    refine ⟨name, ?_, identifier⟩
    rw [← Expression.defines?_outline, ← outlines, Expression.defines?_outline, defines]
  · have names : ∀ es : List Expression, es.filterMap Expression.defines? =
        (es.map Expression.outline).filterMap Expression.defines? := by
      intro es
      simp [List.filterMap_map]
    have distinct := definable.distinct
    rw [names] at distinct ⊢
    exact (same.filterMap _).nodup_iff.mp distinct

/-- The definitions of a table are told by the outlines of its expressions. -/
theorem Table.Holds.outlines (holds : table.Holds expressions) :
    table.definitions.map Definition.outline =
      (expressions.map Expression.outline).map fun e => ⟨e.defines?.getD "", e⟩ := by
  rw [← holds.expressions, List.map_map, List.map_map]
  apply List.map_congr_left
  intro definition member
  have named : definition.expression.defines? = some definition.name :=
    Expression.defines?_eq_some.mpr (holds.named definition member)
  simp [Definition.outline, named]

private theorem Session.Rearranges.tables (same : first.Rearranges second)
    (made : Table.ofExpressions first.expressions = .ok table) :
    ∃ table', Table.ofExpressions second.expressions = .ok table' ∧ table.Reorders table' := by
  have holds := Table.ofExpressions_holds made
  obtain ⟨table', made'⟩ := (holds.definable.rearranged same.expressions).makes_table
  have holds' := Table.ofExpressions_holds made'
  refine ⟨table', made', ?_⟩
  unfold Table.Reorders
  rw [holds.outlines, holds'.outlines]
  exact same.expressions.map _

private theorem Table.Reorders.exportNames {other : Table} (reorders : table.Reorders other) :
    table.exportNames.Perm other.exportNames := by
  have names : ∀ table : Table, table.exportNames =
      ((table.definitions.map Definition.outline).filter fun definition =>
        !definition.expression.isGeneric).map Definition.name := by
    intro table
    simp [Table.exportNames, List.filter_map, Function.comp_def, Definition.outline]
  rw [names, names]
  exact (reorders.filter _).map _

private theorem Session.Rearranges.alike (same : first.Rearranges second) {other : Table}
    (reorders : table.Reorders other) (distinct : table.names.Nodup) :
    (Session.plan first.config table).Alike (Session.plan second.config other) := by
  rw [same.config]
  exact ⟨reorders.alike distinct, rfl, rfl⟩

/-- Such sessions succeed together. -/
theorem Session.Rearranges.succeeds (same : first.Rearranges second)
    (run : ∃ set session', Session.analyze first = .ok set session') :
    ∃ set session', Session.analyze second = .ok set session' := by
  obtain ⟨table, made, clear, possible⟩ := Session.analyze_succeeds_iff.mp run
  obtain ⟨other, made', reorders⟩ := same.tables made
  have distinct := (Table.ofExpressions_holds made).distinct
  have plans := same.alike reorders distinct
  apply Session.analyze_succeeds_iff.mpr
  refine ⟨other, made', ?_, ?_⟩
  · rw [← same.config]
    exact (reorders.alike distinct).clear clear
  · intro name member
    obtain ⟨inst, instances⟩ := possible name (reorders.exportNames.mem_iff.mpr member)
    exact ⟨inst, instances.alike plans⟩

/-- And the files that their exports name are the same. -/
theorem Session.Rearranges.files (same : first.Rearranges second)
    (run : Session.analyze first = .ok set first')
    (run' : Session.analyze second = .ok set' second') : set.files = set'.files := by
  obtain ⟨table, made, increasing, named⟩ := Session.analyze_files run
  obtain ⟨table', made', increasing', named'⟩ := Session.analyze_files run'
  obtain ⟨other, made'', reorders⟩ := same.tables made
  rw [made'] at made''
  cases made''
  have plans := same.alike reorders (Table.ofExpressions_holds made).distinct
  have back := same.symm.alike reorders.symm (Table.ofExpressions_holds made').distinct
  refine eq_of_increasing increasing increasing' fun file => ?_
  rw [named, named']
  constructor
  · rintro ⟨name, member, needs⟩
    exact ⟨name, reorders.exportNames.mem_iff.mp member, needs.alike plans⟩
  · rintro ⟨name, member, needs⟩
    exact ⟨name, reorders.exportNames.mem_iff.mpr member, needs.alike back⟩

/-! ### Exports by name -/

/-- The names of the definitions without parameters, in the order in which they were read. -/
def Session.exportOrder (session : Session) : List String :=
  (session.expressions.filter fun e => !e.isGeneric).filterMap Expression.defines?

def Session.exportOf (session : Session) (set : ExportSet) (name : String) : Option Expression :=
  (session.exportOrder.zip set.exports).lookup name

/-- `root` is what becomes of the definition `name` of a session. -/
def Session.Exports (session : Session) (name : String) (root : Expression) : Prop :=
  ∃ table, Table.ofExpressions session.expressions = .ok table ∧
    (Session.plan session.config table).Exports name root

/-- What is exported can be read off the expressions of a session. -/
theorem Table.Holds.exportNames_eq (holds : table.Holds session.expressions) :
    table.exportNames = session.exportOrder := by
  unfold Session.exportOrder Table.exportNames
  rw [← holds.expressions, List.filter_map]
  exact (filterMap_defines? fun definition among =>
    holds.named definition (List.mem_of_mem_filter among)).symm

private theorem Session.exportOrder_distinct
    (made : Table.ofExpressions session.expressions = .ok table) : session.exportOrder.Nodup := by
  have holds := Table.ofExpressions_holds made
  rw [← holds.exportNames_eq]
  exact holds.distinct.sublist table.exportNames_sublist

/-- Exports stand in the order of definition, and none has the name of another definition. -/
theorem Session.Reachable.exports_follow (reachable : session.Reachable)
    (run : Session.analyze session = .ok set session') :
    List.Forall₂ (fun name root => session.Exports name root ∧
      (root.defines? = none ∨ root.defines? = some name)) session.exportOrder set.exports := by
  obtain ⟨table, made, checked, exports⟩ := reachable.analyze_sound run
  rw [← (Table.ofExpressions_holds made).exportNames_eq]
  refine exports.imp ?_
  intro name root exported
  refine ⟨⟨table, made, exported⟩, ?_⟩
  obtain ⟨inst, instances, rfl⟩ := exported
  rw [Plan.exported_defines?]
  exact instances.defines checked

theorem forall₂_of_common {α β γ : Type} {r : α → β → Prop} {s : α → γ → Prop} {t : β → γ → Prop}
    (join : ∀ x y z, r x y → s x z → t y z) {xs : List α} {ys : List β} {zs : List γ}
    (left : List.Forall₂ r xs ys) (right : List.Forall₂ s xs zs) : List.Forall₂ t ys zs := by
  induction left generalizing zs with
  | nil =>
    cases right
    exact .nil
  | cons first _ ih =>
    cases right with
    | cons second rest => exact .cons (join _ _ _ first second) (ih rest)

private theorem Session.Exports.rearranged (same : first.Rearranges second)
    (exported : first.Exports name root) (exported' : second.Exports name root') :
    SameOutline root root' := by
  obtain ⟨table, made, exported⟩ := exported
  obtain ⟨table', made', exported'⟩ := exported'
  obtain ⟨other, made'', reorders⟩ := same.tables made
  rw [made'] at made''
  cases made''
  exact exported.alike (same.alike reorders (Table.ofExpressions_holds made).distinct) exported'

/-- The exports of the second session in the order of the first. -/
theorem Session.Rearranges.aligned (same : first.Rearranges second) (reachable : first.Reachable)
    (reachable' : second.Reachable) (run : Session.analyze first = .ok set first')
    (run' : Session.analyze second = .ok set' second') :
    ∃ aligned, List.Forall₂ SameOutline set.exports aligned ∧ aligned.Perm set'.exports ∧
      ∀ name, second.exportOf set' name = (first.exportOrder.zip aligned).lookup name := by
  obtain ⟨table, made, -⟩ := Session.analyze_sound run
  obtain ⟨table', made', reorders⟩ := same.tables made
  have distinct := Session.exportOrder_distinct made
  have distinct' := Session.exportOrder_distinct made'
  have order : first.exportOrder.Perm second.exportOrder := by
    rw [← (Table.ofExpressions_holds made).exportNames_eq,
      ← (Table.ofExpressions_holds made').exportNames_eq]
    exact reorders.exportNames
  have follow := reachable.exports_follow run
  have follow' := reachable'.exports_follow run'
  -- where a root stands is kept with what it is, so that it is found again
  let placed : String → Expression → Prop := fun name root =>
    (name, root) ∈ second.exportOrder.zip set'.exports ∧ second.Exports name root
  have all : List.Forall₂ placed second.exportOrder set'.exports := by
    rw [List.forall₂_iff_zip]
    refine ⟨follow'.length_eq, ?_⟩
    intro name root member
    exact ⟨member, ((List.forall₂_iff_zip.mp follow').2 member).1⟩
  obtain ⟨aligned, matched, perm⟩ := List.perm_comp_forall₂ order all
  refine ⟨aligned, ?_, perm, ?_⟩
  · apply forall₂_of_common _ follow matched
    rintro name root root' ⟨exported, -⟩ ⟨-, exported'⟩
    exact exported.rearranged same exported'
  · intro name
    have keys := List.map_fst_zip (le_of_eq matched.length_eq)
    have keys' := List.map_fst_zip (le_of_eq follow'.length_eq)
    by_cases known : name ∈ first.exportOrder
    · obtain ⟨root, member⟩ := exists_zip_of_mem matched known
      have there := ((List.forall₂_iff_zip.mp matched).2 member).1
      rw [Entries.lookup_of_distinct (keys.symm ▸ distinct) member]
      exact Entries.lookup_of_distinct (keys'.symm ▸ distinct') there
    · have unknown : name ∉ second.exportOrder := fun member => known (order.mem_iff.mpr member)
      have missing : ∀ {names : List String} {roots : List Expression},
          (names.zip roots).map Prod.fst = names → name ∉ names →
            (names.zip roots).lookup name = none := by
        intro names roots keys unknown
        rw [List.lookup_eq_none_iff]
        intro entry member
        have among : entry.1 ∈ names := keys ▸ List.mem_map_of_mem member
        simpa using fun equal : name = entry.1 => unknown (equal ▸ among)
      rw [missing keys known]
      exact missing keys' unknown

private theorem lookup_zip_map (change : Expression → Expression) (name : String)
    (names : List String) (roots : List Expression) :
    (names.zip (roots.map change)).lookup name = ((names.zip roots).lookup name).map change := by
  induction names generalizing roots with
  | nil => rfl
  | cons first rest ih =>
    cases roots with
    | nil => rfl
    | cons root roots =>
      simp only [List.map_cons, List.zip_cons_cons]
      by_cases same : name = first
      · subst same
        simp
      · rw [Entries.lookup_cons_of_ne same, Entries.lookup_cons_of_ne same, ih]

/-- Exports that are resolved can be renumbered, as long as identifiers have not come round. -/
theorem Session.exports_neat (run : Session.analyze session = .ok set session')
    (resolved : ∀ root ∈ set.exports, root.Throughout Expression.IsResolved)
    (fits : session'.ids.next ≤ UInt32.size) :
    (∀ root ∈ set.exports, root.parent = none ∧ root.Throughout Expression.IsNeat) ∧
      set.ids = blockIds false set.exports ∧ (blockIds false set.exports).Nodup := by
  obtain ⟨-, fresh, roots⟩ := Session.analyze_linked run
  refine ⟨?_, blockIds_of_resolved resolved, Multiset.nodup_of_le fresh (issued_nodup fits)⟩
  intro root member
  obtain ⟨free, linked⟩ := roots root member
  exact ⟨free, fun inner below => ⟨linked inner below, resolved root member inner below⟩⟩

private theorem Session.Reachable.exports_neat (reachable : session.Reachable)
    (run : Session.analyze session = .ok set session') (fits : session'.ids.next ≤ UInt32.size) :
    (∀ root ∈ set.exports, root.parent = none ∧ root.Throughout Expression.IsNeat) ∧
      set.ids = blockIds false set.exports ∧ (blockIds false set.exports).Nodup := by
  obtain ⟨-, -, roots⟩ := reachable.analyze_coherent run
  exact Session.exports_neat run (fun root member => (roots root member).1) fits

/-- **The order of definitions is irrelevant.** Sessions of one configuration that have read the same
expressions, in whatever order and with whatever else happening in between, succeed together. Then,
as long as identifiers have not come round, one injective change of identifiers turns the export of
every definition in the first into its export in the second; the files are the same, and each follows
its own order of definitions. -/
theorem analysis_order_irrelevant {first second : Session} (reachable : first.Reachable)
    (reachable' : second.Reachable) (same : first.Rearranges second) :
    ((∃ set first', Session.analyze first = .ok set first') ↔
        ∃ set second', Session.analyze second = .ok set second') ∧
      ∀ set first' set' second', Session.analyze first = .ok set first' →
        Session.analyze second = .ok set' second' → first'.ids.next ≤ UInt32.size →
        second'.ids.next ≤ UInt32.size →
        (∃ change, Set.InjOn change {id | id ∈ set.ids} ∧ ∀ name,
          second.exportOf set' name =
            (first.exportOf set name).map (Expression.renumber change)) ∧
        set.files = set'.files ∧
        List.Forall₂ (fun name root => first.Exports name root ∧
          (root.defines? = none ∨ root.defines? = some name)) first.exportOrder set.exports ∧
        List.Forall₂ (fun name root => second.Exports name root ∧
          (root.defines? = none ∨ root.defines? = some name)) second.exportOrder set'.exports := by
  refine ⟨⟨same.succeeds, same.symm.succeeds⟩, ?_⟩
  intro set first' set' second' run run' fits fits'
  refine ⟨?_, same.files run run', reachable.exports_follow run, reachable'.exports_follow run'⟩
  obtain ⟨aligned, outlines, perm, found⟩ := same.aligned reachable reachable' run run'
  obtain ⟨neat, listed, distinct⟩ := reachable.exports_neat run fits
  obtain ⟨neat', -, distinct'⟩ := reachable'.exports_neat run' fits'
  have counted : blockIds false aligned = blockIds false set'.exports := by
    rw [blockIds_eq, blockIds_eq]
    exact (perm.map _).sum_eq
  obtain ⟨change, injective, renumbered⟩ := exists_renumbering outlines neat
    (fun root member => neat' root (perm.mem_iff.mp member)) distinct (counted ▸ distinct')
  refine ⟨change, listed ▸ injective, ?_⟩
  intro name
  rw [found name, ← renumbered]
  exact lookup_zip_map _ name _ _

def rowSource : String :=
  "p defines: \"row\"\n"

def pageSource : String :=
  "page defines: \"top\", scripts: [\"a\"], body: \x7b list id: \"b\", type: \"row\", initial: 1 \x7d"

def forwardSession : Session :=
  (Transcript.run {} [.parse (rowSource ++ pageSource)]).session

/-- The page is read first, and in between an analysis and a reading fail. -/
def backwardSession : Session :=
  (Transcript.run {} [.parse pageSource, .analyze, .parse "(p", .parse rowSource]).session

theorem analysis_order_irrelevant_backward :
    forwardSession.exportOrder = ["row", "top"] ∧ backwardSession.exportOrder = ["top", "row"] ∧
      ∃ set forward set' backward, Session.analyze forwardSession = .ok set forward ∧
        Session.analyze backwardSession = .ok set' backward ∧ set.files = ["a"] ∧
        set'.files = ["a"] ∧ ∃ change, Set.InjOn change {id | id ∈ set.ids} ∧ ∀ name,
          backwardSession.exportOf set' name =
            (forwardSession.exportOf set name).map (Expression.renumber change) := by
  have evaluated : (forwardSession.config = backwardSession.config ∧
      (forwardSession.expressions.map Expression.outline).Perm
        (backwardSession.expressions.map Expression.outline)) ∧
      (forwardSession.exportOrder = ["row", "top"] ∧ backwardSession.exportOrder = ["top", "row"]) ∧
      forwardSession.exportSet?.map ExportSet.files = some ["a"] ∧
      (forwardSession.after Session.analyze).ids.next ≤ UInt32.size ∧
      (backwardSession.after Session.analyze).ids.next ≤ UInt32.size := by
    decide +kernel
  obtain ⟨⟨config, expressions⟩, ⟨order, order'⟩, files, bound, bound'⟩ := evaluated
  have reachable : forwardSession.Reachable := (Transcript.run_accounted _ _).reachable
  have reachable' : backwardSession.Reachable := (Transcript.run_accounted _ _).reachable
  obtain ⟨together, results⟩ := analysis_order_irrelevant reachable reachable' ⟨config, expressions⟩
  obtain ⟨set, found, named⟩ := Option.map_eq_some_iff.mp files
  obtain ⟨forward, run⟩ := Session.exportSet?_eq_some.mp found
  obtain ⟨set', backward, run'⟩ := together.mp ⟨set, forward, run⟩
  unfold Session.after at bound bound'
  rw [run] at bound
  rw [run'] at bound'
  obtain ⟨renumbered, equal, -⟩ := results set forward set' backward run run' bound bound'
  rw [named] at equal
  exact ⟨order, order', set, forward, set', backward, run, run', named, equal.symm, renumbered⟩

end Pagewright
