import Pagewright.Proofs.IdWalks
import Pagewright.Proofs.ItemTypes
import Pagewright.Proofs.PageResources
import Pagewright.Proofs.Rearrangement

/-!
# Analysing exports again

There is nothing left to resolve in an export. If no list is left in it either, it
can be read as a definition again: its check looks at no other definition, and its
instance is a copy of it. So an analysis of the exports of an analysis gives them
once more, with other identifiers. The main result is `analysis_idempotent`.
-/

namespace Pagewright

open Outcome

variable {σ τ : Type} {rules : Rules σ} {plan : Plan} {e root : Expression} {kind : Kind}
  {context : Context} {ids ids' : IdScope} {s s' : σ} {name : String} {table : Table}
  {build : String → Building Expression}

/-! ### Walks without lists -/

def Expression.IsListFree (e : Expression) : Prop :=
  e.Throughout fun inner => inner.kind ≠ "list"

/-- Only the arguments of a list are checked against the table. -/
theorem checkArguments_of_ne_list {subject : Subject} (noList : kind ≠ .list)
    (run : checkArguments rules subject kind context ids s = .ok ids' s') (others : Rules τ)
    (t : τ) : checkArguments others subject kind context ids t = .ok ids' t := by
  cases kind with
  | list => exact absurd rfl noList
  | page | div | form | select | option | label | input | text | h1 | p | span | button =>
    obtain ⟨checked, -⟩ := ofExcept_ok.mp run
    exact ofExcept_ok.mpr ⟨checked, rfl⟩

private theorem walkBlock_of_each {children : List Expression} {others : Rules τ} {t : τ}
    (each : ∀ child ∈ children, ∀ ids ids' s s', walk rules child context ids s = .ok ids' s' →
      walk others child context ids t = .ok ids' t)
    (run : walkBlock rules children context ids s = .ok ids' s') :
    walkBlock others children context ids t = .ok ids' t := by
  induction children generalizing ids s with
  | nil =>
    obtain ⟨rfl, -⟩ := pure_ok.mp run
    rfl
  | cons child rest ih =>
    obtain ⟨option, middle, u, first, later⟩ := walkBlock_cons_ok.mp run
    have here := each child List.mem_cons_self ids middle s u first
    have below := ih (List.forall_mem_cons.mp each).2 later
    exact walkBlock_cons_ok.mpr ⟨option, middle, t, here, below⟩

/-- Without lists and references, a walk gets through under any rules if it does under some, and
makes no request. -/
theorem walk_listFree (strict : context.concrete = true) (writtenOut : e.IsWrittenOut)
    (listFree : e.IsListFree) (run : walk rules e context ids s = .ok ids' s')
    (others : Rules τ) (t : τ) : walk others e context ids t = .ok ids' t := by
  -- by induction on the tree; only the arguments of an expression are checked by the rules
  induction e using Expression.inductionOn generalizing context ids ids' s s' with
  | step owner ih =>
    obtain ⟨-, -, builtIn⟩ := Expression.isConcrete_iff.mp writtenOut.here
    obtain ⟨kind, named⟩ := Option.isSome_iff_exists.mp builtIn
    have noList : kind ≠ .list :=
      fun list => listFree.here ((Kind.eq_iff_of_ofName? named .list).mp list)
    obtain ⟨entered, u, entering, close, content⟩ := walk_ok.mp run
    obtain ⟨nesting, place, styles, classes, declared, stem, after, identified, particular, rfl⟩ :=
      (enter_ok strict writtenOut.here named).mp entering
    have entering' := (enter_ok strict writtenOut.here named).mpr ⟨nesting, place, styles, classes,
      declared, stem, after, identified, checkArguments_of_ne_list noList particular others t, rfl⟩
    refine walk_ok.mpr ⟨_, t, entering', close, walkBlock_contents.mpr ?_⟩
    refine walkBlock_of_each (fun child member ids ids' s s' walked => ?_)
      (walkBlock_contents.mp content)
    obtain ⟨name, held⟩ := Expression.holds_of_contents member
    exact ih name child held rfl (writtenOut.child held) (listFree.child held) walked

/-! ### Definitions that stand alone -/

/-- The definition `name` passes its check whatever else is in the table. -/
def Expression.PassesAlone (e : Expression) (name : String) : Prop :=
  ∃ ids : IdScope, ids.checkTargets = .ok () ∧ ∀ (σ : Type) (rules : Rules σ) (s : σ),
    walk rules e { stem := rootStem e name, concrete := true } {} s = .ok ids s

private theorem Plan.Passes.alone (passes : plan.Passes e name) (writtenOut : e.IsWrittenOut)
    (listFree : e.IsListFree) : e.PassesAlone name := by
  obtain ⟨concrete, asked, demanded, -⟩ := passes
  obtain ⟨result, run⟩ := demands_eq_some.mp demanded
  obtain ⟨ids, walked, targets, -⟩ := (walkDefinition_concrete concrete).mp run
  exact ⟨ids, targets, fun σ rules s => walk_listFree rfl writtenOut listFree walked rules s⟩

private theorem Expression.PassesAlone.demands (alone : e.PassesAlone name)
    (concrete : e.isConcrete = true) (table : Table) (rowLimit : Nat) :
    demands table rowLimit ⟨name, e⟩ = some [] := by
  obtain ⟨ids, targets, walked⟩ := alone
  exact demands_eq_some.mpr
    ⟨some ids, (walkDefinition_concrete concrete).mpr ⟨ids, walked _ _ _, targets, rfl⟩⟩

private theorem Expression.PassesAlone.passes (alone : e.PassesAlone name)
    (concrete : e.isConcrete = true) (plan : Plan) : plan.Passes e name :=
  ⟨concrete, [], alone.demands concrete _ _, by simp⟩

/-- A page may also load the scripts of every page. -/
theorem Expression.MeetsRules.withScripts {limit : Nat} (meets : e.MeetsRules table limit .page) :
    (plan.withScripts e).MeetsRules table limit .page := by
  refine meets.of_get? (fun name apart => Entries.lookup_insert_of_ne _ _ apart) (by decide)
    (.inr ⟨⟨"scripts", .texts, false⟩, by simp [Kind.rules], rfl⟩) fun rule member named => ?_
  have optional : rule = ⟨"scripts", .texts, false⟩ := by
    simp only [Kind.rules, List.mem_cons, List.not_mem_nil, or_false] at member
    rcases member with rfl | rfl | rfl | rfl | rfl <;> simp_all
  subst optional
  refine ⟨fun value found => ?_, by simp⟩
  obtain rfl := Option.some.inj ((Entries.lookup_insert_self _ _ _).symm.trans found)
  refine ⟨_, rfl, fun item among => ?_⟩
  obtain ⟨content, -, rfl⟩ := List.mem_map.mp among
  exact ⟨content, rfl⟩

/-- The scripts of every page do not change whether a definition passes. -/
theorem Expression.PassesAlone.exported (alone : e.PassesAlone name)
    (concrete : e.isConcrete = true) (writtenOut : (plan.exported e).IsWrittenOut)
    (listFree : (plan.exported e).IsListFree) : (plan.exported e).PassesAlone name := by
  obtain ⟨ids, targets, walked⟩ := alone
  -- any rules will do, since the walk gets through under all of them if it does under some
  have run : walk (tableRules {} 0) (plan.exported e)
      { stem := rootStem (plan.exported e) name, concrete := true } {} {} = .ok ids {} := by
    have stem : rootStem (plan.exported e) name = rootStem e name := by
      rw [rootStem, rootStem, Plan.exported_kind]
    rw [stem]
    have done : Markers.AllDone {} {} := by simp [Markers.AllDone, Catalog.names]
    unfold Plan.exported at writtenOut ⊢
    split_ifs with page
    · rw [if_pos page] at writtenOut
      have same : ∀ name, name ≠ "scripts" → (plan.withScripts e).get? name = e.get? name :=
        fun name apart => Entries.lookup_insert_of_ne _ _ apart
      have apart : ∀ name ∈ ["id", "for", "body", "options"], name ≠ "scripts" := by decide
      refine walk_congr done rfl concrete writtenOut.here rfl
        (fun name member => same name (apart name member)) ?_ ?_ (walked _ _ _)
      · intro kind place
        refine ⟨place.page, place.form, place.option, fun linked => ?_⟩
        rw [Expression.has, same "defines" (by decide)]
        exact place.named linked
      · intro kind named meets
        obtain rfl : kind = .page := Kind.eq_of_ofName? named page
        exact meets.withScripts
    · exact walked _ _ _
  exact ⟨ids, targets, fun σ rules s => walk_listFree rfl writtenOut listFree run rules s⟩

/-! ### Instances that are copies -/

private theorem fillLists_listFree (listFree : e.IsListFree) (w : Workshop) :
    fillLists build e w = .ok e w := by
  induction e using Expression.inductionOn with
  | step owner ih =>
    refine fillLists_ok.mpr (.inr ⟨listFree.here, owner.arguments, ?_, by cases owner; rfl⟩)
    refine fillArguments_ok.mpr (Threads.refl fun entry member => ?_)
    refine bind_ok.mpr ⟨entry.2, w, fillArgument_ok.mpr ?_, rfl⟩
    cases block : entry.2.block? with
    | none => exact .inl ⟨rfl, rfl, rfl⟩
    | some children =>
      have isBlock := Argument.eq_block block
      refine .inr ⟨children, children, isBlock, isBlock.symm, Threads.refl fun child inside => ?_⟩
      have held : owner.Holds entry.1 child := ⟨children, isBlock ▸ member, inside⟩
      exact ih entry.1 child held (listFree.child held)

/-- Where no list is left, there was none to fill. -/
theorem fillLists_eq {result : Expression} {w w' : Workshop}
    (run : fillLists build e w = .ok result w') (listFree : result.IsListFree) : result = e := by
  induction e using Expression.inductionOn generalizing result w w' with
  | step owner ih =>
    rcases fillLists_ok.mp run with ⟨list, filled⟩ | ⟨-, after, filled, rfl⟩
    · -- a list stays a list
      rcases fillList_ok.mp filled with ⟨-, rfl, -⟩ | ⟨_, _, _, _, -, -, -, rfl, -⟩
      · exact absurd list listFree.here
      · exact absurd list listFree.here
    · have same : after = owner.arguments := by
        refine (fillArguments_ok.mp filled).eq_of_each ?_
        rintro ⟨name, value⟩ member ⟨_, value'⟩ among s t step
        obtain ⟨_, u, inner, last⟩ := bind_ok.mp step
        cases (pure_ok.mp last).1
        rcases fillArgument_ok.mp inner with ⟨-, rfl, -⟩ | ⟨children, results, rfl, rfl, threads⟩
        · rfl
        · have below : results = children := by
            refine threads.eq_of_each fun child inside other standing _ _ filling => ?_
            exact ih name child ⟨children, member, inside⟩ filling
              (listFree.child ⟨results, among, standing⟩)
          rw [below]
      rw [same]
      cases owner
      rfl

/-! ### Definitions for which nothing is left to do -/

/-- A definition whose instance is a copy of it, whatever else is in the table. -/
structure Expression.IsFinished (e : Expression) (name : String) : Prop where
  resolved : e.Throughout Expression.IsResolved
  tidy : e.Throughout Expression.IsTidy
  listFree : e.IsListFree
  unlinked : e.parent = none
  passes : e.PassesAlone name

private theorem Expression.writtenOut_of_resolved (resolved : e.Throughout Expression.IsResolved) :
    e.IsWrittenOut := by
  intro inner contained
  obtain ⟨builtIn, inherits, parameters, -⟩ := resolved inner contained
  exact Expression.isConcrete_iff.mpr ⟨parameters, inherits, builtIn⟩

/-- Where blocks are bodies and options only, a name hides nothing. -/
theorem Expression.not_hidesId_of_resolved (resolved : e.Throughout Expression.IsResolved) :
    ¬e.HidesId := by
  rintro ⟨owner, child, inner, contained, ⟨children, member, -⟩, -⟩
  have place : "defines" = "body" ∨ "defines" = "options" :=
    (resolved owner contained).final "defines" _ member
  simp at place

namespace Expression.IsFinished

private theorem writtenOut (finished : e.IsFinished name) : e.IsWrittenOut :=
  Expression.writtenOut_of_resolved finished.resolved

private theorem unique (finished : e.IsFinished name) :
    ∃ scope, uniqueIds e (rootStem e name) = .ok scope := by
  obtain ⟨ids, -, walked⟩ := finished.passes
  have closed : e.Throughout Expression.IsClosed := fun inner contained =>
    ⟨(finished.tidy inner contained).ordered, finished.writtenOut inner contained⟩
  obtain ⟨hidden, covers, none_iff⟩ := walk_covers rfl closed (walked _ (tableRules {} 0) {}) none
  obtain rfl := none_iff.mpr (Expression.not_hidesId_of_resolved finished.resolved)
  exact collectIds_succeeds covers.admits

private theorem copy (finished : e.IsFinished name) (supply : Supply) :
    SameOutline e (e.copy none supply).1 := by
  have contents := e.copy_content finished.resolved finished.tidy none supply
  refine Expression.outline_eq_iff.mpr ⟨?_, contents.kinds, contents.arguments⟩
  rw [finished.unlinked, Expression.copy_parent]

variable {definition : Definition}

private theorem clears (finished : definition.expression.IsFinished name)
    (found : table.find? name = some definition) (rowLimit : Nat) :
    Clears table rowLimit 1 name := by
  obtain rfl := Table.name_of_find? found
  have demanded := finished.passes.demands finished.writtenOut.here table rowLimit
  exact ⟨definition, [], found, demanded, by simp⟩

/-- It is its own instance. -/
theorem hasInstance (finished : definition.expression.IsFinished name)
    (found : plan.table.find? name = some definition) :
    plan.HasInstance name definition.expression := by
  have same := finished.copy plan.workshop.ids
  have referred := referTo_writtenOut found finished.writtenOut plan.workshop_atRest.resolving
  have passes := finished.passes.passes finished.writtenOut.here plan
  have listFree : (definition.expression.copy none plan.workshop.ids).1.IsListFree :=
    finished.listFree.copy (fun e parent supply => by simp) none _
  obtain ⟨scope, unique⟩ := finished.unique
  rw [uniqueIds_of_outline same, rootStem, Expression.kind_of_outline same] at unique
  have assembled : assemble plan (supplied (standalone plan 0)) name plan.workshop =
      .ok (definition.expression.copy none plan.workshop.ids).1
        { plan.workshop with ids := (definition.expression.copy none plan.workshop.ids).2 } :=
    (assemble_ok plan.workshop_atRest.checked).mpr ⟨_, _, _, scope, referred,
      passes.alike (.refl plan) same, fillLists_listFree listFree _, unique⟩
  exact ⟨1, _, standalone_succ.mpr ⟨_, assembled⟩, same⟩

end Expression.IsFinished

/-! ### Exports are finished -/

private theorem Plan.listFree_of_exported (resolved : e.IsResolved) (tidy : e.IsTidy)
    (listFree : (plan.exported e).IsListFree) : e.IsListFree := by
  refine Expression.throughout_iff.mpr ⟨plan.exported_kind e ▸ listFree.here, ?_⟩
  intro name child held
  exact listFree.child ((plan.exported_holds resolved tidy).mpr held)

private theorem Plan.Exports.finished (checked : plan.Checked) (exported : plan.Exports name root)
    (listFree : root.IsListFree) : root.IsFinished name := by
  have exportResolved := (exported.resolved checked).2
  obtain ⟨inst, instances, rfl⟩ := exported
  have resolved := instances.resolved checked
  have tidy := instances.tidy checked
  have instFree := plan.listFree_of_exported resolved.here tidy.here listFree
  obtain ⟨build, root, filled, w, w', isRoot, passes, run, same⟩ := instances.root checked
  -- what has been filled is what was checked, as there was no list in it
  have filledFree : filled.IsListFree :=
    instFree.same (fun _ _ contents noList => contents.kinds ▸ noList) same.content
  obtain rfl := fillLists_eq run filledFree
  have unlinked : inst.parent = none := by
    have links := (Expression.outline_eq_iff.mp same).1
    rw [isRoot.unlinked] at links
    exact Option.isNone_iff_eq_none.mp (by simpa using links)
  have instWritten := Expression.writtenOut_of_resolved resolved
  have alone := (passes.alike (.refl plan) (Eq.symm same)).alone instWritten instFree
  refine ⟨exportResolved, plan.exported_tidy tidy, listFree, ?_, ?_⟩
  · unfold Plan.exported
    split_ifs <;> exact unlinked
  · have written := Expression.writtenOut_of_resolved exportResolved
    exact alone.exported instWritten.here written listFree

/-- An export that has a name at all has the one of its definition. -/
theorem Plan.Exports.named (checked : plan.Checked) (exported : plan.Exports name root)
    (has : root.has "defines" = true) : root.defines? = some name := by
  obtain ⟨inst, instances, rfl⟩ := exported
  have same : (plan.exported inst).get? "defines" = inst.get? "defines" := by
    unfold Plan.exported
    split_ifs
    · exact Entries.lookup_insert_of_ne _ _ (by decide)
    · rfl
  rcases instances.get?_defines checked with missing | defines
  · simp [Expression.has, same, missing] at has
  · exact Expression.defines?_eq_some.mpr (same.trans defines)

/-- A page that loads the scripts of every page already stays as it is. -/
theorem Plan.exported_exported : plan.exported (plan.exported e) = plan.exported e := by
  by_cases page : e.kind = "page"
  · have again : (plan.exported e).kind = "page" := (plan.exported_kind e).trans page
    have scripts : plan.additional (plan.defaultScripts ++ plan.additional (e.texts "scripts")) =
        plan.additional (e.texts "scripts") := by
      simp [Plan.additional, List.filter_append, List.filter_filter]
    rw [Plan.exported, if_pos again, Plan.withScripts, Plan.exported_texts_scripts page, scripts,
      Plan.exported, if_pos page]
    simp only [Plan.withScripts, Expression.set, Entries.insert_insert]
  · have other : (plan.exported e).kind ≠ "page" := by rwa [plan.exported_kind]
    rw [Plan.exported, if_neg other]

/-! ### Analyses of finished definitions -/

def Table.IsFinished (table : Table) : Prop :=
  ∀ name definition, table.find? name = some definition → definition.expression.IsFinished name

section

variable {table : Table} (finished : table.IsFinished)

include finished

private theorem Table.IsFinished.clear (rowLimit : Nat) : table.Clear rowLimit := by
  intro name member
  obtain ⟨definition, found⟩ := Table.mem_names_iff.mp member
  exact ⟨1, (finished name definition found).clears found _⟩

/-- Nothing takes parameters, so every definition is exported. -/
theorem Table.IsFinished.exportNames_eq (distinct : table.names.Nodup) :
    table.exportNames = table.definitions.map Definition.name := by
  unfold Table.exportNames
  congr 1
  refine List.filter_eq_self.mpr fun definition member => ?_
  have found := (Table.find?_eq_some_iff distinct).mpr ⟨member, rfl⟩
  have concrete := (finished _ definition found).writtenOut.here
  simp [Expression.isGeneric, Expression.has, (Expression.isConcrete_iff.mp concrete).1]

end

private theorem Plan.canExport_of_finished (distinct : plan.table.names.Nodup)
    (finished : plan.table.IsFinished) : plan.CanExport := by
  intro name member
  obtain ⟨definition, found, -⟩ := (Table.mem_exportNames distinct).mp member
  exact ⟨_, (finished name definition found).hasInstance found⟩

/-- A finished definition that loads the scripts of every page is exported as it is. -/
theorem Plan.Exports.of_finished {definition : Definition}
    (finished : definition.expression.IsFinished name)
    (found : plan.table.find? name = some definition)
    (loaded : plan.exported definition.expression = definition.expression)
    (exported : plan.Exports name root) : SameOutline definition.expression root := by
  obtain ⟨inst, instances, rfl⟩ := exported
  have same := (finished.hasInstance found).unique instances
  rw [← loaded]
  exact Plan.exported_of_outline same

/-- An analysis of finished definitions that load the scripts of every page gives them again. -/
theorem Session.analyze_finished {session : Session} (definable : Definable session.expressions)
    (finished : ∀ e ∈ session.expressions, ∀ name, e.defines? = some name → e.IsFinished name)
    (loaded : ∀ table, ∀ e ∈ session.expressions,
      (Session.plan session.config table).exported e = e) :
    ∃ set session', Session.analyze session = .ok set session' ∧
      List.Forall₂ SameOutline session.expressions set.exports := by
  obtain ⟨table, made⟩ := definable.makes_table
  have holds := Table.ofExpressions_holds made
  have all : table.IsFinished := by
    intro name definition found
    obtain ⟨member, named⟩ := holds.find?_named found
    exact finished _ member name (Expression.defines?_eq_some.mpr named)
  obtain ⟨set, session', run⟩ := Session.analyze_succeeds_iff.mpr
    ⟨table, made, all.clear _, Plan.canExport_of_finished holds.distinct all⟩
  refine ⟨set, session', run, ?_⟩
  obtain ⟨table', made', -, exports⟩ := Session.analyze_sound run
  rw [made] at made'
  cases made'
  -- definitions and exports stand in the same order, so they are compared one by one
  rw [all.exportNames_eq holds.distinct, List.forall₂_map_left_iff, List.forall₂_iff_zip] at exports
  rw [← holds.expressions, List.forall₂_map_left_iff, List.forall₂_iff_zip]
  refine ⟨exports.1, fun {definition root} paired => ?_⟩
  have member := (List.of_mem_zip paired).1
  have among : definition.expression ∈ session.expressions :=
    holds.expressions ▸ List.mem_map_of_mem member
  have found := (Table.find?_eq_some_iff holds.distinct).mpr ⟨member, rfl⟩
  exact (exports.2 paired).of_finished (all _ definition found) found (loaded table _ among)

/-- The files of an analysis are told by its exports. -/
theorem Session.files_of_outlines {first first' second second' : Session} {set set' : ExportSet}
    (run : Session.analyze first = .ok set first')
    (run' : Session.analyze second = .ok set' second')
    (config : second.config = first.config)
    (outlines : List.Forall₂ SameOutline set.exports set'.exports) : set.files = set'.files := by
  obtain ⟨table, made, -, exports⟩ := Session.analyze_sound run
  obtain ⟨table', made', -, exports'⟩ := Session.analyze_sound run'
  obtain ⟨-, -, increasing, -⟩ := Session.analyze_files run
  obtain ⟨-, -, increasing', -⟩ := Session.analyze_files run'
  let view : Expression → String × List String := fun root => (root.kind, root.resources)
  have views : set.exports.map view = set'.exports.map view := by
    refine map_eq_map_iff_forall₂.mpr (outlines.imp fun root other same => ?_)
    exact Prod.ext (Expression.kind_of_outline same) (Expression.resources_of_outline same)
  have named : ∀ (file : String) (roots : List Expression),
      (∃ page ∈ roots, page.kind = "page" ∧ file ∈ page.resources) ↔
        ∃ seen ∈ roots.map view, seen.1 = "page" ∧ file ∈ seen.2 := by
    simp [view]
  refine eq_of_increasing increasing increasing' fun file => ?_
  rw [Session.mem_files made exports run, Session.mem_files made' exports' run', config, named,
    named, views]

/-- **Analysis is idempotent without lists.** Suppose that an analysis succeeds, and that each of
its exports still defines its name and has no list in it. Then a session of the same configuration
that holds these exports as its expressions can be analysed, too. It exports the same in the same
order, up to identifiers, and names the same files. As long as identifiers have not come round, one
injective change of them turns the exports of the first analysis into those of the second. -/
theorem analysis_idempotent {session session' again : Session} {set : ExportSet}
    (reachable : session.Reachable) (run : Session.analyze session = .ok set session')
    (listFree : ∀ root ∈ set.exports, root.IsListFree)
    (named : ∀ root ∈ set.exports, root.has "defines" = true)
    (config : again.config = session.config) (expressions : again.expressions = set.exports) :
    ∃ set' again', Session.analyze again = .ok set' again' ∧
      List.Forall₂ SameOutline set.exports set'.exports ∧ set'.files = set.files ∧
      (session'.ids.next ≤ UInt32.size → again'.ids.next ≤ UInt32.size →
        ∃ change, Set.InjOn change {id | id ∈ set.ids} ∧
          set'.exports = set.exports.map (Expression.renumber change)) := by
  obtain ⟨table, made, checked, exports⟩ := reachable.analyze_sound run
  have holds := Table.ofExpressions_holds made
  -- every export is read again under the name of the definition that it came from
  have origin : ∀ root ∈ set.exports, ∃ name ∈ table.exportNames,
      (Session.plan session.config table).Exports name root ∧ root.defines? = some name := by
    intro root member
    obtain ⟨name, known, exported⟩ := exists_of_forall₂_right exports member
    exact ⟨name, known, exported, exported.named checked (named root member)⟩
  have definable : Definable again.expressions := by
    rw [expressions]
    constructor
    · intro root member
      obtain ⟨name, known, -, defines⟩ := origin root member
      exact ⟨name, defines, holds.identifiers name (table.exportNames_sublist.mem known)⟩
    · rw [(checked.defined holds.distinct exports).names_eq]
      exact (holds.distinct.sublist table.exportNames_sublist).filter _
  have finished : ∀ root ∈ again.expressions, ∀ name, root.defines? = some name →
      root.IsFinished name := by
    rw [expressions]
    intro root member name defines
    obtain ⟨own, -, exported, defines'⟩ := origin root member
    cases defines.symm.trans defines'
    exact exported.finished checked (listFree root member)
  have loaded : ∀ table, ∀ root ∈ again.expressions,
      (Session.plan again.config table).exported root = root := by
    rw [expressions, config]
    intro other root member
    obtain ⟨name, -, ⟨inst, -, rfl⟩, -⟩ := origin root member
    exact Plan.exported_exported
  obtain ⟨set', again', run', outlines⟩ := Session.analyze_finished definable finished loaded
  rw [expressions] at outlines
  have resolved : ∀ root ∈ set.exports, root.Throughout Expression.IsResolved :=
    fun root member => ((reachable.analyze_coherent run).2.2 root member).1
  have files := Session.files_of_outlines run run' config outlines
  refine ⟨set', again', run', outlines, files.symm, ?_⟩
  intro fits fits'
  -- the second exports are not those of a session that has read them, but they look the same
  have resolved' : ∀ root ∈ set'.exports, root.Throughout Expression.IsResolved := by
    intro root member
    obtain ⟨before, there, same⟩ := exists_of_forall₂_right outlines member
    exact (resolved before there).same (fun _ _ => Expression.IsResolved.same) same.content
  obtain ⟨neat, listed, distinct⟩ := Session.exports_neat run resolved fits
  obtain ⟨neat', -, distinct'⟩ := Session.exports_neat run' resolved' fits'
  obtain ⟨change, injective, renumbered⟩ :=
    exists_renumbering outlines neat neat' distinct distinct'
  exact ⟨change, listed ▸ injective, renumbered.symm⟩

/-- A definition, and a page that refers to it and loads a script of its own. -/
def notesSource : String :=
  "p defines: \"note\", id: \"n\"\n" ++
  "page defines: \"home\", scripts: [\"a\"], body: \x7b note \x7d\n"

def notesSession : Session :=
  ({} : Session).after (Session.parse notesSource)

/-- A session that holds the exports of the first one. -/
def exportedNotes : Session :=
  { expressions := (notesSession.exportSet?.map ExportSet.exports).getD [] }

theorem analysis_idempotent_notes :
    ∃ set session' set' again', Session.analyze notesSession = .ok set session' ∧
      set.names = ["note", "home"] ∧ set.files = ["a"] ∧
      (∀ root ∈ set.exports, root.IsListFree ∧ root.has "defines" = true) ∧
      exportedNotes.expressions = set.exports ∧
      Session.analyze exportedNotes = .ok set' again' ∧
      List.Forall₂ SameOutline set.exports set'.exports ∧ set'.files = set.files ∧
      ∃ change, Set.InjOn change {id | id ∈ set.ids} ∧
        set'.exports = set.exports.map (Expression.renumber change) := by
  have evaluated : notesSession.exportSet?.any (fun set =>
        set.names = ["note", "home"] ∧ set.files = ["a"] ∧ ∀ root ∈ set.exports,
          (∀ placement ∈ root.placements "" none, placement.expression.kind ≠ "list") ∧
            root.has "defines" = true) = true ∧
      (notesSession.after Session.analyze).ids.next ≤ UInt32.size ∧
      (exportedNotes.after Session.analyze).ids.next ≤ UInt32.size := by
    decide +kernel
  obtain ⟨passed, bound, bound'⟩ := evaluated
  obtain ⟨set, session', run, tested⟩ := Session.analyze_of_any passed
  obtain ⟨names, files, roots⟩ := of_decide_eq_true tested
  have listFree : ∀ root ∈ set.exports, root.IsListFree := fun root member =>
    Expression.throughout_iff_placed.mpr (roots root member).1
  have named : ∀ root ∈ set.exports, root.has "defines" = true := fun root member =>
    (roots root member).2
  have expressions : exportedNotes.expressions = set.exports := by
    unfold exportedNotes
    rw [Session.exportSet?_eq_some.mpr ⟨session', run⟩]
    rfl
  have config : exportedNotes.config = notesSession.config := by
    unfold exportedNotes notesSession
    rw [Session.after_parse_config]
  obtain ⟨set', again', run', outlines, sameFiles, renumbered⟩ := analysis_idempotent
    (.parse notesSource (.start {})) run listFree named config expressions
  unfold Session.after at bound bound'
  rw [run] at bound
  rw [run'] at bound'
  exact ⟨set, session', set', again', run, names, files,
    fun root member => ⟨listFree root member, named root member⟩, expressions, run', outlines,
    sameFiles, renumbered bound bound'⟩

end Pagewright
