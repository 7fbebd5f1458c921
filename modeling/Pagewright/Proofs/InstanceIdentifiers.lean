import Pagewright.Proofs.Exports
import Pagewright.Proofs.Identifiers
import Pagewright.Proofs.Links

/-!
# The identifiers of instances

An instance that has been built is kept, and rows are fresh copies of it. So all
instances of one run together hold no identifier more often than it was handed
out meanwhile. An export is the kept instance of its definition, and no two
exports are of the same definition; this carries over to the exports
(`instantiateAll_ids`).
-/

namespace Pagewright

open Outcome

/-! ### Building -/

variable {plan : Plan} {build : String → Building Expression} {w w' : Workshop}
  {roots : List Expression} {first : Nat} {names : List String}

/-- What is built is kept, and nothing else comes of it. -/
def Builds (build : String → Building Expression) : Prop :=
  ∀ name, workshopLedger.Balances 0 (fun _ => 0) (build name)

private theorem fillList_balances (builds : Builds build) (list : Expression) :
    workshopLedger.Balances (list.ids false) (Expression.ids false) (fillList build list) := by
  unfold fillList
  cases list.number? "initial" with
  | none => exact .pure le_rfl
  | some count =>
    cases list.text? "type" with
    | none => exact .throw
    | some type =>
      dsimp only
      rw [← zero_add (list.ids false)]
      apply (builds type).bind
      intro item
      have rows := balances_onIds (balances_modifyGet fun s =>
        makeRows_issues item list.id count 0 s)
      apply rows.bind
      intro rows
      apply Ledger.Balances.pure
      rw [add_comm]
      exact list.set_ids "body" (.block rows)

private theorem fillLists_balances (builds : Builds build) (e : Expression) :
    workshopLedger.Balances (e.ids false) (Expression.ids false) (fillLists build e) := by
  induction e using Expression.inductionOn with
  | step owner ih =>
    have inner : workshopLedger.Balances (argumentsIds false owner.arguments) (argumentsIds false)
        (fillArguments build owner.arguments) := by
      rw [fillArguments_eq]
      apply balances_arguments
      rintro ⟨name, value⟩ member
      cases value with
      | block children =>
        simp only [fillArgument, fillBlock_eq, Argument.ids]
        apply (balances_block fun child inside => ih name child ⟨children, member, inside⟩).andThen
        intro children
        exact .pure le_rfl
      | atom | text | number | list => exact .pure le_rfl
    have list := fillList_balances builds owner
    obtain ⟨id, parent, kind, arguments⟩ := owner
    simp only [fillLists]
    apply Ledger.Balances.ite list
    simp only [Expression.ids]
    rw [add_comm]
    apply inner.bind
    intro arguments
    apply Ledger.Balances.pure
    simp only [Expression.ids, add_comm, le_refl]

private theorem assemble_balances (builds : Builds build) (name : String) :
    workshopLedger.Balances 0 (Expression.ids false) (assemble plan build name) := by
  unfold assemble
  have refers : (referTo plan).Balances := referWithin_balances _
  have first := (refers name []).adaptExcept (Error.inDefinition name)
  simp only [argumentsIds] at first
  apply first.andThen
  rintro ⟨inst, rest⟩
  dsimp only
  apply ((balances_onMarkers _).discard fun _ => le_rfl).andThen
  intro _
  -- the arguments that were left over are dropped
  have dropped : inst.ids false ≤ inst.ids false + argumentsIds false rest :=
    Multiset.le_add_right _ _
  apply Ledger.Balances.imp ?_ dropped fun _ => le_rfl
  apply (fillLists_balances builds inst).andThen
  intro inst
  cases uniqueIds inst (rootStem inst name) with
  | ok scope => exact .pure le_rfl
  | error e => exact .throw

/-- A finished instance goes over from the result of a step to what is kept. -/
theorem balances_finish (name : String) (inst : Expression) :
    workshopLedger.Balances (inst.ids false) (fun _ : PUnit => 0)
      (modify fun workshop => { workshop with finished := (name, inst) :: workshop.finished }) := by
  intro w
  refine ⟨le_rfl, List.subset_cons_self _ _, ?_⟩
  show 0 + workshopLedger.keptIds { w with finished := (name, inst) :: w.finished } ≤
    inst.ids false + workshopLedger.keptIds w + issued w.ids.next w.ids.next
  have split : workshopLedger.keptIds { w with finished := (name, inst) :: w.finished } =
      inst.ids false + workshopLedger.keptIds w := by
    simp [Ledger.keptIds, workshopLedger]
  rw [split, zero_add]
  exact Multiset.le_add_right _ _

private theorem buildWithin_balances (budget : Nat) : Builds (buildWithin plan budget) := by
  induction budget with
  | zero => exact fun name => .throw
  | succ budget ih =>
    intro name
    simp only [buildWithin]
    apply Ledger.Balances.get.andThen
    intro w
    cases w.finished.lookup name with
    | some inst => exact .pure le_rfl
    | none =>
      dsimp only
      apply Ledger.Balances.get.andThen
      intro w
      apply Ledger.Balances.check
      have built : workshopLedger.Balances 0 (Expression.ids false)
          (Building.whileBuilding name (assemble plan (buildWithin plan budget) name)) :=
        balances_while (assemble_balances ih name) (fun _ => ⟨rfl, rfl⟩) fun _ => ⟨rfl, rfl⟩
      apply built.andThen
      intro inst
      apply (balances_finish name inst).andThen
      intro _
      exact .pure le_rfl

private theorem instantiate_balances (name : String) :
    workshopLedger.Balances 0 (fun _ => 0) (instantiate plan name) := by
  unfold instantiate
  cases plan.table.find? name with
  | none => exact .throw
  | some definition =>
    dsimp only
    apply Ledger.Balances.check
    apply (buildWithin_balances _ name).andThen
    intro inst
    apply Ledger.Balances.ite
    · have filed : workshopLedger.Balances 0 (fun _ : PUnit => 0) (modify fun workshop =>
          { workshop with
            files := (plan.pageFiles inst).foldl (fun files file => insertName file files)
              workshop.files }) := by
        intro w
        exact carries_same (.refl le_rfl w) rfl rfl rfl rfl
      apply filed.andThen
      intro _
      exact .pure le_rfl
    · exact .pure le_rfl

theorem instantiateEach_balances (names : List String) :
    workshopLedger.Balances 0 (fun _ => 0) (names.mapM (instantiate plan)) := by
  have each : ∀ name ∈ names, workshopLedger.Balances 0 (fun _ => 0) (instantiate plan name) :=
    fun name _ => instantiate_balances name
  have all := Ledger.Balances.mapM each
  have nothing : (names.map fun _ => (0 : Multiset ExpressionId)).sum = 0 := by
    simp
  rw [nothing] at all
  exact all.imp le_rfl fun _ => Multiset.zero_le _

/-- All instances are made from identifiers that were handed out meanwhile. -/
theorem instantiateAll_balances :
    workshopLedger.Balances 0 (fun _ => 0) (instantiateAll plan) :=
  instantiateEach_balances _

/-! ### Exports -/

private theorem Plan.exported_ids (plan : Plan) (inst : Expression) :
    (plan.exported inst).ids false ≤ inst.ids false := by
  unfold Plan.exported
  split_ifs
  · apply (inst.set_ids "scripts" _).trans
    simp [Argument.ids]
  · exact le_rfl

/-- Every export comes from a kept instance of its definition. -/
theorem instantiate_kept (start : w.Linked)
    (threads : Threads (instantiate plan) names w roots w') :
    w'.Linked ∧ w.finished ⊆ w'.finished ∧
      ∃ entries : List (String × Expression), entries.map Prod.fst = names ∧
        entries.map (fun entry => plan.exported entry.2) = roots ∧ entries ⊆ w'.finished := by
  induction threads with
  | nil w => exact ⟨start, List.Subset.refl _, [], rfl, rfl, List.nil_subset _⟩
  | @cons name root names roots w t w' first rest ih =>
    have carried := (instantiate_balances name).ok first
    obtain ⟨definition, -, -, inst, u, built, rfl, rfl⟩ := instantiate_ok.mp first
    obtain ⟨linked, finished⟩ := buildWithin_linked start built
    obtain ⟨kept, grows, entries, named, exported, among⟩ := ih linked
    refine ⟨kept, List.Subset.trans carried.kept grows, (name, inst) :: entries, ?_, ?_, ?_⟩
    · rw [List.map_cons, named]
    · rw [List.map_cons, exported]
    · exact List.cons_subset.mpr ⟨grows finished, among⟩

/-- What a workshop keeps has identifiers that were taken since `first`. -/
structure Workshop.KeptSince (first : Nat) (w : Workshop) : Prop where
  grown : first ≤ w.ids.next
  fresh : workshopLedger.keptIds w ≤ issued first w.ids.next

theorem Workshop.KeptSince.carries (kept : w.KeptSince first)
    (carried : workshopLedger.Carries 0 0 w w') : w'.KeptSince first := by
  have later : w.ids.next ≤ w'.ids.next := carried.next
  have covered : 0 + workshopLedger.keptIds w' ≤
      0 + workshopLedger.keptIds w + issued w.ids.next w'.ids.next := carried.covered
  rw [zero_add, zero_add] at covered
  refine ⟨kept.grown.trans later, ?_⟩
  rw [← issued_add kept.grown later]
  exact covered.trans (add_le_add kept.fresh le_rfl)

theorem Workshop.keptSince_start (ids : Supply) (markers : Markers) :
    Workshop.KeptSince ids.next { ids, markers } :=
  ⟨le_rfl, Multiset.zero_le _⟩

/-- Exports of different definitions have new identifiers, each of them once. -/
theorem instantiateEach_ids (distinct : names.Nodup) (start : w.Linked)
    (since : w.KeptSince first) (run : names.mapM (instantiate plan) w = .ok roots w') :
    blockIds false roots ≤ issued first w'.ids.next ∧
      ∀ root ∈ roots, root.parent = none ∧ root.Throughout Expression.IsLinked := by
  have carried := (instantiateEach_balances names).ok run
  obtain ⟨linked, -, entries, named, rfl, among⟩ := instantiate_kept start (mapM_ok.mp run)
  constructor
  · -- different definitions have different entries among the kept ones
    have different : entries.Nodup := List.Nodup.of_map _ (named ▸ distinct)
    obtain ⟨some, reordered, sublist⟩ := List.subperm_of_subset different among
    calc blockIds false (entries.map fun entry => plan.exported entry.2)
        = (entries.map fun entry => (plan.exported entry.2).ids false).sum := by
          rw [blockIds_eq, List.map_map]
          rfl
      _ ≤ (entries.map fun entry => entry.2.ids false).sum :=
          List.sum_le_sum fun entry _ => plan.exported_ids entry.2
      _ = (some.map fun entry => entry.2.ids false).sum := (reordered.map _).sum_eq.symm
      _ ≤ workshopLedger.keptIds w' :=
          (sublist.map _).sum_le_sum fun ids _ => Multiset.zero_le ids
      _ ≤ issued first w'.ids.next := (since.carries carried).fresh
  · intro root member
    obtain ⟨⟨name, inst⟩, inside, rfl⟩ := List.mem_map.mp member
    obtain ⟨unlinked, below⟩ := linked name inst (among inside)
    unfold Plan.exported
    split_ifs
    · refine ⟨unlinked, ?_⟩
      rw [Expression.throughout_linked_iff] at below ⊢
      apply below.insert
      intro place children found
      obtain ⟨-, same⟩ := Prod.mk.inj (List.mem_singleton.mp found)
      cases same
    · exact ⟨unlinked, below⟩

theorem Workshop.linked_start (ids : Supply) (markers : Markers) :
    Workshop.Linked { ids, markers } :=
  fun name inst member => by cases member

theorem instantiateAll_ids {ids : Supply} {markers : Markers} (distinct : plan.table.names.Nodup)
    (run : instantiateAll plan { ids, markers } = .ok roots w) :
    ids.next ≤ w.ids.next ∧ blockIds false roots ≤ issued ids.next w.ids.next ∧
      ∀ root ∈ roots, root.parent = none ∧ root.Throughout Expression.IsLinked :=
  ⟨(instantiateAll_balances.ok run).next, instantiateEach_ids
    (distinct.sublist plan.table.exportNames_sublist) (Workshop.linked_start ids markers)
    (Workshop.keptSince_start ids markers) run⟩

end Pagewright
