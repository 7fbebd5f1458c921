import Pagewright.Proofs.Rearrangement

/-!
# Building again

A finished instance is used again before it is asked whether its definition is
being built, and so a definition that is being built could pass unnoticed. This
does not happen: an instance of what is being built takes more depth than what
it needs, so a definition that has an instance needs nothing of what waits for
it. Hence building gives the same in every workshop with the same stack, whether
it succeeds or not.
-/

namespace Pagewright

open Outcome

variable {plan : Plan} {w : Workshop} {name type : String} {files stack : List String}
  {budget : Nat}

/-! ### Waiting -/

private theorem Expression.Wants.same {first second : Expression} (wanted : first.Wants type)
    (outlines : SameOutline first second) : second.Wants type := by
  induction wanted generalizing second with
  | list isList initial typed =>
    rw [Expression.kind_of_outline outlines] at isList
    rw [Expression.number?_of_outline outlines] at initial
    rw [Expression.text?_of_outline outlines] at typed
    exact .list isList initial typed
  | inner noList held _ ih =>
    obtain ⟨other, there, same⟩ := held.same (SameOutline.content outlines.symm).arguments
    rw [Expression.kind_of_outline outlines] at noList
    exact .inner noList there (ih same.symm)

/-- Instances of `first` take more depth than those of `second`. -/
def Plan.Awaits (plan : Plan) (first second : String) : Prop :=
  ∀ depth inst, standalone plan (depth + 1) first = some inst →
    ∃ item, standalone plan depth second = some item

/-- A definition waits for the item types of its lists that have rows. -/
theorem Plan.awaits_of_wants {root : Expression} {left : Arguments} {w' : Workshop}
    (rest : w.AtRest plan) (referred : referTo plan name [] w = .ok (root, left) w')
    (wanted : root.Wants type) : plan.Awaits name type := by
  intro depth inst found
  obtain ⟨v, run⟩ := standalone_succ.mp found
  obtain ⟨root', left', ids, scope, referred', -, filled, -⟩ :=
    (assemble_ok plan.workshop_atRest.checked).mp run
  have refers := referTo_parallel (.refl plan) (fun _ _ both => both) BothAtRest.stable name
  obtain ⟨_, _, again, ⟨outlines, -⟩, -⟩ := refers.ok ⟨rest, plan.workshop_atRest⟩ referred
  rw [referred'] at again
  cases again
  obtain ⟨u, item, u', built⟩ := fillLists_wants (wanted.same outlines) filled
  exact ⟨item, (supplied_ok.mp built).1⟩

theorem Plan.Awaits.trans {first second third : String} (one : plan.Awaits first second)
    (two : plan.Awaits second third) : plan.Awaits first third := by
  intro depth inst found
  obtain ⟨middle, found'⟩ := one depth inst found
  cases depth with
  | zero => cases found'
  | succ depth =>
    obtain ⟨item, last⟩ := two depth middle found'
    obtain ⟨item', deeper, -⟩ := standalone_alike (.refl plan) (Nat.le_succ depth) last
    exact ⟨item', deeper⟩

/-! ### Building alike -/

/-- A faithful workshop with a given stack and given files. -/
structure Workshop.Stands (w : Workshop) (plan : Plan) (stack files : List String) : Prop
    extends w.Faithful plan where
  building : w.building = stack
  linked : w.Linked
  files : w.files = files

private theorem Workshop.Stands.ids (stands : w.Stands plan stack files) (ids : Supply) :
    Workshop.Stands { w with ids } plan stack files :=
  ⟨⟨⟨stands.resolving, stands.checked⟩, stands.finished⟩, stands.building, stands.linked,
    stands.files⟩

private theorem Workshop.Stands.push (stands : w.Stands plan stack files) (name : String) :
    Workshop.Stands { w with building := name :: w.building } plan (name :: stack) files :=
  ⟨⟨⟨stands.resolving, stands.checked⟩, stands.finished⟩, congrArg (name :: ·) stands.building,
    stands.linked, stands.files⟩

private theorem Workshop.Stands.pop (stands : w.Stands plan (name :: stack) files) :
    Workshop.Stands { w with building := w.building.tail } plan stack files :=
  ⟨⟨⟨stands.resolving, stands.checked⟩, stands.finished⟩, congrArg List.tail stands.building,
    stands.linked, stands.files⟩

private theorem Workshop.Stands.missing (stands : w.Stands plan stack files)
    (none : ¬ ∃ inst, plan.HasInstance name inst) : w.finished.lookup name = .none := by
  cases found : w.finished.lookup name with
  | none => rfl
  | some inst => exact absurd ⟨inst, stands.finished name inst (Entries.mem_of_lookup found)⟩ none

/-- A definition that has an instance is built wherever everything on the stack waits for it. -/
theorem buildWithin_again {inst : Expression} (allows : plan.Allows stack budget)
    (waits : ∀ waiting ∈ stack, plan.Awaits waiting name) (stands : w.Stands plan stack files)
    (instances : plan.HasInstance name inst) :
    ∃ inst' w', buildWithin plan budget name w = .ok inst' w' ∧ SameOutline inst inst' ∧
      w'.Stands plan stack files := by
  classical
  -- the least depth is one that the stack does not reach
  have some : ∃ depth, ∃ item, standalone plan depth name = some item := by
    obtain ⟨depth, item, found, -⟩ := instances
    exact ⟨depth, item, found⟩
  obtain ⟨item, found⟩ := Nat.find_spec some
  have ready : w.Ready plan (Nat.find some) budget := by
    refine ⟨stands.toFaithful, ?_, stands.building.symm ▸ allows⟩
    · rw [stands.building]
      intro waiting member
      cases late : standalone plan (Nat.find some) waiting with
      | none => rfl
      | some inst =>
        cases least : Nat.find some with
        | zero =>
          rw [least] at late
          cases late
        | succ depth =>
          rw [least] at late
          have sooner := waits waiting member depth inst late
          exact absurd sooner (Nat.find_min some (least ▸ Nat.lt_succ_self depth))
  obtain ⟨inst', w', run, same, faithful, pushed⟩ := buildWithin_complete found ready
  obtain ⟨depth, item', found', outlines⟩ := instances
  refine ⟨inst', w', run, ?_, faithful, pushed.trans stands.building, ?_, ?_⟩
  · exact (Eq.trans outlines (standalone_unique found' found)).trans same
  · exact (buildWithin_linked stands.linked run).1
  · exact (buildWithin_files run).trans stands.files

private theorem buildWithin_missing (missing : w.finished.lookup name = none) :
    buildWithin plan (budget + 1) name w =
      if w.building.contains name then .error (.cycle name) w
      else match assemble plan (buildWithin plan budget) name
          { w with building := name :: w.building } with
        | .ok inst u =>
          .ok inst { u with building := u.building.tail, finished := (name, inst) :: u.finished }
        | .error e u => .error e { u with building := u.building.tail } := by
  simp only [buildWithin]
  rw [get_bind]
  simp only [missing]
  rw [get_bind]
  split_ifs
  · rfl
  · show EStateM.bind (Building.whileBuilding name _) _ w = _
    unfold EStateM.bind Building.whileBuilding Building.within
    dsimp only
    cases assemble plan (buildWithin plan budget) name { w with building := name :: w.building } <;> rfl

def BothStand (plan : Plan) (stack files files' : List String) (w v : Workshop) : Prop :=
  w.Stands plan stack files ∧ v.Stands plan stack files'

theorem buildWithin_parallel {files' : List String} (allows : plan.Allows stack budget)
    (waits : ∀ waiting ∈ stack, plan.Awaits waiting name) :
    Parallel true SameOutline (BothStand plan stack files files') (buildWithin plan budget name)
      (buildWithin plan budget name) := by
  induction budget generalizing stack name with
  | zero => exact .throw
  | succ budget ih =>
    rintro w v ⟨first, second⟩
    by_cases has : ∃ inst, plan.HasInstance name inst
    · obtain ⟨inst, instances⟩ := has
      obtain ⟨inst', w', run, same, stands⟩ := buildWithin_again allows waits first instances
      obtain ⟨inst'', v', run', same', stands'⟩ := buildWithin_again allows waits second instances
      rw [run, run']
      exact .ok (same.symm.trans same') ⟨stands, stands'⟩
    · rw [buildWithin_missing (first.missing has), buildWithin_missing (second.missing has),
        first.building, second.building]
      split_ifs with again
      · exact .error ⟨first, second⟩
      · have fresh : name ∉ stack := by simpa using again
        have assembles : Parallel true SameOutline (BothStand plan (name :: stack) files files')
            (assemble plan (buildWithin plan budget) name)
            (assemble plan (buildWithin plan budget) name) := by
          refine assemble_parallel (.refl plan) (fun w v both => ⟨both.1.toAtRest, both.2.toAtRest⟩)
            (fun w v ids ids' both => ⟨both.1.ids ids, both.2.ids ids'⟩) name ?_
          intro root left w w' type rest referred wanted
          have here := Plan.awaits_of_wants rest referred wanted
          exact ih (allows.push fresh (referTo_known referred))
            (List.forall_mem_cons.mpr ⟨here, fun waiting member => (waits waiting member).trans here⟩)
        have agree := assembles _ _ ⟨first.push name, second.push name⟩
        rw [first.building, second.building] at agree
        cases assembled : assemble plan (buildWithin plan budget) name
            { w with building := name :: stack } with
        | ok inst u =>
          -- what can be assembled is an instance
          have faithful := (first.push name).toFaithful
          rw [first.building] at faithful
          obtain ⟨-, instances⟩ := assemble_sound faithful
            (fun _ _ _ _ start run => buildWithin_sound start run) assembled
          exact absurd ⟨inst, instances⟩ has
        | error e u =>
          rw [assembled] at agree
          generalize assemble plan (buildWithin plan budget) name
            { v with building := name :: stack } = result at agree
          cases agree with
          | error states => exact .error ⟨states.1.pop, states.2.pop⟩
          | lost free => cases free

end Pagewright
