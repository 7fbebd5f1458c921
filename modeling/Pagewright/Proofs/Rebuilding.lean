import Mathlib.Data.List.Perm.Subperm
import Pagewright.Proofs.Standalone

/-!
# Every instance can be built

If a definition has a standalone instance then building it within a session
succeeds, whatever has been built before. The stack of definitions being built
never comes back to one of its names: what is on it takes more depth than what is
being built.
-/

namespace Pagewright

open Outcome

variable {plan : Plan} {budget depth : Nat} {name : String} {w : Workshop} {stack : List String}
  {inst : Expression}

/-- Only names of the table are referred to. -/
theorem referTo_known {site : Arguments} {result : Expression × Arguments} {w' : Workshop}
    (run : referTo plan name site w = .ok result w') : name ∈ plan.table.names := by
  obtain ⟨definition, found⟩ := referWithin_found run
  exact Table.mem_names_of_find? found

private theorem standalone_known (found : standalone plan depth name = some inst) :
    name ∈ plan.table.names := by
  cases depth with
  | zero => cases found
  | succ depth =>
    obtain ⟨w, run⟩ := standalone_succ.mp found
    obtain ⟨root, rest, ids, scope, referred, -⟩ :=
      (assemble_ok plan.workshop_atRest.checked).mp run
    exact referTo_known referred

/-- A stack of definitions of the plan that leaves room for `budget` more. -/
structure Plan.Allows (plan : Plan) (stack : List String) (budget : Nat) : Prop where
  distinct : stack.Nodup
  known : ∀ name ∈ stack, name ∈ plan.table.names
  room : plan.table.size + 1 ≤ stack.length + budget

theorem Plan.allows_nil (plan : Plan) : plan.Allows [] (plan.table.size + 1) :=
  ⟨List.nodup_nil, by simp, by simp⟩

/-- A stack never holds all names of the table and one more. -/
theorem Plan.Allows.budget_pos (allows : plan.Allows stack budget) : 0 < budget := by
  have fits := (List.subperm_of_subset allows.distinct allows.known).length_le
  have size : plan.table.names.length = plan.table.size := by simp [Catalog.names, Catalog.size]
  have room := allows.room
  omega

theorem Plan.Allows.push (allows : plan.Allows stack (budget + 1)) (fresh : name ∉ stack)
    (known : name ∈ plan.table.names) : plan.Allows (name :: stack) budget := by
  refine ⟨List.nodup_cons.mpr ⟨fresh, allows.distinct⟩,
    List.forall_mem_cons.mpr ⟨known, allows.known⟩, ?_⟩
  have room := allows.room
  rw [List.length_cons]
  omega

/-- A faithful workshop in which what is being built takes more than this depth, and in which builds
may nest once for each definition that is not being built. -/
structure Workshop.Ready (w : Workshop) (plan : Plan) (depth budget : Nat) : Prop
    extends w.Faithful plan where
  apart : ∀ name ∈ w.building, standalone plan depth name = none
  allows : plan.Allows w.building budget

private theorem Workshop.Ready.shallower (ready : w.Ready plan (depth + 1) budget) :
    w.Ready plan depth budget := by
  refine ⟨ready.toFaithful, fun name member => ?_, ready.allows⟩
  cases found : standalone plan depth name with
  | none => rfl
  | some inst =>
    obtain ⟨inst', deeper, -⟩ := standalone_alike (.refl plan) (Nat.le_succ depth) found
    rw [ready.apart name member] at deeper
    cases deeper

/-- One more definition on the stack, once it is known to take more depth. -/
theorem Workshop.Ready.push (ready : w.Ready plan depth (budget + 1))
    (late : standalone plan depth name = none) (fresh : name ∉ w.building)
    (known : name ∈ plan.table.names) {v : Workshop} (faithful : v.Faithful plan)
    (pushed : v.building = name :: w.building) : v.Ready plan depth budget := by
  refine ⟨faithful, ?_, pushed ▸ ready.allows.push fresh known⟩
  rw [pushed]
  exact List.forall_mem_cons.mpr ⟨late, ready.apart⟩

theorem buildWithin_complete (found : standalone plan depth name = some inst)
    (ready : w.Ready plan depth budget) :
    ∃ inst' w', buildWithin plan budget name w = .ok inst' w' ∧ SameOutline inst inst' ∧
      w'.Faithful plan ∧ w'.building = w.building := by
  induction depth generalizing budget name inst w with
  | zero => cases found
  | succ depth ih =>
    cases late : standalone plan depth name with
    | some sooner =>
      obtain ⟨inst', w', run, same, rest⟩ := ih late ready.shallower
      exact ⟨inst', w', run, (standalone_unique found late).trans same, rest⟩
    | none =>
      obtain ⟨budget, rfl⟩ : ∃ less, budget = less + 1 :=
        ⟨budget - 1, by have := ready.allows.budget_pos; omega⟩
      have known := standalone_known found
      cases atHand : w.finished.lookup name with
      | some inst' =>
        obtain ⟨depth', inst₀, found', same⟩ :=
          ready.finished name inst' (Entries.mem_of_lookup atHand)
        exact ⟨inst', w, buildWithin_succ_ok.mpr (.inl ⟨atHand, rfl⟩),
          (standalone_unique found found').trans same.symm, ready.toFaithful, rfl⟩
      | none =>
        have fresh : name ∉ w.building := by
          intro member
          rw [ready.apart name member] at found
          cases found
        -- Assembling in the session follows the standalone one, since all items are built.
        let kept : Workshop → Workshop → Prop := fun v u =>
          v.AtRest plan ∧ u.Faithful plan ∧ u.building = name :: w.building
        have builds : ∀ type, Parallel false SameOutline kept (supplied (standalone plan depth) type)
            (buildWithin plan budget type) := by
          refine fun type => .of_ok ?_
          intro v u item v' ⟨rest, faithful, pushed⟩ built
          obtain ⟨supplied, rfl⟩ := supplied_ok.mp built
          obtain ⟨item', u', run, same, faithful', popped⟩ :=
            ih supplied (ready.shallower.push late fresh known faithful pushed)
          exact ⟨item', u', run, same, rest, faithful', popped.trans pushed⟩
        obtain ⟨v, standing⟩ := standalone_succ.mp found
        have start : kept plan.workshop { w with building := name :: w.building } :=
          ⟨plan.workshop_atRest, ⟨⟨ready.resolving, ready.checked⟩, ready.finished⟩, rfl⟩
        have parallel := assemble_parallel (.refl plan)
          (fun v u kept => ⟨kept.1, kept.2.1.toAtRest⟩)
          (fun v u ids ids' kept => ⟨⟨kept.1.resolving, kept.1.checked⟩,
            ⟨⟨kept.2.1.resolving, kept.2.1.checked⟩, kept.2.1.finished⟩, kept.2.2⟩)
          name fun _ _ _ _ type _ _ _ => builds type
        obtain ⟨inst', u, assembled, same, -, faithful, pushed⟩ := parallel.ok start standing
        refine ⟨inst', _, buildWithin_succ_ok.mpr (.inr ⟨atHand, fresh, u, assembled, rfl⟩), same,
          ⟨⟨faithful.resolving, faithful.checked⟩, ?_⟩, ?_⟩
        · intro other result member
          rcases List.mem_cons.mp member with equal | earlier
          · cases equal
            exact ⟨depth + 1, inst, found, same.symm⟩
          · exact faithful.finished other result earlier
        · show u.building.tail = w.building
          rw [pushed, List.tail_cons]

end Pagewright
