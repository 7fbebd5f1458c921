import Pagewright.Proofs.Resolution

/-!
# Instances are plain

A plain expression is tidy, of a built-in kind, and inherits nothing. Whatever
references a definition makes, and wherever substitution puts them, its instance
is plain throughout.
-/

namespace Pagewright

open Outcome

variable {refer : Refer} {plan : Plan} {e result : Expression} {w w' : Workshop}

structure Expression.IsPlain (e : Expression) : Prop where
  tidy : e.IsTidy
  builtIn : Kind.isBuiltIn e.kind = true
  own : e.get? "inherits" = none

def Table.Tidy (table : Table) : Prop :=
  ∀ name definition, table.find? name = some definition →
    definition.expression.Throughout Expression.IsTidy

/-- Instances for tidy sites are plain, and no argument of the site is changed or added. -/
def Refer.GivesPlain (refer : Refer) : Prop :=
  ∀ target site w inst rest w', TidyArguments site → refer target site w = .ok (inst, rest) w' →
    inst.Throughout Expression.IsPlain ∧ rest.Sublist site

theorem Expression.throughout_plain_iff :
    e.Throughout Expression.IsPlain ↔
      Entries.Ordered e.arguments ∧ Kind.isBuiltIn e.kind = true ∧ e.get? "inherits" = none ∧
        ∀ name value, (name, value) ∈ e.arguments → value.Each Expression.IsPlain := by
  constructor
  · intro plain
    refine ⟨plain.here.tidy.ordered, plain.here.builtIn, plain.here.own, ?_⟩
    rintro name value member children rfl child inside
    have held : e.Holds name child := ⟨children, member, inside⟩
    exact ⟨plain.here.tidy.linked name child held, plain.child held⟩
  · rintro ⟨ordered, builtIn, own, each⟩
    refine Expression.throughout_iff.mpr ⟨⟨⟨ordered, ?_⟩, builtIn, own⟩, ?_⟩
    · rintro name child ⟨children, member, inside⟩
      exact (each name _ member children rfl child inside).1
    · rintro name child ⟨children, member, inside⟩
      exact (each name _ member children rfl child inside).2

/-- The parent link of the outermost expression does not matter. -/
theorem Expression.Throughout.plain_relinked (owner : ExpressionId)
    (plain : e.Throughout Expression.IsPlain) :
    ({ e with parent := some owner } : Expression).Throughout Expression.IsPlain := by
  have facts := Expression.throughout_plain_iff.mp plain
  exact Expression.throughout_plain_iff.mpr facts

private theorem TidyArguments.of_plain {arguments : Arguments} (ordered : Entries.Ordered arguments)
    (each : ∀ name value, (name, value) ∈ arguments → value.Each Expression.IsPlain) :
    TidyArguments arguments :=
  ⟨ordered, fun name value member => (each name value member).imp fun _ plain => plain.tidy⟩

private theorem join_id_parent (run : join refer e w = .ok result w') :
    result.id = e.id ∧ result.parent = e.parent := by
  cases join_ok run with
  | alone | merged => exact ⟨rfl, rfl⟩

/-- Resolving keeps the identifier and the parent. -/
theorem resolve_id_parent (run : resolve refer e w = .ok result w') :
    result.id = e.id ∧ result.parent = e.parent := by
  obtain ⟨arguments, u, -, joined⟩ := resolve_ok.mp run
  have same := join_id_parent joined
  exact same

/-- Joining makes an expression plain whose blocks are plain. -/
theorem join_plain (instances : refer.GivesPlain) (ordered : Entries.Ordered e.arguments)
    (each : ∀ name value, (name, value) ∈ e.arguments → value.Each Expression.IsPlain)
    (run : join refer e w = .ok result w') : result.Throughout Expression.IsPlain := by
  cases join_ok run with
  | alone own builtIn _ => exact Expression.throughout_plain_iff.mpr ⟨ordered, builtIn, own, each⟩
  | @merged target inst rest _ referred =>
    have site : TidyArguments (Entries.erase e.arguments "inherits") :=
      (TidyArguments.of_plain ordered each).erase "inherits"
    obtain ⟨plain, fewer⟩ := instances target _ w inst rest w' site referred
    obtain ⟨-, builtIn, -, taken⟩ := Expression.throughout_plain_iff.mp plain
    refine Expression.throughout_plain_iff.mpr ⟨?_, builtIn, ?_, ?_⟩
    · exact merge_ordered (List.Pairwise.sublist fewer site.ordered)
    · rw [merge_get?_of_own (by decide), Entries.lookup_erase_self]
    · intro name value member
      refine merge_each (fun _ owner plain => plain.plain_relinked owner) ?_ taken member
      intro name value remaining
      exact each name value (Entries.mem_erase.mp (fewer.mem remaining)).1

private theorem resolve_plain (instances : refer.GivesPlain) (tidy : e.Throughout Expression.IsTidy)
    (run : resolve refer e w = .ok result w') : result.Throughout Expression.IsPlain := by
  induction e using Expression.inductionOn generalizing result w w' with
  | step owner ih =>
    obtain ⟨arguments, u, resolved, joined⟩ := resolve_ok.mp run
    refine join_plain instances ?_ ?_ joined
    · exact tidy.here.ordered.of_names (resolveArguments_names resolved)
    · rintro name value member
      obtain ⟨original, v, v', among, step⟩ := mem_resolveArguments resolved member
      rcases resolveArgument_ok step with ⟨rfl, noBlock, -⟩ | ⟨children, results, rfl, rfl, threads⟩
      · rintro children rfl
        cases noBlock
      · rintro _ ⟨⟩ result inside
        obtain ⟨child, ofBlock, v, v', resolvedChild⟩ := threads.exists_of_mem inside
        have held : owner.Holds name child := ⟨children, among, ofBlock⟩
        refine ⟨?_, ih name child held (tidy.child held) resolvedChild⟩
        rw [(resolve_id_parent resolvedChild).2]
        exact tidy.here.linked name child held

/-- A copied definition with its parameters bound is tidy. -/
theorem CopiedFrom.tidy {target : String} {site rest : Arguments} {s t : Supply}
    {body : Expression} (copied : CopiedFrom plan target site s body rest t)
    (table : plan.table.Tidy) (tidySite : TidyArguments site) :
    body.Throughout Expression.IsTidy := by
  cases copied with
  | @plain definition found _ => exact Expression.copy_tidy (table target definition found) _ _
  | @generic definition bindings _ _ _ found _ bound substituted =>
    have copy := Expression.copy_tidy (table target definition found) none s
    refine substitute_tidy ?_ ?_ substituted
    · intro formal actual given
      exact tidySite.each formal actual (bindFormals_actual bound given)
    · exact Expression.throughout_tidy_iff.mpr
        ((Expression.throughout_tidy_iff.mp copy).erase "parameters")

theorem referWithin_givesPlain (table : plan.table.Tidy) (budget : Nat) :
    Refer.GivesPlain (referWithin plan budget) := by
  intro target site w inst rest w' tidySite run
  refine referWithin_spec (fun _ site _ inst rest _ =>
    TidyArguments site → inst.Throughout Expression.IsPlain ∧ rest.Sublist site) ?_ budget run
    tidySite
  intro refer ih target site w inst rest w' copied tidySite
  obtain ⟨body, t, origin, resolved⟩ := copyDefinition_ok copied
  exact ⟨resolve_plain (fun _ _ _ _ _ _ tidy run => ih _ _ _ _ _ _ run tidy)
    (origin.tidy table tidySite) resolved, origin.sublist⟩

end Pagewright
