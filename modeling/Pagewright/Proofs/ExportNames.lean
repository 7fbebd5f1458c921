import Pagewright.Proofs.AnalysisComplete

/-!
# The names of exports

An export goes by the name that its instance defines. This name is an argument
like any other: a definition that is referred to may have a parameter called
`defines`, which then takes the name away from the export. Every other export
keeps the name of its definition.
-/

namespace Pagewright

open Outcome

variable {plan : Plan} {definition : Definition} {rest site : Arguments} {inst : Expression}
  {w w' : Workshop} {name target : String}

/-- The definition refers to one that has a parameter called `defines`. -/
def Table.dropsName (table : Table) (name : String) : Bool :=
  ((table.find? name).bind fun definition => definition.expression.refersTo?).any fun target =>
    (table.find? target).any fun definition => definition.expression.parameters.contains "defines"

/-- Bound parameters are gone, and all else is left. -/
theorem bindFormals_lookup {formals : List String} {bindings : Bindings}
    (bound : bindFormals target formals site = .ok (bindings, rest)) (name : String) :
    rest.lookup name = if name ∈ formals then none else site.lookup name := by
  induction formals generalizing site rest bindings with
  | nil =>
    cases bound
    rfl
  | cons formal formals ih =>
    unfold bindFormals at bound
    cases given : site.lookup formal with
    | none => simp only [given, reduceCtorEq] at bound
    | some actual =>
      simp only [given] at bound
      obtain ⟨⟨others, left⟩, inner, last⟩ := except_bind_ok.mp bound
      cases last
      rw [ih inner]
      by_cases same : name = formal
      · subst same
        simp
      · simp [same, Entries.lookup_erase_of_ne _ same]

/-- A reference leaves the arguments that its target has no parameters for. -/
theorem referWithin_leaves {budget : Nat}
    (run : referWithin plan budget target site w = .ok (inst, rest) w')
    (found : plan.table.find? target = some definition) (name : String) :
    rest.lookup name =
      if name ∈ definition.expression.parameters then none else site.lookup name := by
  cases budget with
  | zero => exact (throw_ok.mp run).elim
  | succ budget =>
    obtain ⟨-, u, copied, -⟩ := referWithin_succ_ok run
    obtain ⟨body, t, origin, -⟩ := copyDefinition_ok copied
    cases origin with
    | plain there plain =>
      rw [found] at there
      cases there
      rw [Expression.copy_isGeneric] at plain
      have missing : definition.expression.get? "parameters" = none := by
        simpa [Expression.isGeneric, Expression.has] using plain
      simp [Expression.parameters, Expression.list?, missing]
    | generic there _ bound _ =>
      rw [found] at there
      cases there
      rw [Expression.copy_parameters] at bound
      exact bindFormals_lookup bound name

/-- The root of an instance defines the name of its definition, unless that name is dropped. -/
theorem referTo_defines (named : plan.table.Named)
    (found : plan.table.find? name = some definition)
    (plain : definition.expression.isGeneric = false)
    (run : referTo plan name [] w = .ok (inst, rest) w') :
    inst.get? "defines" = if plan.table.dropsName name then none else some (.text name) := by
  obtain ⟨-, v, copied, -⟩ := referWithin_succ_ok run
  obtain ⟨body, t, origin, resolved⟩ := copyDefinition_ok copied
  cases origin with
  | generic there generic _ _ =>
    rw [found] at there
    cases there
    rw [Expression.copy_isGeneric, plain] at generic
    cases generic
  | plain there _ =>
    rw [found] at there
    cases there
    -- copying and resolving blocks leave the name and what is referred to
    obtain ⟨arguments, u, blocks, joined⟩ := resolve_ok.mp resolved
    have keeps := ((definition.expression.copy_keepsBlockless none _).trans
      (resolveArguments_keepsBlockless blocks)).keepsTexts
    have defines := keeps.texts "defines" name (named name definition found)
    have same : SameReference definition.expression
        { (definition.expression.copy none _).1 with arguments } :=
      (SameReference.copy definition.expression none _).trans
        (resolveArguments_sameReference rfl blocks)
    cases join_ok joined with
    | alone inherits builtIn _ =>
      have none : definition.expression.refersTo? = none :=
        same.refersTo?.trans (Expression.refersTo?_eq_none inherits builtIn)
      simp only [Table.dropsName, found, Option.bind_some, none, Option.any_none,
        Bool.false_eq_true, if_false]
      exact defines
    | @merged target parent left refers referred =>
      -- the name is an argument of the reference like any other, and a parameter takes it away
      have target : definition.expression.refersTo? = some target :=
        same.refersTo?.trans (Expression.refersTo?_eq_some.mpr refers)
      obtain ⟨other, known⟩ := referWithin_found referred
      rw [merge_get?_of_own (by decide), Entries.lookup_erase_of_ne _ (by decide),
        referWithin_leaves referred known, Entries.lookup_erase_of_ne _ (by decide)]
      simp only [Table.dropsName, found, Option.bind_some, target, Option.any_some, known,
        List.contains_iff_mem, show arguments.lookup "defines" = _ from defines]

/-- An export goes by the name of its definition, unless that name is dropped. -/
theorem Plan.Exports.defines? (checked : plan.Checked) {root : Expression}
    (exported : plan.Exports name root) (found : plan.table.find? name = some definition)
    (plain : definition.expression.isGeneric = false) :
    root.defines? = if plan.table.dropsName name then none else some name := by
  obtain ⟨inst, instances, rfl⟩ := exported
  obtain ⟨build, root, rest, filled, ids, w, scope, referred, passes, run, -, same⟩ :=
    instances.assembled
  have defines := referTo_defines checked.named found plain referred
  rw [Plan.exported_defines?, Expression.defines?, Expression.text?_of_outline same,
    Expression.text?, fillLists_defines (checked.isRoot referred passes).defines run, defines]
  split_ifs <;> rfl

/-- Expressions in the order of their names, each defining its own unless that is dropped. -/
abbrev Defined (drops : String → Bool) (names : List String) (roots : List Expression) : Prop :=
  List.Forall₂ (fun name root => root.defines? = if drops name then none else some name) names roots

section

variable {drops : String → Bool} {names : List String} {roots : List Expression}

theorem Defined.names_eq (defined : Defined drops names roots) :
    roots.filterMap Expression.defines? = names.filter fun name => !drops name := by
  induction defined with
  | nil => rfl
  | @cons name root names roots first _ ih =>
    cases dropped : drops name with
    | true | false => simp [first, dropped, ih]

theorem Defined.all_named_iff (defined : Defined drops names roots) :
    (∀ root ∈ roots, root.defines? ≠ none) ↔ ∀ name ∈ names, drops name = false := by
  induction defined with
  | nil => simp
  | cons first _ ih => simp [ih, first]

end

/-- The exports of a plan define the names of their definitions, less those that are dropped. -/
theorem Plan.Checked.defined (checked : plan.Checked) (distinct : plan.table.names.Nodup)
    {roots : List Expression} (exports : List.Forall₂ plan.Exports plan.table.exportNames roots) :
    Defined plan.table.dropsName plan.table.exportNames roots := by
  obtain ⟨aligned, each⟩ := List.forall₂_iff_zip.mp exports
  refine List.forall₂_iff_zip.mpr ⟨aligned, fun {name root} member => ?_⟩
  obtain ⟨definition, found, plain⟩ :=
    (Table.mem_exportNames distinct).mp (List.of_mem_zip member).1
  exact (each member).defines? checked found plain

end Pagewright
