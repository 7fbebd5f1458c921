import Pagewright.Proofs.Tidy

/-!
# Resolved references

Resolving an expression first resolves what stands in its blocks and then joins
it with the definition it refers to, if it refers to one. The lemmas here say
what a successful step did. `referWithin_spec` then turns a property of one step
into one of every reference, by induction over how deep references nest.
-/

namespace Pagewright

open Outcome

variable {refer : Refer} {plan : Plan} {w w' : Workshop} {target name : String}
  {site rest results arguments : Arguments} {budget : Nat} {inst e result body : Expression}
  {formals : List String} {bindings : Bindings} {value : Argument}

/-! ### What one step does -/

/-- A step on a part of the workshop succeeds as it does on this part alone. -/
theorem within_ok {σ α : Type} {enter : Workshop → σ} {leave : Workshop → σ → Workshop}
    {action : EStateM Error σ α} {value : α} :
    Building.within enter leave action w = .ok value w' ↔
      ∃ s, action (enter w) = .ok value s ∧ leave w s = w' := by
  unfold Building.within
  cases action (enter w) with
  | ok | error => simp

theorem onIds_ok {α : Type} {action : EStateM Error Supply α} {value : α} :
    Building.onIds action w = .ok value w' ↔
      ∃ ids, action w.ids = .ok value ids ∧ { w with ids } = w' :=
  within_ok

theorem whileResolving_ok {α : Type} {action : Building α} {value : α} :
    Building.whileResolving name action w = .ok value w' ↔
      ∃ u, action { w with resolving := name :: w.resolving } = .ok value u ∧
        { u with resolving := u.resolving.tail } = w' :=
  within_ok

/-- Joining either changes nothing or merges in the instance of what is referred to. -/
inductive JoinedFrom (refer : Refer) (e : Expression) (w : Workshop) (w' : Workshop) :
    Expression → Prop
  | alone : e.get? "inherits" = none → Kind.isBuiltIn e.kind = true → w = w' →
      JoinedFrom refer e w w' e
  | merged {target : String} {inst : Expression} {rest : Arguments} :
      (e.get? "inherits" = some (.text target) ∨
        e.get? "inherits" = none ∧ Kind.isBuiltIn e.kind = false ∧ e.kind = target) →
      refer target (Entries.erase e.arguments "inherits") w = .ok (inst, rest) w' →
      JoinedFrom refer e w w' (merge { e with arguments := rest } inst)

theorem join_ok (run : join refer e w = .ok result w') : JoinedFrom refer e w w' result := by
  unfold join at run
  cases inherits : e.get? "inherits" with
  | none =>
    simp only [inherits] at run
    cases builtIn : Kind.isBuiltIn e.kind with
    | true =>
      simp only [builtIn, if_true] at run
      obtain ⟨rfl, rfl⟩ := pure_ok.mp run
      exact .alone inherits builtIn rfl
    | false =>
      simp only [builtIn, Bool.false_eq_true, if_false] at run
      obtain ⟨⟨inst, rest⟩, u, referred, merged⟩ := bind_ok.mp run
      obtain ⟨rfl, rfl⟩ := pure_ok.mp merged
      exact .merged (.inr ⟨inherits, builtIn, rfl⟩) referred
  | some value =>
    cases value with
    | text target =>
      simp only [inherits] at run
      obtain ⟨⟨inst, rest⟩, u, referred, merged⟩ := bind_ok.mp run
      obtain ⟨rfl, rfl⟩ := pure_ok.mp merged
      exact .merged (.inl inherits) referred
    | atom | number | block | list => simp only [inherits, throw_ok] at run

/-- Arguments are resolved before the expression joins its definition. -/
theorem resolve_ok :
    resolve refer e w = .ok result w' ↔
      ∃ arguments u, resolveArguments refer e.arguments w = .ok arguments u ∧
        join refer { e with arguments } u = .ok result w' := by
  obtain ⟨id, parent, kind, arguments⟩ := e
  simp only [resolve, bind_ok]

theorem resolveArguments_names (run : resolveArguments refer arguments w = .ok results w') :
    results.map Prod.fst = arguments.map Prod.fst := by
  rw [resolveArguments_eq, mapM_ok] at run
  refine run.map_eq ?_
  intro entry w result w' step
  obtain ⟨value, u, -, last⟩ := bind_ok.mp step
  obtain ⟨rfl, -⟩ := pure_ok.mp last
  rfl

/-- A resolved value is the value itself, or a block of resolved expressions. -/
theorem resolveArgument_ok {result : Argument}
    (run : resolveArgument refer value w = .ok result w') :
    (result = value ∧ value.block? = none ∧ w = w') ∨
      ∃ children results, value = .block children ∧ result = .block results ∧
        Threads (resolve refer) children w results w' := by
  cases value with
  | block children =>
    simp only [resolveArgument, bind_ok, pure_ok, resolveBlock_eq, mapM_ok] at run
    obtain ⟨results, u, threads, rfl, rfl⟩ := run
    exact .inr ⟨children, results, rfl, rfl, threads⟩
  | atom | text | number | list =>
    simp only [resolveArgument, pure_ok] at run
    exact .inl ⟨run.1.symm, rfl, run.2⟩

theorem mem_resolveArguments (run : resolveArguments refer arguments w = .ok results w')
    (member : (name, value) ∈ results) :
    ∃ original u u', (name, original) ∈ arguments ∧
      resolveArgument refer original u = .ok value u' := by
  rw [resolveArguments_eq, mapM_ok] at run
  obtain ⟨entry, among, u, u', step⟩ := run.exists_of_mem member
  obtain ⟨result, v, inner, last⟩ := bind_ok.mp step
  obtain ⟨same, rfl⟩ := pure_ok.mp last
  cases same
  exact ⟨entry.2, u, v, among, inner⟩

/-- What a definition is copied into before its references are resolved. -/
inductive CopiedFrom (plan : Plan) (target : String) (site : Arguments) (s : Supply) :
    Expression → Arguments → Supply → Prop
  /-- A definition without parameters leaves the arguments of the reference alone. -/
  | plain {definition : Definition} : plan.table.find? target = some definition →
      (definition.expression.copy none s).1.isGeneric = false →
      CopiedFrom plan target site s (definition.expression.copy none s).1 site
        (definition.expression.copy none s).2
  /-- The parameters of a generic definition are bound to arguments of the reference. -/
  | generic {definition : Definition} {bindings : Bindings} {rest : Arguments} {body : Expression}
      {t : Supply} : plan.table.find? target = some definition →
      (definition.expression.copy none s).1.isGeneric = true →
      bindFormals target (definition.expression.copy none s).1.parameters site =
        .ok (bindings, rest) →
      substitute bindings ((definition.expression.copy none s).1.unset "parameters")
        (definition.expression.copy none s).2 = .ok body t →
      CopiedFrom plan target site s body rest t

/-- Copies the definition `target` and binds its parameters, without resolving anything. -/
def copiedBody (plan : Plan) (target : String) (site : Arguments) :
    Building (Expression × Arguments) := do
  match plan.table.find? target with
  | none => throw (.reference (.unknownDefinition target))
  | some definition =>
    let copy ← Building.onIds (modifyGet (definition.expression.copy none))
    if copy.isGeneric then
      let (bindings, site) ← ofExcept (bindFormals target copy.parameters site)
      return (← Building.onIds (substitute bindings (copy.unset "parameters")), site)
    else
      return (copy, site)

theorem copyDefinition_eq (target : String) (site : Arguments) :
    copyDefinition plan refer target site = do
      let body ← copiedBody plan target site
      return (← resolve refer body.1, body.2) := by
  unfold copyDefinition copiedBody
  cases plan.table.find? target with
  | none => rfl
  | some definition =>
    simp only [bind_assoc]
    refine bind_congr fun copy => ?_
    cases copy.isGeneric with
    | false => simp only [Bool.false_eq_true, if_false, pure_bind]
    | true => simp only [if_true, bind_assoc, pure_bind]

theorem copiedBody_ok (run : copiedBody plan target site w = .ok (body, rest) w') :
    ∃ t, CopiedFrom plan target site w.ids body rest t ∧ { w with ids := t } = w' := by
  unfold copiedBody at run
  cases found : plan.table.find? target with
  | none => simp only [found, throw_ok] at run
  | some definition =>
    simp only [found] at run
    obtain ⟨copy, u, copied, run⟩ := bind_ok.mp run
    obtain ⟨ids, taken, rfl⟩ := onIds_ok.mp copied
    obtain ⟨rfl, rfl⟩ := Prod.ext_iff.mp (modifyGet_ok.mp taken)
    cases generic : (definition.expression.copy none w.ids).1.isGeneric with
    | false =>
      simp only [generic, Bool.false_eq_true, if_false] at run
      obtain ⟨same, rfl⟩ := pure_ok.mp run
      cases same
      exact ⟨_, .plain found generic, rfl⟩
    | true =>
      simp only [generic, if_true] at run
      obtain ⟨⟨bindings, left⟩, u, bound, run⟩ := bind_ok.mp run
      obtain ⟨formals, rfl⟩ := ofExcept_ok.mp bound
      obtain ⟨body, u, substituted, last⟩ := bind_ok.mp run
      obtain ⟨t, changed, rfl⟩ := onIds_ok.mp substituted
      obtain ⟨same, rfl⟩ := pure_ok.mp last
      cases same
      exact ⟨t, .generic found generic formals changed, rfl⟩

/-- A definition is copied and substituted before its references are resolved. -/
theorem copyDefinition_ok (run : copyDefinition plan refer target site w = .ok (inst, rest) w') :
    ∃ body t, CopiedFrom plan target site w.ids body rest t ∧
      resolve refer body { w with ids := t } = .ok inst w' := by
  rw [copyDefinition_eq] at run
  obtain ⟨⟨body, left⟩, u, taken, run⟩ := bind_ok.mp run
  obtain ⟨t, copied, rfl⟩ := copiedBody_ok taken
  obtain ⟨result, u, resolved, last⟩ := bind_ok.mp run
  obtain ⟨same, rfl⟩ := pure_ok.mp last
  cases same
  exact ⟨body, t, copied, resolved⟩

/-! ### From one step to all references -/

/-- A reference copies its target, which goes on the stack meanwhile. -/
theorem referWithin_succ_ok {result : Expression × Arguments}
    (run : referWithin plan (budget + 1) target site w = .ok result w') :
    target ∉ w.resolving ∧ ∃ u,
      copyDefinition plan (referWithin plan budget) target site
          { w with resolving := target :: w.resolving } = .ok result u ∧
        { u with resolving := u.resolving.tail } = w' := by
  simp only [referWithin] at run
  obtain ⟨u, v, now, run⟩ := bind_ok.mp run
  obtain ⟨rfl, rfl⟩ := get_ok.mp now
  split_ifs at run with again
  · obtain ⟨_, _, thrown, -⟩ := bind_ok.mp run
    exact (throw_ok.mp thrown).elim
  · exact ⟨by simpa using again, whileResolving_ok.mp run⟩

/-- Only definitions are referred to. -/
theorem referWithin_found {result : Expression × Arguments}
    (run : referWithin plan budget target site w = .ok result w') :
    ∃ definition, plan.table.find? target = some definition := by
  cases budget with
  | zero => exact (throw_ok.mp run).elim
  | succ budget =>
    obtain ⟨-, u, copied, -⟩ := referWithin_succ_ok run
    obtain ⟨body, t, origin, -⟩ := copyDefinition_ok copied
    cases origin with
    | plain found _ | generic found _ _ _ => exact ⟨_, found⟩

/-- A property of references holds if copying a definition has it whenever the references inside
have it. -/
theorem referWithin_spec
    (spec : String → Arguments → Supply → Expression → Arguments → Supply → Prop)
    (step : ∀ refer : Refer,
      (∀ target site w inst rest w', refer target site w = .ok (inst, rest) w' →
        spec target site w.ids inst rest w'.ids) →
      ∀ target site w inst rest w',
        copyDefinition plan refer target site w = .ok (inst, rest) w' →
        spec target site w.ids inst rest w'.ids) (budget : Nat)
    (run : referWithin plan budget target site w = .ok (inst, rest) w') :
    spec target site w.ids inst rest w'.ids := by
  induction budget generalizing target site rest inst w w' with
  | zero => simp only [referWithin, throw_ok] at run
  | succ budget ih =>
    obtain ⟨-, v, copied, rfl⟩ := referWithin_succ_ok run
    exact step _ (fun _ _ _ _ _ _ inner => ih inner) target site
      { w with resolving := target :: w.resolving } inst rest v copied

/-! ### Bound parameters -/

theorem bindFormals_sublist (bound : bindFormals target formals site = .ok (bindings, rest)) :
    rest.Sublist site := by
  induction formals generalizing site rest bindings with
  | nil =>
    simp only [bindFormals, Except.ok.injEq, Prod.mk.injEq] at bound
    rw [bound.2]
  | cons formal more ih =>
    simp only [bindFormals] at bound
    cases found : site.lookup formal with
    | none => simp [found] at bound
    | some actual =>
      simp only [found, except_bind_ok, except_pure_ok] at bound
      obtain ⟨⟨inner, left⟩, run, same⟩ := bound
      cases same
      exact (ih run).trans List.filter_sublist

theorem bindFormals_actual (bound : bindFormals target formals site = .ok (bindings, rest))
    {formal : String} {actual : Argument} (found : bindings.lookup formal = some actual) :
    (formal, actual) ∈ site := by
  induction formals generalizing site rest bindings with
  | nil =>
    simp only [bindFormals, Except.ok.injEq, Prod.mk.injEq] at bound
    simp [← bound.1] at found
  | cons first more ih =>
    simp only [bindFormals] at bound
    cases given : site.lookup first with
    | none => simp [given] at bound
    | some value =>
      simp only [given, except_bind_ok, except_pure_ok] at bound
      obtain ⟨⟨inner, left⟩, run, same⟩ := bound
      cases same
      by_cases here : formal = first
      · subst here
        rw [Entries.lookup_insert_self] at found
        cases found
        exact Entries.mem_of_lookup given
      · rw [Entries.lookup_insert_of_ne _ _ here] at found
        exact (Entries.mem_erase.mp (ih run found)).1

/-- No argument of the reference is changed or added. -/
theorem CopiedFrom.sublist {s t : Supply} (copied : CopiedFrom plan target site s body rest t) :
    rest.Sublist site := by
  cases copied with
  | plain => exact List.Sublist.refl _
  | generic _ _ bound => exact bindFormals_sublist bound

theorem referWithin_sublist (run : referWithin plan budget target site w = .ok (inst, rest) w') :
    rest.Sublist site := by
  refine referWithin_spec (fun _ site _ _ rest _ => rest.Sublist site) ?_ budget run
  intro refer _ target site w inst rest w' copied
  obtain ⟨body, t, origin, -⟩ := copyDefinition_ok copied
  exact origin.sublist

end Pagewright
