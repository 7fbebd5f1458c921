import Pagewright.Proofs.MergeOutline
import Pagewright.Proofs.Parallel
import Pagewright.Proofs.Resolution
import Pagewright.Proofs.WalkOutline

/-!
# Instances do not depend on identifiers

Substituting, resolving and referring end alike for expressions of one outline,
whatever the supplies: with the same error, or with results of one outline. The
stack of definitions being resolved is all that a reference reads of the
workshop, and identifiers are all that it changes.
-/

namespace Pagewright

open Outcome

variable {w v : Workshop} {plan plan' : Plan} {e e' : Expression}

/-! ### Substitution -/

section Substituting

variable (change : ExpressionId → ExpressionId) (bindings : Bindings)

/-- Supplies need not have anything in common. -/
def AnySupply (_ _ : Supply) : Prop :=
  True

mutual

private theorem substitute_renumber : ∀ e : Expression,
    Parallel true SameOutline AnySupply
      (substitute (renumberArguments change bindings) (e.renumber change)) (substitute bindings e)
  | ⟨id, parent, kind, arguments⟩ => by
    simp only [Expression.renumber, substitute]
    refine (substituteArguments_renumber (change id) id arguments).bind fun a b same => .pure ?_
    exact Expression.outline_eq_iff.mpr ⟨by simp, rfl, same⟩

private theorem substituteArguments_renumber (owner owner' : ExpressionId) :
    ∀ arguments : Arguments,
      Parallel true SameArguments AnySupply
        (substituteArguments (renumberArguments change bindings) owner
          (renumberArguments change arguments))
        (substituteArguments bindings owner' arguments)
  | [] => by
    simp only [renumberArguments, substituteArguments]
    exact .pure .nil
  | (name, value) :: rest => by
    simp only [renumberArguments, substituteArguments]
    refine (substituteArgument_renumber owner owner' value).bind fun a b here => ?_
    refine (substituteArguments_renumber owner owner' rest).bind fun as bs later => ?_
    exact .pure (.cons ⟨rfl, here⟩ later)

private theorem substituteArgument_renumber (owner owner' : ExpressionId) : ∀ value : Argument,
    Parallel true (fun a b => a.outline = b.outline) AnySupply
      (substituteArgument (renumberArguments change bindings) owner (value.renumber change))
      (substituteArgument bindings owner' value)
  | .atom name => by
    simp only [Argument.renumber, substituteArgument, lookup_renumberArguments]
    cases bindings.lookup name with
    | none => exact .pure rfl
    | some actual =>
      exact .modifyGet fun s t _ => ⟨actual.outline_copy_renumber change owner owner' s t, trivial⟩
  | .list items => by
    simp only [Argument.renumber, substituteArgument]
    refine (substituteItems_renumber owner owner' items).bind fun as bs same => .pure ?_
    simp only [Argument.outline, Argument.renumber, renumberItems_eq, map_eq_map_iff_forall₂,
      Argument.list.injEq]
    exact same
  | .block children => by
    simp only [Argument.renumber, substituteArgument]
    refine (substituteBlock_renumber owner owner' children).bind fun as bs same => .pure ?_
    exact Argument.outline_block_eq_iff.mpr same
  | .text _ | .number _ => .pure rfl

private theorem substituteItems_renumber (owner owner' : ExpressionId) : ∀ items : List Argument,
    Parallel true (List.Forall₂ fun a b => a.outline = b.outline) AnySupply
      (substituteItems (renumberArguments change bindings) owner (renumberItems change items))
      (substituteItems bindings owner' items)
  | [] => by
    simp only [renumberItems, substituteItems]
    exact .pure .nil
  | item :: rest => by
    simp only [renumberItems, substituteItems]
    refine (substituteArgument_renumber owner owner' item).bind fun a b here => ?_
    refine (substituteItems_renumber owner owner' rest).bind fun as bs later => ?_
    exact .pure (.cons here later)

private theorem substituteBlock_renumber (owner owner' : ExpressionId) :
    ∀ children : List Expression,
    Parallel true (List.Forall₂ SameOutline) AnySupply
      (substituteBlock (renumberArguments change bindings) owner (renumberBlock change children))
      (substituteBlock bindings owner' children)
  | [] => by
    simp only [renumberBlock, substituteBlock]
    exact .pure .nil
  | child :: rest => by
    have here := substitute_renumber child
    have later := substituteBlock_renumber owner owner' rest
    simp only [renumberBlock, substituteBlock, lookup_renumberArguments, Expression.renumber_kind]
    cases bindings.lookup child.kind with
    | none =>
      exact here.bind fun a b first => later.bind fun as bs more => .pure (.cons first more)
    | some actual =>
      cases actual with
      | atom kind =>
        refine here.bind fun a b first => later.bind fun as bs more => .pure (.cons ?_ more)
        obtain ⟨links, -, arguments⟩ := Expression.outline_eq_iff.mp first
        exact Expression.outline_eq_iff.mpr ⟨links, rfl, arguments⟩
      | block replacement =>
        have bare : (child.renumber change).arguments.isEmpty = child.arguments.isEmpty := by
          rw [Expression.renumber_arguments, renumberArguments_eq, List.isEmpty_map]
        simp only [Option.map_some, Argument.renumber, bare]
        have copies : Parallel true (List.Forall₂ SameOutline) AnySupply
            (modifyGet (copyBlock (renumberBlock change replacement) owner) :
              EStateM Error Supply (List Expression))
            (modifyGet (copyBlock replacement owner')) := by
          refine .modifyGet fun s t _ => ⟨map_eq_map_iff_forall₂.mp ?_, trivial⟩
          have equal := outline_copyBlock_renumber change owner owner' s t replacement
          exact (renumberBlock_eq _ _).symm.trans (equal.trans (renumberBlock_eq _ _))
        split_ifs
        · exact .throw_bind
        · refine copies.bind fun as bs first => later.bind fun cs ds more => .pure ?_
          exact List.rel_append first more
      | text | number | list => exact .throw

end

end Substituting

/-- Substitution sees neither identifiers nor the supply. -/
theorem substitute_same {bindings bindings' : Bindings} (bound : SameArguments bindings bindings')
    (same : e.outline = e'.outline) :
    Parallel true SameOutline AnySupply (substitute bindings e) (substitute bindings' e') := by
  intro s t start
  -- Both run in parallel with the substitution of outlines.
  have first := substitute_renumber (fun _ => 0) bindings e s s trivial
  have second := substitute_renumber (fun _ => 0) bindings' e' s t trivial
  rw [renumberArguments_eq_iff.mpr bound] at first
  change Agree _ _ _ (substitute _ e.outline s) _ at first
  rw [same] at first
  change Agree _ _ _ (substitute _ e'.outline s) _ at second
  generalize substitute _ e'.outline s = middle at first second
  generalize substitute bindings e s = left at first ⊢
  generalize substitute bindings' e' t = right at second ⊢
  cases first with
  | ok former _ =>
    cases second with
    | ok latter _ => exact .ok (former.symm.trans latter) trivial
  | error =>
    cases second with
    | error => exact .error trivial
    | lost free => cases free
  | lost free => cases free

/-! ### References -/

def OnlyIds (w w' : Workshop) : Prop :=
  ∃ ids, w' = { w with ids }

theorem OnlyIds.refl (w : Workshop) : OnlyIds w w :=
  ⟨w.ids, rfl⟩

/-- Two workshops that have become `s` and `t` as identifiers were taken. -/
def BothTaken (w v s t : Workshop) : Prop :=
  OnlyIds w s ∧ OnlyIds v t

theorem BothTaken.start (w v : Workshop) : BothTaken w v w v :=
  ⟨.refl w, .refl v⟩

def SameInstance (first second : Expression × Arguments) : Prop :=
  first.1.outline = second.1.outline ∧ SameArguments first.2 second.2

/-- References that end alike for sites that are the same, and change nothing but identifiers in two
workshops. -/
def Refer.Alike (w v : Workshop) (refer other : Refer) : Prop :=
  ∀ target site site', SameArguments site site' →
    Parallel true SameInstance (BothTaken w v) (refer target site) (other target site')

/-- Steps on parts of two workshops are parallel if the parts belong together and still do when they
are put back. -/
theorem within_parallel {σ τ α β : Type} {strict : Bool} {same : α → β → Prop}
    {kept : Workshop → Workshop → Prop} {inner : Workshop → Workshop → σ → τ → Prop}
    {enter : Workshop → σ} {leave : Workshop → σ → Workshop} {enter' : Workshop → τ}
    {leave' : Workshop → τ → Workshop} {action : EStateM Error σ α} {other : EStateM Error τ β}
    (parallel : ∀ w v, kept w v → Parallel strict same (inner w v) action other)
    (enters : ∀ w v, kept w v → inner w v (enter w) (enter' v))
    (leaves : ∀ w v s t, kept w v → inner w v s t → kept (leave w s) (leave' v t)) :
    Parallel strict same kept (Building.within enter leave action)
      (Building.within enter' leave' other) := by
  intro w v start
  have agree := parallel w v start _ _ (enters w v start)
  unfold Building.within
  generalize action (enter w) = result at agree
  generalize other (enter' v) = result' at agree
  cases agree with
  | ok results states => exact .ok results (leaves w v _ _ start states)
  | error states => exact .error (leaves w v _ _ start states)
  | lost free => exact .lost free

private theorem onIds_parallel {α β : Type} {same : α → β → Prop} {action : EStateM Error Supply α}
    {other : EStateM Error Supply β} (parallel : Parallel true same AnySupply action other)
    (w v : Workshop) :
    Parallel true same (BothTaken w v) (Building.onIds action) (Building.onIds other) := by
  refine within_parallel (fun _ _ _ => parallel) (fun _ _ _ => trivial) ?_
  rintro _ _ ids ids' ⟨⟨_, rfl⟩, ⟨_, rfl⟩⟩ -
  exact ⟨⟨ids, rfl⟩, ⟨ids', rfl⟩⟩

private theorem whileResolving_parallel {α β : Type} {same : α → β → Prop} {action : Building α}
    {other : Building β} (name : String)
    (parallel : Parallel true same (BothTaken { w with resolving := name :: w.resolving }
      { v with resolving := name :: v.resolving }) action other) :
    Parallel true same (BothTaken w v) (Building.whileResolving name action)
      (Building.whileResolving name other) := by
  refine within_parallel (fun _ _ _ => parallel) ?_ ?_
  · rintro _ _ ⟨⟨ids, rfl⟩, ⟨ids', rfl⟩⟩
    exact ⟨⟨ids, rfl⟩, ⟨ids', rfl⟩⟩
  · rintro _ _ _ _ - ⟨⟨ids, rfl⟩, ⟨ids', rfl⟩⟩
    exact ⟨⟨ids, rfl⟩, ⟨ids', rfl⟩⟩

section Resolving

variable {w v : Workshop} {refer other : Refer}

private theorem join_same (alike : Refer.Alike w v refer other) (same : e.outline = e'.outline) :
    Parallel true SameOutline (BothTaken w v) (join refer e) (join other e') := by
  obtain ⟨links, kinds, arguments⟩ := Expression.outline_eq_iff.mp same
  -- What is merged in, whatever it is called.
  have taken : ∀ target, Parallel true SameOutline (BothTaken w v)
      (do
        let found ← refer target (Entries.erase e.arguments "inherits")
        return merge { e with arguments := found.2 } found.1)
      (do
        let found ← other target (Entries.erase e'.arguments "inherits")
        return merge { e' with arguments := found.2 } found.1) := by
    intro target
    refine (alike target _ _ (arguments.erase "inherits")).bind fun a b found => .pure ?_
    refine Expression.outline_merge ?_ found.1
    exact Expression.outline_eq_iff.mpr ⟨links, kinds, found.2⟩
  have inherits : (e.get? "inherits").map Argument.outline =
      (e'.get? "inherits").map Argument.outline := arguments.lookup "inherits"
  unfold join
  cases found : e.get? "inherits" with
  | none =>
    rw [found] at inherits
    have absent : e'.get? "inherits" = none := by simpa using inherits.symm
    simp only [absent, kinds]
    split_ifs
    · exact .pure same
    · exact taken e'.kind
  | some value =>
    rw [found] at inherits
    obtain ⟨value', found', outlines⟩ : ∃ value', e'.get? "inherits" = some value' ∧
        value'.outline = value.outline := by
      simpa using inherits.symm
    simp only [found']
    cases value with
    | text target =>
      have equal : value' = .text target := by
        cases value' <;> simp_all [Argument.outline, Argument.renumber]
      subst equal
      exact taken target
    | atom | number | block | list =>
      cases value' <;> simp_all only [Argument.outline, Argument.renumber, Argument.typeName,
        reduceCtorEq, Parallel.throw]

private theorem resolveArgument_leaf (refer : Refer) {value : Argument}
    (leaf : value.block? = none) : resolveArgument refer value = pure value := by
  cases value with
  | block children => simp [Argument.block?] at leaf
  | atom | text | number | list => rfl

/-- A value is resolved alike if everything in it is. -/
theorem resolveArgument_same {value value' : Argument} (same : value.outline = value'.outline)
    (each : ∀ children, value = .block children → ∀ child ∈ children, ∀ child',
      child.outline = child'.outline →
        Parallel true SameOutline (BothTaken w v) (resolve refer child) (resolve other child')) :
    Parallel true (fun a b => a.outline = b.outline) (BothTaken w v) (resolveArgument refer value)
      (resolveArgument other value') := by
  cases block : value.block? with
  | none =>
    have block' : value'.block? = none := by
      have equal := congrArg Argument.block? same
      simpa [Argument.outline, Argument.renumber_block?, block] using equal.symm
    rw [resolveArgument_leaf refer block, resolveArgument_leaf other block']
    exact .pure same
  | some children =>
    obtain rfl := Argument.eq_block block
    obtain ⟨children', rfl, entries⟩ := Argument.outline_eq_block same
    have blocks : Parallel true (List.Forall₂ SameOutline) (BothTaken w v) (children.mapM (resolve refer))
        (children'.mapM (resolve other)) :=
      .mapM entries fun child inside child' outlines => each children rfl child inside child' outlines
    simp only [resolveArgument, resolveBlock_eq]
    exact blocks.bind fun as bs results => .pure (Argument.outline_block_eq_iff.mpr results)

private theorem resolve_same (alike : Refer.Alike w v refer other) (same : e.outline = e'.outline) :
    Parallel true SameOutline (BothTaken w v) (resolve refer e) (resolve other e') := by
  induction e using Expression.inductionOn generalizing e' with
  | step owner ih =>
    obtain ⟨links, kinds, arguments⟩ := Expression.outline_eq_iff.mp same
    have each : Parallel true SameArguments (BothTaken w v) (resolveArguments refer owner.arguments)
        (resolveArguments other e'.arguments) := by
      rw [resolveArguments_eq, resolveArguments_eq]
      refine Parallel.mapM arguments fun entry member entry' ⟨names, values⟩ => ?_
      refine (resolveArgument_same values ?_).bind fun a b result => .pure ⟨names, result⟩
      intro children equal child inside child' outlines
      have listed : (entry.1, Argument.block children) ∈ owner.arguments := by rwa [← equal]
      exact ih entry.1 child ⟨children, listed, inside⟩ outlines
    obtain ⟨id, parent, kind, own⟩ := owner
    obtain ⟨id', parent', kind', own'⟩ := e'
    simp only [resolve]
    refine each.bind fun as bs resolved => join_same alike ?_
    exact Expression.outline_eq_iff.mpr ⟨links, kinds, resolved⟩

end Resolving

/-- What is built from tables that are alike under the same settings. -/
structure Plan.Alike (plan other : Plan) : Prop where
  table : plan.table.Alike other.table
  rowLimit : plan.rowLimit = other.rowLimit
  defaultScripts : plan.defaultScripts = other.defaultScripts

theorem Plan.Alike.refl (plan : Plan) : plan.Alike plan :=
  ⟨.refl _, rfl, rfl⟩

theorem SameArguments.symm {first second : Arguments} (same : SameArguments first second) :
    SameArguments second first :=
  renumberArguments_eq_iff.mp (renumberArguments_eq_iff.mpr same).symm

private theorem copyDefinition_same (plans : plan.Alike plan') {refer other : Refer}
    (alike : Refer.Alike w v refer other) (target : String) {site site' : Arguments}
    (same : SameArguments site site') :
    Parallel true SameInstance (BothTaken w v) (copyDefinition plan refer target site)
      (copyDefinition plan' other target site') := by
  unfold copyDefinition
  rcases plans.table.cases target with
    ⟨first, second⟩ | ⟨definition, counterpart, first, second, outlines⟩
  · simp only [first, second]
    exact .throw
  · simp only [first, second]
    have copies : Parallel true SameOutline (BothTaken w v)
        (Building.onIds (modifyGet (definition.expression.copy none)))
        (Building.onIds (modifyGet (counterpart.expression.copy none))) :=
      onIds_parallel (.modifyGet fun s t _ => ⟨Expression.outline_copy outlines rfl s t, trivial⟩) w v
    refine copies.bind fun copy copy' copied => ?_
    rw [Expression.isGeneric_of_outline copied, Expression.parameters_of_outline copied]
    split_ifs
    · have bound : Parallel true (fun a b => SameArguments a.1 b.1 ∧ SameArguments a.2 b.2) (BothTaken w v)
          (ofExcept (bindFormals target copy'.parameters site) : Building (Bindings × Arguments))
          (ofExcept (bindFormals target copy'.parameters site')) := by
        refine .ofExcept ?_ fun e => bindFormals_error same
        rintro ⟨bindings, rest⟩ found
        obtain ⟨bindings', rest', found', related⟩ := bindFormals_same same found
        exact ⟨(bindings', rest'), found', related⟩
      refine bound.bind fun a b results => ?_
      refine (onIds_parallel (substitute_same results.1
        (Expression.outline_unset copied "parameters")) w v).bind fun body body' bodies => ?_
      exact (resolve_same alike bodies).bind fun inst inst' instances => .pure ⟨instances, results.2⟩
    · exact (resolve_same alike copied).bind fun inst inst' instances => .pure ⟨instances, same⟩

private theorem referWithin_same (plans : plan.Alike plan') (budget : Nat)
    (aligned : w.resolving = v.resolving) :
    Refer.Alike w v (referWithin plan budget) (referWithin plan' budget) := by
  induction budget generalizing w v with
  | zero => exact fun _ _ _ _ => .throw
  | succ budget ih =>
    intro target site site' same
    simp only [referWithin]
    refine Parallel.get.bind ?_
    rintro s t ⟨⟨_, first⟩, ⟨_, second⟩⟩
    rw [first, second, aligned]
    dsimp only
    split_ifs
    · exact .throw_bind
    · apply whileResolving_parallel
      exact copyDefinition_same plans (ih (congrArg (List.cons target) aligned)) target same

/-- References run alike under plans that are alike. -/
theorem referTo_same (plans : plan.Alike plan') (aligned : w.resolving = v.resolving) :
    Refer.Alike w v (referTo plan) (referTo plan') := by
  unfold referTo
  rw [plans.table.size]
  exact referWithin_same plans _ aligned

/-- References only take identifiers. -/
theorem referWithin_onlyIds {budget : Nat} {target : String} {site : Arguments}
    {result : Expression × Arguments} {w' : Workshop}
    (run : referWithin plan budget target site w = .ok result w') : OnlyIds w w' := by
  have alike := referWithin_same (.refl plan) budget (rfl : w.resolving = w.resolving)
  obtain ⟨_, _, -, -, taken, -⟩ := (alike target site site (.refl site)).ok (.start w w) run
  exact taken

end Pagewright
