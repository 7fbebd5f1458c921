import Pagewright.Instance.Build
import Pagewright.Proofs.Outline

/-!
# Renumbering commutes with building

Setting and dropping arguments, binding parameters and merging move expressions
around without looking at their identifiers, so it makes no difference whether
expressions are renumbered before or after. A copy gets identifiers of its own:
its outline depends on the outline of what is copied alone.
-/

namespace Pagewright

variable {site site' : Arguments} {second first : Expression} {formals : List String}
  {target : String}

section

variable (change : ExpressionId → ExpressionId)

/-! ### Arguments -/

theorem renumberArguments_insert (name : String) (value : Argument) (arguments : Arguments) :
    renumberArguments change (Entries.insert name value arguments) =
      Entries.insert name (value.renumber change) (renumberArguments change arguments) := by
  induction arguments with
  | nil => rfl
  | cons entry rest ih =>
    obtain ⟨other, kept⟩ := entry
    simp only [Entries.insert, renumberArguments]
    split_ifs with same before
    · rfl
    · rfl
    · simp only [renumberArguments, ih]

private theorem renumberArguments_erase (arguments : Arguments) (name : String) :
    renumberArguments change (Entries.erase arguments name) =
      Entries.erase (renumberArguments change arguments) name := by
  simp only [renumberArguments_eq, Entries.erase, List.filter_map, Function.comp_def]

theorem Expression.renumber_set (e : Expression) (name : String) (value : Argument) :
    (e.set name value).renumber change = (e.renumber change).set name (value.renumber change) := by
  obtain ⟨id, parent, kind, arguments⟩ := e
  simp only [Expression.set, Expression.renumber, renumberArguments_insert]

private theorem Expression.renumber_unset (e : Expression) (name : String) :
    (e.unset name).renumber change = (e.renumber change).unset name := by
  obtain ⟨id, parent, kind, arguments⟩ := e
  simp only [Expression.unset, Expression.renumber, renumberArguments_erase]

private theorem bindFormals_renumber (target : String) (formals : List String) (site : Arguments) :
    bindFormals target formals (renumberArguments change site) =
      (bindFormals target formals site).map fun bound =>
        (renumberArguments change bound.1, renumberArguments change bound.2) := by
  induction formals generalizing site with
  | nil => rfl
  | cons formal rest ih =>
    simp only [bindFormals, lookup_renumberArguments]
    cases site.lookup formal with
    | none => rfl
    | some actual =>
      simp only [Option.map_some, ← renumberArguments_erase, ih]
      cases bindFormals target rest (Entries.erase site formal) with
      | error e => rfl
      | ok bound =>
        obtain ⟨bindings, left⟩ := bound
        simp [bind, Except.bind, Except.map, pure, Except.pure, renumberArguments_insert]

/-! ### Merging -/

mutual

private theorem Argument.renumber_adopt (owner : ExpressionId) : ∀ value : Argument,
    (value.adopt owner).renumber change = (value.renumber change).adopt (change owner)
  | .block children => by
    simp only [Argument.adopt, Argument.renumber, renumberBlock_eq, List.map_map]
    congr 1
    refine List.map_congr_left fun child _ => ?_
    obtain ⟨id, parent, kind, arguments⟩ := child
    rfl
  | .list items => by
    simp only [Argument.adopt, Argument.renumber, renumberItems_adopt owner items]
  | .atom _ | .text _ | .number _ => rfl

private theorem renumberItems_adopt (owner : ExpressionId) : ∀ items : List Argument,
    renumberItems change (adoptItems owner items) =
      adoptItems (change owner) (renumberItems change items)
  | [] => rfl
  | item :: rest => by
    simp only [adoptItems, renumberItems, item.renumber_adopt owner, renumberItems_adopt owner rest]

end

private theorem renumberArguments_mergeArgument (owner : ExpressionId) (own : Arguments)
    (name : String) (value : Argument) :
    renumberArguments change (mergeArgument owner own name value) =
      mergeArgument (change owner) (renumberArguments change own) name (value.renumber change) := by
  unfold mergeArgument
  by_cases kept : ownNames.contains name
  · rw [if_pos kept, if_pos kept]
  · rw [if_neg kept, if_neg kept, lookup_renumberArguments]
    cases own.lookup name with
    | none =>
      simp only [Option.map_none, renumberArguments_insert, Argument.renumber_adopt]
    | some mine =>
      cases mine with
      | list items =>
        cases value with
        | list taken =>
          simp only [Option.map_some, Argument.renumber]
          split_ifs
          · simp only [renumberArguments_insert, Argument.renumber, renumberItems_eq,
              List.map_append]
          · rfl
        | atom | text | number | block => rfl
      | atom | text | number | block => rfl

private theorem Expression.renumber_merge (child parent : Expression) :
    (merge child parent).renumber change =
      merge (child.renumber change) (parent.renumber change) := by
  have arguments : ∀ (taken own : Arguments),
      renumberArguments change
          (taken.foldl (fun own entry => mergeArgument child.id own entry.1 entry.2) own) =
        (renumberArguments change taken).foldl
          (fun own entry => mergeArgument (change child.id) own entry.1 entry.2)
          (renumberArguments change own) := by
    intro taken
    induction taken with
    | nil => exact fun _ => rfl
    | cons entry rest ih =>
      intro own
      simp only [List.foldl_cons, renumberArguments, ih, renumberArguments_mergeArgument]
  obtain ⟨id, link, kind, own⟩ := child
  obtain ⟨id', link', kind', taken⟩ := parent
  simp only [merge, Expression.renumber, arguments, renumberArguments_erase]

end

/-! ### The same on equal outlines -/

theorem SameArguments.refl (arguments : Arguments) : SameArguments arguments arguments :=
  renumberArguments_eq_iff.mp rfl

theorem SameArguments.lookup {first second : Arguments} (same : SameArguments first second)
    (name : String) :
    (first.lookup name).map Argument.outline = (second.lookup name).map Argument.outline := by
  have images := congrArg (List.lookup name) (renumberArguments_eq_iff.mpr same)
  rwa [lookup_renumberArguments, lookup_renumberArguments] at images

theorem SameContent.get?_none (contents : SameContent first second) {name : String}
    (missing : first.get? name = none) : second.get? name = none := by
  have same := contents.arguments.lookup name
  rw [show first.arguments.lookup name = none from missing] at same
  exact Option.map_eq_none_iff.mp same.symm

theorem SameArguments.erase {first second : Arguments} (same : SameArguments first second)
    (name : String) : SameArguments (Entries.erase first name) (Entries.erase second name) := by
  rw [← renumberArguments_eq_iff] at same ⊢
  rw [renumberArguments_erase, renumberArguments_erase, same]

theorem Expression.outline_unset (same : first.outline = second.outline) (name : String) :
    (first.unset name).outline = (second.unset name).outline := by
  have images := congrArg (Expression.unset · name) same
  simpa only [Expression.outline, Expression.renumber_unset] using images

theorem Expression.outline_merge {child child' parent parent' : Expression}
    (children : child.outline = child'.outline) (parents : parent.outline = parent'.outline) :
    (merge child parent).outline = (merge child' parent').outline := by
  rw [Expression.outline, Expression.renumber_merge, Expression.outline, Expression.renumber_merge]
  exact congrArg₂ merge children parents

/-- Parameters are bound alike to arguments that are the same. -/
theorem bindFormals_outline (target : String) (formals : List String)
    (same : SameArguments site site') :
    (bindFormals target formals site).map (fun bound =>
        (renumberArguments (fun _ => 0) bound.1, renumberArguments (fun _ => 0) bound.2)) =
      (bindFormals target formals site').map fun bound =>
        (renumberArguments (fun _ => 0) bound.1, renumberArguments (fun _ => 0) bound.2) := by
  rw [← bindFormals_renumber, ← bindFormals_renumber, renumberArguments_eq_iff.mpr same]

theorem bindFormals_same {rest : Arguments} {bindings : Bindings}
    (same : SameArguments site site')
    (bound : bindFormals target formals site = .ok (bindings, rest)) :
    ∃ bindings' rest', bindFormals target formals site' = .ok (bindings', rest') ∧
      SameArguments bindings bindings' ∧ SameArguments rest rest' := by
  have images := bindFormals_outline target formals same
  rw [bound] at images
  cases found : bindFormals target formals site' with
  | error e => simp [found, Except.map] at images
  | ok other =>
    simp only [found, Except.map, Except.ok.injEq, Prod.mk.injEq] at images
    exact ⟨other.1, other.2, rfl, renumberArguments_eq_iff.mp images.1,
      renumberArguments_eq_iff.mp images.2⟩

theorem bindFormals_error {e : Error} (same : SameArguments site site')
    (failed : bindFormals target formals site = .error e) :
    bindFormals target formals site' = .error e := by
  have images := bindFormals_outline target formals same
  rw [failed] at images
  cases found : bindFormals target formals site' with
  | error other => simpa [found, Except.map, eq_comm] using images
  | ok other => simp [found, Except.map] at images

/-! ### Copies -/

section

variable (change : ExpressionId → ExpressionId)

mutual

private theorem Expression.outline_copy_renumber (link link' : Option ExpressionId)
    (links : link.isSome = link'.isSome) (supply supply' : Supply) : ∀ e : Expression,
    ((e.renumber change).copy link supply).1.outline = (e.copy link' supply').1.outline
  | ⟨id, parent, kind, arguments⟩ => by
    simp only [Expression.renumber, Expression.copy, Expression.outline, Expression.mk.injEq,
      true_and]
    refine ⟨?_, outline_copyArguments_renumber _ _ _ _ arguments⟩
    cases link <;> cases link' <;> simp_all

private theorem outline_copyArguments_renumber (owner owner' : ExpressionId)
    (supply supply' : Supply) :
    ∀ arguments : Arguments,
      renumberArguments (fun _ => 0)
          (copyArguments (renumberArguments change arguments) owner supply).1 =
        renumberArguments (fun _ => 0) (copyArguments arguments owner' supply').1
  | [] => rfl
  | (name, value) :: rest => by
    simp only [renumberArguments, copyArguments, List.cons.injEq, Prod.mk.injEq, true_and]
    exact ⟨value.outline_copy_renumber owner owner' _ _,
      outline_copyArguments_renumber owner owner' _ _ rest⟩

theorem Argument.outline_copy_renumber (owner owner' : ExpressionId) (supply supply' : Supply) :
    ∀ value : Argument,
      ((value.renumber change).copy owner supply).1.renumber (fun _ => 0) =
        (value.copy owner' supply').1.renumber fun _ => 0
  | .block children => by
    simp only [Argument.renumber, Argument.copy, Argument.block.injEq]
    exact outline_copyBlock_renumber owner owner' _ _ children
  | .list items => by
    simp only [Argument.renumber, Argument.copy, Argument.list.injEq]
    exact outline_copyItems_renumber owner owner' _ _ items
  | .atom _ | .text _ | .number _ => rfl

theorem outline_copyBlock_renumber (owner owner' : ExpressionId) (supply supply' : Supply) :
    ∀ children : List Expression,
      renumberBlock (fun _ => 0) (copyBlock (renumberBlock change children) owner supply).1 =
        renumberBlock (fun _ => 0) (copyBlock children owner' supply').1
  | [] => rfl
  | child :: rest => by
    simp only [renumberBlock, copyBlock, List.cons.injEq]
    exact ⟨child.outline_copy_renumber (some owner) (some owner') rfl _ _, outline_copyBlock_renumber owner owner' _ _ rest⟩

private theorem outline_copyItems_renumber (owner owner' : ExpressionId) (supply supply' : Supply) :
    ∀ items : List Argument,
      renumberItems (fun _ => 0) (copyItems (renumberItems change items) owner supply).1 =
        renumberItems (fun _ => 0) (copyItems items owner' supply').1
  | [] => rfl
  | item :: rest => by
    simp only [renumberItems, copyItems, List.cons.injEq]
    exact ⟨item.outline_copy_renumber owner owner' _ _,
      outline_copyItems_renumber owner owner' _ _ rest⟩

end

end

/-- Copies of expressions with one outline have one outline. -/
theorem Expression.outline_copy (same : first.outline = second.outline)
    {link link' : Option ExpressionId} (links : link.isSome = link'.isSome)
    (supply supply' : Supply) :
    (first.copy link supply).1.outline = (second.copy link' supply').1.outline :=
  calc (first.copy link supply).1.outline
    _ = (first.outline.copy link' supply').1.outline :=
      (first.outline_copy_renumber _ _ _ links.symm _ _).symm
    _ = (second.outline.copy link' supply').1.outline := by rw [same]
    _ = (second.copy link' supply').1.outline := second.outline_copy_renumber _ _ _ rfl _ _

end Pagewright
