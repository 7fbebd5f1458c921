import Pagewright.Proofs.Clearance
import Pagewright.Proofs.MergeLaws
import Pagewright.Proofs.Walk

/-!
# The root of an instance

Copying, substituting and resolving keep the texts among the arguments of an
expression, and give it no argument of another name. So the name that a
definition defines stays a text, and the text after `inherits` is followed as it
was written. In a table that has passed its check the instance of a definition
has the kind at the end of the definition's chain of kinds.
-/

namespace Pagewright

open Outcome

variable {w w' : Workshop} {name target : String} {e body inst second first : Expression}
  {rest site arguments results before after : Arguments} {value : Argument} {s t : Supply}
  {budget depth : Nat} {definition : Definition} {kind : Kind} {owner : ExpressionId}

/-- Arguments of the same names, texts among them included. -/
structure KeepsTexts (before after : Arguments) : Prop where
  names : after.map Prod.fst = before.map Prod.fst
  texts : ∀ name value, before.lookup name = some (.text value) →
    after.lookup name = some (.text value)

theorem KeepsTexts.absent (keeps : KeepsTexts before after)
    (missing : before.lookup name = none) : after.lookup name = none := by
  have same := Entries.lookup_isSome_of_names keeps.names name
  simpa [missing] using same

private theorem substituteArguments_keepsTexts {bindings : Bindings}
    (run : substituteArguments bindings owner arguments s = .ok results t) :
    KeepsTexts arguments results := by
  rw [substituteArguments_eq, mapM_ok] at run
  have each : List.Forall₂ (fun entry result => entry.1 = result.1 ∧
      ∀ text, entry.2 = .text text → result.2 = .text text) arguments results := by
    refine (run.forall₂ (fun _ => True) trivial ?_).2
    rintro entry - s result s' - step
    obtain ⟨value, t, ran, last⟩ := bind_ok.mp step
    obtain ⟨rfl, rfl⟩ := pure_ok.mp last
    refine ⟨trivial, rfl, fun text written => ?_⟩
    rw [written, substituteArgument, pure_ok] at ran
    exact ran.1.symm
  refine ⟨Entries.names_of_forall₂ each fun _ _ => And.left, fun name text found => ?_⟩
  rcases Entries.lookup_of_forall₂ each (fun _ _ => And.left) name with
    ⟨missing, -⟩ | ⟨_, _, there, here, -, kept⟩
  · simp [missing] at found
  · exact here.trans (congrArg some (kept text (Option.some.inj (there.symm.trans found))))

/-! ### Values without blocks -/

private theorem copyItems_self {items : List Argument}
    (each : ∀ item ∈ items, ∀ supply, (item.copy owner supply).1 = item) (supply : Supply) :
    (copyItems items owner supply).1 = items := by
  induction items generalizing supply with
  | nil => rfl
  | cons item rest ih =>
    simp only [copyItems]
    rw [each item List.mem_cons_self, ih (List.forall_mem_cons.mp each).2]

/-- A value without blocks is its own copy. -/
theorem Argument.Blockless.copy (blockless : value.Blockless) (owner : ExpressionId)
    (supply : Supply) : (value.copy owner supply).1 = value := by
  induction blockless generalizing supply with
  | atom | text | number => rfl
  | list _ ih => simp only [Argument.copy, copyItems_self ih]

mutual

/-- The copy of a block is a block. -/
theorem Argument.blockless_of_copy (owner : ExpressionId) : ∀ (value : Argument) (supply : Supply),
    (value.copy owner supply).1.Blockless → value.Blockless
  | .atom name, _, _ => .atom name
  | .text value, _, _ => .text value
  | .number digits, _, _ => .number digits
  | .block _, _, blockless => nomatch blockless
  | .list items, supply, blockless => by
    cases blockless with
    | list each => exact .list (blockless_of_copyItems owner items supply each)

private theorem blockless_of_copyItems (owner : ExpressionId) :
    ∀ (items : List Argument) (supply : Supply),
    (∀ item ∈ (copyItems items owner supply).1, item.Blockless) → ∀ item ∈ items, item.Blockless
  | [], _, _ => nofun
  | item :: rest, supply, each => by
    simp only [copyItems, List.forall_mem_cons] at each ⊢
    exact ⟨Argument.blockless_of_copy owner item supply each.1,
      blockless_of_copyItems owner rest _ each.2⟩

end

/-- Arguments of the same names, values without blocks among them included. -/
structure KeepsBlockless (before after : Arguments) : Prop where
  names : after.map Prod.fst = before.map Prod.fst
  values : ∀ name value, value.Blockless →
    (after.lookup name = some value ↔ before.lookup name = some value)

theorem KeepsBlockless.trans {first second third : Arguments} (start : KeepsBlockless first second)
    (rest : KeepsBlockless second third) : KeepsBlockless first third :=
  ⟨rest.names.trans start.names, fun name value blockless =>
    (rest.values name value blockless).trans (start.values name value blockless)⟩

theorem KeepsBlockless.keepsTexts (keeps : KeepsBlockless before after) : KeepsTexts before after :=
  ⟨keeps.names, fun name value => (keeps.values name _ (.text value)).mpr⟩

theorem KeepsBlockless.isSome (keeps : KeepsBlockless before after) (name : String) :
    (after.lookup name).isSome = (before.lookup name).isSome :=
  Entries.lookup_isSome_of_names keeps.names name

theorem KeepsBlockless.absent (keeps : KeepsBlockless before after)
    (missing : before.lookup name = none) : after.lookup name = none :=
  keeps.keepsTexts.absent missing

theorem KeepsBlockless.of_forall₂
    (each : List.Forall₂ (fun entry result : String × Argument => entry.1 = result.1 ∧
      ∀ value : Argument, value.Blockless → (result.2 = value ↔ entry.2 = value)) before after) :
    KeepsBlockless before after := by
  refine ⟨Entries.names_of_forall₂ each fun _ _ => And.left, fun name value blockless => ?_⟩
  rcases Entries.lookup_of_forall₂ each (fun _ _ => And.left) name with
    ⟨missing, missing'⟩ | ⟨_, _, found, found', -, same⟩
  · rw [missing, missing']
  · rw [found, found', Option.some.injEq, Option.some.injEq, same value blockless]

private theorem copyArguments_keepsBlockless (arguments : Arguments) (owner : ExpressionId)
    (supply : Supply) : KeepsBlockless arguments (copyArguments arguments owner supply).1 := by
  apply KeepsBlockless.of_forall₂
  induction arguments generalizing supply with
  | nil => exact .nil
  | cons entry rest ih =>
    refine .cons ⟨rfl, fun value blockless => ⟨?_, ?_⟩⟩ (ih _)
    · rintro rfl
      exact ((Argument.blockless_of_copy owner entry.2 supply blockless).copy owner supply).symm
    · intro same
      show (entry.2.copy owner supply).1 = value
      rw [same, blockless.copy]

/-- A copy has the names of the original and its values without blocks. -/
theorem Expression.copy_keepsBlockless (e : Expression) (parent : Option ExpressionId)
    (supply : Supply) : KeepsBlockless e.arguments (e.copy parent supply).1.arguments := by
  rw [Expression.copy_arguments]
  exact copyArguments_keepsBlockless e.arguments _ _

theorem resolveArguments_keepsBlockless {refer : Refer}
    (run : resolveArguments refer arguments w = .ok results w') :
    KeepsBlockless arguments results := by
  rw [resolveArguments_eq, mapM_ok] at run
  refine .of_forall₂ (run.forall₂ (fun _ => True) trivial ?_).2
  rintro entry - s result s' - step
  obtain ⟨value, t, ran, last⟩ := bind_ok.mp step
  obtain ⟨rfl, rfl⟩ := pure_ok.mp last
  refine ⟨trivial, rfl, fun other blockless => ?_⟩
  rcases resolveArgument_ok ran with ⟨rfl, -, -⟩ | ⟨_, _, written, rfl, -⟩
  · exact Iff.rfl
  · rw [written]
    constructor <;> (rintro rfl; cases blockless)

/-! ### The copy of an expression -/

section

variable (e : Expression) (parent : Option ExpressionId) (supply : Supply)

@[simp] theorem Expression.copy_has (name : String) :
    (e.copy parent supply).1.has name = e.has name :=
  (e.copy_keepsBlockless parent supply).isSome name

@[simp] theorem Expression.copy_isGeneric : (e.copy parent supply).1.isGeneric = e.isGeneric :=
  e.copy_has parent supply "parameters"

@[simp] theorem Expression.copy_isConcrete :
    (e.copy parent supply).1.isConcrete = e.isConcrete := by
  simp [Expression.isConcrete]

end

/-! ### The copy of a definition -/

variable {plan : Plan} {refer : Refer}

/-- A definition is copied with its kind, and with its texts but for the parameters it had. -/
theorem CopiedFrom.keeps (copied : CopiedFrom plan target site s body rest t) :
    ∃ definition, plan.table.find? target = some definition ∧
      body.kind = definition.expression.kind ∧ body.parent = none ∧
      (∀ name, name ≠ "parameters" → definition.expression.get? name = none →
        body.get? name = none) ∧
      ∀ name value, name ≠ "parameters" → definition.expression.get? name = some (.text value) →
        body.get? name = some (.text value) := by
  cases copied with
  | @plain definition found _ =>
    have keeps := (definition.expression.copy_keepsBlockless none s).keepsTexts
    exact ⟨definition, found, by simp, by simp, fun name _ => keeps.absent,
      fun name value _ => keeps.texts name value⟩
  | @generic definition bindings _ _ _ found _ bound substituted =>
    have keeps := (definition.expression.copy_keepsBlockless none s).keepsTexts
    obtain ⟨arguments, run, rfl⟩ := substitute_ok.mp substituted
    have later := substituteArguments_keepsTexts run
    refine ⟨definition, found, by simp [Expression.unset], by simp [Expression.unset], ?_, ?_⟩
    · intro name other missing
      refine later.absent ?_
      rw [Expression.unset, Entries.lookup_erase_of_ne _ other]
      exact keeps.absent missing
    · intro name value other text
      refine later.texts name value ?_
      rw [Expression.unset, Entries.lookup_erase_of_ne _ other]
      exact keeps.texts name value text

private theorem resolve_root {result : Expression} (run : resolve refer e w = .ok result w') :
    ∃ arguments u, KeepsTexts e.arguments arguments ∧
      JoinedFrom refer { e with arguments } u w' result := by
  obtain ⟨arguments, u, resolved, joined⟩ := resolve_ok.mp run
  exact ⟨arguments, u, (resolveArguments_keepsBlockless resolved).keepsTexts, join_ok joined⟩

/-! ### Parameters -/

private theorem CopiedFrom.ordered (copied : CopiedFrom plan target site s body rest t)
    (tidy : plan.table.Tidy) : Entries.Ordered body.arguments := by
  cases copied with
  | @plain definition found _ =>
    have ordered := (tidy target definition found).here.ordered
    exact ordered.of_names (definition.expression.copy_keepsBlockless none s).names
  | @generic definition bindings _ _ _ found _ bound substituted =>
    have ordered := (tidy target definition found).here.ordered
    have copy := ordered.of_names (definition.expression.copy_keepsBlockless none s).names
    obtain ⟨arguments, run, rfl⟩ := substitute_ok.mp substituted
    exact (copy.erase "parameters").of_names (substituteArguments_keepsTexts run).names

/-- No parameter is left once a definition has been copied. -/
theorem CopiedFrom.closed (copied : CopiedFrom plan target site s body rest t) :
    body.get? "parameters" = none := by
  cases copied with
  | plain _ concrete => exact Option.not_isSome_iff_eq_none.mp (Bool.eq_false_iff.mp concrete)
  | @generic definition bindings _ _ _ found _ bound substituted =>
    obtain ⟨arguments, run, rfl⟩ := substitute_ok.mp substituted
    exact (substituteArguments_keepsTexts run).absent (Entries.lookup_erase_self _ _)

/-- An argument that is missing is missing among fewer arguments. -/
theorem Entries.Ordered.lookup_none_of_sublist {β : Type} {all left : Entries β}
    (ordered : Entries.Ordered all) (fewer : left.Sublist all) (missing : all.lookup name = none) :
    left.lookup name = none := by
  cases found : left.lookup name with
  | none => rfl
  | some value =>
    rw [ordered.lookup_of_mem (fewer.mem (Entries.mem_of_lookup found))] at missing
    cases missing

/-- An instance takes no parameters, and its arguments are in order. -/
theorem referWithin_closed (tidy : plan.table.Tidy) (ordered : Entries.Ordered site)
    (run : referWithin plan budget target site w = .ok (inst, rest) w') :
    Entries.Ordered inst.arguments ∧ inst.get? "parameters" = none := by
  have general : Entries.Ordered site →
      Entries.Ordered inst.arguments ∧ inst.get? "parameters" = none ∧ rest.Sublist site := by
    refine referWithin_spec (fun _ site _ inst rest _ => Entries.Ordered site →
      Entries.Ordered inst.arguments ∧ inst.get? "parameters" = none ∧ rest.Sublist site) ?_ budget
      run
    intro refer ih target site w inst rest w' copied ordered
    obtain ⟨body, t, origin, resolved⟩ := copyDefinition_ok copied
    obtain ⟨arguments, u, keeps, joined⟩ := resolve_root resolved
    have inOrder : Entries.Ordered arguments := (origin.ordered tidy).of_names keeps.names
    have missing := keeps.absent origin.closed
    cases joined with
    | alone => exact ⟨inOrder, missing, origin.sublist⟩
    | @merged target parent left _ referred =>
      have site := inOrder.erase "inherits"
      obtain ⟨parentOrder, parentMissing, fewer⟩ := ih _ _ _ _ _ _ referred site
      refine ⟨merge_ordered (List.Pairwise.sublist fewer site), ?_, origin.sublist⟩
      have absent : Expression.get? { body with arguments := left } "parameters" = none := by
        refine site.lookup_none_of_sublist fewer ?_
        rwa [Entries.lookup_erase_of_ne _ (by decide)]
      rw [merge_get? parentOrder, parentMissing, mergedValue_none,
        Expression.get?_unset_of_ne _ (by decide), absent]
  exact ⟨(general ordered).1, (general ordered).2.1⟩

/-! ### What an expression refers to -/

def Expression.refersTo? (e : Expression) : Option String :=
  if e.has "inherits" then e.text? "inherits"
  else if Kind.isBuiltIn e.kind then none
  else some e.kind

/-- Where something is inherited, the kind is no reference. -/
theorem Expression.refersTo?_eq_some :
    e.refersTo? = some target ↔ e.get? "inherits" = some (.text target) ∨
      e.get? "inherits" = none ∧ Kind.isBuiltIn e.kind = false ∧ e.kind = target := by
  rw [← Expression.text?_eq_some, refersTo?, has, text?]
  cases e.get? "inherits" with
  | some value => simp
  | none => cases Kind.isBuiltIn e.kind <;> simp

theorem Expression.refersTo?_eq_none (inherits : e.get? "inherits" = none)
    (builtIn : Kind.isBuiltIn e.kind = true) : e.refersTo? = none := by
  simp [refersTo?, has, inherits, builtIn]

/-- Expressions of one kind that inherit the same. -/
structure SameReference (first second : Expression) : Prop where
  kind : first.kind = second.kind
  has : first.has "inherits" = second.has "inherits"
  text : first.text? "inherits" = second.text? "inherits"

theorem SameReference.trans {third : Expression} (start : SameReference first second)
    (rest : SameReference second third) : SameReference first third :=
  ⟨start.kind.trans rest.kind, start.has.trans rest.has, start.text.trans rest.text⟩

theorem SameReference.refersTo? (same : SameReference first second) :
    first.refersTo? = second.refersTo? := by
  rw [Expression.refersTo?, Expression.refersTo?, same.kind, same.has, same.text]

theorem SameReference.copy (e : Expression) (parent : Option ExpressionId) (supply : Supply) :
    SameReference e (e.copy parent supply).1 :=
  ⟨by simp, by simp, by simp⟩

/-- An expression inherits the same after its blocks are resolved. -/
theorem resolveArguments_sameReference {before after : Expression}
    (kind : before.kind = after.kind)
    (run : resolveArguments refer before.arguments w = .ok after.arguments w') :
    SameReference before after where
  kind := kind
  has := ((resolveArguments_keepsBlockless run).isSome "inherits").symm
  text := by
    refine Option.ext fun value => ?_
    rw [Expression.text?_eq_some, Expression.text?_eq_some]
    exact ((resolveArguments_keepsBlockless run).values _ _ (.text value)).symm

/-! ### The name an instance defines -/

/-- Every definition has its own name written out. -/
def Table.Named (table : Table) : Prop :=
  ∀ name definition, table.find? name = some definition →
    definition.expression.get? "defines" = some (.text name)

/-- The instance of a definition defines its name or nothing; it stands in no block. -/
theorem referTo_root (tidy : plan.table.Tidy) (named : plan.table.Named)
    (run : referTo plan name [] w = .ok (inst, rest) w') :
    inst.parent = none ∧ (inst.get? "defines" = none ∨ inst.get? "defines" = some (.text name)) := by
  obtain ⟨-, v, copied, -⟩ := referWithin_succ_ok run
  obtain ⟨body, t, origin, resolved⟩ := copyDefinition_ok copied
  obtain ⟨definition, found, -, parent, -, texts⟩ := origin.keeps
  have start := texts "defines" name (by decide) (named name definition found)
  refine ⟨(resolve_id_parent resolved).2.trans parent, ?_⟩
  have whole := origin.tidy tidy ⟨List.Pairwise.nil, by simp⟩
  obtain ⟨arguments, u, keeps, joined⟩ := resolve_root resolved
  have ordered : Entries.Ordered arguments := whole.here.ordered.of_names keeps.names
  have defines := keeps.texts "defines" name start
  cases joined with
  | alone => exact .inr defines
  | @merged target parent left _ referred =>
    rw [merge_get?_of_own (by decide), Entries.lookup_erase_of_ne _ (by decide)]
    cases kept : left.lookup "defines" with
    | none => exact .inl rfl
    | some value =>
      -- What the reference leaves over was an argument before.
      have fewer : left.Sublist (Entries.erase arguments "inherits") :=
        referWithin_sublist referred
      have member := (Entries.mem_erase.mp (fewer.mem (Entries.mem_of_lookup kept))).1
      rw [ordered.lookup_of_mem member] at defines
      exact .inr defines

/-! ### The kind of an instance -/

variable {table : Table} {rowLimit : Nat}

/-- A definition that clears has been walked, strictly if it is concrete. -/
theorem Clears.walked (clears : Clears table rowLimit depth name)
    (found : table.find? name = some definition) :
    ∃ context ids ids' s s', (definition.expression.isConcrete = true → context.concrete = true) ∧
      walk (recording table rowLimit) definition.expression context ids s = .ok ids' s' := by
  cases depth with
  | zero => exact clears.elim
  | succ depth =>
    obtain ⟨other, asked, same, demanded, -⟩ := clears
    rw [found] at same
    cases same
    obtain ⟨ids, walked⟩ := demands_eq_some.mp demanded
    unfold walkDefinition at walked
    split_ifs at walked with concrete
    · obtain ⟨ids, t, run, -⟩ := bind_ok.mp walked
      exact ⟨_, _, ids, _, t, fun _ => rfl, run⟩
    · obtain ⟨_, t, run, -⟩ := bind_ok.mp walked
      obtain ⟨ids, run⟩ := discard_ok.mp run
      exact ⟨_, _, ids, _, t, fun strict => absurd strict concrete, run⟩

/-- A definition that clears has been entered. -/
theorem Clears.entered (clears : Clears table rowLimit depth name)
    (found : table.find? name = some definition) :
    ∃ context ids entered s s',
      enter (recording table rowLimit) definition.expression context ids s = .ok entered s' := by
  obtain ⟨context, ids, _, s, _, -, run⟩ := clears.walked found
  obtain ⟨entered, u, entering, -⟩ := walk_ok.mp run
  exact ⟨context, ids, entered, s, u, entering⟩

/-- A definition that inherits has a built-in kind, and inherits from a definition of this kind that
is written out. -/
theorem enter_inherits {context : Context} {ids : IdScope} {entered : Entered}
    {s s' : List String} {value : Argument}
    (run : enter (recording table rowLimit) e context ids s = .ok entered s')
    (inherits : e.get? "inherits" = some value) :
    ∃ target kind, value = .text target ∧ Kind.ofName? e.kind = some kind ∧
      table.resolveKind target = .ok kind := by
  simp only [enter, bind_ok, ofExcept_ok] at run
  obtain ⟨_, _, -, _, _, -, ⟨kind, byKind⟩, t, kinded, byInherits, u, inherited', -⟩ := run
  have known : Kind.ofName? e.kind = some kind := by
    cases named : Kind.ofName? e.kind with
    | some builtIn =>
      simp only [kindOf, named, pure_ok] at kinded
      cases kinded.1
      rfl
    | none =>
      have given : e.has "inherits" = true := by simp [Expression.has, inherits]
      simp only [kindOf, named, given, if_true] at kinded
      split_ifs at kinded
      · obtain ⟨_, _, thrown, -⟩ := bind_ok.mp kinded
        exact (throw_ok.mp thrown).elim
      · obtain ⟨_, _, thrown, -⟩ := bind_ok.mp kinded
        exact (throw_ok.mp thrown).elim
  cases value with
  | text target =>
    refine ⟨target, kind, rfl, known, ?_⟩
    simp only [inherited, inherits, bind_ok, ofExcept_ok] at inherited'
    obtain ⟨filled, _, -, targetKind, _, ⟨resolved, rfl⟩, rest⟩ := inherited'
    split_ifs at rest with differs
    · obtain ⟨_, _, thrown, -⟩ := bind_ok.mp rest
      exact (throw_ok.mp thrown).elim
    · rw [not_not.mp differs] at resolved
      exact resolved
  | atom | number | block | list => simp only [inherited, inherits, throw_ok] at inherited'

/-- A longer search finds the same kind, on behalf of whatever definition. -/
theorem Table.followKind_more {name' current : String} {more : Nat}
    (found : table.followKind name budget current = .ok kind) (enough : budget ≤ more) :
    table.followKind name' more current = .ok kind := by
  induction budget generalizing current more with
  | zero => cases found
  | succ budget ih =>
    obtain ⟨more, rfl⟩ : ∃ less, more = less + 1 := ⟨more - 1, by omega⟩
    simp only [Table.followKind] at found ⊢
    cases defined : table.find? current with
    | none => simp [defined] at found
    | some definition =>
      simp only [defined] at found ⊢
      cases named : Kind.ofName? definition.expression.kind with
      | some builtIn => simpa only [named] using found
      | none =>
        simp only [named] at found ⊢
        exact ih found (Nat.le_of_succ_le_succ enough)

/-- In a table that clears, the instance of a definition has the kind that its chain of kinds ends
with. -/
theorem referWithin_kind (clear : plan.table.Clear rowLimit)
    (run : referWithin plan budget target site w = .ok (inst, rest) w')
    (resolved : plan.table.resolveKind target = .ok kind) : Kind.ofName? inst.kind = some kind := by
  refine referWithin_spec (fun target _ _ inst _ _ => ∀ kind,
    plan.table.resolveKind target = .ok kind → Kind.ofName? inst.kind = some kind) ?_ budget run
    kind resolved
  intro refer ih target site w inst rest w' copied kind resolved
  obtain ⟨body, t, origin, run⟩ := copyDefinition_ok copied
  obtain ⟨definition, found, kinds, -, missing, texts⟩ := origin.keeps
  obtain ⟨depth, clears⟩ := clear target (Table.mem_names_of_find? found)
  obtain ⟨context, ids, entered, s, s', entering⟩ := clears.entered found
  obtain ⟨arguments, u, keeps, joined⟩ := resolve_root run
  simp only [Table.resolveKind, Table.followKind, found] at resolved
  -- The table and the copy both go on to the written parent, else to the kind.
  cases inherits : definition.expression.get? "inherits" with
  | some value =>
    obtain ⟨parent, kind', rfl, named, same⟩ := enter_inherits entering inherits
    simp only [named, Except.ok.injEq] at resolved
    subst resolved
    have written : arguments.lookup "inherits" = some (.text parent) :=
      keeps.texts _ _ (texts "inherits" parent (by decide) inherits)
    cases joined with
    | alone unwritten => simp [Expression.get?, written] at unwritten
    | merged taken referred =>
      rcases taken with given | ⟨unwritten, -⟩
      · simp only [Expression.get?, written, Option.some.injEq, Argument.text.injEq] at given
        subst given
        exact ih _ _ _ _ _ _ referred _ same
      · simp [Expression.get?, written] at unwritten
  | none =>
    have unwritten : arguments.lookup "inherits" = none :=
      keeps.absent (missing "inherits" (by decide) inherits)
    cases joined with
    | alone _ builtIn _ =>
      show Kind.ofName? body.kind = some kind
      rw [kinds] at builtIn ⊢
      obtain ⟨kind', named⟩ := Option.isSome_iff_exists.mp builtIn
      simpa [named] using resolved
    | merged taken referred =>
      rcases taken with given | ⟨-, foreign, rfl⟩
      · simp [Expression.get?, unwritten] at given
      · refine ih _ _ _ _ _ _ referred kind ?_
        have other : Kind.ofName? definition.expression.kind = none := by
          rw [← kinds]
          simpa [Kind.isBuiltIn] using foreign
        -- The table followed this kind with one step less than it starts with.
        simp only [other] at resolved
        show plan.table.resolveKind body.kind = .ok kind
        rw [kinds]
        exact Table.followKind_more resolved (Nat.le_succ _)

end Pagewright
