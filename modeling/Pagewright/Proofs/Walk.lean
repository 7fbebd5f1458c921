import Pagewright.Proofs.PlainInstance

/-!
# What a successful walk has checked

`Admitted` collects the checks that a concrete expression has passed when a walk
enters and leaves it, and `Walked` says that everything in the blocks that are
walked has passed them too. A walk over a plain expression that succeeds is such
a derivation. What it says about arguments is read off from it, without looking
at the walk again.
-/

namespace Pagewright

open Outcome

variable {σ : Type} {rules : Rules σ} {e child : Expression} {s s' : σ} {context : Context}
  {ids ids' : IdScope} {kind : Kind}

/-- What holds in the block of an expression of some kind, `stem` being what ids are relative to. -/
def Context.below (context : Context) (kind : Kind) (stem : String) : Context :=
  { stem
    inForm := context.inForm || kind = .form
    inSelect := kind = .select
    concrete := true }

/-- A concrete expression as the subject of checks. -/
def Expression.subject (e : Expression) (kind : Kind) : Subject :=
  { expression := e, kind := kind.name, concrete := true }

def Expression.contents (e : Expression) (kind : Kind) : List Expression :=
  (kind.content?.bind e.block?).getD []

/-- The checks that a concrete expression passes in a walk. -/
structure Admitted (rules : Rules σ) (context : Context) (e : Expression) (kind : Kind)
    (stem : String) : Prop where
  named : Kind.ofName? e.kind = some kind
  concrete : e.isConcrete = true
  nesting : checkNesting e = .ok ()
  place : checkPlace e kind context = .ok ()
  id : ∃ ids declared, checkId (e.subject kind) kind context ids = .ok (declared, stem)
  styles : (e.subject kind).texts "styles" = .ok ()
  classes : (e.subject kind).texts "classes" = .ok ()
  particular : ∃ ids ids' s s',
    checkArguments rules (e.subject kind) kind context ids s = .ok ids' s'
  closed : (e.subject kind).onlyHas (commonNames ++ kind.argumentNames (e.text? "type")) = .ok ()

/-- An admitted expression whose walked block holds admitted expressions, and so on. -/
inductive Walked (rules : Rules σ) : Context → Expression → Prop
  | intro {context : Context} {e : Expression} {kind : Kind} {stem : String}
      (admitted : Admitted rules context e kind stem)
      (options : ∀ children, kind = .select → e.get? "options" = some (.block children) →
        ∀ child ∈ children, child.kind = "option")
      (content : ∀ name children, kind.content? = some name →
        e.get? name = some (.block children) → ∀ child ∈ children,
          Walked rules (context.below kind stem) child) :
      Walked rules context e

/-! ### One expression -/

/-- A concrete expression takes no parameters, inherits nothing and is of a built-in kind. -/
theorem Expression.isConcrete_iff :
    e.isConcrete = true ↔
      e.get? "parameters" = none ∧ e.get? "inherits" = none ∧ Kind.isBuiltIn e.kind = true := by
  simp [Expression.isConcrete, Expression.has, and_assoc]

/-- A plain expression that stands in a block takes no parameters once its nesting and its
parameters have been checked. -/
theorem Expression.IsPlain.concrete_of_checks (plain : e.IsPlain)
    (nested : e.parent.isSome = true) (nesting : checkNesting e = .ok ())
    (parameters : checkParameters e = .ok ()) : e.isConcrete = true := by
  refine Expression.isConcrete_iff.mpr ⟨?_, plain.own, plain.builtIn⟩
  have unnamed : e.has "defines" = false := by
    simpa [checkNesting, nested] using nesting
  cases found : e.get? "parameters" with
  | none => rfl
  | some value => simp [checkParameters, found, unnamed] at parameters

/-- Entering a concrete expression is a chain of checks. -/
theorem enter_ok {entered : Entered} (strict : context.concrete = true)
    (concrete : e.isConcrete = true) (named : Kind.ofName? e.kind = some kind) :
    enter rules e context ids s = .ok entered s' ↔
      checkNesting e = .ok () ∧ checkPlace e kind context = .ok () ∧
        (e.subject kind).texts "styles" = .ok () ∧ (e.subject kind).texts "classes" = .ok () ∧
        ∃ declared stem after, checkId (e.subject kind) kind context ids = .ok (declared, stem) ∧
          checkArguments rules (e.subject kind) kind context declared s = .ok after s' ∧
          entered = ⟨kind, e.subject kind, [], context.below kind stem, after⟩ := by
  obtain ⟨closed, own, builtIn⟩ := Expression.isConcrete_iff.mp concrete
  have unparametrized : checkParameters e = .ok () := by simp [checkParameters, closed]
  have noReference : e.isReference = false := by
    simp [Expression.isReference, Expression.has, own, builtIn]
  simp only [enter, bind_ok, ofExcept_ok, unparametrized, kindOf, named, inherited, own, pure_ok,
    noReference, strict, concrete, Bool.and_self, Bool.false_eq_true, if_false]
  constructor
  · rintro ⟨_, _, ⟨nesting, rfl⟩, _, _, ⟨-, rfl⟩, _, _, ⟨rfl, rfl⟩, _, _, ⟨rfl, rfl⟩, _, _,
      ⟨place, rfl⟩, ⟨declared, stem⟩, _, ⟨id, rfl⟩, _, _, ⟨styles, rfl⟩, _, _, ⟨classes, rfl⟩, after, _,
      arguments, rfl, rfl⟩
    exact ⟨nesting, place, styles, classes, declared, stem, after, id, arguments, rfl⟩
  · rintro ⟨nesting, place, styles, classes, declared, stem, after, id, arguments, rfl⟩
    exact ⟨(), _, ⟨nesting, rfl⟩, (), _, ⟨trivial, rfl⟩, _, _, ⟨rfl, rfl⟩, _, _, ⟨rfl, rfl⟩, (), _,
      ⟨place, rfl⟩, (declared, stem), _, ⟨id, rfl⟩, (), _, ⟨styles, rfl⟩, (), _, ⟨classes, rfl⟩,
      after, _, arguments, rfl, rfl⟩

/-! ### Walks -/

theorem walk_ok :
    walk rules e context ids s = .ok ids' s' ↔
      ∃ entered t, enter rules e context ids s = .ok entered t ∧ entered.close = .ok () ∧
        match entered.content?.bind e.get? with
        | some (.block children) =>
          walkBlock rules children entered.below entered.ids t = .ok ids' s'
        | _ => entered.ids = ids' ∧ t = s' := by
  obtain ⟨id, parent, kind, arguments⟩ := e
  rw [walk, bind_ok]
  refine exists_congr fun entered => exists_congr fun t => and_congr_right fun _ => ?_
  have closing : ∀ inside : EStateM Error σ IdScope,
      (inside >>= fun ids => ofExcept entered.close >>= fun _ => pure ids) t = .ok ids' s' ↔
        entered.close = .ok () ∧ inside t = .ok ids' s' := by
    intro inside
    simp only [bind_ok, ofExcept_ok, pure_ok]
    constructor
    · rintro ⟨_, _, run, _, _, ⟨close, rfl⟩, rfl, rfl⟩
      exact ⟨close, run⟩
    · rintro ⟨close, run⟩
      exact ⟨_, _, run, (), _, ⟨close, rfl⟩, rfl, rfl⟩
  cases entered.content? with
  | none => exact (closing _).trans (and_congr_right fun _ => pure_ok)
  | some name =>
    refine (closing _).trans (and_congr_right fun _ => ?_)
    simp only [walkArgument_eq, Option.bind_some, Expression.get?]
    cases arguments.lookup name with
    | none => exact pure_ok
    | some value =>
      cases value with
      | block children => exact Iff.rfl
      | atom | text | number | list => exact pure_ok

theorem walkBlock_contents {below : Context} :
    (match kind.content?.bind e.get? with
      | some (.block children) => walkBlock rules children below ids s = .ok ids' s'
      | _ => ids = ids' ∧ s = s') ↔
      walkBlock rules (e.contents kind) below ids s = .ok ids' s' := by
  unfold Expression.contents Expression.block?
  cases kind.content? with
  | none => exact pure_ok.symm
  | some name =>
    simp only [Option.bind_some]
    cases e.get? name with
    | none => exact pure_ok.symm
    | some value =>
      cases value with
      | block children => exact Iff.rfl
      | atom | text | number | list => exact pure_ok.symm

/-- A walk over a concrete expression makes a chain of checks and goes on in its block. -/
theorem walk_concrete (strict : context.concrete = true) (concrete : e.isConcrete = true)
    (named : Kind.ofName? e.kind = some kind) (run : walk rules e context ids s = .ok ids' s') :
    ∃ stem declared after t, checkId (e.subject kind) kind context ids = .ok (declared, stem) ∧
      checkArguments rules (e.subject kind) kind context declared s = .ok after t ∧
      Admitted rules context e kind stem ∧
      walkBlock rules (e.contents kind) (context.below kind stem) after t = .ok ids' s' := by
  obtain ⟨entered, t, entering, close, content⟩ := walk_ok.mp run
  obtain ⟨nesting, place, styles, classes, declared, stem, after, identified, particular, rfl⟩ :=
    (enter_ok strict concrete named).mp entering
  refine ⟨stem, declared, after, t, identified, particular, ?_, walkBlock_contents.mp content⟩
  exact ⟨named, concrete, nesting, place, ⟨ids, declared, identified⟩, styles, classes,
    ⟨declared, after, _, _, particular⟩, close⟩

/-- A select holds options only; what one child declares, the next one finds declared. -/
theorem walkBlock_cons_ok {rest : List Expression} :
    walkBlock rules (child :: rest) context ids s = .ok ids' s' ↔
      (context.inSelect = true → child.kind = "option") ∧
        ∃ middle t, walk rules child context ids s = .ok middle t ∧
          walkBlock rules rest context middle t = .ok ids' s' := by
  rw [walkBlock]
  by_cases wrong : (context.inSelect && child.kind != "option") = true
  · rw [if_pos wrong]
    simp_all [bind_ok, throw_ok]
  · rw [if_neg wrong, bind_ok]
    simp_all

theorem mem_walkBlock {children : List Expression}
    (run : walkBlock rules children context ids s = .ok ids' s') (member : child ∈ children) :
    (context.inSelect = true → child.kind = "option") ∧
      ∃ before after t t', walk rules child context before t = .ok after t' := by
  induction children generalizing ids s with
  | nil => simp at member
  | cons first rest ih =>
    obtain ⟨option, after, t, walked, later⟩ := walkBlock_cons_ok.mp run
    rcases List.mem_cons.mp member with rfl | inRest
    · exact ⟨option, ids, after, _, t, walked⟩
    · exact ih later inRest

/-- A walk over a plain expression admits all of it. -/
theorem walk_walked (strict : context.concrete = true) (plain : e.Throughout Expression.IsPlain)
    (placed : e.isConcrete = true ∨ e.parent.isSome = true)
    (run : walk rules e context ids s = .ok ids' s') : Walked rules context e := by
  induction e using Expression.inductionOn generalizing context ids ids' s s' with
  | step owner ih =>
    have concrete : owner.isConcrete = true := by
      refine placed.elim id fun nested => ?_
      obtain ⟨_, _, entering, -⟩ := walk_ok.mp run
      simp only [enter, bind_ok, ofExcept_ok] at entering
      obtain ⟨_, _, ⟨nesting, rfl⟩, _, _, ⟨parameters, rfl⟩, -⟩ := entering
      exact plain.here.concrete_of_checks nested nesting parameters
    obtain ⟨kind, named⟩ := Option.isSome_iff_exists.mp plain.here.builtIn
    obtain ⟨stem, _, after, t, -, -, admitted, content⟩ :=
      walk_concrete strict concrete named run
    -- The children of the walked block, each with the walk that it passed.
    have walked : ∀ name children, kind.content? = some name →
        owner.get? name = some (.block children) →
        walkBlock rules children (context.below kind stem) after t = .ok ids' s' := by
      intro name children there found
      simpa [Expression.contents, there, Expression.block?, found, Argument.block?] using content
    refine .intro admitted ?_ ?_
    · intro children select found child member
      have run := walked "options" children (by rw [select]; rfl) found
      exact (mem_walkBlock run member).1 (by simp [Context.below, select])
    · intro name children there found child member
      obtain ⟨-, before, after, u, u', run⟩ := mem_walkBlock (walked name children there found) member
      have held : owner.Holds name child := ⟨children, Entries.mem_of_lookup found, member⟩
      exact ih name child held rfl (plain.child held)
        (.inr (plain.here.tidy.linked name child held)) run

end Pagewright
