import Mathlib.Logic.Relation
import Pagewright.Expression.Kind

/-!
# Expressions as trees

An expression holds the expressions of its blocks. What it contains is itself,
what it holds, what these hold, and so on. Since an expression is larger than
everything it holds, a property that passes from what is held to the holder is
one of every expression.
-/

namespace Pagewright

variable {root inner : Expression} {name : String} {property : Expression → Prop}

theorem Argument.eq_block {value : Argument} {children : List Expression}
    (block : value.block? = some children) : value = .block children := by
  cases value with
  | block others => exact congrArg Argument.block (Option.some.inj block)
  | atom | text | number | list => cases block

namespace Expression

theorem text?_eq_some {e : Expression} {value : String} :
    e.text? name = some value ↔ e.get? name = some (.text value) := by
  unfold text?
  cases e.get? name with
  | none => simp
  | some found => cases found <;> simp [Argument.text?]

/-- `child` stands in the block that is the argument `name`. -/
def Holds (owner : Expression) (name : String) (child : Expression) : Prop :=
  ∃ children, (name, Argument.block children) ∈ owner.arguments ∧ child ∈ children

/-- `inner` is `outer`, or it stands in a block of it at any depth. -/
def Contains : Expression → Expression → Prop :=
  Relation.ReflTransGen fun owner child => ∃ name, owner.Holds name child

/-- `inner` stands in a block of `outer` at any depth. -/
def Encloses : Expression → Expression → Prop :=
  Relation.TransGen fun owner child => ∃ name, owner.Holds name child

/-- Every expression that `root` contains has the property. -/
def Throughout (property : Expression → Prop) (root : Expression) : Prop :=
  ∀ inner, root.Contains inner → property inner

private theorem sizeOf_lt_of_holds {owner child : Expression} (held : owner.Holds name child) :
    sizeOf child < sizeOf owner := by
  obtain ⟨children, member, inside⟩ := held
  obtain ⟨id, parent, kind, arguments⟩ := owner
  have first := List.sizeOf_lt_of_mem inside
  have second := List.sizeOf_lt_of_mem member
  simp only [Prod.mk.sizeOf_spec, Argument.block.sizeOf_spec] at second
  simp only [mk.sizeOf_spec]
  omega

/-- Induction from what is held to the holder. -/
@[elab_as_elim]
theorem inductionOn {motive : Expression → Prop} (root : Expression)
    (step : ∀ owner : Expression,
      (∀ name child, owner.Holds name child → motive child) → motive owner) :
    motive root :=
  step root fun _ child _ => inductionOn child step
termination_by sizeOf root
decreasing_by
  apply sizeOf_lt_of_holds
  assumption

theorem contains_self (root : Expression) : root.Contains root :=
  .refl

theorem Contains.trans {middle : Expression} (first : root.Contains middle)
    (second : middle.Contains inner) : root.Contains inner :=
  Relation.ReflTransGen.trans first second

theorem Holds.contains {owner child : Expression} (held : owner.Holds name child) :
    owner.Contains child :=
  .single ⟨name, held⟩

/-- What is contained is the root or contained in something the root holds. -/
theorem contains_iff :
    root.Contains inner ↔
      inner = root ∨ ∃ name child, root.Holds name child ∧ child.Contains inner := by
  constructor
  · intro contained
    rcases Relation.ReflTransGen.cases_head contained with rfl | ⟨child, ⟨name, held⟩, below⟩
    · exact .inl rfl
    · exact .inr ⟨name, child, held, below⟩
  · rintro (rfl | ⟨name, child, held, below⟩)
    · exact contains_self _
    · exact held.contains.trans below

theorem encloses_iff :
    root.Encloses inner ↔ ∃ name child, root.Holds name child ∧ child.Contains inner := by
  refine Relation.TransGen.head'_iff.trans ?_
  constructor
  · rintro ⟨child, ⟨name, held⟩, below⟩
    exact ⟨name, child, held, below⟩
  · rintro ⟨name, child, held, below⟩
    exact ⟨child, ⟨name, held⟩, below⟩

/-- A property holds throughout a tree when it holds of the root and throughout each child. -/
theorem throughout_iff :
    root.Throughout property ↔
      property root ∧ ∀ name child, root.Holds name child → child.Throughout property := by
  constructor
  · intro all
    refine ⟨all root (contains_self root), ?_⟩
    intro name child held inner contained
    exact all inner (held.contains.trans contained)
  · rintro ⟨here, below⟩ inner contained
    rcases contains_iff.mp contained with rfl | ⟨name, child, held, deeper⟩
    · exact here
    · exact below name child held inner deeper

theorem Throughout.here (all : root.Throughout property) : property root :=
  all root (contains_self root)

theorem Throughout.child {child : Expression} (all : root.Throughout property)
    (held : root.Holds name child) : child.Throughout property :=
  (throughout_iff.mp all).2 name child held

theorem Throughout.imp {other : Expression → Prop} (all : root.Throughout property)
    (weaker : ∀ inner, property inner → other inner) : root.Throughout other :=
  fun inner contained => weaker inner (all inner contained)

end Expression

end Pagewright
