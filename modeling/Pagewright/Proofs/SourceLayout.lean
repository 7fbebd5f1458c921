import Pagewright.Proofs.Grammar
import Pagewright.Proofs.Ledger
import Pagewright.Proofs.Tidy

/-!
# How expressions lie in a source

A layout goes through the tokens of a source once, from left to right: a token
opens, names or closes an expression or one of its arguments, it is a value, or
it is passed over. It lists where each expression begins, in the order of the
source, and says nothing about identifiers. Arguments are given in this order
too, while an expression has them in the order of their names.
-/

namespace Pagewright

/-! ### Layouts -/

/-- An expression that begins at a place. -/
abbrev Beginning := Position × ExpressionId

variable {begins more : List Beginning} {text gap : List Token} {es : List Expression}
  {owner : ExpressionId}

def IsGap (tokens : List Token) : Prop :=
  ∀ token ∈ tokens, token.lexeme = .endOfLine ∨ token.lexeme = .mark ','

/-- The tokens of an expression up to its kind; an enclosed expression begins with a parenthesis. -/
inductive Heads : Bool → Position → String → List Token → Prop
  | line {place : Position} {kind : String} : Heads false place kind [⟨.word kind, place⟩]
  | enclosed {place named : Position} {kind : String} {gap : List Token} : IsGap gap →
      Heads true place kind (⟨.mark '(', place⟩ :: gap ++ [⟨.word kind, named⟩])

/-- The tokens of an expression behind its arguments. -/
inductive Closes : Bool → List Token → Prop
  | line : Closes false []
  | enclosed {place : Position} : Closes true [⟨.mark ')', place⟩]

mutual

/-- The expression, whose parent is given, lies in the tokens, with expressions that begin there. -/
inductive ExpressionLies :
    Option ExpressionId → List Token → Expression → List Beginning → Prop
  | intro {parent : Option ExpressionId} {id : ExpressionId} {kind : String} {enclosed : Bool}
      {place : Position} {head text stop : List Token} {given : List (String × Argument)}
      {arguments : Arguments} {begins : List Beginning} :
      Heads enclosed place kind head → ArgumentsLie id text given begins → Closes enclosed stop →
      Grammar.Gathers given arguments →
      ExpressionLies parent (head ++ text ++ stop) ⟨id, parent, kind, arguments⟩
        ((place, id) :: begins)

inductive ArgumentsLie :
    ExpressionId → List Token → List (String × Argument) → List Beginning → Prop
  | nil {owner : ExpressionId} {gap : List Token} : IsGap gap → ArgumentsLie owner gap [] []
  | cons {owner : ExpressionId} {gap text rest : List Token} {name : String}
      {place colon : Position} {value : Argument} {given : List (String × Argument)}
      {begins more : List Beginning} :
      IsGap gap → ValueLies owner text value begins → ArgumentsLie owner rest given more →
      ArgumentsLie owner (gap ++ ⟨.word name, place⟩ :: ⟨.mark ':', colon⟩ :: text ++ rest)
        ((name, value) :: given) (begins ++ more)

inductive ValueLies : ExpressionId → List Token → Argument → List Beginning → Prop
  | atom {owner : ExpressionId} {name : String} {place : Position} :
      ValueLies owner [⟨.word name, place⟩] (.atom name) []
  | text {owner : ExpressionId} {value : String} {place : Position} :
      ValueLies owner [⟨.quoted value, place⟩] (.text value) []
  | number {owner : ExpressionId} {digits : String} {place : Position} :
      ValueLies owner [⟨.digits digits, place⟩] (.number digits) []
  | block {owner : ExpressionId} {text : List Token} {opened closed : Position}
      {children : List Expression} {begins : List Beginning} :
      BlockLies owner text children begins →
      ValueLies owner (⟨.mark '\x7b', opened⟩ :: text ++ [⟨.mark '\x7d', closed⟩])
        (.block children) begins
  | list {owner : ExpressionId} {text : List Token} {opened closed : Position}
      {items : List Argument} {begins : List Beginning} :
      ItemsLie owner text items begins →
      ValueLies owner (⟨.mark '[', opened⟩ :: text ++ [⟨.mark ']', closed⟩]) (.list items) begins

inductive BlockLies : ExpressionId → List Token → List Expression → List Beginning → Prop
  | nil {owner : ExpressionId} {gap : List Token} : IsGap gap → BlockLies owner gap [] []
  | cons {owner : ExpressionId} {gap text rest : List Token} {child : Expression}
      {children : List Expression} {begins more : List Beginning} :
      IsGap gap → ExpressionLies (some owner) text child begins →
      BlockLies owner rest children more →
      BlockLies owner (gap ++ text ++ rest) (child :: children) (begins ++ more)

inductive ItemsLie : ExpressionId → List Token → List Argument → List Beginning → Prop
  | nil {owner : ExpressionId} {gap : List Token} : IsGap gap → ItemsLie owner gap [] []
  | cons {owner : ExpressionId} {gap text rest : List Token} {item : Argument}
      {items : List Argument} {begins more : List Beginning} :
      IsGap gap → ValueLies owner text item begins → ItemsLie owner rest items more →
      ItemsLie owner (gap ++ text ++ rest) (item :: items) (begins ++ more)

end

/-- The top-level expressions of a whole source. -/
inductive SourceLies : List Token → List Expression → List Beginning → Prop
  | nil {gap : List Token} : IsGap gap → SourceLies gap [] []
  | cons {gap text rest : List Token} {e : Expression} {es : List Expression}
      {begins more : List Beginning} :
      IsGap gap → ExpressionLies none text e begins → SourceLies rest es more →
      SourceLies (gap ++ text ++ rest) (e :: es) (begins ++ more)

theorem IsGap.nil : IsGap [] := by
  simp [IsGap]

theorem IsGap.append {first second : List Token} (start : IsGap first) (rest : IsGap second) :
    IsGap (first ++ second) := by
  intro token member
  rcases List.mem_append.mp member with inFirst | inSecond
  · exact start token inFirst
  · exact rest token inSecond

/-- What is passed over before arguments goes with them. -/
theorem ArgumentsLie.after {given : Arguments} (start : IsGap gap)
    (lie : ArgumentsLie owner text given begins) :
    ArgumentsLie owner (gap ++ text) given begins := by
  cases lie with
  | nil rest => exact .nil (start.append rest)
  | cons rest value more =>
    rw [List.append_assoc, ← List.append_assoc, ← List.append_assoc]
    exact .cons (start.append rest) value more

theorem ItemsLie.after {items : List Argument} (start : IsGap gap)
    (lie : ItemsLie owner text items begins) : ItemsLie owner (gap ++ text) items begins := by
  cases lie with
  | nil rest => exact .nil (start.append rest)
  | cons rest value more =>
    rw [← List.append_assoc, ← List.append_assoc]
    exact .cons (start.append rest) value more

private theorem Heads.length_pos {enclosed : Bool} {place : Position} {kind : String}
    {head : List Token} (heads : Heads enclosed place kind head) : 0 < head.length := by
  cases heads <;> simp

theorem ExpressionLies.length_pos {parent : Option ExpressionId} {e : Expression}
    (lies : ExpressionLies parent text e begins) : 0 < text.length := by
  obtain ⟨heads, -, -, -⟩ := lies
  have first := heads.length_pos
  simp only [List.length_append]
  omega

/-! ### Beginnings and identifiers -/

def beginningIds (begins : List Beginning) : Multiset ExpressionId :=
  begins.map Prod.snd

private theorem beginningIds_append (begins more : List Beginning) :
    beginningIds (begins ++ more) = beginningIds begins + beginningIds more := by
  simp [beginningIds]

private theorem argumentsIds_perm {arguments given : Arguments}
    (same : arguments.Perm given) : argumentsIds true arguments = argumentsIds true given := by
  rw [argumentsIds_eq, argumentsIds_eq]
  exact (same.map _).sum_eq

mutual

/-- Every expression begins once, those in lists included. -/
theorem ExpressionLies.ids {parent text e begins} :
    ExpressionLies parent text e begins → e.ids true = beginningIds begins
  | .intro _ arguments _ gathers => by
    -- the expression has its arguments in another order than the source
    rw [Expression.ids, argumentsIds_perm gathers.same, arguments.ids]
    rfl

private theorem ArgumentsLie.ids {owner text given begins} :
    ArgumentsLie owner text given begins → argumentsIds true given = beginningIds begins
  | .nil _ => rfl
  | .cons _ lies rest => by rw [argumentsIds, lies.ids, rest.ids, beginningIds_append]

private theorem ValueLies.ids {owner text value begins} :
    ValueLies owner text value begins → value.ids true = beginningIds begins
  | .atom | .text | .number => rfl
  | .block block => by rw [Argument.ids, block.ids]
  | .list items => by rw [Argument.ids, if_pos rfl, items.ids]

private theorem BlockLies.ids {owner text children begins} :
    BlockLies owner text children begins → blockIds true children = beginningIds begins
  | .nil _ => rfl
  | .cons _ lies rest => by rw [blockIds, lies.ids, rest.ids, beginningIds_append]

private theorem ItemsLie.ids {owner text items begins} :
    ItemsLie owner text items begins → itemsIds true items = beginningIds begins
  | .nil _ => rfl
  | .cons _ lies rest => by rw [itemsIds, lies.ids, rest.ids, beginningIds_append]

end

theorem SourceLies.ids (lies : SourceLies text es begins) :
    blockIds true es = beginningIds begins := by
  induction lies with
  | nil _ => rfl
  | cons _ first _ ih => rw [blockIds, first.ids, ih, beginningIds_append]

/-! ### Tidy expressions -/

mutual

private theorem ExpressionLies.tidy {parent text e begins} :
    ExpressionLies parent text e begins → e.parent = parent ∧ e.Throughout Expression.IsTidy
  | .intro _ arguments _ gathers => by
    refine ⟨rfl, Expression.throughout_tidy_iff.mpr ⟨gathers.ordered, fun name value member => ?_⟩⟩
    exact arguments.tidy name value (gathers.same.mem_iff.mp member)

private theorem ArgumentsLie.tidy {owner text given begins} :
    ArgumentsLie owner text given begins → ∀ name value, (name, value) ∈ given →
      value.Each Expression.IsTidy
  | .nil _ => by simp
  | .cons _ lies rest => by
    intro name value member
    rcases List.mem_cons.mp member with same | later
    · cases same
      exact lies.tidy
    · exact rest.tidy name value later

private theorem ValueLies.tidy {owner text value begins} :
    ValueLies owner text value begins → value.Each Expression.IsTidy
  | .atom | .text | .number => nofun
  | .block block => by
    rintro _ ⟨⟩
    exact block.tidy
  | .list _ => nofun

private theorem BlockLies.tidy {owner text children begins} :
    BlockLies owner text children begins →
      ∀ child ∈ children, child.parent.isSome ∧ child.Throughout Expression.IsTidy
  | .nil _ => by simp
  | .cons _ lies rest => by
    obtain ⟨linked, tidy⟩ := lies.tidy
    exact List.forall_mem_cons.mpr ⟨⟨by simp [linked], tidy⟩, rest.tidy⟩

end

theorem SourceLies.tidy (lies : SourceLies text es begins) :
    ∀ e ∈ es, e.parent = none ∧ e.Throughout Expression.IsTidy := by
  induction lies with
  | nil _ => simp
  | cons _ first _ ih => exact List.forall_mem_cons.mpr ⟨first.tidy, ih⟩

end Pagewright
