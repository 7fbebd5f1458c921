import Pagewright.Proofs.Ledger
import Pagewright.Proofs.Links
import Pagewright.Proofs.ResolvedExports

/-!
# From outlines to renumberings

Two trees of one outline have their identifiers at the same places. If no
identifier stands at two places, and parent links are as they should be, then
sending each identifier to the one at the same place of the other tree turns the
first tree into the second. `exists_renumbering` says this of whole lists of
trees at once.
-/

namespace Pagewright

variable {others children : List Expression} {value : Argument}
  {pairs second first : List (ExpressionId × ExpressionId)} {e other : Expression}

mutual

/-- The identifiers of two expressions, place by place. -/
def Expression.pairing : Expression → Expression → List (ExpressionId × ExpressionId)
  | ⟨id, _, _, arguments⟩, other => (id, other.id) :: pairArguments arguments other.arguments

def pairArguments : List (String × Argument) → List (String × Argument) →
    List (ExpressionId × ExpressionId)
  | (_, value) :: rest, (_, other) :: others => value.pairing other ++ pairArguments rest others
  | _, _ => []

def Argument.pairing : Argument → Argument → List (ExpressionId × ExpressionId)
  | .block children, .block others => pairBlock children others
  | _, _ => []

def pairBlock : List Expression → List Expression → List (ExpressionId × ExpressionId)
  | child :: rest, other :: others => child.pairing other ++ pairBlock rest others
  | _, _ => []

end

private theorem Expression.pairing_eq (e other : Expression) :
    e.pairing other = (e.id, other.id) :: pairArguments e.arguments other.arguments := by
  obtain ⟨id, parent, kind, arguments⟩ := e
  simp only [Expression.pairing]

private theorem Argument.pairing_leaf {other : Argument} (leaf : value.block? = none) :
    value.pairing other = [] := by
  cases value with
  | block children => cases leaf
  | atom | text | number | list => simp only [Argument.pairing]

private theorem Argument.ids_leaf (leaf : value.block? = none) : value.ids false = 0 := by
  cases value with
  | block children => cases leaf
  | atom | text | number => simp only [Argument.ids]
  | list items => simp [Argument.ids]

/-! ### All identifiers are paired -/

/-- The pairs hold the identifiers of both sides, each as often as it is there. -/
structure PairsAll (pairs : List (ExpressionId × ExpressionId))
    (ids others : Multiset ExpressionId) : Prop where
  left : (pairs.map Prod.fst : Multiset ExpressionId) = ids
  right : (pairs.map Prod.snd : Multiset ExpressionId) = others

private theorem PairsAll.nil : PairsAll [] 0 0 :=
  ⟨rfl, rfl⟩

private theorem PairsAll.append {ids others more still : Multiset ExpressionId}
    (one : PairsAll first ids others) (two : PairsAll second more still) :
    PairsAll (first ++ second) (ids + more) (others + still) := by
  constructor
  · rw [List.map_append, ← Multiset.coe_add, one.left, two.left]
  · rw [List.map_append, ← Multiset.coe_add, one.right, two.right]

private theorem pairBlock_all (same : List.Forall₂ SameOutline children others)
    (each : ∀ child ∈ children, ∀ other, SameOutline child other →
      PairsAll (child.pairing other) (child.ids false) (other.ids false)) :
    PairsAll (pairBlock children others) (blockIds false children) (blockIds false others) := by
  induction same with
  | nil =>
    simp only [pairBlock, blockIds]
    exact .nil
  | @cons child other rest more here _ ih =>
    have first := each child (by simp) other here
    simp only [pairBlock, blockIds]
    exact first.append (ih (List.forall_mem_cons.mp each).2)

private theorem Expression.pairing_all (same : SameOutline e other) :
    PairsAll (e.pairing other) (e.ids false) (other.ids false) := by
  induction e using Expression.inductionOn generalizing other with
  | step owner ih =>
    obtain ⟨-, -, arguments⟩ := Expression.outline_eq_iff.mp same
    rw [Expression.pairing_eq, Expression.ids_eq, Expression.ids_eq]
    have here : PairsAll [(owner.id, other.id)] {owner.id} {other.id} := ⟨rfl, rfl⟩
    apply here.append
    -- argument by argument, with what holds of everything in the blocks
    have each : ∀ name children, (name, Argument.block children) ∈ owner.arguments →
        ∀ child ∈ children, ∀ other, SameOutline child other →
          PairsAll (child.pairing other) (child.ids false) (other.ids false) :=
      fun name children member child inside other same =>
        ih name child ⟨children, member, inside⟩ same
    generalize owner.arguments = own at arguments each
    generalize other.arguments = theirs at arguments
    induction arguments with
    | nil =>
      simp only [pairArguments, argumentsIds]
      exact .nil
    | @cons entry entry' rest rest' equal _ inner =>
      obtain ⟨name, value⟩ := entry
      obtain ⟨name', value'⟩ := entry'
      simp only [pairArguments, argumentsIds]
      apply PairsAll.append ?_ (inner fun name children member =>
        each name children (List.mem_cons_of_mem _ member))
      cases block : value.block? with
      | some children =>
        obtain rfl := Argument.eq_block block
        obtain ⟨others, rfl, blocks⟩ := Argument.outline_eq_block equal.2
        simp only [Argument.pairing, Argument.ids]
        exact pairBlock_all blocks (each name children List.mem_cons_self)
      | none =>
        have leaf := Argument.leaf_of_outline equal.2 block
        rw [Argument.pairing_leaf block, Argument.ids_leaf block, Argument.ids_leaf leaf]
        exact .nil

/-! ### Changing identifiers as they are paired -/

def Agrees (change : ExpressionId → ExpressionId) (pairs : List (ExpressionId × ExpressionId)) :
    Prop :=
  ∀ pair ∈ pairs, change pair.1 = pair.2

variable {change : ExpressionId → ExpressionId}

private theorem Agrees.of_append (agrees : Agrees change (first ++ second)) :
    Agrees change first ∧ Agrees change second :=
  List.forall_mem_append.mp agrees

private theorem renumberBlock_of_agrees (same : List.Forall₂ SameOutline children others)
    (each : ∀ child ∈ children, ∀ other ∈ others, SameOutline child other →
      Agrees change (child.pairing other) → child.renumber change = other)
    (agrees : Agrees change (pairBlock children others)) :
    children.map (Expression.renumber change) = others := by
  induction same with
  | nil => rfl
  | @cons child other rest more here _ ih =>
    simp only [pairBlock] at agrees
    obtain ⟨first, later⟩ := agrees.of_append
    have head := each child (by simp) other (by simp) here first
    have tail := ih (fun child member other member' =>
      each child (List.mem_cons_of_mem _ member) other (List.mem_cons_of_mem _ member')) later
    rw [List.map_cons, head, tail]

private theorem renumberArguments_of_agrees {own theirs : Arguments}
    (same : SameArguments own theirs)
    (each : ∀ name value other, (name, value) ∈ own → (name, other) ∈ theirs →
      value.outline = other.outline → Agrees change (value.pairing other) →
        value.renumber change = other) (agrees : Agrees change (pairArguments own theirs)) :
    renumberArguments change own = theirs := by
  induction same with
  | nil => rfl
  | @cons entry entry' rest more here _ ih =>
    obtain ⟨name, value⟩ := entry
    obtain ⟨name', other⟩ := entry'
    obtain ⟨rfl, outlines⟩ := here
    simp only [pairArguments] at agrees
    obtain ⟨first, later⟩ := agrees.of_append
    have head := each name value other (by simp) (by simp) outlines first
    have tail := ih (fun name value other member member' =>
      each name value other (List.mem_cons_of_mem _ member) (List.mem_cons_of_mem _ member')) later
    rw [renumberArguments, head, tail]

/-- Final values other than blocks have no identifiers in them. -/
theorem Argument.IsFinal.renumber_leaf {mayHold : Prop} (final : value.IsFinal mayHold)
    (leaf : value.block? = none) : value.renumber change = value := by
  cases value with
  | block children => cases leaf
  | text | number => rfl
  | atom name => exact final.elim
  | list items =>
    rw [Argument.renumber, renumberItems_eq]
    have same : items.map (Argument.renumber change) = items.map id := by
      apply List.map_congr_left
      intro item member
      obtain ⟨text, rfl⟩ := final item member
      rfl
    rw [same, List.map_id]

/-- What exports are throughout. -/
structure Expression.IsNeat (e : Expression) : Prop where
  linked : e.IsLinked
  resolved : e.IsResolved

private theorem Expression.renumber_of_agrees (same : SameOutline e other)
    (neat : e.Throughout Expression.IsNeat) (neat' : other.Throughout Expression.IsNeat)
    (agrees : Agrees change (e.pairing other)) (parent : other.parent = e.parent.map change) :
    e.renumber change = other := by
  induction e using Expression.inductionOn generalizing other with
  | step owner ih =>
    obtain ⟨-, kinds, arguments⟩ := Expression.outline_eq_iff.mp same
    rw [Expression.pairing_eq] at agrees
    obtain ⟨here, below⟩ := List.forall_mem_cons.mp agrees
    have inner : renumberArguments change owner.arguments = other.arguments := by
      apply renumberArguments_of_agrees arguments ?_ below
      intro name value value' member member' outlines agrees
      cases block : value.block? with
      | none =>
        -- A value without a block holds no ids: it is its own outline.
        have leaf := Argument.leaf_of_outline outlines block
        have final := neat.here.resolved.final name value member
        have final' := neat'.here.resolved.final name value' member'
        calc value.renumber change = value := final.renumber_leaf block
          _ = value.outline := (final.renumber_leaf block).symm
          _ = value'.outline := outlines
          _ = value' := final'.renumber_leaf leaf
      | some children =>
        obtain rfl := Argument.eq_block block
        obtain ⟨others, rfl, blocks⟩ := Argument.outline_eq_block outlines
        simp only [Argument.pairing] at agrees
        rw [Argument.renumber, renumberBlock_eq]
        congr 1
        apply renumberBlock_of_agrees blocks ?_ agrees
        intro child inside other' inside' same agrees
        have held : owner.Holds name child := ⟨children, member, inside⟩
        have held' : other.Holds name other' := ⟨others, member', inside'⟩
        apply ih name child held same (neat.child held) (neat'.child held') agrees
        rw [neat.here.linked name child held, neat'.here.linked name other' held']
        exact congrArg some here.symm
    obtain ⟨id, link, kind, own⟩ := owner
    obtain ⟨id', link', kind', theirs⟩ := other
    simp only [Expression.renumber, Expression.mk.injEq]
    exact ⟨here, parent.symm, kinds, inner⟩

/-- Pairs without repetition on the left are the graph of a change. -/
theorem exists_agrees (distinct : (pairs.map Prod.fst).Nodup) : ∃ change, Agrees change pairs := by
  refine ⟨fun id => (pairs.lookup id).getD id, ?_⟩
  rintro ⟨id, other⟩ member
  have found : pairs.lookup id = some other := by
    obtain ⟨front, back, rfl⟩ := List.append_of_mem member
    rw [List.lookup_eq_some_iff]
    refine ⟨front, back, rfl, ?_⟩
    intro pair inside
    rw [List.map_append, List.map_cons, List.nodup_append] at distinct
    have apart := distinct.2.2 pair.1 (List.mem_map_of_mem inside) id List.mem_cons_self
    simpa using Ne.symm apart
  simp [found]

/-- Where nothing is repeated on the right either, no two identifiers become one. -/
theorem Agrees.injOn (agrees : Agrees change pairs) (distinct : (pairs.map Prod.snd).Nodup) :
    Set.InjOn change {id | id ∈ pairs.map Prod.fst} := by
  intro first isFirst second isSecond equal
  obtain ⟨one, memberOne, rfl⟩ := List.mem_map.mp isFirst
  obtain ⟨two, memberTwo, rfl⟩ := List.mem_map.mp isSecond
  rw [agrees one memberOne, agrees two memberTwo] at equal
  rw [List.inj_on_of_nodup_map distinct memberOne memberTwo equal]

/-- Trees of the same outlines, without repeated identifiers on either side, are renumberings of each
other. -/
theorem exists_renumbering {roots : List Expression}
    (same : List.Forall₂ SameOutline roots others)
    (neat : ∀ root ∈ roots, root.parent = none ∧ root.Throughout Expression.IsNeat)
    (neat' : ∀ root ∈ others, root.parent = none ∧ root.Throughout Expression.IsNeat)
    (distinct : (blockIds false roots).Nodup) (distinct' : (blockIds false others).Nodup) :
    ∃ change, Set.InjOn change {id | id ∈ blockIds false roots} ∧
      roots.map (Expression.renumber change) = others := by
  have all := pairBlock_all same fun root _ other => Expression.pairing_all
  rw [← all.left, Multiset.coe_nodup] at distinct
  rw [← all.right, Multiset.coe_nodup] at distinct'
  obtain ⟨change, agrees⟩ := exists_agrees distinct
  refine ⟨change, ?_, ?_⟩
  · have injective := agrees.injOn distinct'
    rw [← all.left]
    exact injective
  · apply renumberBlock_of_agrees same ?_ agrees
    intro root member other member' outlines agrees
    obtain ⟨free, inner⟩ := neat root member
    obtain ⟨free', inner'⟩ := neat' other member'
    apply Expression.renumber_of_agrees outlines inner inner' agrees
    rw [free, free']
    rfl

end Pagewright
