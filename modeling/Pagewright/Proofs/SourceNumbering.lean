import Pagewright.Proofs.CoherentExports
import Pagewright.Proofs.TokenSpans

/-!
# Identifiers in the order of a source

An expression takes its identifier when its first token comes next. So the
identifiers of a source are those that the supply has next, in the order in
which the expressions begin, and a child has a larger one than its parent. The
tree has arguments in the order of their names, and does not show this any more.
The main result is `sources_numbered`.
-/

namespace Pagewright

variable {begins more : List Beginning} {text gap tokens : List Token} {es : List Expression}
  {owner : ExpressionId} {first : Nat} {source : String} {chars : List Char}

/-! ### Places in order -/

/-- The first place comes before the second one in a source. -/
def Position.Before (place later : Position) : Prop :=
  place.line < later.line ∨ place.line = later.line ∧ place.column < later.column

theorem Position.Before.trans {first second third : Position} (start : first.Before second)
    (rest : second.Before third) : first.Before third := by
  unfold Position.Before at *
  omega

private theorem Position.before_step (place : Position) (c : Char) :
    place.Before (place.step c) := by
  unfold Position.Before Position.step
  split_ifs
  · exact .inl (Nat.lt_succ_self _)
  · exact .inr ⟨rfl, Nat.lt_succ_self _⟩

private theorem Position.before_advance (place : Position) (c : Char) (more : List Char) :
    place.Before (place.advance (c :: more)) := by
  induction more generalizing place c with
  | nil => exact place.before_step c
  | cons d more ih => exact (place.before_step c).trans (ih (place.step c) d)

private theorem Position.behind_before {i j : Nat} (earlier : i < j) (inside : j ≤ chars.length) :
    (Position.behind (chars.take i)).Before (Position.behind (chars.take j)) := by
  have split : chars.take j = chars.take i ++ (chars.take j).drop i := by
    conv_lhs => rw [← List.take_append_drop i (chars.take j), List.take_take, min_eq_left earlier.le]
  have nonempty : (chars.take j).drop i ≠ [] := by
    apply List.ne_nil_of_length_pos
    rw [List.length_drop, List.length_take, min_eq_left inside]
    exact Nat.sub_pos_of_lt earlier
  obtain ⟨c, more, passed⟩ := List.exists_cons_of_ne_nil nonempty
  rw [split, passed, ← Position.advance_behind]
  exact Position.before_advance _ c more

/-- Tokens come in the order of their places. -/
theorem SplitsInto.increasing {last : Nat} {spans : List Span}
    (splits : SplitsInto chars first last tokens spans) :
    tokens.Pairwise fun token later => token.position.Before later.position := by
  have written := splits.written
  have apart := splits.apart
  clear splits
  -- every token starts at or behind the end of the spans before it, and no span is empty
  induction written with
  | nil => exact .nil
  | @cons token span tokens spans here rest ih =>
    obtain ⟨behind, others⟩ := List.pairwise_cons.mp apart
    refine List.pairwise_cons.mpr ⟨fun later member => ?_, ih others⟩
    obtain ⟨j, inRange, rfl⟩ := List.getElem_of_mem member
    have paired := List.forall₂_iff_get.mp rest
    have bound : j < spans.length := paired.1 ▸ inRange
    have there : tokens[j].WrittenAt chars spans[j] := paired.2 j inRange bound
    have order : span.stop ≤ spans[j].first := behind _ (List.getElem_mem bound)
    rw [here.placed, there.placed]
    exact Position.behind_before (here.nonempty.trans_le order)
      (there.nonempty.le.trans there.inside)

private theorem tokenize_increasing (split : tokenize source = .ok tokens) :
    tokens.Pairwise fun token later => token.position.Before later.position := by
  have right := tokenize_right source
  rw [split] at right
  cases right with
  | ok splits => exact splits.increasing

/-! ### Beginnings and places -/

private theorem Heads.place {enclosed : Bool} {place : Position} {kind : String} {head : List Token}
    (heads : Heads enclosed place kind head) : [place].Sublist (head.map Token.position) := by
  cases heads <;> simp

/-- Beginnings in one part of the tokens and in the next one are beginnings in both. -/
theorem sublist_between {first second : List Token}
    (start : (begins.map Prod.fst).Sublist (first.map Token.position))
    (rest : (more.map Prod.fst).Sublist (second.map Token.position)) :
    ((begins ++ more).map Prod.fst).Sublist ((gap ++ first ++ second).map Token.position) := by
  rw [List.map_append, List.map_append, List.map_append]
  exact (start.trans (List.sublist_append_right _ _)).append rest

mutual

/-- Expressions begin at tokens, in the order in which they are listed. -/
theorem ExpressionLies.places {parent text e begins} :
    ExpressionLies parent text e begins → (begins.map Prod.fst).Sublist (text.map Token.position)
  | .intro heads arguments _ _ => by
    rw [List.map_append, List.map_append]
    exact (heads.place.append arguments.places).trans (List.sublist_append_left _ _)

private theorem ArgumentsLie.places {owner text given begins} :
    ArgumentsLie owner text given begins → (begins.map Prod.fst).Sublist (text.map Token.position)
  | .nil _ => List.nil_sublist _
  | .cons _ lies rest => sublist_between ((lies.places.cons _).cons _) rest.places

private theorem ValueLies.places {owner text value begins} :
    ValueLies owner text value begins → (begins.map Prod.fst).Sublist (text.map Token.position)
  | .atom | .text | .number => List.nil_sublist _
  | .block block => by
    rw [List.cons_append, List.map_cons, List.map_append]
    exact (block.places.trans (List.sublist_append_left _ _)).cons _
  | .list items => by
    rw [List.cons_append, List.map_cons, List.map_append]
    exact (items.places.trans (List.sublist_append_left _ _)).cons _

private theorem BlockLies.places {owner text children begins} :
    BlockLies owner text children begins → (begins.map Prod.fst).Sublist (text.map Token.position)
  | .nil _ => List.nil_sublist _
  | .cons _ lies rest => sublist_between lies.places rest.places

private theorem ItemsLie.places {owner text items begins} :
    ItemsLie owner text items begins → (begins.map Prod.fst).Sublist (text.map Token.position)
  | .nil _ => List.nil_sublist _
  | .cons _ lies rest => sublist_between lies.places rest.places

end

private theorem SourceLies.places (lies : SourceLies text es begins) :
    (begins.map Prod.fst).Sublist (text.map Token.position) := by
  induction lies with
  | nil _ => exact List.nil_sublist _
  | cons _ first _ ih => exact sublist_between first.places ih

/-! ### Parents and children -/

/-- Identifiers increase from each beginning to the next one. -/
def Increasing (begins : List Beginning) : Prop :=
  (begins.map Prod.snd).Pairwise (· < ·)

private theorem Increasing.left (increasing : Increasing (begins ++ more)) : Increasing begins := by
  unfold Increasing at increasing
  rw [List.map_append] at increasing
  exact (List.pairwise_append.mp increasing).1

private theorem Increasing.right (increasing : Increasing (begins ++ more)) : Increasing more := by
  unfold Increasing at increasing
  rw [List.map_append] at increasing
  exact (List.pairwise_append.mp increasing).2.1

/-- Everything below an expression names the owner of its block, which has a smaller identifier. -/
def Expression.IsNumbered (e : Expression) : Prop :=
  ∀ owner, Relation.ReflTransGen Expression.Owns e owner → ∀ child, owner.Owns child →
    child.parent = some owner.id ∧ owner.id < child.id

/-- A child of the expression `owner` that is one of those that begin. -/
structure Belongs (owner : ExpressionId) (begins : List Beginning) (child : Expression) : Prop where
  parent : child.parent = some owner
  begins : child.id ∈ begins.map Prod.snd
  numbered : child.IsNumbered

theorem Belongs.mono {child : Expression} (belongs : Belongs owner begins child)
    (among : begins ⊆ more) : Belongs owner more child :=
  ⟨belongs.parent, List.map_subset _ among belongs.begins, belongs.numbered⟩

/-- An expression whose children all belong to it and have larger identifiers. -/
theorem Expression.isNumbered_of_belongs {e : Expression}
    (children : ∀ child, e.Owns child → Belongs e.id begins child)
    (larger : ∀ id ∈ begins.map Prod.snd, e.id < id) : e.IsNumbered := by
  intro owner below child owns
  rcases Relation.ReflTransGen.cases_head below with rfl | ⟨next, here, deeper⟩
  · have belongs := children child owns
    exact ⟨belongs.parent, larger child.id belongs.begins⟩
  · exact (children next here).numbered owner deeper child owns

mutual

private theorem ExpressionLies.numbered {parent text e begins} :
    ExpressionLies parent text e begins → Increasing begins →
      e.parent = parent ∧ e.id ∈ begins.map Prod.snd ∧ e.IsNumbered
  | .intro _ arguments _ gathers, increasing => by
    -- the owner begins first, so that everything in its arguments has a larger identifier
    obtain ⟨larger, others⟩ := List.pairwise_cons.mp increasing
    refine ⟨rfl, List.mem_cons_self, Expression.isNumbered_of_belongs ?_ larger⟩
    rintro child ⟨name, value, member, keeps⟩
    exact arguments.belongs others name value (gathers.same.mem_iff.mp member) child keeps

private theorem ArgumentsLie.belongs {owner text given begins} :
    ArgumentsLie owner text given begins → Increasing begins → ∀ name value, (name, value) ∈ given →
      ∀ child, value.Keeps child → Belongs owner begins child
  | .nil _, _ => by simp
  | .cons _ lies rest, increasing => by
    intro name value member child keeps
    rcases List.mem_cons.mp member with same | later
    · cases same
      exact (lies.belongs increasing.left child keeps).mono (List.subset_append_left _ _)
    · exact (rest.belongs increasing.right name value later child keeps).mono
        (List.subset_append_right _ _)

private theorem ValueLies.belongs {owner text value begins} :
    ValueLies owner text value begins → Increasing begins → ∀ child, value.Keeps child →
      Belongs owner begins child
  | .atom, _ | .text, _ | .number, _ => nofun
  | .block block, increasing => by
    rintro child ⟨member⟩
    exact block.belongs increasing child member
  | .list items, increasing => by
    rintro child (_ | ⟨member, keeps⟩)
    exact items.belongs increasing _ member child keeps

private theorem BlockLies.belongs {owner text children begins} :
    BlockLies owner text children begins → Increasing begins →
      ∀ child ∈ children, Belongs owner begins child
  | .nil _, _ => by simp
  | .cons _ lies rest, increasing => by
    refine List.forall_mem_cons.mpr ⟨?_, fun child member => ?_⟩
    · obtain ⟨linked, begins, below⟩ := lies.numbered increasing.left
      have belongs : Belongs owner _ _ := ⟨linked, begins, below⟩
      exact belongs.mono (List.subset_append_left _ _)
    · exact (rest.belongs increasing.right child member).mono (List.subset_append_right _ _)

private theorem ItemsLie.belongs {owner text items begins} :
    ItemsLie owner text items begins → Increasing begins →
      ∀ item ∈ items, ∀ child, item.Keeps child → Belongs owner begins child
  | .nil _, _ => by simp
  | .cons _ lies rest, increasing => by
    refine List.forall_mem_cons.mpr ⟨fun child keeps => ?_, fun item member child keeps => ?_⟩
    · exact (lies.belongs increasing.left child keeps).mono (List.subset_append_left _ _)
    · exact (rest.belongs increasing.right item member child keeps).mono
        (List.subset_append_right _ _)

end

private theorem SourceLies.numbered (lies : SourceLies text es begins)
    (increasing : Increasing begins) : ∀ e ∈ es, e.parent = none ∧ e.IsNumbered := by
  induction lies with
  | nil _ => simp
  | cons _ first _ ih =>
    obtain ⟨top, -, linked⟩ := first.numbered increasing.left
    exact List.forall_mem_cons.mpr ⟨⟨top, linked⟩, ih increasing.right⟩

/-! ### One source -/

/-- The expressions of a source have the identifiers from `first` up to `last`, which is outside. -/
structure NumbersSource (source : String) (first last : Nat) (es : List Expression) : Prop where
  /-- Each of these identifiers is that of one expression, at whatever depth. -/
  once : (blockIds true es).map UInt32.toNat = Multiset.Ico first last
  /-- The identifiers increase by one from where an expression begins to where the next one does. -/
  ordered : ∃ tokens begins, tokenize source = .ok tokens ∧ SourceLies tokens es begins ∧
    begins.map (fun beginning => beginning.2.toNat) = List.range' first (last - first) ∧
    begins.Pairwise fun beginning later => beginning.1.Before later.1
  top : ∀ e ∈ es, e.parent = none
  below : ∀ e ∈ es, e.IsNumbered

/-- Numbers that fit into identifiers are read off them. -/
theorem toNat_toUInt32_range' {count : Nat} (fits : first + count ≤ UInt32.size) :
    ((List.range' first count).map Nat.toUInt32).map UInt32.toNat = List.range' first count := by
  rw [List.map_map]
  conv_rhs => rw [← List.map_id (List.range' first count)]
  apply List.map_congr_left
  intro number member
  have below : number < UInt32.size := (List.mem_range'_1.mp member).2.trans_le fits
  simp only [Function.comp_apply, Nat.toUInt32_eq, UInt32.toNat_ofNat_of_lt' below, id]

/-- What the numbers of the beginnings say about the whole source. -/
theorem parseSource_numbers {ids ids' : Supply} {es : List Expression}
    (run : parseSource source ids = .ok es ids') (fits : ids'.next ≤ UInt32.size) :
    NumbersSource source ids.next ids'.next es := by
  obtain ⟨tokens, begins, split, lies, next, taken⟩ := parseSource_lies run
  have count : begins.length = ids'.next - ids.next := by omega
  have numbers : (begins.map Prod.snd).map UInt32.toNat =
      List.range' ids.next (ids'.next - ids.next) := by
    rw [taken, toNat_toUInt32_range' (next ▸ fits), count]
  have increasing : Increasing begins := by
    have ordered : ((begins.map Prod.snd).map UInt32.toNat).Pairwise (· < ·) :=
      numbers ▸ List.pairwise_lt_range'
    exact (List.pairwise_map.mp ordered).imp UInt32.lt_iff_toNat_lt.mpr
  have places : (begins.map Prod.fst).Pairwise Position.Before :=
    (List.pairwise_map.mpr (tokenize_increasing split)).sublist lies.places
  refine ⟨?_, ⟨tokens, begins, split, lies, ?_, List.pairwise_map.mp places⟩, ?_, ?_⟩
  · rw [lies.ids, beginningIds, Multiset.map_coe, numbers]
    rfl
  · rw [← numbers, List.map_map]
    rfl
  · exact fun e member => (lies.numbered increasing e member).1
  · exact fun e member => (lies.numbered increasing e member).2

/-! ### Sources one after the other -/

/-- Reads sources one after the other; one that cannot be read adds no expressions. -/
def Session.readAll (session : Session) (sources : List String) : Session :=
  sources.foldl (fun session source => session.after (Session.parse source)) session

private theorem Session.readAll_cons (session : Session) (source : String) (rest : List String) :
    session.readAll (source :: rest) = (session.after (Session.parse source)).readAll rest :=
  rfl

private theorem Session.readAll_append (session : Session) (first second : List String) :
    session.readAll (first ++ second) = (session.readAll first).readAll second :=
  List.foldl_append

private theorem Session.readAll_next (session : Session) (sources : List String) :
    session.ids.next ≤ (session.readAll sources).ids.next ∧
      (session.readAll sources).readIds ≤
        session.readIds + issued session.ids.next (session.readAll sources).ids.next := by
  induction sources generalizing session with
  | nil => exact ⟨le_rfl, Multiset.le_add_right _ _⟩
  | cons source rest ih =>
    obtain ⟨first, read⟩ := session.parse_next source
    obtain ⟨later, others⟩ := ih (session.after (Session.parse source))
    rw [Session.readAll_cons]
    refine ⟨first.trans later, others.trans ?_⟩
    rw [← issued_add first later, ← add_assoc]
    exact add_le_add read le_rfl

/-- **Sources are numbered in order.** Sources are read one after the other with one supply that does
not come round. Whether a source can be read or not, the supply never goes back. If it can, its
expressions have the identifiers that were next, each of them once and in the order in which the
expressions begin; at the top they have no parent, and everything in a block, also inside of lists,
has the owner of the argument as its parent, whose identifier is smaller. All identifiers of the
session are distinct. -/
theorem sources_numbered (config : Config) (ids : Supply) (sources : List String)
    (fits : (Session.readAll { config, ids } sources).ids.next ≤ UInt32.size) :
    (∀ before source after session, sources = before ++ source :: after →
      session = Session.readAll { config, ids } before →
      session.ids.next ≤ (session.after (Session.parse source)).ids.next ∧
      ∀ es ids', parseSource source session.ids = .ok es ids' →
        session.after (Session.parse source) =
          { session with ids := ids', expressions := session.expressions ++ es } ∧
        NumbersSource source session.ids.next ids'.next es) ∧
    (Session.readAll { config, ids } sources).readIds.Nodup := by
  constructor
  · rintro before source after session rfl rfl
    generalize start : Session.readAll { config, ids } before = session
    refine ⟨(session.parse_next source).1, fun es ids' run => ?_⟩
    have read : session.after (Session.parse source) =
        { session with ids := ids', expressions := session.expressions ++ es } := by
      unfold Session.after Session.parse
      rw [run]
    -- what is read later starts from where this source ends
    have bound : ids'.next ≤ UInt32.size := by
      have later := ((session.after (Session.parse source)).readAll_next after).1
      rw [Session.readAll_append, start, Session.readAll_cons] at fits
      have here := later.trans fits
      rwa [read] at here
    exact ⟨read, parseSource_numbers run bound⟩
  · obtain ⟨-, read⟩ := Session.readAll_next { config, ids } sources
    have none : Session.readIds { config, ids } = 0 := by simp [Session.readIds, blockIds]
    rw [none, zero_add] at read
    exact Multiset.nodup_of_le read (issued_nodup fits)

/-- Blocks in blocks and in a list, whose arguments are not in the order of their names, a text that
cannot be read, and one more source. -/
def nestedSources : List String :=
  ["page defines: \"b\", body: \x7b text value: \"x\" \x7d, all: [ \x7b p\n q \x7d ]\n" ++
    "(div\n a: \x7b b \x7d)\n", "div body: \x7b p", "p"]

theorem sources_numbered_nested :
    (Session.readAll {} nestedSources).expressions.map Expression.id = [1, 5, 9] ∧
      (Session.readAll {} nestedSources).ids.next = 10 ∧
      (Session.readAll {} nestedSources).readIds.Nodup ∧
      ∀ source ∈ nestedSources.head?, ∀ es ids', parseSource source {} = .ok es ids' →
        NumbersSource source 1 ids'.next es := by
  have top : (Session.readAll {} nestedSources).expressions.map Expression.id = [1, 5, 9] := by
    decide +kernel
  have final : (Session.readAll {} nestedSources).ids.next = 10 := by decide +kernel
  have numbered := sources_numbered {} {} nestedSources (final.le.trans (by decide))
  -- a variable for the session keeps it from being evaluated
  generalize Session.readAll {} nestedSources = session at top final numbered ⊢
  refine ⟨top, final, numbered.2, ?_⟩
  intro source first es ids' run
  obtain rfl := Option.some.inj first
  exact ((numbered.1 [] _ _ _ rfl rfl).2 es ids' run).2

end Pagewright
