import Pagewright.Proofs.KindRules

/-!
# Walks that pass

If every definition has been checked, a walk over a tree without references and
parameters passes exactly if everything in it may stand where it does and meets
the rules of its kind, and no two of its tracked ids are the same. It leaves
behind these ids and the targets of its labels, and nothing else.
-/

namespace Pagewright

open Outcome

/-! ### Ids and targets -/

/-- The scope once everything placed has been met. -/
def IdScope.after (ids : IdScope) (placements : List Placement) : IdScope :=
  { ids with
    declared := (trackedIds placements).reverse ++ ids.declared
    targets := (placements.filterMap fun placement =>
      placement.expression.target? placement.stem).reverse ++ ids.targets }

/-- The tracked ids of what is placed are new, and no two of them are the same. -/
structure IdScope.Admits (ids : IdScope) (placements : List Placement) : Prop where
  distinct : (trackedIds placements).Nodup
  fresh : ∀ full ∈ trackedIds placements, full ∉ ids.declared

private theorem IdScope.after_append (ids : IdScope) (first second : List Placement) :
    ids.after (first ++ second) = (ids.after first).after second := by
  simp [IdScope.after, trackedIds_append]

theorem IdScope.admits_append {ids : IdScope} {first second : List Placement} :
    ids.Admits (first ++ second) ↔ ids.Admits first ∧ (ids.after first).Admits second := by
  constructor
  · rintro ⟨distinct, fresh⟩
    rw [trackedIds_append] at distinct fresh
    obtain ⟨one, two, apart⟩ := List.nodup_append.mp distinct
    refine ⟨⟨one, fun full member => fresh full (List.mem_append_left _ member)⟩, two, ?_⟩
    intro full member known
    rcases List.mem_append.mp known with earlier | before
    · exact apart full (List.mem_reverse.mp earlier) full member rfl
    · exact fresh full (List.mem_append_right _ member) before
  · rintro ⟨⟨one, fresh⟩, two, later⟩
    refine ⟨?_, ?_⟩
    · rw [trackedIds_append]
      refine List.nodup_append.mpr ⟨one, two, ?_⟩
      rintro full member _ again rfl
      exact later full again (List.mem_append_left _ (List.mem_reverse.mpr member))
    · intro full member
      rw [trackedIds_append] at member
      rcases List.mem_append.mp member with inFirst | inSecond
      · exact fresh full inFirst
      · exact fun known => later full inSecond (List.mem_append_right _ known)

theorem IdScope.checkTargets_ok {ids : IdScope} (complete : ids.complete = true) :
    ids.checkTargets = .ok () ↔ ∀ target ∈ ids.targets, target.fullId ∈ ids.declared := by
  simp only [IdScope.checkTargets, complete, Bool.not_true, Bool.false_eq_true, if_false]
  cases missing : ids.targets.reverse.find? fun target => !ids.contains target.fullId with
  | some other =>
    have among := List.mem_reverse.mp (List.mem_of_find?_eq_some missing)
    have unknown := List.find?_some missing
    simp only [reduceCtorEq, false_iff]
    intro all
    simp [IdScope.contains, all other among] at unknown
  | none =>
    simp only [true_iff]
    intro target member
    have found := List.find?_eq_none.mp missing target (List.mem_reverse.mpr member)
    simpa [IdScope.contains] using found

/-! ### One expression -/

/-- An expression of this kind may stand where it does, in a form or not, in a select or not. -/
structure Expression.MayStand (inForm inSelect : Bool) (kind : Kind) (e : Expression) : Prop where
  page : kind = .page → e.parent = none
  form : kind = .form → inForm = false
  option : kind = .option → inSelect = true
  named : e.parent.isSome = true → e.has "defines" = false

variable {table : Table} {limit : Nat} {markers markers' : Markers} {context : Context}
  {ids ids' : IdScope} {e : Expression} {kind : Kind} {children : List Expression}

theorem Expression.only_iff (closed : e.get? "parameters" = none) (own : e.get? "inherits" = none) :
    (e.subject kind).onlyHas (commonNames ++ [] ++ kind.argumentNames (e.text? "type")) = .ok () ↔
      ∀ name, e.has name = true → name ∈ ["defines", "id", "styles", "classes"] ∨
        ∃ rule ∈ kind.rules (e.text? "type"), rule.name = name := by
  rw [Subject.onlyHas_ok]
  refine forall_congr' fun name => forall_congr' fun given => ?_
  have noParameters : name ≠ "parameters" := by
    rintro rfl
    simp [Expression.has, closed] at given
  have noInherits : name ≠ "inherits" := by
    rintro rfl
    simp [Expression.has, own] at given
  simp only [List.append_nil, List.mem_append, Kind.mem_argumentNames]
  apply or_congr_left
  simp [commonNames, noParameters, noInherits]

theorem IdScope.after_singleton (ids : IdScope) (placement : Placement) :
    ids.after [placement] =
      { ids with
        declared := (placement.expression.trackedId?.map fun own =>
          own.fullId placement.stem).toList ++ ids.declared
        targets := (placement.expression.target? placement.stem).toList ++ ids.targets } := by
  rw [IdScope.after, trackedIds_singleton]
  cases placement.expression.trackedId? <;>
    cases found : placement.expression.target? placement.stem <;> simp [found]

theorem IdScope.admits_singleton {placement : Placement} :
    ids.Admits [placement] ↔ ∀ own, placement.expression.trackedId? = some own →
      own.fullId placement.stem ∉ ids.declared := by
  constructor
  · intro admits own tracked
    refine admits.fresh _ ?_
    simp [trackedIds_singleton, tracked]
  · intro fresh
    constructor <;> rw [trackedIds_singleton]
    · cases placement.expression.trackedId? <;> simp
    · cases tracked : placement.expression.trackedId? with
      | none => simp
      | some own => simpa using fresh own tracked

/-- A walk that passes has admitted a concrete expression, which had a new id, and has then walked its
block. -/
theorem walk_enters {σ : Type} {rules : Rules σ} {s s' : σ} (strict : context.concrete = true)
    (concrete : e.isConcrete = true) (named : Kind.ofName? e.kind = some kind)
    (run : walk rules e context ids s = .ok ids' s') (item? : Option String) :
    Admitted rules context e kind (innerStem e context.stem) ∧
      ids.Admits [⟨e, context.stem, item?⟩] ∧
      ∃ t, walkBlock rules (e.contents kind) (context.below kind (innerStem e context.stem))
        (ids.after [⟨e, context.stem, item?⟩]) t = .ok ids' s' := by
  obtain ⟨stem, declared, after, t, identified, particular, admitted, content⟩ :=
    walk_concrete strict concrete named run
  obtain ⟨fresh, rfl, rfl⟩ := declareId_ok.mp (checkId_ok.mp identified).2
  obtain ⟨-, rfl⟩ := checkArguments_met named particular
  refine ⟨admitted, IdScope.admits_singleton.mpr fresh, t, ?_⟩
  rw [IdScope.after_singleton]
  exact content

/-- A walk lets a concrete expression pass if it may stand where it does, meets the rules of its
kind and has a new id, and then walks its block. -/
theorem walk_step (done : markers.AllDone table) (strict : context.concrete = true)
    (concrete : e.isConcrete = true) (named : Kind.ofName? e.kind = some kind) :
    walk (tableRules table limit) e context ids markers = .ok ids' markers' ↔
      e.MayStand context.inForm context.inSelect kind ∧ e.MeetsRules table limit kind ∧
        ids.Admits [⟨e, context.stem, none⟩] ∧
        walkBlock (tableRules table limit) (e.contents kind)
          (context.below kind (innerStem e context.stem)) (ids.after [⟨e, context.stem, none⟩])
          markers = .ok ids' markers' := by
  obtain ⟨closed, own, -⟩ := Expression.isConcrete_iff.mp concrete
  rw [walk_ok, IdScope.admits_singleton, IdScope.after_singleton]
  simp only [enter_ok strict concrete named, checkNesting_ok, checkPlace_ok, Subject.texts_ok,
    checkId_ok, declareId_ok, checkArguments_ok done named]
  constructor
  · rintro ⟨_, _, ⟨nesting, ⟨page, form, option⟩, styles, classes, _, _, _, ⟨id, fresh, rfl, rfl⟩,
      ⟨particular, bounds, rfl, rfl⟩, rfl⟩, close, walked⟩
    have only := (Expression.only_iff closed own).mp close
    exact ⟨⟨page, form, option, nesting⟩, ⟨styles, classes, id, particular, bounds, only⟩, fresh,
      walkBlock_contents.mp walked⟩
  · rintro ⟨⟨page, form, option, nesting⟩, ⟨styles, classes, id, particular, bounds, only⟩, fresh,
      walked⟩
    exact ⟨_, _, ⟨nesting, ⟨page, form, option⟩, styles, classes, _, _, _, ⟨id, fresh, rfl, rfl⟩,
      ⟨particular, bounds, rfl, rfl⟩, rfl⟩, (Expression.only_iff closed own).mpr only,
      walkBlock_contents.mpr walked⟩

/-! ### What an expression holds -/

theorem Expression.holds_of_contents {child : Expression} (member : child ∈ e.contents kind) :
    ∃ name, e.Holds name child := by
  unfold Expression.contents at member
  cases content : kind.content? with
  | none => simp [content] at member
  | some name =>
    rw [content] at member
    exact ⟨name, Expression.holds_of_block member⟩

theorem Expression.MeetsRules.content {name : String} (meets : e.MeetsRules table limit kind)
    (unnamed : e.get? "defines" = none) (found : e.get? name = some (.block children)) :
    kind.content? = some name := by
  rcases meets.only name (by simp [Expression.has, found]) with common | ⟨rule, member, rfl⟩
  · simp only [List.mem_cons, List.not_mem_nil, or_false] at common
    rcases common with rfl | rfl | rfl | rfl
    · rw [unnamed] at found
      cases found
    · obtain ⟨raw, isText, -⟩ := meets.id.valid _ found
      cases isText
    · obtain ⟨items, isList, -⟩ := meets.styles _ found
      cases isList
    · obtain ⟨items, isList, -⟩ := meets.classes _ found
      cases isList
  · refine kind.content?_of_rule _ rule member ?_
    have fits := (meets.rules rule member).1 _ found
    cases form : rule.form with
    | block => rfl
    | text | number | texts => simp [form, Form.Fits] at fits

private theorem Expression.MeetsRules.placements (meets : e.MeetsRules table limit kind)
    (named : Kind.ofName? e.kind = some kind) (ordered : Entries.Ordered e.arguments)
    (unnamed : e.get? "defines" = none) (stem : String) :
    e.placements stem none =
      [⟨e, stem, none⟩] ++ placementsBlock (e.contents kind) (innerStem e stem) none := by
  have only : ∀ name children, (name, Argument.block children) ∈ e.arguments → children ≠ [] →
      kind.content? = some name :=
    fun name children member _ => meets.content unnamed (ordered.lookup_of_mem member)
  have blocks := placementsArguments_eq ordered only (innerStem e stem) (e.itemBelow none)
  rw [Option.bind_assoc] at blocks
  have whole : e.placements stem none = [⟨e, stem, none⟩] ++
      placementsBlock (e.contents kind) (innerStem e stem) (e.itemBelow none) := by
    obtain ⟨id, parent, kind, arguments⟩ := e
    exact congrArg (List.cons _) blocks
  rw [whole]
  by_cases list : kind = .list
  · -- nothing stands in a list, so it does not matter what its rows would be
    subst list
    rfl
  · have noList : e.kind ≠ "list" := fun written => list (Kind.eq_of_ofName? named written)
    rw [Expression.itemBelow, if_neg noList]

/-! ### Trees -/

/-- A plain expression that takes no parameters. -/
structure Expression.IsBare (e : Expression) : Prop extends e.IsPlain where
  closed : e.get? "parameters" = none

theorem Expression.IsBare.isConcrete (bare : e.IsBare) : e.isConcrete = true :=
  Expression.isConcrete_iff.mpr ⟨bare.closed, bare.own, bare.builtIn⟩

theorem Expression.IsBare.unset (bare : e.IsBare) : (e.unset "defines").IsBare where
  tidy := ⟨bare.tidy.ordered.erase _,
    fun name child held => bare.tidy.linked name child held.of_unset⟩
  builtIn := bare.builtIn
  own := (e.get?_unset_of_ne (by decide)).trans bare.own
  closed := (e.get?_unset_of_ne (by decide)).trans bare.closed

/-- The expression may stand where it does and meets the rules of its kind, and so does everything in
its block; a select holds options only. -/
inductive Expression.Stands (table : Table) (limit : Nat) : Bool → Bool → Expression → Prop
  | intro {inForm inSelect : Bool} {e : Expression} {kind : Kind}
      (named : Kind.ofName? e.kind = some kind) (place : e.MayStand inForm inSelect kind)
      (meets : e.MeetsRules table limit kind)
      (options : kind = .select → ∀ child ∈ e.contents kind, child.kind = "option")
      (below : ∀ child ∈ e.contents kind,
        Stands table limit (inForm || kind = .form) (kind = .select) child) :
      Stands table limit inForm inSelect e

/-- A block passes if everything in it does, with ids that are all new. -/
theorem walkBlock_ok {passes : Expression → Prop}
    (each : ∀ child ∈ children, ∀ ids ids' markers',
      walk (tableRules table limit) child context ids markers = .ok ids' markers' ↔
        passes child ∧ ids.Admits (child.placements context.stem none) ∧
          ids.after (child.placements context.stem none) = ids' ∧ markers = markers') :
    walkBlock (tableRules table limit) children context ids markers = .ok ids' markers' ↔
      (context.inSelect = true → ∀ child ∈ children, child.kind = "option") ∧
        (∀ child ∈ children, passes child) ∧
        ids.Admits (placementsBlock children context.stem none) ∧
        ids.after (placementsBlock children context.stem none) = ids' ∧ markers = markers' := by
  induction children generalizing ids with
  | nil =>
    have nothing : ids.Admits [] := ⟨List.nodup_nil, by simp [trackedIds]⟩
    rw [walkBlock, pure_ok, placementsBlock]
    simp [nothing, IdScope.after, trackedIds]
  | cons child rest ih =>
    have later : ∀ ids : IdScope,
        walkBlock (tableRules table limit) rest context ids markers = .ok ids' markers' ↔ _ :=
      fun _ => ih (List.forall_mem_cons.mp each).2
    simp only [walkBlock_cons_ok, each child List.mem_cons_self, placementsBlock,
      IdScope.admits_append, IdScope.after_append, List.forall_mem_cons]
    constructor
    · rintro ⟨option, _, _, ⟨here, admits, rfl, rfl⟩, rest⟩
      obtain ⟨options, passes, admitsRest, rfl, rfl⟩ := (later _).mp rest
      exact ⟨fun select => ⟨option select, options select⟩, ⟨here, passes⟩, ⟨admits, admitsRest⟩, rfl,
        rfl⟩
    · rintro ⟨options, ⟨here, passes⟩, ⟨admits, admitsRest⟩, rfl, rfl⟩
      exact ⟨fun select => (options select).1, _, _, ⟨here, admits, rfl, rfl⟩,
        (later _).mpr ⟨fun select => (options select).2, passes, admitsRest, rfl, rfl⟩⟩

/-- A walk over a tree passes if the tree stands and its ids are all new; it leaves these and the
targets of labels behind. -/
theorem walk_stands (done : markers.AllDone table) (strict : context.concrete = true)
    (bare : e.Throughout Expression.IsBare)
    (unnamed : e.parent = none → e.get? "defines" = none) :
    walk (tableRules table limit) e context ids markers = .ok ids' markers' ↔
      e.Stands table limit context.inForm context.inSelect ∧
        ids.Admits (e.placements context.stem none) ∧
        ids.after (e.placements context.stem none) = ids' ∧ markers = markers' := by
  -- by induction on the tree: a child is walked in the context below its owner, whatever was
  -- declared before it
  induction e using Expression.inductionOn generalizing context ids ids' markers' with
  | step owner ih =>
    obtain ⟨kind, named⟩ := Option.isSome_iff_exists.mp bare.here.builtIn
    have unnamedHere : owner.MayStand context.inForm context.inSelect kind →
        owner.get? "defines" = none := by
      intro place
      cases parent : owner.parent with
      | none => exact unnamed parent
      | some link => simpa [Expression.has] using place.named (by simp [parent])
    have each : ∀ child ∈ owner.contents kind, ∀ ids ids' markers',
        walk (tableRules table limit) child (context.below kind (innerStem owner context.stem)) ids
            markers = .ok ids' markers' ↔
          child.Stands table limit (context.inForm || kind = .form) (kind = .select) ∧
            ids.Admits (child.placements (innerStem owner context.stem) none) ∧
            ids.after (child.placements (innerStem owner context.stem) none) = ids' ∧
            markers = markers' := by
      intro child member ids ids' markers'
      obtain ⟨name, held⟩ := Expression.holds_of_contents member
      have linked := bare.here.tidy.linked name child held
      refine ih name child held (by rfl) (bare.child held) fun parent => ?_
      simp [parent] at linked
    rw [walk_step done strict bare.here.isConcrete named, walkBlock_ok each]
    constructor
    · rintro ⟨place, meets, admits, options, below, admitsBelow, rfl, rfl⟩
      rw [meets.placements named bare.here.tidy.ordered (unnamedHere place), IdScope.admits_append,
        IdScope.after_append]
      refine ⟨.intro named place meets ?_ below, ⟨admits, admitsBelow⟩, rfl, rfl⟩
      simpa [Context.below] using options
    · rintro ⟨stands, admits, rfl, rfl⟩
      cases stands with
      | intro named' place meets options below =>
        cases named.symm.trans named'
        rw [meets.placements named bare.here.tidy.ordered (unnamedHere place)] at admits ⊢
        rw [IdScope.admits_append] at admits
        refine ⟨place, meets, admits.1, ?_, below, admits.2, (ids.after_append _ _).symm, rfl⟩
        simpa [Context.below] using options

end Pagewright
