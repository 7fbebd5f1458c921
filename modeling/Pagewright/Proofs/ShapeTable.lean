import Pagewright.Proofs.PassingWalks

/-!
# The shape table

An instance is accepted exactly if it has the shape that the rules describe: kinds
stand where they may, every expression meets the rules of its kind, tracked ids
are different and labels find their targets. All of this is said of the whole
tree, without the order in which a walk comes by.

What is written after `defines` at the root is no part of this tree. A walk never
looks at it, whatever it is.
-/

namespace Pagewright

open Outcome

variable {table : Table} {limit : Nat} {markers markers' : Markers} {context : Context}
  {ids ids' : IdScope} {e inner other : Expression} {kind : Kind} {name : String}

/-! ### Where expressions stand -/

/-- What kinds of expressions stand where in a tree. -/
structure Expression.IsArranged (tree : Expression) : Prop where
  names : ∀ inner, tree.Encloses inner → inner.has "defines" = false
  pages : ∀ inner, tree.Encloses inner → inner.kind ≠ "page"
  forms : ∀ outer inner, tree.Contains outer → outer.kind = "form" → outer.Encloses inner →
    inner.kind ≠ "form"
  options : ∀ owner name child, tree.Contains owner → owner.Holds name child →
    (child.kind = "option" ↔ owner.kind = "select")

def Expression.IsInShape (table : Table) (limit : Nat) (e : Expression) : Prop :=
  ∃ kind, Kind.ofName? e.kind = some kind ∧ e.MeetsRules table limit kind

theorem Kind.eq_iff_of_ofName? (named : Kind.ofName? name = some kind) (other : Kind) :
    kind = other ↔ name = other.name := by
  constructor
  · rintro rfl
    exact (Kind.name_of_ofName? named).symm
  · exact Kind.eq_of_ofName? named

variable {inForm inSelect : Bool}

section

variable (stands : e.Stands table limit inForm inSelect)

include stands

private theorem Expression.Stands.unnamed (linked : e.parent.isSome = true) :
    e.get? "defines" = none := by
  cases stands with
  | intro _ place _ _ _ => simpa [Expression.has] using place.named linked

/-- Whatever an expression that stands holds stands below it. -/
theorem Expression.Stands.held (bare : e.IsBare) (unnamed : e.get? "defines" = none)
    {name : String} {child : Expression} (held : e.Holds name child) :
    (e.kind = "select" → child.kind = "option") ∧
      child.Stands table limit (inForm || e.kind = "form") (e.kind = "select") := by
  cases stands with
  | @intro _ _ _ kind named place meets options below =>
    obtain ⟨children, member, inside⟩ := held
    have found := bare.tidy.ordered.lookup_of_mem member
    have content : child ∈ e.contents kind := by
      simpa [Expression.contents, meets.content unnamed found, Expression.block?, Expression.get?,
        found, Argument.block?] using inside
    have form := Kind.eq_iff_of_ofName? named .form
    have select := Kind.eq_iff_of_ofName? named .select
    refine ⟨fun isSelect => options (select.mpr isSelect) child content, ?_⟩
    have stands := below child content
    simpa only [form, select, Kind.name] using stands

private theorem Expression.Stands.contained (bare : e.Throughout Expression.IsBare)
    (unnamed : e.get? "defines" = none) (contained : e.Contains inner) :
    inner.get? "defines" = none ∧ ∃ inForm' inSelect', (inForm = true → inForm' = true) ∧
      inner.Stands table limit inForm' inSelect' := by
  induction e using Expression.inductionOn generalizing inForm inSelect with
  | step owner ih =>
    rcases Expression.contains_iff.mp contained with rfl | ⟨name, child, held, deeper⟩
    · exact ⟨unnamed, inForm, inSelect, fun inside => inside, stands⟩
    · have below := (stands.held bare.here unnamed held).2
      obtain ⟨none, inForm', inSelect', kept, there⟩ := ih name child held below (bare.child held)
        (below.unnamed (bare.here.tidy.linked name child held)) deeper
      exact ⟨none, inForm', inSelect', fun inside => kept (by simp [inside]), there⟩

private theorem Expression.Stands.isArranged (bare : e.Throughout Expression.IsBare)
    (unnamed : e.get? "defines" = none) : e.IsArranged := by
  have nested : ∀ inner, e.Encloses inner → inner.has "defines" = false ∧ inner.kind ≠ "page" := by
    intro inner enclosed
    obtain ⟨owner, contained, name, held⟩ := Relation.TransGen.tail'_iff.mp enclosed
    obtain ⟨none, _, _, -, there⟩ := stands.contained bare unnamed contained
    have linked := (bare owner contained).tidy.linked name inner held
    cases (there.held (bare owner contained) none held).2 with
    | intro named place _ _ _ =>
      refine ⟨place.named linked, fun page => ?_⟩
      have free := place.page ((Kind.eq_iff_of_ofName? named .page).mpr page)
      simp [free] at linked
  refine ⟨fun inner enclosed => (nested inner enclosed).1,
    fun inner enclosed => (nested inner enclosed).2, ?_, ?_⟩
  · intro outer inner contained isForm enclosed isInner
    obtain ⟨name, child, held, deeper⟩ := Expression.encloses_iff.mp enclosed
    obtain ⟨none, _, _, -, there⟩ := stands.contained bare unnamed contained
    have below := (there.held (bare outer contained) none held).2
    have childBare : child.Throughout Expression.IsBare :=
      fun other within => bare other (contained.trans (held.contains.trans within))
    have linked := (bare outer contained).tidy.linked name child held
    obtain ⟨-, _, _, kept, innerStands⟩ := below.contained childBare (below.unnamed linked) deeper
    cases innerStands with
    | intro named place _ _ _ =>
      have outside := place.form ((Kind.eq_iff_of_ofName? named .form).mpr isInner)
      simp [kept (by simp [isForm])] at outside
  · intro owner name child contained held
    obtain ⟨none, _, _, -, there⟩ := stands.contained bare unnamed contained
    obtain ⟨option, below⟩ := there.held (bare owner contained) none held
    refine ⟨fun isOption => ?_, option⟩
    cases below with
    | intro named place _ _ _ =>
      simpa using place.option ((Kind.eq_iff_of_ofName? named .option).mpr isOption)

end

private theorem Expression.IsArranged.child (arranged : e.IsArranged) {child : Expression}
    (held : e.Holds name child) : child.IsArranged where
  names inner enclosed := arranged.names inner (.head ⟨name, held⟩ enclosed)
  pages inner enclosed := arranged.pages inner (.head ⟨name, held⟩ enclosed)
  forms outer inner contained := arranged.forms outer inner (held.contains.trans contained)
  options owner place inner contained :=
    arranged.options owner place inner (held.contains.trans contained)

/-- A tree that is arranged, with everything in shape, stands in the context it is for. -/
theorem Expression.IsArranged.stands (arranged : e.IsArranged)
    (shapes : e.Throughout (Expression.IsInShape table limit))
    (place : ∀ kind, Kind.ofName? e.kind = some kind → e.MayStand inForm inSelect kind)
    (outside : inForm = true → e.Throughout fun inner => inner.kind ≠ "form") :
    e.Stands table limit inForm inSelect := by
  induction e using Expression.inductionOn generalizing inForm inSelect with
  | step owner ih =>
    obtain ⟨kind, named, meets⟩ := shapes.here
    have form := Kind.eq_iff_of_ofName? named .form
    have select := Kind.eq_iff_of_ofName? named .select
    refine .intro named (place kind named) meets ?_ ?_
    · intro isSelect child member
      obtain ⟨name, held⟩ := Expression.holds_of_contents member
      exact (arranged.options owner name child (Expression.contains_self owner) held).mpr
        (select.mp isSelect)
    · intro child member
      obtain ⟨name, held⟩ := Expression.holds_of_contents member
      have enclosed : owner.Encloses child := .single ⟨name, held⟩
      -- The context rules out forms below, or the owner does by being one.
      have noForms : (inForm || kind = .form) = true →
          child.Throughout fun inner => inner.kind ≠ "form" := by
        intro inside inner contained
        rcases Bool.or_eq_true_iff.mp inside with already | isForm
        · exact outside already inner (held.contains.trans contained)
        · exact arranged.forms owner inner (Expression.contains_self owner)
            (form.mp (of_decide_eq_true isForm))
            (Expression.encloses_iff.mpr ⟨name, child, held, contained⟩)
      refine ih name child held (arranged.child held) (shapes.child held) ?_ noForms
      intro childKind childNamed
      constructor
      · intro isPage
        have written := (Kind.eq_iff_of_ofName? childNamed .page).mp isPage
        exact absurd written (arranged.pages child enclosed)
      · intro isForm
        by_contra inside
        exact noForms (Bool.eq_true_of_not_eq_false inside) child (Expression.contains_self child)
          ((Kind.eq_iff_of_ofName? childNamed .form).mp isForm)
      · intro isOption
        have among := (arranged.options owner name child (Expression.contains_self owner) held).mp
          ((Kind.eq_iff_of_ofName? childNamed .option).mp isOption)
        simpa using select.mpr among
      · exact fun _ => arranged.names child enclosed

/-! ### The name of a definition -/

private theorem Kind.rule_name_ne (kind : Kind) (inputType : Option String) :
    ∀ rule ∈ kind.rules inputType, rule.name ≠ "defines" := by
  cases kind with
  | input =>
    simp only [Kind.rules]
    split_ifs <;> simp
  | page | div | form | list | select | option | label | text | h1 | p | span | button =>
    simp [Kind.rules]

/-- One argument can be changed as long as what the rules ask of it still holds. -/
theorem Expression.MeetsRules.of_get? {changed : String} (meets : e.MeetsRules table limit kind)
    (same : ∀ name, name ≠ changed → other.get? name = e.get? name)
    (aside : changed ∉ ["styles", "classes", "id", "type", "for", "min", "max", "initial"])
    (known : changed = "defines" ∨ ∃ rule ∈ kind.rules (e.text? "type"), rule.name = changed)
    (met : ∀ rule ∈ kind.rules (e.text? "type"), rule.name = changed → rule.Met other) :
    other.MeetsRules table limit kind := by
  -- The rules beside the kind's own read only these names.
  have apart : ∀ name ∈ ["styles", "classes", "id", "type", "for", "min", "max", "initial"],
      name ≠ changed := fun name member equal => aside (equal ▸ member)
  have has : ∀ name, name ≠ changed → other.has name = e.has name := fun name apart => by
    rw [Expression.has, Expression.has, same name apart]
  have fits : ∀ form name, name ≠ changed → e.Fits form name → other.Fits form name :=
    fun form name apart fits value found => fits value (same name apart ▸ found)
  have text : ∀ name, name ≠ changed → other.text? name = e.text? name := fun name apart => by
    rw [Expression.text?, Expression.text?, same name apart]
  have number : ∀ name, name ≠ changed → other.number? name = e.number? name :=
    fun name apart => by rw [Expression.number?, Expression.number?, same name apart]
  have id : other.scopedId? = e.scopedId? := by
    rw [Expression.scopedId?, Expression.scopedId?, text "id" (apart _ (by decide))]
  have type := text "type" (apart _ (by decide))
  refine ⟨fits _ _ (apart _ (by decide)) meets.styles, fits _ _ (apart _ (by decide)) meets.classes,
    ?_, ?_, ?_, ?_⟩
  · refine ⟨?_, ?_, ?_⟩
    · rw [has "id" (apart _ (by decide))]
      exact meets.id.forbidden
    · rw [has "id" (apart _ (by decide))]
      exact meets.id.required
    · rw [same "id" (apart _ (by decide))]
      exact meets.id.valid
  · rw [type]
    intro rule member
    by_cases here : rule.name = changed
    · exact met rule member here
    · obtain ⟨fit, required⟩ := meets.rules rule member
      exact ⟨fits _ _ here fit, by rwa [has _ here]⟩
  · have bounds : other.MeetsBounds table limit kind = e.MeetsBounds table limit kind := by
      cases kind <;> simp only [Expression.MeetsBounds, type, id, text "for" (apart _ (by decide)),
        number "min" (apart _ (by decide)), number "max" (apart _ (by decide)),
        number "initial" (apart _ (by decide))]
    rw [bounds]
    exact meets.bounds
  · rw [type]
    intro name given
    by_cases here : name = changed
    · rcases known with defines | ⟨rule, member, named⟩
      · exact .inl (by simp [here, defines])
      · exact .inr ⟨rule, member, named.trans here.symm⟩
    · exact meets.only name (has name here ▸ given)

/-- Beyond its place and the rules of its kind, a walk looks at few arguments of an expression. -/
theorem walk_congr (done : markers.AllDone table) (strict : context.concrete = true)
    (concrete : e.isConcrete = true) (concrete' : other.isConcrete = true)
    (kinds : other.kind = e.kind)
    (same : ∀ name ∈ ["id", "for", "body", "options"], other.get? name = e.get? name)
    (place : ∀ kind, e.MayStand context.inForm context.inSelect kind →
      other.MayStand context.inForm context.inSelect kind)
    (meets : ∀ kind, Kind.ofName? e.kind = some kind → e.MeetsRules table limit kind →
      other.MeetsRules table limit kind)
    (run : walk (tableRules table limit) e context ids markers = .ok ids' markers') :
    walk (tableRules table limit) other context ids markers = .ok ids' markers' := by
  obtain ⟨kind, named⟩ := Option.isSome_iff_exists.mp (Expression.isConcrete_iff.mp concrete).2.2
  have id : other.scopedId? = e.scopedId? := by
    simp only [Expression.scopedId?, Expression.text?, same "id" (by decide)]
  have tracked : other.trackedId? = e.trackedId? := by
    simp only [Expression.trackedId?, id]
  have stem : innerStem other context.stem = innerStem e context.stem := by
    simp only [innerStem, id]
  have target : other.target? context.stem = e.target? context.stem := by
    simp only [Expression.target?, Expression.text?, same "for" (by decide), kinds]
  have contents : other.contents kind = e.contents kind := by
    cases kind <;> simp only [Expression.contents, Kind.content?, Option.bind_some, Option.bind_none,
      Expression.block?, same "body" (by decide), same "options" (by decide)]
  rw [walk_step done strict concrete named] at run
  rw [walk_step done strict concrete' (kinds ▸ named)]
  simp only [contents, stem, IdScope.admits_singleton, IdScope.after_singleton, tracked,
    target] at run ⊢
  exact ⟨place kind run.1, meets kind named run.2.1, run.2.2⟩

/-- A walk does not look at the name that a top-level expression defines. -/
theorem walk_unset (done : markers.AllDone table) (strict : context.concrete = true)
    (bare : e.IsBare) (free : e.parent = none) :
    walk (tableRules table limit) (e.unset "defines") context ids markers = .ok ids' markers' ↔
      walk (tableRules table limit) e context ids markers = .ok ids' markers' := by
  have same : ∀ name, name ≠ "defines" → (e.unset "defines").get? name = e.get? name :=
    fun name apart => e.get?_unset_of_ne apart
  have apart : ∀ name ∈ ["id", "for", "body", "options"], name ≠ "defines" := by decide
  have linked : ∀ {named : Prop}, e.parent.isSome = true → named := by simp [free]
  -- no rule is about the name
  have unruled : ∀ {kind : Kind} {type : Option String} {other : Expression},
      ∀ rule ∈ kind.rules type, rule.name = "defines" → rule.Met other :=
    fun rule member named => absurd named (Kind.rule_name_ne _ _ rule member)
  constructor
  · exact walk_congr done strict bare.unset.isConcrete bare.isConcrete rfl
      (fun name member => (same name (apart name member)).symm)
      (fun kind place => ⟨place.page, place.form, place.option, linked⟩)
      fun kind _ meets => meets.of_get? (fun name apart => (same name apart).symm) (by decide)
        (.inl rfl) unruled
  · exact walk_congr done strict bare.isConcrete bare.unset.isConcrete rfl
      (fun name member => same name (apart name member))
      (fun kind place => ⟨place.page, place.form, place.option, linked⟩)
      fun kind _ meets => meets.of_get? same (by decide) (.inl rfl) unruled

/-! ### The shape table -/

/-- A tree that is free of parameters and references has the shape that is asked for: kinds stand
where they may, every expression meets the rules of its kind, and under `stem` no two tracked ids
are the same and every label has its target. -/
structure Expression.FitsTable (table : Table) (limit : Nat) (stem : String) (tree : Expression) :
    Prop where
  arranged : tree.IsArranged
  root : tree.kind ≠ "option"
  shapes : tree.Throughout (Expression.IsInShape table limit)
  distinct : (trackedIds (tree.placements stem none)).Nodup
  labels : ∀ label ∈ tree.placements stem none, ∀ target,
    label.expression.target? label.stem = some target →
      target.fullId ∈ trackedIds (tree.placements stem none)

theorem walkDefinition_concrete {σ : Type} {rules : Rules σ} {s s' : σ}
    (concrete : e.isConcrete = true) {result : Option IdScope} :
    walkDefinition rules e name s = .ok result s' ↔
      ∃ ids, walk rules e { stem := rootStem e name, concrete := true } {} s = .ok ids s' ∧
        ids.checkTargets = .ok () ∧ some ids = result := by
  simp only [walkDefinition, concrete, if_true, bind_ok, ofExcept_ok, pure_ok]
  constructor
  · rintro ⟨ids, _, walked, _, _, ⟨targets, rfl⟩, rfl, rfl⟩
    exact ⟨ids, walked, targets, rfl⟩
  · rintro ⟨ids, walked, targets, rfl⟩
    exact ⟨ids, _, walked, (), _, ⟨targets, rfl⟩, rfl, rfl⟩

theorem checkInstance_ok {inst : Expression} (concrete : inst.isConcrete = true) :
    checkInstance table limit inst name markers = .ok ids markers' ↔
      walk (tableRules table limit) inst { stem := rootStem inst name, concrete := true } {} markers =
          .ok ids markers' ∧ ids.checkTargets = .ok () := by
  unfold checkInstance
  simp only [concrete, Bool.not_true, Bool.false_eq_true, if_false, bind_ok, adaptExcept_ok,
    walkDefinition_concrete concrete]
  constructor
  · rintro ⟨_, _, ⟨_, walked, targets, rfl⟩, last⟩
    obtain ⟨rfl, rfl⟩ := pure_ok.mp last
    exact ⟨walked, targets⟩
  · rintro ⟨walked, targets⟩
    exact ⟨_, _, ⟨_, walked, targets, rfl⟩, rfl⟩

private theorem Expression.stands_iff_arranged (bare : e.Throughout Expression.IsBare)
    (free : e.parent = none) (unnamed : e.get? "defines" = none) :
    e.Stands table limit false false ↔
      e.IsArranged ∧ e.kind ≠ "option" ∧ e.Throughout (Expression.IsInShape table limit) := by
  constructor
  · intro stands
    refine ⟨stands.isArranged bare unnamed, ?_, ?_⟩
    · intro isOption
      cases stands with
      | intro named place _ _ _ =>
        cases place.option ((Kind.eq_iff_of_ofName? named .option).mpr isOption)
    · intro inner contained
      obtain ⟨-, _, _, -, there⟩ := stands.contained bare unnamed contained
      cases there with
      | intro named _ meets _ _ => exact ⟨_, named, meets⟩
  · rintro ⟨arranged, noOption, shapes⟩
    refine arranged.stands shapes (fun kind named => ⟨fun _ => free, fun _ => rfl, ?_, ?_⟩) ?_
    · intro isOption
      exact absurd ((Kind.eq_iff_of_ofName? named .option).mp isOption) noOption
    · intro linked
      simp [free] at linked
    · intro inside
      cases inside

/-- **Instances are accepted by their shape.** Once all definitions have been checked, a tree without
references and parameters is accepted exactly if it fits the shape table, apart from what is written
after `defines` at its root. -/
theorem instance_accepted_iff {root : Expression} {name : String} (done : markers.AllDone table)
    (bare : root.Throughout Expression.IsBare) (free : root.parent = none) :
    (∃ ids markers', checkInstance table limit root name markers = .ok ids markers') ↔
      (root.unset "defines").FitsTable table limit (rootStem root name) := by
  have bareTree : (root.unset "defines").Throughout Expression.IsBare :=
    Expression.throughout_iff.mpr ⟨bare.here.unset, fun _ _ held => bare.child held.of_unset⟩
  have unnamed : (root.unset "defines").get? "defines" = none := Entries.lookup_erase_self ..
  have walked : ∀ ids markers',
      walk (tableRules table limit) root { stem := rootStem root name, concrete := true } {} markers =
          .ok ids markers' ↔ (root.unset "defines").Stands table limit false false ∧
        IdScope.Admits {} ((root.unset "defines").placements (rootStem root name) none) ∧
        IdScope.after {} ((root.unset "defines").placements (rootStem root name) none) = ids ∧
        markers = markers' :=
    fun _ _ => (walk_unset done (by rfl) bare.here free).symm.trans
      (walk_stands done (by rfl) bareTree fun _ => unnamed)
  simp only [checkInstance_ok bare.here.isConcrete, walked,
    Expression.stands_iff_arranged bareTree free unnamed]
  constructor
  · rintro ⟨_, _, ⟨⟨arranged, noOption, shapes⟩, admits, rfl, rfl⟩, targets⟩
    refine ⟨arranged, noOption, shapes, admits.distinct, ?_⟩
    intro label member target aims
    have known := (IdScope.checkTargets_ok (by rfl)).mp targets target
    simp only [IdScope.after, List.append_nil, List.mem_reverse, List.mem_filterMap] at known
    exact known ⟨label, member, aims⟩
  · rintro ⟨arranged, noOption, shapes, distinct, labels⟩
    refine ⟨_, _, ⟨⟨arranged, noOption, shapes⟩, ⟨distinct, by simp⟩, rfl, rfl⟩, ?_⟩
    refine (IdScope.checkTargets_ok (by rfl)).mpr fun target => ?_
    simp only [IdScope.after, List.append_nil, List.mem_reverse, List.mem_filterMap]
    rintro ⟨label, member, aims⟩
    exact labels label member target aims

/-- What it takes for everything in an expression to be bare, in a form that can be decided. -/
theorem Expression.throughout_bare_iff {id : ExpressionId} {parent : Option ExpressionId}
    {kind : String} {arguments : Arguments} :
    Expression.Throughout Expression.IsBare ⟨id, parent, kind, arguments⟩ ↔
      ((arguments.map Prod.fst).Pairwise (· < ·) ∧ Kind.isBuiltIn kind = true ∧
        "inherits" ∉ arguments.map Prod.fst ∧ "parameters" ∉ arguments.map Prod.fst) ∧
        ∀ entry ∈ arguments, ∀ child ∈ entry.2.block?.getD [],
          child.parent.isSome = true ∧ child.Throughout Expression.IsBare := by
  have missing : ∀ name, name ∉ arguments.map Prod.fst ↔ arguments.lookup name = none := by
    intro name
    rw [List.lookup_eq_none_iff, List.mem_map]
    constructor
    · intro absent entry member
      simpa using fun same => absent ⟨entry, member, same.symm⟩
    · rintro apart ⟨entry, member, rfl⟩
      simpa using apart entry member
  have ordered : (arguments.map Prod.fst).Pairwise (· < ·) ↔ Entries.Ordered arguments :=
    List.pairwise_map
  rw [missing, missing, ordered, Expression.throughout_iff]
  constructor
  · rintro ⟨bare, below⟩
    refine ⟨⟨bare.tidy.ordered, bare.builtIn, bare.own, bare.closed⟩, ?_⟩
    rintro ⟨name, value⟩ member child inside
    cases value with
    | block children =>
      have held : Expression.Holds ⟨id, parent, kind, arguments⟩ name child :=
        ⟨children, member, inside⟩
      exact ⟨bare.tidy.linked name child held, below name child held⟩
    | atom | text | number | list => cases inside
  · rintro ⟨⟨ordered, builtIn, own, closed⟩, below⟩
    refine ⟨⟨⟨⟨ordered, ?_⟩, builtIn, own⟩, closed⟩, ?_⟩
    · rintro name child ⟨children, member, inside⟩
      exact (below _ member child inside).1
    · rintro name child ⟨children, member, inside⟩
      exact (below _ member child inside).2

def Expression.passesCheck (e : Expression) (table : Table) (limit : Nat) (name : String)
    (markers : Markers) : Bool :=
  match checkInstance table limit e name markers with
  | .ok _ _ => true
  | .error _ _ => false

theorem Expression.passesCheck_iff :
    e.passesCheck table limit name markers = true ↔
      ∃ ids markers', checkInstance table limit e name markers = .ok ids markers' := by
  unfold Expression.passesCheck
  cases checkInstance table limit e name markers <;> simp

def rowTable : Table :=
  { definitions := [⟨"row", ⟨1, none, "div", [("defines", .text "row")]⟩⟩]
    places := [("row", 0)] }

def rowMarkers : Markers :=
  ⟨[("row", .done)]⟩

/-- A form with a labelled number, a choice and a list that starts with one row. -/
def orderForm : Expression :=
  ⟨2, none, "form",
    [("body", .block
      [⟨3, some 2, "label", [("for", .text "amount")]⟩,
        ⟨4, some 2, "input", [("id", .text "amount"), ("initial", .number "2"), ("max", .number "9"),
          ("type", .text "number")]⟩,
        ⟨5, some 2, "select", [("id", .text "size"), ("options", .block
          [⟨6, some 5, "option", [("text", .text "small")]⟩])]⟩,
        ⟨7, some 2, "list", [("id", .text "rows"), ("initial", .number "1"),
          ("type", .text "row")]⟩]),
      ("defines", .text "order")]⟩

theorem orderForm_bare : orderForm.Throughout Expression.IsBare := by
  simp only [orderForm, Expression.throughout_bare_iff, List.forall_mem_cons, Argument.block?,
    Option.getD_some, Option.getD_none, List.not_mem_nil, false_imp_iff, implies_true, and_true,
    Option.isSome_some, true_and, List.map_cons, List.map_nil]
  decide

theorem instance_accepted_iff_orderForm :
    rowMarkers.AllDone rowTable ∧ orderForm.Throughout Expression.IsBare ∧ orderForm.parent = none ∧
      (orderForm.unset "defines").FitsTable rowTable 1 "order" ∧
      ¬(orderForm.unset "defines").FitsTable rowTable 0 "order" := by
  have done : rowMarkers.AllDone rowTable := by
    intro name member
    obtain rfl : name = "row" := by simpa [rowTable, Catalog.names] using member
    decide
  have passes : orderForm.passesCheck rowTable 1 "order" rowMarkers = true ∧
      orderForm.passesCheck rowTable 0 "order" rowMarkers = false := by
    decide +kernel
  refine ⟨done, orderForm_bare, rfl, ?_, fun fits => ?_⟩
  · exact (instance_accepted_iff done orderForm_bare rfl).mp (Expression.passesCheck_iff.mp passes.1)
  · have accepted : ∃ ids markers', checkInstance rowTable 0 orderForm "order" rowMarkers =
        .ok ids markers' := (instance_accepted_iff done orderForm_bare rfl).mpr fits
    rw [Expression.passesCheck_iff.mpr accepted] at passes
    cases passes.2

/-- Everything is bare in an expression that is named by a block with one expression in it, if this
one is bare and has no blocks. -/
theorem Expression.bare_of_named_by_block
    (here : (inner.arguments.map Prod.fst).Pairwise (· < ·) ∧ Kind.isBuiltIn inner.kind = true ∧
      "inherits" ∉ inner.arguments.map Prod.fst ∧ "parameters" ∉ inner.arguments.map Prod.fst)
    (linked : inner.parent.isSome = true)
    (flat : ∀ entry ∈ inner.arguments, entry.2.block? = none) :
    Expression.Throughout Expression.IsBare ⟨1, none, "div", [("defines", .block [inner])]⟩ := by
  obtain ⟨id, parent, kind, arguments⟩ := inner
  have bare : Expression.Throughout Expression.IsBare ⟨id, parent, kind, arguments⟩ :=
    Expression.throughout_bare_iff.mpr ⟨here, fun entry member => by simp [flat entry member]⟩
  refine Expression.throughout_bare_iff.mpr ⟨?_, ?_⟩
  · simp only [List.map_cons, List.map_nil]
    decide
  · simpa [Argument.block?] using ⟨linked, bare⟩

/-- A definition that is named by a block instead of a text, with a page in it. -/
def hiddenPage : Expression :=
  ⟨1, none, "div", [("defines", .block [⟨2, some 1, "page", []⟩])]⟩

/-- Nothing looks at what is written after `defines`, so the page in it goes unnoticed. -/
theorem hiddenPage_accepted :
    Markers.AllDone {} {} ∧ hiddenPage.Throughout Expression.IsBare ∧ hiddenPage.parent = none ∧
      (∃ ids markers', checkInstance {} 0 hiddenPage "x" {} = .ok ids markers') ∧
      ¬hiddenPage.FitsTable {} 0 (rootStem hiddenPage "x") := by
  have bare : hiddenPage.Throughout Expression.IsBare :=
    Expression.bare_of_named_by_block (by decide) rfl (by simp)
  refine ⟨by simp [Markers.AllDone, Catalog.names], bare, rfl, ?_, fun fits => ?_⟩
  · exact Expression.passesCheck_iff.mp (by decide +kernel)
  · have inside : hiddenPage.Encloses ⟨2, some 1, "page", []⟩ :=
      .single ⟨"defines", _, List.mem_singleton_self _, List.mem_singleton_self _⟩
    exact fits.arranged.pages _ inside rfl

end Pagewright
