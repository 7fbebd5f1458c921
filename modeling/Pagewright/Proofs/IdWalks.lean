import Pagewright.Proofs.ShapeTable

/-!
# Two walks over the ids of an instance

The check of an instance declares ids on its way through the blocks that its rules
know. `uniqueIds` declares them in a second walk, which goes through every block
there is. The rules let no block pass that they do not know, with one exception:
what is written after `defines` is not looked at. So both walks find the same ids
exactly if no id is tracked in there.
-/

namespace Pagewright

open Outcome

variable {stem : String} {item? : Option String} {hidden placed : List String}
  {placements second : List Placement} {children : List Expression}

/-! ### Ids that stand after `defines` -/

/-- An id is tracked in a block that is given as a name. -/
def Expression.HidesId (e : Expression) : Prop :=
  ∃ owner child inner, e.Contains owner ∧ owner.Holds "defines" child ∧ child.Contains inner ∧
    inner.trackedId?.isSome = true

def Expression.IsUntracked : Expression → Prop :=
  Expression.Throughout fun inner => inner.trackedId? = none

/-- An id is hidden right here, or in something that is held under another name. -/
theorem Expression.hidesId_iff {e : Expression} :
    e.HidesId ↔ (∃ child, e.Holds "defines" child ∧ ¬child.IsUntracked) ∨
      ∃ name child, name ≠ "defines" ∧ e.Holds name child ∧ child.HidesId := by
  have tracked : ∀ child : Expression,
      ¬child.IsUntracked ↔ ∃ inner, child.Contains inner ∧ inner.trackedId?.isSome = true := by
    simp [IsUntracked, Throughout, Option.isSome_iff_ne_none]
  simp only [tracked]
  constructor
  · rintro ⟨owner, child, inner, contained, held, inside, id⟩
    rcases contains_iff.mp contained with rfl | ⟨name, between, first, deeper⟩
    · exact .inl ⟨child, held, inner, inside, id⟩
    · by_cases named : name = "defines"
      · -- everything in here is hidden already
        subst named
        exact .inl ⟨between, first, inner, (deeper.trans held.contains).trans inside, id⟩
      · exact .inr ⟨name, between, named, first, owner, child, inner, deeper, held, inside, id⟩
  · rintro (⟨child, held, inner, inside, id⟩ | ⟨name, between, -, first, owner, child, inner, rest⟩)
    · exact ⟨e, child, inner, contains_self e, held, inside, id⟩
    · exact ⟨owner, child, inner, first.contains.trans rest.1, rest.2⟩

private theorem trackedIds_eq_nil :
    trackedIds placements = [] ↔
      ∀ placement ∈ placements, placement.expression.trackedId? = none := by
  simp [trackedIds, Placement.label?]

/-- An expression is untracked if it has no ids wherever it is placed. -/
theorem Expression.trackedIds_placements_eq_nil {e : Expression} {stem : String}
    {item? : Option String} : trackedIds (e.placements stem item?) = [] ↔ e.IsUntracked := by
  rw [trackedIds_eq_nil, IsUntracked, throughout_iff_placed]

private theorem Expression.trackedIds_named_eq_nil {e : Expression} :
    trackedIds (placementsArguments (e.arguments.filter fun entry => entry.1 == "defines") stem
      item?) = [] ↔ ∀ child, e.Holds "defines" child → child.IsUntracked := by
  rw [trackedIds_eq_nil]
  simp only [mem_placementsArguments, List.mem_filter, beq_iff_eq]
  constructor
  · rintro none child ⟨children, member, inside⟩
    refine (@Expression.trackedIds_placements_eq_nil child stem item?).mp ?_
    refine trackedIds_eq_nil.mpr fun placement placed => none placement ?_
    exact ⟨"defines", children, ⟨member, rfl⟩, child, inside, placed⟩
  · rintro untracked placement ⟨_, children, ⟨member, rfl⟩, child, inside, placed⟩
    exact (untracked child ⟨children, member, inside⟩).placed placed

/-! ### The walk of the check -/

/-- From `ids` to `ids'` all ids that were `placed` have been declared, but for the `hidden` ones,
and none for the second time. -/
structure Covers (placed hidden : List String) (ids ids' : IdScope) : Prop where
  seen : ∃ seen, ids'.declared = seen ++ ids.declared ∧ placed.Perm (seen ++ hidden)
  nodup : ids.declared.Nodup → ids'.declared.Nodup

private theorem Covers.append {placed' hidden' : List String} {ids middle ids' : IdScope}
    (first : Covers placed hidden ids middle) (second : Covers placed' hidden' middle ids') :
    Covers (placed ++ placed') (hidden ++ hidden') ids ids' := by
  obtain ⟨seen, declared, perm⟩ := first.seen
  obtain ⟨seen', declared', perm'⟩ := second.seen
  refine ⟨⟨seen' ++ seen, ?_, ?_⟩, fun distinct => second.nodup (first.nodup distinct)⟩
  · rw [declared', declared, List.append_assoc]
  · -- it does not matter in which order ids are declared, so they are counted
    refine (perm.append perm').trans (List.perm_iff_count.mpr fun full => ?_)
    simp only [List.count_append]
    omega

/-- More can be placed that stays hidden. -/
theorem Covers.hide {all : List String} {ids ids' : IdScope}
    (covers : Covers placed hidden ids ids') (more : List String)
    (perm : all.Perm (placed ++ more)) : Covers all (hidden ++ more) ids ids' := by
  obtain ⟨seen, declared, parts⟩ := covers.seen
  refine ⟨⟨seen, declared, ?_⟩, covers.nodup⟩
  rw [← List.append_assoc]
  exact perm.trans (parts.append_right more)

variable {σ : Type} {rules : Rules σ} {context : Context} {e : Expression} {kind : Kind}
  {ids ids' : IdScope} {s s' : σ}

private theorem Declares.covers (declares : Declares placements ids ids') :
    Covers (trackedIds placements) [] ids ids' := by
  refine ⟨⟨_, declares.declared, ?_⟩, declares.nodup⟩
  rw [List.append_nil]
  exact (List.reverse_perm _).symm

private theorem IdScope.Admits.declares (admits : ids.Admits placements) :
    Declares placements ids (ids.after placements) where
  declared := rfl
  nodup distinct := by
    refine List.nodup_append.mpr ⟨List.nodup_reverse.mpr admits.distinct, distinct, ?_⟩
    rintro full member _ old rfl
    exact admits.fresh full (List.mem_reverse.mp member) old

/-- If nothing stays hidden, no two ids that were placed are the same. -/
theorem Covers.admits (covers : Covers (trackedIds placements) [] {} ids) :
    IdScope.Admits {} placements := by
  obtain ⟨seen, declared, perm⟩ := covers.seen
  rw [List.append_nil] at declared perm
  refine ⟨perm.nodup_iff.mpr ?_, fun _ _ => List.not_mem_nil⟩
  exact declared ▸ covers.nodup List.nodup_nil

section

variable (admitted : Admitted rules context e kind stem) (ordered : Entries.Ordered e.arguments)

include admitted ordered

private theorem Admitted.placements_contents (item? : Option String) :
    placementsArguments (Entries.erase e.arguments "defines") stem item? =
      placementsBlock (e.contents kind) stem item? := by
  have only : ∀ name children, (name, Argument.block children) ∈ Entries.erase e.arguments "defines" →
      children ≠ [] → kind.content? = some name := by
    intro name children member _
    obtain ⟨there, unnamed⟩ := Entries.mem_erase.mp member
    exact admitted.final ordered there unnamed
  rw [placementsArguments_eq (ordered.erase _) only]
  unfold Expression.contents
  cases content : kind.content? with
  | none => rfl
  | some name =>
    -- the block that is walked is never given as a name
    have unnamed : name ≠ "defines" := by
      rcases Kind.content?_cases content with rfl | rfl <;> decide
    simp only [Option.bind_some, Entries.lookup_erase_of_ne _ unnamed]
    rfl

/-- The arguments of an expression that has been admitted place what is in the block that is walked,
and what is given as a name. -/
theorem Admitted.placed_perm (item? : Option String) :
    (trackedIds (placementsArguments e.arguments stem item?)).Perm
      (trackedIds (placementsBlock (e.contents kind) stem item?) ++
        trackedIds (placementsArguments (e.arguments.filter fun entry => entry.1 == "defines") stem
          item?)) := by
  rw [← admitted.placements_contents ordered, ← trackedIds_append]
  have flat : ∀ arguments : Arguments, placementsArguments arguments stem item? =
      arguments.flatMap fun entry => entry.2.placements stem item? := by
    intro arguments
    induction arguments with
    | nil => rfl
    | cons entry rest ih => rw [placementsArguments, ih, List.flatMap_cons]
  have split : (Entries.erase e.arguments "defines" ++
      e.arguments.filter fun entry => entry.1 == "defines").Perm e.arguments := by
    have parts := List.filter_append_perm (fun entry : String × Argument => entry.1 != "defines")
      e.arguments
    simpa [Entries.erase, bne] using parts
  simp only [flat, trackedIds, ← List.flatMap_append]
  exact ((split.symm.flatMap_right _).filterMap _).map _

/-- What an admitted expression holds is in the block that is walked, or given as a name. -/
theorem Admitted.mem_contents {child : Expression} :
    child ∈ e.contents kind ↔ ∃ name, name ≠ "defines" ∧ e.Holds name child := by
  unfold Expression.contents
  constructor
  · intro member
    cases content : kind.content? with
    | none => simp [content] at member
    | some name =>
      rw [content] at member
      refine ⟨name, ?_, Expression.holds_of_block member⟩
      rcases Kind.content?_cases content with rfl | rfl <;> decide
  · rintro ⟨name, unnamed, children, member, inside⟩
    have content : kind.content? = some name := admitted.final ordered member unnamed
    have block : e.block? name = some children := by
      simp [Expression.block?, Expression.get?, ordered.lookup_of_mem member, Argument.block?]
    simpa [content, block] using inside

end

/-- An expression that takes nothing from elsewhere, with its arguments in order. -/
structure Expression.IsClosed (e : Expression) : Prop where
  ordered : Entries.Ordered e.arguments
  concrete : e.isConcrete = true

private theorem Expression.closed_of_bare (bare : e.Throughout Expression.IsBare) :
    e.Throughout Expression.IsClosed := fun inner contained =>
  ⟨(bare inner contained).tidy.ordered, (bare inner contained).isConcrete⟩

/-- One expression hides what it is given as a name, besides what its block hides. -/
theorem Admitted.covers {declared : IdScope}
    (admitted : Admitted rules context e kind (innerStem e stem))
    (ordered : Entries.Ordered e.arguments) (own : Declares [⟨e, stem, item?⟩] ids declared)
    (below : Covers (trackedIds (placementsBlock (e.contents kind) (innerStem e stem)
      (e.itemBelow item?))) hidden declared ids')
    (none : hidden = [] ↔ ∀ child ∈ e.contents kind, ¬child.HidesId) :
    ∃ hidden, Covers (trackedIds (e.placements stem item?)) hidden ids ids' ∧
      (hidden = [] ↔ ¬e.HidesId) := by
  have whole : e.placements stem item? = [⟨e, stem, item?⟩] ++
      placementsArguments e.arguments (innerStem e stem) (e.itemBelow item?) := by
    obtain ⟨id, parent, kind, arguments⟩ := e
    rfl
  refine ⟨_, (own.covers.append below).hide (trackedIds (placementsArguments
    (e.arguments.filter fun entry => entry.1 == "defines") (innerStem e stem)
    (e.itemBelow item?))) ?_, ?_⟩
  · rw [whole, trackedIds_append, List.append_assoc]
    exact (admitted.placed_perm ordered _).append_left _
  · rw [List.nil_append, List.append_eq_nil_iff, none, Expression.trackedIds_named_eq_nil,
      Expression.hidesId_iff]
    simp only [admitted.mem_contents ordered]
    push Not
    constructor
    · rintro ⟨others, here⟩
      exact ⟨here, fun name child unnamed held => others child ⟨name, unnamed, held⟩⟩
    · rintro ⟨here, others⟩
      refine ⟨?_, here⟩
      rintro child ⟨name, unnamed, held⟩
      exact others name child unnamed held

/-- A block declares what its expressions declare. -/
theorem walkBlock_covers
    (each : ∀ child ∈ children, ∀ ids ids' s s', walk rules child context ids s = .ok ids' s' →
      ∃ hidden, Covers (trackedIds (child.placements context.stem item?)) hidden ids ids' ∧
        (hidden = [] ↔ ¬child.HidesId))
    (run : walkBlock rules children context ids s = .ok ids' s') :
    ∃ hidden, Covers (trackedIds (placementsBlock children context.stem item?)) hidden ids ids' ∧
      (hidden = [] ↔ ∀ child ∈ children, ¬child.HidesId) := by
  induction children generalizing ids s with
  | nil =>
    obtain ⟨rfl, -⟩ := pure_ok.mp run
    exact ⟨[], (declares_nil _).covers, by simp⟩
  | cons child rest ih =>
    obtain ⟨-, middle, t, first, later⟩ := walkBlock_cons_ok.mp run
    obtain ⟨hidden, covers, none⟩ := each child List.mem_cons_self _ _ _ _ first
    obtain ⟨others, coversRest, noneRest⟩ :=
      ih (List.forall_mem_cons.mp each).2 later
    refine ⟨hidden ++ others, ?_, ?_⟩
    · rw [placementsBlock, trackedIds_append]
      exact covers.append coversRest
    · rw [List.append_eq_nil_iff, none, noneRest, List.forall_mem_cons]

/-- A walk declares the ids of everything in an expression, but for those after `defines`. -/
theorem walk_covers (strict : context.concrete = true) (closed : e.Throughout Expression.IsClosed)
    (run : walk rules e context ids s = .ok ids' s') (item? : Option String) :
    ∃ hidden, Covers (trackedIds (e.placements context.stem item?)) hidden ids ids' ∧
      (hidden = [] ↔ ¬e.HidesId) := by
  -- by induction on the tree: a child is walked below its owner, after whatever came before it
  induction e using Expression.inductionOn generalizing context ids ids' s s' item? with
  | step owner ih =>
    obtain ⟨ordered, concrete⟩ := closed.here
    obtain ⟨-, -, builtIn⟩ := Expression.isConcrete_iff.mp concrete
    obtain ⟨kind, named⟩ := Option.isSome_iff_exists.mp builtIn
    obtain ⟨admitted, admits, t, content⟩ := walk_enters strict concrete named run item?
    -- the block goes on from what the arguments leave
    have each : ∀ child ∈ owner.contents kind, ∀ ids ids' s s',
        walk rules child (context.below kind (innerStem owner context.stem)) ids s = .ok ids' s' →
        ∃ hidden, Covers (trackedIds (child.placements (innerStem owner context.stem)
          (owner.itemBelow item?))) hidden ids ids' ∧ (hidden = [] ↔ ¬child.HidesId) := by
      intro child member _ _ _ _ walked
      obtain ⟨name, held⟩ := Expression.holds_of_contents member
      exact ih name child held rfl (closed.child held) walked _
    obtain ⟨hidden, below, none⟩ := walkBlock_covers each content
    exact admitted.covers ordered admits.declares below none

/-! ### The walk over everything -/

private theorem IdScope.Admits.rest {first : List Placement} (admits : ids.Admits (first ++ second))
    (declares : Declares first ids ids') : ids'.Admits second := by
  obtain ⟨-, distinct, fresh⟩ := IdScope.admits_append.mp admits
  refine ⟨distinct, fun full member => ?_⟩
  rw [declares.declared]
  exact fresh full member

private theorem IdScope.Admits.first {first : List Placement}
    (admits : ids.Admits (first ++ second)) : ids.Admits first :=
  (IdScope.admits_append.mp admits).1

private theorem collectBlock_succeeds
    (each : ∀ child ∈ children, ∀ ids, IdScope.Admits ids (child.placements stem item?) →
      ∃ ids', collectIds child stem ids = .ok ids')
    (admits : ids.Admits (placementsBlock children stem item?)) :
    ∃ ids', collectBlock children stem ids = .ok ids' := by
  induction children generalizing ids with
  | nil => exact ⟨ids, rfl⟩
  | cons child rest ih =>
    rw [placementsBlock] at admits
    obtain ⟨middle, first⟩ := each child List.mem_cons_self ids admits.first
    obtain ⟨ids', later⟩ := ih (List.forall_mem_cons.mp each).2
      (admits.rest (collectIds_declares first item?))
    exact ⟨ids', by rw [collectBlock, first]; exact later⟩

private theorem collectArguments_succeeds {arguments : Arguments}
    (each : ∀ name children, (name, Argument.block children) ∈ arguments → ∀ child ∈ children,
      ∀ ids, IdScope.Admits ids (child.placements stem item?) →
        ∃ ids', collectIds child stem ids = .ok ids')
    (admits : ids.Admits (placementsArguments arguments stem item?)) :
    ∃ ids', collectArguments arguments stem ids = .ok ids' := by
  induction arguments generalizing ids with
  | nil => exact ⟨ids, rfl⟩
  | cons entry rest ih =>
    obtain ⟨name, value⟩ := entry
    rw [placementsArguments] at admits
    have one : ∃ middle, collectArgument value stem ids = .ok middle ∧
        Declares (value.placements stem item?) ids middle := by
      cases value with
      | block children =>
        obtain ⟨middle, run⟩ := collectBlock_succeeds (each name children List.mem_cons_self)
          admits.first
        exact ⟨middle, run, collectBlock_declares
          (fun child _ _ _ run => collectIds_declares run item?) run⟩
      | atom | text | number | list => exact ⟨ids, rfl, declares_nil _⟩
    obtain ⟨middle, first, declares⟩ := one
    obtain ⟨ids', later⟩ := ih
      (fun name children member => each name children (List.mem_cons_of_mem _ member))
      (admits.rest declares)
    exact ⟨ids', by rw [collectArguments, first]; exact later⟩

/-- Ids are collected if they are new and no two of them are the same. -/
theorem collectIds_succeeds (admits : ids.Admits (e.placements stem item?)) :
    ∃ ids', collectIds e stem ids = .ok ids' := by
  induction e using Expression.inductionOn generalizing stem item? ids with
  | step owner ih =>
    obtain ⟨id, parent, kind, arguments⟩ := owner
    rw [Expression.placements, ← List.singleton_append] at admits
    have own := declareId_ok.mpr ⟨(IdScope.admits_singleton.mp admits.first), rfl, rfl⟩
    obtain ⟨ids', rest⟩ := collectArguments_succeeds
      (fun name children member child inside _ admits =>
        ih name child ⟨children, member, inside⟩ admits)
      (admits.rest (declareId_declares own item?).2)
    exact ⟨ids', by rw [collectIds, own]; exact rest⟩

/-! ### Both walks -/

variable {table : Table} {limit : Nat} {markers markers' : Markers}

/-- Once an instance has passed its check, all its ids can be collected and are the ones that were
declared by the check, unless one is hidden in a block that is given as a name. -/
theorem id_walks_agree_iff {root : Expression} {name : String}
    (closed : root.Throughout Expression.IsClosed)
    (checked : checkInstance table limit root name markers = .ok ids markers') :
    (∃ all, uniqueIds root (rootStem root name) = .ok all ∧
      ∀ full, all.contains full = ids.contains full) ↔ ¬root.HidesId := by
  obtain ⟨walked, -⟩ := (checkInstance_ok closed.here.concrete).mp checked
  obtain ⟨hidden, covers, noneHidden⟩ := walk_covers rfl closed walked none
  obtain ⟨seen, declared, perm⟩ := covers.seen
  have onlySeen : ids.declared = seen := by simpa using declared
  have collected : ∀ all, uniqueIds root (rootStem root name) = .ok all →
      all.declared.Perm (seen ++ hidden) ∧ all.declared.Nodup := by
    intro all unique
    have declares := collectIds_declares unique none
    refine ⟨?_, declares.nodup List.nodup_nil⟩
    rw [declares.declared, List.append_nil]
    exact (List.reverse_perm _).trans perm
  have same_iff : ∀ (all : IdScope) full, all.contains full = ids.contains full ↔
      (full ∈ all.declared ↔ full ∈ seen) := by
    intro all full
    rw [Bool.eq_iff_iff, IdScope.contains, IdScope.contains, List.contains_iff_mem,
      List.contains_iff_mem, onlySeen]
  simp only [← noneHidden, same_iff]
  constructor
  · rintro ⟨all, unique, same⟩
    obtain ⟨parts, distinct⟩ := collected all unique
    obtain ⟨-, -, apart⟩ := List.nodup_append.mp (parts.nodup_iff.mp distinct)
    -- whatever is hidden would have been seen as well, and so be there twice
    refine List.eq_nil_iff_forall_not_mem.mpr fun full member => ?_
    have inAll := parts.mem_iff.mpr (List.mem_append_right seen member)
    exact apart full ((same full).mp inAll) full member rfl
  · rintro rfl
    obtain ⟨all, unique⟩ := collectIds_succeeds covers.admits
    refine ⟨all, unique, fun full => ?_⟩
    simpa using (collected all unique).1.mem_iff

private theorem orderForm_not_hidesId : ¬orderForm.HidesId := by
  have parts := fun id parent kind arguments =>
    @Expression.hidesId_iff ⟨id, parent, kind, arguments⟩
  simp [orderForm, parts, Expression.Holds]

theorem id_walks_agree_orderForm :
    orderForm.Throughout Expression.IsClosed ∧ ¬orderForm.HidesId ∧
      ∃ ids markers, checkInstance rowTable 1 orderForm "order" {} = .ok ids markers ∧
        ∃ all, uniqueIds orderForm (rootStem orderForm "order") = .ok all ∧
          ∀ full, all.contains full = ids.contains full := by
  have passes : orderForm.passesCheck rowTable 1 "order" {} = true := by decide +kernel
  obtain ⟨ids, markers, checked⟩ := Expression.passesCheck_iff.mp passes
  have closed := Expression.closed_of_bare orderForm_bare
  exact ⟨closed, orderForm_not_hidesId, ids, markers, checked,
    (id_walks_agree_iff closed checked).mpr orderForm_not_hidesId⟩

/-- A definition that is named by a block instead of a text, with an id in it. -/
def hiddenId : Expression :=
  ⟨1, none, "div", [("defines", .block [⟨2, some 1, "div", [("id", .text "a")]⟩])]⟩

/-- The check declares no id here, and the walk over everything declares one. -/
theorem hiddenId_walks_differ :
    hiddenId.Throughout Expression.IsClosed ∧
      (∃ ids markers, checkInstance {} 0 hiddenId "x" {} = .ok ids markers ∧
        ids.contains "x-a" = false) ∧
      ∃ all, uniqueIds hiddenId (rootStem hiddenId "x") = .ok all ∧ all.contains "x-a" = true := by
  have bare : hiddenId.Throughout Expression.IsBare :=
    Expression.bare_of_named_by_block (by decide) rfl (by simp [Argument.block?])
  exact ⟨Expression.closed_of_bare bare, ⟨_, _, rfl, by decide +kernel⟩, _, rfl, by decide +kernel⟩

end Pagewright
