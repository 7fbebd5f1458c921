import Pagewright.Proofs.Layer
import Pagewright.Proofs.PassingWalks

/-!
# What a walk finds out about ids

A walk over an instance declares the full id of every place in its layer, and
nothing else, and expects the full id of everything that is labelled there. When
it ends well, what was expected has been declared. So every label of a layer
finds its target, wherever the layer stands, unless the layer was checked at the
place of the page and stands somewhere else.
-/

namespace Pagewright

open Outcome

variable {name : String} {id : ScopedId}

private theorem Anchor.Clean.reach {anchor : Anchor} (clean : anchor.Clean)
    (identifier : isIdentifier id.name = true) : (anchor.reach id).Clean := by
  obtain ⟨flavor, written⟩ := id
  have dashless := isIdentifier_avoids identifier (show isWordPart '-' = false by decide)
  cases flavor with
  | relative =>
    intro name member
    rcases List.mem_append.mp member with earlier | last
    · exact clean name earlier
    · exact List.mem_singleton.mp last ▸ dashless
  | global =>
    intro name member
    exact List.mem_singleton.mp member ▸ dashless
  | literal => exact clean

/-! ### One expression -/

variable {σ : Type} {rules : Rules σ} {base : String} {anchor : Anchor} {ids ids' : IdScope}
  {context : Context} {e : Expression} {s s' : σ} {kind : Kind} {stem : String}
  {shown : Expression → Anchor → Prop}

/-- From `ids` to `ids'` a walk went over what is `shown`. -/
structure Surveys (base : String) (shown : Expression → Anchor → Prop) (ids ids' : IdScope) :
    Prop where
  complete : ids'.complete = ids.complete
  targets : ids.targets ⊆ ids'.targets
  /-- Only places are declared. -/
  declared : ∀ full ∈ ids'.declared, full ∈ ids.declared ∨
    ∃ inner place own, shown inner place ∧ inner.trackedId? = some own ∧
      (place.reach own).Clean ∧ (place.reach own).stem base = full
  /-- Everything that is labelled is expected. -/
  expected : ∀ inner place id, shown inner place → inner.aim? = some id →
    (place.reach id).Clean ∧ ∃ target ∈ ids'.targets, target.fullId = (place.reach id).stem base

private theorem Surveys.nil (ids : IdScope) (none : ∀ inner place, ¬shown inner place) :
    Surveys base shown ids ids :=
  ⟨rfl, List.Subset.refl _, fun _ member => .inl member,
    fun inner place _ here => (none inner place here).elim⟩

private theorem Surveys.append {first second : Expression → Anchor → Prop} {middle : IdScope}
    (start : Surveys base first ids middle) (rest : Surveys base second middle ids')
    (all : ∀ inner place, shown inner place ↔ first inner place ∨ second inner place) :
    Surveys base shown ids ids' := by
  refine ⟨rest.complete.trans start.complete, List.Subset.trans start.targets rest.targets, ?_, ?_⟩
  · intro full member
    rcases rest.declared full member with earlier | ⟨inner, place, own, here, found⟩
    · rcases start.declared full earlier with before | ⟨inner, place, own, here, found⟩
      · exact .inl before
      · exact .inr ⟨inner, place, own, (all inner place).mpr (.inl here), found⟩
    · exact .inr ⟨inner, place, own, (all inner place).mpr (.inr here), found⟩
  · intro inner place id here aims
    rcases (all inner place).mp here with inFirst | inSecond
    · obtain ⟨clean, target, there, equal⟩ := start.expected inner place id inFirst aims
      exact ⟨clean, target, rest.targets there, equal⟩
    · exact rest.expected inner place id inSecond aims

/-- What a label is for has been checked, and is a target. -/
theorem Admitted.aims (admitted : Admitted rules context e kind stem) (aims : e.aim? = some id) :
    id.isTracked = true ∧ isIdentifier id.name = true ∧
      ∃ raw, e.target? context.stem = some ⟨id.fullId context.stem, raw⟩ := by
  unfold Expression.aim? at aims
  split_ifs at aims with isLabel
  obtain ⟨written, tracked⟩ := Option.filter_eq_some_iff.mp aims
  obtain ⟨raw, given, rfl⟩ := Option.map_eq_some_iff.mp written
  obtain rfl := admitted.kind_of .label isLabel
  obtain ⟨_, _, _, _, particular⟩ := admitted.particular
  obtain ⟨-, bounds, -⟩ := (checkArguments_other_ok {} 0 (by decide) admitted.named).mp particular
  exact ⟨tracked, bounds raw given, raw, by simp [Expression.target?, isLabel, given, tracked]⟩

/-- An expression declares its own id and expects its own target, and the ids below it are anchored
at names without dashes. -/
theorem Admitted.surveys (admitted : Admitted rules context e kind stem) (clean : anchor.Clean)
    (stands : context.stem = anchor.stem base) (ids : IdScope) :
    Surveys base (fun inner place => inner = e ∧ place = anchor) ids
        (ids.after [⟨e, context.stem, none⟩]) ∧ (e.anchorBelow anchor).Clean := by
  have own : ∀ own, e.trackedId? = some own → own.isTracked = true ∧ (anchor.reach own).Clean := by
    intro own found
    obtain ⟨given, tracked⟩ := Expression.trackedId?_eq_some.mp found
    exact ⟨tracked, clean.reach (admitted.idFits.identifier given)⟩
  rw [IdScope.after_singleton, stands]
  refine ⟨⟨rfl, List.subset_append_right _ _, ?_, ?_⟩, ?_⟩
  · intro full member
    rcases List.mem_append.mp member with new | old
    · obtain ⟨id, found, rfl⟩ := Option.map_eq_some_iff.mp (Option.mem_toList.mp new)
      obtain ⟨tracked, cleanOwn⟩ := own id found
      exact .inr ⟨e, anchor, id, ⟨rfl, rfl⟩, found, cleanOwn, Anchor.reach_stem tracked⟩
    · exact .inl old
  · rintro _ _ id ⟨rfl, rfl⟩ aims
    obtain ⟨tracked, identifier, raw, target⟩ := admitted.aims aims
    rw [stands] at target
    refine ⟨clean.reach identifier, ⟨_, raw⟩, ?_, (Anchor.reach_stem tracked).symm⟩
    exact List.mem_append_left _ (Option.mem_toList.mpr target)
  · unfold Expression.anchorBelow
    cases found : e.trackedId? with
    | none => exact clean
    | some id => exact (own id found).2

/-! ### Walks -/

private theorem walkBlock_surveys {children : List Expression}
    (each : ∀ child ∈ children, ∀ ids ids' s s', walk rules child context ids s = .ok ids' s' →
      Surveys base (child.InLayer anchor) ids ids')
    (run : walkBlock rules children context ids s = .ok ids' s') :
    Surveys base (fun inner place => ∃ child ∈ children, child.InLayer anchor inner place) ids
      ids' := by
  induction children generalizing ids s with
  | nil =>
    obtain ⟨rfl, -⟩ := pure_ok.mp run
    exact .nil ids (by simp)
  | cons first rest ih =>
    obtain ⟨-, after, t, walked, later⟩ := walkBlock_cons_ok.mp run
    have start := each first List.mem_cons_self _ _ _ _ walked
    exact start.append (ih (List.forall_mem_cons.mp each).2 later)
      (by simp)

/-- Before lists have rows, a layer goes on in the block that is walked. -/
theorem Settled.inLayer_iff (settled : Settled rules context e kind stem) (inner : Expression)
    (place : Anchor) :
    e.InLayer anchor inner place ↔ (inner = e ∧ place = anchor) ∨
      ∃ child ∈ e.contents kind, child.InLayer (e.anchorBelow anchor) inner place := by
  constructor
  · rintro (_ | @⟨_, child, _, _, _, name, -, held, inside⟩)
    · exact .inl ⟨rfl, rfl⟩
    · exact .inr ⟨child, settled.mem_contents held, inside⟩
  · rintro (⟨rfl, rfl⟩ | ⟨child, member, inside⟩)
    · exact .top _ _
    · obtain ⟨name, held⟩ := Expression.holds_of_contents member
      refine .held (fun list => ?_) held inside
      obtain rfl := settled.kind_of .list list
      exact settled.holds_nothing held

/-- A walk over a plain expression surveys its layer. -/
theorem walk_surveys (strict : context.concrete = true) (plain : e.Throughout Expression.IsPlain)
    (textName : e.TextName) (walked : Walked rules context e) (clean : anchor.Clean)
    (stands : context.stem = anchor.stem base) (run : walk rules e context ids s = .ok ids' s') :
    Surveys base (e.InLayer anchor) ids ids' := by
  induction e using Expression.inductionOn generalizing context ids ids' s s' anchor with
  | step owner ih =>
    cases walked with
    | @intro _ _ kind stem admitted _ _ =>
      obtain ⟨-, -, t, content⟩ := walk_enters strict admitted.concrete admitted.named run none
      obtain ⟨here, cleanBelow⟩ := admitted.surveys clean stands ids
      refine here.append (walkBlock_surveys ?_ content)
        (admitted.settled plain.here textName).inLayer_iff
      intro child member ids ids' s s' run
      obtain ⟨name, held⟩ := Expression.holds_of_contents member
      have linked := plain.here.tidy.linked name child held
      have walked := walk_walked rfl (plain.child held) (.inr linked) run
      refine ih name child held rfl (plain.child held) (walked.textName linked) walked cleanBelow
        ?_ run
      rw [← innerStem_eq, ← stands]
      rfl

/-! ### Instances -/

variable {plan : Plan}

private theorem Plan.Passes.walk {root : Expression} (passes : plan.Passes root name) :
    root.isConcrete = true ∧ ∃ ids t t', Pagewright.walk (recording plan.table plan.rowLimit) root
        { stem := rootStem root name, concrete := true } {} t = .ok ids t' ∧
      ids.checkTargets = .ok () := by
  obtain ⟨concrete, asked, demanded, -⟩ := passes
  obtain ⟨result, walked⟩ := demands_eq_some.mp demanded
  simp only [walkDefinition, concrete, if_true] at walked
  obtain ⟨ids, t, run, rest⟩ := bind_ok.mp walked
  obtain ⟨_, _, ended, -⟩ := bind_ok.mp rest
  exact ⟨concrete, ids, _, t, run, (ofExcept_ok.mp ended).1⟩

/-- **Labels of a layer find their targets.** The layer of a page stands at the page. Any other
instance may stand anywhere, if its definition does not have the name of the page's id. -/
theorem Plan.HasInstance.hits (checked : plan.Checked) {inst : Expression}
    (instances : plan.HasInstance name inst) (identifier : isIdentifier name = true)
    {place : String}
    (proper : inst.kind = "page" ∧ place = pageStem ∨ inst.kind ≠ "page" ∧ name ≠ pageStem) :
    inst.HitsTargets place := by
  obtain ⟨build, root, filled, w, w', isRoot, passes, run, same⟩ := instances.root checked
  obtain ⟨concrete, ids, t, t', walked, ended⟩ := passes.walk
  have contents := SameOutline.content same
  have kinds : inst.kind = root.kind := contents.kinds.trans (fillLists_showsSame run).kind.symm
  rw [kinds] at proper
  obtain ⟨forth, back⟩ := fillLists_layer run
  have surveys : Surveys (rootStem root name) (root.InLayer {}) {} ids :=
    walk_surveys rfl isRoot.plain isRoot.textName isRoot.walked (by simp [Anchor.Clean]) rfl walked
  have hits : root.HitsTargets place := by
    intro label anchor id inside aims
    obtain ⟨clean, target, among, equal⟩ := surveys.expected label anchor id inside aims
    have known := (IdScope.checkTargets_ok surveys.complete).mp ended target among
    rcases surveys.declared _ known with ⟨⟨⟩⟩ | ⟨other, spot, own, there, tracked, cleanSpot, stem⟩
    refine ⟨other, spot, own, there, tracked, ?_⟩
    have same := stem.trans equal
    -- away from the page the two ids are equal only if their anchors are
    rcases proper with ⟨page, rfl⟩ | ⟨noPage, apart⟩
    · simpa only [rootStem, page, if_true] using same
    · rw [rootStem, if_neg noPage] at same
      rw [Anchor.stem_injective cleanSpot clean (isIdentifier_avoids identifier (by decide)) apart
        same]
  exact hits.of_layer (forth.trans contents.symm.layerWithin) (contents.layerWithin.trans back)

end Pagewright
