import Pagewright.Proofs.TreeGrowth

/-!
# Full ids within one layer

An instance is checked before its lists get rows, and the rows come from
instances that were checked on their own. So a page is made of layers: the page
itself down to its lists, and each generated row from its item down to the lists
in it. `Expression.InLayer` says what stands in a layer; an id there is anchored
at the place where the layer stands or at the page. As the names in an id hold
no dash, a full id tells its anchor as long as the layer does not stand at the
page.
-/

namespace Pagewright

open Outcome

/-! ### Anchors -/

/-- Where an id is relative to, and the names that lead from there to it. -/
structure Anchor where
  /-- It is below the page, not below the place of the layer. -/
  onPage : Bool := false
  path : List String := []
  deriving DecidableEq, Repr

namespace Anchor

/-- The full id, for a layer at the place `base`. -/
def stem (anchor : Anchor) (base : String) : String :=
  anchor.path.foldl (fun stem name => stem ++ "-" ++ name) (if anchor.onPage then pageStem else base)

/-- What an id is anchored at that is written below the anchor. -/
def reach (anchor : Anchor) (id : ScopedId) : Anchor :=
  match id.flavor with
  | .relative => { anchor with path := anchor.path ++ [id.name] }
  | .global => { onPage := true, path := [id.name] }
  | .literal => anchor

def Clean (anchor : Anchor) : Prop :=
  ∀ name ∈ anchor.path, '-' ∉ name.toList

variable {anchor : Anchor} {base : String}

theorem reach_stem {id : ScopedId} (tracked : id.isTracked = true) :
    (anchor.reach id).stem base = id.fullId (anchor.stem base) := by
  obtain ⟨flavor, name⟩ := id
  cases flavor with
  | relative =>
    simp only [reach, stem, ScopedId.fullId, List.foldl_append]
    rfl
  | global => simp [reach, stem, ScopedId.fullId]
  | literal => cases tracked

/-- Dashes stand between the parts of a full id. -/
theorem stem_toList (anchor : Anchor) (base : String) :
    (anchor.stem base).toList = ['-'].intercalate
      ((if anchor.onPage then pageStem else base).toList :: anchor.path.map String.toList) := by
  unfold stem
  generalize (if anchor.onPage then pageStem else base) = start
  generalize anchor.path = path
  induction path generalizing start with
  | nil => simp
  | cons name rest ih =>
    rw [List.foldl_cons, ih, List.map_cons, List.intercalate_cons_cons]
    cases rest <;> simp [List.intercalate_cons_cons]

/-- Away from the page a full id has one anchor. -/
theorem stem_injective {other : Anchor} (clean : anchor.Clean) (clean' : other.Clean)
    (dashless : '-' ∉ base.toList) (apart : base ≠ pageStem)
    (same : anchor.stem base = other.stem base) : anchor = other := by
  have parts : ∀ {anchor : Anchor}, anchor.Clean → ((anchor.stem base).toList.splitOn '-') =
      (if anchor.onPage then pageStem else base).toList :: anchor.path.map String.toList := by
    intro anchor clean
    rw [stem_toList]
    refine List.splitOn_intercalate '-' (List.forall_mem_cons.mpr ⟨?_, ?_⟩) (by simp)
    · split_ifs
      · decide
      · exact dashless
    · exact List.forall_mem_map.mpr clean
  have split := parts clean
  rw [same, parts clean'] at split
  obtain ⟨bases, paths⟩ := List.cons.inj split.symm
  have path : anchor.path = other.path :=
    List.map_injective_iff.mpr (fun _ _ => String.toList_inj.mp) paths
  -- the bases tell the two scopes apart, since `base` is not the page's own id
  have onPage : anchor.onPage = other.onPage := by
    have equal := String.toList_inj.mp bases
    cases one : anchor.onPage with
    | true =>
      cases two : other.onPage with
      | true => rfl
      | false => exact absurd (by simpa [one, two] using equal.symm) apart
    | false =>
      cases two : other.onPage with
      | true => exact absurd (by simpa [one, two] using equal) apart
      | false => rfl
  cases anchor
  cases other
  simp_all

end Anchor

/-! ### What stands in a layer -/

section

variable {top inner owner child first second e result : Expression} {start place : Anchor}
  {name base : String} {build : String → Building Expression} {w w' : Workshop}

def Expression.aim? (e : Expression) : Option ScopedId :=
  if e.kind = "label" then ((e.text? "for").map ScopedId.split).filter ScopedId.isTracked else none

/-- What the ids in the blocks of an expression are anchored at. -/
def Expression.anchorBelow (e : Expression) (anchor : Anchor) : Anchor :=
  (e.trackedId?.map anchor.reach).getD anchor

theorem innerStem_eq (e : Expression) (anchor : Anchor) (base : String) :
    innerStem e (anchor.stem base) = (e.anchorBelow anchor).stem base := by
  unfold Expression.anchorBelow
  cases tracked : e.trackedId? with
  | none => exact innerStem_of_untracked tracked _
  | some own =>
    rw [innerStem_of_tracked tracked]
    exact (Anchor.reach_stem (Expression.trackedId?_eq_some.mp tracked).2).symm

/-- `inner` stands in the layer of `top`, anchored at `place` if `top` is anchored at `start`. -/
inductive Expression.InLayer : Expression → Anchor → Expression → Anchor → Prop
  | top (top : Expression) (start : Anchor) : InLayer top start top start
  | held {top child inner : Expression} {start place : Anchor} {name : String} :
      top.kind ≠ "list" → top.Holds name child →
      InLayer child (top.anchorBelow start) inner place → InLayer top start inner place

theorem Expression.InLayer.snoc (inside : top.InLayer start owner place)
    (noList : owner.kind ≠ "list") (held : owner.Holds name child) :
    top.InLayer start child (owner.anchorBelow place) := by
  induction inside with
  | top => exact .held noList held (.top _ _)
  | held other between _ ih => exact .held other between (ih noList held)

structure Expression.ShowsSame (first second : Expression) : Prop where
  kind : first.kind = second.kind
  id : first.text? "id" = second.text? "id"
  target : first.text? "for" = second.text? "for"

namespace Expression.ShowsSame

theorem symm (same : first.ShowsSame second) : second.ShowsSame first :=
  ⟨same.kind.symm, same.id.symm, same.target.symm⟩

private theorem trackedId? (same : first.ShowsSame second) :
    first.trackedId? = second.trackedId? := by
  rw [Expression.trackedId?, Expression.trackedId?, Expression.scopedId?, Expression.scopedId?,
    same.id]

private theorem aim? (same : first.ShowsSame second) : first.aim? = second.aim? := by
  rw [Expression.aim?, Expression.aim?, same.kind, same.target]

end Expression.ShowsSame

/-- Whatever stands in the layer of `first` has something like it at the same place in the layer of
`second`. -/
def Expression.LayerWithin (first second : Expression) : Prop :=
  ∀ start inner place, first.InLayer start inner place →
    ∃ other, second.InLayer start other place ∧ inner.ShowsSame other

theorem Expression.LayerWithin.refl (e : Expression) : e.LayerWithin e :=
  fun _ inner _ inside => ⟨inner, inside, rfl, rfl, rfl⟩

theorem Expression.LayerWithin.trans {third : Expression} (one : first.LayerWithin second)
    (two : second.LayerWithin third) : first.LayerWithin third := by
  intro start inner place inside
  obtain ⟨other, there, same⟩ := one start inner place inside
  obtain ⟨last, found, same'⟩ := two start other place there
  exact ⟨last, found, same.kind.trans same'.kind, same.id.trans same'.id,
    same.target.trans same'.target⟩

/-- It is enough to look at what the two hold. -/
theorem Expression.LayerWithin.of_held (same : first.ShowsSame second)
    (below : first.kind ≠ "list" → ∀ name child, first.Holds name child →
      ∃ other, second.Holds name other ∧ child.LayerWithin other) : first.LayerWithin second := by
  intro start inner place inside
  cases inside with
  | top => exact ⟨second, .top _ _, same⟩
  | @held _ child _ _ _ name noList held inside =>
    obtain ⟨other, there, within⟩ := below noList name child held
    rw [Expression.anchorBelow, same.trackedId?] at inside
    obtain ⟨last, found, shows⟩ := within _ _ _ inside
    exact ⟨last, .held (same.kind ▸ noList) there found, shows⟩

theorem SameContent.layerWithin (contents : SameContent first second) :
    first.LayerWithin second := by
  induction first using Expression.inductionOn generalizing second with
  | step owner ih =>
    refine .of_held ⟨contents.kinds, contents.text? _, contents.text? _⟩ fun _ name child held => ?_
    obtain ⟨other, there, same⟩ := held.same contents.symm.arguments
    exact ⟨other, there, ih name child held same.content.symm⟩

/-- Filling lists changes neither ids nor the targets of labels. -/
theorem fillLists_showsSame (run : fillLists build e w = .ok result w') : e.ShowsSame result := by
  rcases fillLists_ok.mp run with ⟨-, filled⟩ | ⟨-, after, filled, rfl⟩
  · rcases fillList_ok.mp filled with ⟨-, rfl, -⟩ | ⟨_, _, _, _, -, -, -, rfl, -⟩
    · exact ⟨rfl, rfl, rfl⟩
    · have kept : ∀ name, name ≠ "body" → ∀ rows : List Expression,
          e.text? name = (e.set "body" (.block rows)).text? name := by
        intro name apart rows
        simp only [Expression.text?, Expression.get?, Expression.set,
          Entries.lookup_insert_of_ne _ _ apart]
      exact ⟨rfl, kept "id" (by decide) _, kept "for" (by decide) _⟩
  · have texts := (fillArguments_become filled).lookup_text
    exact ⟨rfl, (texts "id").symm, (texts "for").symm⟩

/-- Rows are of other layers, so filling lists changes nothing. -/
theorem fillLists_layer (run : fillLists build e w = .ok result w') :
    e.LayerWithin result ∧ result.LayerWithin e := by
  induction e using Expression.inductionOn generalizing result w w' with
  | step owner ih =>
    have same := fillLists_showsSame run
    rcases fillLists_ok.mp run with ⟨list, -⟩ | ⟨-, after, filled, rfl⟩
    · exact ⟨.of_held same fun noList => absurd list noList,
        .of_held same.symm fun noList => absurd (same.kind ▸ list) noList⟩
    · have become := fillArguments_become filled
      constructor
      · refine .of_held same fun _ name child held => ?_
        obtain ⟨other, there, u, u', step⟩ := become.holding held
        exact ⟨other, there, (ih name child held step).1⟩
      · refine .of_held same.symm fun _ name child held => ?_
        obtain ⟨origin, there, u, u', step⟩ := become.held held
        exact ⟨origin, there, (ih name origin there step).2⟩

/-! ### Hits -/

/-- Everything that is labelled in the layer of `top` is there, when the layer stands at the place
`base`. -/
def Expression.HitsTargets (top : Expression) (base : String) : Prop :=
  ∀ label anchor id, top.InLayer {} label anchor → label.aim? = some id →
    ∃ target place own, top.InLayer {} target place ∧ target.trackedId? = some own ∧
      (place.reach own).stem base = (anchor.reach id).stem base

/-- Labels that hit their targets do so in every copy of the layer. -/
theorem Expression.HitsTargets.of_layer (hits : first.HitsTargets base)
    (forth : first.LayerWithin second) (back : second.LayerWithin first) :
    second.HitsTargets base := by
  intro label anchor id inside aims
  obtain ⟨origin, there, shows⟩ := back _ _ _ inside
  obtain ⟨target, place, own, found, tracked, equal⟩ :=
    hits origin anchor id there (shows.aim?.symm.trans aims)
  obtain ⟨other, among, shows⟩ := forth _ _ _ found
  exact ⟨other, place, own, among, shows.trackedId?.symm.trans tracked, equal⟩

end

end Pagewright
