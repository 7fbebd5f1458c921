import Pagewright.Proofs.TreeGrowth

/-!
# The ids of an instance

What a walk has settled about kinds and texts holds throughout an instance, in
its rows as well: ids that are used as they are have no dash, and every list has
a node. The walk over the finished instance declares the full id of everything
tracked once, so all of these are different.
-/

namespace Pagewright

open Outcome

variable {stem name below : String} {scope scope' : IdScope} {e inst : Expression} {kind : Kind}
  {item? : Option String} {plan : Plan}

/-! ### What a walk has settled -/

/-- Whether the property holds is told by kind and texts, apart from the name that is defined. -/
def TellsByTexts (property : Expression → Prop) : Prop :=
  ∀ first second : Expression, first.kind = second.kind →
    (∀ name, name ≠ "defines" → first.text? name = second.text? name) →
    property first → property second

section

variable {plan : Plan} {property : Expression → Prop}

section

variable (checked : plan.Checked) (texts : TellsByTexts property)
  (settled : ∀ context e kind stem,
    Settled (recording plan.table plan.rowLimit) context e kind stem → property e)
  (row : ∀ id owner index content, property (rowWith id owner index content))

include checked texts settled row

/-- What settled expressions and rows have, and is told by texts, holds throughout an instance. -/
theorem standalone_of_settled {depth : Nat} (found : standalone plan depth name = some inst) :
    inst.Throughout property := by
  induction depth generalizing name inst with
  | zero => cases found
  | succ depth ih =>
    obtain ⟨root, w, w', isRoot, -, filled⟩ := standalone_root checked found
    refine isRoot.walked.fill_induction (motive := fun _ _ result => result.Throughout property)
      ?_ ?_ ?_ isRoot.plain isRoot.textName filled
    · intro context e stem here _
      exact Expression.throughout_iff.mpr
        ⟨settled context e _ stem here, fun name child held => (here.holds_nothing held).elim⟩
    · intro context e stem count type item supply here _ _ known
      refine Expression.throughout_iff.mpr ⟨?_, fun name child held => ?_⟩
      · -- rows come in under a name that no list has before, and they are no text
        refine texts e _ rfl (fun name _ => ?_) (settled context e _ stem here)
        by_cases body : name = "body"
        · subst body
          rw [Expression.text?, Expression.text?, here.no_body, Expression.set, Expression.get?,
            Entries.lookup_insert_self]
          rfl
        · rw [Expression.text?, Expression.text?, Expression.set, Expression.get?, Expression.get?,
            Entries.lookup_insert_of_ne _ _ body]
      · exact makeRows_throughout
          (fun first second contents => texts first second contents.kinds
            fun name _ => contents.text? name)
          (fun e => texts e _ rfl fun name apart => by
            rw [Expression.text?, Expression.text?, e.get?_unset_of_ne apart])
          row (standalone_resolved checked known).resolved (standalone_tidy checked known)
          (ih known) (here.held_row held).2
    · intro context e kind stem after here _ become
      refine Expression.throughout_iff.mpr ⟨?_, fun name child held => ?_⟩
      · exact texts e _ rfl (fun name _ => (become.lookup_text name).symm)
          (settled context e kind stem here)
      · obtain ⟨origin, -, below⟩ := become.held held
        exact below.filled

theorem Plan.HasInstance.of_settled (instances : plan.HasInstance name inst) :
    inst.Throughout property :=
  instances.throughout
    (fun first second contents => texts first second contents.kinds
      fun name _ => contents.text? name)
    fun _ _ => standalone_of_settled checked texts settled row

end

end

/-! ### Proper ids -/

/-- A list can be planted, and an id that is used as it is has no dash. -/
structure Expression.HasProperId (e : Expression) : Prop extends e.IsPlantable where
  literal : ∀ own, e.scopedId? = some own → own.isTracked = false → '-' ∉ own.name.toList

private theorem hasProperId_texts : TellsByTexts Expression.HasProperId := by
  intro first second kinds texts proper
  have id : first.scopedId? = second.scopedId? := by
    rw [Expression.scopedId?, Expression.scopedId?, texts "id" (by decide)]
  have tracked : first.trackedId? = second.trackedId? := by
    rw [Expression.trackedId?, Expression.trackedId?, id]
  have type : first.itemType = second.itemType := by
    rw [Expression.itemType, Expression.itemType, texts "type" (by decide)]
  constructor
  · exact ⟨kinds ▸ tracked ▸ proper.node, kinds ▸ type ▸ proper.itemType⟩
  · exact id ▸ proper.literal

private theorem rowWith_hasProperId (id owner : ExpressionId) (index : Nat) (content : Expression) :
    (rowWith id owner index content).HasProperId where
  node isList := absurd isList (by simp [rowWith])
  itemType isList := absurd isList (by simp [rowWith])
  literal own given untracked := by
    have row : (rowWith id owner index content).scopedId? = some ⟨.relative, toString index⟩ := by
      rw [← ScopedId.split_toString]
      rfl
    rw [row] at given
    cases given
    cases untracked

/-- An id that has been checked is an identifier after its sigil. -/
theorem Expression.IdFits.identifier {own : ScopedId} (fits : e.IdFits kind)
    (given : e.scopedId? = some own) : isIdentifier own.name = true := by
  obtain ⟨raw, text, rfl⟩ := Option.map_eq_some_iff.mp given
  obtain ⟨_, ⟨⟩, identifier⟩ := fits.valid _ (Expression.text?_eq_some.mp text)
  exact identifier

private theorem Settled.hasProperId {σ : Type} {rules : Rules σ} {context : Context}
    (settled : Settled rules context e kind stem)
    (identifiers : ∀ name ∈ rules.table.names, isIdentifier name = true) : e.HasProperId := by
  refine ⟨⟨?_, ?_⟩, ?_⟩
  · intro isList
    obtain rfl := settled.kind_of .list isList
    obtain ⟨_, _, _, _, particular⟩ := settled.particular
    -- that there is an id is asked of every concrete list, that it is tracked of every list
    obtain ⟨value, found⟩ := Option.isSome_iff_exists.mp (settled.idFits.required (.inl rfl))
    obtain ⟨raw, rfl, -⟩ := settled.idFits.valid value found
    have given : e.scopedId? = some (ScopedId.split raw) := by
      simp [Expression.scopedId?, Expression.text?_eq_some.mpr found]
    have tracked := (checkArguments_list_ok.mp particular).1 _ given
    rw [Expression.trackedId?_eq_some.mpr ⟨given, tracked⟩]
    rfl
  · intro isList
    obtain rfl := settled.kind_of .list isList
    obtain ⟨type, -, given, known, -⟩ := settled.item_exported
    have identifier := identifiers type (rules.table.exportNames_sublist.mem known)
    rw [Expression.itemType, given]
    exact isIdentifier_avoids identifier (by decide)
  · intro own given _
    exact isIdentifier_avoids (settled.idFits.identifier given) (by decide)

theorem Plan.HasInstance.hasProperId (checked : plan.Checked)
    (identifiers : ∀ name ∈ plan.table.names, isIdentifier name = true)
    (instances : plan.HasInstance name inst) : inst.Throughout Expression.HasProperId :=
  instances.of_settled checked hasProperId_texts
    (fun _ _ _ _ settled => settled.hasProperId identifiers) rowWith_hasProperId

/-! ### Declared ids -/

def trackedIds (placements : List Placement) : List String :=
  (placements.filterMap Placement.label?).map Prod.fst

theorem trackedIds_append (first second : List Placement) :
    trackedIds (first ++ second) = trackedIds first ++ trackedIds second := by
  simp [trackedIds]

/-- From `scope` to `scope'` the ids of the placements were declared, none for the second time. -/
structure Declares (placements : List Placement) (scope scope' : IdScope) : Prop where
  declared : scope'.declared = (trackedIds placements).reverse ++ scope.declared
  nodup : scope.declared.Nodup → scope'.declared.Nodup

theorem declares_nil (scope : IdScope) : Declares [] scope scope :=
  ⟨rfl, id⟩

private theorem Declares.append {first second : List Placement} {middle : IdScope}
    (one : Declares first scope middle) (two : Declares second middle scope') :
    Declares (first ++ second) scope scope' where
  declared := by
    rw [two.declared, one.declared, trackedIds_append, List.reverse_append, List.append_assoc]
  nodup distinct := two.nodup (one.nodup distinct)

theorem trackedIds_singleton (placement : Placement) :
    trackedIds [placement] =
      (placement.expression.trackedId?.map fun own => own.fullId placement.stem).toList := by
  unfold trackedIds Placement.label?
  cases found : placement.expression.trackedId? <;> simp [found]

theorem IdScope.declare_ok {ids ids' : IdScope} {full : String} :
    ids.declare full = .ok ids' ↔
      full ∉ ids.declared ∧ ids' = { ids with declared := full :: ids.declared } := by
  unfold IdScope.declare IdScope.contains
  by_cases known : full ∈ ids.declared
  · simp [known]
  · simp only [List.contains_iff_mem, known, if_false, Except.ok.injEq, not_false_eq_true, true_and]
    exact eq_comm

/-- An id that is tracked is declared, provided that it is new, and the ids below are relative to
it. -/
theorem declareId_ok :
    declareId e stem scope = .ok (scope', below) ↔
      (∀ own, e.trackedId? = some own → own.fullId stem ∉ scope.declared) ∧
        scope' = { scope with declared :=
          (e.trackedId?.map fun own => own.fullId stem).toList ++ scope.declared } ∧
        below = innerStem e stem := by
  unfold declareId
  have kept : (.ok (scope, stem) : Except Error (IdScope × String)) = .ok (scope', below) ↔
      scope' = scope ∧ below = stem := by
    rw [Except.ok.injEq, Prod.mk.injEq]
    exact and_congr eq_comm eq_comm
  cases given : e.text? "id" with
  | none =>
    have untracked : e.trackedId? = none := by
      simp [Expression.trackedId?, Expression.scopedId?, given]
    simpa [untracked, innerStem_of_untracked untracked] using kept
  | some raw =>
    dsimp only
    split_ifs with isTracked
    · have tracked : e.trackedId? = some (ScopedId.split raw) :=
        Expression.trackedId?_eq_some.mpr ⟨by simp [Expression.scopedId?, given], isTracked⟩
      simp only [except_bind_ok, except_pure_ok, Prod.mk.injEq, IdScope.declare_ok, tracked,
        innerStem_of_tracked tracked, Option.some.injEq, forall_eq']
      constructor
      · rintro ⟨_, ⟨fresh, rfl⟩, rfl, rfl⟩
        exact ⟨fresh, rfl, rfl⟩
      · rintro ⟨fresh, rfl, rfl⟩
        exact ⟨_, ⟨fresh, rfl⟩, rfl, rfl⟩
    · have untracked : e.trackedId? = none := by
        simp [Expression.trackedId?, Expression.scopedId?, given, Option.filter, isTracked]
      simpa [untracked, innerStem_of_untracked untracked] using kept

theorem declareId_declares (run : declareId e stem scope = .ok (scope', below))
    (item? : Option String) :
    below = innerStem e stem ∧ Declares [⟨e, stem, item?⟩] scope scope' := by
  obtain ⟨fresh, rfl, rfl⟩ := declareId_ok.mp run
  refine ⟨rfl, ?_, fun distinct => ?_⟩
  · rw [trackedIds_singleton]
    cases e.trackedId? <;> rfl
  · cases tracked : e.trackedId? with
    | none => simpa [tracked] using distinct
    | some own => simpa [tracked] using ⟨fresh own tracked, distinct⟩

theorem collectBlock_declares {children : List Expression}
    (each : ∀ child ∈ children, ∀ scope scope', collectIds child stem scope = .ok scope' →
      Declares (child.placements stem item?) scope scope')
    (run : collectBlock children stem scope = .ok scope') :
    Declares (placementsBlock children stem item?) scope scope' := by
  induction children generalizing scope with
  | nil =>
    cases run
    exact declares_nil _
  | cons child rest ih =>
    rw [collectBlock, except_bind_ok] at run
    obtain ⟨middle, first, later⟩ := run
    exact (each child List.mem_cons_self scope middle first).append
      (ih (List.forall_mem_cons.mp each).2 later)

private theorem collectArguments_declares {arguments : Arguments}
    (each : ∀ name children, (name, Argument.block children) ∈ arguments → ∀ child ∈ children,
      ∀ scope scope', collectIds child stem scope = .ok scope' →
        Declares (child.placements stem item?) scope scope')
    (run : collectArguments arguments stem scope = .ok scope') :
    Declares (placementsArguments arguments stem item?) scope scope' := by
  induction arguments generalizing scope with
  | nil =>
    cases run
    exact declares_nil _
  | cons entry rest ih =>
    obtain ⟨name, value⟩ := entry
    rw [collectArguments, except_bind_ok] at run
    obtain ⟨middle, first, later⟩ := run
    refine Declares.append ?_
      (ih (fun name children member => each name children (List.mem_cons_of_mem _ member)) later)
    cases value with
    | block children => exact collectBlock_declares (each name children List.mem_cons_self) first
    | atom | text | number | list =>
      cases first
      exact declares_nil _

/-- Collecting declares the ids of everything that is placed. -/
theorem collectIds_declares (run : collectIds e stem scope = .ok scope') (item? : Option String) :
    Declares (e.placements stem item?) scope scope' := by
  induction e using Expression.inductionOn generalizing stem item? scope scope' with
  | step owner ih =>
    obtain ⟨id, parent, kind, arguments⟩ := owner
    rw [collectIds, except_bind_ok] at run
    obtain ⟨⟨middle, below⟩, own, rest⟩ := run
    obtain ⟨rfl, first⟩ := declareId_declares own item?
    rw [Expression.placements]
    refine first.append (collectArguments_declares ?_ rest)
    intro name children member child inside scope scope' deeper
    exact ih name child ⟨children, member, inside⟩ deeper _

/-- No two tracked ids of an instance are the same. -/
theorem Plan.HasInstance.trackedIds_nodup (instances : plan.HasInstance name inst)
    (item? : Option String) : (trackedIds (inst.placements (rootStem inst name) item?)).Nodup := by
  obtain ⟨build, root, rest, filled, ids, w, scope, -, -, -, unique, outlines⟩ :=
    instances.assembled
  have kinds : rootStem inst name = rootStem filled name := by
    rw [rootStem, rootStem, Expression.kind_of_outline outlines]
  rw [← uniqueIds_of_outline outlines, ← kinds] at unique
  have declares := collectIds_declares unique item?
  have distinct := declares.nodup List.nodup_nil
  rw [declares.declared, List.append_nil] at distinct
  exact (List.reverse_perm _).nodup_iff.mp distinct

end Pagewright
