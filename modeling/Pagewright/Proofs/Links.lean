import Pagewright.Proofs.FilledInstance

/-!
# Parent links

Whatever stands in a block names the expression that has the block as its
parent. A copy is linked this way from the start, whatever it is a copy of, and
every later step keeps the links: an expression never changes its identifier,
and what is moved into another block gets a new parent. So instances are linked
throughout, and nothing is their parent (`buildWithin_linked`).
-/

namespace Pagewright

open Outcome

variable {w w' : Workshop} {e result inst : Expression} {owner : ExpressionId}
  {build : String → Building Expression} {s t : Supply} {name : String} {arguments : Arguments}
  {bindings : Bindings}

/-- Everything in a block has the owner of the block as its parent. -/
def Expression.IsLinked (e : Expression) : Prop :=
  ∀ name child, e.Holds name child → child.parent = some e.id

/-- Linked below, with everything in a block of `arguments` having the parent `owner`. -/
def LinkedArguments (owner : ExpressionId) (arguments : List (String × Argument)) : Prop :=
  ∀ name children, (name, Argument.block children) ∈ arguments → ∀ child ∈ children,
    child.parent = some owner ∧ child.Throughout Expression.IsLinked

theorem Expression.throughout_linked_iff :
    e.Throughout Expression.IsLinked ↔ LinkedArguments e.id e.arguments := by
  rw [Expression.throughout_iff]
  constructor
  · rintro ⟨here, below⟩ name children member child inside
    have held : e.Holds name child := ⟨children, member, inside⟩
    exact ⟨here name child held, below name child held⟩
  · intro linked
    constructor
    · rintro name child ⟨children, member, inside⟩
      exact (linked name children member child inside).1
    · rintro name child ⟨children, member, inside⟩
      exact (linked name children member child inside).2

private theorem LinkedArguments.sublist {fewer : Arguments}
    (linked : LinkedArguments owner arguments) (sublist : fewer.Sublist arguments) :
    LinkedArguments owner fewer :=
  fun name children member => linked name children (sublist.mem member)

theorem LinkedArguments.insert {value : Argument} (linked : LinkedArguments owner arguments)
    (new : LinkedArguments owner [(name, value)]) :
    LinkedArguments owner (Entries.insert name value arguments) := by
  intro other children member
  rcases Entries.mem_insert member with same | old
  · exact new other children (List.mem_singleton.mpr same)
  · exact linked other children old

/-! ### Copies and substitution -/

/-- A copy is linked, whatever it is a copy of. -/
theorem Expression.copy_linked (e : Expression) (parent : Option ExpressionId) (supply : Supply) :
    (e.copy parent supply).1.Throughout Expression.IsLinked := by
  induction e using Expression.inductionOn generalizing parent supply with
  | step owner ih =>
    rw [Expression.throughout_iff]
    constructor
    · intro name copied held
      obtain ⟨child, later, -, rfl⟩ := held.of_copy
      simp
    · intro name copied held
      obtain ⟨child, later, original, rfl⟩ := held.of_copy
      exact ih name child original _ _

private theorem substitute_id (run : substitute bindings e s = .ok result t) :
    result.id = e.id := by
  obtain ⟨arguments, -, rfl⟩ := substitute_ok.mp run
  rfl

private theorem substitute_linked (linked : e.Throughout Expression.IsLinked)
    (run : substitute bindings e s = .ok result t) : result.Throughout Expression.IsLinked := by
  induction e using Expression.inductionOn generalizing result s t with
  | step owner ih =>
    rw [Expression.throughout_linked_iff]
    intro name children member piece inside
    rw [substitute_id run]
    have held : result.Holds name piece := ⟨children, member, inside⟩
    cases held.of_substitute run with
    | @kept child _ _ _ original substituted =>
      refine ⟨?_, ih name child original (linked.child original) substituted⟩
      rw [substitute_parent substituted]
      exact linked.here name child original
    | @renamed child piece kind _ _ original substituted =>
      have inner := ih name child original (linked.child original) substituted
      constructor
      · show piece.parent = some owner.id
        rw [substitute_parent substituted]
        exact linked.here name child original
      · -- the new kind changes neither links nor identifier
        rw [Expression.throughout_linked_iff] at inner ⊢
        exact inner
    | inserted =>
      constructor
      · simp
      · exact Expression.copy_linked _ _ _

/-! ### References -/

private theorem merge_linked {child parent : Expression}
    (own : LinkedArguments child.id child.arguments)
    (taken : parent.Throughout Expression.IsLinked) :
    (merge child parent).Throughout Expression.IsLinked := by
  rw [Expression.throughout_linked_iff] at taken ⊢
  intro name children member e inside
  have origin := mem_merge member
  generalize found : Argument.block children = value at origin
  cases origin with
  | own kept =>
    subst found
    exact own name children (Entries.mem_erase.mp kept).1 e inside
  | taken original free =>
    obtain ⟨before, rfl, rfl⟩ := Argument.adopt_eq_block found.symm
    obtain ⟨e, among, rfl⟩ := List.mem_map.mp inside
    have inner := (taken name before original e among).2
    rw [Expression.throughout_linked_iff] at inner
    refine ⟨rfl, ?_⟩
    rw [Expression.throughout_linked_iff]
    exact inner
  | joined items => cases found

/-- References give linked instances, and leave over arguments that were given. -/
def Refer.GivesLinked (refer : Refer) : Prop :=
  ∀ target site w inst rest w', refer target site w = .ok (inst, rest) w' →
    (inst.parent = none ∧ inst.Throughout Expression.IsLinked) ∧ rest.Sublist site

variable {refer : Refer} {plan : Plan}

private theorem join_linked (instances : refer.GivesLinked)
    (linked : e.Throughout Expression.IsLinked) (run : join refer e w = .ok result w') :
    result.Throughout Expression.IsLinked := by
  cases join_ok run with
  | alone => exact linked
  | @merged target inst rest _ referred =>
    obtain ⟨⟨-, taken⟩, fewer⟩ := instances target _ w inst rest w' referred
    apply merge_linked ?_ taken
    rw [Expression.throughout_linked_iff] at linked
    exact linked.sublist (fewer.trans List.filter_sublist)

private theorem resolve_linked (instances : refer.GivesLinked)
    (linked : e.Throughout Expression.IsLinked) (run : resolve refer e w = .ok result w') :
    result.Throughout Expression.IsLinked := by
  induction e using Expression.inductionOn generalizing result w w' with
  | step owner ih =>
    obtain ⟨arguments, u, resolved, joined⟩ := resolve_ok.mp run
    apply join_linked instances ?_ joined
    rw [Expression.throughout_linked_iff]
    intro name children member child inside
    obtain ⟨original, v, v', among, step⟩ := mem_resolveArguments resolved member
    rcases resolveArgument_ok step with ⟨rfl, noBlock, -⟩ | ⟨before, results, rfl, same, threads⟩
    · cases noBlock
    · cases same
      obtain ⟨e, ofBlock, v, v', resolvedChild⟩ := threads.exists_of_mem inside
      have held : owner.Holds name e := ⟨before, among, ofBlock⟩
      refine ⟨?_, ih name e held (linked.child held) resolvedChild⟩
      rw [(resolve_id_parent resolvedChild).2]
      exact linked.here name e held

private theorem CopiedFrom.linked {target : String} {site rest : Arguments} {body : Expression}
    (copied : CopiedFrom plan target site s body rest t) :
    body.parent = none ∧ body.Throughout Expression.IsLinked := by
  cases copied with
  | plain => exact ⟨by simp, Expression.copy_linked _ _ _⟩
  | @generic definition bindings _ _ _ _ _ _ substituted =>
    have copy := Expression.copy_linked definition.expression none s
    constructor
    · rw [substitute_parent substituted]
      exact Expression.copy_parent definition.expression none s
    · apply substitute_linked ?_ substituted
      rw [Expression.throughout_linked_iff] at copy ⊢
      exact copy.sublist List.filter_sublist

private theorem referWithin_givesLinked (budget : Nat) : (referWithin plan budget).GivesLinked := by
  intro target site w inst rest w' run
  refine referWithin_spec (fun _ site _ inst rest _ =>
    (inst.parent = none ∧ inst.Throughout Expression.IsLinked) ∧ rest.Sublist site) ?_ budget run
  intro refer instances target site w inst rest w' copied
  obtain ⟨body, t, origin, resolved⟩ := copyDefinition_ok copied
  obtain ⟨unlinked, linked⟩ := origin.linked
  refine ⟨⟨?_, resolve_linked instances linked resolved⟩, origin.sublist⟩
  rw [(resolve_id_parent resolved).2, unlinked]

/-! ### Rows -/

private theorem makeRows_linked {item row : Expression} {count index : Nat} {supply : Supply}
    (member : row ∈ (makeRows item owner count index supply).1) :
    row.parent = some owner ∧ row.Throughout Expression.IsLinked := by
  induction count generalizing index supply with
  | zero => cases member
  | succ count ih =>
    simp only [makeRows, Supply.take] at member
    rcases List.mem_cons.mp member with rfl | later
    · refine ⟨rfl, ?_⟩
      rw [Expression.throughout_linked_iff]
      intro place block found child held
      have content := Expression.copy_linked item (some supply.next.toUInt32) ⟨supply.next + 1⟩
      simp only [List.mem_cons, Prod.mk.injEq, Argument.block.injEq, reduceCtorEq, and_false,
        List.not_mem_nil, or_false] at found
      obtain ⟨-, rfl⟩ := found
      obtain rfl := List.mem_singleton.mp held
      constructor
      · exact Expression.copy_parent item _ _
      · rw [Expression.throughout_linked_iff] at content ⊢
        exact content.sublist List.filter_sublist
    · exact ih later

private theorem fillList_linked {list : Expression} (linked : list.Throughout Expression.IsLinked)
    (run : fillList build list w = .ok result w') :
    result.parent = list.parent ∧ result.Throughout Expression.IsLinked := by
  rcases fillList_ok.mp run with ⟨-, rfl, -⟩ | ⟨count, type, item, u, -, -, -, rfl, -⟩
  · exact ⟨rfl, linked⟩
  · refine ⟨rfl, ?_⟩
    rw [Expression.throughout_linked_iff] at linked ⊢
    apply linked.insert
    intro name rows found row inside
    obtain ⟨-, same⟩ := Prod.mk.inj (List.mem_singleton.mp found)
    cases same
    exact makeRows_linked inside

private theorem fillLists_linked (linked : e.Throughout Expression.IsLinked)
    (run : fillLists build e w = .ok result w') :
    result.parent = e.parent ∧ result.Throughout Expression.IsLinked := by
  induction e using Expression.inductionOn generalizing result w w' with
  | step owner ih =>
    rcases fillLists_ok.mp run with ⟨-, filled⟩ | ⟨-, arguments, filled, rfl⟩
    · exact fillList_linked linked filled
    · refine ⟨rfl, ?_⟩
      rw [Expression.throughout_linked_iff]
      intro name children member child inside
      -- the child is a filled child of the block of this name
      obtain ⟨⟨other, value⟩, among, u, u', step⟩ :=
        (fillArguments_ok.mp filled).exists_of_mem member
      obtain ⟨filledValue, v, inner, last⟩ := bind_ok.mp step
      obtain ⟨same, rfl⟩ := pure_ok.mp last
      cases same
      rcases fillArgument_ok.mp inner with ⟨leaf, rfl, -⟩ | ⟨before, results, rfl, same, threads⟩
      · cases leaf
      · cases same
        obtain ⟨e, ofBlock, v, v', filledChild⟩ := threads.exists_of_mem inside
        have held : owner.Holds other e := ⟨before, among, ofBlock⟩
        obtain ⟨parent, below⟩ := ih other e held (linked.child held) filledChild
        exact ⟨parent.trans (linked.here other e held), below⟩

/-! ### Instances -/

def Workshop.Linked (w : Workshop) : Prop :=
  ∀ name inst, (name, inst) ∈ w.finished →
    inst.parent = none ∧ inst.Throughout Expression.IsLinked

private theorem assemble_linked
    (builds : ∀ type w item w', w.Linked → build type w = .ok item w' → w'.Linked)
    (start : w.Linked) (run : assemble plan build name w = .ok inst w') :
    w'.Linked ∧ inst.parent = none ∧ inst.Throughout Expression.IsLinked := by
  obtain ⟨root, rest, ids, found, markers, scope, referred, -, fills, -⟩ := assemble_iff.mp run
  obtain ⟨⟨unlinked, linked⟩, -⟩ := referWithin_givesLinked _ _ _ _ _ _ _ referred
  obtain ⟨parent, below⟩ := fillLists_linked linked fills
  have begin : Workshop.Linked { w with ids, markers } := start
  have kept : w'.Linked := fillLists_keeps (fun w ids (kept : w.Linked) => kept) builds begin fills
  exact ⟨kept, parent.trans unlinked, below⟩

/-- Building keeps finished instances linked, and what it gives is one of them. -/
theorem buildWithin_linked {budget : Nat} (start : w.Linked)
    (run : buildWithin plan budget name w = .ok inst w') :
    w'.Linked ∧ (name, inst) ∈ w'.finished := by
  induction budget generalizing name inst w w' with
  | zero => exact (throw_ok.mp run).elim
  | succ budget ih =>
    rcases buildWithin_succ_ok.mp run with ⟨known, rfl⟩ | ⟨-, -, u, assembled, rfl⟩
    · exact ⟨start, Entries.mem_of_lookup known⟩
    · obtain ⟨kept, here⟩ := assemble_linked (fun type w item w' start run => (ih start run).1)
        (w := { w with building := name :: w.building }) start assembled
      refine ⟨?_, List.mem_cons_self⟩
      intro other result member
      rcases List.mem_cons.mp member with same | earlier
      · cases same
        exact here
      · exact kept other result earlier

end Pagewright
