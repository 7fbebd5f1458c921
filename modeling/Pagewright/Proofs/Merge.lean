import Pagewright.Instance.Merge
import Pagewright.Proofs.Entries
import Pagewright.Proofs.Tree

/-!
# What a merged expression has

Merging takes arguments over one after the other. Whatever the merged expression
has is its own, was taken from the definition, or is a joined list. Names that
are never taken over are found as before.
-/

namespace Pagewright

variable {owner : ExpressionId} {name other : String} {own : Arguments} {child parent : Expression}
  {value result : Argument}

theorem Expression.get?_unset_self (e : Expression) (name : String) :
    (e.unset name).get? name = none :=
  Entries.lookup_erase_self _ _

/-- Dropping an argument leaves the others as they were. -/
theorem Expression.get?_unset_of_ne (e : Expression) (apart : other ≠ name) :
    (e.unset name).get? other = e.get? other :=
  Entries.lookup_erase_of_ne _ apart

/-- Where an argument comes from when a definition's arguments are taken over into `own`. -/
inductive MergedFrom (owner : ExpressionId) (own taken : Arguments) (name : String) :
    Argument → Prop
  | own {value : Argument} : (name, value) ∈ own → MergedFrom owner own taken name value
  | taken {value : Argument} : (name, value) ∈ taken → name ∉ ownNames →
      MergedFrom owner own taken name (value.adopt owner)
  | joined (items : List Argument) : MergedFrom owner own taken name (.list items)

/-- Taking one argument over leaves the arguments alone, adds it, or joins two lists. -/
theorem mergeArgument_cases (owner : ExpressionId) (own : Arguments) (name : String)
    (value : Argument) :
    mergeArgument owner own name value = own ∨
    (name ∉ ownNames ∧ own.lookup name = none ∧
      mergeArgument owner own name value = Entries.insert name (value.adopt owner) own) ∨
    (∃ items taken, name ∉ ownNames ∧ name ∈ joinedNames ∧
      own.lookup name = some (.list items) ∧ value = .list taken ∧
      mergeArgument owner own name value = Entries.insert name (.list (items ++ taken)) own) := by
  unfold mergeArgument
  by_cases kept : ownNames.contains name
  · exact .inl (if_pos kept)
  · have free : name ∉ ownNames := by simpa using kept
    rw [if_neg kept]
    split
    · rename_i absent
      exact .inr (.inl ⟨free, absent, rfl⟩)
    · rename_i items taken found
      by_cases joins : joinedNames.contains name
      · rw [if_pos joins]
        exact .inr (.inr ⟨items, taken, free, by simpa using joins, found, rfl, rfl⟩)
      · exact .inl (if_neg joins)
    · exact .inl rfl

private theorem mem_mergeArgument (member : (other, result) ∈ mergeArgument owner own name value) :
    MergedFrom owner own [(name, value)] other result := by
  rcases mergeArgument_cases owner own name value with
    same | ⟨free, -, added⟩ | ⟨items, taken, -, -, -, -, joined⟩
  · exact .own (same ▸ member)
  · rcases Entries.mem_insert (added ▸ member) with new | old
    · cases new
      exact .taken (by simp) free
    · exact .own old
  · rcases Entries.mem_insert (joined ▸ member) with new | old
    · cases new
      exact .joined _
    · exact .own old

/-- All arguments of a definition, taken over in order. -/
theorem mem_mergeArguments {taken : Arguments}
    (member : (name, result) ∈
      taken.foldl (fun own entry => mergeArgument owner own entry.1 entry.2) own) :
    MergedFrom owner own taken name result := by
  induction taken generalizing own with
  | nil => exact .own member
  | cons entry rest ih =>
    cases ih member with
    | own found =>
      cases mem_mergeArgument found with
      | own earlier => exact .own earlier
      | taken first free =>
        exact .taken (List.mem_cons.mpr (.inl (List.mem_singleton.mp first))) free
      | joined items => exact .joined items
    | taken found free => exact .taken (List.mem_cons_of_mem _ found) free
    | joined items => exact .joined items

/-- Every argument of a merge is the own one, a taken one, or two lists joined. -/
theorem mem_merge (member : (name, value) ∈ (merge child parent).arguments) :
    MergedFrom child.id (Entries.erase child.arguments "inherits") parent.arguments name value :=
  mem_mergeArguments member

private theorem mergeArgument_ordered (name : String) (value : Argument)
    (ordered : Entries.Ordered own) : Entries.Ordered (mergeArgument owner own name value) := by
  rcases mergeArgument_cases owner own name value with
    same | ⟨-, -, added⟩ | ⟨items, taken, -, -, -, -, joined⟩
  · rwa [same]
  · rw [added]
    exact ordered.insert _ _
  · rw [joined]
    exact ordered.insert _ _

theorem merge_ordered (ordered : Entries.Ordered child.arguments) :
    Entries.Ordered (merge child parent).arguments := by
  show Entries.Ordered (parent.arguments.foldl _ _)
  have start := ordered.erase "inherits"
  generalize Entries.erase child.arguments "inherits" = own at start ⊢
  induction parent.arguments generalizing own with
  | nil => exact start
  | cons entry rest ih => exact ih _ (mergeArgument_ordered _ _ start)

theorem mergeArgument_lookup_of_ne (value : Argument) (apart : other ≠ name) :
    (mergeArgument owner own name value).lookup other = own.lookup other := by
  rcases mergeArgument_cases owner own name value with
    same | ⟨-, -, added⟩ | ⟨items, taken, -, -, -, -, joined⟩
  · rw [same]
  · rw [added]
    exact Entries.lookup_insert_of_ne _ _ apart
  · rw [joined]
    exact Entries.lookup_insert_of_ne _ _ apart

/-- A name that is never taken over keeps its value. -/
theorem merge_get?_of_own (kept : name ∈ ownNames) :
    (merge child parent).get? name =
      (Entries.erase child.arguments "inherits").lookup name := by
  show List.lookup name (parent.arguments.foldl _ _) = _
  generalize Entries.erase child.arguments "inherits" = own
  induction parent.arguments generalizing own with
  | nil => rfl
  | cons entry rest ih =>
    refine (ih _).trans ?_
    by_cases same : name = entry.1
    · have untouched : mergeArgument child.id own entry.1 entry.2 = own := by
        unfold mergeArgument
        rw [if_pos (by simpa [← same] using kept)]
      exact congrArg (List.lookup name) untouched
    · exact mergeArgument_lookup_of_ne _ same

/-- An adopted block holds the same expressions under a new parent. -/
theorem Argument.adopt_eq_block {adopted : List Expression}
    (equal : value.adopt owner = .block adopted) :
    ∃ children, value = .block children ∧
      adopted = children.map fun child => { child with parent := some owner } := by
  cases value with
  | block children =>
    simp only [Argument.adopt] at equal
    exact ⟨children, rfl, (Argument.block.inj equal).symm⟩
  | list | atom | text | number => simp [Argument.adopt] at equal

end Pagewright
