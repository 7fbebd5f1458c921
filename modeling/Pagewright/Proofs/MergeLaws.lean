import Pagewright.Proofs.Merge

/-!
# The law of merging

What a merged expression has under a name depends on nothing but what the two
expressions have under this name (`merge_get?`). So merging can be understood one
name at a time, and chains of definitions can be merged from either end: merging
is associative, identifiers and links to parents included, as long as the lists
that are joined hold no blocks.
-/

namespace Pagewright

/-! ### One name -/

/-- What becomes of a value of the child when the definition may have one too. -/
def Argument.joined (name : String) (own : Argument) (taken : Option Argument) : Argument :=
  match own, taken with
  | .list items, some (.list more) =>
    if name ∈ joinedNames then .list (items ++ more) else .list items
  | own, _ => own

/-- What a merged expression has under a name, where `own` is what the child had and `taken` is what
the definition has. -/
def mergedValue (owner : ExpressionId) (name : String) (own taken : Option Argument) :
    Option Argument :=
  if name ∈ ownNames then own
  else
    match own with
    | none => taken.map (Argument.adopt owner)
    | some value => some (value.joined name taken)

section

variable {owner : ExpressionId} {name : String}

@[simp] theorem Argument.joined_none (value : Argument) : value.joined name none = value := by
  cases value <;> rfl

/-- Where nothing is joined the child's value stays. -/
theorem Argument.joined_of_not_mem (apart : name ∉ joinedNames) (value : Argument)
    (taken : Option Argument) : value.joined name taken = value := by
  unfold Argument.joined
  split
  · rw [if_neg apart]
  · rfl

theorem Argument.joined_lists (joins : name ∈ joinedNames) (items more : List Argument) :
    (Argument.list items).joined name (some (.list more)) = .list (items ++ more) :=
  if_pos joins

@[simp] theorem mergedValue_none (own : Option Argument) : mergedValue owner name own none = own := by
  unfold mergedValue
  split_ifs
  · rfl
  · cases own <;> simp

private theorem mergedValue_of_own (kept : name ∈ ownNames) (own taken : Option Argument) :
    mergedValue owner name own taken = own :=
  if_pos kept

theorem mergedValue_absent (free : name ∉ ownNames) (taken : Option Argument) :
    mergedValue owner name none taken = taken.map (Argument.adopt owner) :=
  if_neg free

theorem mergedValue_some (free : name ∉ ownNames) (value : Argument) (taken : Option Argument) :
    mergedValue owner name (some value) taken = some (value.joined name taken) :=
  if_neg free

end

private theorem mergeArgument_lookup_self (owner : ExpressionId) (own : Arguments) (name : String)
    (value : Argument) :
    (mergeArgument owner own name value).lookup name =
      mergedValue owner name (own.lookup name) (some value) := by
  unfold mergeArgument mergedValue
  simp only [List.contains_iff_mem]
  by_cases kept : name ∈ ownNames
  · rw [if_pos kept, if_pos kept]
  rw [if_neg kept, if_neg kept]
  cases found : own.lookup name with
  | none => exact Entries.lookup_insert_self _ _ _
  | some mine =>
    cases mine with
    | list items =>
      cases value with
      | list taken =>
        by_cases joins : name ∈ joinedNames
        · simp only [if_pos joins, Argument.joined_lists joins, Entries.lookup_insert_self]
        · simp only [if_neg joins, Argument.joined_of_not_mem joins, found]
      | atom | text | number | block => exact found
    | atom | text | number | block => exact found

/-- When all arguments of a definition are taken over, each name counts for itself. -/
theorem mergeArguments_lookup {owner : ExpressionId} {taken : Arguments}
    (distinct : (taken.map Prod.fst).Nodup) (own : Arguments) (name : String) :
    (taken.foldl (fun own entry => mergeArgument owner own entry.1 entry.2) own).lookup name =
      mergedValue owner name (own.lookup name) (taken.lookup name) := by
  induction taken generalizing own with
  | nil => simp
  | cons entry rest ih =>
    obtain ⟨other, value⟩ := entry
    obtain ⟨fresh, restDistinct⟩ := List.nodup_cons.mp distinct
    rw [List.foldl_cons, ih restDistinct]
    by_cases same : name = other
    · subst same
      have missing : rest.lookup name = none := by
        cases found : rest.lookup name with
        | none => rfl
        | some later => exact absurd (List.mem_map_of_mem (Entries.mem_of_lookup found)) fresh
      rw [missing, mergedValue_none, mergeArgument_lookup_self, List.lookup_cons_self]
    · rw [mergeArgument_lookup_of_ne _ same, Entries.lookup_cons_of_ne same]

/-- What a merged expression has under a name. -/
theorem merge_get? {child parent : Expression} (ordered : Entries.Ordered parent.arguments)
    (name : String) :
    (merge child parent).get? name =
      mergedValue child.id name ((child.unset "inherits").get? name) (parent.get? name) :=
  mergeArguments_lookup ordered.distinct _ name

/-! ### Adopting again -/

/-- No block stands in the value, at any depth of lists in lists. -/
inductive Argument.Blockless : Argument → Prop
  | atom (name : String) : Blockless (.atom name)
  | text (value : String) : Blockless (.text value)
  | number (digits : String) : Blockless (.number digits)
  | list {items : List Argument} : (∀ item ∈ items, Blockless item) → Blockless (.list items)

private theorem adoptItems_eq (owner : ExpressionId) (items : List Argument) :
    adoptItems owner items = items.map (Argument.adopt owner) := by
  induction items with
  | nil => rfl
  | cons item rest ih => rw [adoptItems, ih, List.map_cons]

/-- Only blocks are changed when a value is adopted. -/
theorem Argument.Blockless.adopt {value : Argument} (blockless : value.Blockless)
    (owner : ExpressionId) : value.adopt owner = value := by
  induction blockless with
  | atom | text | number => rfl
  | list _ ih =>
    rw [Argument.adopt, adoptItems_eq, List.map_congr_left ih, List.map_id']

mutual

/-- The last one to adopt a value is the parent. -/
theorem Argument.adopt_adopt (first second : ExpressionId) : ∀ value : Argument,
    (value.adopt first).adopt second = value.adopt second
  | .block children => by
    simp only [Argument.adopt, List.map_map]
    rfl
  | .list items => by simp only [Argument.adopt, adoptItems_adopt first second items]
  | .atom _ | .text _ | .number _ => rfl

private theorem adoptItems_adopt (first second : ExpressionId) : ∀ items : List Argument,
    adoptItems second (adoptItems first items) = adoptItems second items
  | [] => rfl
  | item :: rest => by
    simp only [adoptItems, item.adopt_adopt first second, adoptItems_adopt first second rest]

end

/-! ### Merging three -/

def Argument.IsPlainList (value : Argument) : Prop :=
  value.Blockless ∧ ∃ items, value = .list items

/-- Whatever stands under a joined name is a list without blocks. -/
def Expression.JoinsPlainLists (e : Expression) : Prop :=
  ∀ name ∈ joinedNames, ∀ value, e.get? name = some value → value.IsPlainList

private theorem Argument.Blockless.append {items more : List Argument}
    (first : (Argument.list items).Blockless) (second : (Argument.list more).Blockless) :
    (Argument.list (items ++ more)).Blockless := by
  cases first with
  | list each =>
    cases second with
    | list others => exact .list fun item member =>
        (List.mem_append.mp member).elim (each item) (others item)

/-- A value keeps its parent when plain lists are joined to it. -/
theorem Argument.adopt_joined {name : String} {value : Argument} {taken : Option Argument}
    (plain : name ∈ joinedNames → value.IsPlainList ∧ ∀ other, taken = some other → other.IsPlainList)
    (owner : ExpressionId) :
    (value.joined name taken).adopt owner = (value.adopt owner).joined name taken := by
  by_cases joins : name ∈ joinedNames
  · obtain ⟨⟨flat, items, rfl⟩, others⟩ := plain joins
    rw [flat.adopt]
    cases taken with
    | none => exact flat.adopt owner
    | some other =>
      obtain ⟨more, items', rfl⟩ := others other rfl
      rw [Argument.joined_lists joins]
      exact (flat.append more).adopt owner
  · rw [Argument.joined_of_not_mem joins, Argument.joined_of_not_mem joins]

/-- Values join from either end. -/
theorem Argument.joined_joined {name : String} {first second : Argument} {third : Option Argument}
    (plain : name ∈ joinedNames → first.IsPlainList ∧ second.IsPlainList ∧
      ∀ other, third = some other → other.IsPlainList) :
    (first.joined name (some second)).joined name third =
      first.joined name (some (second.joined name third)) := by
  by_cases joins : name ∈ joinedNames
  · obtain ⟨⟨-, items, rfl⟩, ⟨-, more, rfl⟩, others⟩ := plain joins
    cases third with
    | none => simp only [Argument.joined_none]
    | some other =>
      obtain ⟨-, last, rfl⟩ := others other rfl
      simp only [Argument.joined_lists joins, List.append_assoc]
  · simp only [Argument.joined_of_not_mem joins]

private theorem mergedValue_assoc {owner other : ExpressionId} {name : String}
    (free : name ∉ ownNames) {first second third : Option Argument}
    (plain : name ∈ joinedNames → ∀ value, first = some value ∨ second = some value ∨
      third = some value → value.IsPlainList) :
    mergedValue owner name (mergedValue owner name first second) third =
      mergedValue owner name first (mergedValue other name second third) := by
  cases first with
  | some mine =>
    cases second with
    | some next =>
      simp only [mergedValue_some free]
      rw [Argument.joined_joined fun joins =>
        ⟨plain joins mine (.inl rfl), plain joins next (.inr (.inl rfl)),
          fun last given => plain joins last (.inr (.inr given))⟩]
    | none =>
      rw [mergedValue_none, mergedValue_some free, mergedValue_absent free, mergedValue_some free]
      -- what is taken over twice is a plain list, or it is not joined at all
      cases third with
      | none => rfl
      | some last =>
        by_cases joins : name ∈ joinedNames
        · rw [Option.map_some, (plain joins last (by simp)).1.adopt]
        · simp only [Argument.joined_of_not_mem joins]
  | none =>
    cases second with
    | some next =>
      simp only [mergedValue_absent free, mergedValue_some free, Option.map_some]
      rw [Argument.adopt_joined fun joins =>
        ⟨plain joins next (by simp), fun last given => plain joins last (.inr (.inr given))⟩]
    | none =>
      rw [mergedValue_none, mergedValue_absent free, mergedValue_absent free, mergedValue_absent free,
        Option.map_map]
      cases third with
      | none => rfl
      | some last => simp only [Option.map_some, Function.comp_apply, Argument.adopt_adopt]

/-- **Merging is associative.** Whether a definition is merged into the one that refers to it before
or after this one is merged into its own reference, the result is the same expression: identifier,
link, kind and every argument, with the links of inherited blocks. -/
theorem merge_assoc {first second third : Expression}
    (firstOrdered : Entries.Ordered first.arguments)
    (secondOrdered : Entries.Ordered second.arguments)
    (thirdOrdered : Entries.Ordered third.arguments)
    (firstLists : first.JoinsPlainLists) (secondLists : second.JoinsPlainLists)
    (thirdLists : third.JoinsPlainLists) :
    merge (merge first second) third = merge first (merge second third) := by
  have arguments : (merge (merge first second) third).arguments =
      (merge first (merge second third)).arguments := by
    refine (merge_ordered (merge_ordered firstOrdered)).ext (merge_ordered firstOrdered)
      fun name => ?_
    show (merge (merge first second) third).get? name = (merge first (merge second third)).get? name
    rw [merge_get? thirdOrdered, merge_get? (merge_ordered secondOrdered), merge_get? thirdOrdered]
    by_cases inherits : name = "inherits"
    · subst inherits
      rw [mergedValue_of_own (by decide), mergedValue_of_own (by decide),
        Expression.get?_unset_self, Expression.get?_unset_self]
    simp only [Expression.get?_unset_of_ne _ inherits]
    rw [merge_get? secondOrdered, Expression.get?_unset_of_ne _ inherits]
    by_cases own : name ∈ ownNames
    · simp only [mergedValue_of_own own]
    · refine mergedValue_assoc own fun joins value given => ?_
      rcases given with mine | next | last
      · exact firstLists name joins value mine
      · exact secondLists name joins value next
      · exact thirdLists name joins value last
  show Expression.mk first.id first.parent third.kind _ = Expression.mk first.id first.parent third.kind _
  exact congrArg _ arguments

private theorem Argument.IsPlainList.texts (values : List String) :
    (Argument.list (values.map .text)).IsPlainList := by
  refine ⟨.list fun item member => ?_, _, rfl⟩
  obtain ⟨value, -, rfl⟩ := List.mem_map.mp member
  exact .text value

/-- A reference to a panel, with classes of its own. -/
def cardLayer : Expression :=
  ⟨1, some 9, "panel", [("classes", .list [.text "wide"]), ("id", .text "card")]⟩

def panelLayer : Expression :=
  ⟨2, none, "box", [("body", .block [⟨3, some 2, "text", [("value", .text "x")]⟩]),
    ("classes", .list [.text "panel", .text "wide"]), ("defines", .text "panel")]⟩

def boxLayer : Expression :=
  ⟨4, none, "div", [("body", .block [⟨5, some 4, "text", []⟩]), ("classes", .list [.text "box"]),
    ("defines", .text "box"), ("footer", .block [⟨6, some 4, "text", []⟩]),
    ("styles", .list [.text "box.css"])]⟩

/-- The three layers as one: all classes, the body of the panel, and the footer of the box. -/
def flatLayers : Expression :=
  ⟨1, some 9, "div", [("body", .block [⟨3, some 1, "text", [("value", .text "x")]⟩]),
    ("classes", .list [.text "wide", .text "panel", .text "wide", .text "box"]),
    ("footer", .block [⟨6, some 1, "text", []⟩]), ("id", .text "card"),
    ("styles", .list [.text "box.css"])]⟩

theorem merge_assoc_layers :
    merge (merge cardLayer panelLayer) boxLayer = merge cardLayer (merge panelLayer boxLayer) ∧
      merge cardLayer (merge panelLayer boxLayer) = flatLayers := by
  refine ⟨merge_assoc (by decide) (by decide) (by decide) ?_ ?_ ?_, rfl⟩
  all_goals
    intro name joins value given
    simp only [joinedNames, List.mem_cons, List.not_mem_nil, or_false] at joins
  · rcases joins with rfl | rfl | rfl | rfl <;> cases given
    exact .texts ["wide"]
  · rcases joins with rfl | rfl | rfl | rfl <;> cases given
    exact .texts ["panel", "wide"]
  · rcases joins with rfl | rfl | rfl | rfl <;> cases given
    · exact .texts ["box.css"]
    · exact .texts ["box"]

end Pagewright
