import Mathlib.Data.List.Forall2
import Mathlib.Data.String.Basic
import Pagewright.Entries

/-!
# Looking up named values

Setting and dropping a name changes what is found under this name and under no
other, whatever the order of the entries. Entries in increasing order of name
hold one value for each name, so that what stands in them is what is found.
-/

namespace Pagewright.Entries

variable {β : Type} {entries : Entries β} {name other : String} {value : β} {entry : String × β}

def Ordered (entries : Entries β) : Prop :=
  entries.Pairwise fun first second => first.1 < second.1

instance (entries : Entries β) : Decidable entries.Ordered :=
  inferInstanceAs (Decidable (entries.Pairwise fun first second => first.1 < second.1))

/-! ### Lookup -/

theorem mem_of_lookup (found : entries.lookup name = some value) : (name, value) ∈ entries := by
  obtain ⟨front, back, rfl, -⟩ := List.lookup_eq_some_iff.mp found
  simp

theorem lookup_cons_of_ne {rest : Entries β} (apart : other ≠ name) :
    List.lookup other ((name, value) :: rest) = rest.lookup other := by
  have test : (other == name) = false := beq_eq_false_iff_ne.mpr apart
  rw [List.lookup_cons, test]

/-- Where no name stands twice, what stands under a name is found. -/
theorem lookup_of_distinct (distinct : (entries.map Prod.fst).Nodup)
    (member : (name, value) ∈ entries) : entries.lookup name = some value := by
  induction entries with
  | nil => simp at member
  | cons entry rest ih =>
    obtain ⟨fresh, restDistinct⟩ := List.nodup_cons.mp distinct
    rcases List.mem_cons.mp member with rfl | inRest
    · simp
    · have apart : name ≠ entry.1 := fun same => fresh (same ▸ List.mem_map_of_mem inRest)
      rw [lookup_cons_of_ne apart]
      exact ih restDistinct inRest

section Related

variable {γ : Type} {others : Entries γ} {related : String × β → String × γ → Prop}

section

variable (each : List.Forall₂ related entries others)
  (names : ∀ entry result, related entry result → entry.1 = result.1)

include each names

theorem names_of_forall₂ : others.map Prod.fst = entries.map Prod.fst := by
  induction each with
  | nil => rfl
  | cons both _ ih => simp [names _ _ both, ih]

/-- Related entries of the same names are found under the same names. -/
theorem lookup_of_forall₂ (name : String) :
    (entries.lookup name = none ∧ others.lookup name = none) ∨
      ∃ value result, entries.lookup name = some value ∧ others.lookup name = some result ∧
        related (name, value) (name, result) := by
  induction each with
  | nil => exact .inl ⟨rfl, rfl⟩
  | @cons entry result _ _ both _ ih =>
    obtain ⟨key, value⟩ := entry
    obtain ⟨key', value'⟩ := result
    obtain rfl : key = key' := names _ _ both
    by_cases same : name = key
    · subst same
      exact .inr ⟨value, value', by simp, by simp, both⟩
    · rwa [lookup_cons_of_ne same, lookup_cons_of_ne same]

end

theorem lookup_isSome_of_names (names : others.map Prod.fst = entries.map Prod.fst)
    (name : String) : (others.lookup name).isSome = (entries.lookup name).isSome := by
  rw [← List.forall₂_eq_eq_eq, List.forall₂_map_left_iff, List.forall₂_map_right_iff] at names
  rcases lookup_of_forall₂ names (fun _ _ => id) name with
    ⟨missing, missing'⟩ | ⟨_, _, found, found', -⟩
  · simp [missing, missing']
  · simp [found, found']

end Related

@[simp] theorem lookup_insert_self (entries : Entries β) (name : String) (value : β) :
    (insert name value entries).lookup name = some value := by
  induction entries with
  | nil => simp [insert]
  | cons entry rest ih =>
    obtain ⟨head, kept⟩ := entry
    by_cases found : name = head
    · simp [insert, found]
    · by_cases before : name < head
      · simp [insert, found, before]
      · simpa [insert, found, before, lookup_cons_of_ne found] using ih

theorem lookup_insert_of_ne (entries : Entries β) (value : β) (apart : other ≠ name) :
    (insert name value entries).lookup other = entries.lookup other := by
  induction entries with
  | nil => simp [insert, lookup_cons_of_ne apart]
  | cons entry rest ih =>
    obtain ⟨head, kept⟩ := entry
    by_cases found : name = head
    · subst found
      simp [insert, lookup_cons_of_ne apart]
    · by_cases before : name < head
      · simp [insert, found, before, lookup_cons_of_ne apart]
      · by_cases same : other = head
        · simp [insert, found, before, same]
        · simpa [insert, found, before, lookup_cons_of_ne same] using ih

@[simp] theorem lookup_erase_self (entries : Entries β) (name : String) :
    (erase entries name).lookup name = none := by
  rw [List.lookup_eq_none_iff]
  intro entry member
  have different : entry.1 ≠ name := by simpa using (List.mem_filter.mp member).2
  simpa using different.symm

theorem lookup_erase_of_ne (entries : Entries β) (apart : other ≠ name) :
    (erase entries name).lookup other = entries.lookup other := by
  induction entries with
  | nil => rfl
  | cons entry rest ih =>
    obtain ⟨head, kept⟩ := entry
    unfold erase at ih ⊢
    by_cases dropped : head = name
    · subst dropped
      simpa [lookup_cons_of_ne apart] using ih
    · by_cases same : other = head
      · subst same
        simp [dropped]
      · simpa [dropped, lookup_cons_of_ne same] using ih

theorem mem_insert (member : entry ∈ insert name value entries) :
    entry = (name, value) ∨ entry ∈ entries := by
  induction entries with
  | nil => simpa [insert] using member
  | cons head rest ih =>
    obtain ⟨other, kept⟩ := head
    unfold insert at member
    split_ifs at member with same before
    · rcases List.mem_cons.mp member with new | old
      · exact .inl new
      · exact .inr (List.mem_cons_of_mem _ old)
    · exact List.mem_cons.mp member
    · rcases List.mem_cons.mp member with first | later
      · exact .inr (by simp [first])
      · exact (ih later).imp_right (List.mem_cons_of_mem _)

theorem insert_insert (entries : Entries β) (name : String) (value replaced : β) :
    insert name value (insert name replaced entries) = insert name value entries := by
  induction entries with
  | nil => simp [insert]
  | cons head rest ih =>
    obtain ⟨other, kept⟩ := head
    by_cases same : name = other
    · simp only [insert, if_pos same, if_true]
    · by_cases before : name < other
      · simp only [insert, if_neg same, if_pos before, if_true]
      · simp only [insert, if_neg same, if_neg before, ih]

theorem insert_perm (fresh : name ∉ entries.map Prod.fst) (value : β) :
    (insert name value entries).Perm ((name, value) :: entries) := by
  induction entries with
  | nil => exact .refl _
  | cons head rest ih =>
    obtain ⟨other, kept⟩ := head
    obtain ⟨apart, missing⟩ := not_or.mp (mt List.mem_cons.mpr fresh)
    unfold insert
    split_ifs with same before
    · exact absurd same apart
    · exact .refl _
    · exact ((ih missing).cons _).trans (.swap _ _ _)

theorem mem_erase : entry ∈ erase entries name ↔ entry ∈ entries ∧ entry.1 ≠ name := by
  simp [erase]

/-! ### Order -/

theorem Ordered.distinct (ordered : entries.Ordered) : (entries.map Prod.fst).Nodup :=
  List.pairwise_map.mpr (List.Pairwise.imp ne_of_lt ordered)

/-- Under distinct names, each entry is the one found by its name. -/
theorem Ordered.lookup_of_mem (ordered : entries.Ordered) (member : (name, value) ∈ entries) :
    entries.lookup name = some value :=
  lookup_of_distinct ordered.distinct member

/-- Entries in order are known by what is found in them. -/
theorem Ordered.ext {first second : Entries β} (one : first.Ordered) (two : second.Ordered)
    (same : ∀ name, first.lookup name = second.lookup name) : first = second := by
  have members : ∀ entry, entry ∈ first ↔ entry ∈ second := by
    rintro ⟨name, value⟩
    constructor
    · exact fun member => mem_of_lookup (same name ▸ one.lookup_of_mem member)
    · exact fun member => mem_of_lookup (same name ▸ two.lookup_of_mem member)
  have nodup : ∀ entries : Entries β, entries.Ordered → entries.Nodup := by
    intro entries ordered
    refine List.Pairwise.imp ?_ ordered
    rintro entry _ before rfl
    exact lt_irrefl _ before
  have perm : first.Perm second :=
    (List.perm_ext_iff_of_nodup (nodup first one) (nodup second two)).mpr members
  refine perm.eq_of_pairwise (fun a b _ _ before after => ?_) one two
  exact absurd (lt_trans before after) (lt_irrefl _)

theorem Ordered.insert (ordered : entries.Ordered) (name : String) (value : β) :
    (Entries.insert name value entries).Ordered := by
  induction entries with
  | nil => simp [Entries.insert, Ordered]
  | cons entry rest ih =>
    obtain ⟨head, kept⟩ := entry
    obtain ⟨later, restOrdered⟩ := List.pairwise_cons.mp ordered
    unfold Entries.insert
    split_ifs with same before
    · subst same
      exact List.pairwise_cons.mpr ⟨later, restOrdered⟩
    · refine List.pairwise_cons.mpr ⟨?_, ordered⟩
      intro entry member
      rcases List.mem_cons.mp member with rfl | inRest
      · exact before
      · exact lt_trans before (later entry inRest)
    · have after : head < name := lt_of_le_of_ne (not_lt.mp before) (Ne.symm same)
      refine List.pairwise_cons.mpr ⟨?_, ih restOrdered⟩
      intro entry member
      rcases mem_insert member with rfl | inRest
      · exact after
      · exact later entry inRest

theorem Ordered.erase (ordered : entries.Ordered) (name : String) :
    (Entries.erase entries name).Ordered :=
  List.Pairwise.filter _ ordered

private theorem insert_last (after : ∀ entry ∈ entries, entry.1 < name) (value : β) :
    insert name value entries = entries ++ [(name, value)] := by
  induction entries with
  | nil => rfl
  | cons entry rest ih =>
    obtain ⟨head, kept⟩ := entry
    have before : head < name := after (head, kept) List.mem_cons_self
    rw [insert, if_neg before.ne', if_neg before.asymm,
      ih (List.forall_mem_cons.mp after).2, List.cons_append]

/-- Entries in order are made of themselves. -/
theorem Ordered.ofList_eq (ordered : entries.Ordered) : ofList entries = entries := by
  -- The entries met so far stand before all others, so that each goes to the end.
  have extend : ∀ before : Entries β, Ordered (before ++ entries) →
      entries.foldl (fun made entry => Entries.insert entry.1 entry.2 made) before =
        before ++ entries := by
    clear ordered
    induction entries with
    | nil => simp
    | cons entry rest ih =>
      intro before ordered
      have last : ∀ other ∈ before, other.1 < entry.1 := fun other member =>
        (List.pairwise_append.mp ordered).2.2 other member entry List.mem_cons_self
      rw [List.foldl_cons, insert_last last, ih _ (by simpa using ordered)]
      simp
  exact extend [] ordered

/-- Order is a matter of the names alone. -/
theorem Ordered.of_names {γ : Type} {others : Entries γ} (ordered : entries.Ordered)
    (same : others.map Prod.fst = entries.map Prod.fst) : others.Ordered := by
  have names : (entries.map Prod.fst).Pairwise (· < ·) := List.pairwise_map.mpr ordered
  rw [← same] at names
  exact List.pairwise_map.mp names

end Pagewright.Entries

namespace Pagewright

variable {names : List String} {name : String}

/-! ### Names in order -/

theorem mem_insertName {other : String} :
    other ∈ insertName name names ↔ other = name ∨ other ∈ names := by
  induction names with
  | nil => simp [insertName]
  | cons first rest ih =>
    unfold insertName
    split_ifs with same before
    · simp [same]
    · simp
    · simp only [List.mem_cons, ih]
      exact or_left_comm

theorem insertName_increasing (increasing : names.Pairwise (· < ·)) :
    (insertName name names).Pairwise (· < ·) := by
  induction names with
  | nil => simp [insertName]
  | cons first rest ih =>
    obtain ⟨later, restIncreasing⟩ := List.pairwise_cons.mp increasing
    unfold insertName
    split_ifs with same before
    · exact increasing
    · refine List.pairwise_cons.mpr ⟨?_, increasing⟩
      intro other member
      rcases List.mem_cons.mp member with rfl | inRest
      · exact before
      · exact lt_trans before (later other inRest)
    · have after : first < name := lt_of_le_of_ne (not_lt.mp before) (Ne.symm same)
      refine List.pairwise_cons.mpr ⟨?_, ih restIncreasing⟩
      intro other member
      rcases mem_insertName.mp member with rfl | inRest
      · exact after
      · exact later other inRest

end Pagewright
