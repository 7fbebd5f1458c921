import Mathlib.Algebra.Order.BigOperators.Group.List
import Mathlib.Order.Interval.Finset.Nat
import Mathlib.Tactic.Abel
import Pagewright.Error
import Pagewright.Expression.Copy
import Pagewright.Proofs.Entries
import Pagewright.Proofs.Tree

/-!
# Keeping account of identifiers

A supply hands out identifiers in order. To see that none ends up in two places,
every step is given an account: the identifiers it starts out with, those in its
result, and those that the state keeps. A step balances if the latter two are
covered by what there was before and what has been handed out meanwhile, each
identifier as often as it is there. Steps that balance do so one after the
other.
-/

namespace Pagewright

/-! ### Identifiers of expressions -/

mutual

/-- The identifiers of an expression and of all expressions in its blocks, at any depth; `listed`
says whether blocks inside lists count as well. -/
def Expression.ids (listed : Bool) : Expression → Multiset ExpressionId
  | ⟨id, _, _, arguments⟩ => {id} + argumentsIds listed arguments

def argumentsIds (listed : Bool) : List (String × Argument) → Multiset ExpressionId
  | [] => 0
  | (_, value) :: rest => value.ids listed + argumentsIds listed rest

def Argument.ids (listed : Bool) : Argument → Multiset ExpressionId
  | .block children => blockIds listed children
  | .list items => if listed then itemsIds listed items else 0
  | .atom _ | .text _ | .number _ => 0

def blockIds (listed : Bool) : List Expression → Multiset ExpressionId
  | [] => 0
  | child :: rest => child.ids listed + blockIds listed rest

def itemsIds (listed : Bool) : List Argument → Multiset ExpressionId
  | [] => 0
  | item :: rest => item.ids listed + itemsIds listed rest

end

variable {listed : Bool} {first last middle : Nat} {result own more : Multiset ExpressionId}
  {condition : Prop} {e : Error}

theorem Expression.ids_eq (e : Expression) :
    e.ids listed = {e.id} + argumentsIds listed e.arguments := by
  obtain ⟨id, parent, kind, arguments⟩ := e
  simp only [Expression.ids]

theorem argumentsIds_eq (arguments : Arguments) :
    argumentsIds listed arguments = (arguments.map fun entry => entry.2.ids listed).sum := by
  induction arguments with
  | nil => simp [argumentsIds]
  | cons entry rest ih => simp [argumentsIds, ih]

theorem blockIds_eq (children : List Expression) :
    blockIds listed children = (children.map (Expression.ids listed)).sum := by
  induction children with
  | nil => simp [blockIds]
  | cons child rest ih => simp [blockIds, ih]

theorem itemsIds_eq (items : List Argument) :
    itemsIds listed items = (items.map (Argument.ids listed)).sum := by
  induction items with
  | nil => simp [itemsIds]
  | cons item rest ih => simp [itemsIds, ih]

mutual

/-- Without the blocks in lists there are fewer identifiers. -/
theorem Expression.ids_le : (e : Expression) → e.ids listed ≤ e.ids true
  | ⟨_, _, _, arguments⟩ => by
    simp only [Expression.ids]
    exact add_le_add le_rfl (argumentsIds_le arguments)

private theorem argumentsIds_le : (arguments : Arguments) →
    argumentsIds listed arguments ≤ argumentsIds true arguments
  | [] => by simp only [argumentsIds, le_refl]
  | (_, value) :: rest => by
    simp only [argumentsIds]
    exact add_le_add value.ids_le (argumentsIds_le rest)

theorem Argument.ids_le : (value : Argument) → value.ids listed ≤ value.ids true
  | .block children => by
    simp only [Argument.ids]
    exact blockIds_le children
  | .list items => by
    simp only [Argument.ids, if_true]
    split_ifs
    · exact itemsIds_le items
    · exact Multiset.zero_le _
  | .atom _ | .text _ | .number _ => by simp only [Argument.ids, le_refl]

theorem blockIds_le : (children : List Expression) →
    blockIds listed children ≤ blockIds true children
  | [] => by simp only [blockIds, le_refl]
  | child :: rest => by
    simp only [blockIds]
    exact add_le_add child.ids_le (blockIds_le rest)

private theorem itemsIds_le : (items : List Argument) → itemsIds listed items ≤ itemsIds true items
  | [] => by simp only [itemsIds, le_refl]
  | item :: rest => by
    simp only [itemsIds]
    exact add_le_add item.ids_le (itemsIds_le rest)

end

/-- Fewer arguments have fewer identifiers. -/
theorem argumentsIds_sublist {arguments fewer : Arguments}
    (sublist : fewer.Sublist arguments) :
    argumentsIds listed fewer ≤ argumentsIds listed arguments := by
  rw [argumentsIds_eq, argumentsIds_eq]
  exact (sublist.map _).sum_le_sum fun ids _ => Multiset.zero_le ids

theorem argumentsIds_insert (name : String) (value : Argument) (arguments : Arguments) :
    argumentsIds listed (Entries.insert name value arguments) ≤
      value.ids listed + argumentsIds listed arguments := by
  induction arguments with
  | nil => simp [Entries.insert, argumentsIds]
  | cons entry rest ih =>
    obtain ⟨other, kept⟩ := entry
    unfold Entries.insert
    split_ifs with same before
    · -- the value that stood here goes
      simp only [argumentsIds]
      gcongr
      exact Multiset.le_add_left _ _
    · simp only [argumentsIds, le_refl]
    · simp only [argumentsIds]
      calc kept.ids listed + argumentsIds listed (Entries.insert name value rest)
          ≤ kept.ids listed + (value.ids listed + argumentsIds listed rest) := by gcongr
        _ = value.ids listed + (kept.ids listed + argumentsIds listed rest) := by abel

/-! ### Identifiers that were handed out -/

/-- The identifiers handed out while the count goes from `first` to `last`. -/
def issued (first last : Nat) : Multiset ExpressionId :=
  (Multiset.Ico first last).map Nat.toUInt32

theorem issued_add (start : first ≤ middle) (rest : middle ≤ last) :
    issued first middle + issued middle last = issued first last := by
  unfold issued
  rw [← Multiset.map_add, Multiset.Ico_add_Ico_eq_Ico start rest]

theorem issued_subsets (start : first ≤ middle) (rest : middle ≤ last) :
    issued first middle ⊆ issued first last ∧ issued middle last ⊆ issued first last := by
  rw [← issued_add start rest]
  exact ⟨Multiset.subset_of_le (Multiset.le_add_right _ _),
    Multiset.subset_of_le (Multiset.le_add_left _ _)⟩

theorem issued_succ (count : Nat) : issued count (count + 1) = {count.toUInt32} := by
  simp [issued, Multiset.Ico]

theorem issued_range' (first count : Nat) :
    issued first (first + count) = (List.range' first count).map Nat.toUInt32 := by
  show Multiset.map _ (List.range' first (first + count - first) : Multiset Nat) = _
  rw [Nat.add_sub_cancel_left]
  rfl

/-- As long as the count fits into an identifier, none is handed out twice. -/
theorem issued_nodup (fits : last ≤ UInt32.size) : (issued first last).Nodup := by
  apply Multiset.Nodup.map_on ?_ (Multiset.nodup_Ico)
  intro one isOne two isTwo same
  have oneFits : one < UInt32.size := lt_of_lt_of_le (Multiset.mem_Ico.mp isOne).2 fits
  have twoFits : two < UInt32.size := lt_of_lt_of_le (Multiset.mem_Ico.mp isTwo).2 fits
  have values := congrArg UInt32.toNat same
  rwa [Nat.toUInt32_eq, Nat.toUInt32_eq, UInt32.toNat_ofNat_of_lt' oneFits,
    UInt32.toNat_ofNat_of_lt' twoFits] at values

/-! ### Accounts -/

/-- What an account needs to know of a state: the count of its supply, and the expressions that it
keeps. -/
structure Ledger (σ : Type) where
  next : σ → Nat
  kept : σ → List (String × Expression)

namespace Ledger

variable {σ α β : Type} (ledger : Ledger σ)

def keptIds (s : σ) : Multiset ExpressionId :=
  ((ledger.kept s).map fun entry => entry.2.ids false).sum

/-- From `s` to `s'` the identifiers `own` became `result`, besides new ones and those that are
kept. -/
structure Carries (own result : Multiset ExpressionId) (s s' : σ) : Prop where
  next : ledger.next s ≤ ledger.next s'
  kept : ledger.kept s ⊆ ledger.kept s'
  covered : result + ledger.keptIds s' ≤
    own + ledger.keptIds s + issued (ledger.next s) (ledger.next s')

/-- A step that makes a result with the identifiers `ids` out of the identifiers `own`, or nothing at
all if it fails. -/
def Balances (own : Multiset ExpressionId) (ids : α → Multiset ExpressionId)
    (step : EStateM Error σ α) : Prop :=
  ∀ s, match step s with
    | .ok a s' => ledger.Carries own (ids a) s s'
    | .error _ s' => ledger.Carries own 0 s s'

variable {ledger}

theorem Carries.refl (fewer : result ≤ own) (s : σ) : ledger.Carries own result s s := by
  refine ⟨le_rfl, List.Subset.refl _, ?_⟩
  calc result + ledger.keptIds s ≤ own + ledger.keptIds s := by gcongr
    _ ≤ own + ledger.keptIds s + issued (ledger.next s) (ledger.next s) :=
        Multiset.le_add_right _ _

theorem Carries.imp {fewer : Multiset ExpressionId} {s s' : σ}
    (carried : ledger.Carries own result s s') (start : own ≤ more) (last : fewer ≤ result) :
    ledger.Carries more fewer s s' := by
  refine ⟨carried.next, carried.kept, ?_⟩
  calc fewer + ledger.keptIds s' ≤ result + ledger.keptIds s' := by gcongr
    _ ≤ own + ledger.keptIds s + issued (ledger.next s) (ledger.next s') := carried.covered
    _ ≤ more + ledger.keptIds s + issued (ledger.next s) (ledger.next s') := by gcongr

theorem Carries.trans {middle rest : Multiset ExpressionId} {s t u : σ}
    (first : ledger.Carries own middle s t) (later : ledger.Carries (middle + rest) result t u) :
    ledger.Carries (own + rest) result s u := by
  refine ⟨first.next.trans later.next, List.Subset.trans first.kept later.kept, ?_⟩
  calc result + ledger.keptIds u
      ≤ middle + rest + ledger.keptIds t + issued (ledger.next t) (ledger.next u) := later.covered
    _ = (middle + ledger.keptIds t) + (rest + issued (ledger.next t) (ledger.next u)) := by abel
    _ ≤ (own + ledger.keptIds s + issued (ledger.next s) (ledger.next t)) +
          (rest + issued (ledger.next t) (ledger.next u)) :=
        add_le_add first.covered le_rfl
    _ = own + rest + ledger.keptIds s +
          (issued (ledger.next s) (ledger.next t) + issued (ledger.next t) (ledger.next u)) := by
        abel
    _ = own + rest + ledger.keptIds s + issued (ledger.next s) (ledger.next u) := by
        rw [issued_add first.next later.next]

namespace Balances

variable {own rest : Multiset ExpressionId} {ids : α → Multiset ExpressionId}
  {step : EStateM Error σ α}

theorem ok (balances : ledger.Balances own ids step) {s s' : σ} {a : α}
    (run : step s = .ok a s') : ledger.Carries own (ids a) s s' := by
  have outcome := balances s
  rwa [run] at outcome

theorem error (balances : ledger.Balances own ids step) {s s' : σ} {e : Error}
    (run : step s = .error e s') : ledger.Carries own 0 s s' := by
  have outcome := balances s
  rwa [run] at outcome

theorem pure {a : α} (fewer : ids a ≤ own) :
    ledger.Balances own ids (pure a : EStateM Error σ α) :=
  fun s => Carries.refl fewer s

theorem throw : ledger.Balances own ids (throw e : EStateM Error σ α) :=
  fun s => Carries.refl (Multiset.zero_le own) s

theorem get : ledger.Balances own (fun _ => own) (get : EStateM Error σ σ) :=
  fun s => Carries.refl le_rfl s

/-- What a step gives back is what the next one starts out with; anything else is left alone
meanwhile. -/
theorem bind {next : α → EStateM Error σ β} {result : β → Multiset ExpressionId}
    (first : ledger.Balances own ids step)
    (later : ∀ a, ledger.Balances (ids a + rest) result (next a)) :
    ledger.Balances (own + rest) result (step >>= next) := by
  intro s
  show match EStateM.bind step next s with
    | .ok b s' => ledger.Carries (own + rest) (result b) s s'
    | .error _ s' => ledger.Carries (own + rest) 0 s s'
  unfold EStateM.bind
  cases ran : step s with
  | error e t => exact (first.error ran).imp (Multiset.le_add_right own rest) le_rfl
  | ok a t =>
    have carried := first.ok ran
    dsimp only
    cases run : next a t with
    | ok b u => exact carried.trans ((later a).ok run)
    | error e u => exact carried.trans ((later a).error run)

theorem imp {fewer : α → Multiset ExpressionId} (balances : ledger.Balances own ids step)
    (start : own ≤ more) (result : ∀ a, fewer a ≤ ids a) : ledger.Balances more fewer step := by
  intro s
  cases run : step s with
  | error e s' => exact (balances.error run).imp start le_rfl
  | ok a s' => exact (balances.ok run).imp start (result a)

/-- A step that is only followed by something that leaves identifiers alone. -/
theorem andThen {next : α → EStateM Error σ β} {result : β → Multiset ExpressionId}
    (first : ledger.Balances own ids step)
    (later : ∀ a, ledger.Balances (ids a) result (next a)) :
    ledger.Balances own result (step >>= next) := by
  rw [← add_zero own]
  apply first.bind
  intro a
  rw [add_zero]
  exact later a

private theorem map {f : α → β} {result : β → Multiset ExpressionId}
    (balances : ledger.Balances own ids step) (fewer : ∀ a, result (f a) ≤ ids a) :
    ledger.Balances own result (f <$> step) := by
  intro s
  show match EStateM.map f step s with
    | .ok b s' => ledger.Carries own (result b) s s'
    | .error _ s' => ledger.Carries own 0 s s'
  unfold EStateM.map
  cases run : step s with
  | error e s' => exact balances.error run
  | ok a s' => exact (balances.ok run).imp le_rfl (fewer a)

theorem discard {less : Multiset ExpressionId} (balances : ledger.Balances own ids step)
    (fewer : ∀ a, less ≤ ids a) :
    ledger.Balances own (fun _ : PUnit => less) (discard step) :=
  balances.map fewer

theorem ofExcept {result : Except Error α} (fewer : ∀ a, result = .ok a → ids a ≤ own) :
    ledger.Balances own ids (ofExcept result : EStateM Error σ α) := by
  cases result with
  | error e => exact throw
  | ok a => exact pure (fewer a rfl)

theorem adaptExcept (balances : ledger.Balances own ids step) (f : Error → Error) :
    ledger.Balances own ids (step.adaptExcept f) := by
  intro s
  unfold EStateM.adaptExcept
  cases run : step s with
  | error e s' => exact balances.error run
  | ok a s' => exact balances.ok run

theorem ite [Decidable condition] {first second : EStateM Error σ α}
    (yes : ledger.Balances own ids first) (no : ledger.Balances own ids second) :
    ledger.Balances own ids (if condition then first else second) := by
  split
  · exact yes
  · exact no

/-- What follows a test that may fail. -/
theorem check [Decidable condition] (later : ledger.Balances own ids step) :
    ledger.Balances own ids
      (if condition then (MonadExcept.throw e : EStateM Error σ Unit) >>= fun _ => step
        else step) := by
  apply ite ?_ later
  have fails : ledger.Balances own (fun _ => own) (MonadExcept.throw e : EStateM Error σ Unit) :=
    throw
  exact fails.andThen fun _ => later

/-- The same step over a list. -/
theorem mapM {xs : List α} {step : α → EStateM Error σ β} {start : α → Multiset ExpressionId}
    {result : β → Multiset ExpressionId}
    (each : ∀ x ∈ xs, ledger.Balances (start x) result (step x)) :
    ledger.Balances (xs.map start).sum (fun ys => (ys.map result).sum) (xs.mapM step) := by
  induction xs with
  | nil =>
    rw [List.mapM_nil]
    exact pure le_rfl
  | cons x xs ih =>
    rw [List.mapM_cons, List.map_cons, List.sum_cons]
    apply (each x (by simp)).bind
    intro y
    have others := ih (List.forall_mem_cons.mp each).2
    rw [add_comm]
    apply others.bind
    intro ys
    apply pure
    rw [List.map_cons, List.sum_cons, add_comm]

end Balances

end Ledger

end Pagewright
