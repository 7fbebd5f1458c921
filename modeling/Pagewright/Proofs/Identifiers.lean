import Pagewright.Proofs.Ledger
import Pagewright.Proofs.Resolution

/-!
# The identifiers of resolved definitions

A copy has new identifiers only. Substitution keeps those that were there and
copies the rest, and merging takes over what the definition's instance has. So a
reference gives an instance of new identifiers, each of them once
(`referWithin_balances`).

Blocks inside lists are not counted here. Two lists may be joined into one, and
nothing that an export contains has a block in a list.
-/

namespace Pagewright

open Outcome

variable {listed : Bool} {s t u : Supply} {ids more result : Multiset ExpressionId}
  {w : Workshop}

/-! ### Copies -/

/-- New identifiers only, each of them once. -/
structure Issues (ids : Multiset ExpressionId) (s s' : Supply) : Prop where
  next : s.next ≤ s'.next
  fresh : ids ≤ issued s.next s'.next

private theorem Issues.none (s : Supply) : Issues 0 s s :=
  ⟨le_rfl, Multiset.zero_le _⟩

private theorem Issues.take (s : Supply) : Issues {s.next.toUInt32} s ⟨s.next + 1⟩ :=
  ⟨Nat.le_succ _, le_of_eq (issued_succ s.next).symm⟩

theorem Issues.trans (first : Issues ids s t) (later : Issues more t u) :
    Issues (ids + more) s u := by
  refine ⟨first.next.trans later.next, ?_⟩
  rw [← issued_add first.next later.next]
  exact add_le_add first.fresh later.fresh

private theorem Issues.fewer (issues : Issues ids s t) (covered : more ≤ ids) : Issues more s t :=
  ⟨issues.next, covered.trans issues.fresh⟩

/-- All new identifiers, each of them once. -/
structure UsesUp (ids : Multiset ExpressionId) (s s' : Supply) : Prop where
  next : s.next ≤ s'.next
  exact : ids = issued s.next s'.next

theorem UsesUp.none (s : Supply) : UsesUp 0 s s :=
  ⟨le_rfl, by simp [issued]⟩

private theorem UsesUp.take (s : Supply) : UsesUp {s.next.toUInt32} s ⟨s.next + 1⟩ :=
  ⟨Nat.le_succ _, (issued_succ s.next).symm⟩

theorem UsesUp.trans (first : UsesUp ids s t) (later : UsesUp more t u) :
    UsesUp (ids + more) s u := by
  refine ⟨first.next.trans later.next, ?_⟩
  rw [first.exact, later.exact, issued_add first.next later.next]

private theorem UsesUp.issues (uses : UsesUp ids s t) (covered : more ≤ ids) : Issues more s t :=
  ⟨uses.next, covered.trans_eq uses.exact⟩

mutual

private theorem Expression.copy_usesUp : (e : Expression) → (parent : Option ExpressionId) →
    (s : Supply) → UsesUp ((e.copy parent s).1.ids true) s (e.copy parent s).2
  | ⟨_, _, kind, arguments⟩, parent, s => by
    simp only [Expression.copy, Supply.take, Expression.ids]
    exact (UsesUp.take s).trans (copyArguments_usesUp arguments _ _)

private theorem copyArguments_usesUp : (arguments : Arguments) → (owner : ExpressionId) →
    (s : Supply) →
    UsesUp (argumentsIds true (copyArguments arguments owner s).1) s
      (copyArguments arguments owner s).2
  | [], owner, s => by
    simp only [copyArguments, argumentsIds]
    exact .none s
  | (name, value) :: rest, owner, s => by
    simp only [copyArguments, argumentsIds]
    exact (value.copy_usesUp owner s).trans (copyArguments_usesUp rest owner _)

theorem Argument.copy_usesUp : (value : Argument) → (owner : ExpressionId) → (s : Supply) →
    UsesUp ((value.copy owner s).1.ids true) s (value.copy owner s).2
  | .block children, owner, s => by
    simp only [Argument.copy, Argument.ids]
    exact copyBlock_usesUp children owner s
  | .list items, owner, s => by
    simp only [Argument.copy, Argument.ids, if_true]
    exact copyItems_usesUp items owner s
  | .atom _, _, s | .text _, _, s | .number _, _, s => by
    simp only [Argument.copy, Argument.ids]
    exact .none s

theorem copyBlock_usesUp : (children : List Expression) → (owner : ExpressionId) → (s : Supply) →
    UsesUp (blockIds true (copyBlock children owner s).1) s (copyBlock children owner s).2
  | [], owner, s => by
    simp only [copyBlock, blockIds]
    exact .none s
  | child :: rest, owner, s => by
    simp only [copyBlock, blockIds]
    exact (child.copy_usesUp (some owner) s).trans (copyBlock_usesUp rest owner _)

private theorem copyItems_usesUp : (items : List Argument) → (owner : ExpressionId) → (s : Supply) →
    UsesUp (itemsIds true (copyItems items owner s).1) s (copyItems items owner s).2
  | [], owner, s => by
    simp only [copyItems, itemsIds]
    exact .none s
  | item :: rest, owner, s => by
    simp only [copyItems, itemsIds]
    exact (item.copy_usesUp owner s).trans (copyItems_usesUp rest owner _)

end

private theorem Expression.copy_issues (e : Expression) (parent : Option ExpressionId)
    (s : Supply) : Issues ((e.copy parent s).1.ids listed) s (e.copy parent s).2 :=
  (e.copy_usesUp parent s).issues (Expression.ids_le _)

private theorem Expression.unset_ids (e : Expression) (name : String) :
    (e.unset name).ids listed ≤ e.ids listed := by
  rw [Expression.ids_eq, Expression.ids_eq]
  exact add_le_add le_rfl (argumentsIds_sublist List.filter_sublist)

theorem Expression.set_ids (e : Expression) (name : String) (value : Argument) :
    (e.set name value).ids listed ≤ e.ids listed + value.ids listed := by
  rw [Expression.ids_eq, Expression.ids_eq e]
  calc {(e.set name value).id} + argumentsIds listed (Entries.insert name value e.arguments)
      ≤ {e.id} + (value.ids listed + argumentsIds listed e.arguments) :=
        add_le_add le_rfl (argumentsIds_insert name value e.arguments)
    _ = {e.id} + argumentsIds listed e.arguments + value.ids listed := by abel

theorem makeRows_issues (item : Expression) (owner : ExpressionId) (count index : Nat)
    (s : Supply) :
    Issues (blockIds false (makeRows item owner count index s).1) s
      (makeRows item owner count index s).2 := by
  induction count generalizing index s with
  | zero =>
    simp only [makeRows, blockIds]
    exact .none s
  | succ count ih =>
    simp only [makeRows, Supply.take, blockIds, Expression.ids, argumentsIds, Argument.ids, add_zero]
    apply ((Issues.take s).trans ?_).trans (ih (index + 1) _)
    exact (item.copy_issues (some s.next.toUInt32) ⟨s.next + 1⟩).fewer
      (Expression.unset_ids _ "defines")

/-! ### Substitution -/

/-- The account of steps that do nothing but take identifiers. -/
def supplyLedger : Ledger Supply :=
  { next := Supply.next, kept := fun _ => [] }

theorem balances_modifyGet {α : Type} {ids : α → Multiset ExpressionId}
    {make : Supply → α × Supply} (issues : ∀ s, Issues (ids (make s).1) s (make s).2) :
    supplyLedger.Balances 0 ids (modifyGet make) := by
  intro s
  refine ⟨(issues s).next, List.Subset.refl _, ?_⟩
  show ids (make s).1 + 0 ≤ 0 + 0 + issued s.next (make s).2.next
  simpa using (issues s).fresh

/-- As this account keeps nothing, what is not counted can be left out of it. -/
theorem balances_uncounted {α : Type} {own : Multiset ExpressionId}
    {ids : α → Multiset ExpressionId} {step : EStateM Error Supply α}
    (balances : supplyLedger.Balances own ids step) :
    supplyLedger.Balances 0 (fun _ => 0) step := by
  have nothing : ∀ {result s s'}, supplyLedger.Carries own result s s' →
      supplyLedger.Carries 0 0 s s' :=
    fun carried => ⟨carried.next, List.Subset.refl _, Multiset.zero_le _⟩
  intro s
  cases run : step s with
  | error e s' => exact nothing (balances.error run)
  | ok a s' => exact nothing (balances.ok run)

mutual

private theorem substitute_balances (bindings : Bindings) : (e : Expression) →
    supplyLedger.Balances (e.ids false) (Expression.ids false) (substitute bindings e)
  | ⟨id, parent, kind, arguments⟩ => by
    simp only [substitute, Expression.ids]
    rw [add_comm]
    apply (substituteArguments_balances bindings id arguments).bind
    intro arguments
    apply Ledger.Balances.pure
    simp only [Expression.ids, add_comm, le_refl]

private theorem substituteArguments_balances (bindings : Bindings) (owner : ExpressionId) :
    (arguments : Arguments) →
    supplyLedger.Balances (argumentsIds false arguments) (argumentsIds false)
      (substituteArguments bindings owner arguments)
  | [] => by
    simp only [substituteArguments]
    exact .pure le_rfl
  | (name, value) :: rest => by
    simp only [substituteArguments, argumentsIds]
    apply (substituteArgument_balances bindings owner value).bind
    intro value
    rw [add_comm]
    apply (substituteArguments_balances bindings owner rest).bind
    intro rest
    apply Ledger.Balances.pure
    simp only [argumentsIds, add_comm, le_refl]

private theorem substituteArgument_balances (bindings : Bindings) (owner : ExpressionId) :
    (value : Argument) →
    supplyLedger.Balances (value.ids false) (Argument.ids false)
      (substituteArgument bindings owner value)
  | .atom name => by
    simp only [substituteArgument, Argument.ids]
    cases bindings.lookup name with
    | none => exact .pure le_rfl
    | some actual =>
      exact balances_modifyGet fun s => (actual.copy_usesUp owner s).issues (Argument.ids_le _)
  | .list items => by
    simp only [substituteArgument, Argument.ids]
    apply (substituteItems_balances bindings owner items).andThen
    intro items
    exact .pure le_rfl
  | .block children => by
    simp only [substituteArgument, Argument.ids]
    apply (substituteBlock_balances bindings owner children).andThen
    intro children
    exact .pure le_rfl
  | .text _ | .number _ => by
    simp only [substituteArgument]
    exact .pure le_rfl

/-- Nothing in a list counts. -/
theorem substituteItems_balances (bindings : Bindings) (owner : ExpressionId) :
    (items : List Argument) →
    supplyLedger.Balances 0 (fun _ => 0) (substituteItems bindings owner items)
  | [] => by
    simp only [substituteItems]
    exact .pure le_rfl
  | item :: rest => by
    simp only [substituteItems]
    apply (balances_uncounted (substituteArgument_balances bindings owner item)).andThen
    intro item
    apply (substituteItems_balances bindings owner rest).andThen
    intro rest
    exact .pure le_rfl

private theorem substituteBlock_balances (bindings : Bindings) (owner : ExpressionId) :
    (children : List Expression) →
    supplyLedger.Balances (blockIds false children) (blockIds false)
      (substituteBlock bindings owner children)
  | [] => by
    simp only [substituteBlock]
    exact .pure le_rfl
  | child :: rest => by
    have first := substitute_balances bindings child
    have later := substituteBlock_balances bindings owner rest
    simp only [substituteBlock, blockIds]
    cases bindings.lookup child.kind with
    | none =>
      apply first.bind
      intro child
      rw [add_comm]
      apply later.bind
      intro rest
      apply Ledger.Balances.pure
      simp only [blockIds, add_comm, le_refl]
    | some actual =>
      cases actual with
      | atom kind =>
        apply first.bind
        intro child
        rw [add_comm]
        apply later.bind
        intro rest
        apply Ledger.Balances.pure
        simp only [blockIds, Expression.ids_eq, add_comm, le_refl]
      | block replacement =>
        -- the child gives way to copies, so its own identifiers are gone
        apply Ledger.Balances.check
        have spliced : supplyLedger.Balances 0 (blockIds false)
            (modifyGet (copyBlock replacement owner)) :=
          balances_modifyGet fun s => (copyBlock_usesUp replacement owner s).issues (blockIds_le _)
        have dropped : 0 + blockIds false rest ≤ child.ids false + blockIds false rest :=
          add_le_add (Multiset.zero_le _) le_rfl
        apply Ledger.Balances.imp ?_ dropped fun _ => le_rfl
        apply spliced.bind
        intro spliced
        rw [add_comm]
        apply later.bind
        intro rest
        apply Ledger.Balances.pure
        simp only [blockIds_eq, List.map_append, List.sum_append, add_comm, le_refl]
      | text | number | list => exact .throw

end

/-! ### Merging -/

private theorem Argument.adopt_ids (value : Argument) (owner : ExpressionId) :
    (value.adopt owner).ids false = value.ids false := by
  cases value with
  | block children =>
    simp only [Argument.adopt, Argument.ids, blockIds_eq, List.map_map]
    congr 2
    funext child
    simp only [Function.comp_apply, Expression.ids_eq]
  | list items => simp [Argument.adopt, Argument.ids]
  | atom | text | number => simp [Argument.adopt]

private theorem mergeArgument_ids (owner : ExpressionId) (own : Arguments) (name : String)
    (value : Argument) :
    argumentsIds false (mergeArgument owner own name value) ≤
      argumentsIds false own + value.ids false := by
  rcases mergeArgument_cases owner own name value with
    same | ⟨-, -, added⟩ | ⟨items, taken, -, -, -, -, joined⟩
  · rw [same]
    exact Multiset.le_add_right _ _
  · rw [added, add_comm, ← value.adopt_ids owner]
    exact argumentsIds_insert _ _ _
  · rw [joined]
    calc argumentsIds false (Entries.insert name (.list (items ++ taken)) own)
        ≤ (Argument.list (items ++ taken)).ids false + argumentsIds false own :=
          argumentsIds_insert _ _ _
      _ = argumentsIds false own := by simp [Argument.ids]
      _ ≤ argumentsIds false own + value.ids false := Multiset.le_add_right _ _

private theorem merge_ids (child parent : Expression) :
    (merge child parent).ids false ≤ child.ids false + parent.ids false := by
  have taken : ∀ own : Arguments, argumentsIds false
      (parent.arguments.foldl (fun own entry => mergeArgument child.id own entry.1 entry.2) own) ≤
        argumentsIds false own + argumentsIds false parent.arguments := by
    intro own
    induction parent.arguments generalizing own with
    | nil => simp [argumentsIds]
    | cons entry rest ih =>
      obtain ⟨name, value⟩ := entry
      simp only [List.foldl_cons, argumentsIds]
      calc _ ≤ argumentsIds false (mergeArgument child.id own name value) +
              argumentsIds false rest := ih _
        _ ≤ argumentsIds false own + value.ids false + argumentsIds false rest :=
            add_le_add (mergeArgument_ids _ _ _ _) le_rfl
        _ = _ := by abel
  rw [Expression.ids_eq, Expression.ids_eq child, Expression.ids_eq parent]
  calc {child.id} + argumentsIds false (merge child parent).arguments
      ≤ {child.id} + (argumentsIds false (Entries.erase child.arguments "inherits") +
          argumentsIds false parent.arguments) := add_le_add le_rfl (taken _)
    _ ≤ {child.id} + (argumentsIds false child.arguments +
          ({parent.id} + argumentsIds false parent.arguments)) := by
        gcongr
        · exact argumentsIds_sublist List.filter_sublist
        · exact Multiset.le_add_left _ _
    _ = _ := by abel

/-! ### References -/

/-- The account of building: finished instances are kept. -/
def workshopLedger : Ledger Workshop :=
  { next := fun w => w.ids.next, kept := Workshop.finished }

section

variable {α : Type} {own : Multiset ExpressionId} {ids : α → Multiset ExpressionId}

private theorem carries_ids (carried : supplyLedger.Carries own result w.ids s) :
    workshopLedger.Carries own result w { w with ids := s } := by
  refine ⟨carried.next, List.Subset.refl _, ?_⟩
  have covered : result + 0 ≤ own + 0 + issued w.ids.next s.next := carried.covered
  rw [add_zero, add_zero] at covered
  show result + workshopLedger.keptIds w ≤
    own + workshopLedger.keptIds w + issued w.ids.next s.next
  calc result + workshopLedger.keptIds w
      ≤ own + issued w.ids.next s.next + workshopLedger.keptIds w := add_le_add covered le_rfl
    _ = own + workshopLedger.keptIds w + issued w.ids.next s.next := by abel

/-- Markers, stacks and files are not in the account. -/
theorem carries_same {w' u u' : Workshop} (carried : workshopLedger.Carries own result w w')
    (ids : u.ids = w.ids) (finished : u.finished = w.finished) (ids' : u'.ids = w'.ids)
    (finished' : u'.finished = w'.finished) : workshopLedger.Carries own result u u' := by
  obtain ⟨next, kept, covered⟩ := carried
  constructor <;> simp_all [workshopLedger, Ledger.keptIds]

private theorem balances_within {σ : Type} {enter : Workshop → σ} {leave : Workshop → σ → Workshop}
    {action : EStateM Error σ α}
    (done : ∀ w a s, action (enter w) = .ok a s →
      workshopLedger.Carries own (ids a) w (leave w s))
    (failed : ∀ w e s, action (enter w) = .error e s →
      workshopLedger.Carries own 0 w (leave w s)) :
    workshopLedger.Balances own ids (Building.within enter leave action) := by
  intro w
  unfold Building.within
  cases run : action (enter w) with
  | error e s => exact failed w e s run
  | ok a s => exact done w a s run

theorem balances_onIds {action : EStateM Error Supply α}
    (balances : supplyLedger.Balances own ids action) :
    workshopLedger.Balances own ids (Building.onIds action) :=
  balances_within (fun _ _ _ run => carries_ids (balances.ok run))
    fun _ _ _ run => carries_ids (balances.error run)

theorem balances_onMarkers (action : EStateM Error Markers α) :
    workshopLedger.Balances own (fun _ => own) (Building.onMarkers action) :=
  balances_within (fun w _ _ _ => carries_same (.refl le_rfl w) rfl rfl rfl rfl)
    fun w _ _ _ => carries_same (.refl (Multiset.zero_le own) w) rfl rfl rfl rfl

/-- Definitions that are put on a stack meanwhile are not in the account. -/
theorem balances_while {action : Building α} {enter leave : Workshop → Workshop}
    (balances : workshopLedger.Balances own ids action)
    (enters : ∀ w, (enter w).ids = w.ids ∧ (enter w).finished = w.finished)
    (leaves : ∀ w, (leave w).ids = w.ids ∧ (leave w).finished = w.finished) :
    workshopLedger.Balances own ids (Building.within enter (fun _ => leave) action) :=
  balances_within
    (fun w _ s run => carries_same (balances.ok run) (enters w).1.symm (enters w).2.symm
      (leaves s).1 (leaves s).2)
    fun w _ s run => carries_same (balances.error run) (enters w).1.symm (enters w).2.symm
      (leaves s).1 (leaves s).2

theorem balances_arguments {step : Argument → Building Argument}
    {arguments : Arguments}
    (each : ∀ entry ∈ arguments,
      workshopLedger.Balances (entry.2.ids false) (Argument.ids false) (step entry.2)) :
    workshopLedger.Balances (argumentsIds false arguments) (argumentsIds false)
      (arguments.mapM fun entry => do return (entry.1, ← step entry.2)) := by
  let ids : String × Argument → Multiset ExpressionId := fun entry => entry.2.ids false
  have entries : ∀ entry ∈ arguments, workshopLedger.Balances (ids entry) ids
      (do return (entry.1, ← step entry.2)) := by
    intro entry member
    apply (each entry member).andThen
    intro value
    exact .pure le_rfl
  have all := Ledger.Balances.mapM entries
  rw [← argumentsIds_eq] at all
  exact all.imp le_rfl fun results => le_of_eq (argumentsIds_eq results)

theorem balances_block {step : Expression → Building Expression} {children : List Expression}
    (each : ∀ child ∈ children,
      workshopLedger.Balances (child.ids false) (Expression.ids false) (step child)) :
    workshopLedger.Balances (blockIds false children) (blockIds false) (children.mapM step) := by
  have all := Ledger.Balances.mapM each
  rw [← blockIds_eq] at all
  exact all.imp le_rfl fun results => le_of_eq (blockIds_eq results)

end

/-- References give instances of new identifiers, besides the arguments they do not use up. -/
def Refer.Balances (refer : Refer) : Prop :=
  ∀ target site, workshopLedger.Balances (argumentsIds false site)
    (fun result => result.1.ids false + argumentsIds false result.2) (refer target site)

section

variable {refer : Refer} {plan : Plan}

private theorem join_balances (refers : refer.Balances) (e : Expression) :
    workshopLedger.Balances (e.ids false) (Expression.ids false) (join refer e) := by
  have taken : ∀ target, workshopLedger.Balances (e.ids false) (Expression.ids false)
      (refer target (Entries.erase e.arguments "inherits") >>= fun result =>
        pure (merge { e with arguments := result.2 } result.1)) := by
    intro target
    have whole : argumentsIds false (Entries.erase e.arguments "inherits") + {e.id} ≤
        e.ids false := by
      rw [Expression.ids_eq, add_comm]
      exact add_le_add le_rfl (argumentsIds_sublist List.filter_sublist)
    apply Ledger.Balances.imp ?_ whole (fun _ => le_rfl)
    apply (refers target _).bind
    intro result
    apply Ledger.Balances.pure
    apply (merge_ids _ _).trans
    rw [Expression.ids_eq ({ e with arguments := result.2 } : Expression)]
    apply le_of_eq
    abel
  unfold join
  cases e.get? "inherits" with
  | none =>
    dsimp only
    split_ifs
    · exact .pure le_rfl
    · exact taken e.kind
  | some value =>
    cases value with
    | text target => exact taken target
    | atom | number | block | list => exact .throw

private theorem resolve_balances (refers : refer.Balances) (e : Expression) :
    workshopLedger.Balances (e.ids false) (Expression.ids false) (resolve refer e) := by
  induction e using Expression.inductionOn with
  | step owner ih =>
    have inner : workshopLedger.Balances (argumentsIds false owner.arguments) (argumentsIds false)
        (resolveArguments refer owner.arguments) := by
      rw [resolveArguments_eq]
      apply balances_arguments
      rintro ⟨name, value⟩ member
      cases value with
      | block children =>
        simp only [resolveArgument, resolveBlock_eq, Argument.ids]
        apply (balances_block fun child inside => ih name child ⟨children, member, inside⟩).andThen
        intro children
        exact .pure le_rfl
      | atom | text | number | list => exact .pure le_rfl
    obtain ⟨id, parent, kind, arguments⟩ := owner
    simp only [resolve, Expression.ids]
    rw [add_comm]
    apply inner.bind
    intro arguments
    have joined := join_balances refers ⟨id, parent, kind, arguments⟩
    simp only [Expression.ids] at joined
    rwa [add_comm]

private theorem copyDefinition_balances (refers : refer.Balances) (target : String)
    (site : Arguments) :
    workshopLedger.Balances (argumentsIds false site)
      (fun result => result.1.ids false + argumentsIds false result.2)
      (copyDefinition plan refer target site) := by
  unfold copyDefinition
  cases plan.table.find? target with
  | none => exact .throw
  | some definition =>
    dsimp only
    have copies : workshopLedger.Balances 0 (Expression.ids false)
        (Building.onIds (modifyGet (definition.expression.copy none))) :=
      balances_onIds (balances_modifyGet fun s => definition.expression.copy_issues none s)
    have resolved : ∀ (copy : Expression) (site : Arguments), workshopLedger.Balances
        (copy.ids false + argumentsIds false site)
        (fun result => result.1.ids false + argumentsIds false result.2)
        (resolve refer copy >>= fun inst => pure (inst, site)) := by
      intro copy site
      apply (resolve_balances refers copy).bind
      intro inst
      exact .pure le_rfl
    rw [← zero_add (argumentsIds false site)]
    apply copies.bind
    intro copy
    -- A generic copy takes its actuals out of the site; a plain one leaves it whole.
    apply Ledger.Balances.ite
    · rw [add_comm]
      have bound : workshopLedger.Balances (argumentsIds false site)
          (fun result : Bindings × Arguments => argumentsIds false result.2)
          (ofExcept (bindFormals target copy.parameters site)) := by
        apply Ledger.Balances.ofExcept
        rintro ⟨bindings, rest⟩ bound
        exact argumentsIds_sublist (bindFormals_sublist bound)
      apply bound.bind
      rintro ⟨bindings, rest⟩
      rw [add_comm]
      apply Ledger.Balances.imp ?_
        (add_le_add (Expression.unset_ids copy "parameters") le_rfl) (fun _ => le_rfl)
      apply (balances_onIds (substitute_balances bindings (copy.unset "parameters"))).bind
      intro copy
      exact resolved copy rest
    · exact resolved copy site

theorem referWithin_balances (budget : Nat) : (referWithin plan budget).Balances := by
  induction budget with
  | zero => exact fun target site => .throw
  | succ budget ih =>
    intro target site
    simp only [referWithin]
    apply Ledger.Balances.get.andThen
    intro w
    apply Ledger.Balances.check
    exact balances_while (copyDefinition_balances ih target site) (fun _ => ⟨rfl, rfl⟩)
      fun _ => ⟨rfl, rfl⟩

end

end Pagewright
