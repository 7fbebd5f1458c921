import Pagewright.Proofs.Drawing

/-!
# What stands where on a page

`Expression.placements` lists everything that stands in an expression, each with
the full id of what is around it and with the item type of the row it stands in.
The blocks of an instance are all written, so that the elements that the markup of
a page has are those of its placements, in document order.
-/

namespace Pagewright

variable {e inst : Expression} {stem name : String} {item? : Option String}
  {kind : Kind} {property : Expression → Prop} {children : List Expression} {arguments : Arguments}

/-! ### Placements -/

structure Placement where
  expression : Expression
  /-- The full id of the nearest tracked element around it. -/
  stem : String
  /-- The item type of the list in whose row it stands, the nearest one. -/
  item? : Option String

variable {placement : Placement}

/-- The item type that counts in the blocks of an expression. -/
def Expression.itemBelow (e : Expression) (item? : Option String) : Option String :=
  if e.kind = "list" then e.text? "type" else item?

mutual

/-- Everything in an expression, where it is written. -/
def Expression.placements : Expression → String → Option String → List Placement
  | ⟨id, parent, kind, arguments⟩, stem, item? =>
    let e : Expression := ⟨id, parent, kind, arguments⟩
    ⟨e, stem, item?⟩ :: placementsArguments arguments (innerStem e stem) (e.itemBelow item?)

def placementsArguments : List (String × Argument) → String → Option String → List Placement
  | [], _, _ => []
  | (_, value) :: rest, stem, item? =>
    value.placements stem item? ++ placementsArguments rest stem item?

def Argument.placements : Argument → String → Option String → List Placement
  | .block children, stem, item? => placementsBlock children stem item?
  | .atom _, _, _ | .text _, _, _ | .number _, _, _ | .list _, _, _ => []

def placementsBlock : List Expression → String → Option String → List Placement
  | [], _, _ => []
  | child :: rest, stem, item? =>
    child.placements stem item? ++ placementsBlock rest stem item?

end

def Expression.bodyPlacements (page : Expression) : List Placement :=
  placementsBlock ((page.block? "body").getD []) pageStem none

def Placement.element (placement : Placement) : Element :=
  placement.expression.ownElement placement.stem

/-- The elements of what is placed; a text becomes none. -/
def elementsAt (placements : List Placement) : List Element :=
  (placements.filter fun placement => placement.expression.kind ≠ "text").map Placement.element

theorem mem_placementsBlock :
    placement ∈ placementsBlock children stem item? ↔
      ∃ child ∈ children, placement ∈ child.placements stem item? := by
  induction children with
  | nil => simp [placementsBlock]
  | cons child rest ih => simp [placementsBlock, ih]

theorem mem_placementsArguments :
    placement ∈ placementsArguments arguments stem item? ↔
      ∃ name children, (name, Argument.block children) ∈ arguments ∧
        ∃ child ∈ children, placement ∈ child.placements stem item? := by
  induction arguments with
  | nil => simp [placementsArguments]
  | cons entry rest ih =>
    obtain ⟨other, value⟩ := entry
    rw [placementsArguments, List.mem_append, ih]
    cases value with
    | block children =>
      rw [Argument.placements, mem_placementsBlock]
      constructor
      · rintro (⟨child, inside, placed⟩ | ⟨name, others, member, rest⟩)
        · exact ⟨other, children, List.mem_cons_self, child, inside, placed⟩
        · exact ⟨name, others, List.mem_cons_of_mem _ member, rest⟩
      · rintro ⟨name, others, member, rest⟩
        rcases List.mem_cons.mp member with same | later
        · cases same
          exact .inl rest
        · exact .inr ⟨name, others, later, rest⟩
    | atom | text | number | list => simp [Argument.placements]

/-- What stands in an expression is the expression itself or stands in something it holds. -/
theorem Expression.mem_placements :
    placement ∈ e.placements stem item? ↔ placement = ⟨e, stem, item?⟩ ∨
      ∃ name child, e.Holds name child ∧
        placement ∈ child.placements (innerStem e stem) (e.itemBelow item?) := by
  obtain ⟨id, parent, kind, arguments⟩ := e
  rw [Expression.placements, List.mem_cons, mem_placementsArguments]
  apply or_congr_right
  constructor
  · rintro ⟨name, children, member, child, inside, placed⟩
    exact ⟨name, child, ⟨children, member, inside⟩, placed⟩
  · rintro ⟨name, child, ⟨children, member, inside⟩, placed⟩
    exact ⟨name, children, member, child, inside, placed⟩

/-- A property of everything in an expression is one of everything placed. -/
theorem Expression.Throughout.placed (all : e.Throughout property)
    (member : placement ∈ e.placements stem item?) : property placement.expression := by
  induction e using Expression.inductionOn generalizing stem item? with
  | step owner ih =>
    rcases Expression.mem_placements.mp member with rfl | ⟨name, child, held, deeper⟩
    · exact all.here
    · exact ih name child held (all.child held) deeper

/-- Everything in an expression has its place. -/
theorem Expression.throughout_iff_placed :
    e.Throughout property ↔
      ∀ placement ∈ e.placements stem item?, property placement.expression := by
  constructor
  · exact fun all placement member => all.placed member
  · intro all
    induction e using Expression.inductionOn generalizing stem item? with
    | step owner ih =>
      refine Expression.throughout_iff.mpr ⟨all _ (Expression.mem_placements.mpr (.inl rfl)), ?_⟩
      intro name child held
      refine @ih name child held (innerStem owner stem) (owner.itemBelow item?) ?_
      intro placement member
      exact all placement (Expression.mem_placements.mpr (.inr ⟨name, child, held, member⟩))

/-! ### Everything is written -/

/-- What an expression holds is written, and only what becomes an element has an id. -/
structure Expression.IsWritten (e : Expression) : Prop where
  content : e.kind ≠ "page" → ∀ name child, e.Holds name child → e.content? = some name
  /-- The body of a page is written apart. -/
  body : e.kind = "page" → ∀ name child, e.Holds name child → name = "body"
  noId : e.kind = "page" ∨ e.kind = "text" → e.get? "id" = none

private theorem Expression.IsWritten.same {first second : Expression}
    (contents : SameContent first second) (written : first.IsWritten) : second.IsWritten := by
  have content : first.content? = second.content? := by
    simp only [Expression.content?, contents.kinds]
  constructor
  · intro noPage name child held
    obtain ⟨origin, there, -⟩ := held.same contents.arguments
    exact content ▸ written.content (contents.kinds ▸ noPage) name origin there
  · intro page name child held
    obtain ⟨origin, there, -⟩ := held.same contents.arguments
    exact written.body (contents.kinds.trans page) name origin there
  · intro silent
    exact contents.get?_none (written.noId (by rwa [contents.kinds]))

private theorem Expression.IsWritten.unset (written : e.IsWritten) :
    (e.unset "defines").IsWritten where
  content noPage name child held := written.content noPage name child held.of_unset
  body page name child held := written.body page name child held.of_unset
  noId silent := (Expression.get?_unset_of_ne _ (by decide)).trans (written.noId silent)

private theorem rowWith_isWritten (id owner : ExpressionId) (index : Nat) (content : Expression) :
    (rowWith id owner index content).IsWritten where
  content _ name child held := by
    obtain ⟨rfl, -⟩ := rowWith_holds.mp held
    rfl
  body page := absurd page (by simp [rowWith])
  noId silent := absurd silent (by simp [rowWith])

private theorem Expression.IsWritten.of_list (list : e.kind = "list")
    (only : ∀ name child, e.Holds name child → name = "body") : e.IsWritten := by
  constructor
  · intro _ name child held
    rw [only name child held, Expression.content?, list]
    rfl
  · intro page
    exact absurd (list.symm.trans page) (by decide)
  · rintro (page | text)
    · exact absurd (list.symm.trans page) (by decide)
    · exact absurd (list.symm.trans text) (by decide)

private theorem Expression.content?_of_kind (named : Kind.ofName? e.kind = some kind)
    (noPage : kind ≠ .page) (content : kind.content? = some name) : e.content? = some name := by
  unfold Expression.content?
  rw [named]
  cases kind <;> simp_all [Kind.content?]

private theorem checkId_silent {subject : Subject} {context : Context} {ids : IdScope}
    {result : IdScope × String} (checked : checkId subject kind context ids = .ok result)
    (silent : kind = .page ∨ kind = .text) : subject.expression.get? "id" = none := by
  unfold checkId at checked
  cases found : subject.expression.get? "id" with
  | none => rfl
  | some value =>
    have refused : (kind = .page || kind = .text) = true := by simpa using silent
    simp only [found, refused, if_true] at checked
    cases checked

section

variable {σ : Type} {rules : Rules σ} {context : Context} {e : Expression} {stem : String}

private theorem Settled.written_other {after : Arguments} {related : Expression → Expression → Prop}
    (settled : Settled rules context e kind stem)
    (become : ArgumentsBecome related e.arguments after) :
    ({ e with arguments := after } : Expression).IsWritten := by
  have content : ∀ name child, ({ e with arguments := after } : Expression).Holds name child →
      kind.content? = some name := by
    intro name child held
    obtain ⟨origin, ⟨children, there, -⟩, -⟩ := become.held held
    exact settled.final name _ there
  constructor
  · intro noPage name child held
    have other : kind ≠ .page := by
      rintro rfl
      exact noPage (Kind.name_of_ofName? settled.named).symm
    exact Expression.content?_of_kind settled.named other (content name child held)
  · intro page name child held
    have isPage := settled.kind_of .page page
    subst isPage
    exact (Option.some.inj (content name child held)).symm
  · intro silent
    obtain ⟨ids, declared, checked⟩ := settled.id
    apply become.get?_none
    exact checkId_silent checked (silent.imp (settled.kind_of .page) (settled.kind_of .text))

end

section

variable {plan : Plan}

private theorem standalone_written (checked : plan.Checked) {depth : Nat}
    (found : standalone plan depth name = some inst) : inst.Throughout Expression.IsWritten := by
  induction depth generalizing name inst with
  | zero => cases found
  | succ depth ih =>
    obtain ⟨root, w, w', isRoot, -, filled⟩ := standalone_root checked found
    refine isRoot.walked.fill_induction
      (motive := fun _ _ result => result.Throughout Expression.IsWritten) ?_ ?_ ?_ isRoot.plain
      isRoot.textName filled
    · intro context e stem settled _
      have list : e.kind = "list" := (Kind.name_of_ofName? settled.named).symm
      refine Expression.throughout_iff.mpr ⟨?_, fun name child held => ?_⟩
      · exact .of_list list fun name child held => (settled.holds_nothing held).elim
      · exact (settled.holds_nothing held).elim
    · intro context e stem count type item supply settled _ _ known
      have list : e.kind = "list" := (Kind.name_of_ofName? settled.named).symm
      refine Expression.throughout_iff.mpr ⟨?_, fun name child held => ?_⟩
      · exact .of_list list fun name child held => (settled.held_row held).1
      · exact makeRows_throughout (fun _ _ => Expression.IsWritten.same)
          (fun _ => Expression.IsWritten.unset) rowWith_isWritten
          (standalone_resolved checked known).resolved (standalone_tidy checked known) (ih known)
          (settled.held_row held).2
    · intro context e kind stem after settled _ become
      refine Expression.throughout_iff.mpr ⟨settled.written_other become, fun name child held => ?_⟩
      obtain ⟨origin, -, below⟩ := become.held held
      exact below.filled

theorem Plan.HasInstance.written (checked : plan.Checked) (instances : plan.HasInstance name inst) :
    inst.Throughout Expression.IsWritten :=
  instances.throughout (fun _ _ => Expression.IsWritten.same) fun _ _ => standalone_written checked

end

/-! ### Placements are drawn -/

theorem elementsAt_append (first second : List Placement) :
    elementsAt (first ++ second) = elementsAt first ++ elementsAt second := by
  simp [elementsAt]

private theorem Argument.placements_eq (value : Argument) (stem : String) (item? : Option String) :
    value.placements stem item? = placementsBlock (value.block?.getD []) stem item? := by
  cases value <;> rfl

/-- Where blocks stand under one name only, this block is everything there is. -/
theorem placementsArguments_eq (ordered : arguments.Ordered) {content : Option String}
    (only : ∀ name children, (name, Argument.block children) ∈ arguments →
      children ≠ [] → content = some name) (stem : String) (item? : Option String) :
    placementsArguments arguments stem item? = placementsBlock
      (((content.bind fun name => arguments.lookup name).bind Argument.block?).getD []) stem
      item? := by
  induction arguments with
  | nil => cases content <;> rfl
  | cons entry rest ih =>
    obtain ⟨name, value⟩ := entry
    obtain ⟨later, restOrdered⟩ := List.pairwise_cons.mp ordered
    have others := ih restOrdered fun name children member =>
      only name children (List.mem_cons_of_mem _ member)
    rw [placementsArguments, others, Argument.placements_eq]
    by_cases here : content = some name
    · subst here
      -- the names are distinct, so nothing is found behind
      have missing : rest.lookup name = none := by
        rw [List.lookup_eq_none_iff]
        intro entry member
        simpa using (later entry member).ne
      simp [missing, placementsBlock]
    · -- a block under another name is empty
      have empty : value.block?.getD [] = [] := by
        cases value with
        | block children =>
          by_contra nonempty
          exact here (only name children List.mem_cons_self nonempty)
        | atom | text | number | list => rfl
      have found : (content.bind fun other => List.lookup other ((name, value) :: rest)) =
          content.bind fun other => rest.lookup other := by
        cases content with
        | none => rfl
        | some other =>
          exact Entries.lookup_cons_of_ne fun same => here (congrArg some same)
      rw [empty, found]
      rfl

theorem Expression.placements_eq (tidy : e.IsTidy) (written : e.IsWritten)
    (noPage : e.kind ≠ "page") (stem : String) (item? : Option String) :
    e.placements stem item? =
      ⟨e, stem, item?⟩ :: placementsBlock e.inner (innerStem e stem) (e.itemBelow item?) := by
  have only : ∀ name children, (name, Argument.block children) ∈ e.arguments → children ≠ [] →
      e.content? = some name := by
    intro name children member nonempty
    obtain ⟨child, inside⟩ := List.exists_mem_of_ne_nil children nonempty
    exact written.content noPage name child ⟨children, member, inside⟩
  have blocks := placementsArguments_eq tidy.ordered only (innerStem e stem) (e.itemBelow item?)
  obtain ⟨id, parent, kind, arguments⟩ := e
  rw [Expression.placements, blocks]
  rfl

/-- Everything in a page stands in its body. -/
theorem Expression.placements_page {page : Expression} (isPage : page.kind = "page")
    (tidy : page.IsTidy) (written : page.IsWritten) :
    page.placements pageStem none = ⟨page, pageStem, none⟩ :: page.bodyPlacements := by
  have stem : innerStem page pageStem = pageStem := by
    simp [innerStem, Expression.scopedId?, Expression.text?, written.noId (.inl isPage)]
  have item : page.itemBelow none = none := by
    rw [Expression.itemBelow, if_neg (by rw [isPage]; decide)]
  have only : ∀ name children, (name, Argument.block children) ∈ page.arguments → children ≠ [] →
      some "body" = some name := by
    intro name children member nonempty
    obtain ⟨child, inside⟩ := List.exists_mem_of_ne_nil children nonempty
    exact congrArg some (written.body isPage name child ⟨children, member, inside⟩).symm
  have blocks := placementsArguments_eq tidy.ordered only pageStem none
  obtain ⟨id, parent, kind, arguments⟩ := page
  rw [Expression.placements, stem, item, blocks]
  rfl

theorem drawsAll_placements
    (each : ∀ child ∈ children, Draws child stem (elementsAt (child.placements stem item?))) :
    DrawsAll children stem (elementsAt (placementsBlock children stem item?)) := by
  induction children with
  | nil => exact drawsAll_nil stem
  | cons child rest ih =>
    rw [placementsBlock, elementsAt_append]
    have rest := ih (List.forall_mem_cons.mp each).2
    exact .cons (each child List.mem_cons_self) rest

/-- The markup of an expression has the elements of everything in it. -/
theorem Expression.draws_placements (resolved : e.Throughout Expression.IsResolved)
    (tidy : e.Throughout Expression.IsTidy) (written : e.Throughout Expression.IsWritten)
    (noPage : e.kind ≠ "page") (stem : String) (item? : Option String) :
    Draws e stem (elementsAt (e.placements stem item?)) := by
  induction e using Expression.inductionOn generalizing stem item? with
  | step owner ih =>
    rw [Expression.placements_eq tidy.here written.here noPage]
    obtain ⟨kind, named⟩ := Option.isSome_iff_exists.mp resolved.here.builtIn
    have inside : DrawsAll owner.inner (innerStem owner stem) (elementsAt
        (placementsBlock owner.inner (innerStem owner stem) (owner.itemBelow item?))) := by
      apply drawsAll_placements
      intro child member
      obtain ⟨name, -, held⟩ := Expression.holds_of_inner member
      exact ih name child held (resolved.child held) (tidy.child held) (written.child held)
        (resolved.here.pages name child held) _ _
    by_cases text : kind = .text
    · subst text
      have silent : owner.kind = "text" := (Kind.name_of_ofName? named).symm
      have empty : owner.inner = [] := by simp [Expression.inner, Expression.content?, named]
      have none : elementsAt (⟨owner, stem, item?⟩ :: placementsBlock owner.inner
          (innerStem owner stem) (owner.itemBelow item?)) = [] := by
        rw [empty]
        simp [elementsAt, placementsBlock, silent]
      rw [none]
      exact draws_text named stem
    · have another : owner.kind ≠ "text" := fun silent => text (Kind.eq_of_ofName? named silent)
      have other : kind ≠ .page := by
        rintro rfl
        exact noPage (Kind.name_of_ofName? named).symm
      have own : elementsAt (⟨owner, stem, item?⟩ :: placementsBlock owner.inner
          (innerStem owner stem) (owner.itemBelow item?)) = owner.ownElement stem ::
            elementsAt (placementsBlock owner.inner (innerStem owner stem)
              (owner.itemBelow item?)) := by
        simp [elementsAt, another, Placement.element]
      rw [own]
      exact draws_element named text other inside

end Pagewright
