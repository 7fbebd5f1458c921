/-!
# Entries ordered by name

Arguments, bindings and metadata are named values kept in increasing order of
name, so that every walk over them meets them in one order. Looking up is
`List.lookup`; here are the operations that keep the order.
-/

namespace Pagewright

/-- Named values, at most one for each name, in increasing order of name. -/
abbrev Entries (β : Type) := List (String × β)

namespace Entries

variable {β : Type}

def names (entries : Entries β) : List String :=
  entries.map Prod.fst

def has (entries : Entries β) (name : String) : Bool :=
  (entries.lookup name).isSome

/-- Sets the value of one name, in its place of the order. -/
def insert (name : String) (value : β) : Entries β → Entries β
  | [] => [(name, value)]
  | (other, kept) :: rest =>
    if name = other then (name, value) :: rest
    else if name < other then (name, value) :: (other, kept) :: rest
    else (other, kept) :: insert name value rest

def erase (entries : Entries β) (name : String) : Entries β :=
  entries.filter fun entry => entry.1 != name

/-- Entries from named values in any order; a later value replaces an earlier one of its name. -/
def ofList (values : List (String × β)) : Entries β :=
  values.foldl (fun entries value => insert value.1 value.2 entries) []

end Entries

/-- Puts a name into a list that is in strictly increasing order, unless it is there already. -/
def insertName (name : String) : List String → List String
  | [] => [name]
  | other :: rest =>
    if name = other then other :: rest
    else if name < other then name :: other :: rest
    else other :: insertName name rest

end Pagewright
