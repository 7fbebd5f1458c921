import Pagewright.Definition.Table

/-!
# Markers

Checking a definition is remembered by a marker. A definition that is met again
while it is being processed has reached itself.
-/

namespace Pagewright

inductive Marker where
  | discovered
  | processing
  | done
  deriving DecidableEq, Repr

/-- The markers of the definitions of one table; what has no entry is only discovered. -/
structure Markers where
  entries : List (String × Marker) := []

namespace Markers

def get (markers : Markers) (name : String) : Marker :=
  (markers.entries.lookup name).getD .discovered

def set (markers : Markers) (name : String) (marker : Marker) : Markers :=
  ⟨(name, marker) :: markers.entries.filter fun entry => entry.1 != name⟩

@[simp] theorem get_set_self (markers : Markers) (name : String) (marker : Marker) :
    (markers.set name marker).get name = marker := by
  simp [get, set]

theorem lookup_filter_ne (entries : List (String × Marker)) {name other : String}
    (different : other ≠ name) :
    (entries.filter fun entry => entry.1 != name).lookup other = entries.lookup other := by
  induction entries with
  | nil => rfl
  | cons entry rest ih =>
    obtain ⟨key, marker⟩ := entry
    by_cases same : key = name
    · subst same
      have apart : (other == key) = false := by simpa using different
      simp [List.lookup_cons, apart, ih]
    · by_cases found : other = key
      · subst found
        simp [same]
      · have apart : (other == key) = false := by simpa using found
        simp [List.lookup_cons, same, apart, ih]

theorem get_set_of_ne (markers : Markers) {name other : String} (marker : Marker)
    (different : other ≠ name) : (markers.set name marker).get other = markers.get other := by
  have apart : (other == name) = false := by simpa using different
  simp [get, set, List.lookup_cons, apart, lookup_filter_ne markers.entries different]

end Markers

namespace Catalog

/-- Sets the marker of a definition; a name that is not in the catalog has none. -/
def setMarker (catalog : Catalog) (markers : Markers) (name : String) (marker : Marker) : Markers :=
  if catalog.contains name then markers.set name marker else markers

/-- The markers of all definitions, in the catalog's order. -/
def markers (catalog : Catalog) (markers : Markers) : List (String × Marker) :=
  catalog.names.map fun name => (name, markers.get name)

end Catalog

end Pagewright
