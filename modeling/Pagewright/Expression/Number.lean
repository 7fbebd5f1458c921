/-!
# Number texts

Numbers are kept as they were written. Their value ignores underscores, allows
one plus sign in front and has to fit in sixty-four bits.
-/

namespace Pagewright

/-- The value of a run of decimal digits, most significant first. -/
def digitsValue (digits : List Char) : Nat :=
  digits.foldl (fun value c => 10 * value + (c.toNat - '0'.toNat)) 0

/-- The value of a text that holds nothing but decimal digits, at least one, below `2 ^ 64`. -/
def wordValue? (digits : List Char) : Option Nat :=
  if digits.isEmpty || !digits.all Char.isDigit then none
  else
    let value := digitsValue digits
    if value < UInt64.size then some value else none

/-- The value of a number as written in a source. -/
def numberValue? (written : String) : Option Nat :=
  match written.toList.filter (· != '_') with
  | '+' :: digits => wordValue? digits
  | digits => wordValue? digits

end Pagewright
