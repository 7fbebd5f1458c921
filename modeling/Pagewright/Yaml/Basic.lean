/-!
# YAML values

The part of YAML that configurations use. A scalar is kept as text together with
whether it was written plainly, since only a plain scalar can stand for a null, a
boolean or a number. The key of a field may be any value.
-/

namespace Pagewright

inductive Yaml where
  | scalar (text : String) (plain : Bool)
  | sequence (items : List Yaml)
  | mapping (fields : List (Yaml × Yaml))

namespace Yaml

/-- What is written as nothing. -/
def null : Yaml :=
  .scalar "" true

def isNull : Yaml → Bool
  | .scalar text true => ["", "~", "null", "Null", "NULL"].contains text
  | _ => false

/-- Every scalar can be taken as text. -/
def text? : Yaml → Option String
  | .scalar text _ => some text
  | _ => none

def bool? : Yaml → Option Bool
  | .scalar text true =>
    if ["true", "True", "TRUE"].contains text then some true
    else if ["false", "False", "FALSE"].contains text then some false
    else none
  | _ => none

def digit? (base : Nat) (c : Char) : Option Nat :=
  let value :=
    if c.isDigit then c.toNat - '0'.toNat
    else if 'a' ≤ c ∧ c ≤ 'f' then c.toNat - 'a'.toNat + 10
    else if 'A' ≤ c ∧ c ≤ 'F' then c.toNat - 'A'.toNat + 10
    else base
  if value < base then some value else none

/-- The value of at least one digit of a base, below `2 ^ 64`. -/
def digitsIn? (base : Nat) (digits : List Char) : Option Nat :=
  if digits.isEmpty then none
  else do
    let values ← digits.mapM (digit? base)
    let value := values.foldl (fun value digit => value * base + digit) 0
    if value < UInt64.size then some value else none

/-- A number below `2 ^ 64`: behind a plus sign or none, decimal digits without a zero in front, or
digits of another base behind its mark. -/
def word? : Yaml → Option Nat
  | .scalar text true =>
    let digits := match text.toList with
      | '+' :: rest => rest
      | digits => digits
    match digits with
    | ['0'] => some 0
    | '0' :: 'x' :: rest => digitsIn? 16 rest
    | '0' :: 'o' :: rest => digitsIn? 8 rest
    | '0' :: 'b' :: rest => digitsIn? 2 rest
    | '0' :: _ => none
    | digits => digitsIn? 10 digits
  | _ => none

def sequence? : Yaml → Option (List Yaml)
  | .sequence items => some items
  | _ => none

end Yaml

end Pagewright
