import Pagewright.Yaml.Token

/-!
# YAML documents

A text holds at most one document. What is missing where a value could stand is
null, and so is a document without a value.
-/

namespace Pagewright

namespace Yaml

/-- The token marks a key or a value, or ends a collection, so that no value starts with it. -/
def Token.endsField (token : Token) : Bool :=
  token = .key || token = .value || token = .blockEnd

/-- The token ends a field in brackets. -/
def Token.endsFlowField (token : Token) : Bool :=
  token = .comma || token = .flowMappingEnd

mutual

/-- A value and what follows it. Only a value in a field may be a sequence that is not indented. -/
def node? (inField : Bool) : Nat → List Token → Option (Yaml × List Token)
  | 0, _ => none
  | _ + 1, .scalar text plain :: rest => some (.scalar text plain, rest)
  | budget + 1, .item :: rest =>
    if inField then do
      let (items, rest) ← alignedItems? budget (.item :: rest)
      return (.sequence items, rest)
    else none
  | budget + 1, .blockSequence :: rest => do
    let (items, rest) ← blockItems? budget rest
    return (.sequence items, rest)
  | budget + 1, .blockMapping :: rest => do
    let (fields, rest) ← blockFields? budget rest
    return (.mapping fields, rest)
  | budget + 1, .flowSequence :: rest => do
    let (items, rest) ← flowItems? budget rest
    return (.sequence items, rest)
  | budget + 1, .flowMapping :: rest => do
    let (fields, rest) ← flowFields? budget rest
    return (.mapping fields, rest)
  | _, _ => none

def blockItems? : Nat → List Token → Option (List Yaml × List Token)
  | 0, _ => none
  | budget + 1, .item :: rest => do
    let empty := rest.head?.any fun token => token = .item || token = .blockEnd
    let (item, rest) ← if empty then some (null, rest) else node? false budget rest
    let (items, rest) ← blockItems? budget rest
    return (item :: items, rest)
  | _, .blockEnd :: rest => some ([], rest)
  | _, _ => none

/-- The items of a sequence whose dashes stand at the column of the keys around it. -/
def alignedItems? : Nat → List Token → Option (List Yaml × List Token)
  | 0, _ => none
  | budget + 1, .item :: rest => do
    let empty := rest.head?.any fun token => token = .item || token.endsField
    let (item, rest) ← if empty then some (null, rest) else node? false budget rest
    let (items, rest) ← alignedItems? budget rest
    return (item :: items, rest)
  | _, rest => some ([], rest)

/-- The fields of an indented mapping; a key may lack its value. -/
def blockFields? : Nat → List Token → Option (List (Yaml × Yaml) × List Token)
  | 0, _ => none
  | budget + 1, .key :: rest => do
    let (key, rest) ←
      if rest.head?.any Token.endsField then some (null, rest) else node? true budget rest
    let (value, rest) ← match rest with
      | .value :: rest =>
        if rest.head?.any Token.endsField then some (null, rest) else node? true budget rest
      | rest => some (null, rest)
    let (fields, rest) ← blockFields? budget rest
    return ((key, value) :: fields, rest)
  | _, .blockEnd :: rest => some ([], rest)
  | _, _ => none

/-- The items of a sequence in brackets, up to the closing one. A comma may stand behind the last
item; a field is no item. -/
def flowItems? : Nat → List Token → Option (List Yaml × List Token)
  | 0, _ => none
  | _, .flowSequenceEnd :: rest => some ([], rest)
  | budget + 1, rest => do
    let (item, rest) ← node? false budget rest
    match rest with
    | .comma :: rest =>
      let (items, rest) ← flowItems? budget rest
      return (item :: items, rest)
    | .flowSequenceEnd :: rest => return ([item], rest)
    | _ => none

/-- The fields of a mapping in brackets, up to the closing one. A comma may stand behind the last
field, and a key may lack its value. -/
def flowFields? : Nat → List Token → Option (List (Yaml × Yaml) × List Token)
  | 0, _ => none
  | _, .flowMappingEnd :: rest => some ([], rest)
  | budget + 1, rest => do
    let (field, rest) ← match rest with
      | .key :: rest => flowField? budget rest
      | rest => (node? false budget rest).map fun (key, rest) => ((key, null), rest)
    match rest with
    | .comma :: rest =>
      let (fields, rest) ← flowFields? budget rest
      return (field :: fields, rest)
    | .flowMappingEnd :: rest => return ([field], rest)
    | _ => none

/-- A field in brackets whose key is marked. -/
def flowField? : Nat → List Token → Option ((Yaml × Yaml) × List Token)
  | 0, _ => none
  | budget + 1, rest => do
    let (key, rest) ←
      if rest.head?.any fun token => token = .value || token.endsFlowField then some (null, rest)
      else node? false budget rest
    match rest with
    | .value :: rest =>
      let (value, rest) ←
        if rest.head?.any Token.endsFlowField then some (null, rest) else node? false budget rest
      return ((key, value), rest)
    | rest => return ((key, null), rest)

end

/-- The document that tokens make up: a value, or nothing behind the mark that begins it. -/
def ofTokens? (tokens : List Token) : Option Yaml := do
  let budget := 3 * tokens.length + 3
  let (value, rest) ← match tokens with
    | [] => some (null, [])
    | .documentStart :: rest =>
      if rest.head?.all fun token => token = .documentStart || token = .documentEnd then
        some (null, rest)
      else node? false budget rest
    | tokens => node? false budget tokens
  if (rest.dropWhile (· = .documentEnd)).isEmpty then return value else none

/-- Reads a text that holds at most one document. -/
def parse? (input : String) : Option Yaml :=
  (tokens? input).bind ofTokens?

end Yaml

end Pagewright
