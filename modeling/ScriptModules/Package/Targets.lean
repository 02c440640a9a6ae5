import ScriptModules.Json.Value
import ScriptModules.Text.Split

/-!
# Targets of a package

A package tells in two tables what its subpaths and its own names stand for. A key with one star
matches any text in its place; conditions choose between targets in the order they are written.
-/

namespace ScriptModules.Package

open Json (Value Members)

/-- A text with every star replaced. -/
def fillStars (value : List Char) (target : List Char) : List Char :=
  target.flatMap fun c => if c == '*' then value else [c]

/-- A target that steps up would leave the package. -/
def stepsUp (target : List Char) : Bool := (Text.splitAt '/' target).contains ['.', '.']

/-- The text of a target, with what the star of its key matched. -/
def fillTarget? (captured? : Option (List Char)) (target : String) : Option String :=
  let filled :=
    match captured? with
    | some value => fillStars value target.toList
    | none => target.toList
  if stepsUp filled then none else some (String.ofList filled)

/-- Whether a condition holds. The default always does. -/
def isActive (conditions : List String) (key : String) : Bool :=
  key == "default" || conditions.contains key

mutual

/-- The first target that is left under the given conditions. -/
def target? (conditions : List String) (captured? : Option (List Char)) : Value → Option String
  | .string s => fillTarget? captured? s
  | .array items => firstTarget? conditions captured? items
  | .object members => activeTarget? conditions captured? members
  | .null | .bool _ | .number _ => none

/-- The first target of several alternatives. -/
def firstTarget? (conditions : List String) (captured? : Option (List Char)) :
    List Value → Option String
  | [] => none
  | v :: r => (target? conditions captured? v).or (firstTarget? conditions captured? r)

/-- The first target whose condition holds. -/
def activeTarget? (conditions : List String) (captured? : Option (List Char)) :
    List (String × Value) → Option String
  | [] => none
  | (key, v) :: r =>
    if isActive conditions key then
      (target? conditions captured? v).or (activeTarget? conditions captured? r)
    else activeTarget? conditions captured? r

end

/-- What the star of a pattern matches in a key, along with the length of the text before the star.
A pattern has exactly one star, which matches some text. -/
def matchPattern? (pattern key : List Char) : Option (Nat × List Char) :=
  match Text.splitAt '*' pattern with
  | [front, back] =>
    if front.isPrefixOf key then
      let rest := key.drop front.length
      if back.isSuffixOf rest && rest.length > back.length then
        some (front.foldr (fun c n => c.utf8Size + n) 0, rest.take (rest.length - back.length))
      else none
    else none
  | _ => none

/-- The entry whose pattern has the longest text before its star, the last one of several. -/
def bestMatch? (key : List Char) (table : Members) : Option (Value × List Char) :=
  (table.foldl (fun (best : Option (Nat × Value × List Char)) (pattern, v) =>
    match matchPattern? pattern.toList key with
    | none => best
    | some (n, captured) =>
      if best.all (·.1 ≤ n) then some (n, v, captured) else best) none).map (·.2)

/-- Look a key up in a table: as it is, unless it has a star, and else among the patterns. -/
def lookup? (conditions : List String) (table : Members) (key : String) : Option String :=
  let plain? := if key.toList.contains '*' then none else table.get? key
  match plain? with
  | some v => target? conditions none v
  | none =>
    (bestMatch? key.toList table).bind fun (v, captured) => target? conditions (some captured) v

/-- Whether the keys of a table are subpaths. -/
def hasSubpaths (table : Members) : Bool := table.any fun (key, _) => key.toList.head? == some '.'

/-- What a subpath of a package stands for. A value without subpaths exports the root only. -/
def exportTarget? (exports : Value) (subpath : String) (conditions : List String) :
    Option String :=
  match exports.members?.filter hasSubpaths with
  | some table => lookup? conditions table subpath
  | none => if subpath == "." then target? conditions none exports else none

/-- What a name of a package's own stands for. -/
def importTarget? (imports : Value) (name : String) (conditions : List String) : Option String :=
  imports.members?.bind fun table => lookup? conditions table name

end ScriptModules.Package
