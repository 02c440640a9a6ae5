/-!
# Splitting and searching text
-/

namespace ScriptModules.Text

/-- The pieces of a text between marks. -/
def splitAt (mark : Char) : List Char → List (List Char)
  | [] => [[]]
  | c :: r =>
    if c == mark then [] :: splitAt mark r
    else
      match splitAt mark r with
      | [] => [[c]]
      | l :: ls => (c :: l) :: ls

/-- Whether a text holds another. -/
def holds (part : List Char) : List Char → Bool
  | [] => part.isEmpty
  | c :: r => part.isPrefixOf (c :: r) || holds part r

/-- The rest of a text after another at its front. -/
def dropPrefix? (front s : String) : Option String :=
  if front.toList.isPrefixOf s.toList then some (String.ofList (s.toList.drop front.length))
  else none

/-- The rest of a text before another at its end. -/
def dropSuffix? (back s : String) : Option String :=
  if back.toList.isSuffixOf s.toList then
    some (String.ofList (s.toList.take (s.length - back.length)))
  else none

/-- Whether a text starts with another. -/
def startsWith (front s : String) : Bool := front.toList.isPrefixOf s.toList

/-- Whether a text ends with another. -/
def endsWith (back s : String) : Bool := back.toList.isSuffixOf s.toList

end ScriptModules.Text
