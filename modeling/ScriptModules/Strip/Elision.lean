import ScriptModules.Strip.Survey

/-!
# Dropping unused imports

A binding that is never used as a value may name a type, so it is dropped. A statement left
with no bindings goes as a whole, and one that never had any stays.
-/

namespace ScriptModules.Strip

/-- The ranges that go from one import statement, given the names used as values. When imports
are preserved, only a statement all of whose specifiers are marked as types goes. -/
def Import.elided (preserve : Bool) (used : List String) (i : Import) : List Grammar.Span :=
  if i.bindings.isEmpty && i.typeOnly == 0 then []
  else if preserve then if i.bindings.isEmpty then [i.range] else []
  else
    let unused := i.bindings.filter fun b => !used.contains b.name
    if unused.length == i.bindings.length then [i.range] else unused.map Binding.range

/-- Every range to blank in a surveyed program. -/
def Findings.ranges (preserve : Bool) (f : Findings) : List Grammar.Span :=
  f.blanks ++ f.imports.flatMap (Import.elided preserve f.used)

/-- Blank what is typed in a program of which the tree is known. -/
def stripTree (preserve : Bool) (source : List Char) (tree : Grammar.Tree) :
    Except Unsupported (List Char) :=
  (survey source none none tree).map fun findings =>
    blankRanges (findings.ranges preserve) findings.moved source

end ScriptModules.Strip
