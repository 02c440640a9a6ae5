import ScriptModules.Strip.Blanking

/-!
# Surveying a typed program

A survey walks the tree of a typed program in source order. It collects the ranges that carry
types only, the names that are used as values and the import statements, and it stops at the
first construct that has a meaning at run time which blanking cannot keep.
-/

namespace ScriptModules.Strip

open Grammar (Kind Span Tree)

/-- Typed constructs that need code to be generated. -/
inductive Construct where
  | enumeration
  | namespaceBlock
  | importAlias
  | markup
  | importRequire
  | exportAssignment
  | parameterProperty
  deriving DecidableEq, Repr

/-- The name of a construct in messages. -/
def Construct.text : Construct → String
  | enumeration => "enum"
  | namespaceBlock => "namespace"
  | importAlias => "import alias"
  | markup => "JSX"
  | importRequire => "import = require()"
  | exportAssignment => "export ="
  | parameterProperty => "parameter property"

/-- A construct that cannot be stripped, and the byte offset where it starts. -/
structure Unsupported where
  construct : Construct
  offset : Nat
  deriving DecidableEq, Repr

/-- A name that an import statement binds, and the range to blank when the binding goes. -/
structure Binding where
  name : String
  range : Span
  deriving DecidableEq, Repr

/-- An import statement with a clause. -/
structure Import where
  range : Span
  bindings : List Binding
  /-- How many specifiers were marked as types one by one. -/
  typeOnly : Nat
  deriving DecidableEq, Repr

/-- What a survey collects, in source order. -/
structure Findings where
  blanks : List Span := []
  used : List String := []
  imports : List Import := []
  moved : List Moved := []
  deriving Repr

namespace Findings

/-- The findings of one part followed by those of another. -/
def append (a b : Findings) : Findings :=
  ⟨a.blanks ++ b.blanks, a.used ++ b.used, a.imports ++ b.imports, a.moved ++ b.moved⟩

instance : Append Findings := ⟨append⟩

/-- Ranges to blank and nothing else. -/
def ofBlanks (ranges : List Span) : Findings := ⟨ranges, [], [], []⟩

end Findings

/-- Constructs that are types through and through. -/
def isTypeOnly : Kind → Bool
  | .typeAscription | .predicateAscription | .assertsAscription | .omittingAscription
  | .addingAscription | .optingAscription | .typeParameters | .typeArguments
  | .implementsClause => true
  | _ => false

/-- Declarations and members that leave nothing behind at run time. -/
def isTypeDeclaration : Kind → Bool
  | .interfaceDeclaration | .typeAliasDeclaration | .ambientDeclaration | .functionSignature
  | .methodSignature | .abstractMethodSignature | .indexSignature => true
  | _ => false

/-- The range of a tree, along with the given mark if that follows directly. -/
def rangeThrough (mark : String) (next? : Option Tree) (t : Tree) : Span :=
  match next? with
  | some next =>
    if next.kind == .mark mark then ⟨t.span.start, next.span.stop⟩ else t.span
  | none => t.span

/-- A list item goes along with the comma after it. -/
def itemRange (next? : Option Tree) (t : Tree) : Span := rangeThrough "," next? t

/-- A declaration or class member goes along with the semicolon after it. -/
def memberRange (next? : Option Tree) (t : Tree) : Span := rangeThrough ";" next? t

/-- The ranges of the direct children of the given kinds. -/
def childRanges (kinds : List Kind) (t : Tree) : List Span :=
  (t.children.filter (kinds.contains ·.kind)).map Tree.span

/-- Each tree with the one after it. -/
def withNext : List Tree → List (Tree × Option Tree)
  | [] => []
  | t :: ts => (t, ts.head?) :: withNext ts

/-- The names that the specifiers in braces bind, and how many are marked as types; those are
blanked at once. -/
def surveySpecifiers (clause : Tree) : List Span × List Binding × Nat :=
  let specifiers := (withNext clause.children).filter (·.1.kind == .importSpecifier)
  let isMarked (t : Tree) : Bool := t.hasChild (.mark "type") || t.hasChild (.mark "typeof")
  let (marked, plain) := specifiers.partition (isMarked ·.1)
  let binding? (t : Tree) (next? : Option Tree) : Option Binding :=
    (t.children.filter fun u => u.kind == .identifier || u.kind == .string).getLast?.map
      fun name => ⟨name.text, itemRange next? t⟩
  (marked.map fun (t, next?) => itemRange next? t,
    plain.filterMap fun (t, next?) => binding? t next?,
    marked.length)

/-- What one part of an import clause binds. -/
def surveyClausePart (t : Tree) (next? : Option Tree) : List Span × List Binding × Nat :=
  match t.kind with
  | .identifier => ([], [⟨t.text, itemRange next? t⟩], 0)
  | .namespaceImport =>
    ([], (t.child? .identifier).toList.map fun name => ⟨name.text, t.span⟩, 0)
  | .namedImports => surveySpecifiers t
  | _ => ([], [], 0)

/-- Survey an import statement. Its names are not uses. -/
def surveyImport (t : Tree) : Except Unsupported Findings :=
  if t.hasChild .importRequireClause then .error ⟨.importRequire, t.span.start⟩
  else if t.hasChild (.mark "type") || t.hasChild (.mark "typeof") then
    .ok (.ofBlanks [t.span])
  else
    match t.child? .importClause with
    | none => .ok {}
    | some clause =>
      let parts := (withNext clause.children).map fun (part, next?) => surveyClausePart part next?
      .ok ⟨parts.flatMap (·.1), [],
        [⟨t.span, parts.flatMap (·.2.1), parts.foldr (fun part n => part.2.2 + n) 0⟩], []⟩

/-- Once its return type is gone, an arrow function whose parameters end on an earlier line
would have a line break before its arrow. Its closing parenthesis then moves to where the last
character of the type was. -/
def surveyReturnType (source : List Char) (t : Tree) : Findings :=
  let isReturnType (k : Kind) : Bool :=
    k == .typeAscription || k == .predicateAscription || k == .assertsAscription
  match t.child? .parameters, t.children.find? (isReturnType ·.kind) with
  | some parameters, some returnType =>
    let close := parameters.span.stop
    let between := (Text.withOffsets 0 source).filter fun (offset, _) =>
      close ≤ offset && offset < returnType.span.stop
    match between.getLast? with
    | some (last, _) =>
      if between.any (·.2 == '\n') then
        ⟨[⟨close - 1, close⟩], [], [], [⟨last, ')'⟩]⟩
      else {}
    | none => {}
  | _, _ => {}

/-- What a survey does at a tree. -/
inductive Action where
  /-- Refuse the program. -/
  | refuse (construct : Construct)
  /-- Record findings and leave the parts alone. -/
  | record (findings : Findings)
  /-- Record findings and go on with the parts. -/
  | descend (findings : Findings)
  /-- Record findings and go on with the first part only. -/
  | descendFirst (findings : Findings)
  /-- Survey an import statement. -/
  | importStatement

/-- The action at a tree, given the tree that follows it and the range of the export statement
directly around it. -/
def actionAt (source : List Char) (export? : Option Span) (next? : Option Tree) (t : Tree) :
    Action :=
  let has (text : String) : Bool := t.hasChild (.mark text)
  if isTypeOnly t.kind then .record (.ofBlanks [t.span])
  else if isTypeDeclaration t.kind then
    .record (.ofBlanks [export?.getD (memberRange next? t)])
  else
    match t.kind with
    | .enumDeclaration => .refuse .enumeration
    | .namespaceDeclaration => .refuse .namespaceBlock
    | .importAlias => .refuse .importAlias
    | .element | .selfClosingElement => .refuse .markup
    | .importStatement => .importStatement
    | .exportStatement =>
      if has "=" then .refuse .exportAssignment
      else if has "type" || has "namespace" then .record (.ofBlanks [t.span])
      else .descend {}
    | .importSpecifier | .exportSpecifier =>
      if has "type" then .record (.ofBlanks [itemRange next? t]) else .descend {}
    | .asExpression | .satisfiesExpression =>
      let isOperator (u : Tree) : Bool := u.kind == .mark "as" || u.kind == .mark "satisfies"
      .descendFirst (.ofBlanks
        ((t.children.find? isOperator).toList.map fun u => ⟨u.span.start, t.span.stop⟩))
    | .nonNull | .declarator => .descend (.ofBlanks (childRanges [.mark "!"] t))
    | .requiredParameter | .optionalParameter =>
      if t.hasChild .accessibility || t.hasChild .overriding || has "readonly" then
        .refuse .parameterProperty
      else if has "this" then .record (.ofBlanks [itemRange next? t])
      else .descend (.ofBlanks (childRanges [.mark "?"] t))
    | .field =>
      if has "declare" || has "abstract" then .record (.ofBlanks [memberRange next? t])
      else .descend (.ofBlanks (childRanges
        [.accessibility, .overriding, .mark "readonly", .mark "?", .mark "!"] t))
    | .method =>
      .descend (.ofBlanks (childRanges [.accessibility, .overriding, .mark "?"] t))
    | .arrow => .descend (surveyReturnType source t)
    | .abstractClassDeclaration => .descend (.ofBlanks (childRanges [.mark "abstract"] t))
    | .identifier | .shorthand => .record ⟨[], [t.text], [], []⟩
    | _ => .descend {}

/-- The range of an export statement, which goes along with a declaration directly in it. -/
def exportRange? (t : Tree) : Option Span :=
  if t.kind == .exportStatement then some t.span else none

mutual

/-- Survey a tree in source order. -/
def survey (source : List Char) (export? : Option Span) (next? : Option Tree) (t : Tree) :
    Except Unsupported Findings :=
  match actionAt source export? next? t, t with
  | .refuse construct, t => .error ⟨construct, t.span.start⟩
  | .record findings, _ => .ok findings
  | .importStatement, t => surveyImport t
  | .descend findings, .leaf _ _ _ => .ok findings
  | .descendFirst findings, .leaf _ _ _ => .ok findings
  | .descend findings, .node kind span children =>
    (surveyAll source (exportRange? (.node kind span children)) children).map (findings ++ ·)
  | .descendFirst findings, .node _ _ children =>
    (surveyFirst source children).map (findings ++ ·)

/-- Survey neighbouring trees one after the other. -/
def surveyAll (source : List Char) (export? : Option Span) :
    List Tree → Except Unsupported Findings
  | [] => .ok {}
  | t :: ts => do
    let findings ← survey source export? ts.head? t
    let more ← surveyAll source export? ts
    return findings ++ more

/-- Survey the first of some neighbouring trees. -/
def surveyFirst (source : List Char) : List Tree → Except Unsupported Findings
  | [] => .ok {}
  | t :: ts => survey source none ts.head? t

end

end ScriptModules.Strip
