import ScriptModules.Json.Reader
import ScriptModules.SourceMap.Mappings

/-!
# Source maps as JSON documents

A document of version 3 names its sources and their texts and holds the mappings text. It may
also be written as an array of its six fields, and members of other names are skipped.
-/

namespace ScriptModules.SourceMap

open Json (Place Fault Found Value)

/-- The members of a document. -/
structure Document where
  version : Nat
  file : Option String
  sources : List String
  contents : List (Option String)
  names : List String
  mappings : String
  deriving DecidableEq, Repr

/-- The document of a map as a JSON value. Texts of sources are left out when none is known. -/
def toValue (m : SourceMap) : Value :=
  let texts (l : List String) : Value := .array (l.map .string)
  let file := m.file.toList.map fun f => ("file", Value.string f)
  let contents :=
    if m.contents.all Option.isNone then []
    else [("sourcesContent", Value.array (m.contents.map Value.ofOption))]
  .object ([("version", .ofNat 3)] ++ file ++ [("sources", texts m.sources)] ++ contents ++
    [("names", texts m.names), ("mappings", .string m.mappings)])

/-- The document of a map. -/
def toJson (m : SourceMap) : String := m.toValue.compact

/-- A URL that holds the document itself. -/
def toDataUrl (m : SourceMap) : String :=
  "data:application/json;base64," ++ Text.Base64.encodeText m.toJson

/-- The comment at the end of a script that gives its map. -/
def toComment (m : SourceMap) : String := "//# sourceMappingURL=" ++ m.toDataUrl

/-- The fault of a value that is not of the expected type. Words, numbers and strings are read
before the fault is noticed. -/
private def mismatch (expected : String) (p : Place) : Fault :=
  let wrong (found : Found) (p : Place) : Fault := p.fault (.invalidType found expected)
  let word (cs : String) (found : Found) : Fault :=
    match Json.readWord cs.toList p.next with
    | .ok p => wrong found p
    | .error f => f
  let number (negative : Bool) (p : Place) : Fault :=
    match Json.readNumber negative p with
    | .ok (n, p) => wrong (.number n) p
    | .error f => f
  match p.rest with
  | [] => p.faultAhead .expectedValue
  | c :: _ =>
    if c == 'n' then word "ull" .null
    else if c == 't' then word "rue" (.bool true)
    else if c == 'f' then word "alse" (.bool false)
    else if c == '-' then number true p.next
    else if c.isDigit then number false p
    else if c == '\x22' then
      match Json.readText .keep p.next with
      | .ok (s, p) => wrong (.string s) p
      | .error f => f
    else if c == '[' then wrong .sequence p
    else if c == '\x7b' then wrong .map p
    else p.faultAhead .expectedValue

/-- Read a number of 32 bits. -/
def readWord32 (p : Place) : Except Fault (Nat × Place) := do
  let p := p.skipBlanks
  let check : Json.Number × Place → Except Fault (Nat × Place)
    | (.natural n, p) =>
      if n < Nat.pow 2 32 then .ok (n, p)
      else .error (p.fault (.invalidValue (.number (.natural n)) "u32"))
    | (.negative n, p) => .error (p.fault (.invalidValue (.number (.negative n)) "u32"))
    | (.float x, p) => .error (p.fault (.invalidType (.number (.float x)) "u32"))
  match p.rest with
  | [] => throw (p.faultAhead .endInValue)
  | c :: _ =>
    if c == '-' then check (← Json.readNumber true p.next)
    else if c.isDigit then check (← Json.readNumber false p)
    else throw (mismatch "u32" p)

/-- Read a string. -/
def readString (p : Place) : Except Fault (String × Place) :=
  let p := p.skipBlanks
  match p.rest with
  | [] => .error (p.faultAhead .endInValue)
  | c :: _ =>
    if c == '\x22' then Json.readText .keep p.next else .error (mismatch "a string" p)

/-- Read a string or null. -/
def readOptional (p : Place) : Except Fault (Option String × Place) :=
  let p := p.skipBlanks
  match p.rest with
  | 'n' :: _ => (Json.readWord "ull".toList p.next).map fun p => (none, p)
  | _ => (readString p).map fun (s, p) => (some s, p)

/-- Read an array. -/
def readList {α : Type} (item : Place → Except Fault (α × Place)) (p : Place) :
    Except Fault (List α × Place) :=
  let p := p.skipBlanks
  match p.rest with
  | [] => .error (p.faultAhead .endInValue)
  | c :: _ =>
    if c == '[' then Json.readItems .keep item (p.rest.length + 1) true p.next
    else .error (mismatch "a sequence" p)

/-- The members read so far. -/
structure Draft where
  version : Option Nat := none
  file : Option (Option String) := none
  sources : Option (List String) := none
  contents : Option (List (Option String)) := none
  names : Option (List String) := none
  mappings : Option String := none

/-- What the document is called in messages. -/
private def expectedDocument : String := "struct RawSourceMap"

/-- The place after a closing brace, where one follows. -/
def afterClose (p : Place) : Place :=
  let p := p.skipBlanks
  match p.rest with
  | '\x7d' :: _ => p.next
  | _ => p

/-- Read one member. -/
def readMember (d : Draft) (key : String) (p : Place) : Except Fault (Draft × Place) := do
  let once {α : Type} (field : Option α) (read : Place → Except Fault (α × Place)) :
      Except Fault (α × Place) := do
    if field.isSome then throw ((afterClose p).fault (.duplicateField key))
    read (← Json.readColon p)
  match key with
  | "version" =>
    let (x, p) ← once d.version readWord32
    return ({ d with version := some x }, p)
  | "file" =>
    let (x, p) ← once d.file readOptional
    return ({ d with file := some x }, p)
  | "sources" =>
    let (x, p) ← once d.sources (readList readString)
    return ({ d with sources := some x }, p)
  | "sourcesContent" =>
    let (x, p) ← once d.contents (readList readOptional)
    return ({ d with contents := some x }, p)
  | "names" =>
    let (x, p) ← once d.names (readList readString)
    return ({ d with names := some x }, p)
  | "mappings" =>
    let (x, p) ← once d.mappings readString
    return ({ d with mappings := some x }, p)
  | _ =>
    let p ← Json.readColon p
    let (_, p) ← Json.readValue .skim (p.rest.length + 2) p
    return (d, p)

/-- Complete a draft: the version, the sources and the mappings have to be there. -/
def Draft.finish (d : Draft) (p : Place) : Except Fault Document := do
  let need {α : Type} (name : String) (field : Option α) : Except Fault α :=
    match field with
    | some x => .ok x
    | none => .error (p.fault (.missingField name))
  let version ← need "version" d.version
  let sources ← need "sources" d.sources
  let mappings ← need "mappings" d.mappings
  return ⟨version, d.file.getD none, sources, d.contents.getD [], d.names.getD [], mappings⟩

/-- Read one field of the array form. A field that is not there has its default, if any. -/
private def readSlot {α : Type} (index : Nat) (default? : Option α)
    (read : Place → Except Fault (α × Place)) (p : Place) : Except Fault (α × Place) := do
  match ← Json.nextItem .keep (index == 0) p with
  | .item p => read p
  | .close p =>
    match default? with
    | some x => return (x, p)
    | none =>
      throw (p.next.fault (.invalidLength index (expectedDocument ++ " with 6 elements")))

/-- The end of the array form. -/
def readListEnd (p : Place) : Except Fault Place :=
  let p := p.skipBlanks
  match p.rest with
  | [] => .error (p.faultAhead .endInList)
  | c :: _ =>
    if c == ']' then .ok p.next
    else if c == ',' then
      let q := p.next.skipBlanks
      .error (q.faultAhead
        (if q.rest.head? == some ']' then .trailingComma else .trailingCharacters))
    else .error (p.faultAhead .trailingCharacters)

/-- Read the array form, after its opening bracket. -/
private def readSlots (p : Place) : Except Fault (Document × Place) := do
  let (version, p) ← readSlot 0 none readWord32 p
  let (file, p) ← readSlot 1 (some none) readOptional p
  let (sources, p) ← readSlot 2 none (readList readString) p
  let (contents, p) ← readSlot 3 (some []) (readList readOptional) p
  let (names, p) ← readSlot 4 (some []) (readList readString) p
  let (mappings, p) ← readSlot 5 none readString p
  let p ← readListEnd p
  return (⟨version, file, sources, contents, names, mappings⟩, p)

/-- Read a whole document. -/
def Document.parse (s : String) : Except Fault Document := do
  let p := (Place.ofText s).skipBlanks
  let (document, p) ← (do
    match p.rest with
    | [] => throw (p.faultAhead .endInValue)
    | c :: _ =>
      if c == '[' then readSlots p.next
      else if c == '\x7b' then
        let (draft, p) ← Json.readMembers .keep readMember (p.rest.length + 1) true {} p.next
        let document ← draft.finish p
        return (document, p)
      else throw (mismatch expectedDocument p))
  Json.readEnd p
  return document

/-- Why a text is no source map. -/
inductive DocumentFault where
  | json (fault : Fault)
  | version (n : Nat)
  | mappings (fault : MappingsFault)
  deriving DecidableEq, Repr

/-- The wording of a fault. -/
def DocumentFault.text : DocumentFault → String
  | json fault => "invalid source map JSON: " ++ fault.text
  | version n => "unsupported source map version " ++ toString n
  | mappings fault =>
    "invalid mappings at byte " ++ toString fault.offset ++ ": " ++ fault.reason

/-- The map of a document of version 3. -/
def Document.toMap (d : Document) : Except DocumentFault SourceMap :=
  if d.version != 3 then .error (.version d.version)
  else
    match linesOf d.mappings with
    | .error fault => .error (.mappings fault)
    | .ok lines =>
      .ok {
        file := d.file
        sources := d.sources
        contents := if d.contents.isEmpty then d.sources.map fun _ => none else d.contents
        names := d.names
        lines := lines }

/-- The map of a JSON text. -/
def ofJson (s : String) : Except DocumentFault SourceMap :=
  match Document.parse s with
  | .error fault => .error (.json fault)
  | .ok document => document.toMap

end ScriptModules.SourceMap
