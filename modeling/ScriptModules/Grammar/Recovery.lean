import ScriptModules.Grammar.Repair

/-!
# Reading what is no program

A text that is no program is repaired, and what was done to it tells what is wrong with it.
-/

namespace ScriptModules.Grammar

/-- What is wrong with a text, and the byte offset where. -/
structure Blame where
  offset : Nat
  message : String
  deriving DecidableEq, Repr

/-- The start of a text, up to twenty characters of its first line. -/
private def snippet (cs : List Char) : String :=
  String.ofList ((cs.take 20).takeWhile (· != '\n'))

/-- What a repair tells. -/
def Repair.blame (cs : List Char) : Repair → Blame
  | skipped span _ =>
    ⟨span.start, "unexpected \x22" ++
      snippet (Text.before (span.stop - span.start) (Text.fromOffset span.start cs)) ++ "\x22"⟩
  | added offset token => ⟨offset, "expected \x22" ++ token ++ "\x22"⟩

/-- The repair that comes first in the source. -/
def firstRepair? (repairs : List Repair) : Option Repair :=
  repairs.foldl (fun first r =>
    if first.all fun (f : Repair) => r.offset ≤ f.offset then some r else first) none

/-- The part of a text to blame. -/
def blame (d : Dialect) (source : String) : Blame :=
  let cs := source.toList
  ((firstRepair? (repaired d cs).repairs).map (Repair.blame cs)).getD ⟨0, "unexpected \x22\x22"⟩

/-- What was left out of a text, as a tree. -/
def Repair.tree? : Repair → Option Tree
  | skipped span forest => some (.node .error span forest)
  | added .. => none

/-- The tree of a text, program or not. Parts that were left out stand beside the statements. -/
def parseAnyway (d : Dialect) (source : String) : Tree :=
  match parse? d source with
  | some tree => tree
  | none =>
    let w := repaired d source.toList
    let forest := w.done ++ w.repairs.filterMap Repair.tree?
    .node .program ⟨0, source.utf8ByteSize⟩
      (forest.mergeSort fun a b => a.span.start ≤ b.span.start)

/-- Whether a text uses the syntax of modules: an import or export statement at the top, or a
property of the running module or function anywhere. -/
def usesModuleSyntax (source : String) : Bool :=
  let tree := parseAnyway .plain source
  tree.children.any (fun t => t.kind == .importStatement || t.kind == .exportStatement) ||
    tree.preorder.any (·.kind == .metaProperty)

end ScriptModules.Grammar
