import ScriptModules.Grammar.Program

/-!
# How far a text can be read

Reading a second time along with a record of the furthest token that any attempt has read. Where a
text is no program, the token after that one is the first that nothing allows.
-/

namespace ScriptModules.Grammar

/-- What a rule answers, and the offset just past the furthest token that was read on the way. -/
structure Traced where
  outcome : Outcome
  reach : Nat := 0

namespace Traced

/-- Go on where something was read. -/
def andThen (t : Traced) (next : Forest → Cursor → Traced) : Traced :=
  match t.outcome with
  | none => t
  | some (forest, after) =>
    let u := next forest after
    ⟨u.outcome, max t.reach u.reach⟩

/-- Try something else where nothing was read. -/
def orElse (t : Traced) (other : Unit → Traced) : Traced :=
  match t.outcome with
  | some _ => t
  | none =>
    let u := other ()
    ⟨u.outcome, max t.reach u.reach⟩

/-- Change the trees that were read. -/
def change (t : Traced) (f : Forest → Forest) : Traced :=
  { t with outcome := t.outcome.map fun (forest, after) => (f forest, after) }

end Traced

/-- Repeat a step at most `limit` times, and no longer than it moves on. -/
def traceSteps (step : Forest → Cursor → Traced) : Nat → Nat → Forest → Cursor → Traced
  | 0, reach, left, c => ⟨some (left, c), reach⟩
  | limit + 1, reach, left, c =>
    let t := step left c
    let reach := max reach t.reach
    match t.outcome with
    | none => ⟨some (left, c), reach⟩
    | some (forest, after) =>
      if after.offset = c.offset then ⟨some (left, c), reach⟩
      else traceSteps step limit reach forest after

/-- Read one token and tell how far. -/
def Terminal.trace (d : Dialect) (t : Terminal) (c : Cursor) : Traced :=
  match t.read? d c with
  | none => ⟨none, 0⟩
  | some (forest, after) => ⟨some (forest, after), after.offset⟩

/-- Read by a rule and tell how far. What is only looked at does not count. -/
def Rule.trace {σ : Type} (d : Dialect) (traceSymbol : σ → Cursor → Traced) :
    Rule σ → Forest → Cursor → Traced
  | empty, left, c => ⟨some (left, c), 0⟩
  | token t, left, c => (t.trace d c).change (left ++ ·)
  | symbol s, left, c => (traceSymbol s c).change (left ++ ·)
  | seq a b, left, c => (a.trace d traceSymbol left c).andThen (b.trace d traceSymbol)
  | alt a b, left, c =>
    (a.trace d traceSymbol left c).orElse fun _ => b.trace d traceSymbol left c
  | many part, left, c => traceSteps (part.trace d traceSymbol) (c.size + 1) 0 left c
  | group part, left, c => (part.trace d traceSymbol [] c).change (left ++ ·)
  | node kind part, left, c =>
    (part.trace d traceSymbol [] c).change fun forest =>
      left ++ Forest.gather kind c.offset forest
  | absorb kind part, left, c =>
    (part.trace d traceSymbol left c).change (Forest.gather kind c.offset)
  | check accepts, left, c => ⟨if left.getLast?.any accepts then some (left, c) else none, 0⟩
  | peek part, left, c => ⟨(part.trace d traceSymbol [] c).outcome.map fun _ => (left, c), 0⟩
  | deny part, left, c =>
    match (part.trace d traceSymbol [] c).outcome with
    | none => ⟨some (left, c), 0⟩
    | some _ => ⟨none, 0⟩

/-- Read a symbol of a grammar and tell how far. -/
def traceSymbol {σ : Type} (d : Dialect) (rules : σ → Rule σ) : Nat → σ → Cursor → Traced
  | 0, _, _ => ⟨none, 0⟩
  | depth + 1, s, c => (rules s).trace d (traceSymbol d rules depth) [] c

end ScriptModules.Grammar
