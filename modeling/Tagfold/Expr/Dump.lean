import Tagfold.Expr.Walk

/-!
# Dumps

A dump shows an expression one line at a time, indented by level. Every line is one write to a
sink. After a write that the sink refuses nothing more is written, and the dump ends with the issue
of that write.
-/

namespace Tagfold

/-- Where texts are written to: it may stop accepting after a number of writes. -/
structure Sink where
  room : Option Nat
  /-- The issue of a write that is refused. -/
  failure : Issue
  attempts : Nat
  chunks : List Text
  deriving Repr

namespace Sink

/-- What a refused write usually ends with. -/
def refusal : Issue := .plain (utf8 "write failed")

/-- A sink that accepts everything. -/
def unlimited : Sink := ⟨none, refusal, 0, []⟩

/-- A sink that accepts a number of writes and refuses all further ones. -/
def limited (n : Nat) : Sink := ⟨some n, refusal, 0, []⟩

/-- Everything that was accepted. -/
def written (s : Sink) : Text :=
  s.chunks.reverse.flatten

/-- Attempt a write. It has an issue if it is refused. -/
def write (s : Sink) (t : Text) : Sink × Option Issue :=
  match s.room with
  | none => ({ s with attempts := s.attempts + 1, chunks := t :: s.chunks }, none)
  | some 0 => ({ s with attempts := s.attempts + 1 }, some s.failure)
  | some (n + 1) =>
    ({ s with room := some n, attempts := s.attempts + 1, chunks := t :: s.chunks }, none)

end Sink

namespace Expr

/-- The line of one expression: indentation, tag, value and position. -/
def dumpLine (level : Nat) (e : Expr) : Except Misuse Text := do
  let name ← e.name
  let p ← e.pos
  let value :=
    match e.value with
    | .absent => []
    | v => utf8 " " ++ v.display
  return Text.times level (utf8 "  ") ++ name ++ value ++ utf8 " @" ++ Text.ofInt p.line ++
    utf8 ":" ++ Text.ofInt p.col ++ utf8 "\n"

/-- How far a dump has come: the sink, and the issue of the write that it has refused, if there is
one. -/
structure DumpState where
  sink : Sink
  issue : Option Issue

/-- A write was refused. -/
def DumpState.refused (s : DumpState) : Bool :=
  s.issue.isSome

/-- Write the line of an expression unless something went wrong before. -/
def dumpVisitor : Visitor (Except Misuse DumpState)
  | .error m, _, _ => (.error m, false)
  | .ok s, level, e =>
    if s.refused then (.ok s, false)
    else
      match dumpLine level e with
      | .error m => (.error m, false)
      | .ok line =>
        let (sink, issue) := s.sink.write line
        (.ok ⟨sink, issue⟩, issue.isNone)

/-- Dump an expression into a sink. -/
def dump (sink : Sink) (e : Expr) : Except Misuse DumpState :=
  walk .leftToRight dumpVisitor (.ok ⟨sink, none⟩) e

/-- The dump of an expression as a text. -/
def dumpText (e : Expr) : Except Misuse Text :=
  (dump Sink.unlimited e).map (·.sink.written)

end Expr

end Tagfold
