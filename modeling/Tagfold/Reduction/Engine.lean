import Tagfold.Reduction.Parser

/-!
# Reduction

A sequence of expressions is folded step by step. Every step applies the first rule that matches
somewhere, at its leftmost match, and starts over; nothing is ever taken back. The reduction ends
when one expression is left, when no rule matches, or when a reducer fails. `Parser.step` is one step
and `Parser.reduce` the whole reduction. Rules that fold a single expression may go on forever, so
that a parser has a budget of steps.
-/

namespace Tagfold

namespace CompiledRule

/-- The tag sets accept the expressions at the head of a sequence, one by one. -/
def acceptsHead : List TagSet → List Expr → Except Misuse Bool
  | [], _ => .ok true
  | _ :: _, [] => .ok false
  | s :: ss, e :: es => do
    let t ← e.tag
    if s.contains t then acceptsHead ss es else return false

/-- A sequence has at least the given number of expressions. It is walked no further than that. -/
def hasLength : Nat → List Expr → Bool
  | 0, _ => true
  | _ + 1, [] => false
  | n + 1, _ :: es => hasLength n es

/-- The rule matches at an index: enough expressions are left, and the sets accept them. -/
def matchesAt (r : CompiledRule) (seq : List Expr) (i : Nat) : Except Misuse Bool :=
  if hasLength (i + r.width) seq then acceptsHead r.sets (seq.drop i) else .ok false

/-- The leftmost of the next `count` places at which the rule matches, counted from `start`. The
search walks along the sequence and asks at the head of what is left. -/
def findFrom (r : CompiledRule) :
    (count start : Nat) → List Expr → Except Misuse (Option Nat)
  | 0, _, _ => .ok none
  | count + 1, start, seq => do
    if ← r.matchesAt seq 0 then return some start
    findFrom r count (start + 1) seq.tail

/-- All of the next `count` places at which the rule matches, counted from `start`. -/
def findAllFrom (r : CompiledRule) :
    (count start : Nat) → List Expr → Except Misuse (List Nat)
  | 0, _, _ => .ok []
  | count + 1, start, seq => do
    let here ← r.matchesAt seq 0
    let later ← findAllFrom r count (start + 1) seq.tail
    return if here then start :: later else later

/-- The number of places at which the pattern fits into a sequence. -/
def places (r : CompiledRule) (seq : List Expr) : Nat :=
  seq.length + 1 - r.width

/-- The leftmost match of the rule. -/
def find? (r : CompiledRule) (seq : List Expr) : Except Misuse (Option Nat) :=
  r.findFrom (r.places seq) 0 seq

/-- All matches of the rule, from left to right. -/
def findAll (r : CompiledRule) (seq : List Expr) : Except Misuse (List Nat) :=
  r.findAllFrom (r.places seq) 0 seq

end CompiledRule

/-- A compiled rule together with one of its matches. -/
structure Candidate where
  rule : CompiledRule
  site : Match

namespace Candidate

/-- The leftmost match of the first rule that has one; the first rule has the given index. -/
def firstFrom (seq : List Expr) :
    (index : Nat) → List CompiledRule → Except Misuse (Option Candidate)
  | _, [] => .ok none
  | index, r :: rs => do
    match ← r.find? seq with
    | some pos => return some ⟨r, ⟨index, pos, r.width⟩⟩
    | none => firstFrom seq (index + 1) rs

/-- All matches, by rule and position; the first rule has the given index. -/
def allFrom (seq : List Expr) :
    (index : Nat) → List CompiledRule → Except Misuse (List Candidate)
  | _, [] => .ok []
  | index, r :: rs => do
    let here ← r.findAll seq
    let later ← allFrom seq (index + 1) rs
    return here.map (fun pos ↦ ⟨r, ⟨index, pos, r.width⟩⟩) ++ later

end Candidate

namespace Parser

/-- All matches of all rules, by rule and position. -/
def candidates (p : Parser) (seq : List Expr) : Except Misuse (List Match) :=
  (Candidate.allFrom seq 0 p.rules).map (·.map Candidate.site)

/-- The match that a step applies. -/
def firstMatch (p : Parser) (seq : List Expr) : Except Misuse (Option Candidate) :=
  Candidate.firstFrom seq 0 p.rules

/-- The sequence with a span folded into one expression. -/
def replaceSpan (seq : List Expr) (m : Match) (e : Expr) : List Expr :=
  seq.take m.pos ++ e :: seq.drop (m.pos + m.len)

/-- Apply a rule at a match: the folded sequence and the entry about it. -/
def apply (reg : Registry) (source : Text) (seq : List Expr) (c : Candidate) :
    Except Halt (List Expr × LogEntry) := do
  let first := seq[c.site.pos]?.getD .hole
  let name ← Halt.ofMisuse first.name
  let place ← Halt.ofMisuse first.pos
  let fail (f : ReducerFailure) : Except Halt (List Expr × LogEntry) :=
    .error (.failed (.reducer source c.rule.name name place f))
  match c.rule.reduce seq c.site.pos with
  | .error (.misuse m) => .error (.misused m)
  | .error (.issue i) => fail (.failed i)
  | .ok .hole => fail .noResult
  | .ok e =>
    let tag ← Halt.ofMisuse e.tag
    if reg.owns tag then
      let place ← Halt.ofMisuse e.pos
      return (replaceSpan seq c.site e, .reduced c.rule.name c.site tag.name place)
    else fail (.unknownTag tag.name)

/-- The matches other than the chosen one that share an index with it. -/
def rivals (p : Parser) (seq : List Expr) (chosen : Match) :
    Except Misuse (List (Text × Nat)) := do
  let all ← Candidate.allFrom seq 0 p.rules
  return (all.filter fun c ↦ c.site ≠ chosen ∧ c.site.overlaps chosen).map fun c ↦
    (c.rule.name, c.site.pos)

/-- The entry about the rivals of the chosen match, if it has any. -/
def ambiguity (p : Parser) (seq : List Expr) (c : Candidate) :
    Except Misuse (List LogEntry) := do
  let rivals ← p.rivals seq c.site
  if rivals.isEmpty then return []
  let place ← (seq[c.site.pos]?.getD .hole).pos
  let pending ← Expr.tagNames seq
  return [.ambiguous c.rule.name c.site rivals place pending]

/-- One attempt to fold: nothing if no rule matches, and otherwise the folded sequence. -/
def attempt (p : Parser) (reg : Registry) (report : Bool) (source : Text) (seq : List Expr) :
    Logged (Except Halt (Option (List Expr))) :=
  match p.firstMatch seq with
  | .error m => ⟨[], .error (.misused m)⟩
  | .ok none => ⟨[], .ok none⟩
  | .ok (some c) =>
    match (if report then p.ambiguity seq c else .ok []) with
    | .error m => ⟨[], .error (.misused m)⟩
    | .ok warnings =>
      match apply reg source seq c with
      | .error h => ⟨warnings, .error h⟩
      | .ok (folded, entry) => ⟨warnings ++ [entry], .ok (some folded)⟩

/-- Fold once. There is no folded sequence if no rule matches. -/
def step (p : Parser) (reg : Registry) (seq : List Expr) :
    Logged (Except Halt (Option (List Expr))) :=
  p.attempt reg false [] seq

/-- The expression that is blamed when no rule matches: the first leaf made of a text, or the first
expression. -/
def culprit (seq : List Expr) : Expr :=
  (seq.find? (!·.text.isEmpty)).getD (seq.head?.getD .hole)

/-- The error of a sequence that no rule matches, and the entry about it. -/
def stall (source : Text) (seq : List Expr) : Logged Halt :=
  match Expr.tagNames seq, (culprit seq).name, (culprit seq).pos with
  | .ok names, .ok tag, .ok place => ⟨[.stalled names], .failed (.stalled source tag place names seq)⟩
  | _, _, _ => ⟨[], .misused .missingExpr⟩

/-- Fold until one expression is left, behind the entries already written, newest first. -/
def reduceLoop (p : Parser) (reg : Registry) (source : Text) :
    (budget : Nat) → (log : List LogEntry) → List Expr → Logged (Except Halt Expr)
  | _, log, [] => ⟨log.reverse, .error (.failed (.emptyInput source))⟩
  | _, log, [e] => ⟨log.reverse, .ok e⟩
  | 0, log, _ => ⟨log.reverse, .error .overBudget⟩
  | budget + 1, log, seq =>
    let tried := p.attempt reg p.reportAmbiguity source seq
    let log := tried.log.reverse ++ log
    match tried.result with
    | .error h => ⟨log.reverse, .error h⟩
    | .ok none =>
      let stalled := stall source seq
      ⟨log.reverse ++ stalled.log, .error stalled.result⟩
    | .ok (some folded) => p.reduceLoop reg source budget log folded

/-- Fold a sequence of a source into one expression. -/
def reduceIn (p : Parser) (reg : Registry) (source : Text) (seq : List Expr) :
    Logged (Except Halt Expr) :=
  p.reduceLoop reg source (p.budget seq.length) [] seq

/-- Fold a sequence into one expression. -/
def reduce (p : Parser) (reg : Registry) (seq : List Expr) : Logged (Except Halt Expr) :=
  p.reduceIn reg [] seq

end Parser

end Tagfold
