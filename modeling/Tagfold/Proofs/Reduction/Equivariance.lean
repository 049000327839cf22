import Tagfold.Grammar
import Tagfold.Proofs.Expr.Walk
import Tagfold.Proofs.Reduction.Run

/-!
# Moving positions through a reduction

A reduction never looks at positions: it hands them on from tokens to leaves, from expressions to
the nodes made of them, and into errors and log entries. So if the reducers of a parser do not look
at positions either, moving all positions of the tokens moves those of the outcome and changes
nothing else. Read `Parser.parse_relocate` first. What one attempt to fold does with moved
expressions is `Parser.attempt_relocate`, and `Parser.reduceLoop_relocate` carries it through a
whole reduction.
-/

namespace Tagfold

/-- Where the positions and the offsets of a source are moved to. -/
structure Relocation where
  pos : Pos → Pos
  offset : Int → Int

/-- All positions and offsets are moved to one place. -/
def Relocation.gather : Relocation := ⟨fun _ ↦ ⟨0, 0⟩, fun _ ↦ 0⟩

/-- All positions but the given ones are moved. -/
def Relocation.allBut (ps : List Pos) : Relocation :=
  ⟨fun q ↦ if q ∈ ps then q else ⟨q.line + 1, q.col⟩, id⟩

/-- The positions that stay are the given ones. -/
theorem Relocation.allBut_pos_eq_self {ps : List Pos} {q : Pos} :
    (allBut ps).pos q = q ↔ q ∈ ps := by
  constructor
  · intro h
    by_contra hq
    have hline := congrArg Pos.line ((if_neg hq).symm.trans h)
    dsimp only at hline
    omega
  · intro h
    exact if_pos h

/-- What a token is apart from its place: its class, its text and its source. -/
def Token.lexeme (t : Token) : TokenKind × Text × Text :=
  (t.kind, t.text, t.source)

section Definitions

variable (m : Relocation)

mutual

/-- The expression with all positions in it moved. -/
def Expr.relocate : Expr → Expr
  | hole => hole
  | leaf t p v x => leaf t (m.pos p) v x
  | node t p cs => node t (m.pos p) (relocateAll cs)

/-- The expressions of a list with all positions in them moved. -/
def Expr.relocateAll : List Expr → List Expr
  | [] => []
  | c :: cs => relocate c :: relocateAll cs

end

/-- The token at the place it is moved to. -/
def Token.relocate (t : Token) : Token :=
  { t with offset := m.offset t.offset, pos := m.pos t.pos }

/-- The error with its position moved. -/
def LexicalError.relocate : LexicalError → LexicalError
  | wrongChar p r => wrongChar (m.pos p) r
  | unterminatedString p text => unterminatedString (m.pos p) text
  | unterminatedComment p => unterminatedComment (m.pos p)

/-- The error with the positions moved of what it is about. An empty input has no position. -/
def ParseError.relocate : ParseError → ParseError
  | lexical source e => lexical source (e.relocate m)
  | invalidIdentifier t => invalidIdentifier (t.relocate m)
  | integerRange t reason => integerRange (t.relocate m) reason
  | badString t reason => badString (t.relocate m) reason
  | unknownToken t => unknownToken (t.relocate m)
  | emptyInput source => emptyInput source
  | reducer source rule tag place failure => reducer source rule tag (m.pos place) failure
  | stalled source tag place names remaining =>
    stalled source tag (m.pos place) names (remaining.map (Expr.relocate m))

/-- The end of a reduction with the positions in its error moved. -/
def Halt.relocate : Halt → Halt
  | failed e => failed (e.relocate m)
  | h => h

/-- The log entry with its position moved. -/
def LogEntry.relocate : LogEntry → LogEntry
  | reduced rule site tag place => reduced rule site tag (m.pos place)
  | ambiguous rule site rivals place pending => ambiguous rule site rivals (m.pos place) pending
  | e => e

/-- An outcome and the entries on the way to it with all positions moved, those of a result by the
given function. -/
def Logged.relocate {α : Type} (move : α → α) (x : Logged (Except Halt α)) :
    Logged (Except Halt α) :=
  ⟨x.log.map (LogEntry.relocate m), (x.result.map move).mapError (Halt.relocate m)⟩

end Definitions

/-- The reducer does not look at positions: what it makes of moved expressions is what it makes of
the expressions, moved. -/
def Reducer.Equivariant (r : Reducer) : Prop :=
  ∀ (m : Relocation) (seq : List Expr) (i : Nat),
    r (seq.map (Expr.relocate m)) i = (r seq i).map (Expr.relocate m)

/-- No reducer of the parser looks at positions. -/
def Parser.Equivariant (p : Parser) : Prop :=
  ∀ r ∈ p.rules, Reducer.Equivariant r.reduce

variable {m : Relocation}

namespace Expr

/-- The expressions of a list are moved one by one. -/
theorem relocateAll_eq_map (cs : List Expr) : relocateAll m cs = cs.map (relocate m) := by
  induction cs with
  | nil => rfl
  | cons c cs ih => rw [relocateAll, ih, List.map_cons]

/-- A node is moved with its children. -/
@[simp]
theorem relocate_node (t : Tag) (p : Pos) (cs : List Expr) :
    (node t p cs).relocate m = node t (m.pos p) (cs.map (relocate m)) := by
  rw [relocate, relocateAll_eq_map]

/-- Moving an expression keeps its tag. -/
@[simp]
theorem tag_relocate (e : Expr) : (e.relocate m).tag = e.tag := by
  cases e <;> rfl

/-- Moving an expression keeps its name. -/
@[simp]
theorem name_relocate (e : Expr) : (e.relocate m).name = e.name := by
  simp [name]

/-- A moved expression has the moved position. -/
@[simp]
theorem pos_relocate (e : Expr) : (e.relocate m).pos = e.pos.map m.pos := by
  cases e <;> rfl

/-- Moving an expression keeps its value. -/
@[simp]
theorem value_relocate (e : Expr) : (e.relocate m).value = e.value := by
  cases e <;> rfl

/-- Moving an expression keeps its text. -/
@[simp]
theorem text_relocate (e : Expr) : (e.relocate m).text = e.text := by
  cases e <;> rfl

/-- The children of a moved expression are the moved children. -/
@[simp]
theorem children_relocate (e : Expr) : (e.relocate m).children = e.children.map (relocate m) := by
  cases e with
  | hole => rfl
  | leaf => rfl
  | node t p cs => simp [children]

/-- Moving expressions keeps their names. -/
@[simp]
theorem tagNames_map_relocate (seq : List Expr) :
    tagNames (seq.map (relocate m)) = tagNames seq := by
  have hnames : (seq.map (relocate m)).mapM name = seq.mapM name := by
    simp [List.mapM_map, Function.comp_def]
  rw [tagNames, hnames, tagNames]

/-- What stands at a place of moved expressions is moved. -/
theorem getD_map_relocate (seq : List Expr) (i : Nat) :
    (seq.map (relocate m))[i]?.getD hole = (seq[i]?.getD hole).relocate m := by
  rw [List.getElem?_map]
  cases seq[i]? <;> rfl

/-- Where nothing moves, nothing inside moves. -/
theorem Inside.relocate_eq {x e : Expr} (h : x.Inside e) (he : e.relocate m = e) :
    x.relocate m = x := by
  induction h with
  | self => exact he
  | child hc _ ih =>
      rw [relocate_node, node.injEq] at he
      exact ih (List.map_inj_left.mp (he.2.2.trans (List.map_id _).symm) _ hc)

end Expr

namespace ParseError

variable (m)

/-- A moved error has the same code and text and the moved position, except that an empty input has
no position. -/
theorem report_relocate (e : ParseError) :
    (e.relocate m).report.code = e.report.code ∧ (e.relocate m).report.text = e.report.text ∧
      (e.relocate m).report.pos =
        if e.report.code = Kind.emptyInput.code then ⟨0, 0⟩ else m.pos e.report.pos := by
  cases e with
  | lexical source e => cases e <;> exact ⟨rfl, rfl, rfl⟩
  | _ => exact ⟨rfl, rfl, rfl⟩

/-- What a moved stall leaves over is moved. -/
theorem remaining?_relocate (e : ParseError) :
    (e.relocate m).remaining? = e.remaining?.map (List.map (Expr.relocate m)) := by
  cases e <;> rfl

end ParseError

namespace CompiledRule

/-- Tag sets accept moved expressions as they accept the expressions. -/
@[simp]
theorem acceptsHead_map_relocate (sets : List TagSet) (seq : List Expr) :
    acceptsHead sets (seq.map (Expr.relocate m)) = acceptsHead sets seq := by
  induction sets generalizing seq with
  | nil => rfl
  | cons s ss ih =>
      cases seq with
      | nil => rfl
      | cons e es => simp [acceptsHead, ih]

/-- As many expressions are left after they are moved. -/
@[simp]
theorem hasLength_map_relocate (n : Nat) (seq : List Expr) :
    hasLength n (seq.map (Expr.relocate m)) = hasLength n seq := by
  rw [Bool.eq_iff_iff, hasLength_iff, hasLength_iff, List.length_map]

/-- A rule matches moved expressions where it matches the expressions. -/
@[simp]
theorem matchesAt_map_relocate (c : CompiledRule) (seq : List Expr) (i : Nat) :
    c.matchesAt (seq.map (Expr.relocate m)) i = c.matchesAt seq i := by
  simp [matchesAt, ← List.map_drop]

/-- The leftmost match of moved expressions is where it was. -/
@[simp]
theorem findFrom_map_relocate (c : CompiledRule) (count start : Nat) (seq : List Expr) :
    c.findFrom count start (seq.map (Expr.relocate m)) = c.findFrom count start seq := by
  induction count generalizing start seq with
  | zero => rfl
  | succ count ih => simp [findFrom, ← List.map_tail, ih]

/-- All matches of moved expressions are where they were. -/
@[simp]
theorem findAllFrom_map_relocate (c : CompiledRule) (count start : Nat) (seq : List Expr) :
    c.findAllFrom count start (seq.map (Expr.relocate m)) = c.findAllFrom count start seq := by
  induction count generalizing start seq with
  | zero => rfl
  | succ count ih => simp [findAllFrom, ← List.map_tail, ih]

end CompiledRule

namespace Candidate

/-- The first rule that matches is the one that matches before the expressions are moved. -/
@[simp]
theorem firstFrom_map_relocate (seq : List Expr) (index : Nat) (rs : List CompiledRule) :
    firstFrom (seq.map (Expr.relocate m)) index rs = firstFrom seq index rs := by
  induction rs generalizing index with
  | nil => rfl
  | cons r rs ih => simp [firstFrom, CompiledRule.find?, CompiledRule.places, ih]

/-- The rules that match are those that match before the expressions are moved. -/
@[simp]
theorem allFrom_map_relocate (seq : List Expr) (index : Nat) (rs : List CompiledRule) :
    allFrom (seq.map (Expr.relocate m)) index rs = allFrom seq index rs := by
  induction rs generalizing index with
  | nil => rfl
  | cons r rs ih => simp [allFrom, CompiledRule.findAll, CompiledRule.places, ih]

/-- The first rule that matches is one of the rules. -/
theorem rule_mem_of_firstFrom {seq : List Expr} {index : Nat} {rs : List CompiledRule}
    {c : Candidate} (h : firstFrom seq index rs = .ok (some c)) : c.rule ∈ rs := by
  induction rs generalizing index with
  | nil => cases h
  | cons r rs ih =>
      obtain ⟨found, -, h⟩ := Except.bind_eq_ok_iff.mp h
      cases found with
      | some pos =>
          cases h
          exact List.mem_cons_self
      | none => exact List.mem_cons_of_mem r (ih h)

end Candidate

namespace Parser

variable {p : Parser}

/-- A parser does not look at positions if the rules that it runs do not. -/
theorem Runs.equivariant {reg : Registry} {rs : List Rule} (h : p.Runs reg rs)
    (hrs : ∀ r ∈ rs, ∀ reduce ∈ r.reduce, Reducer.Equivariant reduce) : p.Equivariant := by
  obtain ⟨-, htable⟩ := h
  unfold Equivariant
  generalize p.rules = cs at htable ⊢
  induction htable with
  | nil => exact nofun
  | @cons c r cs rs hc _ ih =>
      intro a ha
      rcases List.mem_cons.mp ha with rfl | ha
      · exact hrs r List.mem_cons_self _ hc.reduce
      · exact ih (fun r hr ↦ hrs r (List.mem_cons_of_mem _ hr)) a ha

/-- The first match is the same before and after the expressions are moved. -/
@[simp]
theorem firstMatch_map_relocate (seq : List Expr) :
    p.firstMatch (seq.map (Expr.relocate m)) = p.firstMatch seq :=
  Candidate.firstFrom_map_relocate seq 0 p.rules

/-- The entry about rivals is moved. -/
theorem ambiguity_map_relocate (seq : List Expr) (c : Candidate) :
    p.ambiguity (seq.map (Expr.relocate m)) c =
      (p.ambiguity seq c).map (List.map (LogEntry.relocate m)) := by
  have hrivals : p.rivals (seq.map (Expr.relocate m)) c.site = p.rivals seq c.site := by
    simp [rivals]
  unfold ambiguity
  rw [hrivals, Expr.getD_map_relocate, Expr.pos_relocate, Expr.tagNames_map_relocate]
  cases p.rivals seq c.site with
  | error e => rfl
  | ok rivals =>
      show (if rivals.isEmpty then _ else _) = Except.map _ (if rivals.isEmpty then _ else _)
      split
      · rfl
      · cases (seq[c.site.pos]?.getD .hole).pos with
        | error e => rfl
        | ok place => cases Expr.tagNames seq <;> rfl

/-- A span is folded where it is moved to. -/
theorem replaceSpan_map_relocate (seq : List Expr) (site : Match) (e : Expr) :
    replaceSpan (seq.map (Expr.relocate m)) site (e.relocate m) =
      (replaceSpan seq site e).map (Expr.relocate m) := by
  simp [replaceSpan, List.map_take, List.map_drop]

/-- Applying a rule to moved expressions gives what it gives, moved. -/
theorem apply_map_relocate {c : Candidate} (hc : Reducer.Equivariant c.rule.reduce)
    (reg : Registry) (source : Text) (seq : List Expr) :
    apply reg source (seq.map (Expr.relocate m)) c =
      ((apply reg source seq c).map
        (Prod.map (List.map (Expr.relocate m)) (LogEntry.relocate m))).mapError
          (Halt.relocate m) := by
  unfold apply
  dsimp only
  rw [Expr.getD_map_relocate, Expr.pos_relocate, Expr.name_relocate, hc m seq]
  cases (seq[c.site.pos]?.getD .hole).name with
  | error e => rfl
  | ok name =>
      cases (seq[c.site.pos]?.getD .hole).pos with
      | error e => rfl
      | ok place =>
          cases c.rule.reduce seq c.site.pos with
          | error fault => cases fault <;> rfl
          | ok e =>
              have hspan := replaceSpan_map_relocate (m := m) seq c.site e
              cases e with
              | hole => rfl
              | leaf t q v x | node t q cs =>
                  show (if reg.owns t then _ else _) =
                    (Except.map _ (if reg.owns t then _ else _)).mapError (Halt.relocate m)
                  split
                  · exact congrArg (fun folded ↦ Except.ok (folded, _)) hspan
                  · rfl

/-- An attempt to fold moved expressions does what it does, moved. -/
theorem attempt_relocate (hp : p.Equivariant) (reg : Registry) (report : Bool) (source : Text)
    (seq : List Expr) :
    p.attempt reg report source (seq.map (Expr.relocate m)) =
      (p.attempt reg report source seq).relocate m (Option.map (List.map (Expr.relocate m))) := by
  unfold attempt
  rw [firstMatch_map_relocate]
  cases hmatch : p.firstMatch seq with
  | error e => rfl
  | ok found =>
      cases found with
      | none => rfl
      | some c =>
          have hwarnings : (if report then p.ambiguity (seq.map (Expr.relocate m)) c else .ok []) =
              (if report then p.ambiguity seq c else .ok []).map
                (List.map (LogEntry.relocate m)) := by
            cases report with
            | true => exact ambiguity_map_relocate seq c
            | false => rfl
          have hc : Reducer.Equivariant c.rule.reduce :=
            hp c.rule (Candidate.rule_mem_of_firstFrom hmatch)
          dsimp only
          rw [hwarnings, apply_map_relocate hc]
          cases (if report then p.ambiguity seq c else .ok []) with
          | error e => rfl
          | ok warnings =>
              cases apply reg source seq c with
              | error h => rfl
              | ok done => simp [Logged.relocate, Except.map, Except.mapError]

/-- The blamed one of moved expressions is the blamed one, moved. -/
theorem culprit_map_relocate (seq : List Expr) :
    culprit (seq.map (Expr.relocate m)) = (culprit seq).relocate m := by
  have htexts : (fun e : Expr ↦ !e.text.isEmpty) ∘ Expr.relocate m = (!·.text.isEmpty) := by
    funext e
    simp
  have hfind : (seq.map (Expr.relocate m)).find? (!·.text.isEmpty) =
      (seq.find? (!·.text.isEmpty)).map (Expr.relocate m) := by
    rw [List.find?_map, htexts]
  rw [culprit, hfind, culprit, List.head?_map]
  cases seq.find? (!·.text.isEmpty) with
  | some e => rfl
  | none => cases seq.head? <;> rfl

/-- A stall of moved expressions is the stall, moved. -/
theorem stall_map_relocate (source : Text) (seq : List Expr) :
    stall source (seq.map (Expr.relocate m)) =
      ⟨(stall source seq).log.map (LogEntry.relocate m), (stall source seq).result.relocate m⟩ := by
  unfold stall
  rw [culprit_map_relocate, Expr.tagNames_map_relocate, Expr.name_relocate, Expr.pos_relocate]
  cases Expr.tagNames seq <;> cases (culprit seq).name <;> cases (culprit seq).pos <;> rfl

/-- A reduction of moved expressions, behind moved entries, is the reduction, moved: at every step
the attempt is. -/
theorem reduceLoop_relocate (hp : p.Equivariant) (reg : Registry) (source : Text) (budget : Nat)
    (log : List LogEntry) (seq : List Expr) :
    p.reduceLoop reg source budget (log.map (LogEntry.relocate m)) (seq.map (Expr.relocate m)) =
      (p.reduceLoop reg source budget log seq).relocate m (Expr.relocate m) := by
  -- Both loops fold at the same steps, so the induction is on the budget, over every log.
  induction budget generalizing log seq with
  | zero =>
      rcases seq with _ | ⟨a, _ | ⟨b, rest⟩⟩ <;>
        simp [reduceLoop, Logged.relocate, Except.map, Except.mapError, Halt.relocate,
          ParseError.relocate]
  | succ budget ih =>
      rcases seq with _ | ⟨a, _ | ⟨b, rest⟩⟩
      · simp [reduceLoop, Logged.relocate, Except.map, Except.mapError, Halt.relocate,
          ParseError.relocate]
      · simp [reduceLoop, Logged.relocate, Except.map, Except.mapError]
      · have hattempt := attempt_relocate (m := m) hp reg p.reportAmbiguity source (a :: b :: rest)
        have hstall := stall_map_relocate (m := m) source (a :: b :: rest)
        simp only [List.map_cons] at hattempt hstall ⊢
        simp only [reduceLoop, hattempt, hstall]
        rcases p.attempt reg p.reportAmbiguity source (a :: b :: rest) with ⟨entries, h | found⟩
        · simp [Logged.relocate, Except.map, Except.mapError]
        · cases found with
          | none => simp [Logged.relocate, Except.map, Except.mapError]
          | some folded =>
              have hfolded := ih (entries.reverse ++ log) folded
              simpa [Logged.relocate, Except.map, Except.mapError] using hfolded

/-- The leaf of a moved word is its leaf, moved, and so is its error. -/
theorem wordLeaf_relocate (t : Token) :
    p.wordLeaf (t.relocate m) =
      ((p.wordLeaf t).map (Expr.relocate m)).mapError (ParseError.relocate m) := by
  have htext : (t.relocate m).text = t.text := rfl
  unfold wordLeaf
  by_cases hidentifier : p.isIdentifier t.text = true
  · simp only [htext, hidentifier, if_true]
    rfl
  by_cases hnumeral : Number.isNumeral t.text = true
  · simp only [htext, hidentifier, hnumeral, if_true, if_false, Bool.false_eq_true]
    cases Number.integer t.text <;> rfl
  · simp only [htext, hidentifier, hnumeral, if_false, Bool.false_eq_true]
    rfl

/-- The leaf of a moved token is its leaf, moved, and so is its error. -/
theorem classifyToken_relocate (reg : Registry) (t : Token) :
    p.classifyToken reg (t.relocate m) =
      (((p.classifyToken reg t).1.map (Expr.relocate m)).mapError (ParseError.relocate m),
        (p.classifyToken reg t).2) := by
  have hkind : (t.relocate m).kind = t.kind := rfl
  have htext : (t.relocate m).text = t.text := rfl
  unfold classifyToken
  rw [hkind, htext, wordLeaf_relocate]
  cases t.kind with
  | string => cases p.stringValue t.text <;> rfl
  | _ => rfl

/-- The leaves of moved tokens, behind moved leaves, are their leaves, moved. -/
theorem classifyOnto_relocate (made : List Expr) (reg : Registry) (ts : List Token) :
    p.classifyOnto (made.map (Expr.relocate m)) reg (ts.map (Token.relocate m)) =
      (((p.classifyOnto made reg ts).1.map (List.map (Expr.relocate m))).mapError
        (ParseError.relocate m), (p.classifyOnto made reg ts).2) := by
  induction ts generalizing made reg with
  | nil => simp [classifyOnto, Except.map, Except.mapError]
  | cons t ts ih =>
      rw [List.map_cons, classifyOnto, classifyToken_relocate, classifyOnto]
      rcases p.classifyToken reg t with ⟨e | leaf, left⟩
      · rfl
      · exact ih (leaf :: made) left

/-- Moving all tokens moves all positions of the outcome and of the log, where no reducer looks at
positions, and nothing else. -/
theorem parse_relocate (hp : p.Equivariant) (reg : Registry) (m : Relocation) (ts : List Token) :
    p.parse reg (ts.map (Token.relocate m)) =
      ((p.parse reg ts).1.relocate m (Expr.relocate m), (p.parse reg ts).2) := by
  have hclassify : p.classify reg (ts.map (Token.relocate m)) =
      (((p.classify reg ts).1.map (List.map (Expr.relocate m))).mapError (ParseError.relocate m),
        (p.classify reg ts).2) :=
    classifyOnto_relocate [] reg ts
  have hsource : sourceName (ts.map (Token.relocate m)) = sourceName ts := by
    cases ts <;> rfl
  rw [parse, hclassify, hsource, parse]
  rcases p.classify reg ts with ⟨e | leaves, left⟩
  · rfl
  · have hreduce := reduceLoop_relocate (m := m) hp left (sourceName ts) (p.budget leaves.length)
      [] leaves
    simpa [Except.map, Except.mapError, reduceIn] using hreduce

section Consequences

variable {reg : Registry} {ts us : List Token} {e : Expr}

/-- Moving all tokens moves the tree. -/
theorem Equivariant.parse_ok (hp : p.Equivariant) (h : (p.parse reg ts).1.result = .ok e)
    (m : Relocation) :
    (p.parse reg (ts.map (Token.relocate m))).1.result = .ok (e.relocate m) := by
  rw [parse_relocate hp, Logged.relocate, h]
  rfl

/-- Moving all tokens moves the error. -/
theorem Equivariant.parse_failed {f : ParseError} (hp : p.Equivariant)
    (h : (p.parse reg ts).1.result = .error (.failed f)) (m : Relocation) :
    (p.parse reg (ts.map (Token.relocate m))).1.result = .error (.failed (f.relocate m)) := by
  rw [parse_relocate hp, Logged.relocate, h]
  rfl

/-- Every position in a tree is that of a token: a tree whose tokens stay in place stays in place,
wherever other positions are moved to. -/
theorem Equivariant.exists_token_pos (hp : p.Equivariant) (h : (p.parse reg ts).1.result = .ok e)
    {x : Expr} {q : Pos} (hx : x.Inside e) (hq : x.pos = .ok q) : ∃ t ∈ ts, t.pos = q := by
  have hts : ts.map (Token.relocate (.allBut (ts.map Token.pos))) = ts := by
    refine (List.map_congr_left fun t ht ↦ ?_).trans (List.map_id ts)
    have hpos := Relocation.allBut_pos_eq_self.mpr (List.mem_map_of_mem (f := Token.pos) ht)
    show Token.mk t.kind t.text t.source t.offset _ = t
    rw [hpos]
  -- The same tokens have the same tree, which thus has no position that would have moved.
  have hmoved := hp.parse_ok h (.allBut (ts.map Token.pos))
  rw [hts, h] at hmoved
  have hfixed := congrArg Expr.pos (hx.relocate_eq (Except.ok.inj hmoved).symm)
  rw [Expr.pos_relocate, hq] at hfixed
  exact List.mem_map.mp (Relocation.allBut_pos_eq_self.mp (Except.ok.inj hfixed))

/-- Tokens of the same lexemes have trees that are the same when all their positions are moved to
one place. -/
theorem Equivariant.parse_same_lexemes (hp : p.Equivariant)
    (h : (p.parse reg ts).1.result = .ok e) (hus : us.map Token.lexeme = ts.map Token.lexeme) :
    ∃ e', (p.parse reg us).1.result = .ok e' ∧
      e'.relocate .gather = e.relocate .gather := by
  have hgather : us.map (Token.relocate .gather) = ts.map (Token.relocate .gather) := by
    have hall : ∀ ts : List Token, ts.map (Token.relocate .gather) =
        (ts.map Token.lexeme).map fun (kind, text, source) ↦ ⟨kind, text, source, 0, ⟨0, 0⟩⟩ := by
      intro ts
      rw [List.map_map]
      rfl
    rw [hall us, hall ts, hus]
  have hts := hp.parse_ok h .gather
  rw [← hgather, parse_relocate hp, Logged.relocate] at hts
  cases hparsed : (p.parse reg us).1.result with
  | error halt =>
      rw [hparsed] at hts
      cases hts
  | ok e' =>
      rw [hparsed] at hts
      exact ⟨e', rfl, Except.ok.inj hts⟩

end Consequences

end Parser

end Tagfold
