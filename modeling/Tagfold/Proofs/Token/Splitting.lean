import Mathlib.Data.List.SplitBy
import Tagfold.Proofs.Rule.Compilation
import Tagfold.Proofs.Text.Utf8
import Tagfold.Token.Scan

/-!
# How a text splits into tokens

Without comments, the tokens of a text can be said without a scanner. Every character has a role,
the text splits into literals and single characters (`Lexer.Splits`), and the tokens are those of
the longest runs of word characters and of everything that stands between them (`Lexer.tokensOf`).
`Lexicon.scan_eq_ok_iff_splits` says that scanning succeeds exactly on the texts that split, and
gives exactly these tokens.
-/

namespace Tagfold

/-- What a character is to a lexer without comments. -/
inductive Role where
  | word
  | symbol
  | separator
  | ignorable
  | delimiter
  | bad
  deriving DecidableEq, Repr

/-- The place behind the given characters from the start of a text: bytes are counted from zero, and
lines and the columns in them from one. -/
def Place.behind (before : List Char) : Place where
  offset := (Utf8.encodeAll before).length
  pos := ⟨before.count '\n' + 1, (before.reverse.takeWhile (· != '\n')).length + 1⟩

/-- Places advance character by character. -/
theorem Place.behind_concat (before : List Char) (c : Char) :
    behind (before ++ [c]) = (behind before).advance c := by
  unfold behind advance
  by_cases hc : c = '\n'
  · simp [hc]
  · simp [hc]

/-- A piece of a text: a single character, or a literal without its closing delimiter. -/
inductive Piece where
  | single (c : Placed)
  | literal (opening : Placed) (body : List Char)
  deriving DecidableEq, Repr

namespace Piece

/-- The text of a piece. -/
def text : Piece → Text
  | single c => Utf8.encode c.char
  | literal opening body => Utf8.encodeAll (opening.char :: (body ++ [opening.char]))

/-- The place of a piece. -/
def place : Piece → Place
  | single c => c.place
  | literal opening _ => opening.place

end Piece

namespace Lexer

variable (l : Lexer) (source : Text)

/-- The role of a character: the first one that applies. -/
def role (c : Char) : Role :=
  if l.isWordChar c then .word
  else if l.isSymbol c then .symbol
  else if c = ' ' ∨ c = '\n' then .separator
  else if c = '\t' ∨ c = '\r' then .ignorable
  else if l.isDelimiter c then .delimiter
  else if c = '*' then .word
  else .bad

/-- Symbols are declared. -/
theorem isSymbol_of_role {l : Lexer} {c : Char} (h : l.role c = .symbol) : l.isSymbol c = true := by
  by_contra hsymbol
  simp only [role, hsymbol, if_false] at h
  split_ifs at h

/-- Delimiters are declared. -/
theorem isDelimiter_of_role {l : Lexer} {c : Char} (h : l.role c = .delimiter) :
    l.isDelimiter c = true := by
  by_contra hdelimiter
  simp only [role, hdelimiter, if_false] at h
  split_ifs at h

/-- The number of consecutive backslashes at the end. -/
def slashesAtEnd (body : List Char) : Nat :=
  (body.reverse.takeWhile (· == '\\')).length

/-- The delimiter behind a body is the first one in or behind it with an even number of backslashes
before it. -/
def Closes (d : Char) (body : List Char) : Prop :=
  slashesAtEnd body % 2 = 0 ∧ ∀ left right, body = left ++ d :: right → slashesAtEnd left % 2 = 1

section Closing

/-- Backslashes at the end are counted from there. -/
theorem slashesAtEnd_concat (body : List Char) (c : Char) :
    slashesAtEnd (body ++ [c]) = if c = '\\' then slashesAtEnd body + 1 else 0 := by
  by_cases hc : c = '\\' <;> simp [slashesAtEnd, hc]

/-- An element of a longer list is the last one or was there before. -/
theorem eq_concat_cases {α : Type} {body left right : List α} {c d : α}
    (h : body ++ [c] = left ++ d :: right) :
    (left = body ∧ c = d) ∨ ∃ more, body = left ++ d :: more := by
  rcases List.eq_nil_or_concat right with rfl | ⟨more, z, rfl⟩
  · obtain ⟨rfl, hc⟩ := List.append_inj' h rfl
    exact .inl ⟨rfl, List.head_eq_of_cons_eq hc⟩
  · have hlong : body ++ [c] = (left ++ d :: more) ++ [z] := by simpa using h
    exact .inr ⟨more, (List.append_inj' hlong rfl).1⟩

variable {d : Char} {body : List Char}

/-- No delimiter in the body closes it. -/
def Unclosed (d : Char) (body : List Char) : Prop :=
  ∀ left right, body = left ++ d :: right → slashesAtEnd left % 2 = 1

/-- A body stays open behind a character that is no delimiter, and behind an escaped one. -/
theorem Unclosed.concat (h : Unclosed d body) {c : Char} (hc : c = d → slashesAtEnd body % 2 = 1) :
    Unclosed d (body ++ [c]) := by
  intro left right heq
  rcases eq_concat_cases heq with ⟨rfl, hd⟩ | ⟨more, hbody⟩
  · exact hc hd
  · exact h left more hbody

/-- What stands before the last character of an open body is open. -/
theorem Unclosed.of_concat {c : Char} (h : Unclosed d (body ++ [c])) : Unclosed d body := by
  intro left right heq
  exact h left (right ++ [c]) (by rw [heq]; simp)

/-- The empty body can be closed. -/
theorem closes_nil : Closes d [] := by
  refine ⟨rfl, fun left right h ↦ ?_⟩
  simp at h

/-- A body with a plain character behind it can be closed. -/
theorem Closes.concat (h : Closes d body) {c : Char} (hc : c ≠ d) (hslash : c ≠ '\\') :
    Closes d (body ++ [c]) := by
  refine ⟨by rw [slashesAtEnd_concat, if_neg hslash], Unclosed.concat h.2 fun hd ↦ ?_⟩
  exact absurd hd hc

/-- A body with an escaped character behind it can be closed. -/
theorem Closes.append_escape (h : Closes d body) (hd : d ≠ '\\') (c : Char) :
    Closes d (body ++ ['\\', c]) := by
  have hsplit : body ++ ['\\', c] = body ++ ['\\'] ++ [c] := by simp
  rw [hsplit]
  have hodd : slashesAtEnd (body ++ ['\\']) = slashesAtEnd body + 1 := by
    rw [slashesAtEnd_concat, if_pos rfl]
  have heven := h.1
  refine ⟨?_, Unclosed.concat (Unclosed.concat h.2 fun hslash ↦ ?_) fun _ ↦ ?_⟩
  · rw [slashesAtEnd_concat, hodd]
    split <;> omega
  · exact absurd hslash.symm hd
  · rw [hodd]
    omega

/-- A body with plain characters behind it can be closed. -/
theorem Closes.append_plain (h : Closes d body) {cs : List Char}
    (hcs : ∀ c ∈ cs, c ≠ d ∧ c ≠ '\\') : Closes d (body ++ cs) := by
  induction cs generalizing body with
  | nil => rwa [List.append_nil]
  | cons c cs ih =>
      have hc := hcs c List.mem_cons_self
      have hnext := ih (h.concat hc.1 hc.2) fun a ha ↦ hcs a (List.mem_cons_of_mem _ ha)
      rwa [List.append_assoc, List.singleton_append] at hnext

end Closing

/-- The characters behind the given ones split into pieces, from left to right. -/
inductive Splits : List Char → List Char → List Piece → Prop where
  | nil (before : List Char) : Splits before [] []
  | single {before rest : List Char} {c : Char} {pieces : List Piece} :
      l.role c ≠ .delimiter → l.role c ≠ .bad → Splits (before ++ [c]) rest pieces →
      Splits before (c :: rest) (.single ⟨c, .behind before⟩ :: pieces)
  | literal {before body rest : List Char} {d : Char} {pieces : List Piece} :
      l.role d = .delimiter → Closes d body → Splits (before ++ d :: (body ++ [d])) rest pieces →
      Splits before (d :: (body ++ d :: rest)) (.literal ⟨d, .behind before⟩ body :: pieces)

/-- The role of a piece; a literal has that of its delimiter. -/
def pieceRole : Piece → Role
  | .single c => l.role c.char
  | .literal _ _ => .delimiter

/-- The tokens of a longest run: one of the word that a run of word characters is, and otherwise
that of its only piece, if it is a symbol or a literal. -/
def runTokens : List Piece → List Token
  | [] => []
  | first :: rest =>
    match l.pieceRole first with
    | .word =>
      let text := (first :: rest).flatMap Piece.text
      [tokenAt source (if l.isKeyword text then .keyword else .word) text first.place]
    | .symbol => [tokenAt source .symbol first.text first.place]
    | .delimiter => [tokenAt source .string first.text first.place]
    | _ => []

/-- The two pieces belong to one word. -/
def sameWord (p q : Piece) : Bool :=
  l.pieceRole p == .word && l.pieceRole q == .word

/-- The tokens of pieces: ignorable characters are left out, and the rest is cut into its longest
runs of word characters and single other pieces. -/
def tokensOf (pieces : List Piece) : List Token :=
  ((pieces.filter fun p ↦ l.pieceRole p != .ignorable).splitBy l.sameWord).flatMap
    (l.runTokens source)

/-- The tokens of the characters to come, from a place and a mode on. -/
def tokensFrom : Place → ScanMode → List Char → Except LexicalError (List Token)
  | place, mode, [] => l.finish source ⟨place, mode, []⟩
  | place, mode, c :: rest => do
    let (next, completed) ← l.modeStep source mode ⟨c, place⟩
    let later ← tokensFrom (place.advance c) next rest
    return completed ++ later

variable {l source}

/-- Finishing adds the last token to those already there. -/
theorem finish_eq (place : Place) (mode : ScanMode) (tokens : List Token) :
    l.finish source ⟨place, mode, tokens⟩ =
      (l.finish source ⟨place, mode, []⟩).map (tokens.reverse ++ ·) := by
  cases mode <;> simp [finish, Except.map]

/-- Running and finishing gives the tokens already there and those of the characters to come. -/
theorem run_finish_eq (place : Place) (mode : ScanMode) (tokens : List Token) (cs : List Char) :
    (l.run source ⟨place, mode, tokens⟩ (cs.map .scalar) >>= l.finish source) =
      (l.tokensFrom source place mode cs).map (tokens.reverse ++ ·) := by
  induction cs generalizing place mode tokens with
  | nil => exact finish_eq place mode tokens
  | cons c rest ih =>
      simp only [run, List.map_cons, List.foldlM_cons, step, tokensFrom, bind_assoc]
      cases hstep : l.modeStep source mode ⟨c, place⟩ with
      | error e => rfl
      | ok next =>
          have hrest := ih (place.advance c) next.1 (next.2.reverse ++ tokens)
          simp only [run] at hrest
          simp only [bind, Except.bind, pure, Except.pure] at hrest ⊢
          rw [hrest]
          cases l.tokensFrom source (place.advance c) next.1 rest <;> simp [Except.map]

/-- Scanning gives the tokens of the characters of a text. -/
theorem scan_eq_tokensFrom (s : Source) {cs : List Char} (h : s.content = Utf8.encodeAll cs) :
    l.scan s = l.tokensFrom s.name (.behind []) (.plain []) cs := by
  have hrun : (l.run s.name ⟨.start, .plain [], []⟩ (cs.map .scalar) >>= l.finish s.name) = _ :=
    run_finish_eq .start (.plain []) [] cs
  have hstart : Place.behind [] = .start := rfl
  rw [scan, h, Utf8.decode_encodeAll, initial, hrun, hstart]
  cases l.tokensFrom s.name .start (.plain []) cs <;> rfl

/-- A scan that succeeds meets no stray byte. -/
theorem no_stray_of_run {state last : ScanState} {runes : List Rune}
    (h : l.run source state runes = .ok last) (b : UInt8) : Rune.stray b ∉ runes := by
  induction runes generalizing state with
  | nil => exact List.not_mem_nil
  | cons r runes ih =>
      rw [run, List.foldlM_cons] at h
      obtain ⟨next, hnext, hrest⟩ := Except.bind_eq_ok_iff.mp h
      intro hmem
      rcases List.mem_cons.mp hmem with rfl | hmem
      · cases hnext
      · exact ih hrest hmem

/-- A text that can be scanned is valid. -/
theorem exists_chars_of_scan {s : Source} {ts : List Token} (h : l.scan s = .ok ts) :
    ∃ cs, s.content = Utf8.encodeAll cs := by
  obtain ⟨last, hrun, -⟩ := Except.bind_eq_ok_iff.mp h
  exact Utf8.exists_encodeAll_of_no_stray (no_stray_of_run hrun)

section Steps

variable (hline : l.lineComments = false) (hblock : l.blockComments = false)
  (pending : List Placed) (c : Placed)

include hline hblock

/-- Without comments, one character outside literals is taken by its role. -/
theorem plainStep_eq :
    l.plainStep source pending c =
      match l.role c.char with
      | .word => .ok (.plain (c :: pending), [])
      | .symbol => .ok (.plain [], l.flush source pending ++
          [tokenAt source .symbol (Utf8.encode c.char) c.place])
      | .separator => .ok (.plain [], l.flush source pending)
      | .ignorable => .ok (.plain pending, [])
      | .delimiter => .ok (.literal c [], l.flush source pending)
      | .bad => .error (.wrongChar c.place.pos (.scalar c.char)) := by
  have hcomments : l.plainStep source pending c =
      if l.isWordChar c.char then .ok (.plain (c :: pending), [])
      else l.charStep source pending c := by
    simp [plainStep, hline, hblock]
  rw [hcomments, role, charStep]
  by_cases hword : l.isWordChar c.char = true
  · simp [hword]
  by_cases hsymbol : l.isSymbol c.char = true
  · simp [hword, hsymbol]
  by_cases hseparator : c.char = ' ' ∨ c.char = '\n'
  · simp [hword, hsymbol, hseparator]
  by_cases hignorable : c.char = '\t' ∨ c.char = '\r'
  · simp [hword, hsymbol, hseparator, hignorable]
  by_cases hdelimiter : l.isDelimiter c.char = true
  · simp [hword, hsymbol, hseparator, hignorable, hdelimiter]
  by_cases hstar : c.char = '*'
  · rw [hstar] at hword hsymbol hdelimiter ⊢
    simp [hword, hsymbol, hdelimiter]
  · simp [hword, hsymbol, hseparator, hignorable, hdelimiter, hstar]

end Steps

section Tokens

variable {p : Piece} {before behind : List Piece}

/-- Ignorable characters do not count. -/
theorem tokensOf_ignorable (hp : l.pieceRole p = .ignorable) (before behind : List Piece) :
    l.tokensOf source (before ++ p :: behind) = l.tokensOf source (before ++ behind) := by
  simp [tokensOf, hp]

/-- A piece that is no part of a word separates the tokens before it from those behind it. -/
theorem tokensOf_split (hword : l.pieceRole p ≠ .word) (hignorable : l.pieceRole p ≠ .ignorable)
    (before behind : List Piece) :
    l.tokensOf source (before ++ p :: behind) =
      l.tokensOf source before ++ l.runTokens source [p] ++ l.tokensOf source behind := by
  have hleft (q : Piece) : l.sameWord q p = false := by simp [sameWord, hword]
  have hright (q : Piece) : l.sameWord p q = false := by simp [sameWord, hword]
  have hkeep : (p :: behind).filter (fun p ↦ l.pieceRole p != .ignorable) =
      [p] ++ behind.filter (fun p ↦ l.pieceRole p != .ignorable) := by
    simp [hignorable]
  have hone : [p].splitBy l.sameWord = [[p]] := List.splitBy_of_isChain (by simp) (by simp)
  rw [tokensOf, List.filter_append, hkeep, List.splitBy_append (by simp [hleft]),
    List.splitBy_append (by simp [hright]), hone]
  simp [tokensOf]

/-- The characters of a word are one token. -/
theorem tokensOf_word {words : List Placed} (h : ∀ c ∈ words, l.role c.char = .word) :
    l.tokensOf source (words.map .single) = l.flush source words.reverse := by
  cases words with
  | nil => rfl
  | cons first rest =>
      have hkeep : ((first :: rest).map Piece.single).filter
          (fun p ↦ l.pieceRole p != .ignorable) = (first :: rest).map .single := by
        rw [List.filter_eq_self]
        intro q hq
        obtain ⟨c, hc, rfl⟩ := List.mem_map.mp hq
        simp [pieceRole, h c hc]
      have hchain : ((first :: rest).map Piece.single).IsChain
          fun p q ↦ l.sameWord p q = true := by
        apply List.Pairwise.isChain
        rw [List.pairwise_map]
        exact List.pairwise_of_forall_mem_list fun c hc d hd ↦ by
          simp [sameWord, pieceRole, h c hc, h d hd]
      have hfirst : l.pieceRole (.single first) = .word := h first List.mem_cons_self
      have htext : ((first :: rest).map Piece.single).flatMap Piece.text =
          Utf8.encodeAll ((first :: rest).map Placed.char) := by
        simp [Utf8.encodeAll, List.flatMap_map, Piece.text]
      have hlast : (first :: rest).reverse.getLast? = some first := by simp
      rw [tokensOf, hkeep, List.splitBy_of_isChain (by simp) hchain, List.flatMap_singleton, flush,
        hlast, List.reverse_reverse, ← htext, List.map_cons]
      simp only [runTokens, hfirst]
      rfl

end Tokens

/-- A character that is taken goes before the tokens of the rest. -/
theorem tokensFrom_cons {before : List Char} {mode next : ScanMode} {c : Char}
    {completed : List Token}
    (h : l.modeStep source mode ⟨c, .behind before⟩ = .ok (next, completed)) (rest : List Char) :
    l.tokensFrom source (.behind before) mode (c :: rest) =
      (l.tokensFrom source (.behind (before ++ [c])) next rest).map (completed ++ ·) := by
  rw [tokensFrom, h, Place.behind_concat]
  simp only [bind, Except.bind]
  cases l.tokensFrom source ((Place.behind before).advance c) next rest <;> rfl

section Literals

variable {opening : Placed} {before body more rest : List Char}

/-- The backslashes that were collected last are those at the end. -/
theorem escaped_iff : escaped body = true ↔ slashesAtEnd body.reverse % 2 = 1 := by
  simp [escaped, slashesAtEnd]

/-- A character that is no delimiter, or an escaped one, goes on with the body of a literal. -/
theorem modeStep_body {c : Placed}
    (h : c.char = opening.char → slashesAtEnd body.reverse % 2 = 1) :
    l.modeStep source (.literal opening body) c = .ok (.literal opening (c.char :: body), []) := by
  have hstay : ¬ (c.char = opening.char ∧ ¬ escaped body = true) := by
    rintro ⟨hc, hplain⟩
    exact hplain (escaped_iff.mpr (h hc))
  simp only [modeStep, if_neg hstay]

/-- A delimiter that is not escaped completes a literal. -/
theorem modeStep_closing (h : slashesAtEnd body.reverse % 2 = 0) (place : Place) :
    l.modeStep source (.literal opening body) ⟨opening.char, place⟩ =
      .ok (.plain [], [tokenAt source .string (Piece.literal opening body.reverse).text
        opening.place]) := by
  have hplain : ¬ escaped body = true := by
    rw [escaped_iff]
    omega
  simp [modeStep, hplain, Piece.text]

/-- A literal ends at the delimiter that closes it. -/
theorem tokensFrom_literal (h : Closes opening.char (body.reverse ++ more)) :
    l.tokensFrom source (.behind before) (.literal opening body) (more ++ opening.char :: rest) =
      (l.tokensFrom source (.behind (before ++ (more ++ [opening.char]))) (.plain []) rest).map
        (tokenAt source .string (Piece.literal opening (body.reverse ++ more)).text opening.place
          :: ·) := by
  induction more generalizing body before with
  | nil =>
      have heven := h.1
      rw [List.append_nil] at heven
      rw [List.nil_append, tokensFrom_cons (modeStep_closing heven _), List.nil_append,
        List.append_nil]
      rfl
  | cons c more ih =>
      have hstep : l.modeStep source (.literal opening body) ⟨c, .behind before⟩ =
          .ok (.literal opening (c :: body), []) := by
        refine modeStep_body fun hc ↦ ?_
        obtain rfl : c = opening.char := hc
        exact h.2 body.reverse more rfl
      have hbody : body.reverse ++ c :: more = (c :: body).reverse ++ more := by simp
      rw [hbody] at h ⊢
      have hbefore : before ++ (c :: more ++ [opening.char]) =
          before ++ [c] ++ (more ++ [opening.char]) := by simp
      rw [List.cons_append, tokensFrom_cons hstep, ih h, hbefore]
      cases l.tokensFrom source (.behind (before ++ [c] ++ (more ++ [opening.char]))) (.plain [])
        rest <;> rfl

/-- A literal that has just been opened ends at the delimiter that closes it. -/
theorem tokensFrom_opened {d : Char} (h : Closes d body) (before rest : List Char) :
    l.tokensFrom source (.behind (before ++ [d])) (.literal ⟨d, .behind before⟩ [])
        (body ++ d :: rest) =
      (l.tokensFrom source (.behind (before ++ d :: (body ++ [d]))) (.plain []) rest).map
        (tokenAt source .string (Piece.literal ⟨d, .behind before⟩ body).text (.behind before)
          :: ·) := by
  have hbehind : before ++ d :: (body ++ [d]) = before ++ [d] ++ (body ++ [d]) := by simp
  rw [hbehind]
  exact tokensFrom_literal h

/-- A literal that has ended was closed. -/
theorem exists_closes {ts : List Token}
    (hopen : ∀ left right, body.reverse = left ++ opening.char :: right →
      slashesAtEnd left % 2 = 1)
    (h : l.tokensFrom source (.behind before) (.literal opening body) rest = .ok ts) :
    ∃ more behind, rest = more ++ opening.char :: behind ∧
      Closes opening.char (body.reverse ++ more) := by
  -- `hopen` is the invariant of the loop: no delimiter of the body so far could have closed it.
  induction rest generalizing body before ts with
  | nil => cases h
  | cons c rest ih =>
      by_cases hclose : c = opening.char ∧ slashesAtEnd body.reverse % 2 = 0
      · obtain ⟨rfl, heven⟩ := hclose
        refine ⟨[], rest, rfl, ?_⟩
        rw [List.append_nil]
        exact ⟨heven, hopen⟩
      · have hodd : c = opening.char → slashesAtEnd body.reverse % 2 = 1 := by
          intro hc
          have hne := not_and.mp hclose hc
          omega
        have hstep : l.modeStep source (.literal opening body) ⟨c, .behind before⟩ =
            .ok (.literal opening (c :: body), []) := modeStep_body hodd
        rw [tokensFrom_cons hstep] at h
        obtain ⟨later, hlater, -⟩ := Except.map_eq_ok_iff.mp h
        have hopen' : Unclosed opening.char (c :: body).reverse := by
          rw [List.reverse_cons]
          exact Unclosed.concat hopen hodd
        obtain ⟨more, behind, rfl, hcloses⟩ := ih hopen' hlater
        refine ⟨c :: more, behind, rfl, ?_⟩
        simpa using hcloses

end Literals

section Scanning

variable (hline : l.lineComments = false) (hblock : l.blockComments = false)
  {before cs : List Char} {pieces : List Piece}

include hline hblock

/-- A text that splits is scanned to the tokens of its pieces, behind the word so far. -/
theorem tokensFrom_of_splits (h : l.Splits before cs pieces) {words : List Placed}
    (hwords : ∀ c ∈ words, l.role c.char = .word) :
    l.tokensFrom source (.behind before) (.plain words.reverse) cs =
      .ok (l.tokensOf source (words.map .single ++ pieces)) := by
  -- Every piece but a word character or an ignorable one ends the word so far, and the rest is then
  -- scanned with an empty one.
  induction h generalizing words with
  | nil before =>
      rw [List.append_nil, tokensOf_word hwords]
      rfl
  | @single before rest c pieces hdelimiter hbad _ ih =>
      have hstep : l.modeStep source (.plain words.reverse) ⟨c, .behind before⟩ = _ :=
        plainStep_eq hline hblock words.reverse ⟨c, .behind before⟩
      have hpiece : l.pieceRole (.single ⟨c, .behind before⟩) = l.role c := rfl
      have hempty : l.tokensFrom source (.behind (before ++ [c])) (.plain []) rest =
          .ok (l.tokensOf source pieces) := @ih [] nofun
      cases hrole : l.role c with
      | word =>
          rw [hrole] at hstep
          have hmore := @ih (words ++ [⟨c, .behind before⟩])
            (by simpa [or_imp, forall_and] using ⟨hwords, hrole⟩)
          rw [List.reverse_append, List.reverse_singleton, List.singleton_append] at hmore
          rw [tokensFrom_cons hstep, hmore, List.map_append, List.append_assoc]
          rfl
      | ignorable =>
          rw [hrole] at hstep hpiece
          rw [tokensFrom_cons hstep, ih hwords, tokensOf_ignorable hpiece]
          rfl
      | symbol =>
          rw [hrole] at hstep hpiece
          rw [tokensFrom_cons hstep, hempty, tokensOf_split (by simp [hpiece]) (by simp [hpiece]),
            tokensOf_word hwords]
          simp [Except.map, runTokens, hpiece, Piece.text, Piece.place]
      | separator =>
          rw [hrole] at hstep hpiece
          rw [tokensFrom_cons hstep, hempty, tokensOf_split (by simp [hpiece]) (by simp [hpiece]),
            tokensOf_word hwords]
          simp [Except.map, runTokens, hpiece]
      | delimiter => exact absurd hrole hdelimiter
      | bad => exact absurd hrole hbad
  | @literal before body rest d pieces hd hcloses _ ih =>
      have hstep : l.modeStep source (.plain words.reverse) ⟨d, .behind before⟩ = _ :=
        plainStep_eq hline hblock words.reverse ⟨d, .behind before⟩
      rw [hd] at hstep
      have hpiece : l.pieceRole (.literal ⟨d, .behind before⟩ body) = .delimiter := rfl
      have hempty : l.tokensFrom source (.behind (before ++ d :: (body ++ [d]))) (.plain []) rest =
          .ok (l.tokensOf source pieces) := @ih [] nofun
      rw [tokensFrom_cons hstep, tokensFrom_opened hcloses, hempty,
        tokensOf_split (by simp [hpiece]) (by simp [hpiece]), tokensOf_word hwords]
      simp [Except.map, runTokens, hpiece, Piece.place]

/-- A text that is scanned splits. -/
theorem exists_splits {pending : List Placed} {ts : List Token}
    (h : l.tokensFrom source (.behind before) (.plain pending) cs = .ok ts) :
    ∃ pieces, l.Splits before cs pieces := by
  -- By the length of the text, because a literal is taken as a whole.
  induction hlength : cs.length using Nat.strong_induction_on generalizing before cs pending ts with
  | _ length ih =>
      subst hlength
      rcases cs with _ | ⟨c, rest⟩
      · exact ⟨[], .nil before⟩
      · have hstep : l.modeStep source (.plain pending) ⟨c, .behind before⟩ = _ :=
          plainStep_eq hline hblock pending ⟨c, .behind before⟩
        cases hrole : l.role c with
        | bad =>
            rw [hrole] at hstep
            rw [tokensFrom, hstep] at h
            cases h
        | delimiter =>
            rw [hrole] at hstep
            rw [tokensFrom_cons hstep] at h
            obtain ⟨later, hlater, -⟩ := Except.map_eq_ok_iff.mp h
            obtain ⟨body, behind, rfl, hcloses⟩ : ∃ body behind, rest = body ++ c :: behind ∧
                Closes c body := exists_closes (by simp) hlater
            rw [tokensFrom_opened hcloses] at hlater
            obtain ⟨last, hlast, -⟩ := Except.map_eq_ok_iff.mp hlater
            obtain ⟨pieces, hpieces⟩ := ih behind.length (by simp; omega) hlast rfl
            exact ⟨_, .literal hrole hcloses hpieces⟩
        | _ =>
            rw [hrole] at hstep
            rw [tokensFrom_cons hstep] at h
            obtain ⟨later, hlater, -⟩ := Except.map_eq_ok_iff.mp h
            obtain ⟨pieces, hpieces⟩ := ih rest.length (by simp) hlater rfl
            exact ⟨_, .single (by simp [hrole]) (by simp [hrole]) hpieces⟩

/-- A lexer without comments scans exactly the texts that split, to the tokens of their pieces. -/
theorem scan_iff_splits (s : Source) (ts : List Token) :
    l.scan s = .ok ts ↔ ∃ cs pieces, s.content = Utf8.encodeAll cs ∧ l.Splits [] cs pieces ∧
      ts = l.tokensOf s.name pieces := by
  constructor
  · intro h
    obtain ⟨cs, hcs⟩ := exists_chars_of_scan h
    rw [scan_eq_tokensFrom s hcs] at h
    obtain ⟨pieces, hpieces⟩ := exists_splits hline hblock h
    have hok : l.tokensFrom s.name (.behind []) (.plain []) cs = _ :=
      @tokensFrom_of_splits l s.name hline hblock [] cs pieces hpieces [] nofun
    exact ⟨cs, pieces, hcs, hpieces, Except.ok.inj (h.symm.trans hok)⟩
  · rintro ⟨cs, pieces, hcs, hpieces, rfl⟩
    rw [scan_eq_tokensFrom s hcs]
    exact @tokensFrom_of_splits l s.name hline hblock [] cs pieces hpieces [] nofun

end Scanning

/-- What the tokens of a lexer without comments can be. -/
inductive Emits (l : Lexer) (t : Token) : Prop where
  | keyword : t.kind = .keyword → l.isKeyword t.text = true → Emits l t
  | word : t.kind = .word → Emits l t
  | symbol (c : Char) : t.kind = .symbol → l.role c = .symbol → t.text = Utf8.encode c → Emits l t
  | string (d : Char) (body : List Char) : t.kind = .string → l.role d = .delimiter →
      t.text = Utf8.encodeAll (d :: (body ++ [d])) → Emits l t

/-- Only delimiters open literals. -/
theorem Splits.role_of_mem {before cs : List Char} {pieces : List Piece}
    (h : l.Splits before cs pieces) {p : Piece} (hp : p ∈ pieces) :
    (∃ c, p = .single c ∧ l.role c.char ≠ .delimiter) ∨
      ∃ opening body, p = .literal opening body ∧ l.role opening.char = .delimiter := by
  induction h with
  | nil => cases hp
  | single hdelimiter _ _ ih =>
      rcases List.mem_cons.mp hp with rfl | hp
      · exact .inl ⟨_, rfl, hdelimiter⟩
      · exact ih hp
  | literal hd _ _ ih =>
      rcases List.mem_cons.mp hp with rfl | hp
      · exact .inr ⟨_, _, rfl, hd⟩
      · exact ih hp

/-- A token is that of a longest run, which starts with one of the pieces. -/
theorem exists_run_of_mem {pieces : List Piece} {t : Token} (ht : t ∈ l.tokensOf source pieces) :
    ∃ first rest, first ∈ pieces ∧ t ∈ l.runTokens source (first :: rest) := by
  obtain ⟨run, hrun, ht⟩ := List.mem_flatMap.mp ht
  rcases run with _ | ⟨first, rest⟩
  · cases ht
  · have hflat : first ∈ ((pieces.filter fun p ↦ l.pieceRole p != .ignorable).splitBy
        l.sameWord).flatten := List.mem_flatten.mpr ⟨_, hrun, List.mem_cons_self⟩
    rw [List.flatten_splitBy] at hflat
    exact ⟨first, rest, (List.mem_filter.mp hflat).1, ht⟩

/-- The tokens of a text that splits are those that can be. -/
theorem Splits.emits {before cs : List Char} {pieces : List Piece} (h : l.Splits before cs pieces)
    {t : Token} (ht : t ∈ l.tokensOf source pieces) : l.Emits t := by
  obtain ⟨first, rest, hfirst, ht⟩ := exists_run_of_mem ht
  rcases h.role_of_mem hfirst with ⟨c, rfl, hc⟩ | ⟨opening, body, rfl, hd⟩
  · simp only [runTokens, pieceRole] at ht
    split at ht
    · rw [List.mem_singleton.mp ht]
      by_cases hkeyword : l.isKeyword ((Piece.single c :: rest).flatMap Piece.text) = true
      · exact .keyword (if_pos hkeyword) hkeyword
      · exact .word (if_neg hkeyword)
    · next hrole =>
        rw [List.mem_singleton.mp ht]
        exact .symbol c.char rfl hrole rfl
    · next hrole => exact absurd hrole hc
    · cases ht
  · rw [List.mem_singleton.mp ht]
    exact .string opening.char body rfl hd rfl

end Lexer

namespace Lexicon

/-- The lexer of a lexicon has the characters that its texts are made of. -/
theorem lexer_encodeAll (keywords : List Text) (symbols delimiters : List Char)
    (lineComments blockComments : Bool) (isWordChar : Char → Bool) :
    (Lexicon.mk keywords (Utf8.encodeAll symbols) (Utf8.encodeAll delimiters) lineComments
      blockComments (some isWordChar)).lexer =
        ⟨keywords, symbols, delimiters, lineComments, blockComments, isWordChar⟩ := by
  rw [lexer, Utf8.chars_encodeAll, Utf8.chars_encodeAll, Option.getD_some]

/-- Without comments, a source is scanned exactly if its content is valid UTF-8 and splits into
literals and single characters, and its tokens are those of the pieces. -/
theorem scan_eq_ok_iff_splits (l : Lexicon) (hline : l.lineComments = false)
    (hblock : l.blockComments = false) (s : Source) (ts : List Token) :
    l.lexer.scan s = .ok ts ↔ ∃ cs pieces, s.content = Utf8.encodeAll cs ∧
      l.lexer.Splits [] cs pieces ∧ ts = l.lexer.tokensOf s.name pieces :=
  l.lexer.scan_iff_splits hline hblock s ts

/-- A keyword with a tab in it, a symbol, and a literal with an escaped delimiter. -/
theorem scan_keyword_symbol_literal :
    (Lexicon.mk [utf8 "on"] (utf8 ";") (utf8 "\"") false false (some Char.isAlpha)).lexer.scan
        ⟨utf8 "in", utf8 "o\tn;\"a\\\"b\""⟩ =
      .ok [⟨.keyword, utf8 "on", utf8 "in", 0, ⟨1, 1⟩⟩, ⟨.symbol, utf8 ";", utf8 "in", 3, ⟨1, 4⟩⟩,
        ⟨.string, utf8 "\"a\\\"b\"", utf8 "in", 4, ⟨1, 5⟩⟩] := by
  have hlexer : (Lexicon.mk [utf8 "on"] (utf8 ";") (utf8 "\"") false false
      (some Char.isAlpha)).lexer = ⟨[utf8 "on"], [';'], ['"'], false, false, Char.isAlpha⟩ := by
    have hsymbols : Utf8.chars (utf8 ";") = [';'] := Utf8.chars_encodeAll [';']
    have hdelimiters : Utf8.chars (utf8 "\"") = ['"'] := Utf8.chars_encodeAll ['"']
    simp [lexer, hsymbols, hdelimiters]
  have hcloses : Lexer.Closes '"' ['a', '\\', '"', 'b'] := by
    refine ⟨by decide, fun left right h ↦ ?_⟩
    rcases left with _ | ⟨a, _ | ⟨b, _ | ⟨c, _ | ⟨d, left⟩⟩⟩⟩ <;> simp at h
    obtain ⟨rfl, rfl, -⟩ := h
    decide
  refine (scan_eq_ok_iff_splits _ rfl rfl _ _).mpr
    ⟨['o', '\t', 'n', ';', '"', 'a', '\\', '"', 'b', '"'],
      [.single ⟨'o', ⟨0, ⟨1, 1⟩⟩⟩, .single ⟨'\t', ⟨1, ⟨1, 2⟩⟩⟩, .single ⟨'n', ⟨2, ⟨1, 3⟩⟩⟩,
        .single ⟨';', ⟨3, ⟨1, 4⟩⟩⟩, .literal ⟨'"', ⟨4, ⟨1, 5⟩⟩⟩ ['a', '\\', '"', 'b']], rfl, ?_, ?_⟩
  · rw [hlexer]
    exact .single (by decide) (by decide) (.single (by decide) (by decide)
      (.single (by decide) (by decide) (.single (by decide) (by decide)
        (.literal (by decide) hcloses (.nil _)))))
  · rw [hlexer]
    decide

end Lexicon

end Tagfold
