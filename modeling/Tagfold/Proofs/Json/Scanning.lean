import Tagfold.Proofs.Json.Lexemes

/-!
# Scanning printed characters

`Scans cs P` says that the characters `cs` are scanned as tokens with the property `P`, wherever
they stand and whatever comes behind them that ends a word. Words, literals and punctuation marks
are scanned so, and what is scanned so can be joined: `Scans.punct` and `Scans.append`.
-/

namespace Tagfold.Json

open Lexer

/-- Nothing before the tokens changes nothing. -/
theorem map_nil_append (x : Except LexicalError (List Token)) : x.map ([] ++ ·) = x := by
  cases x <;> rfl

/-- Tokens before tokens are put before the rest together. -/
theorem map_append_append (ts us : List Token) (x : Except LexicalError (List Token)) :
    (x.map (us ++ ·)).map (ts ++ ·) = x.map (ts ++ us ++ ·) := by
  cases x with
  | error err => rfl
  | ok ws => exact congrArg Except.ok (List.append_assoc ts us ws).symm

/-- The characters around a punctuation mark. -/
theorem encodeAll_around (p : Punct) (cs ds : List Char) :
    Utf8.encodeAll (cs ++ p.char :: ds) = Utf8.encodeAll cs ++ p.text ++ Utf8.encodeAll ds := by
  rw [Utf8.encodeAll_append, Utf8.encodeAll_cons, p.text_eq, List.append_assoc]

/-- The characters between two punctuation marks. -/
theorem encodeAll_between (p q : Punct) (cs : List Char) :
    Utf8.encodeAll (p.char :: (cs ++ [q.char])) = p.text ++ Utf8.encodeAll cs ++ q.text := by
  rw [Utf8.encodeAll_cons, encodeAll_around, p.text_eq, Utf8.encodeAll_nil, List.append_nil,
    List.append_assoc]

/-- The role of a punctuation mark. -/
@[simp] theorem role_char (p : Punct) : lexicon.lexer.role p.char = .symbol := by
  rw [lexer_lexicon]
  cases p <;> decide

/-- The role of the quote. -/
@[simp] theorem role_quote : lexicon.lexer.role '"' = .delimiter := by
  rw [lexer_lexicon]
  decide

/-- Characters of digits belong to words. -/
theorem role_ofNat_digit {b : UInt8} (h : Text.isDigit b = true) :
    lexicon.lexer.role (Char.ofNat b.toNat) = .word := by
  obtain ⟨hlow, hhigh⟩ := Text.isDigit_iff.mp h
  rw [lexer_lexicon]
  generalize b.toNat = n at hlow hhigh
  interval_cases n <;> decide

/-- A run of digits has one character for each digit. They belong to words, and spell no keyword. -/
theorem exists_chars_of_digits {t : Text} (ht : Text.Digits t) :
    ∃ cs, t = Utf8.encodeAll cs ∧ cs.length = t.length ∧
      (∀ c ∈ cs, lexicon.lexer.role c = .word) ∧ ¬ lexicon.lexer.isKeyword t = true := by
  have hascii : ∀ b ∈ t, b.toNat < 128 := by
    intro b hb
    have := Text.isDigit_iff.mp (ht b hb)
    omega
  refine ⟨_, (Utf8.encodeAll_map_ofNat hascii).symm, List.length_map _, ?_, ?_⟩
  · intro c hc
    obtain ⟨b, hb, rfl⟩ := List.mem_map.mp hc
    exact role_ofNat_digit (ht b hb)
  · intro hkeyword
    obtain ⟨c, hc⟩ := exists_constant_of_isKeyword hkeyword
    have hall : t.all Text.isDigit = true := List.all_eq_true.mpr ht
    rw [hc] at hall
    cases c <;> cases hall

/-- The characters end a word before them: there are none, or a symbol comes first. -/
def Breaks (cs : List Char) : Prop := ∀ c ∈ cs.head?, lexicon.lexer.role c = .symbol

/-- A punctuation mark ends a word. -/
theorem breaks_char (p : Punct) (cs : List Char) : Breaks (p.char :: cs) := by
  intro c hc
  cases hc
  exact role_char p

/-- What ends a word does so with more behind it. -/
theorem Breaks.append {cs rest : List Char} (h : Breaks cs) (hrest : Breaks rest) :
    Breaks (cs ++ rest) := by
  cases cs with
  | nil => exact hrest
  | cons c cs => exact h

/-- The tokens from a place on, between literals. -/
abbrev tokensBehind (source : Text) (before : List Char) (pending : List Placed) (cs : List Char) :
    Except LexicalError (List Token) :=
  lexicon.lexer.tokensFrom source (.behind before) (.plain pending) cs

/-- Wherever the characters stand before a break, they are scanned as tokens with the property. -/
def Scans (cs : List Char) (P : List Token → Prop) : Prop :=
  ∀ source before rest, Breaks rest → ∃ ts, P ts ∧
    tokensBehind source before [] (cs ++ rest) =
      (tokensBehind source (before ++ cs) [] rest).map (ts ++ ·)

/-- One character between literals is taken by its role. -/
theorem modeStep_plain (source : Text) (pending : List Placed) (c : Placed) :
    lexicon.lexer.modeStep source (.plain pending) c = lexicon.lexer.plainStep source pending c :=
  rfl

/-- Before a break, the pending word is a token of its own. -/
theorem tokensBehind_of_breaks {rest : List Char} (h : Breaks rest) (source : Text)
    (before : List Char) (pending : List Placed) :
    tokensBehind source before pending rest =
      (tokensBehind source before [] rest).map (lexicon.lexer.flush source pending ++ ·) := by
  cases rest with
  | nil => simp [tokensBehind, tokensFrom, finish, flush, Except.map]
  | cons c rest =>
      have hrole : lexicon.lexer.role c = .symbol := h c rfl
      have hstep : ∀ pending, lexicon.lexer.modeStep source (.plain pending) ⟨c, .behind before⟩ =
          .ok (.plain [], lexicon.lexer.flush source pending ++
            [tokenAt source .symbol (Utf8.encode c) (.behind before)]) := by
        intro pending
        rw [modeStep_plain, plainStep_eq rfl rfl, hrole]
      rw [tokensBehind, tokensBehind, tokensFrom_cons (hstep pending), tokensFrom_cons (hstep []),
        map_append_append]
      rfl

/-- Word characters are collected. -/
theorem exists_pending {cs : List Char} (h : ∀ c ∈ cs, lexicon.lexer.role c = .word) (source : Text)
    (before rest : List Char) (pending : List Placed) :
    ∃ collected : List Placed, pending <:+ collected ∧
      collected.reverse.map Placed.char = pending.reverse.map Placed.char ++ cs ∧
      tokensBehind source before pending (cs ++ rest) =
        tokensBehind source (before ++ cs) collected rest := by
  induction cs generalizing before pending with
  | nil => exact ⟨pending, List.suffix_rfl, by simp, by simp⟩
  | cons c cs ih =>
      have hrole : lexicon.lexer.role c = .word := h c List.mem_cons_self
      have hstep : lexicon.lexer.modeStep source (.plain pending) ⟨c, .behind before⟩ =
          .ok (.plain (⟨c, .behind before⟩ :: pending), []) := by
        rw [modeStep_plain, plainStep_eq rfl rfl, hrole]
      obtain ⟨collected, hsuffix, hchars, htokens⟩ :=
        ih (fun a ha ↦ h a (List.mem_cons_of_mem _ ha)) (before ++ [c])
          (⟨c, .behind before⟩ :: pending)
      refine ⟨collected, (List.suffix_cons _ _).trans hsuffix, by simpa using hchars, ?_⟩
      rw [List.append_assoc, List.singleton_append] at htokens
      rw [tokensBehind, List.cons_append, tokensFrom_cons hstep, map_nil_append]
      exact htokens

/-- Word characters before a break are one token, which stands where they start. -/
theorem tokensBehind_word {cs : List Char} (hne : cs ≠ [])
    (h : ∀ c ∈ cs, lexicon.lexer.role c = .word) (source : Text) (before : List Char)
    {rest : List Char} (hrest : Breaks rest) :
    tokensBehind source before [] (cs ++ rest) =
      (tokensBehind source (before ++ cs) [] rest).map
        ([tokenAt source (if lexicon.lexer.isKeyword (Utf8.encodeAll cs) then .keyword else .word)
          (Utf8.encodeAll cs) (.behind before)] ++ ·) := by
  obtain ⟨c, cs, rfl⟩ := List.exists_cons_of_ne_nil hne
  obtain ⟨collected, hsuffix, hchars, htokens⟩ :=
    exists_pending (fun a ha ↦ h a (List.mem_cons_of_mem _ ha)) source (before ++ [c]) rest
      [⟨c, .behind before⟩]
  have hstep : lexicon.lexer.modeStep source (.plain []) ⟨c, .behind before⟩ =
      .ok (.plain [⟨c, .behind before⟩], []) := by
    rw [modeStep_plain, plainStep_eq rfl rfl, h c List.mem_cons_self]
  have hfirst : collected.getLast? = some ⟨c, .behind before⟩ := by
    obtain ⟨later, rfl⟩ := hsuffix
    exact List.getLast?_concat
  have hflush : lexicon.lexer.flush source collected = [tokenAt source
      (if lexicon.lexer.isKeyword (Utf8.encodeAll (c :: cs)) then .keyword else .word)
      (Utf8.encodeAll (c :: cs)) (.behind before)] := by
    rw [flush, hfirst, hchars]
    rfl
  rw [tokensBehind, List.cons_append, tokensFrom_cons hstep, map_nil_append]
  show tokensBehind source (before ++ [c]) [⟨c, .behind before⟩] (cs ++ rest) = _
  rw [htokens, tokensBehind_of_breaks hrest, hflush, List.append_assoc, List.singleton_append]

/-- A punctuation mark is one token. -/
theorem tokensBehind_punct (p : Punct) (source : Text) (before rest : List Char) :
    tokensBehind source before [] (p.char :: rest) =
      (tokensBehind source (before ++ [p.char]) [] rest).map
        ([tokenAt source .symbol p.text (.behind before)] ++ ·) := by
  have hstep : lexicon.lexer.modeStep source (.plain []) ⟨p.char, .behind before⟩ =
      .ok (.plain [], [tokenAt source .symbol p.text (.behind before)]) := by
    rw [modeStep_plain, plainStep_eq rfl rfl, role_char, p.text_eq]
    rfl
  rw [tokensBehind, tokensFrom_cons hstep]

namespace Scans

variable {cs ds : List Char} {P Q : List Token → Prop}

/-- Nothing is scanned as nothing. -/
theorem nil : Scans [] (· = []) := by
  intro source before rest _
  refine ⟨[], rfl, ?_⟩
  rw [List.append_nil, List.nil_append, map_nil_append]

/-- Properties of the tokens can be weakened. -/
theorem mono (h : Scans cs P) (hPQ : ∀ ts, P ts → Q ts) : Scans cs Q := by
  intro source before rest hrest
  obtain ⟨ts, hts, htokens⟩ := h source before rest hrest
  exact ⟨ts, hPQ ts hts, htokens⟩

/-- A punctuation mark before characters is a token before theirs. -/
theorem punct (p : Punct) (h : Scans cs P) :
    Scans (p.char :: cs) fun ts ↦ ∃ t us, ts = t :: us ∧ IsPunct p t ∧ P us := by
  intro source before rest hrest
  obtain ⟨us, hus, htokens⟩ := h source (before ++ [p.char]) rest hrest
  refine ⟨_, ⟨tokenAt source .symbol p.text (.behind before), us, rfl, ⟨rfl, rfl⟩, hus⟩, ?_⟩
  rw [List.append_assoc, List.singleton_append] at htokens
  rw [List.cons_append, tokensBehind_punct, htokens, map_append_append]
  rfl

/-- Characters before a break and those behind it are scanned one after the other. -/
theorem append (h : Scans cs P) (hds : Breaks ds) (hd : Scans ds Q) :
    Scans (cs ++ ds) fun ts ↦ ∃ us ws, ts = us ++ ws ∧ P us ∧ Q ws := by
  intro source before rest hrest
  obtain ⟨us, hus, hfirst⟩ := h source before (ds ++ rest) (hds.append hrest)
  obtain ⟨ws, hws, hsecond⟩ := hd source (before ++ cs) rest hrest
  refine ⟨us ++ ws, ⟨us, ws, rfl, hus, hws⟩, ?_⟩
  rw [List.append_assoc, hfirst, hsecond, map_append_append, List.append_assoc]

/-- Characters around a punctuation mark are scanned as tokens around one. -/
theorem around (p : Punct) (h : Scans cs P) (hd : Scans ds Q) :
    Scans (cs ++ p.char :: ds) fun ts ↦
      ∃ us t ws, ts = us ++ t :: ws ∧ P us ∧ IsPunct p t ∧ Q ws := by
  refine (h.append (breaks_char p ds) (hd.punct p)).mono ?_
  rintro ts ⟨us, ws, rfl, hus, t, xs, rfl, ht, hxs⟩
  exact ⟨us, t, xs, rfl, hus, ht, hxs⟩

/-- Characters between two punctuation marks are scanned as tokens between two. -/
theorem between (p q : Punct) (h : Scans cs P) :
    Scans (p.char :: (cs ++ [q.char])) fun ts ↦
      ∃ t us u, ts = t :: (us ++ [u]) ∧ IsPunct p t ∧ P us ∧ IsPunct q u := by
  refine ((h.around q nil).punct p).mono ?_
  rintro ts ⟨t, xs, rfl, ht, us, u, ws, rfl, hus, hu, rfl⟩
  exact ⟨t, us, u, rfl, ht, hus, hu⟩

/-- Word characters are scanned as one token. -/
theorem word (hne : cs ≠ []) (h : ∀ c ∈ cs, lexicon.lexer.role c = .word) :
    Scans cs fun ts ↦ ∃ t, ts = [t] ∧ t.text = Utf8.encodeAll cs ∧
      t.kind = if lexicon.lexer.isKeyword (Utf8.encodeAll cs) then .keyword else .word := by
  intro source before rest hrest
  exact ⟨_, ⟨_, rfl, rfl, rfl⟩, tokensBehind_word hne h source before hrest⟩

/-- A body between quotes is scanned as one token. -/
theorem literal {body : List Char} (h : Closes '"' body) :
    Scans ('"' :: (body ++ ['"'])) fun ts ↦ ∃ t, ts = [t] ∧ t.kind = .string ∧
      t.text = Utf8.encodeAll ('"' :: (body ++ ['"'])) := by
  intro source before rest _
  have hstep : lexicon.lexer.modeStep source (.plain []) ⟨'"', .behind before⟩ =
      .ok (.literal ⟨'"', .behind before⟩ [], []) := by
    rw [modeStep_plain, plainStep_eq rfl rfl, role_quote]
    rfl
  refine ⟨[tokenAt source .string (Piece.literal ⟨'"', .behind before⟩ body).text (.behind before)],
    ⟨_, rfl, rfl, rfl⟩, ?_⟩
  rw [tokensBehind, List.cons_append, List.append_assoc, List.singleton_append,
    tokensFrom_cons hstep, map_nil_append, tokensFrom_opened h]
  rfl

end Scans

/-- A text is scanned as the tokens that its characters are scanned as. -/
theorem Scans.exists_scan {cs : List Char} {P : List Token → Prop} (h : Scans cs P) {s : Source}
    (hs : s.content = Utf8.encodeAll cs) : ∃ ts, P ts ∧ lexicon.lexer.scan s = .ok ts := by
  obtain ⟨ts, hts, htokens⟩ := h s.name [] [] (fun _ hc ↦ nomatch hc)
  refine ⟨ts, hts, ?_⟩
  rw [List.append_nil, List.nil_append] at htokens
  rw [scan_eq_tokensFrom s hs]
  show tokensBehind s.name [] [] cs = .ok ts
  rw [htokens]
  show Except.ok (ts ++ []) = _
  rw [List.append_nil]

end Tagfold.Json
