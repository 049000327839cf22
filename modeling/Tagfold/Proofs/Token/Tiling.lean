import Tagfold.Proofs.Token.Openings

/-!
# Tokens tile the text

A text that is scanned is a row of tiles: tokens with the characters that they were read from, blank
characters, and comments. `Tile.Fits` says what a tile can be, and `Lexicon.scan_tiles` that the
tiles make up the text without gaps and overlaps, up to a line comment that the end of the text
ends. So tokens stand in order, and what is in no token is blank or in a comment.
-/

namespace Tagfold

/-- A stretch of a text: a token with the characters it was read from, a blank character, or a
comment. -/
inductive Tile where
  | token (t : Token) (span : List Char)
  | blank (c : Char)
  | comment (span : List Char)
  deriving DecidableEq, Repr

namespace Lexer

/-- The characters of a line comment, from its slash up to the end of the line. The second slash may
stand behind characters that are ignored. -/
def LineComment (l : Lexer) (cs : List Char) : Prop :=
  l.lineComments = true ∧ ∃ gap body, cs = '/' :: (gap ++ '/' :: body) ∧
    (∀ c ∈ gap, l.role c = .ignorable) ∧ '\n' ∉ body

/-- The characters of a block comment, from its slash to the first star and slash behind its star,
which may stand behind characters that are ignored. -/
def BlockComment (l : Lexer) (cs : List Char) : Prop :=
  l.blockComments = true ∧ ∃ gap body, cs = '/' :: (gap ++ '*' :: (body ++ ['*', '/'])) ∧
    (∀ c ∈ gap, l.role c = .ignorable) ∧ ¬ ['*', '/'] <:+: body

end Lexer

namespace Tile

/-- The characters of a tile. -/
@[simp]
def span : Tile → List Char
  | token _ cs => cs
  | blank c => [c]
  | comment cs => cs

/-- The token of a tile, if it is one. -/
@[simp]
def token? : Tile → Option Token
  | token t _ => some t
  | _ => none

/-- What a tile behind the given characters can be. A symbol is a single character, and a literal
runs up to the delimiter that closes it. A word starts with one of its characters, and its text is
what is left without the ignorable ones. -/
inductive Fits (l : Lexer) (source : Text) (before : List Char) : Tile → Prop where
  | blank {c : Char} : c ∈ [' ', '\n', '\t', '\r'] → Fits l source before (.blank c)
  | lineComment {cs : List Char} : l.LineComment cs →
      Fits l source before (.comment (cs ++ ['\n']))
  | blockComment {cs : List Char} : l.BlockComment cs → Fits l source before (.comment cs)
  | symbol {c : Char} : l.isSymbol c = true →
      Fits l source before
        (.token (Lexer.tokenAt source .symbol (Utf8.encodeAll [c]) (.behind before)) [c])
  | literal {d : Char} {body : List Char} : l.isDelimiter d = true → Lexer.Closes d body →
      Fits l source before
        (.token (Lexer.tokenAt source .string (Utf8.encodeAll (d :: (body ++ [d]))) (.behind before))
          (d :: (body ++ [d])))
  | word {c : Char} {rest : List Char} {text : Text} : l.Collectable c →
      (∀ a ∈ rest, l.Collectable a ∨ l.role a = .ignorable) →
      text = Utf8.encodeAll ((c :: rest).filter fun a ↦ l.role a ≠ .ignorable) →
      Fits l source before
        (.token (Lexer.tokenAt source (if l.isKeyword text then .keyword else .word) text
          (.behind before)) (c :: rest))

/-- The token of the first tile, if it has one, ends before that of the second one starts. -/
def Precedes (a b : Tile) : Prop :=
  ∀ t ∈ a.token?, ∀ u ∈ b.token?, t.offset + (Utf8.encodeAll a.span).length ≤ u.offset

variable {l : Lexer} {source : Text} {before : List Char} {tile : Tile} {t : Token}

/-- A token stands where its characters start. -/
theorem Fits.offset (h : tile.Fits l source before) (ht : t ∈ tile.token?) :
    t.offset = (Utf8.encodeAll before).length := by
  cases h with
  | blank | lineComment | blockComment => cases ht
  | symbol | literal | word =>
      cases ht
      rfl

/-- A token has characters. -/
theorem Fits.length_pos (h : tile.Fits l source before) (ht : t ∈ tile.token?) :
    0 < (Utf8.encodeAll tile.span).length := by
  rw [List.length_pos_iff]
  cases h with
  | blank | lineComment | blockComment => cases ht
  | symbol | literal | word => simp [Utf8.encode_ne_nil]

/-- A token has a text. -/
theorem Fits.text_ne_nil (h : tile.Fits l source before) (ht : t ∈ tile.token?) : t.text ≠ [] := by
  cases h with
  | blank | lineComment | blockComment => cases ht
  | symbol | literal =>
      cases ht
      simp [Lexer.tokenAt, Utf8.encode_ne_nil]
  | @word c rest text hc _ htext =>
      cases ht
      show text ≠ []
      rw [htext, List.filter_cons_of_pos (by simpa using hc.role_ne_ignorable)]
      simp [Utf8.encode_ne_nil]

/-- A token names the source it was read from. -/
theorem Fits.source_eq (h : tile.Fits l source before) (ht : t ∈ tile.token?) :
    t.source = source := by
  cases h with
  | blank | lineComment | blockComment => cases ht
  | symbol | literal | word =>
      cases ht
      rfl

/-- A keyword is one of the keywords. -/
theorem Fits.isKeyword (h : tile.Fits l source before) (ht : t ∈ tile.token?)
    (hkind : t.kind = .keyword) : l.isKeyword t.text = true := by
  cases h with
  | blank | lineComment | blockComment => cases ht
  | symbol | literal =>
      cases ht
      cases hkind
  | @word c rest text =>
      cases ht
      show l.isKeyword text = true
      simp only [Lexer.tokenAt] at hkind
      split at hkind
      · assumption
      · cases hkind

/-- A symbol is one of the symbols. -/
theorem Fits.isSymbol (h : tile.Fits l source before) (ht : t ∈ tile.token?)
    (hkind : t.kind = .symbol) : ∃ c, l.isSymbol c = true ∧ t.text = Utf8.encode c := by
  cases h with
  | blank | lineComment | blockComment => cases ht
  | @symbol c hc =>
      cases ht
      exact ⟨c, hc, by simp [Lexer.tokenAt]⟩
  | literal =>
      cases ht
      cases hkind
  | word =>
      cases ht
      simp only [Lexer.tokenAt] at hkind
      split at hkind <;> cases hkind

/-- A literal runs from a delimiter to the same one. -/
theorem Fits.isDelimiter (h : tile.Fits l source before) (ht : t ∈ tile.token?)
    (hkind : t.kind = .string) : ∃ d body, l.isDelimiter d = true ∧
      t.text = Utf8.encodeAll (d :: (body ++ [d])) := by
  cases h with
  | blank | lineComment | blockComment => cases ht
  | symbol =>
      cases ht
      cases hkind
  | @literal d body hd =>
      cases ht
      exact ⟨d, body, hd, rfl⟩
  | word =>
      cases ht
      simp only [Lexer.tokenAt] at hkind
      split at hkind <;> cases hkind

/-- The class of a token is known. -/
theorem Fits.kind_ne_other (h : tile.Fits l source before) (ht : t ∈ tile.token?) (n : Int) :
    t.kind ≠ .other n := by
  cases h with
  | blank | lineComment | blockComment => cases ht
  | symbol | literal =>
      cases ht
      exact nofun
  | word =>
      cases ht
      simp only [Lexer.tokenAt]
      split <;> exact nofun

/-- The text of a symbol or a literal is that of its characters. -/
theorem Fits.text_eq (h : tile.Fits l source before) (ht : t ∈ tile.token?)
    (hkind : t.kind = .symbol ∨ t.kind = .string) : t.text = Utf8.encodeAll tile.span := by
  cases h with
  | blank | lineComment | blockComment => cases ht
  | symbol | literal =>
      cases ht
      rfl
  | word =>
      cases ht
      simp only [Lexer.tokenAt] at hkind
      split at hkind <;> simp at hkind

end Tile

namespace Lexer

/-- The tiles fit behind each other. -/
def Tiles (l : Lexer) (source : Text) (tiles : List Tile) : Prop :=
  ∀ left tile right, tiles = left ++ tile :: right →
    tile.Fits l source (left.flatMap Tile.span)

/-- The characters are those of tiles that fit, with the given tokens. -/
def Tiled (l : Lexer) (source : Text) (cs : List Char) (ts : List Token) : Prop :=
  ∃ tiles, l.Tiles source tiles ∧ cs = tiles.flatMap Tile.span ∧ ts = tiles.filterMap Tile.token?

/-- The characters behind the given ones that are read for a word so far: the ignorable ones among
them are left out. -/
inductive Collects (l : Lexer) (before : List Char) : List Char → List Placed → Prop where
  | nil : Collects l before [] []
  | collect {raw : List Char} {pending : List Placed} {c : Char} : Collects l before raw pending →
      l.Collectable c → Collects l before (raw ++ [c]) (⟨c, .behind (before ++ raw)⟩ :: pending)
  | drop {raw : List Char} {pending : List Placed} {c : Char} : Collects l before raw pending →
      pending ≠ [] → l.role c = .ignorable → Collects l before (raw ++ [c]) pending

/-- The characters are those of tiles, and behind them those of the word so far. -/
def Laid (l : Lexer) (source : Text) (cs : List Char) (pending : List Placed)
    (tokens : List Token) : Prop :=
  ∃ done raw, cs = done ++ raw ∧ l.Tiled source done tokens.reverse ∧ l.Collects done raw pending

section Words

variable {l : Lexer} {source : Text} {before raw : List Char} {pending : List Placed}

/-- Without a word so far no characters are kept back. -/
theorem Collects.eq_nil (h : l.Collects before raw []) : raw = [] := by
  generalize hp : ([] : List Placed) = pending at h
  cases h with
  | nil => rfl
  | collect => cases hp
  | drop _ hpending => exact absurd hp.symm hpending

/-- The word so far has the characters that are not ignorable. -/
theorem Collects.map_char (h : l.Collects before raw pending) :
    pending.reverse.map Placed.char = raw.filter fun c ↦ l.role c ≠ .ignorable := by
  induction h with
  | nil => rfl
  | collect _ hc ih =>
      rw [List.reverse_cons, List.map_append, ih, List.filter_append]
      simp [hc.role_ne_ignorable]
  | drop _ _ hc ih =>
      rw [ih, List.filter_append]
      simp [hc]

/-- The characters that are kept back are those of a word or ignorable. -/
theorem Collects.mem (h : l.Collects before raw pending) :
    ∀ a ∈ raw, l.Collectable a ∨ l.role a = .ignorable := by
  induction h with
  | nil => exact nofun
  | collect _ hc ih => simpa [or_imp, forall_and] using ⟨ih, Or.inl hc⟩
  | drop _ _ hc ih => simpa [or_imp, forall_and] using ⟨ih, Or.inr hc⟩

/-- The word so far starts where its characters do. -/
theorem Collects.exists_first (h : l.Collects before raw pending) (hpending : pending ≠ []) :
    ∃ c rest, raw = c :: rest ∧ l.Collectable c ∧ pending.getLast? = some ⟨c, .behind before⟩ := by
  induction h with
  | nil => exact absurd rfl hpending
  | @collect raw pending c hraw hc ih =>
      by_cases hnil : pending = []
      · subst hnil
        obtain rfl := hraw.eq_nil
        exact ⟨c, [], rfl, hc, by rw [List.append_nil]; rfl⟩
      · obtain ⟨a, rest, rfl, ha, hfirst⟩ := ih hnil
        exact ⟨a, rest ++ [c], rfl, ha, by rw [List.getLast?_cons, hfirst]; rfl⟩
  | @drop raw pending c _ hne _ ih =>
      obtain ⟨a, rest, rfl, ha, hfirst⟩ := ih hne
      exact ⟨a, rest ++ [c], rfl, ha, hfirst⟩

end Words

section Laying

variable {l : Lexer} {source : Text} {cs : List Char} {ts tokens completed : List Token}
  {pending next : List Placed} {tile : Tile} {c : Char}

/-- No tiles make up no characters. -/
theorem tiled_nil (l : Lexer) (source : Text) : l.Tiled source [] [] := by
  refine ⟨[], fun left tile right h ↦ ?_, rfl, rfl⟩
  simp at h

/-- One more tile is laid. -/
theorem Tiled.concat (h : l.Tiled source cs ts) (htile : tile.Fits l source cs) :
    l.Tiled source (cs ++ tile.span) (ts ++ tile.token?.toList) := by
  obtain ⟨tiles, hfits, rfl, rfl⟩ := h
  refine ⟨tiles ++ [tile], fun left x right heq ↦ ?_, by simp, ?_⟩
  · rcases eq_concat_cases heq with ⟨rfl, rfl⟩ | ⟨more, htiles⟩
    · exact htile
    · exact hfits left x more htiles
  · rw [List.filterMap_append]
    cases tile <;> rfl

/-- Tiles without a word so far. -/
theorem Tiled.laid (h : l.Tiled source cs tokens.reverse) : l.Laid source cs [] tokens :=
  ⟨cs, [], (List.append_nil cs).symm, h, .nil⟩

/-- A tile behind others leaves no word so far. -/
theorem Tiled.laid_concat (h : l.Tiled source cs tokens.reverse) (htile : tile.Fits l source cs) :
    l.Laid source (cs ++ tile.span) [] (tile.token?.toList.reverse ++ tokens) := by
  apply Tiled.laid
  rw [List.reverse_append, List.reverse_reverse]
  exact h.concat htile

/-- The word so far is a tile. -/
theorem Laid.flush (h : l.Laid source cs pending tokens) :
    l.Tiled source cs ((l.flush source pending).reverse ++ tokens).reverse := by
  obtain ⟨done, raw, rfl, htiled, hcollects⟩ := h
  rw [List.reverse_append, List.reverse_reverse]
  by_cases hpending : pending = []
  · subst hpending
    obtain rfl := hcollects.eq_nil
    simpa [Lexer.flush] using htiled
  · obtain ⟨c, rest, rfl, hc, hfirst⟩ := hcollects.exists_first hpending
    have hrest := (List.forall_mem_cons.mp hcollects.mem).2
    have hword := htiled.concat (.word hc hrest rfl)
    simp only [Lexer.flush, hfirst, hcollects.map_char]
    exact hword

/-- One character behind tiles and a word so far, outside literals and comments. -/
theorem Laid.concat (h : l.Laid source cs pending tokens)
    (hstep : l.modeStep source (.plain pending) ⟨c, .behind cs⟩ = .ok (.plain next, completed)) :
    l.Laid source (cs ++ [c]) next (completed.reverse ++ tokens) := by
  have hout : l.PlainOutcome source pending ⟨c, .behind cs⟩ (.ok (.plain next, completed)) :=
    hstep ▸ l.plainStep_outcome source pending ⟨c, .behind cs⟩
  cases hout with
  | collected hc =>
      obtain ⟨done, raw, rfl, htiled, hcollects⟩ := h
      exact ⟨done, raw ++ [c], List.append_assoc _ _ _, htiled, hcollects.collect hc⟩
  | dropped hc =>
      obtain ⟨done, raw, rfl, htiled, hcollects⟩ := h
      by_cases hpending : pending = []
      · subst hpending
        obtain rfl := hcollects.eq_nil
        rw [List.append_nil]
        exact htiled.laid_concat (.blank (mem_of_role_blank (.inr hc)))
      · exact ⟨done, raw ++ [c], List.append_assoc _ _ _, htiled, hcollects.drop hpending hc⟩
  | cut hc =>
      rw [List.reverse_append, List.append_assoc]
      by_cases hsymbol : l.isSymbol c = true
      · rw [if_pos hsymbol]
        have hlaid := h.flush.laid_concat (.symbol hsymbol)
        simpa using hlaid
      · rw [if_neg hsymbol]
        have hblank : c ∈ [' ', '\n', '\t', '\r'] := by
          simp only [hsymbol, Bool.false_eq_true, or_false] at hc
          rcases hc with rfl | rfl <;> simp
        exact h.flush.laid_concat (.blank hblank)

/-- The character that leads out of a literal or comment ends a tile, provided that tiles were laid
where the scanner was outside of both before. -/
theorem Reached.laid_concat {mode : ScanMode} (hreached : l.Reached source cs mode tokens)
    (hreads : l.Reads source cs mode tokens)
    (hlaid : ∀ before pending earlier, before.length ≤ cs.length →
      l.Reads source before (.plain pending) earlier → l.Laid source before pending earlier)
    (hstep : l.modeStep source mode ⟨c, .behind cs⟩ = .ok (.plain next, completed)) :
    l.Laid source (cs ++ [c]) next (completed.reverse ++ tokens) := by
  cases hreached with
  | plain => exact (hlaid cs _ _ le_rfl hreads).concat hstep
  | @literal before body d _ _ henters hdelimiter hbody =>
      have hbefore := (hlaid before _ _ (by simp) henters.outside).flush
      simp only [modeStep] at hstep
      split at hstep
      · next hclose =>
          obtain ⟨rfl, hescaped⟩ := hclose
          have hcloses : Closes c body := by
            refine ⟨?_, hbody⟩
            rw [escaped_iff, List.reverse_reverse] at hescaped
            omega
          cases hstep
          have hliteral := hbefore.laid_concat (.literal hdelimiter hcloses)
          simpa using hliteral
      · cases hstep
  | @lineComment before gap body _ _ henters hline hgap hbody =>
      have hbefore := (hlaid before _ _ (by simp) henters.outside).flush
      have hcomment : l.LineComment ('/' :: (gap ++ '/' :: body)) :=
        ⟨hline, gap, body, rfl, hgap, hbody⟩
      simp only [modeStep] at hstep
      split at hstep
      · next hc =>
          cases hstep
          obtain rfl : c = '\n' := hc
          rw [List.append_assoc]
          exact hbefore.laid_concat (.lineComment hcomment)
      · cases hstep
  | @blockComment before gap body _ _ henters hblock hgap hbody =>
      have hbefore := (hlaid before _ _ (by simp) henters.outside).flush
      simp only [modeStep] at hstep
      split at hstep
      · next hclose =>
          obtain ⟨hstar, rfl⟩ := hclose
          obtain ⟨init, rfl⟩ := List.getLast?_eq_some_iff.mp (beq_iff_eq.mp hstar)
          have hinit : ¬ ['*', '/'] <:+: init :=
            fun hclosed ↦ hbody (closing_infix_concat_iff.mpr (.inl hclosed))
          have hcomment : l.BlockComment ('/' :: (gap ++ '*' :: (init ++ ['*', '/']))) :=
            ⟨hblock, gap, init, rfl, hgap, hinit⟩
          cases hstep
          have hlast := hbefore.laid_concat (.blockComment hcomment)
          simpa using hlast
      · cases hstep

/-- Outside of literals and comments, what was read is tiles and a word so far. -/
theorem laid_of_reads (h : l.Reads source cs (.plain pending) tokens) :
    l.Laid source cs pending tokens := by
  -- A literal or comment ends a tile that starts where it was entered, possibly far back.
  induction hn : cs.length using Nat.strong_induction_on generalizing cs pending tokens with
  | _ n ih =>
      rcases List.eq_nil_or_concat' cs with rfl | ⟨cs, c, rfl⟩
      · cases h
        exact (tiled_nil l source).laid
      · obtain ⟨mode, earlier, completed, hreads, hstep, rfl⟩ := reads_concat_cases h
        refine (reached_of_reads hreads).laid_concat hreads ?_ hstep
        intro before pending earlier hlength hbefore
        refine ih before.length ?_ hbefore rfl
        rw [← hn, List.length_append]
        exact Nat.lt_succ_of_le hlength

/-- What was scanned is tiles, up to a line comment that the end of the text ends. -/
theorem tiled_of_scan {s : Source} (h : l.scan s = .ok ts) :
    ∃ done tail, s.content = Utf8.encodeAll (done ++ tail) ∧ (tail = [] ∨ l.LineComment tail) ∧
      l.Tiled s.name done ts := by
  obtain ⟨last, hrun, hfinish⟩ := Except.bind_eq_ok_iff.mp h
  obtain ⟨cs, hcs⟩ := Utf8.exists_encodeAll_of_no_stray (no_stray_of_run hrun)
  rw [hcs, Utf8.decode_encodeAll] at hrun
  have hreads := reads_of_run hrun
  obtain ⟨place, mode, tokens⟩ := last
  cases reached_of_reads hreads with
  | plain =>
      cases hfinish
      refine ⟨cs, [], by rw [hcs, List.append_nil], .inl rfl, ?_⟩
      simpa using (laid_of_reads hreads).flush
  | @lineComment before gap body _ _ henters hline hgap hbody =>
      cases hfinish
      exact ⟨before, _, hcs, .inr ⟨hline, gap, body, rfl, hgap, hbody⟩,
        (laid_of_reads henters.outside).flush⟩
  | literal => cases hfinish
  | blockComment => cases hfinish

end Laying

section Order

variable {l : Lexer} {source : Text} {tiles : List Tile}

/-- Every tile fits behind those before it. -/
theorem Tiles.exists_fits (h : l.Tiles source tiles) {t : Token}
    (ht : t ∈ tiles.filterMap Tile.token?) :
    ∃ left tile right, tiles = left ++ tile :: right ∧ t ∈ tile.token? ∧
      tile.Fits l source (left.flatMap Tile.span) := by
  obtain ⟨tile, hmem, htile⟩ := List.mem_filterMap.mp ht
  obtain ⟨left, right, rfl⟩ := List.append_of_mem hmem
  exact ⟨left, tile, right, rfl, htile, h left tile right rfl⟩

/-- Every token of a scan belongs to a tile that fits. -/
theorem exists_fits_of_scan {s : Source} {ts : List Token} (h : l.scan s = .ok ts) {t : Token}
    (ht : t ∈ ts) : ∃ (tile : Tile) (before : List Char),
      t ∈ tile.token? ∧ tile.Fits l s.name before := by
  obtain ⟨_, _, _, _, tiles, htiles, -, rfl⟩ := tiled_of_scan h
  obtain ⟨left, tile, _, -, htile, hfits⟩ := htiles.exists_fits ht
  exact ⟨tile, left.flatMap Tile.span, htile, hfits⟩

/-- Tiles that fit do not overlap. -/
theorem Tiles.precedes (h : l.Tiles source tiles) : tiles.Pairwise Tile.Precedes := by
  suffices hright : ∀ left right, tiles = left ++ right → right.Pairwise Tile.Precedes from
    hright [] tiles rfl
  intro left right heq
  induction right generalizing left with
  | nil => exact .nil
  | cons a right ih =>
      refine .cons (fun b hb t ht u hu ↦ ?_) (ih (left ++ [a]) (by simp [heq]))
      obtain ⟨mid, rest, rfl⟩ := List.append_of_mem hb
      have ha := (h left a _ heq).offset ht
      have hbehind := (h (left ++ a :: mid) b rest (by simp [heq])).offset hu
      rw [ha, hbehind, List.flatMap_append, List.flatMap_cons]
      simp only [Utf8.encodeAll_append, List.length_append]
      omega

/-- Tokens stand in order. -/
theorem Tiles.offset_lt (h : l.Tiles source tiles) :
    (tiles.filterMap Tile.token?).Pairwise fun t u ↦ t.offset < u.offset := by
  rw [List.pairwise_filterMap]
  refine h.precedes.imp_of_mem fun {a b} ha _ hprecedes t ht u hu ↦ ?_
  obtain ⟨left, right, htiles⟩ := List.append_of_mem ha
  have hpos := (h left a right htiles).length_pos ht
  have hle := hprecedes t ht u hu
  omega

end Order

end Lexer

namespace Lexicon

/-- The text of a scan is made up of tiles: tokens with the characters they were read from, blanks
and comments, up to a line comment that the end of the text ends. The tokens are those of the tiles,
in order and without overlaps, none of them empty, and symbols and literals are found at their
offsets as they are. -/
theorem scan_tiles (l : Lexicon) {s : Source} {ts : List Token} (h : l.lexer.scan s = .ok ts) :
    (ts.Pairwise fun t u ↦ t.offset < u.offset) ∧
    (∀ t ∈ ts, t.text ≠ [] ∧ (t.kind = .symbol ∨ t.kind = .string →
      t.text <+: s.content.drop t.offset.toNat)) ∧
    ∃ tiles tail, s.content = Utf8.encodeAll (tiles.flatMap Tile.span ++ tail) ∧
      (tail = [] ∨ l.lexer.LineComment tail) ∧ ts = tiles.filterMap Tile.token? ∧
      l.lexer.Tiles s.name tiles ∧ tiles.Pairwise Tile.Precedes := by
  obtain ⟨_, tail, hcontent, htail, tiles, htiles, rfl, rfl⟩ := Lexer.tiled_of_scan h
  refine ⟨htiles.offset_lt, fun t ht ↦ ?_, tiles, tail, hcontent, htail, rfl, htiles,
    htiles.precedes⟩
  obtain ⟨left, tile, right, rfl, htile, hfits⟩ := htiles.exists_fits ht
  refine ⟨hfits.text_ne_nil htile, fun hkind ↦ ?_⟩
  rw [hfits.text_eq htile hkind, hfits.offset htile, hcontent]
  simp [Utf8.encodeAll_append]

/-- A keyword that is read over a tab, a symbol, a comment whose slashes stand apart, a literal, and a
comment that nothing ends. -/
theorem scan_tiles_comment :
    (Lexicon.mk [utf8 "if"] (utf8 ";") (utf8 "|") true false (some Char.isAlpha)).lexer.scan
        ⟨utf8 "in", utf8 "i\tf;/\t/é\n|é|//"⟩ =
      .ok [⟨.keyword, utf8 "if", utf8 "in", 0, ⟨1, 1⟩⟩, ⟨.symbol, utf8 ";", utf8 "in", 3, ⟨1, 4⟩⟩,
        ⟨.string, utf8 "|é|", utf8 "in", 10, ⟨2, 1⟩⟩] ∧
    ∃ tiles tail, utf8 "i\tf;/\t/é\n|é|//" = Utf8.encodeAll (tiles.flatMap Tile.span ++ tail) ∧
      (tail = [] ∨ (Lexicon.mk [utf8 "if"] (utf8 ";") (utf8 "|") true false
        (some Char.isAlpha)).lexer.LineComment tail) ∧
      [⟨.keyword, utf8 "if", utf8 "in", 0, ⟨1, 1⟩⟩, ⟨.symbol, utf8 ";", utf8 "in", 3, ⟨1, 4⟩⟩,
        ⟨.string, utf8 "|é|", utf8 "in", 10, ⟨2, 1⟩⟩] = tiles.filterMap Tile.token? ∧
      (Lexicon.mk [utf8 "if"] (utf8 ";") (utf8 "|") true false (some Char.isAlpha)).lexer.Tiles
        (utf8 "in") tiles ∧ tiles.Pairwise Tile.Precedes := by
  have hscan : (Lexicon.mk [utf8 "if"] (utf8 ";") (utf8 "|") true false
      (some Char.isAlpha)).lexer.scan ⟨utf8 "in", utf8 "i\tf;/\t/é\n|é|//"⟩ =
      .ok [⟨.keyword, utf8 "if", utf8 "in", 0, ⟨1, 1⟩⟩, ⟨.symbol, utf8 ";", utf8 "in", 3, ⟨1, 4⟩⟩,
        ⟨.string, utf8 "|é|", utf8 "in", 10, ⟨2, 1⟩⟩] := by
    have hlexer : (Lexicon.mk [utf8 "if"] (utf8 ";") (utf8 "|") true false
        (some Char.isAlpha)).lexer = ⟨[utf8 "if"], [';'], ['|'], true, false, Char.isAlpha⟩ :=
      lexer_encodeAll _ [';'] ['|'] _ _ _
    have hcs : utf8 "i\tf;/\t/é\n|é|//" = Utf8.encodeAll
        ['i', '\t', 'f', ';', '/', '\t', '/', 'é', '\n', '|', 'é', '|', '/', '/'] := rfl
    rw [hlexer, Lexer.scan_eq_tokensFrom _ hcs]
    rfl
  exact ⟨hscan, (scan_tiles _ hscan).2.2⟩

end Lexicon

end Tagfold
