import Tagfold.Proofs.Settings.Scalars
import Tagfold.Proofs.Text.Utf8
import Tagfold.Settings.Reader

/-!
# Spelled documents are read back

A document is spelled with one entry a line, a scalar or a list between brackets behind each key.
`read?_spell` says that this is a document of the notation and that it stands for the entries that
were spelled, whatever characters are in them.
-/

namespace Tagfold.Settings

/-- The spelling of the items of a list and of the bracket that closes it. -/
def spellItems : List Scalar → List Char
  | [] => [']']
  | [s] => s.spelling ++ [']']
  | s :: next :: items => s.spelling ++ ',' :: spellItems (next :: items)

namespace Setting

/-- The spelling of a setting. -/
def spelling : Setting → List Char
  | scalar s => s.spelling
  | list items => '[' :: spellItems items

/-- Every scalar without quotes is a word. -/
def Spelled : Setting → Prop
  | scalar s => s.Spelled
  | list items => ∀ s ∈ items, s.Spelled

end Setting

/-- The spelling of a document. -/
def spell (d : Document) : List Char :=
  d.flatMap fun (key, value) ↦ key.spelling ++ ':' :: ' ' :: (value.spelling ++ ['\n'])

variable {s : Scalar} {v : Setting} {d : Document} {rest : List Char} {col indent fuel : Nat}

/-- The character can begin a spelled scalar. -/
def beginsScalar (c : Char) : Bool :=
  isWordChar c || c == '"'

/-- A spelled scalar begins with a quote or with a character of a word, and with no other mark. -/
theorem exists_spelling_eq_cons (h : s.Spelled) : ∃ c cs, s.spelling = c :: cs ∧
    isVisible c = true ∧ ∀ d, beginsScalar d = false → c ≠ d := by
  have hother {c : Char} (hc : beginsScalar c = true) (d : Char) (hd : beginsScalar d = false) :
      c ≠ d := by
    rintro rfl
    exact Bool.false_ne_true (hd.symm.trans hc)
  obtain ⟨cs, quoted⟩ := s
  cases quoted with
  | true => exact ⟨'"', _, rfl, rfl, hother rfl⟩
  | false =>
      obtain ⟨hne, hword⟩ := h rfl
      obtain ⟨c, cs, rfl⟩ := List.exists_cons_of_ne_nil hne
      have hc := hword c List.mem_cons_self
      exact ⟨c, cs, rfl, (isWordChar_spec hc).1, hother (Bool.or_eq_true_iff.mpr (.inl hc))⟩

/-- Spelled scalars are visible. -/
theorem isVisible_spelling (h : s.Spelled) : ∀ c ∈ s.spelling, isVisible c = true := by
  obtain ⟨cs, quoted⟩ := s
  cases quoted with
  | true =>
      have htext : ∀ c ∈ cs.flatMap spellChar, isVisible c = true := fun c hc ↦ by
        obtain ⟨d, -, hc⟩ := List.mem_flatMap.mp hc
        exact isVisible_spellChar c hc
      exact List.forall_mem_cons.mpr ⟨rfl, List.forall_mem_append.mpr ⟨htext, isVisible_quote⟩⟩
  | false => exact fun c hc ↦ (isWordChar_spec ((h rfl).2 c hc)).1

/-- No gap is ahead of a spelled scalar. -/
theorem settled_spelling (h : s.Spelled) (rest : List Char) : Settled (s.spelling ++ rest) := by
  obtain ⟨c, cs, hspelled, hvisible, hother⟩ := exists_spelling_eq_cons h
  rw [hspelled]
  intro d hd
  obtain rfl : c = d := by simpa using hd
  exact ⟨hvisible, hother '#' rfl⟩

/-- An entry has no properties if it begins with neither mark. -/
theorem properties?_eq {inBrackets fresh : Bool} {p : Properties} {c : Char}
    (hanchor : c ≠ '&') (hmark : c ≠ '!') :
    properties? inBrackets (fuel + 1) p fresh ⟨c :: rest, col⟩ =
      some (p, fresh, ⟨c :: rest, col⟩) := by
  simp [properties?, hanchor, hmark]

/-- A spelled scalar inside brackets is read back. -/
theorem flowScalar?_spelling (h : s.Spelled) {c : Char} (hc : c = ',' ∨ c = ']') :
    flowScalar? [] indent ⟨s.spelling ++ c :: rest, col⟩ =
      some (s, [], ⟨c :: rest, col + s.spelling.length⟩) := by
  have hstop : wordLength true (c :: rest) = 0 := by rcases hc with rfl | rfl <;> rfl
  have hgap : ∀ d ∈ (c :: rest).head?, isGap d = false := by
    rintro d ⟨⟩
    rcases hc with rfl | rfl <;> rfl
  have hread := scalar?_spelling h hstop hgap indent col
  obtain ⟨first, cs, hspelled, -, hother⟩ := exists_spelling_eq_cons h
  rw [hspelled, List.cons_append] at hread ⊢
  rw [flowScalar?, properties?_eq (hother '&' rfl) (hother '!' rfl)]
  simp [hread, hother '*' rfl, Properties.any, Properties.none, Properties.mark,
    Properties.remember]

/-- Inside brackets the cursor stays where no gap is ahead. -/
theorem toFlowToken_of_settled (h : Settled rest) :
    (Cursor.mk rest col).toFlowToken = ⟨rest, col⟩ :=
  congrArg Prod.snd (Cursor.skipGap_of_settled h true false _ col)

/-- A spelled scalar does not begin with a given mark. -/
theorem head?_spelling_ne (h : s.Spelled) (rest : List Char) {d : Char}
    (hd : beginsScalar d = false) : ((s.spelling ++ rest).head? == some d) = false := by
  obtain ⟨c, cs, hspelled, -, hother⟩ := exists_spelling_eq_cons h
  simp [hspelled, hother d hd]

/-- A comma or a bracket follows every item. -/
theorem settled_of_separator {c : Char} (hc : c = ',' ∨ c = ']') : Settled (c :: rest) := by
  rintro d ⟨⟩
  rcases hc with rfl | rfl <;> decide

/-- An item is read up to what is behind it: a comma, with more items, or the closing bracket. -/
theorem flowItems?_item (h : s.Spelled) {c : Char} (hc : c = ',' ∨ c = ']') (read : List Scalar) :
    flowItems? indent (fuel + 1) [] read ⟨s.spelling ++ c :: rest, col⟩ =
      if c = ',' then flowItems? indent fuel [] (s :: read) ⟨rest, col + s.spelling.length + 1⟩
      else some ((s :: read).reverse, [], ⟨rest, col + s.spelling.length + 1⟩) := by
  have hclose := head?_spelling_ne h (c :: rest) (d := ']') rfl
  rw [flowItems?, toFlowToken_of_settled (settled_spelling h _)]
  simp only [hclose, Bool.false_eq_true, if_false]
  rw [flowScalar?_spelling h hc, Option.bind_eq_bind, Option.bind_some,
    toFlowToken_of_settled (settled_of_separator hc)]
  rcases hc with rfl | rfl <;> rfl

/-- The items of a spelled list are read back. -/
theorem flowItems?_spelling {items : List Scalar} (h : ∀ s ∈ items, s.Spelled)
    (hfuel : items.length < fuel) (read : List Scalar) (rest : List Char) (indent col : Nat) :
    ∃ col', flowItems? indent fuel [] read ⟨spellItems items ++ rest, col⟩ =
      some (read.reverse ++ items, [], ⟨rest, col'⟩) := by
  induction items generalizing fuel read col with
  | nil =>
      obtain ⟨fuel, rfl⟩ := Nat.exists_eq_succ_of_ne_zero (Nat.ne_of_gt hfuel)
      have hsettled : Settled (']' :: rest) := settled_of_separator (.inr rfl)
      refine ⟨col + 1, ?_⟩
      show flowItems? indent (fuel + 1) [] read ⟨']' :: rest, col⟩ = _
      simp [flowItems?, toFlowToken_of_settled hsettled]
      rfl
  | cons s items ih =>
      obtain ⟨fuel, rfl⟩ := Nat.exists_eq_succ_of_ne_zero (Nat.ne_of_gt (Nat.zero_lt_of_lt hfuel))
      have hs := h s List.mem_cons_self
      cases items with
      | nil =>
          refine ⟨col + s.spelling.length + 1, ?_⟩
          rw [spellItems, List.append_assoc, List.singleton_append, flowItems?_item hs (.inr rfl),
            if_neg (by decide), List.reverse_cons]
      | cons next items =>
          obtain ⟨col', hread⟩ := ih (fun t ht ↦ h t (List.mem_cons_of_mem _ ht))
            (Nat.lt_of_succ_lt_succ hfuel) (s :: read) (col + s.spelling.length + 1)
          refine ⟨col', ?_⟩
          rw [spellItems, List.append_assoc, List.cons_append, flowItems?_item hs (.inl rfl),
            if_pos rfl, hread, List.reverse_cons, List.append_assoc, List.singleton_append]

/-- The key of an entry is read up to its colon. -/
theorem key?_spelling (h : s.Spelled) (rest : List Char) (indent col : Nat) :
    key? [] indent ⟨s.spelling ++ ':' :: ' ' :: rest, col⟩ =
      some (s, [], ⟨' ' :: rest, col + s.spelling.length + 1⟩) := by
  have hstop : wordLength false (':' :: ' ' :: rest) = 0 := rfl
  have hgap : ∀ c ∈ (':' :: ' ' :: rest).head?, isGap c = false := by
    rintro c ⟨⟩
    rfl
  have hread := scalar?_spelling h hstop hgap indent col
  have hline : s.spelling.any isBreak = false := by
    rw [List.any_eq_false]
    exact fun c hc ↦ by simp [(isVisible_spec (isVisible_spelling h c hc)).2.1]
  have hpassed (behind : List Char) : (s.spelling ++ behind).take
      ((s.spelling ++ behind).length - behind.length) = s.spelling := by
    rw [List.length_append, Nat.add_sub_cancel, List.take_left]
  have hblanks : (':' :: ' ' :: rest).takeWhile isBlank = [] := rfl
  have hcolon (k : Nat) : (Cursor.mk (':' :: ' ' :: rest) k).atIndicator ':' = true := rfl
  have hstay (k : Nat) : (Cursor.mk (':' :: ' ' :: rest) k).drop 0 = ⟨':' :: ' ' :: rest, k⟩ := rfl
  have hpass (k : Nat) : (Cursor.mk (':' :: ' ' :: rest) k).drop 1 = ⟨' ' :: rest, k + 1⟩ := rfl
  obtain ⟨first, cs, hspelled, -, hother⟩ := exists_spelling_eq_cons h
  rw [hspelled] at hread hline hpassed ⊢
  rw [List.cons_append] at hread ⊢
  rw [key?, properties?_eq (hother '&' rfl) (hother '!' rfl)]
  simp only [Option.bind_eq_bind, Option.bind_some, Bool.false_eq_true, if_false]
  -- No alias and no text of several lines begins as a spelled scalar does.
  split
  · next heq => exact absurd (List.cons.inj heq).1 (hother '*' rfl)
  · next heq => exact absurd (List.cons.inj heq).1 (hother '|' rfl)
  · next heq => exact absurd (List.cons.inj heq).1 (hother '>' rfl)
  · rw [hread, Option.map_some, Option.bind_some]
    simp only [← List.cons_append, hpassed, hline, hblanks, List.length_nil, hstay, hcolon, hpass]
    simp [Properties.none, Properties.mark, Properties.remember]

/-- The items of a list are fewer than the characters of their spelling. -/
theorem length_lt_length_spellItems {items : List Scalar} (h : ∀ s ∈ items, s.Spelled) :
    items.length < (spellItems items).length := by
  induction items with
  | nil => exact Nat.zero_lt_one
  | cons s items ih =>
      obtain ⟨c, cs, hspelled, -, -⟩ := exists_spelling_eq_cons (h s List.mem_cons_self)
      have hmore := ih fun t ht ↦ h t (List.mem_cons_of_mem _ ht)
      cases items with
      | nil => simp [spellItems, hspelled]
      | cons next items =>
          simp only [spellItems, List.length_append, List.length_cons] at hmore ⊢
          omega

/-- A spelled setting is read back at the end of a line. -/
theorem content?_line (h : v.Spelled) (hindent : 0 < indent) (hsettled : Settled rest)
    (col : Nat) :
    ∃ fresh c, content? [] .none indent ⟨v.spelling ++ '\n' :: rest, col⟩ =
      some (v, [], fresh, c) ∧ c.toToken fresh = (true, ⟨rest, 0⟩) := by
  cases v with
  | scalar s =>
      obtain ⟨fresh, c, hread, hbehind⟩ := scalar?_line h hindent hsettled col
      obtain ⟨first, cs, hspelled, -, hother⟩ := exists_spelling_eq_cons h
      refine ⟨fresh, c, ?_, hbehind⟩
      show content? [] .none indent ⟨s.spelling ++ '\n' :: rest, col⟩ = _
      rw [hspelled, List.cons_append] at hread ⊢
      simp [content?, hread, hother '*' rfl, hother '[' rfl, Properties.none, Properties.mark,
        Properties.remember]
  | list items =>
      have hlength := length_lt_length_spellItems h
      have hfuel : items.length < ('[' :: (spellItems items ++ '\n' :: rest)).length + 1 := by
        simp only [List.length_cons, List.length_append]
        omega
      obtain ⟨col', hread⟩ := flowItems?_spelling h hfuel [] ('\n' :: rest) indent (col + 1)
      refine ⟨false, ⟨'\n' :: rest, col'⟩, ?_, Cursor.toToken_newline hsettled _ _⟩
      show (flowItems? indent ('[' :: (spellItems items ++ '\n' :: rest)).length.succ [] []
        ⟨spellItems items ++ '\n' :: rest, col + 1⟩).bind _ = _
      rw [hread]
      rfl

/-- No document ends before a spelled scalar. -/
theorem atEnd_spelling (h : s.Spelled) (rest : List Char) (col : Nat) :
    (Cursor.mk (s.spelling ++ rest) col).atEnd = false := by
  obtain ⟨c, cs, hspelled, -, hother⟩ := exists_spelling_eq_cons h
  rw [hspelled]
  simp [Cursor.atEnd, Cursor.atMarker, hother '-' rfl, hother '.' rfl]

/-- A spelled setting begins with a bracket, a quote or a character of a word. -/
theorem exists_setting_eq_cons (h : v.Spelled) : ∃ c cs, v.spelling = c :: cs ∧
    isVisible c = true ∧ c ≠ '#' ∧ c ≠ '&' ∧ c ≠ '!' := by
  cases v with
  | scalar s =>
      obtain ⟨c, cs, hspelled, hvisible, hother⟩ := exists_spelling_eq_cons h
      exact ⟨c, cs, hspelled, hvisible, hother '#' rfl, hother '&' rfl, hother '!' rfl⟩
  | list items => exact ⟨'[', spellItems items, rfl, by decide, by decide, by decide, by decide⟩

/-- The value of an entry is read up to the next line. -/
theorem value?_spelling (h : v.Spelled) (hsettled : Settled rest) :
    value? 0 [] ⟨' ' :: (v.spelling ++ '\n' :: rest), col⟩ = some (v, [], true, ⟨rest, 0⟩) := by
  obtain ⟨fresh, behind, hread, hbehind⟩ := content?_line h (Nat.succ_pos 0) hsettled (col + 1)
  obtain ⟨c, cs, hspelled, hvisible, hcomment, hanchor, hmark⟩ := exists_setting_eq_cons h
  rw [hspelled, List.cons_append] at hread ⊢
  have hahead : Settled (c :: (cs ++ '\n' :: rest)) := by
    rintro d ⟨⟩
    exact ⟨hvisible, hcomment⟩
  have hend : (Cursor.mk (c :: (cs ++ '\n' :: rest)) (col + 1)).atEnd = false := by
    simp [Cursor.atEnd, Cursor.atMarker_of_pos]
  rw [value?, Cursor.toToken_space hahead]
  simp only [properties?_eq hanchor hmark]
  simp [hread, hbehind, hend]

/-- The spelling of a document is that of its first entry and of the rest. -/
theorem spell_cons (key : Scalar) (value : Setting) (d : Document) :
    spell ((key, value) :: d) =
      key.spelling ++ ':' :: ' ' :: (value.spelling ++ '\n' :: spell d) := by
  simp [spell]

/-- No gap is ahead of a spelled document. -/
theorem settled_spell (h : ∀ e ∈ d, e.1.Spelled ∧ e.2.Spelled) : Settled (spell d) := by
  cases d with
  | nil => exact nofun
  | cons e d =>
      rw [spell_cons]
      exact settled_spelling (h e List.mem_cons_self).1 _

/-- The entries of a spelled document are read back. -/
theorem blockEntries?_spell (h : ∀ e ∈ d, e.1.Spelled ∧ e.2.Spelled) (hne : d ≠ [])
    (hfuel : d.length ≤ fuel) (read : Document) :
    blockEntries? 0 fuel [] read ⟨spell d, 0⟩ = some (read.reverse ++ d) := by
  induction d generalizing fuel read with
  | nil => exact absurd rfl hne
  | cons e d ih =>
      obtain ⟨fuel, rfl⟩ := Nat.exists_eq_succ_of_ne_zero (Nat.ne_of_gt (Nat.zero_lt_of_lt hfuel))
      obtain ⟨key, value⟩ := e
      have hentry : key.Spelled ∧ value.Spelled := h _ List.mem_cons_self
      have hd : ∀ e ∈ d, e.1.Spelled ∧ e.2.Spelled := fun e he ↦ h e (List.mem_cons_of_mem _ he)
      rw [spell_cons, blockEntries?]
      simp only [key?_spelling hentry.1, value?_spelling hentry.2 (settled_spell hd),
        Option.bind_eq_bind, Option.bind_some]
      cases d with
      | nil => simp [spell, Cursor.atEnd]
      | cons next d =>
          have hend : (Cursor.mk (spell (next :: d)) 0).atEnd = false := by
            rw [spell_cons]
            exact atEnd_spelling (hd next List.mem_cons_self).1 _ 0
          have hread := ih hd (List.cons_ne_nil _ _) (Nat.le_of_succ_le_succ hfuel)
            ((key, value) :: read)
          simp [hend, hread]

/-- Spelled lists are visible. -/
theorem isVisible_spellItems {items : List Scalar} (h : ∀ s ∈ items, s.Spelled) :
    ∀ c ∈ spellItems items, isVisible c = true := by
  induction items with
  | nil => simp [spellItems, isVisible]
  | cons s items ih =>
      have hs := isVisible_spelling (h s List.mem_cons_self)
      have hmore := ih fun t ht ↦ h t (List.mem_cons_of_mem _ ht)
      cases items with
      | nil => exact List.forall_mem_append.mpr ⟨hs, List.forall_mem_singleton.mpr rfl⟩
      | cons next items =>
          exact List.forall_mem_append.mpr ⟨hs, List.forall_mem_cons.mpr ⟨rfl, hmore⟩⟩

/-- A spelled document is made of visible characters, spaces and line feeds. -/
theorem mem_spell (h : ∀ e ∈ d, e.1.Spelled ∧ e.2.Spelled) :
    ∀ c ∈ spell d, isVisible c = true ∨ c = ' ' ∨ c = '\n' := by
  intro c hc
  obtain ⟨⟨key, value⟩, he, hc⟩ := List.mem_flatMap.mp hc
  obtain ⟨hkey, hvalue⟩ : key.Spelled ∧ value.Spelled := h _ he
  have hsetting : ∀ c ∈ value.spelling, isVisible c = true := by
    cases value with
    | scalar s => exact isVisible_spelling hvalue
    | list items => exact List.forall_mem_cons.mpr ⟨by decide, isVisible_spellItems hvalue⟩
  simp only [List.mem_append, List.mem_cons, List.not_mem_nil, or_false] at hc
  rcases hc with hc | rfl | rfl | hc | rfl
  · exact .inl (isVisible_spelling hkey c hc)
  · exact .inl (by decide)
  · exact .inr (.inl rfl)
  · exact .inl (hsetting c hc)
  · exact .inr (.inr rfl)

/-- Line breaks stay as they are if there are none but line feeds. -/
theorem unifyBreaks_eq {cs : List Char} (h : ∀ c ∈ cs, c ≠ '\r' ∧ c.toNat ≠ 0x85) :
    unifyBreaks cs = cs := by
  induction cs with
  | nil => rfl
  | cons c cs ih =>
      obtain ⟨hreturn, hnext⟩ := h c List.mem_cons_self
      rw [unifyBreaks, ih fun d hd ↦ h d (List.mem_cons_of_mem _ hd)]
      · simp [hreturn, hnext]
      · exact fun rest heq ↦ absurd heq hreturn

/-- The characters of a spelled document may occur in one, and reading changes none of them. -/
theorem allowed_spell (h : ∀ e ∈ d, e.1.Spelled ∧ e.2.Spelled) :
    (spell d).all isAllowed = true ∧ unifyBreaks (spell d) = spell d := by
  constructor
  · rw [List.all_eq_true]
    intro c hc
    rcases mem_spell h c hc with hc | rfl | rfl
    · exact (isVisible_spec hc).2.2.1
    · decide
    · decide
  · refine unifyBreaks_eq fun c hc ↦ ?_
    rcases mem_spell h c hc with hc | rfl | rfl
    · simp only [isVisible, Bool.and_eq_true, decide_eq_true_eq] at hc
      refine ⟨?_, by omega⟩
      rintro rfl
      exact absurd hc (by decide)
    · decide
    · decide

/-- The entries of a document are at most as many as the characters of its spelling. -/
theorem length_le_length_spell (d : Document) : d.length ≤ (spell d).length := by
  induction d with
  | nil => exact Nat.le_refl 0
  | cons e d ih =>
      rw [spell_cons]
      simp only [List.length_cons, List.length_append]
      omega

/-- A mapping of one entry a line stands at the head of a spelled document. -/
theorem root?_spell (h : ∀ e ∈ d, e.1.Spelled ∧ e.2.Spelled) (hne : d ≠ []) :
    root? true ⟨spell d, 0⟩ = some d := by
  have hentries := blockEntries?_spell h hne
    (Nat.le_succ_of_le (length_le_length_spell d)) []
  obtain ⟨⟨key, value⟩, d, rfl⟩ := List.exists_cons_of_ne_nil hne
  have hkey : key.Spelled := (h _ List.mem_cons_self).1
  obtain ⟨c, cs, hspelled, -, hother⟩ := exists_spelling_eq_cons hkey
  have hread := key?_spelling hkey (value.spelling ++ '\n' :: spell d) 1 0
  rw [spell_cons] at hentries ⊢
  rw [hspelled, List.cons_append] at hread hentries ⊢
  simpa [root?, hother '\x7b' rfl, hread] using hentries

/-- Spelled documents are read back. -/
theorem read?_spell (h : ∀ e ∈ d, e.1.Spelled ∧ e.2.Spelled) (hne : d ≠ []) :
    read? (Utf8.encodeAll (spell d)) = some d := by
  obtain ⟨hallowed, hbreaks⟩ := allowed_spell h
  have htoken : Cursor.toToken true ⟨spell d, 0⟩ = (true, ⟨spell d, 0⟩) :=
    Cursor.skipGap_of_settled (settled_spell h) false true _ 0
  have hend : (Cursor.mk (spell d) 0).atEnd = false := by
    obtain ⟨⟨key, value⟩, d, rfl⟩ := List.exists_cons_of_ne_nil hne
    rw [spell_cons]
    exact atEnd_spelling (h _ List.mem_cons_self).1 _ 0
  obtain ⟨hempty, hmarker⟩ :
      (spell d).isEmpty = false ∧ (Cursor.mk (spell d) 0).atMarker = false := by
    simpa [Cursor.atEnd] using hend
  have hmark : (spell d).head?.any isOrderMark = false := by
    rw [Option.any_eq_false]
    exact fun c hc ↦ by simp [(isVisible_spec (settled_spell h c hc).1).2.2.2]
  rw [read?, Utf8.chars?_encodeAll, Option.bind_eq_bind, Option.bind_some, hmark]
  simp only [Bool.false_eq_true, if_false, hallowed, hbreaks, htoken, hempty, hmarker,
    root?_spell h hne]
  rfl

end Tagfold.Settings
