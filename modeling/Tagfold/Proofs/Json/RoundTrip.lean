import Tagfold.Proofs.Json.Number
import Tagfold.Proofs.Json.Scanning
import Tagfold.Proofs.Json.String

/-!
# Printing and parsing again

What is printed for a value is parsed as a value with the same data, which is printed alike:
`parse_print`. The induction is over the derivation of the value. Each phrase of the grammar has a
text whose characters are scanned as tokens that derive a phrase with the same text and data,
`Derives.printable`.
-/

namespace Tagfold.Json

open Text Utf8

/-- A numeral is scanned as itself. -/
theorem Numeral.scans (n : Numeral) :
    ∃ cs, n.text = encodeAll cs ∧ Scans cs fun ts ↦ ∃ t, ts = [t] ∧ IsNumeral n t := by
  obtain ⟨cs, htext, -, hword, hkeyword⟩ := exists_chars_of_digits n.digits
  have hne : cs ≠ [] := by
    rintro rfl
    exact n.text_ne_nil htext
  refine ⟨cs, htext, (Scans.word hne hword).mono ?_⟩
  rintro ts ⟨t, rfl, hts, hkind⟩
  rw [← htext] at hts hkind
  rw [if_neg hkeyword] at hkind
  exact ⟨t, rfl, hkind, hts⟩

/-- The characters of a constant. -/
def Constant.chars : Constant → List Char
  | yes => ['t', 'r', 'u', 'e']
  | no => ['f', 'a', 'l', 's', 'e']
  | null => ['n', 'u', 'l', 'l']

/-- The text of a constant has its characters. -/
theorem Constant.text_eq (c : Constant) : c.text = encodeAll c.chars := by
  cases c <;> rfl

/-- A constant is scanned as itself. -/
theorem Constant.scans (c : Constant) :
    Scans c.chars fun ts ↦ ∃ t, ts = [t] ∧ IsConstant c t := by
  have hword : c.chars.all (fun a ↦ lexicon.lexer.role a == .word) = true := by
    rw [lexer_lexicon]
    cases c <;> rfl
  have hkeyword : lexicon.lexer.isKeyword (encodeAll c.chars) = true := by
    rw [lexer_lexicon]
    cases c <;> rfl
  refine (Scans.word (by cases c <;> exact List.cons_ne_nil _ _)
    (by simpa using List.all_eq_true.mp hword)).mono ?_
  rintro ts ⟨t, rfl, htext, hkind⟩
  rw [if_pos hkeyword] at hkind
  exact ⟨t, rfl, hkind, htext.trans c.text_eq.symm⟩

/-- The literal of a valid text is scanned as a string that denotes it. -/
theorem exists_scans_literal {s : Text} (h : Valid s) :
    ∃ cs, encodeString s = encodeAll cs ∧
      Scans cs fun ts ↦ ∃ t, ts = [t] ∧ IsString s t ∧ t.text = encodeString s := by
  obtain ⟨body, htext, hcloses⟩ := exists_literal h
  refine ⟨_, htext, (Scans.literal hcloses).mono ?_⟩
  rintro ts ⟨t, rfl, hkind, ht⟩
  rw [← htext] at ht
  exact ⟨t, rfl, ⟨hkind, by rw [ht]; exact decodeString?_encodeString s⟩, ht⟩

/-- The text of a phrase: members and values stand around commas. -/
def Phrase.text : Phrase → Text
  | value v => v.text
  | pair m => Tree.memberText m
  | members ms => Text.join (utf8 ",") (Tree.membersText ms)
  | items vs => Text.join (utf8 ",") (Tree.itemsText vs)

/-- The two phrases have the same texts and the same data. -/
inductive Phrase.Alike : Phrase → Phrase → Prop where
  | value {v w : Tree} : w.text = v.text → w.data = v.data → Alike (.value v) (.value w)
  | pair {p q : Pos} {k : Text} {v w : Tree} :
      w.text = v.text → w.data = v.data → Alike (.pair (.mk p k v)) (.pair (.mk q k w))
  | members {ms ns : List Member} : Tree.membersText ns = Tree.membersText ms →
      (∀ entries, Tree.putMembers entries ns = Tree.putMembers entries ms) →
      Alike (.members ms) (.members ns)
  | items {vs ws : List Tree} : Tree.itemsText ws = Tree.itemsText vs →
      Tree.itemsData ws = Tree.itemsData vs → Alike (.items vs) (.items ws)

/-- The text of the phrase is scanned as tokens that derive a phrase like it. -/
def Phrase.Printable (phrase : Phrase) : Prop :=
  ∃ cs, phrase.text = encodeAll cs ∧
    Scans cs fun ts ↦ ∃ other, Derives ts other ∧ phrase.Alike other

namespace Phrase.Printable

/-- Strings are printable. -/
theorem string {s : Text} (h : Valid s) (p : Pos) (raw : Text) :
    (Phrase.value (.string p s raw)).Printable := by
  obtain ⟨cs, htext, hscans⟩ := exists_scans_literal h
  refine ⟨cs, htext, hscans.mono ?_⟩
  rintro ts ⟨t, rfl, ht, -⟩
  exact ⟨_, .string ht, .value rfl rfl⟩

/-- Integers are printable: their numeral without leading zeros denotes the same number. -/
theorem integer (p : Pos) (n : Numeral) : (Phrase.value (.integer p n)).Printable := by
  obtain ⟨cs, htext, hscans⟩ := (Numeral.ofNat (digitsValue n.text) n.inRange).scans
  refine ⟨cs, htext, hscans.mono ?_⟩
  rintro ts ⟨t, rfl, ht⟩
  have hvalue : digitsValue (Numeral.ofNat (digitsValue n.text) n.inRange).text =
      digitsValue n.text := digitsValue_decimal _
  refine ⟨_, .integer ht, .value ?_ ?_⟩
  · rw [Tree.text, Tree.text, hvalue]
  · rw [Tree.data, Tree.data, Numeral.value, Numeral.value, hvalue]

/-- Decimals are printable: the digits of their double are read back. -/
theorem decimal (p : Pos) (a b : Numeral) : (Phrase.value (.decimal p a b)).Printable := by
  have hfinite : Double.nearestRank (digitsValue (a.text ++ b.text)) (10 ^ b.text.length) <
      Double.infiniteRank :=
    (Double.nearestRank_lt_infiniteRank_iff (Nat.pow_pos (by omega))).mpr
      (Literal.digitsValue_append_lt_overflowBound b.digits a.inRange)
  obtain ⟨m, k, htext, hdouble⟩ := exists_decimal hfinite
  have hsame : m.withFraction k = a.withFraction b := hdouble
  obtain ⟨cs, hm, hcs⟩ := m.scans
  obtain ⟨ds, hk, hds⟩ := k.scans
  refine ⟨_, ?_, (hcs.around .point hds).mono ?_⟩
  · rw [encodeAll_around, ← hm, ← hk]
    exact htext
  · rintro ts ⟨us, q, ws, rfl, ⟨t, rfl, ht⟩, hq, u, rfl, hu⟩
    refine ⟨_, .decimal ht hq hu, .value ?_ ?_⟩
    · rw [Tree.text, Tree.text, hsame]
    · rw [Tree.data, Tree.data, hsame]

/-- Constants are printable. -/
theorem constant (p : Pos) (c : Constant) : (Phrase.value (.constant p c)).Printable := by
  refine ⟨c.chars, c.text_eq, c.scans.mono ?_⟩
  rintro ts ⟨t, rfl, ht⟩
  exact ⟨_, .constant ht, .value rfl (by cases c <;> rfl)⟩

/-- A valid key and a printable value are a printable pair. -/
theorem pair {s : Text} {v : Tree} (hs : Valid s) (h : (Phrase.value v).Printable) (p : Pos) :
    (Phrase.pair (.mk p s v)).Printable := by
  obtain ⟨cs, hkey, hcs⟩ := exists_scans_literal hs
  obtain ⟨ds, hvalue, hds⟩ := h
  refine ⟨_, ?_, (hcs.around .colon hds).mono ?_⟩
  · rw [encodeAll_around, ← hkey, ← hvalue]
    rfl
  · rintro ts ⟨us, c, ws, rfl, ⟨t, rfl, ht, -⟩, hc, other, hother, halike⟩
    cases halike with
    | value htext hdata => exact ⟨_, .pair ht hc hother, .pair htext hdata⟩

/-- A printable pair is a printable list of members. -/
theorem lastMember {m : Member} (h : (Phrase.pair m).Printable) :
    (Phrase.members [m]).Printable := by
  obtain ⟨cs, htext, hcs⟩ := h
  refine ⟨cs, ?_, hcs.mono ?_⟩
  · rw [← htext]
    exact @List.intercalate_singleton _ (utf8 ",") _
  · rintro ts ⟨other, hother, halike⟩
    cases halike with
    | pair hsame hdata =>
        refine ⟨_, .lastMember hother, .members ?_ ?_⟩
        · simp only [Tree.membersText, Tree.memberText, hsame]
        · intro entries
          simp only [Tree.putMembers, hdata]

/-- A printable pair before printable members is a printable list of members. -/
theorem nextMember {m : Member} {ms : List Member} (hne : ms ≠ []) (hm : (Phrase.pair m).Printable)
    (hms : (Phrase.members ms).Printable) : (Phrase.members (m :: ms)).Printable := by
  obtain ⟨cs, hfirst, hcs⟩ := hm
  obtain ⟨ds, hrest, hds⟩ := hms
  refine ⟨_, ?_, (hcs.around .comma hds).mono ?_⟩
  · rw [encodeAll_around, ← hfirst, ← hrest]
    obtain ⟨n, ns, rfl⟩ := List.exists_cons_of_ne_nil hne
    exact List.intercalate_cons_cons
  · rintro ts ⟨us, c, ws, rfl, ⟨one, hone, hlike⟩, hc, other, hother, halike⟩
    cases hlike with
    | pair hsame hdata =>
        cases halike with
        | members htexts hput =>
            refine ⟨_, .nextMember hone hc hother, .members ?_ ?_⟩
            · simp only [Tree.membersText, Tree.memberText, hsame, htexts]
            · intro entries
              simp only [Tree.putMembers, hdata, hput]

/-- A printable value is a printable list of values. -/
theorem lastItem {v : Tree} (h : (Phrase.value v).Printable) : (Phrase.items [v]).Printable := by
  obtain ⟨cs, htext, hcs⟩ := h
  refine ⟨cs, ?_, hcs.mono ?_⟩
  · rw [← htext]
    exact @List.intercalate_singleton _ (utf8 ",") _
  · rintro ts ⟨other, hother, halike⟩
    cases halike with
    | value hsame hdata =>
        refine ⟨_, .lastItem hother, .items ?_ ?_⟩
        · simp only [Tree.itemsText, hsame]
        · simp only [Tree.itemsData, hdata]

/-- A printable value before printable values is a printable list of values. -/
theorem nextItem {v : Tree} {vs : List Tree} (hne : vs ≠ []) (hv : (Phrase.value v).Printable)
    (hvs : (Phrase.items vs).Printable) : (Phrase.items (v :: vs)).Printable := by
  obtain ⟨cs, hfirst, hcs⟩ := hv
  obtain ⟨ds, hrest, hds⟩ := hvs
  refine ⟨_, ?_, (hcs.around .comma hds).mono ?_⟩
  · rw [encodeAll_around, ← hfirst, ← hrest]
    obtain ⟨w, ws, rfl⟩ := List.exists_cons_of_ne_nil hne
    exact List.intercalate_cons_cons
  · rintro ts ⟨us, c, ws, rfl, ⟨one, hone, hlike⟩, hc, other, hother, halike⟩
    cases hlike with
    | value hsame hdata =>
        cases halike with
        | items htexts hdatas =>
            refine ⟨_, .nextItem hone hc hother, .items ?_ ?_⟩
            · simp only [Tree.itemsText, hsame, htexts]
            · simp only [Tree.itemsData, hdata, hdatas]

/-- The empty object is printable. -/
theorem emptyObject (p : Pos) : (Phrase.value (.object p [])).Printable := by
  refine ⟨_, ?_, (Scans.nil.between .openBrace .closeBrace).mono ?_⟩
  · rfl
  · rintro ts ⟨o, us, c, rfl, ho, rfl, hc⟩
    exact ⟨_, .emptyObject ho hc, .value rfl rfl⟩

/-- The empty array is printable. -/
theorem emptyArray (p : Pos) : (Phrase.value (.array p [])).Printable := by
  refine ⟨_, ?_, (Scans.nil.between .openBracket .closeBracket).mono ?_⟩
  · rfl
  · rintro ts ⟨o, us, c, rfl, ho, rfl, hc⟩
    exact ⟨_, .emptyArray ho hc, .value rfl rfl⟩

/-- Printable members are a printable object. -/
theorem object {ms : List Member} (h : (Phrase.members ms).Printable) (p : Pos) :
    (Phrase.value (.object p ms)).Printable := by
  obtain ⟨cs, htext, hcs⟩ := h
  refine ⟨_, ?_, (hcs.between .openBrace .closeBrace).mono ?_⟩
  · rw [encodeAll_between, ← htext]
    rfl
  · rintro ts ⟨o, us, c, rfl, ho, ⟨other, hother, halike⟩, hc⟩
    cases halike with
    | members htexts hput =>
        refine ⟨_, .object ho hother hc, .value ?_ ?_⟩
        · simp only [Tree.text, htexts]
        · simp only [Tree.data, hput]

/-- Printable values are a printable array. -/
theorem array {vs : List Tree} (h : (Phrase.items vs).Printable) (p : Pos) :
    (Phrase.value (.array p vs)).Printable := by
  obtain ⟨cs, htext, hcs⟩ := h
  refine ⟨_, ?_, (hcs.between .openBracket .closeBracket).mono ?_⟩
  · rw [encodeAll_between, ← htext]
    rfl
  · rintro ts ⟨o, us, c, rfl, ho, ⟨other, hother, halike⟩, hc⟩
    cases halike with
    | items htexts hdatas =>
        refine ⟨_, .array ho hother hc, .value ?_ ?_⟩
        · simp only [Tree.text, htexts]
        · simp only [Tree.data, hdatas]

end Phrase.Printable

/-- Lists of members and values that are derived are not empty. -/
theorem Derives.list_ne_nil {ts : List Token} {phrase : Phrase} (h : Derives ts phrase) :
    phrase ≠ .members [] ∧ phrase ≠ .items [] := by
  cases h <;> exact ⟨nofun, nofun⟩

/-- Phrases whose string tokens denote valid texts are printable. -/
theorem Derives.printable {ts : List Token} {phrase : Phrase} (h : Derives ts phrase)
    (hts : ∀ t ∈ ts, ∀ s, IsString s t → Valid s) : phrase.Printable := by
  induction h with
  | @string t s ht => exact .string (hts t List.mem_cons_self s ht) _ _
  | @integer t n ht => exact .integer _ n
  | decimal _ _ _ => exact .decimal _ _ _
  | constant _ => exact .constant _ _
  | emptyObject _ _ => exact .emptyObject _
  | emptyArray _ _ => exact .emptyArray _
  | object _ _ _ ih => exact .object (ih fun t ht ↦ hts t (by simp [ht])) _
  | array _ _ _ ih => exact .array (ih fun t ht ↦ hts t (by simp [ht])) _
  | @pair k c s us v hk _ _ ih =>
      exact .pair (hts k List.mem_cons_self s hk) (ih fun t ht ↦ hts t (by simp [ht])) _
  | lastMember _ ih => exact .lastMember (ih hts)
  | @nextMember us ws c m ms _ _ hms ihm ihms =>
      have hne : ms ≠ [] := fun hnil ↦ hms.list_ne_nil.1 (by rw [hnil])
      exact .nextMember hne (ihm fun t ht ↦ hts t (by simp [ht]))
        (ihms fun t ht ↦ hts t (by simp [ht]))
  | lastItem _ ih => exact .lastItem (ih hts)
  | @nextItem us ws c v vs _ _ hvs ihv ihvs =>
      have hne : vs ≠ [] := fun hnil ↦ hvs.list_ne_nil.2 (by rw [hnil])
      exact .nextItem hne (ihv fun t ht ↦ hts t (by simp [ht]))
        (ihvs fun t ht ↦ hts t (by simp [ht]))

/-- String tokens of a scanned text denote valid texts. -/
theorem valid_of_scan {s : Source} {ts : List Token} (h : lexicon.lexer.scan s = .ok ts) :
    ∀ t ∈ ts, ∀ value, IsString value t → Valid value := by
  obtain ⟨cs, pieces, -, hsplits, rfl⟩ := (Lexer.scan_iff_splits rfl rfl s ts).mp h
  rintro t ht value ⟨hkind, hvalue⟩
  cases hsplits.emits ht with
  | keyword hother _ => exact nomatch hkind.symm.trans hother
  | word hother => exact nomatch hkind.symm.trans hother
  | symbol _ hother _ _ => exact nomatch hkind.symm.trans hother
  | string d body _ hrole htext =>
      cases eq_quote_of_role hrole
      rw [htext] at hvalue
      exact valid_of_decodeString? hvalue ⟨body ++ ['"'], rfl⟩

/-- Whatever is parsed as a value is printed, and what is printed is parsed as a value with the same
data, which is printed alike. -/
theorem parse_print {report : Bool} {l : Language} (hl : Language.build report = .ok l) {s : Source}
    {e : Expr} (h : l.parse s = .ok e) (he : IsValue l.registry e) :
    ∃ text, print e = .ok text ∧ ∀ name, ∃ e', l.parse ⟨name, text⟩ = .ok e' ∧
      IsValue l.registry e' ∧ (∃ d, decode e = .ok d ∧ decode e' = .ok d) ∧
      print e' = .ok text := by
  have hbuilt := Language.built_of_build hl
  obtain ⟨ts, hscan, hparse⟩ := (parse_eq_ok_iff hbuilt).mp h
  obtain ⟨v, hderives, rfl⟩ :=
    derives_of_parse hbuilt (lexeme_of_parse hbuilt hscan hparse) hparse he
  obtain ⟨cs, htext, hscans⟩ := hderives.printable (valid_of_scan hscan)
  refine ⟨v.text, v.print_expr l.registry, fun name ↦ ?_⟩
  obtain ⟨ts', ⟨other, hother, halike⟩, hscan'⟩ := hscans.exists_scan (s := ⟨name, v.text⟩) htext
  cases halike with
  | @value _ w hsame hdata =>
      have hparse' := parse_of_derives hbuilt hother
      refine ⟨w.expr l.registry, (parse_eq_ok_iff hbuilt).mpr ⟨ts', hscan', hparse'⟩,
        w.isValue_expr l.registry, ⟨v.data, v.decode_expr l.registry, ?_⟩, ?_⟩
      · rw [← hdata]
        exact w.decode_expr l.registry
      · rw [← hsame]
        exact w.print_expr l.registry

/-- An array of an integer with a leading zero and a string is printed, and parsed again. -/
theorem parse_print_array :
    ∃ l, Language.build true = .ok l ∧
      ∃ e, l.parse ⟨utf8 "in", utf8 "[01, \"a\"]"⟩ = .ok e ∧
        ∃ text, print e = .ok text ∧ ∀ name, ∃ e', l.parse ⟨name, text⟩ = .ok e' ∧
          IsValue l.registry e' ∧ (∃ d, decode e = .ok d ∧ decode e' = .ok d) ∧
          print e' = .ok text := by
  obtain ⟨l, hl⟩ := Language.exists_build true
  have hbuilt := Language.built_of_build hl
  let one : Numeral := ⟨utf8 "01", rfl, by decide +kernel⟩
  have hscan : lexicon.lexer.scan ⟨utf8 "in", utf8 "[01, \"a\"]"⟩ =
      .ok [⟨.symbol, utf8 "[", utf8 "in", 0, ⟨1, 1⟩⟩, ⟨.word, utf8 "01", utf8 "in", 1, ⟨1, 2⟩⟩,
        ⟨.symbol, utf8 ",", utf8 "in", 3, ⟨1, 4⟩⟩, ⟨.string, utf8 "\"a\"", utf8 "in", 5, ⟨1, 6⟩⟩,
        ⟨.symbol, utf8 "]", utf8 "in", 8, ⟨1, 9⟩⟩] := by
    have hcloses : Lexer.Closes '"' ['a'] := Lexer.closes_nil.concat (by decide) (by decide)
    refine (Lexer.scan_iff_splits rfl rfl _ _).mpr ⟨['[', '0', '1', ',', ' ', '"', 'a', '"', ']'],
      [.single ⟨'[', ⟨0, ⟨1, 1⟩⟩⟩, .single ⟨'0', ⟨1, ⟨1, 2⟩⟩⟩, .single ⟨'1', ⟨2, ⟨1, 3⟩⟩⟩,
        .single ⟨',', ⟨3, ⟨1, 4⟩⟩⟩, .single ⟨' ', ⟨4, ⟨1, 5⟩⟩⟩, .literal ⟨'"', ⟨5, ⟨1, 6⟩⟩⟩ ['a'],
        .single ⟨']', ⟨8, ⟨1, 9⟩⟩⟩], rfl, ?_, ?_⟩
    · rw [lexer_lexicon]
      exact .single (by decide) (by decide) (.single (by decide) (by decide)
        (.single (by decide) (by decide) (.single (by decide) (by decide)
          (.single (by decide) (by decide) (.literal (by decide) hcloses
            (.single (by decide) (by decide) (.nil _)))))))
    · rw [lexer_lexicon]
      decide
  have hstring : decodeString? (utf8 "\"a\"") = some (utf8 "a") :=
    decodeString?_encodeString (utf8 "a")
  have hparse := (parse_eq_ok_iff hbuilt).mpr ⟨_, hscan, parse_of_derives hbuilt
    (.array ⟨rfl, rfl⟩ (.nextItem (.integer (n := one) ⟨rfl, rfl⟩) ⟨rfl, rfl⟩
      (.lastItem (.string (s := utf8 "a") ⟨rfl, hstring⟩))) ⟨rfl, rfl⟩)⟩
  exact ⟨l, hl, _, hparse, parse_print hl hparse (Tree.isValue_expr _ _)⟩

end Tagfold.Json
