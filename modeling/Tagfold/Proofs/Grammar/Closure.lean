import Tagfold.Proofs.Reduction.Building
import Tagfold.Proofs.Reduction.Classification
import Tagfold.Proofs.Token.Splitting
import Tagfold.Proofs.Token.Tiling

/-!
# Closed registries

Classification may intern a tag for every keyword and symbol it meets. Building a grammar makes the
leaf tags of its whole lexicon known beforehand, and a scan finds no keywords and symbols but those
of the lexicon, so parsing leaves the registry of a built grammar as it is. Read
`Grammar.parseAll_closed` first: over any series of sources, one parsed behind the other in the
registry that the last one left, no name is added and every source fares as if it came first. Tokens
that no scan has made may add names, but only once: `Parser.parse_again`.
-/

namespace Tagfold

namespace Parser

/-- The registry knows the tag of the leaf of a token, as far as that tag depends on the token. -/
def KnowsLeaf (reg : Registry) (t : Token) : Prop :=
  (t.kind = .keyword → keywordTagName t.text ∈ reg.names) ∧
    (t.kind = .symbol → symbolTagName t.text ∈ reg.names)

variable {p : Parser} {reg : Registry} {t : Token} {ts : List Token}

/-- A token whose leaf tag is known is classified without a new name. -/
theorem KnowsLeaf.classifyToken (h : KnowsLeaf reg t) : (p.classifyToken reg t).2 = reg := by
  unfold Parser.classifyToken
  cases hkind : t.kind with
  | keyword =>
      show (reg.intern (keywordTagName t.text)).2 = reg
      rw [Registry.intern_of_mem (h.1 hkind)]
  | symbol =>
      show (reg.intern (symbolTagName t.text)).2 = reg
      rw [Registry.intern_of_mem (h.2 hkind)]
  | string =>
      cases p.stringValue t.text with
      | ok v => rfl
      | error i => rfl
  | word => rfl
  | other n => rfl

/-- Tokens whose leaf tags are known are classified without a new name, up to an error or to the
last. -/
theorem classifyOnto_registry (h : ∀ t ∈ ts, KnowsLeaf reg t) (made : List Expr) :
    (p.classifyOnto made reg ts).2 = reg := by
  induction ts generalizing made with
  | nil => rfl
  | cons t ts ih =>
      have hfirst := (h t List.mem_cons_self).classifyToken (p := p)
      rw [classifyOnto]
      rcases hleaf : p.classifyToken reg t with ⟨_ | leaf, left⟩
      · rwa [hleaf] at hfirst
      · rw [hleaf] at hfirst
        cases hfirst
        exact ih (fun u hu ↦ h u (List.mem_cons_of_mem _ hu)) (leaf :: made)

/-- Tokens whose leaf tags are known are parsed without a new name. -/
theorem parse_registry (h : ∀ t ∈ ts, KnowsLeaf reg t) : (p.parse reg ts).2 = reg := by
  have hclassify : (p.classify reg ts).2 = reg := classifyOnto_registry h []
  unfold parse
  split <;> next hparsed => rwa [hparsed] at hclassify

section Repetition

variable {later : Registry}

/-- Classification continues the registry. -/
theorem extends_classifyOnto (p : Parser) (made : List Expr) (reg : Registry) (ts : List Token) :
    (p.classifyOnto made reg ts).2.Extends reg := by
  induction ts generalizing made reg with
  | nil => exact .refl reg
  | cons t ts ih =>
      rw [classifyOnto]
      obtain ⟨name, hleaf⟩ | ⟨tag, v, -, hleaf⟩ | ⟨e, he⟩ := p.classifyToken_cases t
      · rw [hleaf reg]
        exact (ih _ _).trans (Registry.extends_intern reg name)
      · rw [hleaf reg]
        exact ih _ _
      · rw [he reg]
        exact .refl reg

/-- A token has the same leaf once its tag is known. -/
theorem classifyToken_again (h : later.Extends (p.classifyToken reg t).2) :
    p.classifyToken later t = ((p.classifyToken reg t).1, later) := by
  obtain ⟨name, hleaf⟩ | ⟨tag, v, -, hleaf⟩ | ⟨e, he⟩ := p.classifyToken_cases t
  · rcases hintern : reg.intern name with ⟨tag, left⟩
    rw [hleaf reg, hintern] at h ⊢
    obtain ⟨rfl, hmem, -⟩ := h.of_intern hintern
    rw [hleaf later, Registry.intern_of_mem hmem]
  · rw [hleaf reg, hleaf later]
  · rw [he reg, he later]

/-- Tokens have the same leaves once the tags of these are known. -/
theorem classifyOnto_again (made : List Expr)
    (h : later.Extends (p.classifyOnto made reg ts).2) :
    p.classifyOnto made later ts = ((p.classifyOnto made reg ts).1, later) := by
  induction ts generalizing made reg with
  | nil => rfl
  | cons t ts ih =>
      rw [classifyOnto] at h ⊢
      -- The tokens behind the first may add names, so the later registry is beyond theirs as well.
      have hfirst : later.Extends (p.classifyToken reg t).2 := by
        rcases hleaf : p.classifyToken reg t with ⟨e | leaf, left⟩
        · rwa [hleaf] at h
        · rw [hleaf] at h
          exact h.trans (extends_classifyOnto p _ left ts)
      rw [classifyToken_again hfirst, classifyOnto]
      rcases hleaf : p.classifyToken reg t with ⟨e | leaf, left⟩
      · rfl
      · rw [hleaf] at h
        exact ih _ h

/-- Tokens that are parsed again, in the registry that they left, fare as before. -/
theorem parse_again (p : Parser) (reg : Registry) (ts : List Token) :
    p.parse (p.parse reg ts).2 ts = p.parse reg ts := by
  have hleft : (p.parse reg ts).2 = (p.classify reg ts).2 := by
    rw [parse]
    rcases p.classify reg ts with ⟨e | leaves, left⟩ <;> rfl
  have hagain : p.classify (p.classify reg ts).2 ts =
      ((p.classify reg ts).1, (p.classify reg ts).2) :=
    classifyOnto_again [] (.refl _)
  rw [hleft, parse, hagain, parse]

end Repetition

end Parser

namespace Grammar

/-- Parse sources one behind the other, each in the registry that the one before it left: their
outcomes and the last registry. -/
def parseAll (g : Grammar) (reg : Registry) :
    List Source → List (Logged (Except Halt Expr)) × Registry
  | [] => ([], reg)
  | s :: rest =>
    let (outcome, reg) := g.parse reg s
    let (outcomes, reg) := g.parseAll reg rest
    (outcome :: outcomes, reg)

variable {name : Text} {l : Lexicon} {c : ParserConfig} {reg reg' : Registry} {g : Grammar}
  {s : Source} {ts : List Token}

/-- Where the leaf tags of a lexicon are known, those of all tokens of a scan are. -/
theorem knowsLeaf_of_scan (hleaves : ∀ leaf ∈ leafTagNames l, leaf ∈ reg.names)
    (h : l.lexer.scan s = .ok ts) : ∀ t ∈ ts, Parser.KnowsLeaf reg t := by
  intro t ht
  obtain ⟨tile, before, htile, hfits⟩ := Lexer.exists_fits_of_scan h ht
  constructor
  · intro hkind
    have hmem : t.text ∈ l.keywords := List.contains_iff_mem.mp (hfits.isKeyword htile hkind)
    exact hleaves _ (List.mem_append_left _ (List.mem_map_of_mem hmem))
  · intro hkind
    obtain ⟨c, hc, htext⟩ := hfits.isSymbol htile hkind
    have hmem : c ∈ Utf8.chars l.symbols := List.contains_iff_mem.mp hc
    rw [htext]
    exact hleaves _ (List.mem_append_right _
      (List.mem_map_of_mem (f := fun c ↦ symbolTagName (Utf8.encode c)) hmem))

/-- A source is parsed without a new name where the leaf tags of the lexicon are known. -/
theorem parse_registry (hlexer : g.lexer = l.lexer)
    (hleaves : ∀ leaf ∈ leafTagNames l, leaf ∈ reg.names) (s : Source) :
    (g.parse reg s).2 = reg := by
  rw [parse, hlexer]
  cases hscan : l.lexer.scan s with
  | error e => rfl
  | ok ts => exact Parser.parse_registry (knowsLeaf_of_scan hleaves hscan)

/-- Sources that are each parsed without a new name do not see each other. -/
theorem parseAll_eq (h : ∀ s, (g.parse reg s).2 = reg) (sources : List Source) :
    g.parseAll reg sources = (sources.map fun s ↦ (g.parse reg s).1, reg) := by
  induction sources with
  | nil => rfl
  | cons s rest ih =>
      show ((g.parse reg s).1 :: (g.parseAll (g.parse reg s).2 rest).1,
        (g.parseAll (g.parse reg s).2 rest).2) = _
      rw [h s, ih]
      rfl

/-- The registry of a built grammar is closed: after any series of sources, parsed one behind the
other and whether they have trees or not, it lists the names it listed before them, and the outcome
of each source is the one it has as the first source of an equal grammar built anew. -/
theorem parseAll_closed (history : List Text)
    (h : build name l c (Registry.empty.internAll history) = .ok (g, reg))
    (sources : List Source) :
    (g.parseAll reg sources).2.names = reg.names ∧
      ∀ fresh freshReg,
        build name l c (Registry.empty.internAll history) = .ok (fresh, freshReg) →
          (g.parseAll reg sources).1 = sources.map fun s ↦ (fresh.parse freshReg s).1 := by
  have hnodup := (Registry.internAll_registry (r := .empty) history List.nodup_nil).2.1
  obtain ⟨hlexer, -, hleaves, -⟩ := build_builds hnodup h
  have hparse := parseAll_eq (parse_registry hlexer hleaves) sources
  rw [hparse]
  refine ⟨rfl, fun fresh freshReg hfresh ↦ ?_⟩
  cases h.symm.trans hfresh
  rfl

/-- A grammar whose one symbol is given by a byte that is no character, so that it is the
replacement character, in a registry with a name of its own: over a source that scans to the symbol,
one whose reducer gives nothing, one that cannot be scanned, and an empty one. -/
theorem parseAll_closed_replacement :
    ∃ g reg, build (utf8 "g") ⟨[utf8 "k"], [0xff], [], false, false, some Char.isAlpha⟩
        { rules := [⟨[], [.tag (utf8 "Key_k")], some fun _ _ ↦ .ok .hole⟩], budget := id }
        (Registry.empty.internAll [utf8 "Sym_;"]) = .ok (g, reg) ∧
      (g.lexer.scan ⟨utf8 "a", [0xef, 0xbf, 0xbd]⟩).map (·.map Token.kind) = .ok [.symbol] ∧
      (g.parseAll reg [⟨utf8 "a", [0xef, 0xbf, 0xbd]⟩, ⟨utf8 "b", utf8 "k k"⟩,
        ⟨utf8 "c", utf8 "?"⟩, ⟨utf8 "d", []⟩]).2.names = reg.names ∧
      (g.parseAll reg [⟨utf8 "a", [0xef, 0xbf, 0xbd]⟩, ⟨utf8 "b", utf8 "k k"⟩,
        ⟨utf8 "c", utf8 "?"⟩, ⟨utf8 "d", []⟩]).1 =
        [⟨utf8 "a", [0xef, 0xbf, 0xbd]⟩, ⟨utf8 "b", utf8 "k k"⟩, ⟨utf8 "c", utf8 "?"⟩,
          ⟨utf8 "d", []⟩].map fun s ↦ (g.parse reg s).1 := by
  have hrules : ∀ r ∈ [Rule.mk [] [.tag (utf8 "Key_k")] (some fun _ _ ↦ .ok .hole)],
      r.WellFormed := by
    intro r hr
    cases List.mem_singleton.mp hr
    exact ⟨by simp, by simp, by simp [Matcher.tag]⟩
  obtain ⟨g, reg, h⟩ := build_ok (c := { rules := _, budget := id }) hrules (utf8 "g")
    ⟨[utf8 "k"], [0xff], [], false, false, some Char.isAlpha⟩
    (Registry.empty.internAll [utf8 "Sym_;"])
  have hscan : (g.lexer.scan ⟨utf8 "a", [0xef, 0xbf, 0xbd]⟩).map (·.map Token.kind) =
      .ok [.symbol] := by
    have hsymbols : Utf8.chars [0xff] = [Utf8.replacement] := by
      have hfirst : Utf8.first 0xff [] = .stray 0xff := by decide
      rw [Utf8.chars, Utf8.decode_cons, hfirst, List.drop_nil, Utf8.decode_nil]
      rfl
    have hlexer : g.lexer = ⟨[utf8 "k"], [Utf8.replacement], [], false, false, Char.isAlpha⟩ := by
      rw [(build_builds (by decide) h).1, Lexicon.lexer, hsymbols, Utf8.chars, Utf8.decode_nil]
      rfl
    have htokens : g.lexer.scan ⟨utf8 "a", [0xef, 0xbf, 0xbd]⟩ =
        .ok [⟨.symbol, [0xef, 0xbf, 0xbd], utf8 "a", 0, ⟨1, 1⟩⟩] := by
      rw [hlexer]
      exact (Lexer.scan_iff_splits rfl rfl _ _).mpr ⟨[Utf8.replacement],
        [.single ⟨Utf8.replacement, ⟨0, ⟨1, 1⟩⟩⟩], rfl, .single (by decide) (by decide) (.nil _),
        by decide⟩
    rw [htokens]
    rfl
  exact ⟨g, reg, h, hscan, (parseAll_closed _ h _).1, (parseAll_closed _ h _).2 g reg h⟩

end Grammar

end Tagfold
