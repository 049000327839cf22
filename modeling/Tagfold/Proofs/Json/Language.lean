import Tagfold.Json.Language
import Tagfold.Proofs.Json.Folding
import Tagfold.Proofs.Reduction.Building
import Tagfold.Proofs.Token.LexiconFile

/-!
# The front end as it is built

Building the JSON front end always succeeds, `Language.exists_build`, and gives a lexer of JSON
lexemes and a parser that runs the rules of the table in a registry that knows the tags of all
parts, `Language.built_of_build`. Everything else about parsing JSON starts from `Language.Built`.
-/

namespace Tagfold.Json

/-- The front end is built: it scans JSON lexemes, and its parser runs the rules in a registry that
knows the tags of all parts. -/
structure Language.Built (l : Language) : Prop where
  lexer : l.grammar.lexer = lexicon.lexer
  runs : l.grammar.parser.Runs l.registry (rules (tagsOf l.registry))
  known : Part.Known l.registry
  stringTag : l.grammar.parser.stringTag = l.registry.lookup stringTagName
  integerTag : l.grammar.parser.integerTag = l.registry.lookup integerTagName
  isIdentifier : l.grammar.parser.isIdentifier = fun _ ↦ false
  stringValue : l.grammar.parser.stringValue = unquote
  budget : l.grammar.parser.budget = fun n ↦ 2 * n

/-- The tags of folded expressions are those that every continuation has. -/
theorem internTags_spec {reg reg' : Registry} (h : reg'.Extends (internTags reg).2) :
    reg'.Extends reg ∧ (internTags reg).1 = tagsOf reg' ∧
      ∀ name ∈ [decimalName, pairKeyName, pairName, membersName, objectName, elementsName,
        arrayName], name ∈ reg'.names := by
  rcases h₁ : reg.intern decimalName with ⟨t₁, r₁⟩
  rcases h₂ : r₁.intern pairKeyName with ⟨t₂, r₂⟩
  rcases h₃ : r₂.intern pairName with ⟨t₃, r₃⟩
  rcases h₄ : r₃.intern membersName with ⟨t₄, r₄⟩
  rcases h₅ : r₄.intern objectName with ⟨t₅, r₅⟩
  rcases h₆ : r₅.intern elementsName with ⟨t₆, r₆⟩
  rcases h₇ : r₆.intern arrayName with ⟨t₇, r₇⟩
  have hall : internTags reg = (⟨t₁, t₂, t₃, t₄, t₅, t₆, t₇⟩, r₇) := by
    simp only [internTags, h₁, h₂, h₃, h₄, h₅, h₆, h₇]
  rw [hall] at h ⊢
  obtain ⟨rfl, hm₇, h⟩ := h.of_intern h₇
  obtain ⟨rfl, hm₆, h⟩ := h.of_intern h₆
  obtain ⟨rfl, hm₅, h⟩ := h.of_intern h₅
  obtain ⟨rfl, hm₄, h⟩ := h.of_intern h₄
  obtain ⟨rfl, hm₃, h⟩ := h.of_intern h₃
  obtain ⟨rfl, hm₂, h⟩ := h.of_intern h₂
  obtain ⟨rfl, hm₁, h⟩ := h.of_intern h₁
  exact ⟨h, rfl, by simp [hm₁, hm₂, hm₃, hm₄, hm₅, hm₆, hm₇]⟩

/-- The tags of folded expressions have different names. -/
theorem nodup_internTags : (internTags .empty).2.names.Nodup := by
  decide

/-- The leaf tags of the lexicon are those of the constants and punctuation marks. -/
theorem mem_leafTagNames :
    (∀ c : Constant, keywordTagName c.text ∈ Grammar.leafTagNames lexicon) ∧
      ∀ p : Punct, symbolTagName p.text ∈ Grammar.leafTagNames lexicon := by
  have hsymbols : Utf8.chars lexicon.symbols = ['\x7b', '\x7d', '[', ']', ':', ',', '.'] := by
    rw [← Utf8.chars_encodeAll ['\x7b', '\x7d', '[', ']', ':', ',', '.']]
    rfl
  have hnames : Grammar.leafTagNames lexicon =
      [Constant.yes, .no, .null].map (fun c ↦ keywordTagName c.text) ++
        [Punct.openBrace, .closeBrace, .openBracket, .closeBracket, .colon, .comma, .point].map
          (fun p ↦ symbolTagName p.text) := by
    rw [Grammar.leafTagNames, hsymbols]
    rfl
  rw [hnames]
  constructor
  · intro c
    exact List.mem_append_left _ (List.mem_map_of_mem (by cases c <;> decide))
  · intro p
    exact List.mem_append_right _ (List.mem_map_of_mem (by cases p <;> decide))

/-- The lexicon by what its document says. -/
def described : Lexicon.Described where
  keywords := ["true".toList, "false".toList, "null".toList]
  symbols := "\x7b\x7d[]:,.".toList
  delimiters := ['"']
  lineComments := false
  blockComments := false
  wordChars := [.range 'a' 'z', .range '0' '9']

/-- The document describes the lexicon. -/
theorem lexicon_described : described.lexicon = lexicon := by
  have hword : (fun c ↦ described.wordChars.any (·.contains c)) = isWordChar := by
    funext c
    simp [described, CharClass.Item.contains, isWordChar]
  show Lexicon.mk _ _ _ _ _ (some fun c ↦ described.wordChars.any (·.contains c)) = _
  rw [hword]
  rfl

/-- The settings document of JSON is read as the lexicon. -/
theorem ofDocument_lexiconText : Lexicon.ofDocument lexiconText = .ok lexicon := by
  have hread : Settings.read? lexiconText = some described.entries := by decide +kernel
  have hplain : ∀ item ∈ described.wordChars, item.Plain :=
    List.forall_mem_cons.mpr ⟨⟨rfl, rfl, by decide⟩,
      List.forall_mem_cons.mpr ⟨⟨rfl, rfl, by decide⟩, nofun⟩⟩
  rw [Lexicon.Described.ofDocument_of_read? hread (.refl _) hplain, lexicon_described]

/-- The rules of the table can be used. -/
theorem rules_wellFormed (t : Tags) : ∀ r ∈ rules t, r.WellFormed := by
  intro r hr
  have hshapes : ∀ shape ∈ shapes, shape ≠ [] ∧ ∀ ls ∈ shape, ls ≠ [] := by decide
  have hreduce : ∀ a ∈ rules t, a.reduce.isSome := by simp [rules]
  have hpattern : r.pattern ∈ shapes.map (List.map Label.matcher) := by
    rw [← map_pattern_rules t]
    exact List.mem_map_of_mem hr
  obtain ⟨shape, hshape, heq⟩ := List.mem_map.mp hpattern
  obtain ⟨hne, hlabels⟩ := hshapes shape hshape
  refine ⟨by simpa [← heq] using hne, hreduce r hr, ?_⟩
  rw [← heq]
  intro m hm
  obtain ⟨ls, hls, rfl⟩ := List.mem_map.mp hm
  simpa [Label.matcher] using hlabels ls hls

namespace Language

variable {report : Bool} {l : Language}

/-- Every front end that can be built is. -/
theorem built_of_build (h : build report = .ok l) : l.Built := by
  obtain ⟨⟨g, reg⟩, hgrammar, h⟩ := Except.bind_eq_ok_iff.mp h
  cases h
  obtain ⟨hlexer, hext, hleaves, hbuilds⟩ := Grammar.build_builds nodup_internTags hgrammar
  obtain ⟨-, htags, hnames⟩ := internTags_spec hext
  refine
    { lexer := hlexer
      runs := ?_
      known := ?_
      stringTag := hbuilds.stringTag.2
      integerTag := hbuilds.integerTag.2
      isIdentifier := hbuilds.isIdentifier
      stringValue := hbuilds.stringValue
      budget := hbuilds.budget }
  · rw [← htags]
    exact hbuilds.runs
  · intro label
    cases label with
    | string => exact hbuilds.stringTag.1
    | integer => exact hbuilds.integerTag.1
    | constant c => exact hleaves _ (mem_leafTagNames.1 c)
    | punct p => exact hleaves _ (mem_leafTagNames.2 p)
    | _ => exact hnames _ (by simp [Label.name])

/-- The front end can be built. -/
theorem exists_build (report : Bool) : ∃ l, build report = .ok l := by
  obtain ⟨g, reg, h⟩ := Grammar.build_ok (c := config (internTags .empty).1 report)
    (rules_wellFormed _) (utf8 "json") lexicon (internTags .empty).2
  have hgrammar : Json.grammar report = .ok (g, reg) := h
  exact ⟨⟨g, reg⟩, by rw [build, hgrammar]; rfl⟩

end Language

end Tagfold.Json
