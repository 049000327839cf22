import Tagfold.Grammar
import Tagfold.Proofs.Reduction.Classification
import Tagfold.Proofs.Reduction.Run

/-!
# What building gives

Building a parser continues its registry, compiles the rules, and keeps the choices of its
configuration: `ParserConfig.Builds` collects these facts and `ParserConfig.build_builds` says that
they hold of every built parser. `ParserConfig.build_ok` says that well-formed rules can be built.
`Grammar.build_builds` adds what a grammar does before: it makes the leaf tags of its lexicon known.
-/

namespace Tagfold

/-- The parser and the registry behind it are what a configuration describes. -/
structure ParserConfig.Builds (c : ParserConfig) (reg : Registry) (p : Parser) (reg' : Registry) :
    Prop where
  registry : reg'.Extends reg
  runs : p.Runs reg' c.rules
  stringTag : stringTagName ∈ reg'.names ∧ p.stringTag = reg'.lookup stringTagName
  identifierTag : identifierTagName ∈ reg'.names ∧ p.identifierTag = reg'.lookup identifierTagName
  integerTag : integerTagName ∈ reg'.names ∧ p.integerTag = reg'.lookup integerTagName
  isIdentifier : p.isIdentifier = c.isIdentifier
  stringValue : p.stringValue = c.stringValue
  reportAmbiguity : p.reportAmbiguity = c.reportAmbiguity
  budget : p.budget = c.budget

namespace ParserConfig

variable {c : ParserConfig} {reg reg' : Registry} {p : Parser}

/-- A built parser is what its configuration describes. -/
theorem build_builds (hn : reg.names.Nodup) (h : c.build reg = .ok (p, reg')) :
    c.Builds reg p reg' := by
  rcases h₁ : reg.intern stringTagName with ⟨t₁, r₁⟩
  rcases h₂ : r₁.intern identifierTagName with ⟨t₂, r₂⟩
  rcases h₃ : r₂.intern integerTagName with ⟨t₃, r₃⟩
  have hn₃ : r₃.names.Nodup := by
    have hn₁ := Registry.nodup_intern hn stringTagName
    rw [h₁] at hn₁
    have hn₂ := Registry.nodup_intern hn₁ identifierTagName
    rw [h₂] at hn₂
    have hn₃ := Registry.nodup_intern hn₂ integerTagName
    rwa [h₃] at hn₃
  simp only [build, h₁, h₂, h₃] at h
  obtain ⟨⟨rules, last⟩, hrules, h⟩ := Except.bind_eq_ok_iff.mp h
  cases h
  obtain ⟨hext₃, hlast, htable, -⟩ := Rule.compileAll_represents hn₃ hrules
  obtain ⟨ht₃, hm₃, hext₂⟩ := hext₃.of_intern h₃
  obtain ⟨ht₂, hm₂, hext₁⟩ := hext₂.of_intern h₂
  obtain ⟨ht₁, hm₁, hext⟩ := hext₁.of_intern h₁
  exact
    { registry := hext
      runs := ⟨hlast, htable⟩
      stringTag := ⟨hm₁, ht₁⟩
      identifierTag := ⟨hm₂, ht₂⟩
      integerTag := ⟨hm₃, ht₃⟩
      isIdentifier := rfl
      stringValue := rfl
      reportAmbiguity := rfl
      budget := rfl }

/-- The tags of a built parser are those of its leaves. -/
theorem build_tagged (h : c.build reg = .ok (p, reg')) : p.Tagged := by
  rcases h₁ : reg.intern stringTagName with ⟨t₁, r₁⟩
  rcases h₂ : r₁.intern identifierTagName with ⟨t₂, r₂⟩
  rcases h₃ : r₂.intern integerTagName with ⟨t₃, r₃⟩
  have hstring := reg.name_intern stringTagName
  have hidentifier := r₁.name_intern identifierTagName
  have hinteger := r₂.name_intern integerTagName
  simp only [h₁, h₂, h₃] at hstring hidentifier hinteger
  simp only [build, h₁, h₂, h₃] at h
  obtain ⟨⟨rules, last⟩, -, h⟩ := Except.bind_eq_ok_iff.mp h
  cases h
  exact ⟨hstring, hidentifier, hinteger⟩

/-- A built parser has the identifiers and the decoder of literals of its configuration. -/
theorem build_choices (h : c.build reg = .ok (p, reg')) :
    p.isIdentifier = c.isIdentifier ∧ p.stringValue = c.stringValue := by
  obtain ⟨⟨rules, last⟩, -, h⟩ := Except.bind_eq_ok_iff.mp h
  cases h
  exact ⟨rfl, rfl⟩

/-- A configuration of well-formed rules can be built. -/
theorem build_ok (hrules : ∀ r ∈ c.rules, r.WellFormed) (reg : Registry) :
    ∃ p reg', c.build reg = .ok (p, reg') := by
  obtain ⟨rules, last, h⟩ := Rule.compileAll_ok hrules 0
    (((reg.intern stringTagName).2.intern identifierTagName).2.intern integerTagName).2
  simp only [build, h, bind, Except.bind]
  exact ⟨_, last, rfl⟩

end ParserConfig

namespace Grammar

variable {name : Text} {l : Lexicon} {c : ParserConfig} {reg reg' : Registry} {g : Grammar}

/-- The parser of a built grammar is built in a registry that knows the leaf tags. -/
theorem build_config (h : build name l c reg = .ok (g, reg')) :
    c.build (reg.internAll (leafTagNames l)) = .ok (g.parser, reg') := by
  obtain ⟨⟨parser, last⟩, hparser, h⟩ := Except.bind_eq_ok_iff.mp h
  cases h
  exact hparser

/-- A built grammar scans by its lexicon and parses by its configuration, in a registry that knows
the leaf tags of the lexicon. -/
theorem build_builds (hn : reg.names.Nodup) (h : build name l c reg = .ok (g, reg')) :
    g.lexer = l.lexer ∧ reg'.Extends reg ∧ (∀ leaf ∈ leafTagNames l, leaf ∈ reg'.names) ∧
      c.Builds (reg.internAll (leafTagNames l)) g.parser reg' := by
  obtain ⟨⟨parser, last⟩, hparser, h⟩ := Except.bind_eq_ok_iff.mp h
  cases h
  obtain ⟨hext, hnodup, hmem⟩ := Registry.internAll_registry (leafTagNames l) hn
  have hbuilds := ParserConfig.build_builds hnodup hparser
  exact ⟨rfl, hbuilds.registry.trans hext, fun leaf hleaf ↦ hbuilds.registry.mem (hmem leaf hleaf),
    hbuilds⟩

/-- A grammar of well-formed rules can be built. -/
theorem build_ok (hrules : ∀ r ∈ c.rules, r.WellFormed) (name : Text) (l : Lexicon)
    (reg : Registry) : ∃ g reg', build name l c reg = .ok (g, reg') := by
  obtain ⟨p, reg', h⟩ := ParserConfig.build_ok hrules (reg.internAll (leafTagNames l))
  refine ⟨⟨name, l.lexer, p⟩, reg', ?_⟩
  simp only [build, h, bind, Except.bind]
  rfl

end Grammar

end Tagfold
