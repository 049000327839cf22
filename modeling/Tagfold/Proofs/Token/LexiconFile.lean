import Mathlib.Data.List.Nodup
import Tagfold.Proofs.CharClass.Ranges
import Tagfold.Proofs.Settings.Documents
import Tagfold.Token.LexiconFile

/-!
# Lexicons are read back from settings

The entries of a lexicon document can stand in any order (`written?_perm`), and a document with an
unknown name is refused (`ofDocument_unknown`). Every lexicon whose words are made of listed
characters and ranges has a document that stands for it: `ofDocument_spell`.
-/

namespace Tagfold.Lexicon

open Settings

/-- The names of the settings of a lexicon. -/
def settingNames : List String :=
  ["keywords", "symbols", "string_delimiters", "line_comments", "block_comments",
    "identifier_chars"]

section Entries

variable {d d' : Document} {w : Written}

/-- Distinct names are a list without repetitions. -/
theorem distinct_iff {names : List (List Char)} : distinct names = true ↔ names.Nodup := by
  induction names with
  | nil => simp [distinct]
  | cons name names ih => simp [distinct, ih]

/-- Two optional changes of different fields do not depend on their order. -/
theorem bind_map_comm {α β γ : Type} (a : Option α) (b : Option β) (f : α → β → γ) :
    (a.bind fun x ↦ b.map (f x)) = b.bind fun y ↦ a.map fun x ↦ f x y := by
  cases a <;> cases b <;> rfl

/-- Settings of different names can be taken over in any order. -/
theorem Written.set?_comm (w : Written) {name other : String} (h : name ≠ other) (s t : Setting) :
    (w.set? name s).bind (·.set? other t) = (w.set? other t).bind (·.set? name s) := by
  unfold Written.set?
  split <;> split <;>
    first
    | exact absurd rfl h
    | (simp only [Option.bind_map, Function.comp_def]; exact bind_map_comm ..)
    | simp

/-- Take over one entry of a document, if all before it could be taken over. -/
def takeOver (w : Option Written) (e : Scalar × Setting) : Option Written :=
  w.bind fun w ↦ w.set? (String.ofList e.1.chars) e.2

/-- A document stands for what its entries say one after another. -/
theorem written?_eq (d : Document) : written? d =
    if (d.map fun e ↦ e.1.chars).Nodup then (d.filter (!·.1.isNull)).foldl takeOver (some {})
    else none := by
  rw [written?]
  simp only [distinct_iff, List.foldlM_eq_foldl]
  rfl

/-- The entries of a document can stand in any order. -/
theorem written?_perm (h : d.Perm d') : written? d = written? d' := by
  have hnames := (h.map fun e ↦ e.1.chars).nodup_iff
  rw [written?_eq, written?_eq]
  by_cases hnodup : (d.map fun e ↦ e.1.chars).Nodup
  · rw [if_pos hnodup, if_pos (hnames.mp hnodup)]
    refine (h.filter _).foldl_eq' (fun x hx y hy w ↦ ?_) _
    by_cases hxy : x.1.chars = y.1.chars
    · rw [List.inj_on_of_nodup_map hnodup (List.mem_of_mem_filter hx) (List.mem_of_mem_filter hy)
        hxy]
    · have hne : String.ofList x.1.chars ≠ String.ofList y.1.chars := fun h ↦
        hxy (String.ofList_injective h)
      cases w with
      | none => rfl
      | some w => exact w.set?_comm hne x.2 y.2
  · rw [if_neg hnodup, if_neg (mt hnames.mpr hnodup)]

/-- Entries are not taken over behind one that could not be. -/
theorem foldl_takeOver_none (d : Document) : d.foldl takeOver none = none := by
  induction d with
  | nil => rfl
  | cons e d ih => exact ih

/-- A document with an unknown name stands for nothing. -/
theorem written?_unknown {e : Scalar × Setting} (he : e ∈ d) (hnull : e.1.isNull = false)
    (hname : String.ofList e.1.chars ∉ settingNames) : written? d = none := by
  have hrefused (w : Option Written) : takeOver w e = none := by
    cases w with
    | none => rfl
    | some w =>
        simp only [settingNames, List.mem_cons, not_or, List.not_mem_nil, not_false_eq_true,
          and_true] at hname
        simp [takeOver, Written.set?, hname]
  obtain ⟨before, behind, hd⟩ := List.append_of_mem
    (List.mem_filter.mpr ⟨he, by simp [hnull]⟩ : e ∈ d.filter (!·.1.isNull))
  rw [written?_eq, hd, List.foldl_append, List.foldl_cons, hrefused, foldl_takeOver_none, ite_self]

/-- A document with an unknown name is refused. -/
theorem ofDocument_unknown {t : Text} {e : Scalar × Setting} (hread : read? t = some d) (he : e ∈ d)
    (hnull : e.1.isNull = false) (hname : String.ofList e.1.chars ∉ settingNames) :
    ofDocument t =
      .error (badConfig (.wrapped (utf8 "cannot decode lexer config") .withheld)) := by
  rw [ofDocument, hread, Option.bind_some, written?_unknown he hnull hname]

end Entries

/-- What a document can say about a lexicon: its texts by their characters, and the characters of
words by the items of a class. -/
structure Described where
  keywords : List (List Char)
  symbols : List Char
  delimiters : List Char
  lineComments : Bool
  blockComments : Bool
  wordChars : List CharClass.Item

namespace Described

variable {l : Described} {d : Document}

/-- The lexicon that is described. -/
def lexicon (l : Described) : Lexicon where
  keywords := l.keywords.map Utf8.encodeAll
  symbols := Utf8.encodeAll l.symbols
  delimiters := Utf8.encodeAll l.delimiters
  lineComments := l.lineComments
  blockComments := l.blockComments
  isWordChar :=
    if l.wordChars.isEmpty then none else some fun c ↦ l.wordChars.any (·.contains c)

/-- A scalar between quotes. -/
def quoted (cs : List Char) : Scalar := ⟨cs, true⟩

/-- A scalar without quotes. -/
def word (s : String) : Scalar := ⟨s.toList, false⟩

/-- A truth value. -/
def truth (b : Bool) : Scalar := word (if b then "true" else "false")

/-- The class of the characters of words, empty if there are none. -/
def classText (l : Described) : List Char :=
  if l.wordChars.isEmpty then [] else CharClass.spellClass l.wordChars

/-- The entries that describe a lexicon. -/
def entries (l : Described) : Document :=
  [(word "keywords", .list (l.keywords.map quoted)),
    (word "symbols", .scalar (quoted l.symbols)),
    (word "string_delimiters", .scalar (quoted l.delimiters)),
    (word "line_comments", .scalar (truth l.lineComments)),
    (word "block_comments", .scalar (truth l.blockComments)),
    (word "identifier_chars", .scalar (quoted l.classText))]

/-- A quoted text is taken over. -/
theorem text?_quoted (cs : List Char) :
    text? (.scalar (quoted cs)) = some (Utf8.encodeAll cs) := by
  simp [text?, quoted, Scalar.isNull, Scalar.text]

/-- Quoted texts are all taken over. -/
theorem texts?_quoted (keywords : List (List Char)) :
    texts? (.list (keywords.map quoted)) = some (keywords.map Utf8.encodeAll) := by
  simp [texts?, quoted, Scalar.isNull, Scalar.text, Function.comp_def, List.filter_map]

/-- A truth value is taken over. -/
theorem bool?_truth (b : Bool) : bool? (.scalar (truth b)) = some b := by
  cases b <;> decide

/-- The entries say what they describe. -/
theorem written?_entries (l : Described) : written? l.entries =
    some ⟨l.keywords.map Utf8.encodeAll, Utf8.encodeAll l.symbols, Utf8.encodeAll l.delimiters,
      l.lineComments, l.blockComments, Utf8.encodeAll l.classText⟩ := by
  have hnames : l.entries.map (fun e ↦ e.1.chars) = settingNames.map String.toList := rfl
  have hfilter : l.entries.filter (!·.1.isNull) = l.entries := rfl
  have hname (s : String) : String.ofList (word s).chars = s := String.ofList_toList
  rw [written?_eq, hnames, if_pos (by decide), hfilter]
  simp only [entries, List.foldl_cons, List.foldl_nil, takeOver, hname, Written.set?, texts?_quoted,
    text?_quoted, bool?_truth, Option.map_some, Option.bind_some]

/-- A text whose entries describe a lexicon, in whatever order, is read as that lexicon. -/
theorem ofDocument_of_read? {t : Text} (hread : read? t = some d) (hperm : d.Perm l.entries)
    (hplain : ∀ item ∈ l.wordChars, item.Plain) : ofDocument t = .ok l.lexicon := by
  rw [ofDocument, hread, Option.bind_some, written?_perm hperm, written?_entries]
  by_cases hempty : l.wordChars.isEmpty = true
  · simp [classText, hempty, lexicon]
    rfl
  · obtain ⟨p, hcompile, hcontains⟩ := CharClass.exists_compile_class hplain (by simpa using hempty)
    have hne : (Utf8.encodeAll (CharClass.spellClass l.wordChars)).isEmpty = false := rfl
    have hpredicate : CharClass.containsChar p = fun c ↦ l.wordChars.any (·.contains c) :=
      funext hcontains
    simp [classText, hempty, hne, hcompile, hpredicate, lexicon]
    rfl

/-- A word can be spelled without quotes. -/
theorem spelled_word {s : String} (hne : s.toList ≠ [])
    (h : s.toList.all Settings.isWordChar = true) : (word s).Spelled :=
  fun _ ↦ ⟨hne, List.all_eq_true.mp h⟩

/-- The entries can be spelled. -/
theorem spelled_entries : ∀ e ∈ l.entries, e.1.Spelled ∧ e.2.Spelled := by
  have hquoted (cs : List Char) : (quoted cs).Spelled := nofun
  have htruth (b : Bool) : (truth b).Spelled := by
    cases b <;> exact spelled_word nofun rfl
  have hkeywords : ∀ s ∈ l.keywords.map quoted, s.Spelled := by
    intro s hs
    obtain ⟨cs, -, rfl⟩ := List.mem_map.mp hs
    exact hquoted cs
  simp only [entries, List.forall_mem_cons]
  exact ⟨⟨spelled_word nofun rfl, hkeywords⟩, ⟨spelled_word nofun rfl, hquoted _⟩,
    ⟨spelled_word nofun rfl, hquoted _⟩, ⟨spelled_word nofun rfl, htruth _⟩,
    ⟨spelled_word nofun rfl, htruth _⟩, ⟨spelled_word nofun rfl, hquoted _⟩, nofun⟩

/-- Every described lexicon can be written as a document, in whatever order, and is read back. -/
theorem ofDocument_spell (hperm : d.Perm l.entries) (hplain : ∀ item ∈ l.wordChars, item.Plain) :
    ofDocument (Utf8.encodeAll (spell d)) = .ok l.lexicon := by
  have hspelled : ∀ e ∈ d, e.1.Spelled ∧ e.2.Spelled := fun e he ↦
    spelled_entries e (hperm.subset he)
  refine ofDocument_of_read? (read?_spell hspelled ?_) hperm hplain
  rintro rfl
  cases hperm.length_eq

end Described

end Tagfold.Lexicon
