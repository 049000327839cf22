import Tagfold.Proofs.Token.Splitting

/-!
# Escapes from left to right

The scanner decides by parity whether a delimiter is escaped: it counts the backslashes before it,
backwards. Read from left to right, the body of a literal is made of plain characters and of
escapes, each a backslash with whatever comes next: `LiteralBody`. `cutLiteral` finds the end of a
body that way. `Lexer.closes_iff_literalBody` says that both readings agree, and
`LiteralBody.encodeAll` that it does not matter whether characters or bytes are read.
-/

namespace Tagfold

section Bodies

variable {α : Type} {slash d : α}

/-- The body of a literal, from left to right: plain characters, which are neither the delimiter nor
the backslash, and escapes. -/
inductive LiteralBody (slash d : α) : List α → Prop where
  | nil : LiteralBody slash d []
  | plain {c : α} {rest : List α} : c ≠ d → c ≠ slash → LiteralBody slash d rest →
      LiteralBody slash d (c :: rest)
  | escape (c : α) {rest : List α} : LiteralBody slash d rest →
      LiteralBody slash d (slash :: c :: rest)

namespace LiteralBody

/-- Bodies are put together. -/
theorem append {body more : List α} (h : LiteralBody slash d body)
    (hmore : LiteralBody slash d more) : LiteralBody slash d (body ++ more) := by
  induction h with
  | nil => exact hmore
  | plain hc hslash _ ih => exact .plain hc hslash ih
  | escape c _ ih => exact .escape c ih

/-- Plain characters are a body. -/
theorem of_plain {cs : List α} (h : ∀ c ∈ cs, c ≠ d ∧ c ≠ slash) : LiteralBody slash d cs := by
  induction cs with
  | nil => exact .nil
  | cons c cs ih =>
      obtain ⟨hc, hslash⟩ := h c List.mem_cons_self
      exact .plain hc hslash (ih fun a ha ↦ h a (List.mem_cons_of_mem _ ha))

/-- Behind a plain character the body goes on. -/
theorem of_plain_cons {c : α} {rest : List α} (h : LiteralBody slash d (c :: rest))
    (hslash : c ≠ slash) : c ≠ d ∧ LiteralBody slash d rest := by
  cases h with
  | plain hc _ hrest => exact ⟨hc, hrest⟩
  | escape => exact absurd rfl hslash

end LiteralBody

variable [DecidableEq α]

/-- What stands before the first delimiter outside escapes, and what stands behind it. The flag
tells whether a backslash has just opened an escape. -/
def cutLiteral (slash d : α) : (escaped : Bool) → List α → Option (List α × List α)
  | _, [] => none
  | true, c :: rest => (cutLiteral slash d false rest).map (Prod.map (c :: ·) id)
  | false, c :: rest =>
    if c = d then some ([], rest)
    else (cutLiteral slash d (decide (c = slash)) rest).map (Prod.map (c :: ·) id)

/-- What is cut off is a body, behind the backslash if there was one. -/
theorem literalBody_of_cutLiteral {escaped : Bool} {text body behind : List α}
    (h : cutLiteral slash d escaped text = some (body, behind)) :
    text = body ++ d :: behind ∧
      LiteralBody slash d (if escaped then slash :: body else body) := by
  induction text generalizing escaped body with
  | nil => cases escaped <;> cases h
  | cons c rest ih =>
      cases escaped with
      | true =>
          obtain ⟨⟨tail, behind'⟩, htail, heq⟩ := Option.map_eq_some_iff.mp h
          cases heq
          obtain ⟨rfl, hbody⟩ := ih htail
          exact ⟨rfl, .escape c hbody⟩
      | false =>
          rw [cutLiteral] at h
          split at h
          · next hc =>
              subst hc
              cases h
              exact ⟨rfl, .nil⟩
          · next hc =>
              obtain ⟨⟨tail, behind'⟩, htail, heq⟩ := Option.map_eq_some_iff.mp h
              cases heq
              obtain ⟨rfl, hbody⟩ := ih htail
              refine ⟨rfl, ?_⟩
              by_cases hslash : c = slash
              · subst hslash
                simpa using hbody
              · rw [decide_eq_false hslash] at hbody
                exact .plain hc hslash hbody

/-- A text is cut at the delimiter behind a body, and at no other place. -/
theorem cutLiteral_eq_some_iff (hd : d ≠ slash) {text body behind : List α} :
    cutLiteral slash d false text = some (body, behind) ↔
      text = body ++ d :: behind ∧ LiteralBody slash d body := by
  refine ⟨literalBody_of_cutLiteral, ?_⟩
  rintro ⟨rfl, hbody⟩
  induction hbody with
  | nil => simp [cutLiteral]
  | @plain c rest hc hslash _ ih => simp [cutLiteral, hc, hslash, ih]
  | @escape c rest _ ih => simp [cutLiteral, hd.symm, ih]

end Bodies

namespace Lexer

variable {d : Char} {body : List Char}

/-- A body that no delimiter closes is a body from left to right, or one with an open escape behind
it, depending on the backslashes at its end. -/
theorem Unclosed.literalBody (hd : d ≠ '\\') (h : Unclosed d body) :
    (slashesAtEnd body % 2 = 0 ∧ LiteralBody '\\' d body) ∨
      (slashesAtEnd body % 2 = 1 ∧ ∃ u, body = u ++ ['\\'] ∧ LiteralBody '\\' d u) := by
  -- By induction from the right, as the backslashes are counted from there.
  induction body using List.reverseRecOn with
  | nil => exact .inl ⟨rfl, .nil⟩
  | append_singleton body c ih =>
      obtain ⟨heven, hbody⟩ | ⟨hodd, u, rfl, hu⟩ := ih h.of_concat
      · by_cases hslash : c = '\\'
        · subst hslash
          refine .inr ⟨?_, body, rfl, hbody⟩
          rw [slashesAtEnd_concat, if_pos rfl]
          omega
        · refine .inl ⟨?_, hbody.append (.plain ?_ hslash .nil)⟩
          · rw [slashesAtEnd_concat, if_neg hslash]
          · rintro rfl
            have hodd := h body [] rfl
            omega
      · refine .inl ⟨?_, ?_⟩
        · rw [slashesAtEnd_concat]
          split <;> omega
        · rw [List.append_assoc]
          exact hu.append (.escape c .nil)

/-- A body behind one that can be closed can be closed. -/
theorem Closes.append_literalBody {more : List Char} (h : Closes d body) (hd : d ≠ '\\')
    (hmore : LiteralBody '\\' d more) : Closes d (body ++ more) := by
  induction hmore generalizing body with
  | nil => rwa [List.append_nil]
  | @plain c rest hc hslash _ ih =>
      have hnext := ih (h.concat hc hslash)
      rwa [List.append_assoc, List.singleton_append] at hnext
  | @escape c rest _ ih =>
      have hnext := ih (h.append_escape hd c)
      rwa [List.append_assoc] at hnext

/-- Counting backslashes backwards agrees with reading escapes from left to right. -/
theorem closes_iff_literalBody (hd : d ≠ '\\') : Closes d body ↔ LiteralBody '\\' d body := by
  constructor
  · intro h
    obtain ⟨-, hbody⟩ | ⟨hodd, -⟩ := Unclosed.literalBody hd h.2
    · exact hbody
    · have heven := h.1
      omega
  · intro h
    exact closes_nil.append_literalBody hd h

variable {l : Lexer} {source : Text}

/-- The literals of a text that splits are closed. -/
theorem Splits.closes_of_mem {before cs : List Char} {pieces : List Piece}
    (h : l.Splits before cs pieces) {opening : Placed} (hp : .literal opening body ∈ pieces) :
    Closes opening.char body := by
  induction h with
  | nil => cases hp
  | single _ _ _ ih =>
      rcases List.mem_cons.mp hp with heq | hp
      · cases heq
      · exact ih hp
  | literal _ hcloses _ ih =>
      rcases List.mem_cons.mp hp with heq | hp
      · cases heq
        exact hcloses
      · exact ih hp

/-- A string token is a delimiter, a body that it closes, and the delimiter again. -/
theorem Splits.exists_closes_of_string {before cs : List Char} {pieces : List Piece}
    (h : l.Splits before cs pieces) {t : Token} (ht : t ∈ l.tokensOf source pieces)
    (hkind : t.kind = .string) :
    ∃ d body, l.role d = .delimiter ∧ t.text = Utf8.encodeAll (d :: (body ++ [d])) ∧
      Closes d body := by
  obtain ⟨first, rest, hfirst, ht⟩ := exists_run_of_mem ht
  rcases h.role_of_mem hfirst with ⟨c, rfl, hc⟩ | ⟨opening, body, rfl, hd⟩
  · simp only [runTokens, pieceRole] at ht
    split at ht
    · rw [List.mem_singleton.mp ht] at hkind
      simp only [tokenAt] at hkind
      split at hkind <;> cases hkind
    · rw [List.mem_singleton.mp ht] at hkind
      cases hkind
    · next hrole => exact absurd hrole hc
    · cases ht
  · rw [List.mem_singleton.mp ht]
    exact ⟨opening.char, body, hd, rfl, h.closes_of_mem hfirst⟩

end Lexer

/-- The byte of an ASCII character is in no other character. -/
theorem Utf8.ne_of_mem_encode {c d : Char} {x : UInt8} (hd : Utf8.encode d = [x])
    (hx : x.toNat < 128) (h : c ≠ d) : ∀ b ∈ Utf8.encode c, b ≠ x := by
  rintro b hb rfl
  rcases Utf8.encode_cases c with ⟨-, hbytes⟩ | hbytes
  · rw [hbytes, List.mem_singleton] at hb
    have hsame : Utf8.encode c = Utf8.encode d := by rw [hbytes, hd, hb]
    have hc := Utf8.head?_encode_append c []
    rw [hsame, Utf8.head?_encode_append] at hc
    exact h (Option.some.inj hc).symm
  · have hbig := hbytes b hb
    omega

/-- Reading bytes finds the same bodies as reading characters, if the delimiter is an ASCII
character. -/
theorem LiteralBody.encodeAll {d : Char} {x : UInt8} (hd : Utf8.encode d = [x])
    (hx : x.toNat < 128) {body : List Char} (h : LiteralBody '\\' d body) :
    LiteralBody 92 x (Utf8.encodeAll body) := by
  have hslash : Utf8.encode '\\' = [92] := rfl
  induction h with
  | nil => exact .nil
  | @plain c rest hc hcslash _ ih =>
      rw [Utf8.encodeAll_cons]
      refine (of_plain fun b hb ↦ ⟨?_, ?_⟩).append ih
      · exact Utf8.ne_of_mem_encode hd hx hc b hb
      · exact Utf8.ne_of_mem_encode hslash (by decide) hcslash b hb
  | @escape c rest _ ih =>
      rw [Utf8.encodeAll_cons, Utf8.encodeAll_cons, hslash]
      rcases Utf8.encode_cases c with ⟨-, hbytes⟩ | hbytes
      · rw [hbytes]
        exact .escape _ ih
      · -- The first byte is escaped, and the others cannot be taken for ASCII characters.
        obtain ⟨b, tail, hcons⟩ := List.exists_cons_of_ne_nil (Utf8.encode_ne_nil c)
        have htail : ∀ y ∈ tail, y ≠ x ∧ y ≠ 92 := by
          intro y hy
          have hbig := hbytes y (by rw [hcons]; exact List.mem_cons_of_mem _ hy)
          refine ⟨?_, ?_⟩
          · rintro rfl
            omega
          · rintro rfl
            exact absurd hbig (by decide)
        rw [hcons]
        exact .escape b ((of_plain htail).append ih)

end Tagfold
