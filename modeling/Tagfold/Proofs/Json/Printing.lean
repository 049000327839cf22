import Tagfold.Proofs.Json.Folding

/-!
# Printing and decoding parts

The expression of a value is always printed and decoded. `Tree.text` and `Tree.data` are the
results, by the shape of the value: `print_expr` and `decode_expr`. Every other part is refused by
both: `decode_print_part`.
-/

namespace Tagfold.Json

open Text

/-- The numeral of a double, which has a point. -/
def decimalText (d : Double) : Text :=
  let digits := Layout.plain.render d
  if digits.contains 46 then digits else digits ++ utf8 ".0"

namespace Tree

mutual

/-- The JSON text of a value. -/
def text : Tree → Text
  | string _ s _ => encodeString s
  | integer _ n => Text.decimal (digitsValue n.text)
  | decimal _ a b => decimalText (a.withFraction b)
  | constant _ c => c.text
  | object _ ms => utf8 "\x7b" ++ Text.join (utf8 ",") (membersText ms) ++ utf8 "\x7d"
  | array _ vs => utf8 "[" ++ Text.join (utf8 ",") (itemsText vs) ++ utf8 "]"

/-- The JSON text of a member. -/
def memberText : Member → Text
  | .mk _ k v => encodeString k ++ utf8 ":" ++ v.text

/-- The JSON texts of members. -/
def membersText : List Member → List Text
  | [] => []
  | m :: ms => memberText m :: membersText ms

/-- The JSON texts of values. -/
def itemsText : List Tree → List Text
  | [] => []
  | v :: vs => v.text :: itemsText vs

end

mutual

/-- The data of a value. -/
def data : Tree → Data
  | string _ s _ => .scalar (.text s)
  | integer _ n => .scalar n.value
  | decimal _ a b => .scalar (.double (a.withFraction b))
  | constant _ .yes => .scalar (.bool true)
  | constant _ .no => .scalar (.bool false)
  | constant _ .null => .scalar .absent
  | object _ ms => .object (putMembers [] ms)
  | array _ vs => .list (itemsData vs)

/-- Entries with those of members put behind them. -/
def putMembers (entries : List (Text × Data)) : List Member → List (Text × Data)
  | [] => entries
  | .mk _ k v :: ms => putMembers (Data.put entries k v.data) ms

/-- The data of values. -/
def itemsData : List Tree → List Data
  | [] => []
  | v :: vs => v.data :: itemsData vs

end

variable (reg : Registry)

/-- The members of an object are decoded one after another. -/
theorem decodeMembers_membersExpr {ms : List Member}
    (h : ∀ m ∈ ms, decode (m.value.expr reg) = .ok m.value.data) (entries : List (Text × Data)) :
    decodeMembers entries (membersExpr reg ms) = .ok (putMembers entries ms) := by
  induction ms generalizing entries with
  | nil => rfl
  | cons m ms ih =>
      obtain ⟨p, k, v⟩ := m
      have hv : decode (v.expr reg) = .ok v.data := h _ List.mem_cons_self
      have hrest := ih (fun a ha ↦ h a (List.mem_cons_of_mem _ ha)) (Data.put entries k v.data)
      show (do
        let value ← decode (v.expr reg)
        decodeMembers (Data.put entries k value) (membersExpr reg ms)) = _
      rw [hv]
      exact hrest

/-- The values of an array are decoded one after another. -/
theorem decodeItems_itemsExpr {vs : List Tree} (h : ∀ v ∈ vs, decode (v.expr reg) = .ok v.data) :
    decodeItems (itemsExpr reg vs) = .ok (itemsData vs) := by
  induction vs with
  | nil => rfl
  | cons v vs ih =>
      rw [itemsExpr, decodeItems, h v List.mem_cons_self,
        ih fun a ha ↦ h a (List.mem_cons_of_mem _ ha)]
      rfl

/-- The expression of a value is decoded to its data. -/
theorem decode_expr (v : Tree) : decode (v.expr reg) = .ok v.data := by
  induction v using Tree.induct with
  | string p s raw => rfl
  | integer p n => rfl
  | decimal p a b => rfl
  | constant p c => cases c <;> rfl
  | object p ms ih =>
      show (decodeMembers [] (membersExpr reg ms)).map Data.object = _
      rw [decodeMembers_membersExpr reg ih]
      rfl
  | array p vs ih =>
      show (decodeItems (itemsExpr reg vs)).map Data.list = _
      rw [decodeItems_itemsExpr reg ih]
      rfl

/-- The members of an object are printed one after another. -/
theorem printMembers_membersExpr {ms : List Member}
    (h : ∀ m ∈ ms, print (m.value.expr reg) = .ok m.value.text) :
    printMembers (membersExpr reg ms) = .ok (membersText ms) := by
  induction ms with
  | nil => rfl
  | cons m ms ih =>
      obtain ⟨p, k, v⟩ := m
      have hv : print (v.expr reg) = .ok v.text := h _ List.mem_cons_self
      have hrest := ih fun a ha ↦ h a (List.mem_cons_of_mem _ ha)
      show (do
        let value ← print (v.expr reg)
        let members ← printMembers (membersExpr reg ms)
        return (encodeString k ++ utf8 ":" ++ value) :: members) = _
      rw [hv, hrest]
      rfl

/-- The values of an array are printed one after another. -/
theorem printItems_itemsExpr {vs : List Tree} (h : ∀ v ∈ vs, print (v.expr reg) = .ok v.text) :
    printItems (itemsExpr reg vs) = .ok (itemsText vs) := by
  induction vs with
  | nil => rfl
  | cons v vs ih =>
      rw [itemsExpr, printItems, h v List.mem_cons_self,
        ih fun a ha ↦ h a (List.mem_cons_of_mem _ ha)]
      rfl

/-- An integer is printed as the numeral of its number, without leading zeros. -/
theorem printInteger_expr (p : Pos) (n : Numeral) :
    printInteger ((Tree.integer p n).expr reg) = .ok (Text.decimal (digitsValue n.text)) := by
  by_cases h : digitsValue n.text < 2 ^ 63
  · have hvalue : n.value = .int (Int64.ofNat (digitsValue n.text)) := by
      rw [Numeral.value, if_pos h]
    have hint : (Int64.ofNat (digitsValue n.text)).toInt = digitsValue n.text :=
      Int64.toInt_ofNat_of_lt h
    simp only [printInteger, Tree.expr, Expr.value, hvalue, hint]
    rfl
  · have hvalue : n.value =
        .double (.number false (Double.nearestRank (digitsValue n.text) 1)) := by
      rw [Numeral.value, if_neg h]
    have hdigits := dropWhile_zero_eq_decimal n.digits (by omega)
    have hne := decimal_ne_nil (digitsValue n.text)
    simp only [printInteger, Tree.expr, Expr.value, hvalue, Expr.text, hdigits]
    rw [if_neg (by simpa using hne)]

/-- The expression of a value is printed as its text. -/
theorem print_expr (v : Tree) : print (v.expr reg) = .ok v.text := by
  induction v using Tree.induct with
  | string p s raw => rfl
  | integer p n => exact printInteger_expr reg p n
  | decimal p a b => rfl
  | constant p c => cases c <;> rfl
  | object p ms ih =>
      show (do
        let members ← printMembers (membersExpr reg ms)
        return utf8 "\x7b" ++ Text.join (utf8 ",") members ++ utf8 "\x7d") = _
      rw [printMembers_membersExpr reg ih]
      rfl
  | array p vs ih =>
      show (do
        let items ← printItems (itemsExpr reg vs)
        return utf8 "[" ++ Text.join (utf8 ",") items ++ utf8 "]") = _
      rw [printItems_itemsExpr reg ih]
      rfl

end Tree

/-- What is unexpected has no result. -/
theorem unexpected_eq_error {α : Type} (e : Expr) :
    ∃ fault, (unexpected e : Except Fault α) = .error fault := by
  cases e <;> exact ⟨_, rfl⟩

/-- A part that is no value is neither decoded nor printed. -/
theorem decode_print_part (reg : Registry) {p : Part} (h : ∀ v, p ≠ .value v) :
    (∃ fault, decode (p.expr reg) = .error fault) ∧ ∃ fault, print (p.expr reg) = .error fault := by
  cases p with
  | value v => exact absurd rfl (h v)
  | punct c pos => cases c <;> exact ⟨unexpected_eq_error _, unexpected_eq_error _⟩
  | pair m =>
      cases m
      exact ⟨unexpected_eq_error _, unexpected_eq_error _⟩
  | _ => exact ⟨unexpected_eq_error _, unexpected_eq_error _⟩

end Tagfold.Json
