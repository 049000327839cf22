import Mathlib.Data.List.Forall2
import Tagfold.Proofs.Expr.Walk

/-!
# Equality of expressions

Equality of expressions is a relation of their headings, that is their names, positions and kinds,
and of the texts and values of their leaves. What it says about one expression and the next is
`Expr.equals_iff`. It is symmetric and transitive, but an expression in which something is not a
number differs from itself: `Expr.equals_partialEquivalence`. Walks see no difference between equal
expressions unless they look at values.
-/

namespace Tagfold

namespace Double

/-- Numerical equality is symmetric. -/
theorem equals_symm {a b : Double} (h : a.equals b) : b.equals a := by
  cases a with
  | nan => cases h
  | number s m =>
      cases b with
      | nan => cases h
      | number t n =>
          simp only [equals, Bool.and_eq_true, Bool.or_eq_true, beq_iff_eq] at h ⊢
          obtain ⟨rfl, hsign⟩ := h
          exact ⟨rfl, hsign.imp_left Eq.symm⟩

/-- Numerical equality is transitive. -/
theorem equals_trans {a b c : Double} (hab : a.equals b) (hbc : b.equals c) : a.equals c := by
  cases a with
  | nan => cases hab
  | number s m =>
      cases b with
      | nan => cases hab
      | number t n =>
          cases c with
          | nan => cases hbc
          | number u k =>
              simp only [equals, Bool.and_eq_true, Bool.or_eq_true, beq_iff_eq] at hab hbc ⊢
              obtain ⟨rfl, hab⟩ := hab
              obtain ⟨rfl, hbc⟩ := hbc
              refine ⟨rfl, ?_⟩
              obtain rfl | hzero := hab
              · exact hbc
              · exact .inr hzero

/-- Only what is not a number differs from itself. -/
theorem equals_self_iff {a : Double} : a.equals a ↔ a ≠ nan := by
  cases a with
  | nan => simp [equals]
  | number s m => simp [equals]

end Double

namespace Value

/-- Two values are equal if they are equal doubles, or the same and no doubles. -/
theorem equals_iff {a b : Value} :
    a.equals b ↔
      (∃ x y, a = double x ∧ b = double y ∧ x.equals y) ∨ a.double? = none ∧ a = b := by
  cases a <;> cases b <;> simp [equals, double?]

/-- Equality of values is symmetric. -/
theorem equals_symm {a b : Value} (h : a.equals b) : b.equals a := by
  obtain ⟨x, y, rfl, rfl, hxy⟩ | ⟨hnone, rfl⟩ := equals_iff.mp h
  · exact Double.equals_symm hxy
  · exact h

/-- Equality of values is transitive. -/
theorem equals_trans {a b c : Value} (hab : a.equals b) (hbc : b.equals c) : a.equals c := by
  obtain ⟨x, y, rfl, rfl, hxy⟩ | ⟨hnone, rfl⟩ := equals_iff.mp hab
  · obtain ⟨y', z, hy, rfl, hyz⟩ | ⟨hnone, rfl⟩ := equals_iff.mp hbc
    · cases hy
      exact Double.equals_trans hxy hyz
    · cases hnone
  · exact hbc

/-- Only what is not a number differs from itself. -/
theorem equals_self_iff {a : Value} : a.equals a ↔ a ≠ double .nan := by
  cases a with
  | double x => simpa [equals] using Double.equals_self_iff
  | _ => simp [equals]

end Value

namespace Expr

/-- What a visitor can see of an expression without looking at its text, value or children: the name
of its tag, its position, and whether it is a node. -/
def heading (e : Expr) : Except Misuse Text × Except Misuse Pos × Bool :=
  (e.name, e.pos, e.isNode)

/-- The expressions are equal. -/
abbrev Equal (a b : Expr) : Prop := equals a b = true

/-- Two lists are equal if they are equal place by place. -/
theorem equalsAll_iff {cs cs' : List Expr} :
    equalsAll cs cs' ↔ List.Forall₂ Equal cs cs' := by
  induction cs generalizing cs' with
  | nil => cases cs' <;> simp [equalsAll]
  | cons c cs ih => cases cs' <;> simp [equalsAll, ih]

/-- How two expressions are equal. -/
inductive Matches : Expr → Expr → Prop where
  | hole : Matches hole hole
  | leaf {t t' : Tag} {p : Pos} {v v' : Value} {x : Text} : t.name = t'.name → v.equals v' →
      Matches (leaf t p v x) (leaf t' p v' x)
  | node {t t' : Tag} {p : Pos} {cs cs' : List Expr} : t.name = t'.name →
      List.Forall₂ Equal cs cs' → Matches (node t p cs) (node t' p cs')

/-- Equal expressions are both missing, or leaves with equal names and values at the same position
and of the same text, or nodes with equal names and children at the same position. -/
theorem equals_iff {a b : Expr} : Equal a b ↔ Matches a b := by
  constructor
  · intro h
    cases a with
    | hole =>
        cases b with
        | hole => exact .hole
        | leaf | node => cases h
    | leaf t p v x =>
        cases b with
        | leaf t' p' v' x' =>
            simp only [Equal, equals, Bool.and_eq_true, beq_iff_eq] at h
            obtain ⟨⟨⟨hname, rfl⟩, rfl⟩, hvalue⟩ := h
            exact .leaf hname hvalue
        | hole | node => cases h
    | node t p cs =>
        cases b with
        | node t' p' cs' =>
            simp only [Equal, equals, Bool.and_eq_true, beq_iff_eq] at h
            obtain ⟨⟨hname, rfl⟩, hall⟩ := h
            exact .node hname (equalsAll_iff.mp hall)
        | hole | leaf => cases h
  · intro h
    cases h with
    | hole => rfl
    | leaf hname hvalue => simp [Equal, equals, hname, hvalue]
    | node hname hall => simp [Equal, equals, hname, equalsAll_iff.mpr hall]

mutual

/-- Equality of expressions is symmetric. -/
theorem equals_symm {a b : Expr} (h : Equal a b) : Equal b a := by
  cases equals_iff.mp h with
  | hole => rfl
  | leaf hname hvalue => exact equals_iff.mpr (.leaf hname.symm (Value.equals_symm hvalue))
  | node hname hall => exact equals_iff.mpr (.node hname.symm (forall₂_symm hall))

/-- Equality of lists is symmetric. -/
theorem forall₂_symm {cs cs' : List Expr}
    (h : List.Forall₂ Equal cs cs') :
    List.Forall₂ Equal cs' cs := by
  cases h with
  | nil => exact .nil
  | cons hc hcs => exact .cons (equals_symm hc) (forall₂_symm hcs)

end

mutual

/-- Equality of expressions is transitive. -/
theorem equals_trans {a b c : Expr} (hab : Equal a b) (hbc : Equal b c) : Equal a c := by
  cases equals_iff.mp hab with
  | hole => exact hbc
  | leaf hname hvalue =>
      cases equals_iff.mp hbc with
      | leaf hname' hvalue' =>
          exact equals_iff.mpr (.leaf (hname.trans hname') (Value.equals_trans hvalue hvalue'))
  | node hname hall =>
      cases equals_iff.mp hbc with
      | node hname' hall' =>
          exact equals_iff.mpr (.node (hname.trans hname') (forall₂_trans hall hall'))

/-- Equality of lists is transitive. -/
theorem forall₂_trans {as bs cs : List Expr}
    (hab : List.Forall₂ Equal as bs)
    (hbc : List.Forall₂ Equal bs cs) :
    List.Forall₂ Equal as cs := by
  cases hab with
  | nil => exact hbc
  | cons ha has =>
      cases hbc with
      | cons hb hbs => exact .cons (equals_trans ha hb) (forall₂_trans has hbs)

end

mutual

/-- An expression equals itself exactly if nothing inside of it has a value that is not a number. -/
theorem equals_self_iff (e : Expr) :
    equals e e ↔ ∀ x : Expr, x.Inside e → x.value ≠ .double .nan := by
  cases e with
  | hole =>
      refine ⟨fun _ x hx ↦ ?_, fun _ ↦ rfl⟩
      cases hx with
      | self => exact nofun
  | leaf t p v y =>
      have hself : equals (leaf t p v y) (leaf t p v y) = v.equals v := by
        simp [equals]
      rw [hself, Value.equals_self_iff]
      constructor
      · intro h x hx
        cases hx with
        | self => exact h
      · intro h
        exact h _ .self
  | node t p cs =>
      have hself : equals (node t p cs) (node t p cs) = equalsAll cs cs := by
        simp [equals]
      rw [hself, equalsAll_self_iff cs]
      constructor
      · intro h x hx
        obtain rfl | ⟨c, hc, hx⟩ := inside_node_iff.mp hx
        · exact nofun
        · exact h c hc x hx
      · intro h c hc x hx
        exact h x (.child hc hx)

/-- A list equals itself exactly if nothing inside of its expressions has a value that is not a
number. -/
theorem equalsAll_self_iff (cs : List Expr) :
    equalsAll cs cs ↔ ∀ c ∈ cs, ∀ x : Expr, x.Inside c → x.value ≠ .double .nan := by
  cases cs with
  | nil => exact ⟨fun _ ↦ nofun, fun _ ↦ rfl⟩
  | cons c cs =>
      rw [equalsAll, Bool.and_eq_true, equals_self_iff c, equalsAll_self_iff cs,
        List.forall_mem_cons]

end

section Walks

variable {p : Except Misuse Text × Except Misuse Pos × Bool → Bool}

/-- Equal expressions have the same heading. -/
theorem heading_of_equals {a b : Expr} (h : Equal a b) : a.heading = b.heading := by
  cases equals_iff.mp h with
  | hole => rfl
  | leaf hname => simp [heading, name, tag, pos, isNode, Except.map, hname]
  | node hname => simp [heading, name, tag, pos, isNode, Except.map, hname]

mutual

/-- What is listed for equal expressions, descending into nodes by their headings, has the same
headings at the same levels. -/
theorem headings_entries {d : Direction} {a b : Expr} (h : Equal a b) (level : Nat) :
    (entries d (fun x ↦ p x.heading) level a).map (fun n ↦ (n.1, n.2.heading)) =
      (entries d (fun x ↦ p x.heading) level b).map fun n ↦ (n.1, n.2.heading) := by
  have hheading := heading_of_equals h
  cases equals_iff.mp h with
  | hole => rfl
  | leaf => simp [entries, hheading]
  | node hname hall =>
      rw [entries, entries, List.map_cons, List.map_cons, hheading]
      congr 1
      -- Both nodes are descended into, or neither of them.
      split
      · exact headings_entriesAll hall (level + 1)
      · rfl

/-- What is listed for equal lists has the same headings at the same levels. -/
theorem headings_entriesAll {d : Direction} {as bs : List Expr}
    (h : List.Forall₂ Equal as bs) (level : Nat) :
    (entriesAll d (fun x ↦ p x.heading) level as).map (fun n ↦ (n.1, n.2.heading)) =
      (entriesAll d (fun x ↦ p x.heading) level bs).map fun n ↦ (n.1, n.2.heading) := by
  cases h with
  | nil => rfl
  | cons hc hcs =>
      have hhead := headings_entries (d := d) hc level
      have htail := headings_entriesAll (d := d) hcs level
      cases d with
      | leftToRight => rw [entriesAll, entriesAll, List.map_append, List.map_append, hhead, htail]
      | rightToLeft => rw [entriesAll, entriesAll, List.map_append, List.map_append, hhead, htail]

end

/-- A walk that prunes by headings visits the same headings at the same levels in equal expressions.
-/
theorem headings_visited (d : Direction) {a b : Expr} (h : Equal a b) :
    (visited d (fun x ↦ p x.heading) a).map (fun n ↦ (n.1, n.2.heading)) =
      (visited d (fun x ↦ p x.heading) b).map fun n ↦ (n.1, n.2.heading) := by
  have hhole : a.isHole = b.isHole := by
    cases equals_iff.mp h <;> rfl
  rw [visited_eq_entries, visited_eq_entries, hhole]
  split
  · rfl
  · exact headings_entries h 0

end Walks

/-- Equality is symmetric and transitive. An expression equals itself exactly if nothing inside of
it has a value that is not a number. Walks through equal expressions, pruning nowhere or by what the
headings say, come to expressions with the same headings at the same levels. -/
theorem equals_partialEquivalence (a b c : Expr) :
    equals a b = equals b a ∧
      (equals a b → equals b c → equals a c) ∧
      (equals a a ↔ ∀ x : Expr, x.Inside a → x.value ≠ .double .nan) ∧
      (equals a b → ∀ (d : Direction) (p : Except Misuse Text × Except Misuse Pos × Bool → Bool),
        (visited d (fun x ↦ p x.heading) a).map (fun n ↦ (n.1, n.2.heading)) =
          (visited d (fun x ↦ p x.heading) b).map fun n ↦ (n.1, n.2.heading)) := by
  refine ⟨?_, fun hab hbc ↦ equals_trans hab hbc, equals_self_iff a,
    fun h d p ↦ headings_visited d h⟩
  rw [Bool.eq_iff_iff]
  exact ⟨fun h ↦ equals_symm h, fun h ↦ equals_symm h⟩

/-- Two nodes with a hole behind a zero, the tags and the signs of which differ, are equal. -/
theorem equals_partialEquivalence_zero :
    equals (node .zero ⟨1, 1⟩ [leaf .zero ⟨1, 1⟩ (.double (.number false 0)) [], hole])
        (node ⟨7, []⟩ ⟨1, 1⟩ [leaf ⟨8, []⟩ ⟨1, 1⟩ (.double (.number true 0)) [], hole]) ∧
      equals (node ⟨7, []⟩ ⟨1, 1⟩ [leaf ⟨8, []⟩ ⟨1, 1⟩ (.double (.number true 0)) [], hole])
        (node ⟨9, []⟩ ⟨1, 1⟩ [leaf ⟨7, []⟩ ⟨1, 1⟩ (.double (.number false 0)) [], hole]) ∧
      equals (node .zero ⟨1, 1⟩ [leaf .zero ⟨1, 1⟩ (.double (.number false 0)) [], hole])
        (node ⟨9, []⟩ ⟨1, 1⟩ [leaf ⟨7, []⟩ ⟨1, 1⟩ (.double (.number false 0)) [], hole]) := by
  obtain ⟨-, htrans, -, -⟩ := equals_partialEquivalence
    (node .zero ⟨1, 1⟩ [leaf .zero ⟨1, 1⟩ (.double (.number false 0)) [], hole])
    (node ⟨7, []⟩ ⟨1, 1⟩ [leaf ⟨8, []⟩ ⟨1, 1⟩ (.double (.number true 0)) [], hole])
    (node ⟨9, []⟩ ⟨1, 1⟩ [leaf ⟨7, []⟩ ⟨1, 1⟩ (.double (.number false 0)) [], hole])
  exact ⟨rfl, rfl, htrans rfl rfl⟩

end Expr

end Tagfold
