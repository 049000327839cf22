import Tagfold.CharClass.Basic
import Tagfold.Proofs.Unicode.Folding

/-!
# Patterns match where they lead

A text of one character has two places, and a pattern leads from places to places: a set of code
points across its characters, an assertion from a place to itself, and repetitions by leading
several times. `Pattern.has_ways_iff` says that the truth values of a pattern are those of this
relation. A pattern between anchors matches exactly the characters that the pattern inside leads
across (`Pattern.matchesChar_anchored`).
-/

namespace Tagfold.CharClass

/-- A set without case contains what folds like one of its code points. -/
theorem CodeSet.caseless_iff (s : CodeSet) (c : Nat) :
    s.caseless c = true ↔ ∃ d, Unicode.fold d = Unicode.fold c ∧ s d = true := by
  simp [caseless, Unicode.mem_caseVariants_iff]

/-- A place in a text of one character. -/
inductive Place where
  | before
  | behind
  deriving DecidableEq, Repr

namespace Place

/-- The code point in front of a place in the text of the given character. -/
def prev? (c : Nat) : Place → Option Nat
  | before => none
  | behind => some c

/-- The code point at a place. -/
def next? (c : Nat) : Place → Option Nat
  | before => some c
  | behind => none

end Place

/-- What holds somewhere holds at one of the two places. -/
theorem exists_place {P : Place → Prop} : (∃ i, P i) ↔ P .before ∨ P .behind := by
  constructor
  · rintro ⟨i, h⟩
    cases i with
    | before => exact .inl h
    | behind => exact .inr h
  · rintro (h | h) <;> exact ⟨_, h⟩

/-- There is a character of a word. -/
def isWordAt (c? : Option Nat) : Bool :=
  c?.any isWordCode

/-- The condition holds at a place in the text of the given character. -/
def Assertion.HoldsAt (c : Nat) (i : Place) : Assertion → Prop
  | textStart => i.prev? c = none
  | textEnd => i.next? c = none
  | lineStart => i.prev? c = none ∨ i.prev? c = some 10
  | lineEnd => i.next? c = none ∨ i.next? c = some 10
  | wordBoundary => isWordAt (i.prev? c) ≠ isWordAt (i.next? c)
  | noWordBoundary => isWordAt (i.prev? c) = isWordAt (i.next? c)

/-- A relation between places a number of times. -/
def Times (R : Place → Place → Prop) : Nat → Place → Place → Prop
  | 0, i, j => i = j
  | n + 1, i, k => ∃ j, Times R n i j ∧ R j k

/-- The pattern leads from one place to another in the text of the given character. -/
def Pattern.Leads (c : Nat) : Pattern → Place → Place → Prop
  | empty, i, j => i = j
  | one s, i, j => i = .before ∧ j = .behind ∧ s c = true
  | check a, i, j => i = j ∧ a.HoldsAt c i
  | both p q, i, k => ∃ j, p.Leads c i j ∧ q.Leads c j k
  | either p q, i, j => p.Leads c i j ∨ q.Leads c i j
  | repeated p least most, i, j =>
    ∃ more, (∀ m, most = some m → more ≤ m - least) ∧ Times (p.Leads c) (least + more) i j

/-- Taking a relation a number of times and then more often. -/
theorem times_add {R : Place → Place → Prop} (m n : Nat) {i k : Place} :
    Times R (m + n) i k ↔ ∃ j, Times R m i j ∧ Times R n j k := by
  induction n generalizing k with
  | zero => simp [Times]
  | succ n ih =>
      rw [← Nat.add_assoc]
      simp only [Times, ih]
      constructor
      · rintro ⟨j', ⟨j, hm, hn⟩, hlast⟩
        exact ⟨j, hm, j', hn, hlast⟩
      · rintro ⟨j, hm, j', hn, hlast⟩
        exact ⟨j', ⟨j, hm, hn⟩, hlast⟩

namespace Ways

variable {v w : Ways} {i j k : Place}

/-- There is a way from one place to another. -/
def Has (w : Ways) : Place → Place → Prop
  | .before, .before => w.before = true
  | .before, .behind => w.across = true
  | .behind, .before => False
  | .behind, .behind => w.behind = true

/-- Staying leads nowhere else. -/
theorem has_stay : stay.Has i j ↔ i = j := by
  cases i <;> cases j <;> simp [Has, stay]

/-- One way and then another meet somewhere. -/
theorem has_append : (v.append w).Has i k ↔ ∃ j, v.Has i j ∧ w.Has j k := by
  rw [exists_place]
  cases i <;> cases k <;> simp [Has, append]

/-- One way or another. -/
theorem has_orElse : (v.orElse w).Has i j ↔ v.Has i j ∨ w.Has i j := by
  cases i <;> cases j <;> simp [Has, orElse]

/-- The same way a number of times. -/
theorem has_power (n : Nat) : (w.power n).Has i j ↔ Times w.Has n i j := by
  induction n generalizing j with
  | zero => exact has_stay
  | succ n ih =>
      rw [power, has_append, Times]
      simp only [ih]

/-- The same way at most a number of times. -/
theorem has_power_orElse_stay (n : Nat) :
    ((w.orElse stay).power n).Has i j ↔ ∃ k, k ≤ n ∧ Times w.Has k i j := by
  induction n generalizing j with
  | zero =>
      rw [power, has_stay]
      exact ⟨fun h ↦ ⟨0, Nat.le_refl 0, h⟩, fun ⟨k, hk, h⟩ ↦ by rwa [Nat.le_zero.mp hk] at h⟩
  | succ n ih =>
      rw [power, has_append]
      simp only [ih, has_orElse, has_stay]
      constructor
      · rintro ⟨i', ⟨k, hk, hfirst⟩, hlast | rfl⟩
        · exact ⟨k + 1, Nat.succ_le_succ hk, i', hfirst, hlast⟩
        · exact ⟨k, Nat.le_succ_of_le hk, hfirst⟩
      · rintro ⟨_ | k, hk, h⟩
        · exact ⟨j, ⟨0, Nat.zero_le n, h⟩, .inr rfl⟩
        · obtain ⟨i', hfirst, hlast⟩ := h
          exact ⟨i', ⟨k, Nat.le_of_succ_le_succ hk, hfirst⟩, .inl hlast⟩

/-- However often a way is taken, it crosses the character at most once. -/
theorem eq_or_across_of_times {n : Nat} (h : Times w.Has n i j) :
    i = j ∨ (i = .before ∧ j = .behind ∧ w.across = true) := by
  induction n generalizing j with
  | zero => exact .inl h
  | succ n ih =>
      obtain ⟨i', hfirst, hlast⟩ := h
      have hstep : i' = j ∨ (i' = .before ∧ j = .behind ∧ w.across = true) := by
        cases i' <;> cases j <;> simp_all [Has]
      rcases ih hfirst with rfl | ⟨rfl, rfl, hacross⟩
      · exact hstep
      · rcases hstep with rfl | ⟨hback, -, -⟩
        · exact .inr ⟨rfl, rfl, hacross⟩
        · cases hback

/-- The same way any number of times. -/
theorem has_star : w.star.Has i j ↔ ∃ n, Times w.Has n i j := by
  constructor
  · intro h
    cases i <;> cases j
    · exact ⟨0, rfl⟩
    · exact ⟨1, .before, rfl, h⟩
    · cases h
    · exact ⟨0, rfl⟩
  · rintro ⟨n, hn⟩
    rcases eq_or_across_of_times hn with rfl | ⟨rfl, rfl, hacross⟩
    · cases i <;> rfl
    · exact hacross

/-- The same way at least a number of times. -/
theorem has_append_star (least : Nat) :
    ((w.power least).append w.star).Has i j ↔ ∃ more, Times w.Has (least + more) i j := by
  simp only [has_append, has_power, has_star, times_add]
  constructor
  · rintro ⟨i', h, more, hmore⟩
    exact ⟨more, i', h, hmore⟩
  · rintro ⟨more, i', h, hmore⟩
    exact ⟨i', h, more, hmore⟩

/-- The same way a number of times and at most some times more. -/
theorem has_append_power (least n : Nat) :
    ((w.power least).append ((w.orElse stay).power n)).Has i j ↔
      ∃ more, more ≤ n ∧ Times w.Has (least + more) i j := by
  simp only [has_append, has_power_orElse_stay]
  simp only [has_power, times_add]
  constructor
  · rintro ⟨i', h, more, hle, hmore⟩
    exact ⟨more, hle, i', h, hmore⟩
  · rintro ⟨more, hle, i', h, hmore⟩
    exact ⟨i', h, more, hle, hmore⟩

/-- There is a way if there is one between some places. -/
theorem any_iff : w.any = true ↔ ∃ i j, w.Has i j := by
  rw [exists_place, exists_place, exists_place]
  simp [any, Has, or_assoc]

end Ways

/-- An assertion stays where it holds. -/
theorem Assertion.has_ways_iff (a : Assertion) (c : Nat) {i j : Place} :
    (a.ways c).Has i j ↔ i = j ∧ a.HoldsAt c i := by
  cases a <;> cases i <;> cases j <;>
    simp [ways, HoldsAt, Ways.Has, Place.prev?, Place.next?, isWordAt]

namespace Pattern

variable {c : Nat} {i j : Place}

/-- The truth values of a pattern tell where it leads. -/
theorem has_ways_iff (p : Pattern) : (p.ways c).Has i j ↔ p.Leads c i j := by
  induction p generalizing i j with
  | empty => exact Ways.has_stay
  | one s => cases i <;> cases j <;> simp [ways, Ways.Has, Leads]
  | check a => exact a.has_ways_iff c
  | both p q hp hq =>
      rw [ways, Ways.has_append, Leads]
      simp only [hp, hq]
  | either p q hp hq => rw [ways, Ways.has_orElse, hp, hq, Leads]
  | repeated p least most hp =>
      have hleads : (p.ways c).Has = p.Leads c := funext fun i ↦ funext fun j ↦ propext hp
      rw [Leads, ← hleads]
      cases most with
      | none =>
          rw [ways, Ways.has_append_star]
          simp
      | some most =>
          rw [ways, Ways.has_append_power]
          simp

/-- A pattern matches somewhere if it leads anywhere. -/
theorem matchesChar_iff {p : Pattern} : p.matchesChar c = true ↔ ∃ i j, p.Leads c i j := by
  simp only [matchesChar, Ways.any_iff, has_ways_iff]

/-- Between anchors a pattern matches the characters that it leads across. -/
theorem matchesChar_anchored {p : Pattern} :
    (both (check .textStart) (both p (both (check .textEnd) empty))).matchesChar c = true ↔
      p.Leads c .before .behind := by
  rw [matchesChar_iff]
  constructor
  · rintro ⟨i, j, _, ⟨rfl, hstart⟩, j', hp, _, ⟨rfl, hend⟩, rfl⟩
    cases i with
    | before =>
      cases j' with
      | before => cases hend
      | behind => exact hp
    | behind => cases hstart
  · intro h
    exact ⟨.before, .behind, .before, ⟨rfl, rfl⟩, .behind, h, .behind, ⟨rfl, rfl⟩, rfl⟩

end Pattern

end Tagfold.CharClass
