import Mathlib.Data.List.Forall2
import Tagfold.Proofs.Tag.Registry
import Tagfold.Rule.Basic

/-!
# What compiled rules mean

Compiling a rule table turns names into sets of numbers. `compileAll_represents` says that nothing
is lost: every compiled rule keeps the title, the pattern and the reducer of its rule, and each of
its sets stands for the names of the matcher at its place, in the registry behind the whole table
and in every continuation of it. `compileAll_ok` says which tables can be compiled.
-/

namespace Tagfold

/-- A computation that goes on after a result has both results. -/
theorem Except.bind_eq_ok_iff {ε α β : Type} {x : Except ε α} {f : α → Except ε β} {b : β} :
    (x >>= f) = .ok b ↔ ∃ a, x = .ok a ∧ f a = .ok b := by
  cases x with
  | error e => simp [bind, Except.bind]
  | ok a => simp [bind, Except.bind]

/-- A computation whose result is changed has a result before. -/
theorem Except.map_eq_ok_iff {ε α β : Type} {x : Except ε α} {f : α → β} {b : β} :
    x.map f = .ok b ↔ ∃ a, x = .ok a ∧ f a = b := by
  cases x with
  | error e => simp [Except.map]
  | ok a => simp [Except.map]

/-- The set accepts an owned tag exactly if its name is listed, from the given state of the registry
on. -/
def TagSet.Means (s : TagSet) (reg : Registry) (names : List Text) : Prop :=
  ∀ reg' : Registry, reg'.Extends reg → reg'.names.Nodup →
    ∀ t, reg'.owns t = true → (s.contains t = true ↔ t.name ∈ names)

/-- The meaning of a set does not change while the registry grows. -/
theorem TagSet.Means.mono {s : TagSet} {reg reg' : Registry} {names : List Text}
    (h : s.Means reg names) (hext : reg'.Extends reg) : s.Means reg' names :=
  fun later hlater hn t ht ↦ h later (hlater.trans hext) hn t ht

/-- A rule can be used: it has a reducer, and its pattern and every matcher of it are not empty. -/
structure Rule.WellFormed (r : Rule) : Prop where
  pattern : r.pattern ≠ []
  reduce : r.reduce.isSome
  matchers : ∀ m ∈ r.pattern, m.names ≠ []

/-- The compiled rule does what the rule says, from the given state of the registry on. -/
structure CompiledRule.Represents (reg : Registry) (c : CompiledRule) (r : Rule) : Prop where
  name : c.name = r.title
  pattern : c.pattern = r.pattern
  reduce : r.reduce = some c.reduce
  sets : List.Forall₂ (fun (s : TagSet) (m : Matcher) ↦ s.Means reg m.names) c.sets r.pattern

namespace CompiledRule.Represents

variable {reg reg' : Registry} {c : CompiledRule} {r : Rule}

/-- A compiled rule does the same while the registry grows. -/
theorem mono (h : c.Represents reg r) (hext : reg'.Extends reg) : c.Represents reg' r where
  name := h.name
  pattern := h.pattern
  reduce := h.reduce
  sets := h.sets.imp fun _ _ hs ↦ hs.mono hext

/-- A compiled rule folds as many expressions as its pattern has places. -/
theorem width_eq (h : c.Represents reg r) : c.width = r.pattern.length :=
  h.sets.length_eq

end CompiledRule.Represents

namespace Rule

/-- Compiling a pattern continues the registry, which then knows all its names, and gives every
place the set of its matcher. -/
theorem compilePattern_means {rule place : Nat} {reg reg' : Registry} {ms : List Matcher}
    {sets : List TagSet} (hn : reg.names.Nodup)
    (h : compilePattern rule reg place ms = .ok (sets, reg')) :
    reg'.Extends reg ∧ reg'.names.Nodup ∧
      List.Forall₂ (fun (s : TagSet) (m : Matcher) ↦ s.Means reg' m.names) sets ms ∧
      ∀ m ∈ ms, ∀ name ∈ m.names, name ∈ reg'.names := by
  induction ms generalizing reg place sets with
  | nil =>
      cases h
      exact ⟨.refl _, hn, .nil, by simp⟩
  | cons m ms ih =>
      unfold compilePattern at h
      split at h
      · cases h
      · obtain ⟨⟨rest, last⟩, hrest, h⟩ := Except.bind_eq_ok_iff.mp h
        cases h
        obtain ⟨hgrow, hnodup, hmem⟩ := Registry.foldl_addName_registry m.names .empty reg hn
        obtain ⟨hext, hlast, hsets, hnames⟩ := ih hnodup hrest
        refine ⟨hext.trans hgrow, hlast, .cons ?_ hsets, ?_⟩
        · intro later hlater hlaterNodup t ht
          exact Registry.contains_internSet hn hlaterNodup (hlater.trans hext) ht
        · intro a ha name hname
          rcases List.mem_cons.mp ha with rfl | ha
          · exact hext.mem (hmem name hname)
          · exact hnames a ha name hname

/-- Compiling a rule continues the registry, which then knows the names of its pattern. -/
theorem compile_represents {r : Rule} {rule : Nat} {reg reg' : Registry} {c : CompiledRule}
    (hn : reg.names.Nodup) (h : r.compile rule reg = .ok (c, reg')) :
    reg'.Extends reg ∧ reg'.names.Nodup ∧ c.Represents reg' r ∧
      ∀ m ∈ r.pattern, ∀ name ∈ m.names, name ∈ reg'.names := by
  unfold compile at h
  split at h
  · cases h
  · split at h
    · cases h
    · next reduce hreduce =>
        obtain ⟨⟨sets, last⟩, hpattern, h⟩ := Except.bind_eq_ok_iff.mp h
        cases h
        obtain ⟨hext, hnodup, hsets, hnames⟩ := compilePattern_means hn hpattern
        exact ⟨hext, hnodup, ⟨rfl, rfl, hreduce, hsets⟩, hnames⟩

/-- Compiling a table continues the registry, which then knows the names of all patterns, and every
compiled rule represents its rule. -/
theorem compileAll_represents {rs : List Rule} {rule : Nat} {reg reg' : Registry}
    {cs : List CompiledRule} (hn : reg.names.Nodup)
    (h : compileAll reg rule rs = .ok (cs, reg')) :
    reg'.Extends reg ∧ reg'.names.Nodup ∧
      List.Forall₂ (fun (c : CompiledRule) (r : Rule) ↦ c.Represents reg' r) cs rs ∧
      ∀ r ∈ rs, ∀ m ∈ r.pattern, ∀ name ∈ m.names, name ∈ reg'.names := by
  induction rs generalizing reg rule cs with
  | nil =>
      cases h
      exact ⟨.refl _, hn, .nil, by simp⟩
  | cons r rs ih =>
      unfold compileAll at h
      obtain ⟨⟨c, mid⟩, hc, h⟩ := Except.bind_eq_ok_iff.mp h
      obtain ⟨⟨rest, last⟩, hrest, h⟩ := Except.bind_eq_ok_iff.mp h
      cases h
      obtain ⟨hext, hnodup, hrep, hnames⟩ := compile_represents hn hc
      obtain ⟨hextRest, hlast, hreps, hnamesRest⟩ := ih hnodup hrest
      refine ⟨hextRest.trans hext, hlast, .cons (hrep.mono hextRest) hreps, ?_⟩
      intro a ha m hm name hname
      rcases List.mem_cons.mp ha with rfl | ha
      · exact hextRest.mem (hnames m hm name hname)
      · exact hnamesRest a ha m hm name hname

/-- A pattern of matchers that are not empty can be compiled. -/
theorem compilePattern_ok {ms : List Matcher} (hms : ∀ m ∈ ms, m.names ≠ []) (rule place : Nat)
    (reg : Registry) : ∃ sets reg', compilePattern rule reg place ms = .ok (sets, reg') := by
  induction ms generalizing reg place with
  | nil => exact ⟨[], reg, rfl⟩
  | cons m ms ih =>
      obtain ⟨sets, reg', h⟩ :=
        ih (fun a ha ↦ hms a (List.mem_cons_of_mem _ ha)) (place + 1) (reg.internSet m.names).2
      refine ⟨(reg.internSet m.names).1 :: sets, reg', ?_⟩
      rw [compilePattern, if_neg (by simpa using hms m List.mem_cons_self)]
      simp only [bind, Except.bind, h]
      rfl

/-- A table of well-formed rules can be compiled. -/
theorem compileAll_ok {rs : List Rule} (hrs : ∀ r ∈ rs, r.WellFormed) (rule : Nat)
    (reg : Registry) : ∃ cs reg', compileAll reg rule rs = .ok (cs, reg') := by
  induction rs generalizing reg rule with
  | nil => exact ⟨[], reg, rfl⟩
  | cons r rs ih =>
      have hr := hrs r List.mem_cons_self
      obtain ⟨reduce, hreduce⟩ := Option.isSome_iff_exists.mp hr.reduce
      obtain ⟨sets, mid, hsets⟩ := compilePattern_ok hr.matchers rule 0 reg
      obtain ⟨cs, reg', hcs⟩ := ih (fun a ha ↦ hrs a (List.mem_cons_of_mem _ ha)) (rule + 1) mid
      refine ⟨⟨r.title, r.pattern, sets, reduce⟩ :: cs, reg', ?_⟩
      have hc : r.compile rule reg = .ok (⟨r.title, r.pattern, sets, reduce⟩, mid) := by
        rw [compile, if_neg (by simpa using hr.pattern), hreduce]
        simp only [hsets]
        rfl
      rw [compileAll, hc]
      simp only [bind, Except.bind, hcs]
      rfl

end Rule

end Tagfold
