import Tagfold.Proofs.Rule.Compilation

/-!
# What compiled rules compare

A compiled rule looks at nothing but the numbers of tags. `compileAll_compares` says which numbers
these are, for tags of every origin: the set at a place of a compiled pattern holds exactly the
numbers that the registry gives to the names of the matcher there. On the tags that the registry
owns this comes to the names again, `Matcher.admits_iff`.
-/

namespace Tagfold

/-- The matcher admits a tag: the tag has the number of one of the names in the registry. -/
def Matcher.Admits (reg : Registry) (m : Matcher) (t : Tag) : Prop :=
  ∃ name ∈ m.names, t.id = (reg.lookup name).id

/-- An owned tag is admitted exactly if the matcher names it. -/
theorem Matcher.admits_iff {reg : Registry} {m : Matcher} {t : Tag} (hn : reg.names.Nodup)
    (hm : ∀ name ∈ m.names, name ∈ reg.names) (ht : reg.owns t = true) :
    m.Admits reg t ↔ t.name ∈ m.names := by
  constructor
  · rintro ⟨name, hname, hid⟩
    rwa [(Registry.id_eq_lookup_iff hn ht (hm name hname)).mp hid]
  · intro hname
    exact ⟨t.name, hname, (Registry.id_eq_lookup_iff hn ht (hm _ hname)).mpr rfl⟩

/-- The compiled rule compares the numbers that the rule names, from the given state of the registry
on: it has a place, and the set at every place admits what the matcher there does. -/
structure CompiledRule.Compares (reg : Registry) (c : CompiledRule) (r : Rule) : Prop where
  pattern : r.pattern ≠ []
  names : ∀ m ∈ r.pattern, ∀ name ∈ m.names, name ∈ reg.names
  sets : List.Forall₂ (fun (s : TagSet) (m : Matcher) ↦ ∀ reg' : Registry, reg'.Extends reg →
    ∀ t, s.contains t = true ↔ m.Admits reg' t) c.sets r.pattern

namespace CompiledRule.Compares

variable {reg reg' : Registry} {c : CompiledRule} {r : Rule}

/-- A compiled rule compares the same numbers while the registry grows. -/
theorem mono (h : c.Compares reg r) (hext : reg'.Extends reg) : c.Compares reg' r where
  pattern := h.pattern
  names m hm name hname := hext.mem (h.names m hm name hname)
  sets := h.sets.imp fun _ _ hs later hlater ↦ hs later (hlater.trans hext)

/-- A compiled rule folds as many expressions as its pattern has places. -/
theorem width_eq (h : c.Compares reg r) : c.width = r.pattern.length :=
  h.sets.length_eq

/-- A compiled rule folds at least one expression. -/
theorem width_pos (h : c.Compares reg r) : 0 < c.width := by
  rw [h.width_eq]
  exact List.length_pos_iff.mpr h.pattern

end CompiledRule.Compares

namespace Rule

/-- The sets of a compiled pattern admit what its matchers do. -/
theorem compilePattern_compares {rule place : Nat} {reg reg' : Registry} {ms : List Matcher}
    {sets : List TagSet} (hn : reg.names.Nodup)
    (h : compilePattern rule reg place ms = .ok (sets, reg')) :
    List.Forall₂ (fun (s : TagSet) (m : Matcher) ↦ ∀ later : Registry, later.Extends reg' →
      ∀ t, s.contains t = true ↔ m.Admits later t) sets ms := by
  induction ms generalizing reg place sets with
  | nil =>
      cases h
      exact .nil
  | cons m ms ih =>
      unfold compilePattern at h
      split at h
      · cases h
      · obtain ⟨⟨rest, last⟩, hrest, h⟩ := Except.bind_eq_ok_iff.mp h
        cases h
        have hnodup := (Registry.foldl_addName_registry m.names .empty reg hn).2.1
        have hext := (compilePattern_means hnodup hrest).1
        refine .cons (fun later hlater t ↦ ?_) (ih hnodup hrest)
        exact Registry.contains_internSet_iff hn (hlater.trans hext) t

/-- A compiled rule compares the numbers that its rule names. -/
theorem compile_compares {r : Rule} {rule : Nat} {reg reg' : Registry} {c : CompiledRule}
    (hn : reg.names.Nodup) (h : r.compile rule reg = .ok (c, reg')) : c.Compares reg' r := by
  have hnames := (compile_represents hn h).2.2.2
  unfold compile at h
  split at h
  · cases h
  · next hpattern =>
      split at h
      · cases h
      · obtain ⟨⟨sets, last⟩, hsets, h⟩ := Except.bind_eq_ok_iff.mp h
        cases h
        exact ⟨by simpa using hpattern, hnames, compilePattern_compares hn hsets⟩

/-- The compiled rules of a table compare the numbers that their rules name. -/
theorem compileAll_compares {rs : List Rule} {rule : Nat} {reg reg' : Registry}
    {cs : List CompiledRule} (hn : reg.names.Nodup)
    (h : compileAll reg rule rs = .ok (cs, reg')) :
    List.Forall₂ (fun (c : CompiledRule) (r : Rule) ↦ c.Compares reg' r) cs rs := by
  induction rs generalizing reg rule cs with
  | nil =>
      cases h
      exact .nil
  | cons r rs ih =>
      unfold compileAll at h
      obtain ⟨⟨c, mid⟩, hc, h⟩ := Except.bind_eq_ok_iff.mp h
      obtain ⟨⟨rest, last⟩, hrest, h⟩ := Except.bind_eq_ok_iff.mp h
      cases h
      have hmid := (compile_represents hn hc).2.1
      have hext := (compileAll_represents hmid hrest).1
      exact .cons ((compile_compares hn hc).mono hext) (ih hmid hrest)

end Rule

end Tagfold
