import Tagfold.Unicode.Folding

/-!
# Case variants are the code points that fold alike

The runs of the folding table have no source in common, and no run has a target that is a source. So
folding twice is folding once (`fold_fold`), and the case variants of a code point are exactly the
code points with the same folding (`mem_caseVariants_iff`).
-/

namespace Tagfold.Unicode

/-- Equally spaced numbers. -/
structure Row where
  first : Nat
  count : Nat
  step : Nat

namespace Row

/-- The number is in the row. -/
def Mem (n : Nat) (a : Row) : Prop := ∃ k, k < a.count ∧ n = a.first + k * a.step

/-- The last number of a row. -/
def last (a : Row) : Nat := a.first + (a.count - 1) * a.step

/-- All numbers of the row are even, or all are odd. -/
def keepsParity (a : Row) : Bool := a.count.beq 1 || a.step.beq 2

/-- The rows lie one behind the other, or one of them is even and the other one odd. The kernel
compares all rows of the table by this, so it is made of the comparisons that it has built in. -/
def apart (a b : Row) : Bool :=
  a.last.blt b.first || b.last.blt a.first ||
    (a.keepsParity && b.keepsParity && ((a.first + b.first) % 2).beq 1)

variable {a b : Row} {n : Nat}

/-- A number of a row lies between its ends. -/
theorem Mem.bounds (h : Mem n a) : a.first ≤ n ∧ n ≤ a.last := by
  obtain ⟨k, hk, rfl⟩ := h
  exact ⟨Nat.le_add_right _ _,
    Nat.add_le_add_left (Nat.mul_le_mul_right _ (Nat.le_sub_one_of_lt hk)) _⟩

/-- A number of a row that keeps its parity has the parity of the first one. -/
theorem Mem.parity (h : Mem n a) (ha : a.keepsParity = true) : n % 2 = a.first % 2 := by
  obtain ⟨k, hk, rfl⟩ := h
  simp only [keepsParity, Bool.or_eq_true, Nat.beq_eq] at ha
  rcases ha with hcount | hstep
  · obtain rfl : k = 0 := by omega
    rw [Nat.zero_mul, Nat.add_zero]
  · rw [hstep]
    omega

/-- Rows that lie apart have no number in common. -/
theorem not_mem_of_apart (h : a.apart b = true) (ha : Mem n a) : ¬ Mem n b := by
  intro hb
  have hbounds := ha.bounds
  have hbounds' := hb.bounds
  simp only [apart, Bool.or_eq_true, Bool.and_eq_true, Nat.blt_eq, Nat.beq_eq] at h
  rcases h with (h | h) | ⟨⟨hparity, hparity'⟩, h⟩
  · omega
  · omega
  · have := ha.parity hparity
    have := hb.parity hparity'
    omega

end Row

namespace FoldRun

variable {r : FoldRun} {code folded : Nat}

/-- The code points that the run folds. -/
def sources (r : FoldRun) : Row := ⟨r.start, r.count, r.stride⟩

/-- The code points that the run folds to. -/
def targets (r : FoldRun) : Row := ⟨r.target, r.count, r.stride⟩

/-- A run folds a source to the target in the same place. -/
theorem fold?_eq_some_iff (h : 0 < r.stride) : r.fold? code = some folded ↔
    ∃ k, k < r.count ∧ code = r.start + k * r.stride ∧ folded = r.target + k * r.stride := by
  rw [fold?]
  constructor
  · intro hfold
    split at hfold
    · next hk => exact ⟨_, hk.2.1, hk.2.2.symm, (Option.some.inj hfold).symm⟩
    · cases hfold
  · rintro ⟨k, hk, rfl, rfl⟩
    have hplace : (r.start + k * r.stride - r.start) / r.stride = k := by
      rw [Nat.add_sub_cancel_left, Nat.mul_div_cancel k h]
    simp only [hplace]
    exact if_pos ⟨Nat.le_add_right _ _, hk, trivial⟩

/-- Exchanging sources and targets is going back. -/
theorem preimage?_eq_some_iff (h : 0 < r.stride) :
    r.preimage? folded = some code ↔ r.fold? code = some folded := by
  rw [preimage?, fold?_eq_some_iff (r := r.inverse) h, fold?_eq_some_iff h]
  exact exists_congr fun k ↦ and_congr_right fun _ ↦ and_comm

/-- What a run folds is one of its sources and becomes one of its targets. -/
theorem mem_of_fold? (hr : 0 < r.stride) (h : r.fold? code = some folded) :
    r.sources.Mem code ∧ r.targets.Mem folded := by
  obtain ⟨k, hk, hcode, hfolded⟩ := (fold?_eq_some_iff hr).mp h
  exact ⟨⟨k, hk, hcode⟩, ⟨k, hk, hfolded⟩⟩

/-- A code point that is no source of a run is not folded by it. -/
theorem fold?_eq_none (hr : 0 < r.stride) (h : ¬ r.sources.Mem code) : r.fold? code = none :=
  Option.eq_none_iff_forall_ne_some.mpr fun _ hfold ↦ h (mem_of_fold? hr hfold).1

end FoldRun

section Table

variable {r : FoldRun} {rs : List FoldRun} {code folded other : Nat}

/-- Every row of a list lies apart from those behind it. -/
def Row.allApart : List Row → Bool
  | [] => true
  | a :: rows => rows.all a.apart && allApart rows

/-- The rows of the table go up. -/
theorem stride_pos : ∀ r ∈ foldRuns, 0 < r.stride := by
  decide +kernel

/-- No two runs have a source in common. -/
theorem allApart_sources : Row.allApart (foldRuns.map FoldRun.sources) = true := by
  decide +kernel

/-- No target of a run is a source of a run. -/
theorem targets_apart_sources :
    (foldRuns.all fun r ↦ foldRuns.all fun r' ↦ r.targets.apart r'.sources) = true := by
  decide +kernel

/-- In a table whose sources lie apart, the run that folds a code point is found. -/
theorem findSome?_of_fold? (hstride : ∀ r ∈ rs, 0 < r.stride)
    (hapart : Row.allApart (rs.map FoldRun.sources) = true) (hr : r ∈ rs)
    (h : r.fold? code = some folded) : rs.findSome? (·.fold? code) = some folded := by
  induction rs with
  | nil => cases hr
  | cons first rs ih =>
      obtain ⟨hfirst, hrest⟩ := List.forall_mem_cons.mp hstride
      obtain ⟨hall, hapart⟩ := Bool.and_eq_true_iff.mp hapart
      rcases List.mem_cons.mp hr with rfl | hr
      · rw [List.findSome?_cons, h]
      · have hsource := (FoldRun.mem_of_fold? (hrest r hr) h).1
        have hnot : ¬ first.sources.Mem code := fun hmem ↦
          Row.not_mem_of_apart (List.all_eq_true.mp hall _ (List.mem_map_of_mem hr)) hmem hsource
        rw [List.findSome?_cons, FoldRun.fold?_eq_none hfirst hnot]
        exact ih hrest hapart hr

/-- A code point folds to what the run that has it folds it to. -/
theorem fold_of_fold? (hr : r ∈ foldRuns) (h : r.fold? code = some folded) :
    fold code = folded := by
  rw [fold, findSome?_of_fold? stride_pos allApart_sources hr h]
  rfl

/-- A code point is folded by a run, or it folds to itself. -/
theorem fold_cases (code : Nat) :
    (∃ r ∈ foldRuns, r.fold? code = some (fold code)) ∨
      (fold code = code ∧ ∀ r ∈ foldRuns, r.fold? code = none) := by
  cases hfound : foldRuns.findSome? (·.fold? code) with
  | some folded =>
      obtain ⟨r, hr, h⟩ := List.exists_of_findSome?_eq_some hfound
      exact .inl ⟨r, hr, by rw [fold, hfound]; exact h⟩
  | none => exact .inr ⟨by rw [fold, hfound]; rfl, List.findSome?_eq_none_iff.mp hfound⟩

/-- Folding twice is folding once. -/
theorem fold_fold (code : Nat) : fold (fold code) = fold code := by
  rcases fold_cases code with ⟨r, hr, h⟩ | ⟨h, -⟩
  · have htarget := (FoldRun.mem_of_fold? (stride_pos r hr) h).2
    rcases fold_cases (fold code) with ⟨r', hr', h'⟩ | ⟨h', -⟩
    · have hapart := List.all_eq_true.mp (List.all_eq_true.mp targets_apart_sources r hr) r' hr'
      have hsource := (FoldRun.mem_of_fold? (stride_pos r' hr') h').1
      exact absurd hsource (Row.not_mem_of_apart hapart htarget)
    · exact h'
  · rw [h, h]

/-- The case variants of a code point are the code points with the same folding. -/
theorem mem_caseVariants_iff : other ∈ caseVariants code ↔ fold other = fold code := by
  rw [caseVariants, List.mem_cons, List.mem_filterMap]
  constructor
  · rintro (rfl | ⟨r, hr, h⟩)
    · exact fold_fold code
    · exact fold_of_fold? hr ((FoldRun.preimage?_eq_some_iff (stride_pos r hr)).mp h)
  · intro heq
    rcases fold_cases other with ⟨r, hr, h⟩ | ⟨h, -⟩
    · exact .inr ⟨r, hr, (FoldRun.preimage?_eq_some_iff (stride_pos r hr)).mpr (heq ▸ h)⟩
    · exact .inl (h.symm.trans heq)

end Table

end Tagfold.Unicode
