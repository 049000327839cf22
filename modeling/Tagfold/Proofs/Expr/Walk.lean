import Tagfold.Expr.Walk

/-!
# What walks see

A walk is a fold of its visitor over a list of expressions with their levels, as long as the visitor
prunes by the expressions alone, or when it has nothing more to do: `Expr.walk_eq_foldl`. All that
is seen by visitors which never prune is read off that list: the expressions inside, the numbers of
expressions on the levels, and the leaves from left to right or from right to left.
`Expr.walk_agrees` compares them with the recursions that count descendants and find the outermost
leaves.
-/

namespace Tagfold

/-- From this state on the visitor does nothing any more. -/
def Visitor.Idle {σ : Type} (v : Visitor σ) (s : σ) : Prop :=
  ∀ level e, (v s level e).1 = s

namespace Expr

/-- An expression is the other one, or inside one of its children. -/
inductive Inside (x : Expr) : Expr → Prop where
  | self : Inside x x
  | child {t : Tag} {p : Pos} {cs : List Expr} {c : Expr} : c ∈ cs → Inside x c →
      Inside x (node t p cs)

/-- The expression is a leaf. -/
def isLeaf : Expr → Bool
  | leaf _ _ _ _ => true
  | _ => false

mutual

/-- An expression at a level and the descendants that are reached over the expressions to descend
into, with their levels, in visiting order. -/
def entries (d : Direction) (descend : Expr → Bool) (level : Nat) : Expr → List (Nat × Expr)
  | hole => [(level, hole)]
  | leaf t p v x => [(level, leaf t p v x)]
  | node t p cs => (level, node t p cs) ::
      if descend (node t p cs) then entriesAll d descend (level + 1) cs else []

/-- The expressions of a list at one level and their descendants. -/
def entriesAll (d : Direction) (descend : Expr → Bool) (level : Nat) :
    List Expr → List (Nat × Expr)
  | [] => []
  | c :: cs =>
    match d with
    | .leftToRight => entries d descend level c ++ entriesAll d descend level cs
    | .rightToLeft => entriesAll d descend level cs ++ entries d descend level c

end

mutual

/-- The leaves inside an expression, from left to right. -/
def frontier : Expr → List Expr
  | hole => []
  | leaf t p v x => [leaf t p v x]
  | node _ _ cs => frontierAll cs

/-- The leaves inside the expressions of a list, from left to right. -/
def frontierAll : List Expr → List Expr
  | [] => []
  | c :: cs => frontier c ++ frontierAll cs

end

/-- The leaves that a walk which never prunes visits, in visiting order. -/
def leaves (d : Direction) (e : Expr) : List Expr :=
  ((visited d (fun _ ↦ true) e).map (·.2)).filter isLeaf

section Folds

variable {σ : Type} {descend : Expr → Bool} {v : Visitor σ}

mutual

/-- An idle visitor brings a visit to no other state. -/
theorem visit_of_idle {d : Direction} {s : σ} (h : v.Idle s) (level : Nat) (e : Expr) :
    visit d v level s e = s := by
  cases e with
  | hole => exact h level hole
  | leaf t p x y => exact h level (leaf t p x y)
  | node t p cs =>
      rw [visit]
      have hidle := h level (node t p cs)
      split
      · next s' hs =>
          rw [hs] at hidle
          subst hidle
          exact visitAll_of_idle h (level + 1) cs
      · next s' hs =>
          rw [hs] at hidle
          exact hidle

/-- An idle visitor brings visits along a list to no other state. -/
theorem visitAll_of_idle {d : Direction} {s : σ} (h : v.Idle s) (level : Nat) (cs : List Expr) :
    visitAll d v level s cs = s := by
  cases cs with
  | nil => rfl
  | cons c cs =>
      cases d with
      | leftToRight => rw [visitAll, visit_of_idle h, visitAll_of_idle h]
      | rightToLeft => rw [visitAll, visitAll_of_idle h, visit_of_idle h]

end

/-- Folding an idle visitor over a list leads to no other state. -/
theorem foldl_of_idle {s : σ} (h : v.Idle s) (ns : List (Nat × Expr)) :
    ns.foldl (fun s n ↦ (v s n.1 n.2).1) s = s := by
  induction ns with
  | nil => rfl
  | cons n ns ih => rw [List.foldl_cons, h n.1 n.2, ih]

mutual

/-- A visit is a fold over the expressions that it comes to. -/
theorem visit_eq_foldl {d : Direction}
    (h : ∀ s level x, (v s level x).2 = descend x ∨ v.Idle (v s level x).1)
    (level : Nat) (s : σ) (e : Expr) :
    visit d v level s e = (entries d descend level e).foldl (fun s n ↦ (v s n.1 n.2).1) s := by
  cases e with
  | hole => rfl
  | leaf t p x y => rfl
  | node t p cs =>
      rw [visit, entries, List.foldl_cons]
      rcases hs : v s level (node t p cs) with ⟨s', goesOn⟩
      have hnode := h s level (node t p cs)
      rw [hs] at hnode
      obtain hgoesOn | hidle := hnode
      · dsimp only at hgoesOn
        subst hgoesOn
        cases descend (node t p cs) with
        | false => rfl
        | true => exact visitAll_eq_foldl h (level + 1) s' cs
      · -- Whatever is pruned, nothing happens below.
        rw [foldl_of_idle hidle]
        cases goesOn with
        | false => rfl
        | true => exact visitAll_of_idle hidle (level + 1) cs

/-- Visits along a list are a fold over the expressions that they come to. -/
theorem visitAll_eq_foldl {d : Direction}
    (h : ∀ s level x, (v s level x).2 = descend x ∨ v.Idle (v s level x).1)
    (level : Nat) (s : σ) (cs : List Expr) :
    visitAll d v level s cs =
      (entriesAll d descend level cs).foldl (fun s n ↦ (v s n.1 n.2).1) s := by
  cases cs with
  | nil => rfl
  | cons c cs =>
      cases d with
      | leftToRight =>
          rw [visitAll, entriesAll, List.foldl_append, visit_eq_foldl h, visitAll_eq_foldl h]
      | rightToLeft =>
          rw [visitAll, entriesAll, List.foldl_append, visit_eq_foldl h, visitAll_eq_foldl h]

end

/-- What a walk visits are an expression that is not missing and the descendants that it reaches. -/
theorem visited_eq_entries (d : Direction) (descend : Expr → Bool) (e : Expr) :
    visited d descend e = if e.isHole then [] else entries d descend 0 e := by
  have hrecord (ns : List (Nat × Expr)) :
      ns.foldl (fun seen n ↦ (n.1, n.2) :: seen) [] = ns.reverse := by
    simp
  have hfold := visit_eq_foldl (d := d) (v := fun seen level x ↦ ((level, x) :: seen, descend x))
    (fun _ _ _ ↦ .inl rfl) 0 [] e
  rw [visited, walk]
  split
  · rfl
  · rw [hfold, hrecord, List.reverse_reverse]

/-- What a walk visits of an expression that is not missing. -/
theorem visited_of_ne_hole {e : Expr} (he : e ≠ hole) (d : Direction) (descend : Expr → Bool) :
    visited d descend e = entries d descend 0 e := by
  rw [visited_eq_entries]
  cases e with
  | hole => exact absurd rfl he
  | leaf => rfl
  | node => rfl

/-- A walk is a fold over what is visited, if the visitor prunes by the expressions alone or where
it is idle. -/
theorem walk_eq_foldl {d : Direction}
    (h : ∀ s level x, (v s level x).2 = descend x ∨ v.Idle (v s level x).1)
    (s : σ) (e : Expr) :
    walk d v s e = (visited d descend e).foldl (fun s n ↦ (v s n.1 n.2).1) s := by
  rw [visited_eq_entries, walk]
  split
  · rfl
  · exact visit_eq_foldl h 0 s e

end Folds

section Insides

variable {descend : Expr → Bool} {n : Nat × Expr}

/-- Apart from their order, the first expression of a list and the other ones are listed in either
direction. -/
theorem entriesAll_cons_perm (d : Direction) (level : Nat) (c : Expr) (cs : List Expr) :
    (entriesAll d descend level (c :: cs)).Perm
      (entries d descend level c ++ entriesAll d descend level cs) := by
  cases d with
  | leftToRight => exact .refl _
  | rightToLeft => exact List.perm_append_comm

/-- What is inside of a node is the node, or inside of a child. -/
theorem inside_node_iff {x : Expr} {t : Tag} {p : Pos} {cs : List Expr} :
    x.Inside (node t p cs) ↔ x = node t p cs ∨ ∃ c ∈ cs, x.Inside c := by
  constructor
  · intro h
    cases h with
    | self => exact .inl rfl
    | child hc hx => exact .inr ⟨_, hc, hx⟩
  · intro h
    obtain rfl | ⟨c, hc, hx⟩ := h
    · exact .self
    · exact .child hc hx

mutual

/-- What is listed for an expression is inside of it, at its level or below. -/
theorem inside_of_mem_entries {d : Direction} {level : Nat} {e : Expr}
    (h : n ∈ entries d descend level e) : level ≤ n.1 ∧ n.2.Inside e := by
  cases e with
  | hole =>
      obtain rfl := List.mem_singleton.mp h
      exact ⟨Nat.le_refl _, .self⟩
  | leaf t p v x =>
      obtain rfl := List.mem_singleton.mp h
      exact ⟨Nat.le_refl _, .self⟩
  | node t p cs =>
      rw [entries, List.mem_cons] at h
      obtain rfl | h := h
      · exact ⟨Nat.le_refl _, .self⟩
      · split at h
        · obtain ⟨hlevel, c, hc, hn⟩ := inside_of_mem_entriesAll h
          exact ⟨Nat.le_of_succ_le hlevel, .child hc hn⟩
        · exact absurd h List.not_mem_nil

/-- What is listed for a list of expressions is inside one of them, at their level or below. -/
theorem inside_of_mem_entriesAll {d : Direction} {level : Nat} {cs : List Expr}
    (h : n ∈ entriesAll d descend level cs) : level ≤ n.1 ∧ ∃ c ∈ cs, n.2.Inside c := by
  cases cs with
  | nil => exact absurd h List.not_mem_nil
  | cons c cs =>
      obtain hn | hn := List.mem_append.mp ((entriesAll_cons_perm d level c cs).mem_iff.mp h)
      · obtain ⟨hlevel, hinside⟩ := inside_of_mem_entries hn
        exact ⟨hlevel, c, List.mem_cons_self, hinside⟩
      · obtain ⟨hlevel, c', hc, hinside⟩ := inside_of_mem_entriesAll hn
        exact ⟨hlevel, c', List.mem_cons_of_mem c hc, hinside⟩

end

/-- What is listed for one of the expressions of a list is listed for the list. -/
theorem mem_entriesAll {d : Direction} {level : Nat} {c : Expr} {cs : List Expr} (hc : c ∈ cs)
    (h : n ∈ entries d descend level c) : n ∈ entriesAll d descend level cs := by
  induction cs with
  | nil => exact absurd hc List.not_mem_nil
  | cons c' cs ih =>
      rw [(entriesAll_cons_perm d level c' cs).mem_iff, List.mem_append]
      obtain rfl | hc := List.mem_cons.mp hc
      · exact .inl h
      · exact .inr (ih hc)

/-- An expression lists itself first. -/
theorem self_mem_entries (d : Direction) (level : Nat) (e : Expr) :
    (level, e) ∈ entries d descend level e := by
  cases e <;> exact List.mem_cons_self

/-- Everything inside an expression is listed at some level, if every node is descended into. -/
theorem Inside.exists_mem_entries {x e : Expr} (h : x.Inside e) (d : Direction) (level : Nat) :
    ∃ l, (l, x) ∈ entries d (fun _ ↦ true) level e := by
  induction h generalizing level with
  | self => exact ⟨level, self_mem_entries d level x⟩
  | child hc _ ih =>
      obtain ⟨l, hl⟩ := ih (level + 1)
      exact ⟨l, List.mem_cons_of_mem _ (mem_entriesAll hc hl)⟩

/-- A walk that never prunes visits what is inside of an expression, and nothing else. -/
theorem exists_mem_visited_iff {x e : Expr} (he : e ≠ hole) (d : Direction) :
    (∃ l, (l, x) ∈ visited d (fun _ ↦ true) e) ↔ x.Inside e := by
  rw [visited_of_ne_hole he]
  constructor
  · intro h
    obtain ⟨l, hl⟩ := h
    exact (inside_of_mem_entries hl).2
  · intro h
    exact h.exists_mem_entries d 0

end Insides

section Counts

mutual

/-- Without a bound on the depth, an expression is listed with all its descendants. -/
theorem length_entries {d : Direction} {k : Int} (hk : k < 0) (level : Nat) (e : Expr) :
    (entries d (fun _ ↦ true) level e).length = 1 + numNodes k e := by
  cases e with
  | hole => rfl
  | leaf t p v x => rfl
  | node t p cs =>
      rw [entries, if_pos rfl, List.length_cons, length_entriesAll hk, numNodes, Nat.add_comm]

/-- Without a bound on the depth, the expressions of a list are listed with all descendants. -/
theorem length_entriesAll {d : Direction} {k : Int} (hk : k < 0) (level : Nat) (cs : List Expr) :
    (entriesAll d (fun _ ↦ true) level cs).length = numNodesAll k cs := by
  cases cs with
  | nil => rfl
  | cons c cs =>
      rw [numNodesAll, if_neg (by omega), (entriesAll_cons_perm d level c cs).length_eq,
        List.length_append, length_entries (by omega : k - 1 < 0) level c,
        length_entriesAll hk level cs]

end

mutual

/-- Down to a depth, an expression is listed and, unless the depth is zero, those of its descendants
that are as deep below its children as they may be. -/
theorem countP_entries {d : Direction} (level k : Nat) (e : Expr) :
    (entries d (fun _ ↦ true) level e).countP (fun n ↦ n.1 ≤ level + k) =
      1 + if (k : Int) = 0 then 0 else numNodes (k - 1) e := by
  cases e with
  | hole => simp [entries, numNodes]
  | leaf t p v x => simp [entries, numNodes]
  | node t p cs =>
      have hself : decide (level ≤ level + k) = true := decide_eq_true (Nat.le_add_right level k)
      rw [entries, if_pos rfl, List.countP_cons, if_pos hself, Nat.add_comm]
      congr 1
      cases k with
      | zero =>
          -- The depth is used up, and all descendants are on deeper levels.
          rw [if_pos (by omega), List.countP_eq_zero]
          intro n hn
          have hlevel := (inside_of_mem_entriesAll hn).1
          rw [decide_eq_true_eq]
          omega
      | succ k =>
          have hdepth : ((k + 1 : Nat) : Int) - 1 = k := by omega
          rw [if_neg (by omega), hdepth, numNodes, ← countP_entriesAll (d := d) (level + 1) k cs,
            Nat.add_assoc, Nat.add_comm 1 k]

/-- Down to a depth, the expressions of a list and their descendants are listed. -/
theorem countP_entriesAll {d : Direction} (level k : Nat) (cs : List Expr) :
    (entriesAll d (fun _ ↦ true) level cs).countP (fun n ↦ n.1 ≤ level + k) =
      numNodesAll k cs := by
  cases cs with
  | nil => rfl
  | cons c cs =>
      rw [numNodesAll, (entriesAll_cons_perm d level c cs).countP_eq, List.countP_append,
        countP_entries level k c, countP_entriesAll level k cs]

end

/-- A walk visits an expression at level zero, and below it what is listed for its children. -/
theorem visited_eq_cons {e : Expr} (he : e ≠ hole) (d : Direction) :
    visited d (fun _ ↦ true) e = (0, e) :: entriesAll d (fun _ ↦ true) 1 e.children := by
  rw [visited_of_ne_hole he]
  cases e with
  | hole => exact absurd rfl he
  | leaf => rfl
  | node => rfl

/-- The number of descendants is that of the list of children. -/
theorem numNodes_eq_children (k : Int) (e : Expr) : numNodes k e = numNodesAll k e.children := by
  cases e <;> rfl

/-- An expression that is not missing is visited with all its descendants. -/
theorem length_visited {e : Expr} (he : e ≠ hole) (d : Direction) {k : Int} (hk : k < 0) :
    (visited d (fun _ ↦ true) e).length = 1 + numNodes k e := by
  rw [visited_of_ne_hole he, length_entries hk]

/-- The levels from one on are those of the descendants. -/
theorem countP_visited (d : Direction) (k : Nat) (e : Expr) :
    (visited d (fun _ ↦ true) e).countP (fun n ↦ 1 ≤ n.1 ∧ n.1 ≤ k + 1) = numNodes k e := by
  by_cases he : e = hole
  · subst he
    rfl
  · rw [visited_eq_cons he, List.countP_cons_of_neg (by simp), numNodes_eq_children,
      ← countP_entriesAll (d := d) 1 k]
    apply List.countP_congr
    intro n hn
    have hlevel := (inside_of_mem_entriesAll hn).1
    simp only [decide_eq_true_eq]
    omega

/-- The levels from one on are those of all descendants. -/
theorem countP_visited_of_neg (d : Direction) {k : Int} (hk : k < 0) (e : Expr) :
    (visited d (fun _ ↦ true) e).countP (fun n ↦ 0 < n.1) = numNodes k e := by
  by_cases he : e = hole
  · subst he
    rfl
  · rw [visited_eq_cons he, List.countP_cons_of_neg (by simp), numNodes_eq_children,
      ← length_entriesAll (d := d) hk 1, List.countP_eq_length]
    intro n hn
    exact decide_eq_true (inside_of_mem_entriesAll hn).1

end Counts

section Leaves

mutual

/-- The leaves of what is listed are the frontier, in the order of the direction. -/
theorem leaves_entries {d : Direction} (level : Nat) (e : Expr) :
    ((entries d (fun _ ↦ true) level e).map (·.2)).filter isLeaf =
      if d = .leftToRight then e.frontier else e.frontier.reverse := by
  cases e with
  | hole => simp [entries, frontier, isLeaf]
  | leaf t p v x => simp [entries, frontier, isLeaf]
  | node t p cs =>
      rw [entries, if_pos rfl, List.map_cons, List.filter_cons_of_neg Bool.false_ne_true, frontier]
      exact leaves_entriesAll (level + 1) cs

/-- The leaves of what is listed for a list are its frontier, in the order of the direction. -/
theorem leaves_entriesAll {d : Direction} (level : Nat) (cs : List Expr) :
    ((entriesAll d (fun _ ↦ true) level cs).map (·.2)).filter isLeaf =
      if d = .leftToRight then frontierAll cs else (frontierAll cs).reverse := by
  cases cs with
  | nil => simp [entriesAll, frontierAll]
  | cons c cs =>
      have hc := leaves_entries (d := d) level c
      have hcs := leaves_entriesAll (d := d) level cs
      rw [frontierAll]
      cases d with
      | leftToRight => rw [entriesAll, List.map_append, List.filter_append, hc, hcs]; rfl
      | rightToLeft =>
          rw [entriesAll, List.map_append, List.filter_append, hc, hcs]
          exact (List.reverse_append).symm

end

/-- The leaves that a walk visits are the frontier, in the order of the direction. -/
theorem leaves_eq (d : Direction) (e : Expr) :
    leaves d e = if d = .leftToRight then e.frontier else e.frontier.reverse := by
  rw [leaves, visited_eq_entries]
  cases e with
  | hole => simp [isHole, frontier]
  | leaf t p v x => exact leaves_entries 0 (leaf t p v x)
  | node t p cs => exact leaves_entries 0 (node t p cs)

mutual

/-- The frontier consists of leaves. -/
theorem isLeaf_of_mem_frontier {x e : Expr} (h : x ∈ e.frontier) : x.isLeaf := by
  cases e with
  | hole => exact absurd h List.not_mem_nil
  | leaf t p v y =>
      obtain rfl := List.mem_singleton.mp h
      rfl
  | node t p cs => exact isLeaf_of_mem_frontierAll h

/-- The frontier of a list consists of leaves. -/
theorem isLeaf_of_mem_frontierAll {x : Expr} {cs : List Expr} (h : x ∈ frontierAll cs) :
    x.isLeaf := by
  cases cs with
  | nil => exact absurd h List.not_mem_nil
  | cons c cs =>
      obtain h | h := List.mem_append.mp h
      · exact isLeaf_of_mem_frontier h
      · exact isLeaf_of_mem_frontierAll h

end

mutual

/-- The leftmost leaf is the first one of the frontier. -/
theorem firstLeaf_eq (e : Expr) : firstLeaf e = e.frontier.head?.getD hole := by
  cases e with
  | hole => rfl
  | leaf t p v x => rfl
  | node t p cs => exact firstLeafOf_eq cs

/-- The leftmost leaf of a list is the first one of its frontier. -/
theorem firstLeafOf_eq (cs : List Expr) : firstLeafOf cs = (frontierAll cs).head?.getD hole := by
  cases cs with
  | nil => rfl
  | cons c cs =>
      have hc := firstLeaf_eq c
      rw [firstLeafOf, frontierAll, hc]
      cases hfrontier : c.frontier with
      | nil => exact firstLeafOf_eq cs
      | cons x xs =>
          -- What was found is a leaf, so that the search ends with it.
          have hx := isLeaf_of_mem_frontier (hfrontier ▸ List.mem_cons_self : x ∈ c.frontier)
          cases x with
          | hole => cases hx
          | leaf => rfl
          | node => cases hx

end

mutual

/-- The rightmost leaf is the last one of the frontier. -/
theorem lastLeaf_eq (e : Expr) : lastLeaf e = e.frontier.getLast?.getD hole := by
  cases e with
  | hole => rfl
  | leaf t p v x => rfl
  | node t p cs => exact lastLeafOf_eq cs

/-- The rightmost leaf of a list is the last one of its frontier. -/
theorem lastLeafOf_eq (cs : List Expr) : lastLeafOf cs = (frontierAll cs).getLast?.getD hole := by
  cases cs with
  | nil => rfl
  | cons c cs =>
      have hcs := lastLeafOf_eq cs
      rw [lastLeafOf, frontierAll, hcs, List.getLast?_append]
      cases hlast : (frontierAll cs).getLast? with
      | none => exact lastLeaf_eq c
      | some x =>
          have hx := isLeaf_of_mem_frontierAll (List.mem_of_getLast? hlast)
          cases x with
          | hole => cases hx
          | leaf => rfl
          | node => cases hx

end

/-- The first leaf of a frontier, or a hole, is a hole only if there is no leaf. -/
theorem getD_eq_hole_iff {e : Expr} {found : Option Expr}
    (hfound : ∀ x, found = some x → x ∈ e.frontier) (hnone : found = none ↔ e.frontier = []) :
    found.getD hole = hole ↔ e.frontier = [] := by
  rw [← hnone]
  cases found with
  | none => exact ⟨fun _ ↦ rfl, fun _ ↦ rfl⟩
  | some x =>
      have hx := isLeaf_of_mem_frontier (hfound x rfl)
      constructor
      · intro h
        rw [Option.getD_some] at h
        subst h
        cases hx
      · intro h
        cases h

end Leaves

/-- What the walks of an expression see agrees with the recursions over it. A visitor that never
prunes is folded over all that is visited; on the levels from one to `k + 1` there are as many
expressions as are counted down to the depth `k`, and on all levels from one on as many as are
counted without a bound; the leaves from right to left are those from left to right in reverse, and
their ends are the outermost leaves, which are missing only if there is no leaf. -/
theorem walk_agrees (e : Expr) :
    (∀ (σ : Type) (d : Direction) (v : Visitor σ) (s : σ),
        (∀ s level x, (v s level x).2 = true) →
        walk d v s e = (visited d (fun _ ↦ true) e).foldl (fun s n ↦ (v s n.1 n.2).1) s) ∧
      (∀ (d : Direction) (k : Nat),
        (visited d (fun _ ↦ true) e).countP (fun n ↦ 1 ≤ n.1 ∧ n.1 ≤ k + 1) = numNodes k e) ∧
      (∀ (d : Direction) (k : Int), k < 0 →
        (visited d (fun _ ↦ true) e).countP (fun n ↦ 0 < n.1) = numNodes k e) ∧
      leaves .rightToLeft e = (leaves .leftToRight e).reverse ∧
      firstLeaf e = (leaves .leftToRight e).head?.getD hole ∧
      lastLeaf e = (leaves .leftToRight e).getLast?.getD hole ∧
      (firstLeaf e = hole ↔ leaves .leftToRight e = []) ∧
      (lastLeaf e = hole ↔ leaves .leftToRight e = []) := by
  refine ⟨fun σ d v s h ↦ walk_eq_foldl (fun s level x ↦ .inl (h s level x)) s e,
    fun d k ↦ countP_visited d k e, fun d k hk ↦ countP_visited_of_neg d hk e, ?_⟩
  rw [leaves_eq, leaves_eq, if_pos rfl, if_neg nofun, firstLeaf_eq, lastLeaf_eq]
  refine ⟨rfl, rfl, rfl, ?_, ?_⟩
  · exact getD_eq_hole_iff (fun x ↦ List.mem_of_head?) List.head?_eq_none_iff
  · exact getD_eq_hole_iff (fun x ↦ List.mem_of_getLast?) List.getLast?_eq_none_iff

/-- Below a node there are a leaf, a hole and an empty node, all of them are counted. -/
theorem walk_agrees_hole :
    walk .leftToRight (fun (n : Nat) _ _ ↦ (n + 1, true)) 0
        (node .zero ⟨1, 1⟩ [leaf .zero ⟨1, 1⟩ .absent [], hole, node .zero ⟨1, 2⟩ []]) = 4 ∧
      (-1 : Int) < 0 ∧
      (visited .rightToLeft (fun _ ↦ true)
        (node .zero ⟨1, 1⟩ [leaf .zero ⟨1, 1⟩ .absent [], hole, node .zero ⟨1, 2⟩ []])).countP
          (fun n ↦ 0 < n.1) = 3 := by
  obtain ⟨hfold, -, hcount, -⟩ :=
    walk_agrees (node .zero ⟨1, 1⟩ [leaf .zero ⟨1, 1⟩ .absent [], hole, node .zero ⟨1, 2⟩ []])
  have hneg : (-1 : Int) < 0 := by decide
  exact ⟨hfold Nat .leftToRight _ 0 fun _ _ _ ↦ rfl, hneg, hcount .rightToLeft (-1) hneg⟩

end Expr

end Tagfold
