import AddressFormulas.Proofs.Loop.Termination
import Mathlib.Logic.Relation

/-!
The innermost loop around several loops. Climbing from two loops, always from the one with the larger
number, leads to the innermost loop around both, since the loop around a loop has a smaller number.
So the order in which the loops are given does not matter.
-/

namespace AddressFormulas

namespace LoopTree

/-- Loop `a` is loop `m` or a loop around it; the routine is around every loop. -/
def Around (tree : List Nat) (a m : Nat) : Prop :=
  Relation.ReflTransGen (fun m parent => tree[m]? = some parent) m a

/-- Loop `c` is around all of `ms` and inside every loop that is. -/
structure IsLowestCommon (tree ms : List Nat) (c : Nat) : Prop where
  around : ∀ m ∈ ms, Around tree c m
  lowest : ∀ a, (∀ m ∈ ms, Around tree a m) → Around tree a c

/-- The loops around which one is asked for: a third loop of zero is left aside. -/
def asked (m₁ m₂ m₃ : Nat) : List Nat := m₁ :: m₂ :: if m₃ = 0 then [] else [m₃]

/-- Climbing from the first two loops comes to one loop, and climbing from that and the third comes to
`c`; there is no second climb where one of them is zero. -/
def ClimbsTo (tree : List Nat) (m₁ m₂ m₃ c : Nat) : Prop :=
  ∃ m, Climbs tree m₁ m₂ m ∧ if 0 < m ∧ 0 < m₃ then Climbs tree m m₃ c else c = m

variable {tree ms ns : List Nat} {a b c m k m₁ m₂ m₃ : Nat}

theorem IsLowestCommon.of_perm (h : IsLowestCommon tree ms c) (hp : ms.Perm ns) :
    IsLowestCommon tree ns c := by
  constructor
  · intro m hm
    exact h.around m (hp.mem_iff.mpr hm)
  · intro a ha
    exact h.lowest a fun m hm => ha m (hp.mem_iff.mp hm)

theorem isLowestCommon_of_around (h : Around tree c k) : IsLowestCommon tree [c, k] c := by
  constructor
  · simp only [List.forall_mem_cons]
    exact ⟨.refl, h, nofun⟩
  · intro a ha
    exact ha c List.mem_cons_self

theorem IsLowestCommon.append (h : IsLowestCommon tree ms c) (h' : IsLowestCommon tree (c :: ns) b) :
    IsLowestCommon tree (ms ++ ns) b := by
  constructor
  · intro m hm
    obtain hm | hm := List.mem_append.mp hm
    · exact (h.around m hm).trans (h'.around c List.mem_cons_self)
    · exact h'.around m (List.mem_cons_of_mem c hm)
  · intro a ha
    have around_c := h.lowest a fun m hm => ha m (List.mem_append_left ns hm)
    apply h'.lowest a
    exact List.forall_mem_cons.mpr ⟨around_c, fun m hm => ha m (List.mem_append_right ms hm)⟩

theorem getElem?_eq_getD (hm : m < tree.length) : tree[m]? = some (tree.getD m 0) := by
  simp [List.getD, hm]

theorem lowestCommon_eq (h₁ : m₁ < tree.length) (h₂ : m₂ < tree.length) (h₃ : m₃ < tree.length) :
    lowestCommon tree m₁ m₂ m₃ = if 0 < meet tree m₁ m₂ ∧ 0 < m₃ then meet tree (meet tree m₁ m₂) m₃
      else meet tree m₁ m₂ := by
  have known : ¬(tree.length ≤ m₁ ∨ tree.length ≤ m₂ ∨ tree.length ≤ m₃) := by omega
  exact if_neg known

section Parents

variable (root : tree[0]? = some 0)
  (parent_lt : ∀ m parent, 0 < m → tree[m]? = some parent → parent < m)

include root parent_lt

theorem Around.le (h : Around tree a m) : a ≤ m := by
  induction h with
  | refl => exact Nat.le_refl m
  | @tail b c _ step ih =>
    have smaller := parent_lt b c
    obtain rfl | pos := Nat.eq_zero_or_pos b
    · rw [root] at step
      cases step
      exact ih
    · have := smaller pos step
      omega

theorem IsLowestCommon.unique (h : IsLowestCommon tree ms b) (h' : IsLowestCommon tree ms c) : b = c :=
  Nat.le_antisymm ((h'.lowest b h.around).le root parent_lt) ((h.lowest c h'.around).le root parent_lt)

omit root in
theorem around_zero (hm : m < tree.length) : Around tree 0 m := by
  induction m using Nat.strongRecOn with
  | ind m ih =>
    obtain rfl | pos := Nat.eq_zero_or_pos m
    · exact .refl
    · have step := getElem?_eq_getD hm
      have smaller := parent_lt m _ pos step
      exact .head step (ih _ smaller (by omega))

theorem IsLowestCommon.step (hk : k < m) (hm : m < tree.length)
    (h : IsLowestCommon tree [tree.getD m 0, k] c) : IsLowestCommon tree [m, k] c := by
  have up := getElem?_eq_getD hm
  constructor
  · simp only [List.forall_mem_cons]
    refine ⟨.head up (h.around _ (by simp)), h.around k (by simp), nofun⟩
  · intro a ha
    have around_m := ha m (by simp)
    have around_k := ha k (by simp)
    apply h.lowest
    simp only [List.forall_mem_cons]
    refine ⟨?_, around_k, nofun⟩
    obtain rfl | ⟨parent, step, rest⟩ := Relation.ReflTransGen.cases_head around_m
    · exact absurd (around_k.le root parent_lt) (by omega)
    · rw [up] at step
      cases step
      exact rest

theorem Climbs.isLowestCommon (h : Climbs tree m k c) (hm : m < tree.length) (hk : k < tree.length) :
    IsLowestCommon tree [m, k] c := by
  have inside : ∀ {x}, 0 < x → x < tree.length → tree.getD x 0 < tree.length := by
    intro x pos hx
    have := parent_lt x _ pos (getElem?_eq_getD hx)
    omega
  induction h with
  | same m => exact isLowestCommon_of_around .refl
  | left lt _ ih => exact .step root parent_lt lt hm (ih (inside (by omega) hm) hk)
  | right lt _ ih =>
    have raised := ih hm (inside (by omega) hk)
    exact (IsLowestCommon.step root parent_lt lt hk (raised.of_perm (.swap _ _ _))).of_perm (.swap _ _ _)

theorem isLowestCommon_meet (hm : m < tree.length) (hk : k < tree.length) :
    IsLowestCommon tree [m, k] (meet tree m k) :=
  (climbs_meet parent_lt hm hk).isLowestCommon root parent_lt hm hk

theorem lowestCommon_climbsTo (h₁ : m₁ < tree.length) (h₂ : m₂ < tree.length) (h₃ : m₃ < tree.length) :
    ClimbsTo tree m₁ m₂ m₃ (lowestCommon tree m₁ m₂ m₃) := by
  have inside := (isLowestCommon_meet root parent_lt h₁ h₂).around m₁ List.mem_cons_self
  have smaller := inside.le root parent_lt
  refine ⟨meet tree m₁ m₂, climbs_meet parent_lt h₁ h₂, ?_⟩
  rw [lowestCommon_eq h₁ h₂ h₃]
  split
  · exact climbs_meet parent_lt (by omega) h₃
  · rfl

theorem ClimbsTo.isLowestCommon (h : ClimbsTo tree m₁ m₂ m₃ c) (h₁ : m₁ < tree.length)
    (h₂ : m₂ < tree.length) (h₃ : m₃ < tree.length) : IsLowestCommon tree (asked m₁ m₂ m₃) c := by
  obtain ⟨m, first, second⟩ := h
  have two := first.isLowestCommon root parent_lt h₁ h₂
  have smaller := (two.around m₁ List.mem_cons_self).le root parent_lt
  unfold asked
  by_cases aside : m₃ = 0
  · rw [if_neg (by omega)] at second
    rw [if_pos aside, second]
    exact two
  · rw [if_neg aside]
    change IsLowestCommon tree ([m₁, m₂] ++ [m₃]) c
    refine two.append ?_
    split at second
    · exact second.isLowestCommon root parent_lt (by omega) h₃
    · obtain rfl : m = 0 := by omega
      rw [second]
      exact isLowestCommon_of_around (around_zero parent_lt h₃)

theorem lowestCommon_of_perm {n₁ n₂ n₃ : Nat} (h₁ : m₁ < tree.length) (h₂ : m₂ < tree.length)
    (h₃ : m₃ < tree.length) (k₁ : n₁ < tree.length) (k₂ : n₂ < tree.length) (k₃ : n₃ < tree.length)
    (hp : (asked n₁ n₂ n₃).Perm (asked m₁ m₂ m₃)) :
    lowestCommon tree n₁ n₂ n₃ = lowestCommon tree m₁ m₂ m₃ := by
  have lowest := lowestCommon_climbsTo root parent_lt h₁ h₂ h₃
  have lowest' := lowestCommon_climbsTo root parent_lt k₁ k₂ k₃
  have common := lowest.isLowestCommon root parent_lt h₁ h₂ h₃
  have common' := lowest'.isLowestCommon root parent_lt k₁ k₂ k₃
  exact (common'.of_perm hp).unique root parent_lt common

end Parents

/-- Climbing comes to the innermost loop around those that are asked for, whatever their order. -/
theorem lowestCommon_isLowestCommon {g h : Graph} {parents : List Nat}
    (hp : g.setLoopParents parents = .ok h) (h₁ : m₁ < h.loopTree.length)
    (h₂ : m₂ < h.loopTree.length) (h₃ : m₃ < h.loopTree.length) :
    ClimbsTo h.loopTree m₁ m₂ m₃ (lowestCommon h.loopTree m₁ m₂ m₃) ∧
    IsLowestCommon h.loopTree (asked m₁ m₂ m₃) (lowestCommon h.loopTree m₁ m₂ m₃) ∧
    lowestCommon h.loopTree m₂ m₁ m₃ = lowestCommon h.loopTree m₁ m₂ m₃ ∧
    (m₁ ≠ 0 → m₂ ≠ 0 → m₃ ≠ 0 → ∀ n₁ n₂ n₃, [n₁, n₂, n₃].Perm [m₁, m₂, m₃] →
      lowestCommon h.loopTree n₁ n₂ n₃ = lowestCommon h.loopTree m₁ m₂ m₃) := by
  obtain ⟨tree_eq, parent_lt⟩ := Graph.setLoopParents_eq_ok hp
  have root : h.loopTree[0]? = some 0 := by rw [tree_eq]; rfl
  have climbs := lowestCommon_climbsTo root parent_lt h₁ h₂ h₃
  refine ⟨climbs, climbs.isLowestCommon root parent_lt h₁ h₂ h₃, ?_, ?_⟩
  · exact lowestCommon_of_perm root parent_lt h₁ h₂ h₃ h₂ h₁ h₃ (.swap _ _ _)
  · intro z₁ z₂ z₃ n₁ n₂ n₃ perm
    have inside : ∀ n ∈ [n₁, n₂, n₃], n < h.loopTree.length ∧ n ≠ 0 := by
      intro n hn
      have given := perm.mem_iff.mp hn
      simp only [List.mem_cons, List.not_mem_nil, or_false] at given
      omega
    simp only [List.forall_mem_cons] at inside
    obtain ⟨⟨k₁, _⟩, ⟨k₂, _⟩, ⟨k₃, y₃⟩, _⟩ := inside
    apply lowestCommon_of_perm root parent_lt h₁ h₂ h₃ k₁ k₂ k₃
    simpa only [asked, z₃, y₃, if_false] using perm

theorem lowestCommon_nestedLoops :
    let tree := [0, 0, 1, 1, 3, 0]
    ClimbsTo tree 2 4 3 1 ∧ IsLowestCommon tree [2, 4, 3] 1 ∧
      lowestCommon tree 4 2 3 = 1 ∧ lowestCommon tree 3 4 2 = 1 := by
  have accepted : Graph.setLoopParents {} [0, 1, 1, 3, 0] = .ok { loopTree := [0, 0, 1, 1, 3, 0] } := rfl
  have found : lowestCommon [0, 0, 1, 1, 3, 0] 2 4 3 = 1 := by decide
  have inside : ∀ m < 6, m < [0, 0, 1, 1, 3, 0].length := fun _ h => h
  obtain ⟨climbs, lowest, swapped, permuted⟩ := lowestCommon_isLowestCommon accepted
    (inside 2 (by decide)) (inside 4 (by decide)) (inside 3 (by decide))
  rw [found] at climbs lowest swapped permuted
  refine ⟨climbs, lowest, swapped, permuted nofun nofun nofun 3 4 2 ?_⟩
  decide

end LoopTree

end AddressFormulas
