import AddressFormulas.Proofs.Formula.Value

namespace AddressFormulas

theorem Indirection.merge_eq_none {i j : Indirection} :
    i.merge j = .none ↔ i = .none ∧ j = .none := by
  cases i <;> cases j <;> simp [merge]

theorem Access.merge_eq_empty {a b : Access} : a.merge b = {} ↔ a = {} ∧ b = {} := by
  obtain ⟨i, d⟩ := a
  obtain ⟨j, e⟩ := b
  simp only [merge, Access.mk.injEq, Bool.or_eq_false_iff, Indirection.merge_eq_none]
  tauto

namespace Formula

structure Clean (f : Formula) : Prop where
  settled : f.overflow = false
  unmarked : f.access = {}

variable {f g : Formula}

theorem access_addTerm (key : TermKey) (c : Coeff) (origin : Option Site) :
    (f.addTerm key c origin).access = f.access := by
  unfold addTerm
  split
  · rfl
  · split
    · rfl
    · split
      · rfl
      · split <;> rfl

theorem access_addTerms (es : List (TermKey × Term)) : (f.addTerms es).access = f.access := by
  induction es generalizing f with
  | nil => rfl
  | cons e es ih => exact ih.trans (access_addTerm _ _ _)

theorem access_add (f g : Formula) : (f + g).access = f.access.merge g.access := by
  change (f.addTerms g.terms.entries).access.merge g.access = _
  rw [access_addTerms]

theorem Clean.of_add (h : (f + g).Clean) : f.Clean ∧ g.Clean := by
  obtain ⟨hf, hg⟩ := overflow_of_add h.settled
  obtain ⟨hf', hg'⟩ := Access.merge_eq_empty.mp ((access_add f g).symm.trans h.unmarked)
  exact ⟨⟨hf, hf'⟩, ⟨hg, hg'⟩⟩

theorem Clean.of_neg (h : (-f).Clean) : f.Clean := ⟨overflow_of_mapCoeffs h.settled, h.unmarked⟩

theorem Clean.of_sub (h : (f - g).Clean) : f.Clean ∧ g.Clean := by
  obtain ⟨hf, hg⟩ : f.Clean ∧ (-g).Clean := Clean.of_add h
  exact ⟨hf, hg.of_neg⟩

end Formula

end AddressFormulas
