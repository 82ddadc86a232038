import AddressFormulas.Failure

namespace AddressFormulas

open Std

theorem compareOn_eq_eq {α β : Type} [Ord β] [LawfulEqOrd β] {f : α → β} {a b : α} :
    compareOn f a b = .eq ↔ f a = f b := by
  simp [compareOn]

instance : LawfulEqOrd Site where
  compare_self := by intro s; simp [compare, compareLex_eq_eq, compareOn_eq_eq]
  eq_of_compare := by
    intro s t h
    simp only [compare, compareLex_eq_eq, compareOn_eq_eq] at h
    cases s; cases t
    simp_all

instance : TransOrd Site := inferInstanceAs (TransCmp (compareLex _ _))

instance : LawfulEqOrd OperandId where
  compare_self := by intro s; simp [compare, compareLex_eq_eq, compareOn_eq_eq]
  eq_of_compare := by
    intro s t h
    simp only [compare, compareLex_eq_eq, compareOn_eq_eq] at h
    cases s; cases t
    simp_all

instance : TransOrd OperandId := inferInstanceAs (TransCmp (compareLex _ _))

theorem NameTable.entry_cls (i : Fin 89) :
    (entry i).cls ≠ .none ∧ (entry i).cls ≠ .temp := by
  revert i; decide

theorem RegisterClass.rank_injective {a b : RegisterClass} (h : a.rank = b.rank) : a = b := by
  cases a <;> cases b <;> first | rfl | (simp [rank] at h)

theorem RegisterName.eq_of_cls_index {a b : RegisterName} (hc : a.cls = b.cls)
    (hi : a.index = b.index) : a = b := by
  have table := NameTable.entry_cls
  cases a with
  | absent => cases b with
    | absent => rfl
    | listed i => exact absurd hc.symm (table i).1
    | temporary n => cases hc
  | listed i => cases b with
    | absent => exact absurd hc (table i).1
    | listed j => exact congrArg listed (Fin.ext hi)
    | temporary n => exact absurd hc (table i).2
  | temporary n => cases b with
    | absent => cases hc
    | listed j => exact absurd hc.symm (table j).2
    | temporary m => exact congrArg temporary hi

instance : LawfulEqOrd Register where
  compare_self := by intro r; simp [compare, compareLex_eq_eq, compareOn_eq_eq]
  eq_of_compare := by
    intro r s h
    simp only [compare, compareLex_eq_eq, compareOn_eq_eq] at h
    obtain ⟨hc, hi, hl, hm⟩ := h
    have hn := RegisterName.eq_of_cls_index (RegisterClass.rank_injective hc) hi
    cases r; cases s
    simp_all

instance : TransOrd Register := inferInstanceAs (TransCmp (compareLex _ _))

instance : LawfulEqOrd TermKey where
  compare_self := by intro k; simp [compare, compareLex_eq_eq, compareOn_eq_eq]
  eq_of_compare := by
    intro k l h
    simp only [compare, compareLex_eq_eq, compareOn_eq_eq] at h
    obtain ⟨hk, hp, hi, hn, hr⟩ := h
    have site : ∀ s t : Site, s.pc = t.pc → s.idx = t.idx → s = t := by
      rintro ⟨_, _⟩ ⟨_, _⟩ rfl rfl; rfl
    cases k with
    | call s target => cases l with
      | call t target' =>
        have : target = target' := Int.ofNat.inj hn
        rw [site s t hp hi, this]
      | _ => cases hk
    | reference a => cases l with
      | reference b => exact congrArg _ hn
      | _ => cases hk
    | stack a => cases l with
      | stack b => exact congrArg _ hn
      | _ => cases hk
    | load s r => cases l with
      | load t r' =>
        have : r = r' := hr
        rw [site s t hp hi, this]
      | _ => cases hk
    | register s r => cases l with
      | register t r' =>
        have : r = r' := hr
        rw [site s t hp hi, this]
      | _ => cases hk
    | constant => cases l with
      | constant => rfl
      | _ => cases hk

instance : TransOrd TermKey := inferInstanceAs (TransCmp (compareLex _ _))

end AddressFormulas
