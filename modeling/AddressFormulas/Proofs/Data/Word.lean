import AddressFormulas.Word

namespace AddressFormulas.Word

variable {x : Int}

theorem fits_iff : fits x = true ↔ -half ≤ x ∧ x < half := by
  simp [fits]

theorem fits_toInt (x : BitVec 64) : fits x.toInt = true := by
  have low := x.le_toInt
  have high := x.toInt_lt
  rw [fits_iff]
  simp only [half] at low high ⊢
  omega

theorem fits_wrap (x : Int) : fits (wrap x) = true := by
  have low := Int.le_bmod (x := x) (m := modulus) (by decide)
  have high := Int.bmod_lt (x := x) (m := modulus) (by decide)
  rw [fits_iff]
  simp only [wrap, half, modulus] at low high ⊢
  omega

theorem wrap_of_fits (h : fits x = true) : wrap x = x := by
  obtain ⟨low, high⟩ := fits_iff.mp h
  unfold half at low high
  apply Int.bmod_eq_of_le <;> simp only [modulus] <;> omega

theorem fits_mod_power (x : Nat) {n : Nat} (h : n ≤ 63) : fits (x % power n : Nat) = true := by
  have below : power n ≤ 2 ^ 63 := Nat.pow_le_pow_right (by decide) h
  have small : x % power n < 2 ^ 63 :=
    Nat.lt_of_lt_of_le (Nat.mod_lt _ (Nat.pow_pos (by decide))) below
  rw [fits_iff]
  simp only [half]
  omega

end AddressFormulas.Word
