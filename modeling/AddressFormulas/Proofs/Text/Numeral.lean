import AddressFormulas.Proofs.Data.Word
import AddressFormulas.Routine.Notation.Operand
import Mathlib.Data.Nat.Digits.Defs

namespace AddressFormulas.Numeral

theorem isDigit_of_mem_naturalChars {n : Nat} {c : Char} (hc : c ∈ naturalChars n) :
    c.isDigit = true :=
  Nat.isDigit_of_mem_toDigits (by decide) (by decide) hc

theorem naturalChars_ne_nil (n : Nat) : naturalChars n ≠ [] := Nat.toDigits_ne_nil

theorem decimalChars_natCast (n : Nat) : decimalChars n = naturalChars n := by
  unfold decimalChars
  rw [if_neg (by omega), Int.natAbs_natCast]

theorem not_mem_naturalChars {c : Char} (hc : c.isDigit = false) (n : Nat) : c ∉ naturalChars n := by
  intro hm
  rw [isDigit_of_mem_naturalChars hm] at hc
  cases hc

theorem not_mem_decimalChars {c : Char} (digit : c.isDigit = false) (minus : c ≠ '-') (n : Int) :
    c ∉ decimalChars n := by
  unfold decimalChars
  split
  · exact List.not_mem_cons_of_ne_of_not_mem minus (not_mem_naturalChars digit _)
  · exact not_mem_naturalChars digit _

theorem digitValue?_of_isDigit {c : Char} (hc : c.isDigit = true) :
    digitValue? 10 c = some (c.toNat - '0'.toNat) := by
  simp only [Char.isDigit, Bool.and_eq_true, decide_eq_true_eq] at hc
  have upper : c.toNat ≤ '9'.toNat := hc.2
  have small : c.toNat - '0'.toNat < 10 := by
    change c.toNat ≤ 57 at upper
    change c.toNat - 48 < 10
    omega
  have range : '0' ≤ c ∧ c ≤ '9' := hc
  unfold digitValue?
  rw [if_pos range]
  exact (Option.filter_some_pos (by simpa using small))

theorem readDigits?_of_digits {cs : List Char} (hcs : ∀ c ∈ cs, c.isDigit = true) (acc : Nat) :
    readDigits? 10 acc cs = some (Nat.ofDigitChars 10 cs acc) := by
  induction cs generalizing acc with
  | nil => simp [readDigits?]
  | cons c cs ih =>
    obtain ⟨hc, hrest⟩ := List.forall_mem_cons.mp hcs
    rw [readDigits?, digitValue?_of_isDigit hc, Option.bind_some, ih hrest, Nat.ofDigitChars_cons,
      Nat.mul_comm acc 10]

theorem readMagnitude?_naturalChars (n : Nat) : readMagnitude? 10 (naturalChars n) = some n := by
  unfold readMagnitude?
  split
  · next h => exact absurd h (naturalChars_ne_nil n)
  · rw [readDigits?_of_digits fun c => isDigit_of_mem_naturalChars]
    exact congrArg some Nat.ofDigitChars_ten_toDigits

theorem readNatural?_naturalChars (n : Nat) : readNatural? 10 (naturalChars n) = some n := by
  unfold readNatural?
  split
  · next h => exact absurd (h ▸ List.mem_cons_self) (not_mem_naturalChars (by decide) n)
  · exact readMagnitude?_naturalChars n

theorem readUnnegated?_naturalChars (n : Nat) :
    readUnnegated? (naturalChars n) = if (n : Int) < Word.half then some (n : Int) else none := by
  unfold readUnnegated?
  split
  · next h =>
    have hx : 'x' ∈ naturalChars n := by simp [h]
    exact absurd hx (not_mem_naturalChars (by decide) n)
  · unfold readSigned?
    split
    · next h => exact absurd (h ▸ List.mem_cons_self) (not_mem_naturalChars (by decide) n)
    · rw [readNatural?_naturalChars, Option.map_some]
      have low : -Word.half ≤ (n : Int) := by
        unfold Word.half
        omega
      simp [Option.filter_some, Word.fits, low]

theorem read?_decimalChars (n : Int) :
    read? (decimalChars n) = if -Word.half < n ∧ n < Word.half then some n else none := by
  unfold decimalChars
  split
  · next hn =>
    have range : (n.natAbs : Int) < Word.half ↔ -Word.half < n ∧ n < Word.half := by
      unfold Word.half
      omega
    change (readUnnegated? (naturalChars n.natAbs)).map (fun v => Word.wrap (-v)) = _
    simp only [readUnnegated?_naturalChars, range]
    split
    · next word =>
      have back : -(n.natAbs : Int) = n := by omega
      rw [Option.map_some, back, Word.wrap_of_fits (Word.fits_iff.mpr ⟨word.1.le, word.2⟩)]
    · rfl
  · next hn =>
    unfold read?
    split
    · next h => exact absurd (h ▸ List.mem_cons_self) (not_mem_naturalChars (by decide) _)
    · rw [readUnnegated?_naturalChars, Int.natAbs_of_nonneg (Int.not_lt.mp hn)]
      apply if_congr _ rfl rfl
      unfold Word.half
      omega

theorem fits_of_readUnnegated? {cs : List Char} {v : Int} (h : readUnnegated? cs = some v) :
    Word.fits v = true := by
  unfold readUnnegated? at h
  split at h
  · exact (Option.filter_eq_some_iff.mp h).2
  · exact (Option.filter_eq_some_iff.mp h).2

theorem fits_of_read? {cs : List Char} {v : Int} (h : read? cs = some v) : Word.fits v = true := by
  unfold read? at h
  split at h
  · obtain ⟨v, -, rfl⟩ := Option.map_eq_some_iff.mp h
    exact Word.fits_wrap _
  · exact fits_of_readUnnegated? h

end AddressFormulas.Numeral

namespace AddressFormulas.Notation

variable (line : Nat) {n : Int} (hn : -Word.half < n ∧ n < Word.half)

include hn

theorem readNumber_decimalChars :
    readNumber line (String.ofList (Numeral.decimalChars n)) = .ok n := by
  unfold readNumber
  rw [String.toList_ofList, Numeral.read?_decimalChars, if_pos hn]

theorem readBetween_decimalChars {low high : Int} (hrange : low ≤ n ∧ n ≤ high) :
    readBetween low high line (String.ofList (Numeral.decimalChars n)) = .ok n := by
  unfold readBetween
  rw [readNumber_decimalChars line hn]
  exact if_pos hrange

omit hn in
theorem lt_half_of_readNatural {text : String} {id : Nat} (h : readNatural line text = .ok id) :
    (id : Int) < Word.half := by
  unfold readNatural readUpTo readBetween readNumber at h
  split at h
  · next v hv =>
    change Except.map _ (if 0 ≤ v ∧ v ≤ 0xffffffffffffffff then _ else _) = _ at h
    split at h
    · next range =>
      cases h
      have word := (Word.fits_iff.mp (Numeral.fits_of_read? hv)).2
      omega
    · cases h
  · cases h

omit hn in
theorem readNatural_natural {id : Nat} (hid : (id : Int) < Word.half) :
    readNatural line (Numeral.natural id) = .ok id := by
  have word : -Word.half < (id : Int) := by
    unfold Word.half
    omega
  have range : (0 : Int) ≤ id ∧ (id : Int) ≤ 0xffffffffffffffff := by
    unfold Word.half at hid
    omega
  unfold readNatural readUpTo Numeral.natural
  rw [← Numeral.decimalChars_natCast, readBetween_decimalChars line ⟨word, hid⟩ range]
  rfl

end AddressFormulas.Notation
