import AddressFormulas.Proofs.Text.Numeral
import Mathlib.Data.List.TakeWhile

namespace AddressFormulas

def Register.IsListed (r : Register) : Prop :=
  ∃ i, r = ⟨.listed i, (NameTable.entry i).lsb, (NameTable.entry i).msb⟩

/-- The operands whose text says all about them: registers are written by their names, a scale
belongs to an index and is no negative number, and displacements are words other than the least. -/
structure MemoryOperand.Writable (m : MemoryOperand) : Prop where
  opidx : -0x80000000 ≤ m.opidx ∧ m.opidx ≤ 0x7fffffff
  base : ∀ r, m.base = some r → r.IsListed
  index : ∀ r, m.index = some r → r.IsListed
  scale : 0 ≤ m.scale ∧ m.scale < Word.half
  unscaled : m.index = none → m.scale = 1
  disp : -Word.half < m.disp ∧ m.disp < Word.half

namespace NameTable

theorem find?_text (i : Fin 89) : find? (entry i).text = some i := by
  revert i
  decide +kernel

theorem text_letters (i : Fin 89) : (entry i).text.toList.all Char.isAlphanum = true ∧
    (entry i).text.toList.head?.any (fun c => !c.isDigit) = true := by
  revert i
  decide +kernel

end NameTable

namespace Register

theorem text_listed (i : Fin 89) :
    text ⟨.listed i, (NameTable.entry i).lsb, (NameTable.entry i).msb⟩ = (NameTable.entry i).text := by
  simp [text, isNatural, RegisterName.text]

namespace IsListed

variable {r : Register} (hr : r.IsListed)

include hr

theorem ofName?_text : ofName? r.text = some r := by
  obtain ⟨i, rfl⟩ := hr
  rw [text_listed, ofName?, NameTable.find?_text]
  rfl

theorem not_mem_text {c : Char} (hc : c.isAlphanum = false) : c ∉ r.text.toList := by
  obtain ⟨i, rfl⟩ := hr
  rw [text_listed]
  intro hm
  rw [List.all_eq_true.mp (NameTable.text_letters i).1 c hm] at hc
  cases hc

theorem text_cons : ∃ c cs, r.text.toList = c :: cs ∧ c.isDigit = false := by
  obtain ⟨i, rfl⟩ := hr
  rw [text_listed]
  obtain ⟨c, hc, digit⟩ := (Option.any_eq_true _ _).mp (NameTable.text_letters i).2
  obtain ⟨cs, hcs⟩ := List.head?_eq_some_iff.mp hc
  exact ⟨c, cs, hcs, by simpa using digit⟩

end IsListed

end Register

namespace Notation

def Uncut (cs : List Char) : Prop := ∀ c ∈ cs, c ≠ '+' ∧ c ≠ '-' ∧ c ≠ ' '

def AtSign (cs : List Char) : Prop := (cutAtSigns cs).1 = []

theorem cutAtSigns_append {xs : List Char} (hx : Uncut xs) (cs : List Char) :
    cutAtSigns (xs ++ cs) = (xs ++ (cutAtSigns cs).1, (cutAtSigns cs).2) := by
  induction xs with
  | nil => rfl
  | cons x xs ih =>
    obtain ⟨⟨plus, minus, blank⟩, hrest⟩ := List.forall_mem_cons.mp hx
    simp only [List.cons_append, cutAtSigns, ih hrest, plus, minus, blank, if_false]

theorem parts_append {xs cs : List Char} (hx : Uncut xs) (hne : xs ≠ []) (hc : AtSign cs) :
    parts (xs ++ cs) = xs :: parts cs := by
  have first : (cutAtSigns cs).1 = [] := hc
  unfold parts
  rw [cutAtSigns_append hx]
  simp [first, hne]

theorem parts_plus (cs : List Char) : parts ('+' :: cs) = parts cs := by
  simp [parts, cutAtSigns]

theorem parts_minus {xs : List Char} (hx : Uncut xs) : parts ('-' :: xs) = ['-' :: xs] := by
  have whole := cutAtSigns_append hx []
  rw [List.append_nil] at whole
  simp [parts, cutAtSigns, whole]

theorem uncut_naturalChars (n : Nat) : Uncut (Numeral.naturalChars n) := by
  intro c hc
  have digit := Numeral.isDigit_of_mem_naturalChars hc
  refine ⟨?_, ?_, ?_⟩ <;> rintro rfl <;> exact absurd digit (by decide)

theorem uncut_text {r : Register} (hr : r.IsListed) : Uncut r.text.toList := by
  intro c hc
  refine ⟨?_, ?_, ?_⟩ <;> rintro rfl <;> exact hr.not_mem_text (by decide) hc

theorem parts_decimalChars (n : Int) : parts (Numeral.decimalChars n) = [Numeral.decimalChars n] := by
  unfold Numeral.decimalChars
  split
  · exact parts_minus (uncut_naturalChars _)
  · have whole := parts_append (uncut_naturalChars n.natAbs) (Numeral.naturalChars_ne_nil _)
      (show AtSign [] from rfl)
    rwa [List.append_nil] at whole

end Notation

namespace MemoryOperand

def basePart (m : MemoryOperand) : List (List Char) :=
  m.base.toList.map fun r => r.text.toList

def indexPart (m : MemoryOperand) : List (List Char) :=
  m.index.toList.map fun r => r.text.toList ++ '*' :: Numeral.decimalChars m.scale

def dispPart (m : MemoryOperand) : List (List Char) :=
  if (m.base.isSome ∨ m.index.isSome) ∧ m.disp = 0 then [] else [Numeral.decimalChars m.disp]

open Notation

theorem parts_dispChars (m : MemoryOperand) : parts m.dispChars = m.dispPart := by
  unfold dispChars dispPart
  cases m.base <;> cases m.index
  case none.none => simp [parts_decimalChars]
  all_goals
    by_cases zero : m.disp = 0
    · simp only [zero]
      rfl
    · by_cases sign : 0 ≤ m.disp
      · simp [zero, sign, parts_plus, parts_decimalChars]
      · simp [zero, sign, parts_decimalChars]

theorem atSign_dispChars {m : MemoryOperand} (h : m.base.isSome ∨ m.index.isSome) :
    AtSign m.dispChars := by
  have named : ¬(m.base.isNone && m.index.isNone) = true := by
    simpa [imp_iff_not_or, Option.isSome_iff_ne_none] using h
  unfold dispChars
  rw [if_neg named]
  split
  · rfl
  · split
    · rfl
    · next negative =>
      unfold Numeral.decimalChars
      rw [if_pos (Int.not_le.mp negative)]
      rfl

namespace Writable

variable {m : MemoryOperand} (hm : m.Writable)

include hm

theorem uncut_scaled {r : Register} (hi : m.index = some r) :
    Uncut (r.text.toList ++ '*' :: Numeral.decimalChars m.scale) := by
  have scale : Numeral.decimalChars m.scale = Numeral.naturalChars m.scale.natAbs :=
    if_neg (Int.not_lt.mpr hm.scale.1)
  rw [scale]
  intro c hc
  rcases List.mem_append.mp hc with name | factor
  · exact uncut_text (hm.index r hi) c name
  · rcases List.mem_cons.mp factor with rfl | digit
    · decide
    · exact uncut_naturalChars _ c digit

theorem parts_afterBase : parts (m.indexChars ++ m.dispChars) = m.indexPart ++ m.dispPart := by
  cases hi : m.index with
  | none => simp [indexChars, indexPart, hi, parts_dispChars]
  | some r =>
    have named : AtSign m.dispChars := atSign_dispChars (.inr (by simp [hi]))
    have cut := parts_append (hm.uncut_scaled hi) (by simp) named
    cases hb : m.base with
    | none => simpa [indexChars, indexPart, hi, hb, parts_dispChars] using cut
    | some b => simpa [indexChars, indexPart, hi, hb, parts_dispChars, parts_plus] using cut

theorem parts_text : parts (m.baseChars ++ m.indexChars ++ m.dispChars) =
    m.basePart ++ m.indexPart ++ m.dispPart := by
  rw [List.append_assoc, List.append_assoc, ← hm.parts_afterBase]
  cases hb : m.base with
  | none => simp [baseChars, basePart, hb]
  | some b =>
    have listed := hm.base b hb
    have named : b.text.toList ≠ [] := by
      obtain ⟨c, cs, htext, -⟩ := listed.text_cons
      simp [htext]
    have sign : AtSign (m.indexChars ++ m.dispChars) := by
      cases hi : m.index with
      | none => simpa [indexChars, hi] using atSign_dispChars (.inl (by simp [hb]))
      | some r =>
        simp only [indexChars, hi, hb]
        rfl
    simpa [baseChars, basePart, hb] using parts_append (uncut_text listed) named sign

end Writable

end MemoryOperand

namespace Notation

section Parts

variable (line : Nat) (text : String) {m : MemoryOperand} {r : Register}

theorem readRegister_text (hr : r.IsListed) :
    readRegister line (String.ofList r.text.toList) = .ok r := by
  unfold readRegister
  rw [String.ofList_toList, hr.ofName?_text]

theorem startsNumber_decimalChars (n : Int) : startsNumber (Numeral.decimalChars n) = true := by
  unfold Numeral.decimalChars
  split
  · rfl
  · unfold startsNumber
    split
    · next h => simp [Numeral.isDigit_of_mem_naturalChars (h ▸ List.mem_cons_self)]
    · next h => exact absurd h (Numeral.naturalChars_ne_nil _)

theorem startsNumber_text (hr : r.IsListed) (cs : List Char) :
    startsNumber (r.text.toList ++ cs) = false := by
  obtain ⟨c, rest, htext, digit⟩ := hr.text_cons
  have minus : c ≠ '-' := by
    rintro rfl
    exact hr.not_mem_text (by decide) (htext ▸ List.mem_cons_self)
  rw [htext]
  simp [startsNumber, minus, digit]

theorem ne_star_of_mem_text (hr : r.IsListed) : ∀ c ∈ r.text.toList, decide (c ≠ '*') = true := by
  intro c hc
  have star : c ≠ '*' := by
    rintro rfl
    exact hr.not_mem_text (by decide) hc
  exact decide_eq_true star

theorem splitAtStar?_text (hr : r.IsListed) : splitAtStar? r.text.toList = none := by
  have none_left : r.text.toList.dropWhile (· ≠ '*') = [] :=
    List.dropWhile_eq_nil_iff.mpr (ne_star_of_mem_text hr)
  unfold splitAtStar?
  rw [none_left]

theorem splitAtStar?_append (hr : r.IsListed) (cs : List Char) :
    splitAtStar? (r.text.toList ++ '*' :: cs) = some (r.text.toList, cs) := by
  unfold splitAtStar?
  rw [List.dropWhile_append_of_pos (ne_star_of_mem_text hr),
    List.takeWhile_append_of_pos (ne_star_of_mem_text hr)]
  simp

theorem addPart_number {n : Int} (hn : -Word.half < n ∧ n < Word.half) :
    addPart line text m (Numeral.decimalChars n) =
      .ok { m with disp := Word.wrap (m.disp + n) } := by
  unfold addPart
  rw [if_pos (startsNumber_decimalChars n), readNumber_decimalChars line hn]
  rfl

theorem addPart_base (hr : r.IsListed) (hb : m.base = none) :
    addPart line text m r.text.toList = .ok { m with base := some r } := by
  have starts := startsNumber_text hr []
  rw [List.append_nil] at starts
  unfold addPart
  simp only [starts, splitAtStar?_text hr, hb, readRegister_text line hr]
  rfl

theorem addPart_index (hr : r.IsListed) (hi : m.index = none) {k : Int}
    (hk : 0 ≤ k ∧ k < Word.half) :
    addPart line text m (r.text.toList ++ '*' :: Numeral.decimalChars k) =
      .ok { m with index := some r, scale := k } := by
  have range : -Word.half < k ∧ k < Word.half := by
    unfold Word.half at hk ⊢
    omega
  unfold addPart
  simp only [startsNumber_text hr, splitAtStar?_append hr, hi, readRegister_text line hr,
    readNumber_decimalChars line range]
  rfl

end Parts

theorem splitAtNumber?_none {cs : List Char} (h : ']' ∉ cs) : splitAtNumber? cs = none := by
  induction cs with
  | nil => rfl
  | cons c cs ih =>
    have first : c ≠ ']' := fun hc => h (hc ▸ List.mem_cons_self)
    have rest : ']' ∉ cs := fun hc => h (List.mem_cons_of_mem c hc)
    unfold splitAtNumber?
    rw [ih rest]
    split
    · next found => cases found
    · split
      · exact absurd rfl first
      · rfl

theorem splitAtNumber?_append (xs : List Char) {ds : List Char} (h : ']' ∉ ds) :
    splitAtNumber? (xs ++ ']' :: '@' :: ds) = some (xs, ds) := by
  induction xs with
  | nil =>
    have behind : ']' ∉ '@' :: ds := by simp [h]
    rw [List.nil_append, splitAtNumber?, splitAtNumber?_none behind]
  | cons x xs ih =>
    rw [List.cons_append]
    unfold splitAtNumber?
    rw [ih]

theorem openMemory_text (line : Nat) {m : MemoryOperand} (hm : m.Writable) :
    openMemory line m.text = .ok (m.baseChars ++ m.indexChars ++ m.dispChars, m.opidx) := by
  have rank : readRank line (String.ofList (Numeral.decimalChars m.opidx)) = .ok m.opidx := by
    have range : -Word.half < m.opidx ∧ m.opidx < Word.half := by
      have := hm.opidx
      unfold Word.half
      omega
    exact readBetween_decimalChars line range hm.opidx
  have number : splitAtNumber? m.text.toList =
      some ('[' :: (m.baseChars ++ m.indexChars ++ m.dispChars), Numeral.decimalChars m.opidx) := by
    rw [MemoryOperand.text, String.toList_ofList]
    exact splitAtNumber?_append _ (Numeral.not_mem_decimalChars (by decide) (by decide) _)
  unfold openMemory
  rw [number]
  simp only [rank]
  rfl

end Notation

namespace MemoryOperand

section Reading

variable (line : Nat) (whole : String) {m : MemoryOperand} (hm : m.Writable)

include hm

theorem Writable.foldlM_basePart :
    m.basePart.foldlM (Notation.addPart line whole) { opidx := m.opidx } =
      .ok { opidx := m.opidx, base := m.base } := by
  cases hb : m.base with
  | none =>
    rw [basePart, hb]
    rfl
  | some r =>
    rw [basePart, hb]
    simp only [Option.toList_some, List.map_cons, List.map_nil, List.foldlM_cons, List.foldlM_nil,
      Notation.addPart_base line whole (hm.base r hb)]
    rfl

theorem Writable.foldlM_indexPart :
    m.indexPart.foldlM (Notation.addPart line whole) { opidx := m.opidx, base := m.base } =
      .ok { opidx := m.opidx, base := m.base, index := m.index, scale := m.scale } := by
  cases hi : m.index with
  | none =>
    rw [indexPart, hi, hm.unscaled hi]
    rfl
  | some r =>
    have free : ({ opidx := m.opidx, base := m.base } : MemoryOperand).index = none := rfl
    rw [indexPart, hi]
    simp only [Option.toList_some, List.map_cons, List.map_nil, List.foldlM_cons, List.foldlM_nil,
      Notation.addPart_index line whole (hm.index r hi) free hm.scale]
    rfl

theorem Writable.foldlM_dispPart :
    m.dispPart.foldlM (Notation.addPart line whole) { m with disp := 0 } = .ok m := by
  unfold dispPart
  split
  · next h =>
    have same : { m with disp := 0 } = m := by rw [← h.2]
    rw [List.foldlM_nil, same]
    rfl
  · have word : Word.fits m.disp = true := Word.fits_iff.mpr ⟨hm.disp.1.le, hm.disp.2⟩
    rw [List.foldlM_cons, Notation.addPart_number line whole hm.disp]
    simp only [Int.zero_add, Word.wrap_of_fits word]
    rfl

/-- An operand is read back from its text. -/
theorem readMemory_text : Notation.readMemory line m.text = .ok m := by
  unfold Notation.readMemory
  rw [Notation.openMemory_text line hm]
  change (Notation.parts _).foldlM _ _ = _
  rw [hm.parts_text, List.foldlM_append, List.foldlM_append, hm.foldlM_basePart line m.text]
  change (m.indexPart.foldlM _ _ >>= fun m' => m.dispPart.foldlM _ m') = _
  rw [hm.foldlM_indexPart line m.text]
  exact hm.foldlM_dispPart line m.text

end Reading

theorem writable_elementOfTable : Writable
    { opidx := 1, base := some ⟨.listed 0, 0, 63⟩, index := some ⟨.listed 4, 0, 63⟩, scale := 4,
      disp := -16 } where
  opidx := by decide
  base := by
    rintro r ⟨⟩
    exact ⟨0, rfl⟩
  index := by
    rintro r ⟨⟩
    exact ⟨4, rfl⟩
  scale := by decide
  unscaled := nofun
  disp := by decide

theorem readMemory_text_elementOfTable : Notation.readMemory 3 "[rax+rbx*4-16]@1" = .ok
    { opidx := 1, base := some ⟨.listed 0, 0, 63⟩, index := some ⟨.listed 4, 0, 63⟩, scale := 4,
      disp := -16 } :=
  readMemory_text 3 writable_elementOfTable

end MemoryOperand

end AddressFormulas
