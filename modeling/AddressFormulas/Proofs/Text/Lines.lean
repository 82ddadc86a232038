import AddressFormulas.Text.Blank
import Mathlib.Data.List.DropRight

namespace AddressFormulas.Text

section Pieces

variable {p : Char → Bool}

theorem pieces_ne_nil (cs : List Char) : pieces p cs ≠ [] := by
  cases cs with
  | nil => simp [pieces]
  | cons c cs =>
    unfold pieces
    split
    · simp
    · split <;> simp

theorem pieces_append {c : Char} (hc : p c = true) (xs ys : List Char) :
    pieces p (xs ++ c :: ys) = pieces p xs ++ pieces p ys := by
  induction xs with
  | nil =>
    obtain ⟨w, ws, hys⟩ := List.exists_cons_of_ne_nil (pieces_ne_nil (p := p) ys)
    simp [pieces, hys, hc]
  | cons x xs ih =>
    obtain ⟨w, ws, hxs⟩ := List.exists_cons_of_ne_nil (pieces_ne_nil (p := p) xs)
    rw [List.cons_append, pieces, ih, pieces, hxs, List.cons_append]
    cases p x <;> rfl

theorem pieces_of_none {cs : List Char} (h : ∀ c ∈ cs, p c = false) : pieces p cs = [cs] := by
  induction cs with
  | nil => rfl
  | cons c cs ih =>
    obtain ⟨hc, hcs⟩ := List.forall_mem_cons.mp h
    simp [pieces, ih hcs, hc]

end Pieces

theorem isBlank_of_isDigit {c : Char} (hc : c.isDigit = true) : isBlank c = false := by
  simp only [Char.isDigit, Bool.and_eq_true, decide_eq_true_eq] at hc
  change 48 ≤ c.toNat ∧ c.toNat ≤ 57 at hc
  simp only [isBlank, blankRanges, List.any_cons, List.any_nil, Bool.or_false,
    Bool.or_eq_false_iff, Bool.and_eq_false_iff, decide_eq_false_iff_not]
  omega

theorem trim_eq_self {cs : List Char} (first : ∀ c, cs.head? = some c → isBlank c = false)
    (last : ∀ c, cs.getLast? = some c → isBlank c = false) : trim cs = cs := by
  have front : cs.dropWhile isBlank = cs := by
    refine List.dropWhile_eq_self_iff.mpr fun pos => ?_
    have := first cs[0] (by simp [List.head?_eq_getElem?])
    simp [this]
  change (cs.dropWhile isBlank).rdropWhile isBlank = cs
  rw [front]
  refine List.rdropWhile_eq_self_iff.mpr fun ne => ?_
  simp [last _ (List.getLast?_eq_some_getLast ne)]

theorem trim_trim (cs : List Char) : trim (trim cs) = trim cs := by
  -- what is left after the blanks in front are cut begins as it did before the cut at the end
  have front := List.dropWhile_eq_self_iff.mp (List.dropWhile_idempotent isBlank cs)
  have left : (trim cs).dropWhile isBlank = trim cs := by
    have kept : trim cs <+: cs.dropWhile isBlank := List.rdropWhile_prefix isBlank _
    refine List.dropWhile_eq_self_iff.mpr fun pos => ?_
    rw [kept.getElem pos]
    exact front _
  change ((trim cs).dropWhile isBlank).rdropWhile isBlank = trim cs
  rw [left]
  exact List.rdropWhile_idempotent isBlank _

/-- The lines of a text, without blanks at either end, a carriage return among them. What follows
the last line feed is a line only if it is not empty. -/
def rows (text : String) : List (List Char) :=
  (if (lines text).getLast? = some [] then (lines text).dropLast else lines text).map trim

end AddressFormulas.Text
