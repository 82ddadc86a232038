import Mathlib.Data.Option.Basic

namespace Option.Rel

variable {α β γ : Type} {R : α → β → Prop} {x y : Option α} {x' y' : Option β}

theorem isSome_eq (h : Rel R x x') : x'.isSome = x.isSome := by
  cases h with
  | none => rfl
  | some _ => rfl

theorem isNone_eq (h : Rel R x x') : x'.isNone = x.isNone := by
  rw [← not_isSome, ← not_isSome, h.isSome_eq]

theorem getD {a : α} {a' : β} (h : Rel R x x') (ha : R a a') : R (x.getD a) (x'.getD a') := by
  cases h with
  | none => exact ha
  | some h => exact h

theorem orElse (h : Rel R x x') (hy : Rel R y y') : Rel R (x <|> y) (x' <|> y') := by
  cases h with
  | none => exact hy
  | some h => exact .some h

theorem bind_self (c? : Option γ) {f : γ → Option α} {f' : γ → Option β}
    (h : ∀ c, Rel R (f c) (f' c)) : Rel R (c?.bind f) (c?.bind f') := by
  cases c? with
  | none => exact .none
  | some c => exact h c

end Option.Rel
