import AddressFormulas.Data.Sorting
import Mathlib.Data.List.Perm.Basic

namespace AddressFormulas

variable {α : Type}

theorem insertBy_perm (le : α → α → Bool) (x : α) (xs : List α) :
    (insertBy le x xs).Perm (x :: xs) := by
  induction xs with
  | nil => exact .refl _
  | cons y ys ih =>
    simp only [insertBy]
    split
    · exact .refl _
    · exact (ih.cons y).trans (.swap x y ys)

theorem sortBy_perm (le : α → α → Bool) (xs : List α) : (sortBy le xs).Perm xs := by
  induction xs with
  | nil => exact .nil
  | cons x xs ih => exact (insertBy_perm le x _).trans (ih.cons x)

theorem mem_insertBy (le : α → α → Bool) (x y : α) (xs : List α) :
    y ∈ insertBy le x xs ↔ y = x ∨ y ∈ xs :=
  (insertBy_perm le x xs).mem_iff.trans List.mem_cons

theorem mem_sortBy (le : α → α → Bool) (y : α) (xs : List α) : y ∈ sortBy le xs ↔ y ∈ xs :=
  (sortBy_perm le xs).mem_iff

theorem sortBy_map {β : Type} {le : α → α → Bool} {le' : β → β → Bool} {f : α → β} {xs : List α}
    (h : ∀ x ∈ xs, ∀ y ∈ xs, le' (f x) (f y) = le x y) :
    sortBy le' (xs.map f) = (sortBy le xs).map f := by
  have insert : ∀ x ∈ xs, ∀ ys, (∀ y ∈ ys, y ∈ xs) →
      insertBy le' (f x) (ys.map f) = (insertBy le x ys).map f := by
    intro x hx ys hys
    induction ys with
    | nil => rfl
    | cons y ys ih =>
      have later := ih fun z hz => hys z (List.mem_cons_of_mem y hz)
      simp only [List.map_cons, insertBy, h x hx y (hys y List.mem_cons_self), later]
      split <;> rfl
  induction xs with
  | nil => rfl
  | cons x xs ih =>
    have inside : ∀ y ∈ xs, y ∈ x :: xs := fun y hy => List.mem_cons_of_mem x hy
    have later := ih (fun y hy z hz => h y (inside y hy) z (inside z hz))
      fun y hy ys hys => insert y (inside y hy) ys fun z hz => inside z (hys z hz)
    change insertBy le' (f x) (sortBy le' (xs.map f)) = (insertBy le x (sortBy le xs)).map f
    rw [later]
    exact insert x List.mem_cons_self _ fun y hy => inside y ((mem_sortBy le y xs).mp hy)

/-- If `R` orders the elements by `le` and by their places in `xs`, it orders the sorted list. -/
theorem pairwise_sortBy {le : α → α → Bool} {R : α → α → Prop} {xs : List α}
    (hle : ∀ x ∈ xs, ∀ y ∈ xs, le x y = false → R y x)
    (hmono : ∀ x ∈ xs, ∀ y ∈ xs, ∀ z ∈ xs, le x y = true → R y z → le x z = true)
    (hxs : xs.Pairwise fun x y => le x y = true → R x y) : (sortBy le xs).Pairwise R := by
  induction xs with
  | nil => exact .nil
  | cons x xs ih =>
    obtain ⟨hx, hrest⟩ := List.pairwise_cons.mp hxs
    have sorted := ih (fun y hy z hz => hle y (List.mem_cons_of_mem x hy) z
      (List.mem_cons_of_mem x hz)) (fun y hy z hz w hw => hmono y (List.mem_cons_of_mem x hy) z
      (List.mem_cons_of_mem x hz) w (List.mem_cons_of_mem x hw)) hrest
    have inside : ∀ y ∈ sortBy le xs, y ∈ xs := fun y hy => (mem_sortBy le y xs).mp hy
    change (insertBy le x (sortBy le xs)).Pairwise R
    -- what is left is to insert `x` into any list that is ordered by `R`
    generalize sortBy le xs = ys at sorted inside
    induction ys with
    | nil => exact List.pairwise_singleton R x
    | cons y ys ih' =>
      obtain ⟨hy, hys⟩ := List.pairwise_cons.mp sorted
      have my := inside y List.mem_cons_self
      have mys : ∀ z ∈ ys, z ∈ xs := fun z hz => inside z (List.mem_cons_of_mem y hz)
      simp only [insertBy]
      split
      · next h =>
        refine List.pairwise_cons.mpr ⟨fun z hz => ?_, sorted⟩
        obtain rfl | hz := List.mem_cons.mp hz
        · exact hx z my h
        · have := hmono x List.mem_cons_self y (List.mem_cons_of_mem x my) z
            (List.mem_cons_of_mem x (mys z hz)) h (hy z hz)
          exact hx z (mys z hz) this
      · next h =>
        refine List.pairwise_cons.mpr ⟨fun z hz => ?_, ih' hys mys⟩
        obtain rfl | hz := (mem_insertBy le x z ys).mp hz
        · exact hle z List.mem_cons_self y (List.mem_cons_of_mem z my) (by simpa using h)
        · exact hy z hz

section Preorder

variable {le : α → α → Bool} (htrans : ∀ x y z, le x y = true → le y z = true → le x z = true)

include htrans

theorem insertBy_filter {p : α → Bool} {x : α} (hx : p x = true) {ys : List α}
    (hys : ys.Pairwise fun y z => le y z = true) :
    insertBy le x (ys.filter p) = (insertBy le x ys).filter p := by
  induction ys with
  | nil => simp [insertBy, hx]
  | cons y ys ih =>
    obtain ⟨hy, hrest⟩ := List.pairwise_cons.mp hys
    by_cases hle : le x y = true
    · -- Whatever is left of the list comes after `x` as well.
      have first : ∀ zs : List α, (∀ z ∈ zs, le x z = true) → insertBy le x zs = x :: zs := by
        intro zs hzs
        cases zs with
        | nil => rfl
        | cons z zs => exact if_pos (hzs z List.mem_cons_self)
      have all : ∀ z ∈ y :: ys, le x z = true := by
        intro z hz
        obtain rfl | hz := List.mem_cons.mp hz
        · exact hle
        · exact htrans x y z hle (hy z hz)
      rw [first _ all, List.filter_cons_of_pos hx]
      exact first _ fun z hz => all z (List.mem_filter.mp hz).1
    · by_cases hp : p y = true
      · simp [insertBy, hle, hp, ih hrest]
      · simp [insertBy, hle, hp, ih hrest]

theorem sortBy_filter (htotal : ∀ x y, le x y = false → le y x = true) (p : α → Bool)
    (xs : List α) : sortBy le (xs.filter p) = (sortBy le xs).filter p := by
  induction xs with
  | nil => rfl
  | cons x xs ih =>
    change _ = (insertBy le x (sortBy le xs)).filter p
    have sorted : (sortBy le xs).Pairwise fun y z => le y z = true :=
      pairwise_sortBy (fun y _ z _ => htotal y z) (fun y _ z _ w _ => htrans y z w)
        (List.pairwise_of_forall fun _ _ h => h)
    by_cases hp : p x = true
    · rw [List.filter_cons_of_pos hp, ← insertBy_filter htrans hp sorted, ← ih]
      rfl
    · rw [List.filter_cons_of_neg hp, ih]
      generalize sortBy le xs = ys
      induction ys with
      | nil => simp [insertBy, hp]
      | cons y ys ih =>
        simp only [insertBy]
        split
        · simp [hp]
        · simp only [List.filter_cons, ih]

end Preorder

end AddressFormulas
