import AddressFormulas.Data.Table
import Mathlib.Algebra.BigOperators.Group.List.Basic

namespace AddressFormulas.Table

open Std

variable {κ α : Type} [Ord κ]

section Lookup

variable [LawfulEqOrd κ]

theorem findEntry_insertEntry_self (k : κ) (a : α) (es : List (κ × α)) :
    findEntry k (insertEntry k a es) = some a := by
  induction es with
  | nil => simp [insertEntry, findEntry]
  | cons e es ih =>
    simp only [insertEntry]
    split
    · simp [findEntry]
    · simp [findEntry]
    · next h => simp [findEntry, h, ih]

theorem findEntry_insertEntry_of_ne {k k' : κ} (hk : k' ≠ k) (a : α) (es : List (κ × α)) :
    findEntry k' (insertEntry k a es) = findEntry k' es := by
  have hne : compare k' k ≠ .eq := fun h => hk (LawfulEqOrd.eq_of_compare h)
  induction es with
  | nil => simp [insertEntry, findEntry, hne]
  | cons e es ih =>
    simp only [insertEntry]
    split
    · simp [findEntry, hne]
    · next h =>
      have he : k = e.1 := LawfulEqOrd.eq_of_compare h
      simp [findEntry, hne, ← he]
    · simp [findEntry, ih]

theorem findEntry_eraseEntry_of_ne {k k' : κ} (hk : k' ≠ k) (es : List (κ × α)) :
    findEntry k' (eraseEntry k es) = findEntry k' es := by
  induction es with
  | nil => rfl
  | cons e es ih =>
    unfold eraseEntry
    split
    · next h =>
      have he : k = e.1 := LawfulEqOrd.eq_of_compare h
      have hne : compare k' e.1 ≠ .eq := fun h' => hk ((LawfulEqOrd.eq_of_compare h').trans he.symm)
      simp [findEntry, hne]
    · simp [findEntry, ih]

theorem get?_erase_of_ne {k k' : κ} (hk : k' ≠ k) (t : Table κ α) : (t.erase k).get? k' = t.get? k' :=
  findEntry_eraseEntry_of_ne hk t.entries

@[simp] theorem get?_insert_self (t : Table κ α) (k : κ) (a : α) : (t.insert k a).get? k = some a :=
  findEntry_insertEntry_self k a t.entries

theorem get?_insert_of_ne {k k' : κ} (hk : k' ≠ k) (t : Table κ α) (a : α) :
    (t.insert k a).get? k' = t.get? k' :=
  findEntry_insertEntry_of_ne hk a t.entries

theorem get?_insert [DecidableEq κ] (t : Table κ α) (k k' : κ) (a : α) :
    (t.insert k a).get? k' = if k' = k then some a else t.get? k' := by
  split
  · next h => rw [h, get?_insert_self]
  · next h => exact get?_insert_of_ne h t a

theorem getD_update [DecidableEq κ] (t : Table κ α) (k k' : κ) (d : α) (f : α → α) :
    (t.update k d f).getD k' d = if k' = k then f (t.getD k d) else t.getD k' d := by
  unfold update
  rw [getD, get?_insert]
  split <;> rfl

end Lookup

section Ascending

def Ascending (es : List (κ × α)) : Prop := es.Pairwise fun e f => compare e.1 f.1 = .lt

theorem mem_insertEntry {k : κ} {a : α} {e : κ × α} {es : List (κ × α)}
    (h : e ∈ insertEntry k a es) : e = (k, a) ∨ e ∈ es := by
  induction es with
  | nil => exact .inl (List.mem_singleton.mp h)
  | cons f es ih =>
    unfold insertEntry at h
    split at h
    · exact List.mem_cons.mp h
    · obtain h | h := List.mem_cons.mp h
      · exact .inl h
      · exact .inr (List.mem_cons_of_mem f h)
    · obtain rfl | h := List.mem_cons.mp h
      · exact .inr List.mem_cons_self
      · exact (ih h).imp id (List.mem_cons_of_mem f)

theorem insertEntry_perm {k : κ} {es : List (κ × α)} (h : findEntry k es = none) (a : α) :
    (insertEntry k a es).Perm ((k, a) :: es) := by
  induction es with
  | nil => exact .rfl
  | cons e es ih =>
    unfold findEntry at h
    split at h
    · cases h
    · next hne =>
      unfold insertEntry
      split
      · exact .rfl
      · next heq => exact absurd heq hne
      · exact ((ih h).cons e).trans (.swap ..)

theorem eraseEntry_sublist (k : κ) (es : List (κ × α)) : (eraseEntry k es).Sublist es := by
  induction es with
  | nil => exact .slnil
  | cons e es ih =>
    unfold eraseEntry
    split
    · exact List.sublist_cons_self e es
    · exact ih.cons_cons e

theorem Ascending.erase {es : List (κ × α)} (h : Ascending es) (k : κ) :
    Ascending (eraseEntry k es) :=
  h.sublist (eraseEntry_sublist k es)

variable {β : Type} [AddCommMonoid β] (weight : κ × α → β)

theorem sum_insertEntry_of_none {k : κ} {es : List (κ × α)} (h : findEntry k es = none) (a : α) :
    ((insertEntry k a es).map weight).sum = weight (k, a) + (es.map weight).sum :=
  ((insertEntry_perm h a).map weight).sum_eq

variable [LawfulEqOrd κ]

theorem mem_of_findEntry {k : κ} {a : α} {es : List (κ × α)} (h : findEntry k es = some a) :
    (k, a) ∈ es := by
  induction es with
  | nil => cases h
  | cons e es ih =>
    unfold findEntry at h
    split at h
    · next heq =>
      have : k = e.1 := LawfulEqOrd.eq_of_compare heq
      cases h
      subst this
      exact List.mem_cons_self
    · exact List.mem_cons_of_mem e (ih h)

theorem sum_eraseEntry {k : κ} {es : List (κ × α)} {a : α} (h : findEntry k es = some a) :
    ((eraseEntry k es).map weight).sum + weight (k, a) = (es.map weight).sum := by
  induction es with
  | nil => cases h
  | cons e es ih =>
    unfold findEntry at h
    unfold eraseEntry
    split at h
    · next heq =>
      have : k = e.1 := LawfulEqOrd.eq_of_compare heq
      cases h
      subst this
      simp only [heq, if_true, List.map_cons, List.sum_cons]
      rw [add_comm]
    · next hne =>
      simp only [hne, if_false, List.map_cons, List.sum_cons]
      rw [add_assoc, ih h]

variable [TransOrd κ]

theorem Ascending.insert {es : List (κ × α)} (h : Ascending es) (k : κ) (a : α) :
    Ascending (insertEntry k a es) := by
  induction es with
  | nil => exact List.pairwise_singleton _ _
  | cons e es ih =>
    obtain ⟨he, hes⟩ := List.pairwise_cons.mp h
    unfold insertEntry
    split
    · next hlt =>
      refine List.pairwise_cons.mpr ⟨fun f hf => ?_, h⟩
      obtain rfl | hf := List.mem_cons.mp hf
      · exact hlt
      · exact TransCmp.lt_trans hlt (he f hf)
    · next heq =>
      have : k = e.1 := LawfulEqOrd.eq_of_compare heq
      subst this
      exact List.pairwise_cons.mpr ⟨he, hes⟩
    · next hgt =>
      refine List.pairwise_cons.mpr ⟨fun f hf => ?_, ih hes⟩
      obtain rfl | hf := mem_insertEntry hf
      · exact OrientedCmp.lt_of_gt hgt
      · exact he f hf

theorem sum_insertEntry_of_some {k : κ} {es : List (κ × α)} (hes : Ascending es) {a : α}
    (h : findEntry k es = some a) (b : α) :
    ((insertEntry k b es).map weight).sum + weight (k, a) = weight (k, b) + (es.map weight).sum := by
  induction es with
  | nil => cases h
  | cons e es ih =>
    obtain ⟨he, hes⟩ := List.pairwise_cons.mp hes
    unfold findEntry at h
    unfold insertEntry
    split at h
    · next heq =>
      have : k = e.1 := LawfulEqOrd.eq_of_compare heq
      cases h
      subst this
      simp only [heq, List.map_cons, List.sum_cons]
      rw [add_assoc, add_comm (List.sum _)]
    · next hne =>
      -- the entry comes later, so its key is larger than the first one
      have hgt : compare k e.1 = .gt := OrientedCmp.gt_of_lt (he _ (mem_of_findEntry h))
      simp only [hgt, List.map_cons, List.sum_cons]
      rw [add_assoc, ih hes h, add_left_comm]

end Ascending

@[simp] theorem get?_empty (k : κ) : ({} : Table κ α).get? k = none := rfl

end AddressFormulas.Table

namespace AddressFormulas.KeySet

open Std

variable {κ : Type} [Ord κ] [LawfulEqOrd κ]

theorem contains_iff_mem_keys (s : KeySet κ) (k : κ) : s.contains k = true ↔ k ∈ s.keys := by
  constructor
  · intro h
    obtain ⟨a, ha⟩ := Option.isSome_iff_exists.mp h
    exact List.mem_map.mpr ⟨_, Table.mem_of_findEntry ha, rfl⟩
  · obtain ⟨es⟩ := s
    change k ∈ es.map Prod.fst → (Table.findEntry k es).isSome = true
    induction es with
    | nil => nofun
    | cons e es ih =>
      intro h
      unfold Table.findEntry
      split
      · rfl
      · next hne =>
        refine ih ((List.mem_cons.mp h).resolve_left ?_)
        rintro rfl
        exact hne ReflOrd.compare_self

theorem contains_add (s : KeySet κ) (k k' : κ) :
    (s.add k).contains k' = true ↔ k' = k ∨ s.contains k' = true := by
  unfold add Table.contains
  by_cases h : k' = k
  · subst h
    simp
  · simp [Table.get?_insert_of_ne h, h]

theorem contains_union (s t : KeySet κ) (k : κ) :
    (s.union t).contains k = true ↔ s.contains k = true ∨ t.contains k = true := by
  rw [contains_iff_mem_keys t, union]
  induction t.keys generalizing s with
  | nil => simp
  | cons k' ks ih =>
    rw [List.foldl_cons, ih, contains_add, List.mem_cons]
    tauto

end AddressFormulas.KeySet
