import AddressFormulas.Pending
import AddressFormulas.Proofs.Machine.Run
import Mathlib.Data.List.Perm.Basic

namespace AddressFormulas

variable {α : Type}

def puts (top : List (Register × α)) : List (Slot × α) :=
  top.map fun e => (.register e.1, e.2)

def IsPlain (r : Register) : Prop := r.isWhole = true ∧ r.canonical = r

theorem isPlain_canonical {r : Register} (h : r.isWhole = true) : IsPlain r.canonical :=
  ⟨Register.isWhole_canonical h, r.canonical_canonical⟩

theorem overlaps_plain {r s : Register} (hr : IsPlain r) (hs : IsPlain s) :
    r.overlaps s = true ↔ r = s := by
  rw [Register.overlaps_iff hr.1 hs.1, hr.2, hs.2]

theorem takeFirst?_puts {top : List (Register × α)} (vs : List (Slot × α))
    {r : Register} (hr : IsPlain r) (htop : ∀ e ∈ top, IsPlain e.1) (hm : r ∈ top.map Prod.fst) :
    ∃ a top', top.Perm ((r, a) :: top') ∧
      Pending.takeFirst? (Slot.overlaps r) (puts top ++ vs) =
        some ⟨.register r, a, ⟨puts top' ++ vs⟩⟩ := by
  induction top with
  | nil => simp at hm
  | cons e top ih =>
    obtain ⟨s, a⟩ := e
    have hs : IsPlain s := htop _ List.mem_cons_self
    have hit : Slot.overlaps r (.register s) = true ↔ s = r := overlaps_plain hs hr
    change ∃ a' top', _ ∧ Pending.takeFirst? _ ((Slot.register s, a) :: (puts top ++ vs)) = _
    unfold Pending.takeFirst?
    by_cases h : s = r
    · rw [if_pos (hit.mpr h)]
      subst h
      exact ⟨a, top, .rfl, rfl⟩
    · rw [if_neg (mt hit.mp h)]
      have hm' : r ∈ top.map Prod.fst := (List.mem_cons.mp hm).resolve_left fun he => h he.symm
      obtain ⟨a', top', hperm, htake⟩ := ih (fun e he => htop e (List.mem_cons_of_mem _ he)) hm'
      rw [htake]
      exact ⟨a', (s, a) :: top', (hperm.cons _).trans (.swap ..), rfl⟩

structure Supplies (P : Register → α → Prop) (rs : List Register) (top : List (Register × α)) :
    Prop where
  perm : (top.map Prod.fst).Perm rs
  plain : ∀ r ∈ rs, IsPlain r
  good : ∀ e ∈ top, P e.1 e.2

namespace Supplies

variable {P : Register → α → Prop} {r : Register} {rs rs' : List Register}
  {top : List (Register × α)}

theorem nil (h : Supplies P [] top) : top = [] := List.map_eq_nil_iff.mp (List.perm_nil.mp h.perm)

theorem congr (h : Supplies P rs top) (hp : rs.Perm rs') : Supplies P rs' top :=
  ⟨h.perm.trans hp, fun r hr => h.plain r (hp.mem_iff.mpr hr), h.good⟩

theorem take (h : Supplies P (r :: rs) top) (vs : List (Slot × α)) :
    ∃ a top', P r a ∧ top.Perm ((r, a) :: top') ∧ Supplies P rs top' ∧
      Pending.takeFirst? (Slot.overlaps r) (puts top ++ vs) =
        some ⟨.register r, a, ⟨puts top' ++ vs⟩⟩ := by
  have htop : ∀ e ∈ top, IsPlain e.1 := fun e he =>
    h.plain _ (h.perm.mem_iff.mp (List.mem_map_of_mem he))
  obtain ⟨a, top', hperm, htake⟩ := takeFirst?_puts vs (h.plain r List.mem_cons_self) htop
    (h.perm.mem_iff.mpr List.mem_cons_self)
  have rest : (top'.map Prod.fst).Perm rs :=
    List.Perm.cons_inv ((hperm.map Prod.fst).symm.trans h.perm)
  refine ⟨a, top', ?_, hperm, ⟨rest, fun r' hr' => h.plain r' (List.mem_cons_of_mem r hr'),
    fun e he => ?_⟩, htake⟩
  · exact h.good (r, a) (hperm.mem_iff.mpr List.mem_cons_self)
  · exact h.good e (hperm.mem_iff.mpr (List.mem_cons_of_mem _ he))

end Supplies

end AddressFormulas
