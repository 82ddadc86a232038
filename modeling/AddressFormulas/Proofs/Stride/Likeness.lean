import AddressFormulas.Proofs.Data.Options
import AddressFormulas.Proofs.Data.Table
import AddressFormulas.Proofs.Formula.KeyOrder
import AddressFormulas.Proofs.Stride.Operations
import AddressFormulas.Stride.Slicer

namespace AddressFormulas

structure Progress.Alike (σ : KeySwap) (pr pr' : Progress) : Prop where
  same : pr' = { pr with formula := pr'.formula }
  formula : Option.Rel (Formula.Renamed σ) pr.formula pr'.formula

def ValueSource.Named (σ : KeySwap) (slot : Slot) (v : ValueSource) : Prop :=
  ∀ s target, v = .definition s target → ∀ r, slot.overlaps r = true → σ.site s r = s

structure StrideState.Alike (σ : KeySwap) (st st' : StrideState) : Prop where
  same : st' = { st with progress := st'.progress }
  progress : ∀ s, Option.Rel (Progress.Alike σ) (st.progress.get? s) (st'.progress.get? s)
  named : ∀ e ∈ st.values.newestFirst, e.2.Named σ e.1

namespace Progress.Alike

variable {σ : KeySwap} {pr pr' : Progress}

theorem empty : Progress.Alike σ {} {} := ⟨rfl, .none⟩

theorem eq_of_none (h : pr.Alike σ pr') (hf : pr.formula = none) : pr' = pr := by
  have formula := h.formula
  rw [hf] at formula
  rw [h.same]
  cases hf' : pr'.formula with
  | none => rw [← hf]
  | some f' =>
    rw [hf'] at formula
    cases formula

theorem eq_of_some {f : Formula} (h : pr.Alike σ pr') (hf : pr.formula = some f) :
    pr' = { pr with formula := some (pr'.formula.getD .zero) } ∧
      f.Renamed σ (pr'.formula.getD .zero) := by
  have formula := h.formula
  have same := h.same
  rw [hf] at formula
  cases hf' : pr'.formula with
  | none =>
    rw [hf'] at formula
    cases formula
  | some f' =>
    rw [hf'] at formula same
    cases formula with
    | some renamed => exact ⟨same, renamed⟩

end Progress.Alike

namespace StrideState.Alike

variable {σ : KeySwap} {st st' : StrideState} (h : st.Alike σ st')

theorem empty (σ : KeySwap) : StrideState.Alike σ {} {} := ⟨rfl, fun _ => .none, nofun⟩

include h

theorem progressAt (s : Site) : (st.progressAt s).Alike σ (st'.progressAt s) :=
  (h.progress s).getD .empty

theorem modifyProgress (s : Site) {f f' : Progress → Progress}
    (hf : ∀ pr pr', pr.Alike σ pr' → (f pr).Alike σ (f' pr')) :
    (st.modifyProgress s f).Alike σ (st'.modifyProgress s f') := by
  constructor
  · rw [h.same]
    rfl
  · intro s'
    change Option.Rel _ ((st.progress.insert s _).get? s') ((st'.progress.insert s _).get? s')
    rw [Table.get?_insert, Table.get?_insert]
    split
    · exact .some (hf _ _ (h.progressAt s))
    · exact h.progress s'
  · exact h.named

theorem change {f : StrideState → StrideState}
    (hf : ∀ st progress, f { st with progress } = { f st with progress })
    (hv : ∀ e ∈ (f st).values.newestFirst, e.2.Named σ e.1) : (f st).Alike σ (f st') := by
  have kept : ∀ st, (f st).progress = st.progress := by
    intro st
    have eq := hf st st.progress
    rw [eq]
  constructor
  · rw [kept, h.same]
    exact hf st st'.progress
  · rw [kept, kept]
    exact h.progress
  · exact hv

theorem push (reg : Register) {v : ValueSource} (hv : v.Named σ (.register reg)) :
    (st.push reg v).Alike σ (st'.push reg v) := by
  apply h.change (fun _ _ => rfl)
  intro e he
  change e ∈ (st.values.push reg v).newestFirst at he
  unfold Pending.push at he
  split at he
  · exact h.named e he
  · obtain rfl | he := List.mem_cons.mp he
    · exact hv
    · exact h.named e he

theorem strideOf (source : ValueSource) : (st.strideOf source).Renamed σ (st'.strideOf source) := by
  unfold StrideState.strideOf
  cases source with
  | outside => exact .zero
  | definition s target =>
    have known := h.progress s
    dsimp only
    generalize st.progress.get? s = pr?, st'.progress.get? s = pr'? at known ⊢
    cases known with
    | none => exact .zero
    | @some pr pr' known =>
      have formula := known.formula
      rw [known.same]
      obtain ⟨_, _, f?, kind, _, _, _, _⟩ := pr
      dsimp only at formula ⊢
      generalize pr'.formula = f'? at formula ⊢
      cases formula with
      | none => exact .zero
      | some hf =>
        dsimp only
        split
        · exact Formula.Renamed.zero.inheritAccess hf.irregular
        · exact hf

end StrideState.Alike

namespace Stride

open WalkM

abbrev M.FollowedBy {α : Type} (spoils : Event → Prop) (σ : KeySwap) (live : Prop)
    (V : α → α → Prop) (m m' : M α) : Prop :=
  WalkM.FollowedBy spoils (StrideState.Alike σ) live V m m'

variable {α : Type} {spoils : Event → Prop} {σ : KeySwap} {live : Prop}

theorem push_follows (reg : Register) {v v' : ValueSource} (hv : live → v' = v)
    (named : v.Named σ (.register reg)) :
    M.FollowedBy spoils σ live Eq (push reg v) (push reg v') :=
  .modifyClient fun l _ _ h => by
    rw [hv l]
    exact h.push reg named

theorem push_outside (reg : Register) :
    M.FollowedBy spoils σ live Eq (push reg .outside) (push reg .outside) :=
  push_follows reg (fun _ => rfl) nofun

theorem modifyProgress_follows (s : Site) {f f' : Progress → Progress}
    (hf : live → ∀ pr pr', pr.Alike σ pr' → (f pr).Alike σ (f' pr')) :
    M.FollowedBy spoils σ live Eq (modifyProgress s f) (modifyProgress s f') :=
  .modifyClient fun l _ _ h => h.modifyProgress s (hf l)

theorem known_follows {V : α → α → Prop} {p p' : Option Progress → M α} {pr? pr'? : Option Progress}
    (h : live → Option.Rel (Progress.Alike σ) pr? pr'?)
    (bare : ∀ pr?, pr?.bind Progress.formula = none → M.FollowedBy spoils σ live V (p pr?) (p' pr?))
    (known : ∀ {live'}, (live' → live) → ∀ (pr : Progress) f f', (live' → f.Renamed σ f') →
      M.FollowedBy spoils σ live' V (p (some { pr with formula := some f }))
        (p' (some { pr with formula := some f' }))) :
    M.FollowedBy spoils σ live V (p pr?) (p' pr'?) := by
  apply Follows.option h
  · exact bare none rfl
  · intro live' hl pr pr' alike
    cases hf : pr.formula with
    | none =>
      refine Follows.same (fun l => congrArg some ((alike l).eq_of_none hf)) p' ?_
      exact (bare (some pr) hf).weaken hl
    | some f =>
      refine Follows.same (fun l => congrArg some ((alike l).eq_of_some hf).1) p' ?_
      have named : pr = { pr with formula := some f } := by rw [← hf]
      have follows := known hl pr f (pr'.formula.getD .zero) fun l => ((alike l).eq_of_some hf).2
      rwa [← named] at follows

theorem claim_follows (reg : Register) : M.FollowedBy spoils σ live
    (fun v v' => v' = v ∧ ∀ s target, v = some (.definition s target) → σ.site s reg = s)
    (claim reg) (claim reg) := by
  have claims : M.FollowedBy spoils σ live
      (Option.Rel fun v v' => ∃ slot, Slot.overlaps reg slot = true ∧ v' = v ∧ v.Named σ slot)
      (claim reg) (claim reg) := by
    apply FollowedBy.claim
    · intro st st' h
      exact Pending.Alike.eq_iff.mpr ⟨by rw [h.same], h.named⟩
    · intro st st' p p' h hp
      obtain ⟨rfl, named⟩ := Pending.Alike.eq_iff.mp hp
      exact ⟨by rw [h.same], h.progress, named⟩
  apply claims.mono
  intro v v' hv
  cases hv with
  | none => exact ⟨rfl, nofun⟩
  | some hv =>
    obtain ⟨slot, wanted, rfl, named⟩ := hv
    exact ⟨rfl, fun s target h => named s target (Option.some.inj h) reg wanted⟩

end Stride

end AddressFormulas
