import AddressFormulas.Walk.Engine

namespace AddressFormulas

def Failure.isAboutSources : Failure → Bool
  | .unexpectedOperandCount .. | .missingOperand .. | .unexpectedRegisterClass .. => true
  | _ => false

theorem Failure.isCoverageGap_of_isAboutSources {f : Failure} (h : f.isAboutSources = true) :
    f.isCoverageGap = true := by
  cases f <;> first | rfl | cases h

def MicroOp.Fixes (u : MicroOp) (v : Int) : Prop :=
  (∃ r, u.hardwired? r = some v) ∨ u.sources = [.immediate v]

namespace Slicer

variable {σ : Type} {s s' : Slicer σ} {walk walk' : WalkFor σ} {u : Placed}
  {R : ∀ α : Type, WalkM σ α → WalkM σ α → Prop}

structure SourceCongruence (s s' : Slicer σ) (walk walk' : WalkFor σ) (u : Placed)
    (R : ∀ α : Type, WalkM σ α → WalkM σ α → Prop) : Prop where
  ok : ∀ {α : Type} (a : α), R α (pure a) (pure a)
  answer : ∀ {α : Type} {m m' : WalkM σ Unit} (a : α), R Unit m m' →
    R α (m >>= fun _ => pure a) (m' >>= fun _ => pure a)
  reported : ∀ {α : Type} {f : Failure} {m m' : WalkM σ α}, f.isAboutSources = true → R α m m' →
    R α (WalkM.report s.strict f >>= fun _ => m) (WalkM.report s'.strict f >>= fun _ => m')
  slice : ∀ reg, R Unit (s.sliceWith walk ⟨u.block, u.index⟩ reg ⟨u.op.pc, 0⟩)
    (s'.sliceWith walk' ⟨u.block, u.index⟩ reg ⟨u.op.pc, 0⟩)
  fixedValue : ∀ reg v, u.op.Fixes v → R Unit (s.fixedValue reg u.op v) (s'.fixedValue reg u.op v)

namespace SourceCongruence

variable (c : SourceCongruence s s' walk walk' u R)

include c

theorem sliceSource (source : Register) :
    R Unit (s.sliceSource walk u source) (s'.sliceSource walk' u source) := by
  unfold Slicer.sliceSource
  dsimp only
  split
  · exact c.ok _
  · split
    · next hv => exact c.fixedValue _ _ (.inl ⟨_, hv⟩)
    · split
      · exact c.reported rfl (c.slice _)
      · exact c.slice _

theorem sliceStored : R (Option Register) (s.sliceStored walk u) (s'.sliceStored walk' u) := by
  unfold Slicer.sliceStored
  dsimp only
  split
  · exact c.answer _ (c.slice _)
  · split
    · next hv => exact c.answer _ (c.fixedValue _ _ (.inl ⟨_, hv⟩))
    · split
      · exact c.reported rfl (c.answer _ (c.slice _))
      · exact c.answer _ (c.slice _)
  · next hv => exact c.answer _ (c.fixedValue _ _ (.inr hv))
  · exact c.reported rfl (c.ok _)
  · exact c.reported rfl (c.ok _)

end SourceCongruence

end Slicer

end AddressFormulas
