import AddressFormulas.Proofs.Base.Agreement
import AddressFormulas.Proofs.Stride.Agreement
import AddressFormulas.Proofs.Stride.Completion

namespace AddressFormulas

open WalkM
open Stride (spillLoop spillBases)

theorem agree_lax (settings : Settings) :
    Settings.Agree (fun _ => True) { settings with strict := true } { settings with strict := false } :=
  ⟨.inr ⟨rfl, fun _ => trivial⟩, rfl, rfl, rfl⟩

theorem Base.address_agree_lax (settings : Settings) (g : Graph) (b index : Nat) (opidx : Int) :
    Agree (fun _ => True) (fun _ => True)
      (Base.address { settings with strict := true } g b index opidx)
      (Base.address { settings with strict := false } g b index opidx) := by
  have hooks := Base.slicer_agree (g := g) (agree_lax settings) (B := fun _ => True) trivial
  have walks := (hooks.walk_and_follow (g := g) trivial (Nat.le_refl settings.depth)).1
  apply Base.address_agree (agree_lax settings) opidx rfl
  intro op _ reg
  exact walks _ reg _ trivial trivial

/-- What a strict slicer finds, one that is not strict finds too, from the same state and to the
same state: base addresses as well as strides. -/
theorem strict_refines_lax (settings : Settings) (g : Graph) (bases : OperandTable)
    (marker b index : Nat) (opidx : Int) :
    (∀ (f : Formula) (w w' : Walk BaseState),
      (Base.address { settings with strict := true } g b index opidx).run w = .ok f w' →
      (Base.address { settings with strict := false } g b index opidx).run w = .ok f w') ∧
    ∀ (f : Formula) (w w' : Walk StrideState),
      (Stride.operandStride ⟨{ settings with strict := true }, g, bases, marker⟩ b index opidx).run w =
        .ok f w' →
      (Stride.operandStride ⟨{ settings with strict := false }, g, bases, marker⟩ b index opidx).run w =
        .ok f w' := by
  constructor
  · intro f w w' run
    exact (Base.address_agree_lax settings g b index opidx).run_ok trivial run
  · intro f w w' run
    let task : Stride.Task := ⟨{ settings with strict := true }, g, bases, marker⟩
    have strides : Agree (fun _ => True) (fun _ => True) (Stride.operandStride task b index opidx)
        (Stride.operandStride { task with settings := { settings with strict := false } } b index opidx) :=
      Stride.operandStride_agree (agree_lax settings) trivial trivial (Nat.le_refl settings.depth) b index opidx
    exact strides.run_ok trivial run

theorem strict_refines_lax_spillLoop :
    (∃ f w, (Base.address { strict := true } spillLoop 1 1 0).run
        { client := { bases := spillBases } } = .ok f w ∧
      (Base.address {} spillLoop 1 1 0).run { client := { bases := spillBases } } = .ok f w) ∧
    ∃ f w, (Stride.operandStride ⟨{ strict := true }, spillLoop, spillBases, 1⟩ 1 1 0).run
        { client := {} } = .ok f w ∧
      (Stride.operandStride ⟨{}, spillLoop, spillBases, 1⟩ 1 1 0).run { client := {} } = .ok f w := by
  have both := strict_refines_lax {} spillLoop spillBases 1 1 1 0
  have base : answer? (Base.address { strict := true } spillLoop 1 1 0)
      { client := { bases := spillBases } } =
        some (.register ⟨0x10, 0⟩ ⟨.listed 0, 0, 63⟩ + .constant 8) := by
    decide +kernel
  have stride : answer? (Stride.operandStride ⟨{ strict := true }, spillLoop, spillBases, 1⟩ 1 1 0)
      { client := {} } = some ((Formula.constant 8).markLoad ⟨0x20, 0⟩) := by
    decide +kernel
  obtain ⟨w, hw⟩ := run_of_answer? base
  obtain ⟨w', hw'⟩ := run_of_answer? stride
  exact ⟨⟨_, w, hw, both.1 _ _ w hw⟩, _, w', hw', both.2 _ _ w' hw'⟩

end AddressFormulas
