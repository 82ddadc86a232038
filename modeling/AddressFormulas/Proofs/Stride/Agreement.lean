import AddressFormulas.Proofs.Stride.Congruence
import AddressFormulas.Proofs.Walk.Agreement

namespace AddressFormulas.Stride

open WalkM

variable {task : Task} {settings : Settings} {E : Stop → Prop} {B : Nat → Prop}

theorem congruence_agree (hs : task.settings.Agree E settings) :
    Congruence task settings fun _ m m' => Agree E B m m' where
  ok := .ok
  bind := .bind
  client := .client
  tell e _ := .tell e
  report _ _ := .report hs.strict _
  claim _ := .claim _ _ _
  followSpills := hs.followSpills
  setStart _ := .change _ fun _ h => h
  note _ _ _ := .modifyClient _
  showValues := hs.showValues
  read := .read
  modifyClient := .modifyClient
  leaveWindow _ := .report hs.strict _

section Hooks

variable (hs : task.settings.Agree E settings)

include hs

theorem slicer_agree (hb : B 0) : (slicer task).Agree E B (slicer { task with settings }) := by
  have acts : Congruence task settings fun _ m m' => Agree E B m m' := congruence_agree hs
  exact
    { unbounded := hb
      strict := hs.strict
      bases := rfl
      bound := fun _ => .ok _
      start := fun _ reg => acts.start reg (.require _)
      enterOp := fun _ _ _ hf _ reg hu => acts.enterOp reg _ _ fun _ => hf _ _ hu
      leaveOp := fun u reg _ => acts.leaveOp u reg
      enterBlock := fun _ reg _ => acts.enterBlock reg (.require _)
      leaveBlock := fun _ _ _ => acts.push _ _
      fixedValue := fun reg u v => acts.fixedValue reg u v
      enterEdge := fun _ _ => acts.enterEdge (.require _)
      leaveEdge := fun e _ => acts.leaveEdge e
      tryOthers := fun _ _ => .ok _ }

theorem ensurePath_agree (b : Nat) :
    Agree E B (ensurePath task b) (ensurePath { task with settings } b) := by
  unfold ensurePath
  rw [hs.showPaths]
  refine .bind .client fun st => ?_
  split
  · exact .ok _
  · refine .bind (.modifyClient _) fun _ => .bind (.require _) fun _ => .bind (.tellAll _) fun _ => ?_
    dsimp only
    split
    · exact .fail _
    · exact .modifyClient _

variable (he : E .exhausted) (hb : B 0) (hd : task.settings.depth ≤ settings.depth)

include he hb hd

theorem startSlice_agree (p : Position) (reg : Register) (start : Nat) :
    Agree E B (startSlice task p reg ⟨start, 0⟩) (startSlice { task with settings } p reg ⟨start, 0⟩) := by
  have hooks : (slicer task).Agree E B (slicer { task with settings }) := slicer_agree hs hb
  have walks := (hooks.walk_and_follow (g := task.graph) he hd).1
  exact (congruence_agree hs).startSlice reg (ensurePath_agree hs p.block)
    (hooks.sliceWith walks p reg _ trivial hb)

theorem operandStride_agree (b index : Nat) (opidx : Int) :
    Agree E B (operandStride task b index opidx)
      (operandStride { task with settings } b index opidx) := by
  refine .bind (.require _) fun block => .bind (.require _) fun op => ?_
  split
  · exact .fail _
  · refine .bind ?_ fun sum => .bind (.tell _) fun _ => .ok _
    have acts : Congruence task settings fun _ m m' => Agree E B m m' := congruence_agree hs
    exact acts.strideTerms _ acts.clear (fun reg => startSlice_agree hs he hb hd _ reg _) _ _

end Hooks

end AddressFormulas.Stride
