import AddressFormulas.Proofs.Stride.Values

namespace AddressFormulas.Stride

open WalkM

variable {task : Task}

abbrev M.Safe {α : Type} (m : M α) : Prop := WalkM.Safe m fun _ => ()

abbrev M.StopsOnly {α : Type} (m : M α) (E : Stop → Prop) : Prop :=
  WalkM.StopsOnly E (fun _ => ()) m

theorem unconcerned : Unconcerned (fun _ : Walk StrideState => ()) := ⟨fun _ _ => rfl, fun _ _ _ => rfl⟩

theorem congruence_stops {E : Stop → Prop} (hs : Tolerates E task.settings.strict) :
    Congruence task task.settings fun _ m _ => M.StopsOnly m E where
  toValueCongruence := unconcerned.congruence hs
  followSpills := rfl
  setStart _ := .change _ fun _ => rfl
  note _ _ _ := .modifyClient _ fun _ => rfl
  showValues := rfl
  read := .read
  modifyClient _ := .modifyClient _ fun _ => rfl
  leaveWindow _ := .report_gap hs rfl fun _ => rfl

theorem slicer_isSafe (hs : task.settings.strict = false) :
    (slicer task).IsSafe task.graph (fun _ => ()) := by
  have acts : Congruence task task.settings fun _ m _ => m.Safe := congruence_stops (tolerates_of_lax hs)
  exact
    { lax := hs
      unheard := fun _ _ => rfl
      unbounded := fun _ _ => rfl
      bound := fun _ => .ok _
      start := fun _ reg hp => acts.start reg (.require hp)
      enterOp := fun follow hf _ reg hu => acts.enterOp reg follow follow fun address => hf _ address hu
      leaveOp := fun u reg _ => acts.leaveOp u reg
      enterEdge := fun _ _ _ he _ => acts.enterEdge (.require (by simp [he]))
      leaveEdge := fun e _ => acts.leaveEdge e
      enterBlock := fun _ reg hb => acts.enterBlock reg (.require hb)
      leaveBlock := fun _ _ _ => acts.push _ _
      tryOthers := fun _ _ => .ok _
      fixedValue := fun reg u v => acts.fixedValue reg u v }

def NoWayAround (task : Task) (b : Nat) (stop : Stop) : Prop :=
  stop = .failed (.noCyclicPath b task.marker) ∧
    CyclicPath.find task.graph b task.marker = .error (.noCyclicPath b task.marker)

def StrideStop (task : Task) (b : Nat) (stop : Stop) : Prop :=
  stop.IsExhausted ∨ NoWayAround task b stop

theorem ensurePath_stops (b : Nat) (hb : (task.graph.block? b).isSome) :
    (ensurePath task b).StopsOnly (NoWayAround task b) := by
  refine .bind .client fun st => ?_
  split
  · exact .ok _
  · refine .bind (.modifyClient _ fun _ => rfl) fun _ => .bind (.require hb) fun _ => ?_
    refine .bind (.tellAll _ fun _ _ _ => rfl) fun _ => ?_
    cases hf : CyclicPath.find task.graph b task.marker with
    | ok path => exact .modifyClient _ fun _ => rfl
    | error f =>
      have : f = .noCyclicPath b task.marker := by
        unfold CyclicPath.find at hf
        split at hf <;> cases hf
        rfl
      subst this
      exact fun w => ⟨rfl, hf⟩

theorem startSlice_stops (hs : task.settings.strict = false) (hg : task.graph.WellFormed)
    (p : Position) (reg : Register) (bounds : Bounds) (hp : (task.graph.block? p.block).isSome) :
    (startSlice task p reg bounds).StopsOnly (StrideStop task p.block) := by
  have walks := ((slicer_isSafe hs).walk_and_follow hg task.settings.depth).1
  refine (congruence_stops (tolerates_of_lax hs)).startSlice reg ?_ ?_
  · exact (ensurePath_stops p.block hp).weaken fun _ => .inr
  · exact ((slicer_isSafe hs).sliceWith walks p reg bounds hp).weaken fun _ => .inl

theorem strideTerms_stops (hs : task.settings.strict = false) (hg : task.graph.WellFormed)
    (u : Placed) (hu : (task.graph.block? u.block).isSome) (terms : List (TermKey × Term))
    (sum : Formula) : (strideTerms task u terms sum).StopsOnly (StrideStop task u.block) := by
  have acts : Congruence task task.settings fun _ m _ => m.StopsOnly (StrideStop task u.block) :=
    congruence_stops (tolerates_of_lax hs)
  exact acts.strideTerms u acts.clear (fun reg => startSlice_stops hs hg _ reg _ hu) terms sum

theorem operandStride_stops (hs : task.settings.strict = false) (hg : task.graph.WellFormed)
    {b index : Nat} {opidx : Int} {block : Block} {op : MicroOp}
    (hb : task.graph.block? b = some block) (ho : block.ops[index]? = some op)
    (hm : ∃ m ∈ op.memoryOperands, m.opidx = opidx) :
    (operandStride task b index opidx).StopsOnly (StrideStop task b) := by
  obtain ⟨m, hm, hi⟩ := hm
  refine .require_bind hb (.require_bind ho ?_)
  split
  · next hn => exact absurd hi (by simpa using List.find?_eq_none.mp hn m hm)
  · exact .bind (strideTerms_stops hs hg _ (by simp [hb]) _ _) fun _ => .bind (.tell _ fun _ => rfl) fun _ => .ok _

end AddressFormulas.Stride
