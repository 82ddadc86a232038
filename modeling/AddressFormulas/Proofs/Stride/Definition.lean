import AddressFormulas.Proofs.Walk.Rules
import AddressFormulas.Stride.Slicer

namespace AddressFormulas.Stride

open WalkM

def settledFormula (u : MicroOp) (reg : Register) (v : StrideValue) : Formula :=
  if v.formula.overflow then (Formula.register u.site reg).markIrregular else v.formula

section Load

variable (task : Task) (follow : Slicer.FollowFor StrideState) (u : Placed) (reg : Register)

def searchSpill : M (Option StrideValue) :=
  match Slicer.loadBase? task.bases u.op with
  | some base => if task.settings.followSpills then spilledValue? follow u base else pure none
  | none => pure none

def unknownLoad : Formula :=
  match (Slicer.loadBase? task.bases u.op).bind Formula.constantValue? with
  | some c => .reference u.op.site c.value
  | none => .load u.op.site reg

def loadedAs (v? : Option StrideValue) (pr : Progress) : Progress :=
  match v? with
  | some v =>
    { pr with
      formula := some (v.formula.markLoad u.op.site)
      kind := v.kind
      target := v.target
      reuse := true }
  | none =>
    { pr with
      formula := some ((unknownLoad task u reg).markLoad u.op.site)
      kind := .invariant
      reuse := true }

def noteLoad : Option StrideValue → M Unit
  | some v => do
    WalkM.tell (.spilledValue u.op.pc v.formula)
    modifyProgress u.op.site (loadedAs task u reg (some v))
  | none => modifyProgress u.op.site (loadedAs task u reg none)

theorem resolveLoad_eq :
    resolveLoad task follow u reg = searchSpill task follow u >>= noteLoad task u reg := by
  unfold resolveLoad searchSpill
  extract_lets base? f notes
  have same : notes = noteLoad task u reg := by
    funext v?
    cases v? with
    | none => rfl
    | some v => rfl
  rw [← same]
  clear_value notes
  change _ = (match base? with | some base => _ | none => _ : M _) >>= _
  clear_value base?
  cases base? with
  | none => rfl
  | some base => exact (apply_ite (· >>= notes) _ _ _).symm

theorem noteLoad_updates (v? : Option StrideValue) : Updates (noteLoad task u reg v?)
    (·.modifyProgress u.op.site (loadedAs task u reg v?)) := by
  cases v? with
  | none => exact Updates.modifyClient fun st : StrideState =>
      st.modifyProgress u.op.site (loadedAs task u reg none)
  | some v => exact (Updates.tell (by nofun)).bind (.modifyClient _)

end Load

section Settled

variable (u : MicroOp) (reg : Register) (closing : Bool) (v : StrideValue) (f : Formula)

def settledAs (pr : Progress) : StrideKind × Nat :=
  let closed := closing && v.target = pr.visit
  (if closed then .stride else if closing then pr.kind else v.kind, if closed then 0 else v.target)

def recorded (entry : StrideKind × Nat) (st : StrideState) : StrideState :=
  ({ st with
    cycles := if closing then st.cycles.dropWhile (·.site = u.site) else st.cycles
  }.modifyProgress u.site fun pr =>
    { pr with
      formula := some f
      slice := st.session.slices
      kind := entry.1
      target := entry.2
      loopCount := 0 }).push reg (.definition u.site entry.2)

def settled (st : StrideState) : StrideState :=
  recorded u reg closing (settledFormula u reg v) (settledAs closing v (st.progressAt u.site)) st

end Settled

theorem settleDefinition_updates {task : Task} (u : Placed) (reg : Register) (closing : Bool)
    (v : StrideValue) :
    Updates (settleDefinition task u reg closing v) (settled u.op reg closing v) := by
  unfold settleDefinition
  extract_lets settle
  have records : ∀ f, Updates (settle f) fun st =>
      recorded u.op reg closing f (settledAs closing v (st.progressAt u.op.site)) st := by
    intro f
    refine .client (f := fun st =>
      recorded u.op reg closing f (settledAs closing v (st.progressAt u.op.site))) fun st => ?_
    exact (Updates.modifyClient _).bind <| (Updates.tell (by nofun)).bind <|
      (Updates.modifyClient _).bind <| .ite (fun _ => .client fun st => .tellValues st.values .source)
        fun _ => .ok
  unfold settled settledFormula
  split
  · exact (Updates.tell (by nofun)).bind (records _)
  · exact records _

end AddressFormulas.Stride
