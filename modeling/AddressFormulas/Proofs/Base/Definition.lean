import AddressFormulas.Base.Slicer
import AddressFormulas.Proofs.Walk.Rules

namespace AddressFormulas.Base

open WalkM

section Programs

variable (settings : Settings) (g : Graph)

def define (k : Nat) (u : Placed) (reg : Register) : M Unit := do
  if ← enterOp settings ((slicer settings g).follow g k) u reg then
    (slicer settings g).sliceSources ((slicer settings g).walk g k) u u.op.sourceRegisters
  leaveOp settings g u reg

def prepare (k : Nat) (u : Placed) (reg : Register) : M Unit := do
  match ← WalkM.classify u.op with
  | .easy | .impossible => return ()
  | .normal =>
    if u.op.operation = .invalid then WalkM.tell (.unmodelledOperation u.op.pc)
    else (slicer settings g).sliceSources ((slicer settings g).walk g k) u u.op.sourceRegisters
  | .hard => resolveLoad settings ((slicer settings g).follow g k) u reg

def remember (u : Placed) (reg : Register) (f : Formula) : M Unit := do
  WalkM.tell (.definitionValue u.op.site reg f)
  WalkM.modifyClient fun st => { st with definitions := st.definitions.insert u.op.site f }
  push reg f
  if settings.showValues then
    WalkM.tellAll ((← WalkM.client).values.events .formula)

def settle (u : Placed) (reg : Register) (computed : Formula) : M Unit := do
  let f ←
    if computed.overflow then do
      WalkM.tell (.definitionOverflow u.op.site reg)
      pure (.register u.op.site reg)
    else pure computed
  remember settings u reg f

end Programs

def recorded (c : BaseState) (site : Site) (reg : Register) (f : Formula) : BaseState :=
  { c with definitions := c.definitions.insert site f, values := c.values.push reg f }

def valueOf (site : Site) (reg : Register) (computed : Formula) : Formula :=
  if computed.overflow then .register site reg else computed

theorem valueOf_plain {site : Site} {reg : Register} {f : Formula} (plain : f.overflow = false) :
    valueOf site reg f = f :=
  if_neg (by simp [plain])

theorem overflow_valueOf (site : Site) (reg : Register) (computed : Formula) :
    (valueOf site reg computed).overflow = false := by
  unfold valueOf
  split
  · rfl
  · next plain => simpa using plain

section Updates

variable (settings : Settings) (u : Placed) (reg : Register)

theorem remember_updates (f : Formula) :
    Updates (remember settings u reg f) (recorded · u.op.site reg f) :=
  (Updates.tell (by nofun)).bind <| (Updates.modifyClient _).bind <| (Updates.modifyClient _).bind <|
    .ite (fun _ => .client fun st => .tellValues st.values .formula) fun _ => .ok

theorem settle_updates (computed : Formula) :
    Updates (settle settings u reg computed)
      (recorded · u.op.site reg (valueOf u.op.site reg computed)) := by
  unfold settle valueOf
  split
  · exact (Updates.tell (by nofun)).bind (remember_updates settings u reg _)
  · exact remember_updates settings u reg computed

end Updates

variable {settings : Settings} {g : Graph} {u : Placed} {reg : Register} {w : Walk BaseState}

section Definition

variable (above : w.bounds.stop ≤ u.op.pc)

include above

theorem leaveOp_run_known {f : Formula} (known : w.client.definitions.get? u.op.site = some f) :
    leaveOp settings g u reg w = push reg f w := by
  change (if u.op.pc < w.bounds.stop then _ else _ : M Unit) w = _
  rw [if_neg (by omega), known]

theorem leaveOp_run_new (new : w.client.definitions.get? u.op.site = none) :
    leaveOp settings g u reg w = (definitionValue settings g u reg >>= settle settings u reg) w := by
  change (if u.op.pc < w.bounds.stop then _ else _ : M Unit) w = _
  rw [if_neg (by omega), new]
  rfl

theorem define_run_known {f : Formula} (known : w.client.definitions.get? u.op.site = some f)
    (k : Nat) : define settings g k u reg w = push reg f w := by
  have passed : enterOp settings ((slicer settings g).follow g k) u reg w = .ok false w := by
    change (if u.op.pc < w.bounds.stop ∨ _ then _ else _ : M Bool) w = _
    rw [if_pos (.inr (by simp [Table.contains, known]))]
    rfl
  exact (run_bind passed).trans (leaveOp_run_known above known)

theorem wp_define (new : w.client.definitions.get? u.op.site = none) {k : Nat}
    {Q : Unit → Walk BaseState → Prop} {E : Stop → Walk BaseState → Prop} :
    wp (define settings g k u reg) Q E w ↔
      wp (prepare settings g k u reg) (fun _ => wp (leaveOp settings g u reg) Q E) E w := by
  unfold define enterOp prepare
  simp only [wp_bind, wp_get]
  rw [if_neg (by simp [Table.contains, new, above])]
  simp only [wp_bind, wp_classify]
  cases u.op.effect with
  | easy => rfl
  | impossible => rfl
  | hard =>
    simp only [wp_bind]
    rfl
  | normal =>
    dsimp only
    by_cases hop : u.op.operation = .invalid
    · simp only [hop, if_true]
      rfl
    · simp only [hop, if_false, wp_pure, if_true, wp_bind]

end Definition

theorem wp_leaveOp_new (above : w.bounds.stop ≤ u.op.pc)
    (new : w.client.definitions.get? u.op.site = none) {Q : Unit → Walk BaseState → Prop}
    {E : Stop → Walk BaseState → Prop}
    (h : wp (definitionValue settings g u reg) (fun computed w' => ∀ journal, Q () { w' with
      client := recorded w'.client u.op.site reg (valueOf u.op.site reg computed), journal }) E w) :
    wp (leaveOp settings g u reg) Q E w := by
  apply (wp_congr (leaveOp_run_new above new)).mpr
  apply wp_bind.mpr
  apply wp_imp h
  intro computed w' hw'
  exact (settle_updates settings u reg computed).wp fun _ _ => hw' _

end AddressFormulas.Base
