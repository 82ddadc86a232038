import AddressFormulas.Proofs.Stride.Recovery
import AddressFormulas.Proofs.Stride.Turn

namespace AddressFormulas.Stride

open WalkM Formula Loop Skeleton

theorem strideOf_definition {s : StrideState} {site : Site} {f : Formula}
    (h : (s.progressAt site).formula = some f) (target : Nat) :
    s.strideOf (.definition site target) =
      if (s.progressAt site).kind = .invariant then zero.inheritAccess f else f := by
  unfold StrideState.progressAt Table.getD at *
  unfold StrideState.strideOf
  cases hp : s.progress.get? site with
  | none => simp [hp] at h
  | some pr =>
    obtain ⟨_, _, formula, _⟩ := pr
    simp only [hp, Option.getD_some] at h ⊢
    subst h
    rfl

theorem ends_and {α : Type} {m : M α} {Q Q' : α → Walk StrideState → Prop} {w : Walk StrideState}
    (h : yields m Q w) (h' : ends m Q' w) : ends m (fun a w' => Q a w' ∧ Q' a w') w := by
  unfold yields ends wp at *
  split
  · next run =>
    rw [run] at h h'
    exact ⟨h, h'⟩
  · next run =>
    rw [run] at h'
    exact h'

section Register

variable {w : Walk StrideState} {reg : Register} {source : ValueSource}

theorem registerStride_sole (hr : IsPlain reg)
    (hvalues : (ledger w).values = [(.register reg, source)]) :
    ends (registerStride reg) (fun f _ => ∃ w₁ : Walk StrideState,
      (ledger w₁).notes = (ledger w).notes ∧ f = w₁.client.strideOf source) w := by
  have supplies : Supplies (fun _ s => s = source) [reg] [(reg, source)] :=
    ⟨.refl _, by simpa using hr, by simp⟩
  have pending : ledger w = { ledger w with values := puts [(reg, source)] ++ [] } :=
    congrArg (fun vs => { ledger w with values := vs }) hvalues
  refine wp_bind.mpr (wp_imp (ends_and (claim_supplied supplies pending)
    (claim_neutral reg w)) ?_)
  rintro _ w₁ ⟨⟨claimed, _, rfl, rfl, _, _, h₁⟩, _⟩
  have answer : ∃ w₂ : Walk StrideState, (ledger w₂).notes = (ledger w).notes ∧
      w₁.client.strideOf claimed = w₂.client.strideOf claimed := ⟨w₁, by rw [h₁], rfl⟩
  refine wp_bind.mpr ?_
  simp only [wp_client]
  split
  · split
    · exact wp_bind.mpr answer
    · exact answer
  · exact answer

end Register

section Slice

variable {task : Task} {b : Nat} {block : Block} {k : Nat} {reg : Register}
  {w : Walk StrideState} {session : StrideSession} {u : MicroOp} {R : Formula → Prop}

theorem quiet_fresh {p : CyclicPath} (hw : w.client = { path := some p, session }) :
    (skeleton w).Quiet p False where
  path := .inr (by simp only [skeleton, hw])
  clean := False.elim
  idle s := by
    simp only [skeleton, hw]
    rfl
  cycles := by simp only [skeleton, hw]
  backEdges := by simp only [skeleton, hw]

theorem slice_first {α : Type} {p : CyclicPath} {low top : Nat} (hset : Setting task p low top)
    (ha : Alone task p b block) {P : α → Ledger → Nat → Register → Prop}
    {Q : α → Ledger → Nat → Register → Ledger → Prop}
    (hwalks : WalkYields task p low b block P Q task.settings.depth) (hu : block.ops[k]? = some u)
    (hdepth : sufficientDepth task.graph ≤ task.settings.depth)
    (hw : w.client = { path := some p, session }) {a : α} (hp : P a (ledger w) k reg) :
    ends (slice task ⟨b, k⟩ reg ⟨u.pc, 0⟩) (fun _ w' => Q a (ledger w) k reg (ledger w') ∧
      ∀ site, ((ledger w').notes site).loopCount = 0) w := by
  have quiet := quiet_fresh hw
  have hop := Graph.op?_eq_some.mpr ⟨block, ha.block_eq, hu⟩
  have inv := quiet.inv (by simp only [skeleton, hw])
  have behind := quiet.behind task.graph b k
  have deep : idle task.graph (skeleton w) * stretch task.graph + reach task.graph <
      task.settings.depth := by
    have all : idle task.graph (skeleton w) ≤ (task.graph.blocks.flatMap Block.ops).length :=
      List.countP_le_length
    have enough := Nat.mul_le_mul_right (stretch task.graph) all
    unfold sufficientDepth at hdepth
    omega
  refine wp_imp (ends_and (slice_yields hset ha hwalks hu inv behind deep hp)
    (slice_ends hset (walk_and_follow_end hset task.settings.depth).1 reg 0 hop ha.mem inv behind
      deep)) ?_
  rintro _ w' ⟨left, served⟩
  exact ⟨left, (quiet.served served).idle⟩

def addressStride (u : MicroOp) (reg : Register) (f : Formula) : Formula :=
  if (zero + f.scale .one).overflow then zero + (Formula.register u.site reg).markIrregular
  else zero + f.scale .one

section Single

variable {E : Stop → Prop} (hb : task.graph.block? b = some block)
  (hway : CyclicPath.build? task.graph b task.marker = none → E (.failed (.noCyclicPath b task.marker)))

include hb hway in
theorem ensurePath_fresh (hw : w.client = { session }) :
    wp (ensurePath task b) (fun _ w' => ∃ p, CyclicPath.build? task.graph b task.marker = some p ∧
      w'.client = { path := some p, session }) (fun stop _ => E stop) w := by
  refine wp_bind.mpr ?_
  simp only [wp_client, hw, Option.any_none, Bool.false_eq_true, if_false, wp_bind, wp_modifyClient,
    hb, wp_require_some, wp_tellAll]
  unfold CyclicPath.find
  cases hp : CyclicPath.build? task.graph b task.marker with
  | none => exact hway hp
  | some p => exact ⟨p, rfl, rfl⟩

variable (hslice : ∀ {p session} {w : Walk StrideState},
    CyclicPath.build? task.graph b task.marker = some p → w.client = { path := some p, session } →
    wp (slice task ⟨b, k⟩ reg ⟨u.pc, 0⟩)
      (fun _ w' => wp (registerStride reg) (fun f _ => R f) (fun stop _ => E stop) w')
      (fun stop _ => E stop) w)
  (hw : w.client = { session })

include hb hway hslice hw

theorem startSlice_single : wp (startSlice task ⟨b, k⟩ reg ⟨u.pc, 0⟩)
    (fun _ w' => wp (registerStride reg) (fun f _ => R f) (fun stop _ => E stop) w')
    (fun stop _ => E stop) w := by
  refine wp_bind.mpr ?_
  simp only [wp_client, hw, List.isEmpty_nil, Bool.not_true, Bool.false_eq_true, if_false]
  refine wp_bind.mpr (wp_bind.mpr (wp_imp (ensurePath_fresh hb hway
    (show _ = ({ session := ⟨0, session.slices + 1⟩ } : StrideState) by simp [hw])) ?_))
  rintro _ w₁ ⟨p, hp, hw₁⟩
  exact hslice hp hw₁

variable (hr : IsPlain reg)

include hr

theorem strideTerms_single (origin : Option Site) :
    wp (strideTerms task ⟨b, k, u⟩ [(.register u.site reg, ⟨.one, origin⟩)] .zero)
      (fun g _ => ∃ f, R f ∧ g = addressStride u reg f) (fun stop _ => E stop) w := by
  unfold strideTerms
  simp only [Base.hardwired?_of_whole hr.1, Option.isSome_none, Bool.false_eq_true, if_false]
  refine wp_bind.mpr (wp_bind.mpr ?_)
  simp only [wp_modify, wp_modifyClient]
  refine wp_bind.mpr (wp_imp (startSlice_single hb hway hslice
    (show _ = ({ session := { session with visits := 0 } } : StrideState) by simp [hw])) ?_)
  intro _ w₁ h₁
  refine wp_bind.mpr (wp_imp h₁ fun f w₂ hf => ?_)
  split
  · next ho => exact wp_bind.mpr ⟨f, hf, (if_pos ho).symm⟩
  · next ho => exact ⟨f, hf, (if_neg ho).symm⟩

theorem operandStride_single {m : MemoryOperand} (hu : block.ops[k]? = some u)
    (hm : u.memoryOperands = [m]) (haddress : (u.addressFormula m).terms.entries =
      [(.register u.site reg, ⟨.one, some u.site⟩)]) :
    wp (operandStride task b k m.opidx) (fun g _ => ∃ f, R f ∧ g = addressStride u reg f)
      (fun stop _ => E stop) w := by
  refine wp_bind.mpr ?_
  simp only [hb, wp_require_some, wp_bind, hu, hm, List.find?_cons_of_pos, decide_true]
  rw [haddress]
  refine wp_imp (strideTerms_single hb hway hslice hw hr _) fun sum w₁ h₁ => ?_
  exact wp_bind.mpr h₁

end Single

theorem operandStride_interrupted {p : CyclicPath} (hb : task.graph.block? b = some block)
    (hp : CyclicPath.build? task.graph b task.marker = some p) (hw : w.client = { session })
    (hr : IsPlain reg) {m : MemoryOperand} (hu : block.ops[k]? = some u)
    (hm : u.memoryOperands = [m]) (haddress : (u.addressFormula m).terms.entries =
      [(.register u.site reg, ⟨.one, some u.site⟩)]) :
    wp (operandStride task b k m.opidx) (fun _ _ => True) (fun stop _ => Interrupted task stop) w := by
  have way : CyclicPath.build? task.graph b task.marker = none →
      Interrupted task (.failed (.noCyclicPath b task.marker)) := by simp [hp]
  have slices : (slice task ⟨b, k⟩ reg ⟨u.pc, 0⟩).Unwinding task :=
    (slicer_respects_unwinds task).slice task.settings.depth _ _ _
  have strides : (registerStride reg).Unwinding task := congruence_unwinding.registerStride reg
  refine wp_mono (operandStride_single (R := fun _ => True) hb way (fun _ _ => ?_) hw hr hu hm
    haddress) (fun _ _ _ => trivial) fun _ _ h => h
  exact wp_imp (slices _) fun _ w' _ => wp_imp (strides w') fun _ _ _ => trivial

end Slice

end AddressFormulas.Stride
