import AddressFormulas.Proofs.Stride.Address
import AddressFormulas.Proofs.Stride.Soundness

namespace AddressFormulas.Stride

open WalkM Formula Loop Skeleton

theorem Describes.change {ρ : TermKey → BitVec 64} {n e : Nat} {x y : Nat → BitVec 64}
    {kind : StrideKind} {f : Formula} (h : Describes ρ n y e kind f x)
    (hkind : kind ≠ .partialSum) (hf : f.overflow = false) :
    Describes ρ n y e .stride (if kind = .invariant then zero.inheritAccess f else f) x := by
  cases kind with
  | stride => exact h
  | partialSum => exact absurd rfl hkind
  | invariant =>
    refine ⟨plain_empty _ _, fun clean t ht => ?_⟩
    have unmarked : f.Clean := ⟨hf, (Access.merge_eq_empty.mp clean.unmarked).2⟩
    have now := h.holds unmarked t ht
    have next := h.holds unmarked (t + 1) (Nat.le_succ_of_le ht)
    change x (t + 1) = x t + 0
    rw [next, now, add_zero]

section Slice

variable {task : Task} {p : CyclicPath} {low top b : Nat} {block : Block} {dest : Nat → Register}
  {st : Nat → Nat → Registers} {ρ : TermKey → BitVec 64} {k : Nat} {reg : Register}
  {w : Walk StrideState} {session : StrideSession} {u : MicroOp}

theorem faithful_fresh (ops : List MicroOp) {path : Option CyclicPath}
    (hw : w.client = { path, session }) : Faithful ops dest st ρ ∅ (ledger w) where
  bounded i hi := absurd hi (Finset.notMem_empty i)
  status i v _ := by
    refine .blank ?_ ?_ ?_ (Finset.notMem_empty i) <;> simp only [ledger, hw] <;> rfl
  backed e he := by
    simp only [ledger, hw] at he
    cases he

structure Sole (ops : List MicroOp) (dest : Nat → Register) (st : Nat → Nat → Registers)
    (ρ : TermKey → BitVec 64) (k : Nat) (reg : Register) (l : Ledger) : Prop where
  idle : ∀ site, (l.notes site).loopCount = 0
  sliced : ∃ closed source, Faithful ops dest st ρ closed l ∧
    l.values = [(.register reg, source)] ∧ ComesFrom ops k reg source

variable (hS : Stage task p low top b block dest st ρ k reg) (hr : IsPlain reg)
  (hu : block.ops[k]? = some u)

include hS hr hu

theorem slice_sole (hdepth : sufficientDepth task.graph ≤ task.settings.depth)
    (hw : w.client = { path := some p, session }) :
    yields (slice task ⟨b, k⟩ reg ⟨u.pc, 0⟩)
      (fun _ w' => Sole block.ops dest st ρ k reg (ledger w')) w := by
  have wanted : Wanted block.ops dest st ρ k reg ∅ (ledger w) k reg := by
    refine ⟨hr, faithful_fresh _ hw, fun ha => ⟨_, _, ha, .refl⟩, fun _ hs => ?_⟩
    obtain ⟨v, _, progress, _⟩ := hs
    exact absurd progress ((quiet_fresh hw).not_inProgress v.site)
  refine wp_imp (yields_of_ends (slice_first hS.setting hS.alone (walk_slices hS task.settings.depth)
    hu hdepth hw wanted)) ?_
  rintro _ w' ⟨⟨closed, source, _, faithful, values, comes, _⟩, idle⟩
  refine ⟨idle, closed, source, faithful, ?_, comes⟩
  rw [values]
  simp only [ledger, hw]

omit hu

theorem Sole.describes (hk : k ≤ block.ops.length) {l : Ledger}
    (h : Sole block.ops dest st ρ k reg l) {source : ValueSource}
    (hvalues : l.values = [(.register reg, source)]) (hl : (ledger w).notes = l.notes) :
    Describes ρ block.ops.length (fun _ => 0) 0 .stride (w.client.strideOf source)
      fun t => (st t k).read reg := by
  have S := hS.scene
  obtain ⟨closed, source', faithful, values, comes⟩ := h.sliced
  obtain rfl : source' = source := by simpa [hvalues] using values.symm
  have backed := faithful.backed (.register reg, source') (by simp [hvalues])
  cases source' with
  | outside =>
    refine ⟨plain_zero, fun _ t _ => ?_⟩
    change (st (t + 1) k).read reg = (st t k).read reg + 0
    rw [S.body.read_outside S.run hr.1 hk comes, S.body.read_outside S.run hr.1 hk comes, add_zero]
  | definition site target =>
    obtain ⟨a, d, v, horigin, hv, rfl⟩ := comes
    have calm : ∀ s t, ¬Pends block.ops l s t := by
      rintro s t ⟨v', _, progress, _⟩
      have := h.idle v'.site
      omega
    obtain ⟨f, formula, overflow, noted⟩ :=
      faithful.noted (fun s _ t hs => absurd hs (calm s t)) hv backed S.distinct
    obtain ⟨_, kind, settled, describes⟩ | ⟨_, _, s, opens, _⟩ := noted
    · have few : closed.card ≤ block.ops.length := by
        have := Finset.card_le_card fun i hi => Finset.mem_range.mpr (faithful.bounded i hi)
        rwa [Finset.card_range] at this
      have near := (Body.origin?_spec horigin).1
      rw [← hl] at formula kind describes
      rw [strideOf_definition (s := w.client) formula]
      exact ((describes.change kind overflow).delay nofun
        (fun t => S.body.read_origin S.run hr.1 hk horigin t) _ _).mono (by omega)
    · exact absurd opens.pends (calm s target)

theorem registerStride_describes (hk : k ≤ block.ops.length)
    (h : Sole block.ops dest st ρ k reg (ledger w)) :
    yields (registerStride reg) (fun f _ => Describes ρ block.ops.length (fun _ => 0) 0 .stride f
      fun t => (st t k).read reg) w := by
  obtain ⟨closed, source, _, values, _⟩ := h.sliced
  refine wp_imp (yields_of_ends (registerStride_sole hr values)) ?_
  rintro _ _ ⟨w₁, same, rfl⟩
  exact h.describes hS hr hk values same

end Slice

section Operand

variable {task : Task} {b : Nat} {block : Block} {dest : Nat → Register}
  {st : Nat → Nat → Registers} {ρ : TermKey → BitVec 64} {k : Nat} {reg : Register}
  {w : Walk StrideState} {session : StrideSession} {u : MicroOp}

theorem Describes.once {n e : Nat} {x y : Nat → BitVec 64} {f : Formula}
    (h : Describes ρ n y e .stride f x) (ho : (zero + f.scale .one).overflow = false) :
    Describes ρ n y e .stride (zero + f.scale .one) x := by
  have plain : (f.scale .one).Plain := h.plain.scale rfl
  refine ⟨plain_zero.add plain, fun clean t ht => ?_⟩
  have scaled := (Clean.of_add clean).2
  have word : (zero + f.scale .one).word ρ = f.word ρ := by
    rw [word_add ρ plain_zero plain ho, word_scale ρ h.plain rfl scaled.settled]
    change 0 + ((1 : Int) : BitVec 64) * f.word ρ = f.word ρ
    rw [Int.cast_one, one_mul, zero_add]
  rw [word]
  exact h.holds ⟨overflow_of_scale scaled.settled, scaled.unmarked⟩ t ht

theorem Describes.address {n e : Nat} {x y : Nat → BitVec 64} {f : Formula}
    (h : Describes ρ n y e .stride f x) (u : MicroOp) (reg : Register) :
    Describes ρ n y e .stride (addressStride u reg f) x := by
  unfold addressStride
  split
  · -- an unknown stands for a stride that overflows
    have plain : (Formula.register u.site reg).markIrregular.Plain :=
      ⟨(plain_register _ _).ascending, (plain_register _ _).integral⟩
    refine ⟨plain_zero.add plain, fun clean => ?_⟩
    have unmarked := (Clean.of_add clean).2.unmarked
    simp [markIrregular] at unmarked
  · next ho => exact h.once (by simpa using ho)

theorem operandStride_describes (hstage : ∀ p, CyclicPath.build? task.graph b task.marker = some p →
      ∃ low top, Stage task p low top b block dest st ρ k reg) (hr : IsPlain reg)
    (hu : block.ops[k]? = some u) (hdepth : sufficientDepth task.graph ≤ task.settings.depth)
    (hw : w.client = { session }) {m : MemoryOperand} (hb : task.graph.block? b = some block)
    (hm : u.memoryOperands = [m]) (haddress : (u.addressFormula m).terms.entries =
      [(.register u.site reg, ⟨.one, some u.site⟩)]) :
    yields (operandStride task b k m.opidx) (fun f _ =>
      Describes ρ block.ops.length (fun _ => 0) 0 .stride f fun t => (st t k).read reg) w := by
  have sole : ∀ {p session} {w : Walk StrideState},
      CyclicPath.build? task.graph b task.marker = some p → w.client = { path := some p, session } →
      yields (slice task ⟨b, k⟩ reg ⟨u.pc, 0⟩) (fun _ w' => yields (registerStride reg) (fun f _ =>
        Describes ρ block.ops.length (fun _ => 0) 0 .stride f fun t => (st t k).read reg) w') w := by
    intro p session w hp hw
    obtain ⟨low, top, hS⟩ := hstage p hp
    refine wp_imp (slice_sole hS hr hu hdepth hw) fun _ w' h' => ?_
    exact registerStride_describes hS hr (Nat.le_of_lt (List.getElem?_eq_some_iff.mp hu).1) h'
  refine wp_imp (operandStride_single hb (fun _ => trivial) sole hw hr hu hm haddress) ?_
  rintro _ _ ⟨f, describes, rfl⟩
  exact describes.address u reg

end Operand

end AddressFormulas.Stride
