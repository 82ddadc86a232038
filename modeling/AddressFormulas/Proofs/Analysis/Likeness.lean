import AddressFormulas.Proofs.Analysis.Contents
import AddressFormulas.Proofs.Base.Mirroring
import AddressFormulas.Proofs.Stride.Watch

namespace AddressFormulas

inductive SameAnswer {α : Type} (V : α → α → Prop) : Except Stop α → Except Stop α → Prop
  | ok {a a' : α} : V a a' → SameAnswer V (.ok a) (.ok a')
  | error (stop : Stop) : SameAnswer V (.error stop) (.error stop)

theorem Follows.answer {S α τ : Type} {C : Comparison S} {live : Prop} {V : α → α → Prop} {P : τ → τ → Prop}
    {x x' : Except Stop τ} (hx : live → SameAnswer P x x') (p p' : Except Stop τ → EStateM Stop S α)
    (ok : ∀ {live'}, (live' → live) → ∀ a a', (live' → P a a') → Follows C live' V (p (.ok a)) (p' (.ok a')))
    (error : ∀ e, Follows C live V (p (.error e)) (p' (.error e))) : Follows C live V (p x) (p' x') := by
  constructor
  · cases x with
    | error e => exact (error e).keeps
    | ok a => exact (ok False.elim a a False.elim).keeps
  · intro l
    cases hx l with
    | error e => exact (error e).ends l
    | ok same => exact (ok (fun _ => l) _ _ fun _ => same).ends trivial

namespace Analysis

structure LevelStride.Renamed (σ : KeySwap) (l l' : LevelStride) : Prop where
  operand : l'.operand = l.operand
  level : l'.level = l.level
  stride : l.stride.Renamed σ l'.stride

structure StrideWork.Alike (σ : KeySwap) (work work' : StrideWork) : Prop where
  loops : ∀ marker, Option.Rel (fun w w' : Walk StrideState =>
    w.client.Alike σ w'.client ∧ w'.bounds = w.bounds ∧ w.bounds.stop = 0)
    (work.loops.get? marker) (work'.loops.get? marker)
  session : work'.session = work.session
  strides : List.Forall₂ (LevelStride.Renamed σ) work.strides work'.strides

abbrev likeness (spoils : Event → Prop) (σ : KeySwap) : Comparison StrideWork where
  journal := StrideWork.journal
  spoils
  Beside := StrideWork.Alike σ

variable {spoils : Event → Prop} {σ : KeySwap} {live : Prop}

theorem StrideWork.Alike.begin (σ : KeySwap) (journal journal' : Journal) :
    StrideWork.Alike σ { journal } { journal := journal' } :=
  ⟨fun _ => .none, rfl, .nil⟩

def StrideWork.begun (work : StrideWork) (marker : Nat) : Walk StrideState :=
  { work.loops.getD marker { client := {} } with client.session := work.session, journal := work.journal }

def StrideWork.after (work : StrideWork) (marker : Nat) (w : Walk StrideState) : StrideWork :=
  { work with
    loops := work.loops.insert marker { w with journal := [] }
    session := w.client.session
    journal := w.journal }

theorem wp_inLoop {α : Type} {m : Stride.M α} {marker : Nat} {Q : Except Stop α → StrideWork → Prop}
    {E : Stop → StrideWork → Prop} {work : StrideWork} :
    wp (inLoop marker m) Q E work ↔
      wp m (fun a w => Q (.ok a) (work.after marker w)) (fun e w => Q (.error e) (work.after marker w))
        (work.begun marker) := by
  unfold inLoop StrideWork.after StrideWork.begun
  simp only [wp_bind, wp_get, wp_set, wp_pure]
  unfold wp EStateM.run
  cases m { work.loops.getD marker { client := {} } with
      client.session := work.session, journal := work.journal } with
  | ok a w => exact Iff.rfl
  | error e w => exact Iff.rfl

section InLoop

variable {work work' : StrideWork} (hw : work.Alike σ work') (marker : Nat)

include hw

theorem StrideWork.Alike.begun :
    (Comparison.walks spoils (StrideState.Alike σ)).Beside (work.begun marker) (work'.begun marker) := by
  have loop := hw.loops marker
  unfold StrideWork.begun Table.getD
  rw [hw.session]
  generalize work.loops.get? marker = w?, work'.loops.get? marker = w'? at loop ⊢
  have counted : ∀ {st st' : StrideState}, st.Alike σ st' →
      StrideState.Alike σ { st with session := work.session } { st' with session := work.session } :=
    fun h => h.change (f := fun s => { s with session := work.session }) (fun _ _ => rfl) h.named
  cases loop with
  | none => exact ⟨counted (.empty σ), rfl, rfl⟩
  | some loop => exact ⟨counted loop.1, loop.2⟩

theorem StrideWork.Alike.after {w w' : Walk StrideState}
    (h : (Comparison.walks spoils (StrideState.Alike σ)).Beside w w') :
    StrideWork.Alike σ (work.after marker w) (work'.after marker w') := by
  have alike : w.client.Alike σ w'.client := h.1
  unfold StrideWork.after
  refine ⟨fun marker' => ?_, by rw [alike.same], hw.strides⟩
  dsimp only
  rw [Table.get?_insert, Table.get?_insert]
  split
  · exact .some h
  · exact hw.loops marker'

end InLoop

theorem inLoop_follows {α : Type} {V : α → α → Prop} {m m' : Stride.M α}
    (h : Stride.M.FollowedBy spoils σ live V m m') (marker : Nat) :
    Follows (likeness spoils σ) live (SameAnswer V) (inLoop marker m) (inLoop marker m') := by
  constructor
  · intro work
    exact wp_inLoop.mpr (h.keeps (work.begun marker))
  · intro l work work' hw
    apply wp_inLoop.mpr
    apply wp_mono (h.ends l _ _ (hw.begun marker))
    · intro a w ends clean
      apply wp_inLoop.mpr
      exact wp_mono (ends clean) (fun a' w' ⟨value, joined⟩ => ⟨.ok value, hw.after marker joined⟩)
        fun _ _ h => h.elim
    · intro e w ends clean
      apply wp_inLoop.mpr
      apply wp_mono (ends clean) (fun _ _ h => h.elim)
      rintro _ w' ⟨rfl, joined⟩
      exact ⟨.error _, hw.after marker joined⟩

theorem computeBases_follows {settings : Settings} {g : Graph} {u : MicroOp} {a b : Register} {opidx : Int}
    {φ : MicroOp → MicroOp} (h : g.Rewrites φ σ u a b opidx) {sites : List OperandSite}
    (hs : ∀ s ∈ sites, ∃ n, g.OperandAt s n) :
    Base.M.FollowedBy (fun e => e.missesOperand u.site = true) live Eq (computeBases settings g sites)
      (computeBases settings (g.mapOps φ) sites) := by
  induction sites generalizing live with
  | nil => exact .ok fun _ => rfl
  | cons s rest ih =>
    obtain ⟨⟨n, block, op, m, hblock, hop, _, hm, _⟩, places⟩ := List.forall_mem_cons.mp hs
    have placed : g.op? s.block s.index = some op := Graph.op?_eq_some.mpr ⟨block, hblock, hop⟩
    have accesses : op.memoryOperands ≠ [] := List.ne_nil_of_mem (List.mem_of_getElem? hm)
    apply (Base.address_follows h placed accesses s.opidx).bind
    intro live' _ f f' hf
    apply Follows.bind_eq
    · apply WalkM.FollowedBy.modifyClient
      intro l st st' hst
      refine ⟨hst.values, hst.definitions, fun o => ?_⟩
      dsimp only
      rw [OperandTable.base?_setBase, OperandTable.base?_setBase]
      split
      · exact .some (hf l)
      · exact hst.bases o
    · exact fun _ => ih places

section Strides

variable (slicer : Stride.Task → Slicer StrideState) (settings : Settings) (g : Graph)

def computeStridesBy (bases : OperandTable) (s : OperandSite) : Nat → List Nat → WorkM Unit
  | _, [] => pure ()
  | level, marker :: rest => do
    let task : Stride.Task := { settings, graph := g, bases, marker }
    match ← inLoop marker (Stride.operandStrideBy (slicer task) task s.block s.index s.opidx) with
    | .ok stride =>
      modify fun work => { work with strides := ⟨s.id, level, stride⟩ :: work.strides }
      computeStridesBy bases s (level + 1) rest
    | .error (.failed (.noCyclicPath b m)) =>
      modify fun work =>
        { work with journal := .skippedLevels s.id (.noCyclicPath b m) :: work.journal }
    | .error stop => throw stop

def computeAllStridesBy (bases : OperandTable) : List OperandSite → WorkM Unit
  | [] => pure ()
  | s :: rest => do
    if 0 < s.marker then
      if (bases.base? s.id).isNone then throw (.failed (.missingBaseFormula s.id))
      computeStridesBy slicer settings g bases s 0 (g.enclosingLoops s.marker)
    computeAllStridesBy bases rest

end Strides

section Rewritten

variable {settings : Settings} {g : Graph} {u : MicroOp} {a b : Register} {opidx : Int}
  {φ : MicroOp → MicroOp} {bases bases' : OperandTable}

variable (h : g.Rewrites φ σ u a b opidx)
  (hbases : ∀ o, Option.Rel (Formula.Renamed .id) (bases.base? o) (bases'.base? o))

include h hbases

theorem computeStrides_follows {s : OperandSite} (hs : ∃ n, g.OperandAt s n) (level : Nat) (markers : List Nat) :
    Follows (likeness (fun e => e.missesOperand u.site = true) σ) live Eq
      (computeStridesBy (Stride.watched · u a b) settings g bases s level markers)
      (computeStrides settings (g.mapOps φ) bases' s level markers) := by
  obtain ⟨n, block, op, m, hblock, hop, _, hm, _⟩ := hs
  have placed : g.op? s.block s.index = some op := Graph.op?_eq_some.mpr ⟨block, hblock, hop⟩
  have accesses : op.memoryOperands ≠ [] := List.ne_nil_of_mem (List.mem_of_getElem? hm)
  induction markers generalizing live level with
  | nil => exact .ok fun _ => rfl
  | cons marker rest ih =>
    let task : Stride.Task := { settings, graph := g, bases, marker }
    let task' : Stride.Task := { settings, graph := g.mapOps φ, bases := bases', marker }
    have known : Stride.SameBases task task' := hbases
    have settled : task'.settings = task.settings := rfl
    have looped : task'.marker = task.marker := rfl
    have stride : Stride.M.FollowedBy (fun e => e.missesOperand u.site = true) σ live (Formula.Renamed σ)
        (Stride.operandStrideBy (Stride.watched task u a b) task s.block s.index s.opidx)
        (Stride.operandStride task' s.block s.index s.opidx) :=
      Stride.operandStride_follows h settled rfl rfl looped known placed accesses s.opidx
    apply (inLoop_follows stride marker).bind
    intro live₁ hl answer answer' same
    apply Follows.answer same
    · intro live₂ _ f f' hf
      apply Follows.bind_eq
      · apply Follows.change
        · exact fun _ clean => clean
        · exact fun l work work' hw => ⟨hw.loops, hw.session, .cons ⟨rfl, rfl, hf l⟩ hw.strides⟩
      · exact fun _ => ih (level + 1)
    · intro e
      by_cases skipped : ∃ c m, e = .failed (.noCyclicPath c m)
      · obtain ⟨c, m, rfl⟩ := skipped
        apply Follows.change
        · exact fun _ clean e he => clean e (List.mem_cons_of_mem _ he)
        · exact fun _ work work' hw => ⟨hw.loops, hw.session, hw.strides⟩
      · -- only the last case of both matches is left
        have other : ∀ c m, e ≠ .failed (.noCyclicPath c m) := fun c m he => skipped ⟨c, m, he⟩
        simp only
        exact .stop e

theorem computeAllStrides_follows {sites : List OperandSite} (hs : ∀ s ∈ sites, ∃ n, g.OperandAt s n) :
    Follows (likeness (fun e => e.missesOperand u.site = true) σ) live Eq
      (computeAllStridesBy (Stride.watched · u a b) settings g bases sites)
      (computeAllStrides settings (g.mapOps φ) bases' sites) := by
  induction sites with
  | nil => exact .ok fun _ => rfl
  | cons s rest ih =>
    obtain ⟨place, places⟩ := List.forall_mem_cons.mp hs
    have known : (bases'.base? s.id).isNone = (bases.base? s.id).isNone := (hbases s.id).isNone_eq
    unfold computeAllStridesBy computeAllStrides
    rw [known, Graph.enclosingLoops_mapOps]
    split
    · split
      · exact .stop _
      · exact (computeStrides_follows h hbases place 0 _).bind_eq fun _ => ih places
    · exact ih places

end Rewritten

end Analysis

end AddressFormulas
