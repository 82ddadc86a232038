import AddressFormulas.Proofs.Formula.Renaming
import AddressFormulas.Proofs.Routine.Replacement
import AddressFormulas.Proofs.Walk.Congruence
import AddressFormulas.Proofs.Walk.Edges
import AddressFormulas.Proofs.Walk.Following

namespace AddressFormulas

open WalkM

variable {σ : Type} {φ : MicroOp → MicroOp}

structure MicroOp.HasWords (u : MicroOp) : Prop where
  immediates : ∀ v ∈ u.immediates, Word.fits v = true
  disp : ∀ m ∈ u.memoryOperands, Word.fits m.disp = true
  scale : ∀ m ∈ u.memoryOperands, Word.fits m.scale = true

instance (u : MicroOp) : Decidable u.HasWords :=
  decidable_of_iff ((∀ v ∈ u.immediates, Word.fits v = true) ∧
    (∀ m ∈ u.memoryOperands, Word.fits m.disp = true) ∧ ∀ m ∈ u.memoryOperands, Word.fits m.scale = true)
    ⟨fun ⟨h, h', h''⟩ => ⟨h, h', h''⟩, fun h => ⟨h.immediates, h.disp, h.scale⟩⟩

namespace MicroOp.HasWords

open Formula

theorem renamed_addRegister {site : Site} {f : Formula} {v : Int} (hv : Word.fits v = true)
    (reg : Option Register) (hf : f.Renamed .id f ∧
      ∀ k, k ≠ .constant → (∀ r, k ≠ .register site r) → f.coeffAt k = none) :
    let g := match reg with
      | some r => f.addTerm (.register site r.canonical) (.ofInt v) (some site)
      | none => f
    g.Renamed .id g ∧ ∀ k, k ≠ .constant → (∀ r, k ≠ .register site r) → g.coeffAt k = none := by
  obtain ⟨self, keys⟩ := hf
  have word : (Coeff.ofInt v).isZero = true ∨ (Coeff.ofInt v).Proper := by
    by_cases hz : v = 0
    · exact .inl (by simp [Coeff.isZero, Coeff.ofInt, hz])
    · exact .inr (Coeff.proper_ofInt hv hz)
  cases reg with
  | none => exact ⟨self, keys⟩
  | some r =>
    refine ⟨self.addTerm rfl word _ _, ?_⟩
    intro k constant register
    dsimp only
    rw [coeffAt_addTerm self.ordered, if_neg (register _)]
    exact keys k constant register

variable {u : MicroOp} {m : MemoryOperand} (h : u.HasWords) (hm : m ∈ u.memoryOperands)

include h hm

theorem addressFormula : (u.addressFormula m).Renamed .id (u.addressFormula m) ∧
    ∀ k, k ≠ .constant → (∀ r, k ≠ .register u.site r) → (u.addressFormula m).coeffAt k = none := by
  have disp : (constant m.disp).Renamed .id (constant m.disp) ∧
      ∀ k, k ≠ .constant → (∀ r, k ≠ .register u.site r) → (constant m.disp).coeffAt k = none := by
    refine ⟨.constant (h.disp m hm), ?_⟩
    intro k hk _
    have empty : zero.Ordered := List.Pairwise.nil
    unfold constant ofTerm
    rw [coeffAt_addTerm empty, if_neg hk]
    rfl
  exact renamed_addRegister (h.scale m hm) m.index (renamed_addRegister (by decide) m.base disp)

theorem of_mem_addressFormula {e : TermKey × Term} (he : e ∈ (u.addressFormula m).terms.entries) :
    e.2.coeff.Proper ∧ (e.1 = .constant ∨ ∃ r, e.1 = .register u.site r) := by
  obtain ⟨self, keys⟩ := h.addressFormula hm
  have coeff : (u.addressFormula m).coeffAt e.1 = some e.2.coeff :=
    (coeffAt_mem self.ordered).mpr ⟨e.2, he, rfl⟩
  constructor
  · exact self.proper _ _ coeff
  · by_contra other
    rw [not_or, not_exists] at other
    rw [keys e.1 other.1 other.2] at coeff
    cases coeff

end MicroOp.HasWords

structure MicroOp.Passes (u u' : MicroOp) : Prop where
  site : u'.site = u.site
  nextPc : u'.nextPc = u.nextPc
  sourceRegisters : u'.sourceRegisters = u.sourceRegisters
  defines : ∀ reg, u'.defines? reg = u.defines? reg
  isStore : u'.isStore = u.isStore
  store : u.isStore = true → u' = u

namespace MicroOp.Passes

variable {u u' : MicroOp}

theorem pc (h : u.Passes u') : u'.pc = u.pc := congrArg Site.pc h.site

theorem hardwired? (h : u.Passes u') (reg : Register) : u'.hardwired? reg = u.hardwired? reg := by
  unfold MicroOp.hardwired?
  rw [h.nextPc]

end MicroOp.Passes

def MicroOp.CanDefine (u : MicroOp) (reg : Register) : Prop := ∃ r, u.defines? r = some reg

theorem rel_block? (g : Graph) (b : Nat) :
    Option.Rel (fun block block' => block' = block.mapOps φ) (g.block? b) ((g.mapOps φ).block? b) := by
  rw [Graph.block?_mapOps]
  cases g.block? b with
  | none => exact .none
  | some block => exact .some rfl

theorem MicroOp.fits_hardwired {u : MicroOp} {reg : Register} {v : Int}
    (h : u.hardwired? reg = some v) : Word.fits v = true := by
  unfold MicroOp.hardwired? Register.hardwired? at h
  split at h
  · exact Option.some.inj h ▸ Word.fits_wrap _
  · exact Option.some.inj h ▸ rfl
  · cases h

namespace Placed

def mapOp (φ : MicroOp → MicroOp) (u : Placed) : Placed := { u with op := φ u.op }

def IsIn (u : Placed) (g : Graph) : Prop := g.op? u.block u.index = some u.op

end Placed

namespace Slicer

section

variable (spoils : Event → Prop) (Alike : σ → σ → Prop)

def WalksFollow (walk walk' : WalkFor σ) : Prop :=
  ∀ {live : Prop} (p : Position) (reg : Register) (bounds bounds' : Bounds),
    (live → bounds' = bounds ∧ bounds.stop = 0) →
      FollowedBy spoils Alike live Eq (walk p reg bounds) (walk' p reg bounds')

def SearchesFollow (follow follow' : FollowFor σ) : Prop :=
  ∀ {live : Prop} (p : Position) (address address' : Formula),
    (live → address.Renamed .id address') →
      FollowedBy spoils Alike live Eq (follow p address) (follow' p address')

structure Mirrors (g : Graph) (φ : MicroOp → MicroOp) (s s' : Slicer σ) : Prop where
  passes : ∀ b i u, g.op? b i = some u → u.Passes (φ u)
  words : ∀ b i u, g.op? b i = some u → u.HasWords
  strict : s'.strict = s.strict
  bases : ∀ st st', Alike st st' → ∀ o,
    Option.Rel (Formula.Renamed .id) ((s.bases st).base? o) ((s'.bases st').base? o)
  bound : ∀ bounds, FollowedBy spoils Alike True Eq (s.bound bounds) (s'.bound bounds)
  start : ∀ p reg, FollowedBy spoils Alike True Eq (s.start p reg) (s'.start p reg)
  enterOp : ∀ follow follow' : FollowFor σ, SearchesFollow spoils Alike follow follow' →
    ∀ u reg, u.IsIn g →
      FollowedBy spoils Alike True Eq (s.enterOp follow u reg) (s'.enterOp follow' (u.mapOp φ) reg)
  leaveOp : ∀ u reg, u.IsIn g → u.op.CanDefine reg →
    FollowedBy spoils Alike True Eq (s.leaveOp u reg) (s'.leaveOp (u.mapOp φ) reg)
  enterEdge : ∀ e reg, FollowedBy spoils Alike True Eq (s.enterEdge e reg) (s'.enterEdge e reg)
  leaveEdge : ∀ e reg, FollowedBy spoils Alike True Eq (s.leaveEdge e reg) (s'.leaveEdge e reg)
  enterBlock : ∀ b reg, FollowedBy spoils Alike True Eq (s.enterBlock b reg) (s'.enterBlock b reg)
  leaveBlock : ∀ b reg, FollowedBy spoils Alike True Eq (s.leaveBlock b reg) (s'.leaveBlock b reg)
  tryOthers : ∀ e reg, FollowedBy spoils Alike True Eq (s.tryOthers e reg) (s'.tryOthers e reg)
  fixedValue : ∀ reg b i u v, g.op? b i = some u → Word.fits v = true →
    FollowedBy spoils Alike True Eq (s.fixedValue reg u v) (s'.fixedValue reg (φ u) v)

end

theorem storesTo_renamed {bases bases' : OperandTable} {address address' : Formula} {u u' : MicroOp}
    (hu : u.Passes u') (ha : address.Renamed .id address')
    (hb : ∀ o, Option.Rel (Formula.Renamed .id) (bases.base? o) (bases'.base? o)) :
    storesTo bases' address' u' = storesTo bases address u := by
  unfold storesTo
  rw [hu.isStore]
  cases hstore : u.isStore with
  | false => rfl
  | true =>
    rw [hu.store hstore]
    cases u.memoryDestination? with
    | none => rfl
    | some m =>
      have base := hb ⟨u.pc, m.opidx⟩
      simp only [Option.bind_some]
      generalize bases.base? ⟨u.pc, m.opidx⟩ = f?, bases'.base? ⟨u.pc, m.opidx⟩ = f'? at base ⊢
      cases base with
      | none => rfl
      | some hf => simp [Formula.isConstantValue, (ha.sub hf).constantValue?]

theorem loadBase?_renamed {bases bases' : OperandTable}
    (h : ∀ o, Option.Rel (Formula.Renamed .id) (bases.base? o) (bases'.base? o)) (op : MicroOp) :
    Option.Rel (Formula.Renamed .id) (loadBase? bases op) (loadBase? bases' op) := by
  unfold loadBase?
  cases op.memorySource? with
  | none => exact .none
  | some m =>
    have base := h ⟨op.pc, m.opidx⟩
    simp only [Option.bind_some]
    generalize bases.base? ⟨op.pc, m.opidx⟩ = f?, bases'.base? ⟨op.pc, m.opidx⟩ = f'? at base
    cases base with
    | none => exact .none
    | @some f f' hf =>
      by_cases zero : f.constantValue? = some (.ofInt 0)
      · simp only [Option.filter, Formula.isConstantValue, hf.constantValue?, zero]
        exact .none
      · simp only [Option.filter, Formula.isConstantValue, hf.constantValue?, zero]
        exact .some hf

namespace Mirrors

variable {spoils : Event → Prop} {Alike : σ → σ → Prop} {live : Prop} {g : Graph} {s s' : Slicer σ}
  {walk walk' : WalkFor σ} {follow follow' : FollowFor σ} (hs : s.Mirrors spoils Alike g φ s')

include hs

theorem alongEdges {α : Type} {reg : Register} {across across' : Nat → WalkM σ α}
    {enough : α → Bool} {last last' : WalkM σ α} (hlast : FollowedBy spoils Alike live Eq last last')
    (hacross : ∀ e, FollowedBy spoils Alike live Eq (across e) (across' e)) (edges : List Nat) :
    FollowedBy spoils Alike live Eq (s.alongEdges reg across enough last edges)
      (s'.alongEdges reg across' enough last' edges) := by
  induction edges with
  | nil => exact hlast
  | cons e rest ih =>
    apply ((hs.enterEdge e reg).weaken fun _ => trivial).bind_eq
    intro enter
    split
    · apply (hacross e).bind_eq
      intro a
      apply ((hs.leaveEdge e reg).weaken fun _ => trivial).bind_eq
      intro _
      split
      · exact .ok fun _ => rfl
      · apply ((hs.tryOthers e reg).weaken fun _ => trivial).bind_eq
        intro again
        split
        · exact ih
        · exact .ok fun _ => rfl
    · exact ih

section Sources

variable (hw : WalksFollow spoils Alike walk walk')

include hw

theorem sliceWith (p : Position) (reg : Register) (bounds : Bounds) (hb : bounds.stop = 0) :
    FollowedBy spoils Alike live Eq (s.sliceWith walk p reg bounds) (s'.sliceWith walk' p reg bounds) := by
  apply ((hs.start p reg).weaken fun _ => trivial).bind_eq
  intro _
  exact hw p reg bounds bounds fun _ => ⟨rfl, hb⟩

theorem sliceSource (u : Placed) (source : Register) (hu : u.IsIn g) :
    FollowedBy spoils Alike live Eq (s.sliceSource walk u source)
      (s'.sliceSource walk' (u.mapOp φ) source) := by
  have passes := hs.passes _ _ _ hu
  have slice : FollowedBy spoils Alike live Eq
      (s.sliceWith walk ⟨u.block, u.index⟩ source.canonical ⟨u.op.pc, 0⟩)
      (s'.sliceWith walk' ⟨u.block, u.index⟩ source.canonical ⟨(φ u.op).pc, 0⟩) := by
    rw [passes.pc]
    exact hs.sliceWith hw _ _ _ rfl
  unfold Slicer.sliceSource
  dsimp only [Placed.mapOp]
  rw [passes.hardwired?, passes.site, hs.strict]
  split
  · exact .ok fun _ => rfl
  · split
    · next v hv =>
      exact (hs.fixedValue _ _ _ _ v hu (MicroOp.fits_hardwired hv)).weaken fun _ => trivial
    · split
      · exact (FollowedBy.report _ _).bind_eq fun _ => slice
      · exact slice

theorem sliceSources (u : Placed) (sources : List Register) (hu : u.IsIn g) :
    FollowedBy spoils Alike live Eq (s.sliceSources walk u sources)
      (s'.sliceSources walk' (u.mapOp φ) sources) := by
  induction sources with
  | nil => exact .ok fun _ => rfl
  | cons source rest ih => exact (hs.sliceSource hw u source hu).bind_eq fun _ => ih

theorem sliceStored (u : Placed) (hu : u.IsIn g) (hstore : u.op.isStore = true) :
    FollowedBy spoils Alike live Eq (s.sliceStored walk u) (s'.sliceStored walk' u) := by
  have same := (hs.passes _ _ _ hu).store hstore
  have fits : ∀ v, u.op.Fixes v → Word.fits v = true := by
    rintro v (⟨r, hv⟩ | hv)
    · exact MicroOp.fits_hardwired hv
    · apply (hs.words _ _ _ hu).immediates v
      simp [MicroOp.immediates, hv, Operand.immediate?]
  have sources : SourceCongruence s s' walk walk' u fun _ m m' => FollowedBy spoils Alike live Eq m m' := by
    constructor
    · exact fun _ => .ok fun _ => rfl
    · exact fun _ hm => hm.bind_eq fun _ => .ok fun _ => rfl
    · intro α f m m' _ hm
      rw [hs.strict]
      exact (FollowedBy.report _ _).bind_eq fun _ => hm
    · exact fun reg => hs.sliceWith hw _ reg _ rfl
    · intro reg v hv
      have fixed := hs.fixedValue reg _ _ u.op v hu (fits v hv)
      rw [same] at fixed
      exact fixed.weaken fun _ => trivial
  exact sources.sliceStored

theorem walkEdges (b : Nat) (reg : Register) (edges : List Nat) :
    FollowedBy spoils Alike live Eq (s.walkEdges g walk b reg edges)
      (s'.walkEdges (g.mapOps φ) walk' b reg edges) := by
  rw [walkEdges_eq, walkEdges_eq]
  refine hs.alongEdges ((hs.leaveBlock b reg).weaken fun _ => trivial) (fun e => ?_) edges
  apply FollowedBy.require_same
  intro edge _
  apply FollowedBy.require_bind (rel_block? g edge.source)
  rintro source _ _ rfl
  apply Follows.read_bind
  intro live' _ w w' hw'
  have size : (source.mapOps φ).ops.length = source.ops.length := List.length_map φ
  rw [size]
  exact hw _ reg w.bounds w'.bounds fun l => (hw' l).2

theorem walkNext (b : Nat) (reg : Register) :
    FollowedBy spoils Alike live Eq (s.walkNext g walk b reg)
      (s'.walkNext (g.mapOps φ) walk' b reg) := by
  apply ((hs.enterBlock b reg).weaken fun _ => trivial).bind_eq
  intro enter
  split
  · apply FollowedBy.require_bind (rel_block? g b)
    rintro block _ _ rfl
    rw [Graph.incomingByRank_mapOps]
    exact hs.walkEdges hw b reg _
  · exact .ok fun _ => rfl

end Sources

section Steps

variable (hf : SearchesFollow spoils Alike follow follow')

include hf

theorem walkStep (hw : WalksFollow spoils Alike walk walk') :
    WalksFollow spoils Alike (s.walkStep g walk follow) (s'.walkStep (g.mapOps φ) walk' follow') := by
  intro live p reg bounds bounds' hb
  have set : FollowedBy spoils Alike live Eq (s.setBounds bounds) (s'.setBounds bounds') := by
    apply Follows.same fun l => (hb l).1
    apply Follows.bind_eq
    · apply Follows.change
      · exact fun _ clean => clean
      · exact fun l w w' hw => ⟨hw.1, rfl, (hb l).2⟩
    · exact fun _ => (hs.bound bounds).weaken fun _ => trivial
  apply set.bind_eq
  intro _
  apply FollowedBy.require_bind (rel_block? g p.block)
  rintro block _ hblock rfl
  rw [Graph.definition?_mapOps hblock fun i u hu => (hs.passes _ i u hu).defines]
  cases found : block.definition? p.before reg with
  | none => exact hs.walkNext hw p.block reg
  | some r =>
    obtain ⟨i, op, written⟩ := r
    obtain ⟨_, hu, defines, _⟩ := Block.definition?_eq_some hblock found
    have hu : Placed.IsIn ⟨p.block, i, op⟩ g := hu
    apply (FollowedBy.tell _ _).bind_eq
    intro _
    apply ((hs.enterOp follow follow' hf ⟨p.block, i, op⟩ written hu).weaken fun _ => trivial).bind_eq
    intro enter
    have leave : FollowedBy spoils Alike live Eq (s.leaveOp ⟨p.block, i, op⟩ written)
        (s'.leaveOp (Placed.mapOp φ ⟨p.block, i, op⟩) written) :=
      (hs.leaveOp _ written hu ⟨reg, defines⟩).weaken fun _ => trivial
    rw [(hs.passes _ _ _ hu).sourceRegisters]
    split
    · exact (hs.sliceSources hw _ _ hu).bind_eq fun _ => leave
    · exact leave

theorem followEdges (b : Nat) {address address' : Formula}
    (ha : live → address.Renamed .id address') (edges : List Nat) :
    FollowedBy spoils Alike live Eq (s.followEdges g follow b address edges)
      (s'.followEdges (g.mapOps φ) follow' b address' edges) := by
  rw [followEdges_eq, followEdges_eq]
  have last : FollowedBy spoils Alike live Eq
      (do s.leaveBlock b .absent; return (none : Option Register))
      (do s'.leaveBlock b .absent; return none) :=
    ((hs.leaveBlock b .absent).weaken fun _ => trivial).bind_eq fun _ => .ok fun _ => rfl
  refine hs.alongEdges last (fun e => ?_) edges
  apply FollowedBy.require_same
  intro edge _
  apply FollowedBy.require_bind (rel_block? g edge.source)
  rintro source _ _ rfl
  have size : (source.mapOps φ).ops.length = source.ops.length := List.length_map φ
  rw [size]
  exact hf _ address address' ha

theorem followStep (hw : WalksFollow spoils Alike walk walk') :
    SearchesFollow spoils Alike (s.followStep g walk follow)
      (s'.followStep (g.mapOps φ) walk' follow') := by
  intro live p address address' ha
  apply FollowedBy.require_bind (rel_block? g p.block)
  rintro block _ hblock rfl
  apply FollowedBy.client_bind
  intro live' hl st st' hst
  extract_lets bases store? bases' store'?
  have found : live' → store'? = store?.map fun r => (r.1, φ r.2.1, r.2.2) := by
    intro l
    unfold store'? store?
    rw [show (block.mapOps φ).ops.length = block.ops.length from List.length_map φ]
    apply lastBefore?_map
    intro i u _ hu
    have passes := hs.passes p.block i u (Graph.op?_eq_some.mpr ⟨block, hblock, hu⟩)
    rw [storesTo_renamed passes (ha (hl l)) (hs.bases st st' (hst l))]
  have h : lastBefore? block.ops (fun u => if storesTo bases address u then some () else none)
      (min p.before block.ops.length) = store? := rfl
  clear_value store? store'?
  apply Follows.same found
  cases store? with
  | some r =>
    obtain ⟨i, op, _⟩ := r
    obtain ⟨_, hop, hstores, _⟩ := lastBefore?_eq_some h
    have hu : Placed.IsIn ⟨p.block, i, op⟩ g := Graph.op?_eq_some.mpr ⟨block, hblock, hop⟩
    have store : op.isStore = true := by
      by_contra other
      simp [storesTo, other] at hstores
    have same := (hs.passes _ _ _ hu).store store
    simp only [Option.map_some]
    rw [same]
    exact (FollowedBy.tell _ _).bind_eq fun _ => hs.sliceStored hw _ hu store
  | none =>
    apply ((hs.enterBlock p.block .absent).weaken fun _ => trivial).bind_eq
    intro enter
    split
    · exact hs.followEdges hf p.block (fun l => ha (hl l)) block.incoming
    · exact .ok fun _ => rfl

end Steps

theorem walk_and_follow (n : Nat) :
    WalksFollow spoils Alike (s.walk g n) (s'.walk (g.mapOps φ) n) ∧
      SearchesFollow spoils Alike (s.follow g n) (s'.follow (g.mapOps φ) n) := by
  induction n with
  | zero =>
    constructor
    · exact fun _ _ _ _ _ => .stop _
    · exact fun _ _ _ _ => .stop _
  | succ n ih =>
    constructor
    · exact hs.walkStep ih.2 ih.1
    · exact hs.followStep ih.2 ih.1

theorem slice (depth : Nat) (p : Position) (reg : Register) (bounds : Bounds)
    (hb : bounds.stop = 0) :
    FollowedBy spoils Alike live Eq (s.slice g depth p reg bounds)
      (s'.slice (g.mapOps φ) depth p reg bounds) :=
  hs.sliceWith (hs.walk_and_follow depth).1 p reg bounds hb

end Mirrors

end Slicer

end AddressFormulas
