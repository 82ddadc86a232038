import AddressFormulas.Proofs.Analysis.Likeness
import AddressFormulas.Proofs.Analysis.OneBlockLoop

namespace AddressFormulas

structure Formula.SameStride (σ : KeySwap) (f f' : Formula) : Prop where
  renamed : f.Renamed σ f'
  constantValue? : f'.constantValue? = f.constantValue?
  irregular : f'.access.irregular = f.access.irregular

structure RoutineFormulas.SameStrides (σ : KeySwap) (r r' : RoutineFormulas) : Prop where
  sites : r'.sites = r.sites
  strides : ∀ o, List.Forall₂ (Formula.SameStride σ) (r.strides o) (r'.strides o)

namespace Formula.Renamed

variable {σ : KeySwap} {f f' f'' : Formula}

theorem sameStride (h : f.Renamed σ f') : f.SameStride σ f' := ⟨h, h.constantValue?, h.irregular⟩

theorem key_id (k : TermKey) : KeySwap.id k = k := by cases k <;> rfl

theorem refl_left (h : f.Renamed σ f') : f.Renamed .id f :=
  ⟨h.ordered, h.ordered, fun k => by rw [key_id], h.proper, rfl, rfl⟩

theorem of_id (h : f.Renamed .id f') (h' : f.Renamed σ f'') : f'.Renamed σ f'' := by
  have coeff : ∀ k, f'.coeffAt k = f.coeffAt k := by
    intro k
    rw [← h.coeff k, key_id]
  refine ⟨h.ordered', h'.ordered', fun k => ?_, fun k c hc => ?_, ?_, ?_⟩
  · rw [h'.coeff, coeff]
  · exact h.proper k c (coeff k ▸ hc)
  · rw [h'.overflow, h.overflow]
  · rw [h'.irregular, h.irregular]

end Formula.Renamed

namespace Analysis

variable {σ : KeySwap}

theorem strides_of_id {ls ls₁ ls₂ : List LevelStride} (h₁ : List.Forall₂ (LevelStride.Renamed .id) ls ls₁)
    (h₂ : List.Forall₂ (LevelStride.Renamed σ) ls ls₂) : List.Forall₂ (LevelStride.Renamed σ) ls₁ ls₂ := by
  induction h₁ generalizing ls₂ with
  | nil =>
    cases h₂
    exact .nil
  | cons hl _ ih =>
    cases h₂ with
    | cons hl' rest =>
      refine .cons ⟨?_, ?_, hl.stride.of_id hl'.stride⟩ (ih rest)
      · rw [hl'.operand, hl.operand]
      · rw [hl'.level, hl.level]

theorem recordStride_alike {t t' : OperandTable}
    (h : ∀ o, List.Forall₂ (Formula.Renamed σ) (t.strides o) (t'.strides o))
    {l l' : LevelStride} (hl : l.Renamed σ l') :
    (∃ e, t.recordStride l.operand l.level l.stride = .error e ∧
        t'.recordStride l'.operand l'.level l'.stride = .error e) ∨
      ∃ t₁ t₁' : OperandTable, t.recordStride l.operand l.level l.stride = .ok t₁ ∧
        t'.recordStride l'.operand l'.level l'.stride = .ok t₁' ∧
        ∀ o, List.Forall₂ (Formula.Renamed σ) (t₁.strides o) (t₁'.strides o) := by
  have length := (h l.operand).length_eq
  rw [hl.operand, hl.level]
  by_cases hn : (t.strides l.operand).length = l.level
  · obtain ⟨t₁, run, added, other, _⟩ := OperandTable.recordStride_next t l.operand hn l.stride
    obtain ⟨t₁', run', added', other', _⟩ :=
      OperandTable.recordStride_next t' l.operand (length ▸ hn) l'.stride
    refine .inr ⟨t₁, t₁', run, run', fun o => ?_⟩
    by_cases ho : o = l.operand
    · rw [ho, added, added']
      exact List.rel_append (h l.operand) (.cons hl.stride .nil)
    · rw [other o ho, other' o ho]
      exact h o
  · left
    unfold OperandTable.recordStride OperandFormulas.recordStride
    rw [OperandTable.getD_strides, OperandTable.getD_strides, ← length, if_neg hn, if_neg hn]
    exact ⟨_, rfl, rfl⟩

theorem recordStrides_alike {t t' : OperandTable}
    (h : ∀ o, List.Forall₂ (Formula.Renamed σ) (t.strides o) (t'.strides o))
    {ls ls' : List LevelStride} (hls : List.Forall₂ (LevelStride.Renamed σ) ls ls') :
    (∃ e, recordStrides t ls = .error e ∧ recordStrides t' ls' = .error e) ∨
      ∃ t₁ t₁' : OperandTable, recordStrides t ls = .ok t₁ ∧ recordStrides t' ls' = .ok t₁' ∧
        ∀ o, List.Forall₂ (Formula.Renamed σ) (t₁.strides o) (t₁'.strides o) := by
  induction hls generalizing t t' with
  | nil => exact .inr ⟨t, t', rfl, rfl, h⟩
  | @cons l l' ls ls' hl _ ih =>
    unfold recordStrides at ih ⊢
    rw [List.foldlM_cons, List.foldlM_cons]
    obtain ⟨e, run, run'⟩ | ⟨t₁, t₁', run, run', alike⟩ := recordStride_alike h hl
    · rw [run, run']
      exact .inl ⟨e, rfl, rfl⟩
    · rw [run, run']
      exact ih alike

end Analysis

namespace Graph

variable {g : Graph} {u : MicroOp} {a b : Register} {opidx : Int} {settings : Settings}

def begun (g : Graph) : Walk BaseState :=
  { client := {}, journal := [.analyzing g.name g.blocks.length] }

section Outcome

variable {stop : Stop} {w : Walk BaseState} {work : Analysis.StrideWork}

theorem analyze_of_basesError (h : (Analysis.computeBases settings g g.operandSites).run g.begun = .error stop w) :
    g.analyze settings = .error stop := by
  unfold begun at h
  unfold analyze analyzeWithJournal
  dsimp only
  rw [h]

variable (hw : (Analysis.computeBases settings g g.operandSites).run g.begun = .ok () w)

include hw

theorem analyze_of_stridesError
    (h : (Analysis.computeAllStrides settings g w.client.bases g.operandSites).run { journal := w.journal } =
      .error stop work) : g.analyze settings = .error stop := by
  unfold begun at hw
  unfold analyze analyzeWithJournal
  dsimp only
  rw [hw]
  dsimp only
  rw [h]

theorem analyze_of_strides
    (h : (Analysis.computeAllStrides settings g w.client.bases g.operandSites).run { journal := w.journal } =
      .ok () work) :
    g.analyze settings = match Analysis.recordStrides w.client.bases work.strides.reverse with
      | .error f => .error (.failed f)
      | .ok formulas => .ok { name := g.name, sites := g.operandSites, formulas } := by
  unfold begun at hw
  unfold analyze analyzeWithJournal
  dsimp only
  rw [hw]
  dsimp only
  rw [h]
  dsimp only
  cases Analysis.recordStrides w.client.bases work.strides.reverse with
  | error f => rfl
  | ok formulas => rfl

end Outcome

def watchedJournal (settings : Settings) (g : Graph) (u : MicroOp) (a b : Register) : Journal :=
  match (Analysis.computeBases settings g g.operandSites).run g.begun with
  | .error _ w => w.journal
  | .ok _ w =>
    match (Analysis.computeAllStridesBy (Stride.watched · u a b) settings g w.client.bases g.operandSites).run
        {} with
    | .error _ work => work.journal ++ w.journal
    | .ok _ work => work.journal ++ w.journal

theorem mapOps_id (g : Graph) : g.mapOps (fun v => v) = g := by
  have same : ∀ block : Block, block.mapOps (fun v => v) = block := by
    intro block
    simp [Block.mapOps]
  simp [mapOps, same]

theorem operandSites_sumAsAddress (hu : u.AddsRegisters a b) :
    (g.sumAsAddress u a b opidx).operandSites = g.operandSites := by
  apply operandSites_mapOps
  intro _ _ v _ block i
  unfold MicroOp.inAddress
  split
  · next hv =>
    rw [hv]
    simp [opSites, hu.memoryOperands, MicroOp.asAddress]
  · rfl

theorem bases_refl {t t' : OperandTable} (known : ∀ o, Option.Rel (Formula.Renamed .id) (t.base? o) (t'.base? o))
    (o : OperandId) : Option.Rel (Formula.Renamed .id) (t.base? o) (t.base? o) := by
  have base := known o
  generalize t.base? o = f?, t'.base? o = f'? at base ⊢
  cases base with
  | none => exact .none
  | some h => exact .some h.refl_left

section Rewriting

variable (settings : Settings) (hg : g.WellFormed) (hsum : g.HasSum u a b)

include hg hsum

theorem computeBases_sumAsAddress (opidx : Int) :
    Base.M.FollowedBy (fun e => e.missesOperand u.site = true) True Eq
      (Analysis.computeBases settings g g.operandSites)
      (Analysis.computeBases settings (g.sumAsAddress u a b opidx) g.operandSites) :=
  Analysis.computeBases_follows (hsum.rewrites opidx) fun _ => (listsOperands_operandSites hg).operandAt

variable {bases bases' : OperandTable}
  (known : ∀ o, Option.Rel (Formula.Renamed .id) (bases.base? o) (bases'.base? o))

include known

theorem computeAllStrides_watched :
    Follows (Analysis.likeness (fun e => e.missesOperand u.site = true) .id) True Eq
      (Analysis.computeAllStridesBy (Stride.watched · u a b) settings g bases g.operandSites)
      (Analysis.computeAllStrides settings g bases g.operandSites) := by
  have nothing : g.Rewrites (fun v => v) .id u a b 0 := rewrites_id hsum.words
  have follows : Follows (Analysis.likeness (fun e => e.missesOperand u.site = true) .id) True Eq
      (Analysis.computeAllStridesBy (Stride.watched · u a b) settings g bases g.operandSites)
      (Analysis.computeAllStrides settings (g.mapOps fun v => v) bases g.operandSites) :=
    Analysis.computeAllStrides_follows nothing (bases_refl known) fun _ =>
      (listsOperands_operandSites hg).operandAt
  rw [mapOps_id] at follows
  exact follows

theorem computeAllStrides_sumAsAddress (opidx : Int) :
    Follows (Analysis.likeness (fun e => e.missesOperand u.site = true) (u.sumNames a b)) True Eq
      (Analysis.computeAllStridesBy (Stride.watched · u a b) settings g bases g.operandSites)
      (Analysis.computeAllStrides settings (g.sumAsAddress u a b opidx) bases' g.operandSites) :=
  Analysis.computeAllStrides_follows (hsum.rewrites opidx) known fun _ =>
    (listsOperands_operandSites hg).operandAt

end Rewriting

/-- The strides of a routine do not depend on whether `u` computes the sum of `a` and `b` by an addition
or as an address, unless the addition is computed while it is not known what it adds up, or while one
addend is an open sum and the other one a finished stride. -/
theorem analyze_sumAsAddress (hg : g.WellFormed) (hsum : g.HasSum u a b) (opidx : Int) (settings : Settings)
    (watched : ∀ e ∈ g.watchedJournal settings u a b, e.missesOperand u.site = false) :
    SameAnswer (RoutineFormulas.SameStrides (u.sumNames a b)) (g.analyze settings)
      ((g.sumAsAddress u a b opidx).analyze settings) := by
  have sites : (g.sumAsAddress u a b opidx).operandSites = g.operandSites :=
    operandSites_sumAsAddress hsum.adds
  have bases := computeBases_sumAsAddress settings hg hsum opidx
  have begins : (Base.likeness u.site).Beside g.begun (g.sumAsAddress u a b opidx).begun :=
    ⟨.empty, rfl, rfl⟩
  unfold watchedJournal at watched
  cases run : (Analysis.computeBases settings g g.operandSites).run g.begun with
  | error stop w =>
    rw [run] at watched
    obtain ⟨w', run', _⟩ := bases.run_error begins run fun e he => ne_true_of_eq_false (watched e he)
    rw [← sites] at run'
    rw [analyze_of_basesError run, analyze_of_basesError run']
    exact .error _
  | ok _ w =>
    rw [run] at watched
    dsimp only at watched
    have told : ∀ e ∈ w.journal, ¬e.missesOperand u.site = true := by
      intro e he
      apply ne_true_of_eq_false
      apply watched e
      split
      · exact List.mem_append_right _ he
      · exact List.mem_append_right _ he
    obtain ⟨_, w', run', _, alike⟩ := bases.run_ok begins run told
    rw [← sites] at run'
    have known : ∀ o, Option.Rel (Formula.Renamed .id) (w.client.bases.base? o) (w'.client.bases.base? o) :=
      alike.1.bases
    have strides := computeAllStrides_watched settings hg hsum known
    have strides' := computeAllStrides_sumAsAddress settings hg hsum known opidx
    cases found : (Analysis.computeAllStridesBy (Stride.watched · u a b) settings g w.client.bases
        g.operandSites).run {} with
    | error stop work =>
      rw [found] at watched
      have clean : ∀ e ∈ work.journal, ¬e.missesOperand u.site = true :=
        fun e he => ne_true_of_eq_false (watched e (List.mem_append_left _ he))
      obtain ⟨_, ended, _⟩ := strides.run_error (.begin .id [] w.journal) found clean
      obtain ⟨_, ended', _⟩ := strides'.run_error (.begin _ [] w'.journal) found clean
      rw [← sites] at ended'
      rw [analyze_of_stridesError run ended, analyze_of_stridesError run' ended']
      exact .error _
    | ok _ work =>
      rw [found] at watched
      have clean : ∀ e ∈ work.journal, ¬e.missesOperand u.site = true :=
        fun e he => ne_true_of_eq_false (watched e (List.mem_append_left _ he))
      obtain ⟨_, work₁, ended, _, alike₁⟩ := strides.run_ok (.begin .id [] w.journal) found clean
      obtain ⟨_, work₂, ended', _, alike₂⟩ := strides'.run_ok (.begin _ [] w'.journal) found clean
      rw [← sites] at ended'
      rw [analyze_of_strides run ended, analyze_of_strides run' ended', sites]
      have none : ∀ o, w.client.bases.strides o = [] :=
        (wp_ok (Analysis.computeBases_contents g.operandSites g.begun) run).strides
      have none' : ∀ o, w'.client.bases.strides o = [] :=
        (wp_ok (Analysis.computeBases_contents _ (g.sumAsAddress u a b opidx).begun) run').strides
      have start : ∀ o, List.Forall₂ (Formula.Renamed (u.sumNames a b)) (w.client.bases.strides o)
          (w'.client.bases.strides o) := by
        intro o
        rw [none, none']
        exact .nil
      have strides := Analysis.strides_of_id alike₁.strides alike₂.strides
      obtain ⟨f, record, record'⟩ | ⟨t, t', record, record', recorded⟩ :=
        Analysis.recordStrides_alike start (List.rel_reverse strides)
      · rw [record, record']
        exact .error _
      · rw [record, record']
        refine .ok ⟨rfl, fun o => ?_⟩
        exact (recorded o).imp fun _ _ h => h.sameStride

section Loops

open MicroOp

variable {ops : List MicroOp}

theorem hasSum_loopOf (hu : u.AddsRegisters a b) (alone : ∀ v ∈ ops, v.pc = u.pc → v = u)
    (words : ∀ v ∈ ops, v.HasWords) : (loopOf ops).HasSum u a b := by
  have member : ∀ c i v, (loopOf ops).op? c i = some v → v ∈ ops := by
    intro c i v hv
    obtain ⟨block, hblock, hop⟩ := op?_eq_some.mp hv
    match c with
    | 0 =>
      cases hblock
      cases hop
    | 1 =>
      cases hblock
      exact List.mem_of_getElem? hop
    | _ + 2 => cases hblock
  exact ⟨hu, fun c i v hv => alone v (member c i v hv), fun c i v hv => words v (member c i v hv)⟩

def rax : Register := ⟨.listed 0, 0, 63⟩

def rbx : Register := ⟨.listed 4, 0, 63⟩

def addition (pc : Nat) : MicroOp :=
  compute pc .add rax [.register rax, .register rbx]

theorem addsRegisters_addition (pc : Nat) : (addition pc).AddsRegisters rax rbx :=
  ⟨rfl, rfl, rfl, ⟨_, rfl⟩, rfl, rfl, by decide⟩

def steadyOps : List MicroOp := [loadFrom rax, addition 0x14]

theorem analyze_sumAsAddress_steadyOps :
    (loopOf steadyOps).WellFormed ∧ (loopOf steadyOps).HasSum (addition 0x14) rax rbx ∧
      (∀ e ∈ (loopOf steadyOps).watchedJournal {} (addition 0x14) rax rbx,
        e.missesOperand (addition 0x14).site = false) ∧
      SameAnswer (RoutineFormulas.SameStrides ((addition 0x14).sumNames rax rbx))
        ((loopOf steadyOps).analyze {})
        (((loopOf steadyOps).sumAsAddress (addition 0x14) rax rbx 0).analyze {}) := by
  obtain ⟨_, loop⟩ := oneBlockLoop_loopOf steadyOps
  have hasSum : (loopOf steadyOps).HasSum (addition 0x14) rax rbx :=
    hasSum_loopOf (addsRegisters_addition _) (by decide) (by decide)
  have watched : ∀ e ∈ (loopOf steadyOps).watchedJournal {} (addition 0x14) rax rbx,
      e.missesOperand (addition 0x14).site = false := by
    decide +kernel
  exact ⟨loop.built.wellFormed, hasSum, watched,
    analyze_sumAsAddress loop.built.wellFormed hasSum 0 {} watched⟩

def openSumOps : List MicroOp :=
  [loadFrom rax, compute 0x14 .add rbx [.register rbx, .immediate 8], addition 0x18]

theorem analyze_openSumOps :
    (loopOf openSumOps).WellFormed ∧ (loopOf openSumOps).HasSum (addition 0x18) rax rbx ∧
      (∃ r ∈ ((loopOf openSumOps).analyze {}).toOption,
        (r.strides ⟨0x10, 0⟩).map (fun f => (f.constantValue?, f.access.irregular)) = [(none, true)]) ∧
      ∃ r ∈ (((loopOf openSumOps).sumAsAddress (addition 0x18) rax rbx 0).analyze {}).toOption,
        (r.strides ⟨0x10, 0⟩).map (fun f => (f.constantValue?, f.access.irregular)) =
          [(some (.ofInt 8), false)] := by
  obtain ⟨_, loop⟩ := oneBlockLoop_loopOf openSumOps
  exact ⟨loop.built.wellFormed, hasSum_loopOf (addsRegisters_addition _) (by decide) (by decide),
    by decide +kernel, by decide +kernel⟩

end Loops

end Graph

end AddressFormulas
