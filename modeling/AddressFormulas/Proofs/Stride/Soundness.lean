import AddressFormulas.Proofs.Stride.Completion
import AddressFormulas.Proofs.Stride.Sliced
import AddressFormulas.Proofs.Stride.Turn

namespace AddressFormulas.Stride

open WalkM Formula Loop Skeleton

/-- A loop of one block with a way around it, a run of the loop, and register `R` before its
micro-op `L`, whose value depends on counters only. -/
structure Stage (task : Task) (p : CyclicPath) (low top b : Nat) (block : Block)
    (dest : Nat → Register) (st : Nat → Nat → Registers) (ρ : TermKey → BitVec 64) (L : Nat)
    (R : Register) : Prop where
  setting : Setting task p low top
  alone : Alone task p b block
  scene : Scene block.ops dest st ρ
  steady : Steady block.ops L R

structure Wanted (ops : List MicroOp) (dest : Nat → Register) (st : Nat → Nat → Registers)
    (ρ : TermKey → BitVec 64) (L : Nat) (R : Register) (closed : Finset Nat) (l : Ledger) (i : Nat)
    (r : Register) : Prop where
  plain : IsPlain r
  faithful : Faithful ops dest st ρ closed l
  relevant : ∀ {a d : Nat}, origin? ops i r = some (a, d) → Relevant ops L R a
  leads : ∀ {a d s t : Nat}, origin? ops i r = some (a, d) → Pends ops l s t → Leads ops s a

section Course

variable {ops : List MicroOp} {p : CyclicPath} {w w' : Walk StrideState} {site : Site} {s t : Nat}

theorem ordered_of_inv (distinct : ∀ (i j : Nat) (u v : MicroOp), ops[i]? = some u →
    ops[j]? = some v → u.site = v.site → i = j) (h : (skeleton w).Inv p) :
    Ordered ops (ledger w) where
  unique s s' t := by
    rintro ⟨v, hv, progress, visit⟩ ⟨v', hv', progress', visit'⟩
    exact distinct s s' v v' hv hv'
      (h.visit_inj v.site v'.site progress progress' (visit.trans visit'.symm))
  bounded s t := by
    rintro ⟨v, _, progress, rfl⟩
    exact h.visit_le v.site progress
  open' c hc := (h.cycles_open c hc).1

theorem Pends.of_enter {l : Ledger} {u : MicroOp} {j count : Nat}
    (distinct : ∀ (i j : Nat) (u v : MicroOp), ops[i]? = some u → ops[j]? = some v →
      u.site = v.site → i = j) (hu : ops[j]? = some u) (h : Pends ops (l.enter u.site count) s t) :
    s = j ∨ Pends ops l s t := by
  obtain ⟨v, hv, progress, visit⟩ := h
  by_cases he : v.site = u.site
  · exact .inl (distinct s j v u hv hu he)
  · rw [(changes_enter l u.site count).notes _ he] at progress visit
    exact .inr ⟨v, hv, progress, visit⟩

theorem pends_frame (h : Frame (skeleton w) (skeleton w')) :
    Pends ops (ledger w') s t ↔ Pends ops (ledger w) s t := by
  have progress : ∀ site, ((ledger w').notes site).loopCount = ((ledger w).notes site).loopCount :=
    fun site => congrFun h.loopCount site
  constructor
  · rintro ⟨v, hv, hp, visit⟩
    rw [progress] at hp
    exact ⟨v, hv, hp, (h.visit v.site hp).symm.trans visit⟩
  · rintro ⟨v, hv, hp, visit⟩
    exact ⟨v, hv, (progress v.site).symm ▸ hp, (h.visit v.site hp).trans visit⟩

theorem pends_entered (h : Frame ((skeleton w).enter site) (skeleton w')) :
    Pends ops (ledger w') s t ↔
      Pends ops ((ledger w).enter site (w.client.backEdges + 1)) s t := by
  have progress : ∀ c, ((ledger w').notes c).loopCount =
      (((ledger w).enter site (w.client.backEdges + 1)).notes c).loopCount := by
    intro c
    refine (congrFun h.loopCount c).trans ?_
    by_cases hc : c = site
    · simp [hc, Skeleton.enter, Ledger.enter, Ledger.note, skeleton]
    · simp [hc, Skeleton.enter, Ledger.enter, Ledger.note, skeleton, ledger]
  have visits : ∀ c, 0 < ((ledger w').notes c).loopCount → ((ledger w').notes c).visit =
      (((ledger w).enter site (w.client.backEdges + 1)).notes c).visit := by
    intro c hp
    have hp' : 0 < (skeleton w').loopCount c := hp
    rw [h.loopCount] at hp'
    refine (h.visit c hp').trans ?_
    by_cases hc : c = site
    · simp [hc, Skeleton.enter, Ledger.enter, Ledger.note, skeleton, ledger]
    · simp [hc, Skeleton.enter, Ledger.enter, Ledger.note, skeleton, ledger]
  constructor
  · rintro ⟨v, hv, hp, visit⟩
    exact ⟨v, hv, progress v.site ▸ hp, (visits v.site hp).symm.trans visit⟩
  · rintro ⟨v, hv, hp, visit⟩
    rw [← progress] at hp
    exact ⟨v, hv, hp, (visits v.site hp).trans visit⟩

end Course

section Slices

variable {task : Task} {p : CyclicPath} {low top b : Nat} {block : Block} {dest : Nat → Register}
  {st : Nat → Nat → Registers} {ρ : TermKey → BitVec 64} {L : Nat} {R : Register}
  {w : Walk StrideState} {closed : Finset Nat} {depth i j before : Nat} {reg : Register}

abbrev WalkSlices (task : Task) (p : CyclicPath) (low b : Nat) (block : Block)
    (dest : Nat → Register) (st : Nat → Nat → Registers) (ρ : TermKey → BitVec 64) (L : Nat)
    (R : Register) : Nat → Prop :=
  WalkYields task p low b block (Wanted block.ops dest st ρ L R) (Sliced block.ops dest st ρ)

structure Supplied (ops : List MicroOp) (dest : Nat → Register) (st : Nat → Nat → Registers)
    (ρ : TermKey → BitVec 64) (closed : Finset Nat) (l : Ledger) (j : Nat) (rs : List Register)
    (closed' : Finset Nat) (top : List (Register × ValueSource)) (l' : Ledger) : Prop where
  subset : closed ⊆ closed'
  faithful : Faithful ops dest st ρ closed' l'
  values : l'.values = puts top ++ l.values
  registers : (top.map Prod.fst).Perm (rs.map Register.canonical)
  source : ∀ e ∈ top, ComesFrom ops j e.1 e.2
  opens : OpensOnly ops l l' fun t => ∃ e ∈ top, e.2.target = t

variable (hS : Stage task p low top b block dest st ρ L R)

include hS

theorem sliceSources_sliced (hw : WalkSlices task p low b block dest st ρ L R depth) {u : MicroOp}
    (hu : block.ops[j]? = some u) (hlinear : u.IsLinear (dest j))
    (hdiffers : u.operation = .sub → readsSameTwice u = false) (hrel : Relevant block.ops L R j)
    {sources : List Register} (hsources : ∀ r ∈ sources, r ∈ u.sourceRegisters)
    (hlead : ∀ s t, Pends block.ops (ledger w) s t → Leads block.ops s j)
    (hfaithful : Faithful block.ops dest st ρ closed (ledger w)) (hinv : (skeleton w).Inv p)
    (hbehind : (skeleton w).Behind task.graph p b j)
    (hdepth : idle task.graph (skeleton w) * stretch task.graph + reach task.graph < depth) :
    yields ((slicer task).sliceSources ((slicer task).walk task.graph depth) ⟨b, j, u⟩ sources)
      (fun _ w' => (∃ closed' top,
          Supplied block.ops dest st ρ closed (ledger w) j sources closed' top (ledger w')) ∧
        Served p u.pc (skeleton w) (skeleton w')) w := by
  have hload := hlinear.isLoad_eq
  -- slicing a source keeps the frame, which carries every side condition to the next one
  induction sources generalizing w closed with
  | nil =>
    exact ⟨⟨closed, [], Finset.Subset.refl _, hfaithful, rfl, .nil, by simp, .refl _ _⟩,
      .refl hinv _⟩
  | cons r rest ih =>
    have hr := hsources r List.mem_cons_self
    have whole := Base.whole_of_mem_sourceRegisters hlinear.toIsArithmetic hr
    obtain ⟨k, hk⟩ := List.mem_iff_getElem?.mp
      ((Base.mem_sourceRegisters hlinear.toIsArithmetic).mp hr)
    have feeds := feed?_eq_origin? hu hload hdiffers hk
    have wanted : Wanted block.ops dest st ρ L R closed (ledger w) j r.canonical := by
      refine ⟨isPlain_canonical whole, hfaithful, fun {a d} ha => ?_, fun {a d s t} ha hs => ?_⟩
      · obtain ⟨c, e, hc, leads⟩ := hrel
        exact ⟨c, e, hc, leads.feed (feeds.trans ha)⟩
      · exact (hlead s t hs).feed (feeds.trans ha)
    refine wp_bind.mpr (wp_imp (sliceSource_yields hS.setting hS.alone hw hu hinv hbehind hdepth whole
      wanted) ?_)
    rintro _ w₁ ⟨⟨closed₁, source, subset₁, faithful₁, values₁, comes, opens₁⟩, served⟩
    have frame : ∀ s t, Pends block.ops (ledger w₁) s t ↔ Pends block.ops (ledger w) s t :=
      fun s t => pends_frame served.frame
    refine wp_imp (ih (fun r hr => hsources r (List.mem_cons_of_mem _ hr))
      (fun s t hs => hlead s t ((frame s t).mp hs)) faithful₁ served.inv
      (hbehind.frame served.frame) (by rw [idle_frame served.frame]; exact hdepth)) ?_
    rintro _ w₂ ⟨⟨closed₂, top, rest₂⟩, served₂⟩
    refine ⟨⟨closed₂, top ++ [(r.canonical, source)], subset₁.trans rest₂.subset, rest₂.faithful,
      ?_, ?_, ?_, ?_⟩, served.trans served₂⟩
    · rw [rest₂.values, values₁]
      simp [puts]
    · rw [List.map_append, List.map_cons]
      exact (List.perm_append_singleton _ _).trans (rest₂.registers.cons _)
    · intro e he
      obtain he | he := List.mem_append.mp he
      · exact rest₂.source e he
      · rw [List.mem_singleton.mp he]
        exact comes
    · refine (opens₁.trans rest₂.opens fun s t => (frame s t).mpr).mono fun t ht => ?_
      obtain rfl | ⟨e, he, rfl⟩ := ht
      · exact ⟨_, List.mem_append_right _ (List.mem_singleton_self _), rfl⟩
      · exact ⟨e, List.mem_append_left _ he, rfl⟩

end Slices

theorem Ledger.note_note (l : Ledger) (site : Site) (f g : Progress → Progress) :
    (l.note site f).note site g = l.note site fun pr => g (f pr) := by
  simp [Ledger.note]

section Leaving

variable {task : Task} {p : CyclicPath} {low top b : Nat} {block : Block} {dest : Nat → Register}
  {st : Nat → Nat → Registers} {ρ : TermKey → BitVec 64} {L : Nat} {R : Register}
  {w w₁ : Walk StrideState} {closed : Finset Nat} {depth i j d before : Nat} {reg : Register}
  {u : MicroOp}

theorem calm_of_idle {site : Site} (hinv : (skeleton w).Inv p)
    (hidle : ((ledger w).notes site).loopCount = 0) : ∀ c ∈ (ledger w).cycles, c.site ≠ site := by
  rintro c hc rfl
  have progress : 0 < ((ledger w).notes c.site).loopCount := (hinv.cycles_open c hc).1
  omega

theorem finishOp_passes {f : Progress → Progress}
    (hl : ledger w₁ = { ledger w with visits := (ledger w).visits + 1 }.note u.site f)
    (hcalm : ∀ c ∈ (ledger w).cycles, c.site ≠ u.site)
    (hformula : (f ((ledger w).notes u.site)).formula ≠ none)
    (hreuse : (f ((ledger w).notes u.site)).reuse = true) (hr : reg.isWhole = true) :
    yields (finishOp task ⟨b, j, u⟩ reg) (fun _ w' => ledger w' = (ledger w).pass u.site reg
      { f ((ledger w).notes u.site) with loopCount := 0 }) w₁ := by
  have note : (ledger w₁).notes u.site = f ((ledger w).notes u.site) := by
    rw [hl]
    simp [Ledger.note]
  have cycles : (ledger w₁).cycles = (ledger w).cycles := by
    rw [hl]
    rfl
  refine wp_imp (finishOp_again hr (u := ⟨b, j, u⟩) (cycles ▸ hcalm) (note ▸ hformula)
    (note ▸ hreuse)) fun _ w' h => ?_
  rw [h, note, hl, Ledger.note_note]
  rfl

theorem Scene.result_equal {ops : List MicroOp} (S : Scene ops dest st ρ) (hu : ops[j]? = some u)
    (hload : u.isLoad = false) (hop : u.operation = .sub) (hsame : readsSameTwice u = true) (t : Nat) :
    result dest st j t = 0 := by
  obtain ⟨a, ha⟩ : ∃ a, u.sources = [.register a, .register a] := by
    have arity := (S.body.linear j u hu hload).operands
    rw [hop] at arity
    obtain ⟨x, y, hxy⟩ := List.length_eq_two.mp (Option.some.inj arity).symm
    unfold readsSameTwice at hsame
    rw [hxy] at hsame ⊢
    split at hsame
    · next c e _ heq =>
      cases heq
      exact ⟨c, by rw [of_decide_eq_true hsame]⟩
    · cases hsame
  refine S.body.result_eq S.run hu hload t ?_
  rw [ha, hop]
  exact congrArg some (sub_self _)

theorem isLoad_of_effect (h : u.effect ≠ .hard) : u.isLoad = false := by
  by_contra hload
  have kind : u.kind = .load := by simpa [MicroOp.isLoad] using hload
  exact h (by simp [MicroOp.effect, MicroOp.isBranch, MicroOp.isLoad, kind])

theorem Scene.isLoad_of_hard {ops : List MicroOp} (S : Scene ops dest st ρ) (hu : ops[j]? = some u)
    (h : u.effect = .hard) : u.isLoad = true := by
  by_contra hload
  have linear := S.body.linear j u hu (by simpa using hload)
  rw [Base.effect_arithmetic linear.toIsArithmetic] at h
  split at h <;> cases h

theorem Scene.effect_possible {ops : List MicroOp} (S : Scene ops dest st ρ)
    (hu : ops[j]? = some u) : u.effect ≠ .impossible := by
  cases hload : u.isLoad with
  | true =>
    have kind : u.kind = .load := by simpa [MicroOp.isLoad] using hload
    simp [MicroOp.effect, MicroOp.isBranch, MicroOp.isLoad, kind]
  | false =>
    rw [Base.effect_arithmetic (S.body.linear j u hu hload).toIsArithmetic]
    split <;> simp

theorem Scene.operation_of_normal {ops : List MicroOp} (S : Scene ops dest st ρ)
    (hu : ops[j]? = some u) (h : u.effect = .normal) :
    u.operation ≠ .invalid ∧ u.operation ≠ .xor := by
  obtain hop | hop | hop := (S.body.linear j u hu (isLoad_of_effect (by simp [h]))).linear <;>
    simp [hop]

theorem not_clean_markLoad (f : Formula) (site : Site) : ¬(f.markLoad site).Clean := by
  intro clean
  have indirect : f.access.indirect.through site = .none := congrArg Access.indirect clean.unmarked
  unfold Indirection.through at indirect
  split at indirect <;> cases indirect

theorem Supplied.prepared {w₂ w₃ : Walk StrideState} {closed' : Finset Nat}
    {top : List (Register × ValueSource)} {pc : Nat} {rs : List Register}
    (S : Scene block.ops dest st ρ) (hu : block.ops[j]? = some u)
    (hfaithful : Faithful block.ops dest st ρ closed (ledger w)) (hinv : (skeleton w).Inv p)
    (hidle : ((ledger w).notes u.site).loopCount = 0) (hfresh : ¬(ledger w).reusable u.site)
    (hl : ledger w₂ = (ledger w).enter u.site (w.client.backEdges + 1))
    (h : Supplied block.ops dest st ρ closed (ledger w₂) j rs closed' top (ledger w₃))
    (hserved : Served p pc ((skeleton w).enter u.site) (skeleton w₃)) :
    Prepared block.ops dest st ρ closed closed' (ledger w) (ledger w₃) j u top where
  op := hu
  before := hfaithful
  ordered := ordered_of_inv S.distinct hinv
  idle := hidle
  fresh := hfresh
  subset := h.subset
  faithful := h.faithful
  ordered' := ordered_of_inv S.distinct hserved.inv
  values := by
    rw [h.values, hl]
    rfl
  progress := by
    have count : ((ledger w₃).notes u.site).loopCount = (skeleton w).backEdges + 1 :=
      (congrFun hserved.frame.loopCount u.site).trans (Function.update_self _ _ _)
    omega
  visit := by
    have entered : ((skeleton w).enter u.site).InProgress u.site := inProgress_enter.mpr (.inl rfl)
    exact (hserved.frame.visit u.site entered).trans (Function.update_self _ _ _)
  frame s t hs := (pends_entered hserved.frame).mpr (hs.enter hidle)
  opens := ⟨w.client.backEdges + 1, Nat.succ_pos _, hl ▸ h.opens⟩

theorem Prepared.finishOp_sliced {closed' : Finset Nat} {top : List (Register × ValueSource)}
    {pc : Nat} (S : Scene block.ops dest st ρ)
    (hp : Prepared block.ops dest st ρ closed closed' (ledger w) (ledger w₁) j u top)
    (hinv : (skeleton w).Inv p) (hserved : Served p pc ((skeleton w).enter u.site) (skeleton w₁))
    (horigin : origin? block.ops i reg = some (j, d)) (hr : reg.isWhole = true)
    (hload : u.isLoad = false)
    (hturn : ∀ {k a d e : Nat}, feed? block.ops j k = some (a, d) → Reaches block.ops j a e →
      d + e = 1)
    (hvalue : ∀ w', ledger w' = ledger w₁ → yields (definitionValue task u reg) (fun v w'' =>
      Computed block.ops dest st ρ closed' (ledger w₁) j top (ledger w).values v (ledger w'')) w') :
    yields (finishOp task ⟨b, j, u⟩ reg)
      (fun _ w' => Sliced block.ops dest st ρ closed (ledger w) i reg (ledger w')) w₁ := by
  have closing : w₁.client.atCycleStart u.site =
      decide (((ledger w₁).notes u.site).formula ≠ none) := by
    have start : w₁.client.atCycleStart u.site = true ↔ ∃ c ∈ (ledger w₁).cycles, c.site = u.site :=
      hserved.inv.any_head?_iff fun s => hserved.visit_lt hinv
    have progress := hp.progress
    cases hp.faithful.status j u hp.op with
    | entered _ _ none calm =>
      have calm' : ¬w₁.client.atCycleStart u.site = true := by
        rw [start]
        rintro ⟨c, hc, he⟩
        exact calm c hc he
      simpa [none] using calm'
    | seeded _ _ zero _ _ cycle =>
      rw [start.mpr cycle]
      simp [zero]
    | blank idle => omega
    | added idle => omega
    | settled idle => omega
  refine wp_imp (finishOp_compute (u := ⟨b, j, u⟩)
    (Q := Computed block.ops dest st ρ closed' (ledger w₁) j top (ledger w).values) hr closing
    (fun _ => hload) (by simp) hvalue) ?_
  rintro _ w' ⟨v, _, ⟨contributes, targets, rfl⟩, h⟩
  rw [h]
  by_cases hopen : ((ledger w₁).notes u.site).formula = none
  · simpa [hopen] using hp.sliced_passing S targets horigin hload contributes hopen
  · obtain ⟨target, sliced⟩ := hp.sliced_closing S targets horigin hturn contributes hopen
    simpa [hopen, target] using sliced

end Leaving

section Definition

variable {task : Task} {p : CyclicPath} {low top b : Nat} {block : Block} {dest : Nat → Register}
  {st : Nat → Nat → Registers} {ρ : TermKey → BitVec 64} {L : Nat} {R : Register}
  {w w₁ : Walk StrideState} {closed : Finset Nat} {depth i j d before : Nat} {reg : Register}
  {u : MicroOp} (hS : Stage task p low top b block dest st ρ L R)
  (hu : block.ops[j]? = some u) (horigin : origin? block.ops i reg = some (j, d))
  (hwanted : Wanted block.ops dest st ρ L R closed (ledger w) i reg)
  (hinv : (skeleton w).Inv p)

include hS hu horigin hwanted

theorem Wanted.reg_eq : reg = (dest j).canonical := by
  obtain ⟨_, v, written, hv, hd⟩ := Body.origin?_spec horigin
  obtain rfl : v = u := Option.some.inj (hv.symm.trans hu)
  rw [hS.scene.body.defines? hu hwanted.plain.1, hwanted.plain.2] at hd
  by_contra hne
  rw [if_neg hne] at hd
  cases hd

include hinv

theorem entered_sliced (hidle : ((ledger w).notes u.site).loopCount = 0)
    (h : Entered (ledger w) u (w.client.backEdges + 1) false (ledger w₁))
    (hserved : Served p u.pc ((skeleton w).enter u.site) (skeleton w₁)) :
    yields (finishOp task ⟨b, j, u⟩ reg)
      (fun _ w' => Sliced block.ops dest st ρ closed (ledger w) i reg (ledger w')) w₁ := by
  have S := hS.scene
  have hfaithful := hwanted.faithful
  have hr := hwanted.plain.1
  have hreg := hwanted.reg_eq hS hu horigin
  have hcalm := calm_of_idle hinv hidle
  generalize hl₁ : ledger w₁ = l₁ at h
  -- the ways in which `enterOp` can decide that no sources are to be sliced
  cases h with
  | pending progress => omega
  | again _ reusable =>
    refine wp_imp (finishOp_passes hl₁ hcalm reusable.1 rfl hr) fun _ w' h => ?_
    rw [h]
    exact hfaithful.sliced_again S.distinct hu horigin hidle reusable rfl ⟨rfl, rfl, rfl, rfl⟩
  | easy _ fresh effect =>
    have hload : u.isLoad = false := isLoad_of_effect (by simp [effect])
    have linear := S.body.linear j u hu hload
    have reads : u.sourceRegisters = [] := by
      by_contra hne
      rw [Base.effect_arithmetic linear.toIsArithmetic, if_neg hne] at effect
      cases effect
    have entered := hfaithful.enter S.distinct hu (Nat.succ_pos w.client.backEdges) hidle fresh hcalm
    have supplied : Supplied block.ops dest st ρ closed (ledger w₁) j [] closed [] (ledger w₁) :=
      ⟨Finset.Subset.refl _, hl₁ ▸ entered, rfl, .nil, by simp, .refl _ _⟩
    have prepared := supplied.prepared S hu hfaithful hinv hidle fresh hl₁ hserved
    refine prepared.finishOp_sliced S hinv hserved horigin hr hload
      (hS.steady.turn (hwanted.relevant horigin)) fun w' hw' => ?_
    rw [hreg]
    refine wp_imp (easyValue_yields S hu linear reads hS.setting.lax) ?_
    rintro v w'' ⟨target, kind, overflow, describes, same⟩
    refine ⟨.fixed target (by simp [kind]) fun y e => ?_, by simp, ?_⟩
    · rw [kind]
      exact describes _ y e
    · rw [same, hw', hl₁]
      rfl
  | equal _ fresh effect hop same =>
    have hload : u.isLoad = false := isLoad_of_effect (by simp [effect])
    rw [Ledger.enter, Ledger.note_note] at hl₁
    refine wp_imp (finishOp_passes hl₁ hcalm (by simp) rfl hr) fun _ w' h => ?_
    rw [h]
    exact hfaithful.sliced_settled S.distinct hu horigin hidle fresh rfl rfl rfl rfl rfl
      fun _ _ _ => .invariant plain_zero fun t => S.result_equal hu hload hop same t
  | @load f _ fresh effect plain overflow =>
    have hload := S.isLoad_of_hard hu effect
    have target : ((ledger w).notes u.site).target = 0 := by
      cases hfaithful.status j u hu with
      | blank _ _ target => exact target
      | entered progress => omega
      | seeded progress => omega
      | added _ _ _ _ load => simp [hload] at load
      | settled _ _ _ _ target => exact target
    rw [Ledger.enter, Ledger.note_note] at hl₁
    refine wp_imp (finishOp_passes hl₁ hcalm (by simp) rfl hr) fun _ w' h => ?_
    rw [h]
    exact hfaithful.sliced_settled S.distinct hu horigin hidle fresh rfl rfl overflow rfl target
      fun _ _ _ => ⟨⟨plain.ascending, plain.integral⟩, fun clean => absurd clean (not_clean_markLoad _ _)⟩

theorem sources_sliced (hw : WalkSlices task p low b block dest st ρ L R depth)
    (hbehind : (skeleton w₁).Behind task.graph p b j)
    (hdepth : idle task.graph (skeleton w₁) * stretch task.graph + reach task.graph < depth)
    (hidle : ((ledger w).notes u.site).loopCount = 0) (hfresh : ¬(ledger w).reusable u.site)
    (heffect : u.effect = .normal) (hdiffers : u.operation = .sub → readsSameTwice u = false)
    (hl₁ : ledger w₁ = (ledger w).enter u.site (w.client.backEdges + 1))
    (hserved : Served p u.pc ((skeleton w).enter u.site) (skeleton w₁)) :
    yields ((slicer task).sliceSources ((slicer task).walk task.graph depth) ⟨b, j, u⟩
        u.sourceRegisters)
      (fun _ w₂ => Served p u.pc ((skeleton w).enter u.site) (skeleton w₂) ∧
        yields (finishOp task ⟨b, j, u⟩ reg)
          (fun _ w' => Sliced block.ops dest st ρ closed (ledger w) i reg (ledger w')) w₂) w₁ := by
  have S := hS.scene
  have hload : u.isLoad = false := isLoad_of_effect (by simp [heffect])
  have linear := S.body.linear j u hu hload
  have reads : u.sourceRegisters ≠ [] := by
    intro none
    rw [Base.effect_arithmetic linear.toIsArithmetic, if_pos none] at heffect
    cases heffect
  have relevant := hwanted.relevant horigin
  -- whatever is in progress while the sources are sliced depends on this micro-op
  have lead : ∀ w' : Walk StrideState, Frame ((skeleton w).enter u.site) (skeleton w') →
      ∀ s t, Pends block.ops (ledger w') s t → Leads block.ops s j := by
    intro w' frame s t hs
    obtain rfl | hs := ((pends_entered frame).mp hs).of_enter S.distinct hu
    · exact .refl
    · exact hwanted.leads horigin hs
  have faithful₁ : Faithful block.ops dest st ρ closed (ledger w₁) := by
    rw [hl₁]
    exact hwanted.faithful.enter S.distinct hu (Nat.succ_pos _) hidle hfresh (calm_of_idle hinv hidle)
  refine wp_imp (sliceSources_sliced hS hw hu linear hdiffers relevant (fun _ h => h)
    (lead w₁ hserved.frame) faithful₁ hserved.inv hbehind hdepth) ?_
  rintro _ w₂ ⟨⟨closed', top, supplied⟩, served₂⟩
  have served := hserved.trans served₂
  have prepared := supplied.prepared S hu hwanted.faithful hinv hidle hfresh hl₁ served
  refine ⟨served, prepared.finishOp_sliced S hinv served horigin hwanted.plain.1 hload
    (hS.steady.turn relevant) fun w' hw' => ?_⟩
  have supplies : Supplies (Suits block.ops closed' (ledger w₂) j) (Base.claimed u) top := by
    have claimed := Base.claimed_arithmetic linear.toIsArithmetic
    refine ⟨by rw [claimed]; exact supplied.registers, fun r hr => ?_, fun e he => ?_⟩
    · rw [claimed] at hr
      obtain ⟨r', hr', rfl⟩ := List.mem_map.mp hr
      exact isPlain_canonical (Base.whole_of_mem_sourceRegisters linear.toIsArithmetic hr')
    · refine ⟨supplied.source e he, supplied.faithful.backed (.register e.1, e.2) ?_⟩
      rw [supplied.values]
      exact List.mem_append_left _ (List.mem_map_of_mem he)
  have pending : ledger w' = { ledger w₂ with values := puts top ++ (ledger w).values } := by
    rw [hw', ← prepared.values]
  exact definitionValue_yields S supplied.faithful prepared.ordered'.unique hu linear hS.steady
    relevant (lead w₂ served.frame) reads hdiffers reg pending supplies

theorem definition_sliced (hw : WalkSlices task p low b block dest st ρ L R depth)
    (hj : j < before) (hbehind : (skeleton w).Behind task.graph p b before)
    (hwalk : Walking task.graph p low (skeleton w) reg b before)
    (hdepth : idle task.graph (skeleton w) * stretch task.graph ≤ depth) :
    yields (do
        tell (.definitionFound u.site reg)
        if ← enterOp task ((slicer task).follow task.graph depth) ⟨b, j, u⟩ reg then
          (slicer task).sliceSources ((slicer task).walk task.graph depth) ⟨b, j, u⟩ u.sourceRegisters
        leaveOp task ⟨b, j, u⟩ reg)
      (fun _ w' => Sliced block.ops dest st ρ closed (ledger w) i reg (ledger w')) w := by
  have S := hS.scene
  have hd : u.defines? reg ≠ none := by
    rw [S.body.defines? hu hwanted.plain.1, hwanted.plain.2, if_pos (hwanted.reg_eq hS hu horigin)]
    simp
  have operation := S.operation_of_normal hu
  apply definition_yields hS.setting hS.alone hu hd hinv hj hbehind hwalk hdepth
    (fun h => (operation h).1) (fun h hop => absurd hop (operation h).2) (S.effect_possible hu)
    hwanted.plain.1
  case hseed => exact hwanted.faithful.sliced_seed S.distinct hu horigin
  case hpass =>
    intro w₁ entered idle served
    exact entered_sliced hS hu horigin hwanted hinv idle entered served
  case hsources =>
    intro w₁ entered served behind deep
    generalize hl : ledger w₁ = l at entered
    cases entered with
    | sources idle fresh effect differs =>
      exact sources_sliced hS hu horigin hwanted hinv hw behind deep idle fresh effect differs hl
        served

end Definition

theorem walk_slices {task : Task} {p : CyclicPath} {low top b : Nat} {block : Block}
    {dest : Nat → Register} {st : Nat → Nat → Registers} {ρ : TermKey → BitVec 64} {L : Nat}
    {R : Register} (hS : Stage task p low top b block dest st ρ L R) (depth : Nat) :
    WalkSlices task p low b block dest st ρ L R depth := by
  apply walk_yields hS.setting hS.alone
  case hwhole => exact fun wanted => wanted.plain.1
  case houtside => exact fun wanted => wanted.faithful.sliced_outside
  case hdefinition =>
    intro depth closed i j before d reg written u w hw hu horigin hd hinv hj hbehind hwalk hdepth
      wanted
    have written_eq : written = reg := by
      rw [wanted.reg_eq hS hu horigin]
      rw [hS.scene.body.defines? hu wanted.plain.1] at hd
      split at hd
      · exact (Option.some.inj hd).symm
      · cases hd
    subst written_eq
    exact definition_sliced hS hu horigin wanted hinv hw hj hbehind hwalk hdepth

end AddressFormulas.Stride
