import AddressFormulas.Proofs.Analysis.Sites
import AddressFormulas.Proofs.Base.Safety
import AddressFormulas.Proofs.Data.Table
import AddressFormulas.Proofs.Formula.KeyOrder
import AddressFormulas.Proofs.Routine.Reading
import AddressFormulas.Proofs.Stride.Safety

namespace AddressFormulas

namespace OperandTable

variable (t : OperandTable) (o o' : OperandId)

theorem getD_strides : (Table.getD t o {}).strides = t.strides o := by
  unfold Table.getD strides
  cases t.get? o <;> rfl

theorem base?_setBase (f : Formula) :
    (t.setBase o f).base? o' = if o' = o then some f else t.base? o' := by
  unfold setBase base? Table.update
  rw [Table.get?_insert]
  split <;> rfl

theorem strides_setBase (f : Formula) : (t.setBase o f).strides o' = t.strides o' := by
  rw [← getD_strides, setBase, Table.getD_update]
  split
  · next h => rw [h]; exact getD_strides t o
  · exact getD_strides t o'

theorem recordStride_next {level : Nat} (hl : (t.strides o).length = level) (f : Formula) :
    ∃ t' : OperandTable, t.recordStride o level f = .ok t' ∧
      t'.strides o = t.strides o ++ [f] ∧ (∀ p, p ≠ o → t'.strides p = t.strides p) ∧
      ∀ p, t'.base? p = t.base? p := by
  refine ⟨Table.insert t o { Table.getD t o {} with strides := t.strides o ++ [f] }, ?_, ?_, ?_, ?_⟩
  · simp [recordStride, OperandFormulas.recordStride, getD_strides, hl, Except.map]
  · simp [strides]
  · intro p hp
    simp [strides, Table.get?_insert_of_ne hp]
  · intro p
    unfold base?
    rw [Table.get?_insert]
    split
    · next h =>
      subst h
      unfold Table.getD
      cases t.get? p <;> rfl
    · rfl

end OperandTable

namespace Graph

/-- `chain` is loop `m`, the loop around it and so on, without the routine itself. -/
inductive ParentChain (g : Graph) : Nat → List Nat → Prop
  | routine : ParentChain g 0 []
  | loop {m : Nat} {chain : List Nat} : 0 < m → ParentChain g ((g.loopTree[m]?).getD 0) chain →
      ParentChain g m (m :: chain)

theorem parentChain_enclosing {g : Graph} (hg : g.WellFormed) {n m : Nat}
    (hm : m < n ∨ g.loopTree.length ≤ m ∧ 0 < n) : g.ParentChain m (g.enclosing n m) := by
  induction n generalizing m with
  | zero => omega
  | succ n ih =>
    cases m with
    | zero => exact .routine
    | succ m =>
      refine .loop (by omega) ?_
      simp only [loopParent?, Nat.add_one_ne_zero, if_false]
      cases hp : g.loopTree[m + 1]? with
      | none => cases n <;> exact .routine
      | some parent =>
        have := hg.parent_lt (m + 1) parent (by omega) hp
        have := (List.getElem?_eq_some_iff.mp hp).1
        exact ih (.inl (by simp only [Option.getD_some]; omega))

theorem parentChain_enclosingLoops {g : Graph} (hg : g.WellFormed) (m : Nat) :
    g.ParentChain m (g.enclosingLoops m) :=
  parentChain_enclosing hg (by omega)

end Graph

namespace Analysis

variable {settings : Settings} {g : Graph} {bases : OperandTable}

structure BasesFor (sites : List OperandSite) (old t : OperandTable) : Prop where
  known : ∀ s ∈ sites, (t.base? s.id).isSome
  kept : ∀ o, (old.base? o).isSome → (t.base? o).isSome
  strides : ∀ o, t.strides o = old.strides o

theorem computeBases_spec (hs : settings.strict = false) (hg : g.WellFormed)
    {sites : List OperandSite} (hp : ∀ s ∈ sites, ∃ n, g.OperandAt s n) (w : Walk BaseState) :
    wp (computeBases settings g sites)
      (fun _ w' => BasesFor sites w.client.bases w'.client.bases)
      (fun stop _ => stop.IsExhausted) w := by
  induction sites generalizing w with
  | nil => exact ⟨by simp, fun _ h => h, fun _ => rfl⟩
  | cons s rest ih =>
    obtain ⟨n, block, u, m, hb, hu, _, hm, _, ho, _⟩ := hp s List.mem_cons_self
    have safe := Base.address_safe hs hg hb hu ⟨m, List.mem_of_getElem? hm, ho.symm⟩
    simp only [computeBases, wp_bind]
    refine wp_imp (safe w) fun base w' hw => ?_
    refine wp_imp (ih (fun t ht => hp t (List.mem_cons_of_mem s ht)) _) fun _ w'' h => ?_
    have set := fun o => OperandTable.base?_setBase w.client.bases s.id o base
    have kept : w'.client.bases = w.client.bases := hw
    dsimp only at h
    rw [kept] at h
    refine ⟨fun t ht => ?_, fun o ho => ?_, fun o => ?_⟩
    · obtain rfl | ht := List.mem_cons.mp ht
      · exact h.kept t.id (by simp [set])
      · exact h.known t ht
    · refine h.kept o ?_
      rw [set]
      split
      · rfl
      · exact ho
    · rw [h.strides, OperandTable.strides_setBase]

def IsStride (settings : Settings) (g : Graph) (bases : OperandTable) (s : OperandSite)
    (marker : Nat) (f : Formula) : Prop :=
  ∃ w w', (Stride.operandStride { settings, graph := g, bases, marker }
    s.block s.index s.opidx).run w = .ok f w'

/-- `fs` are strides of `s`, one for each of the loops from the first on, up to a loop without a way
around it through the block of `s`. -/
inductive StridesAlong (settings : Settings) (g : Graph) (bases : OperandTable) (s : OperandSite) :
    List Nat → List Formula → Prop
  | all : StridesAlong settings g bases s [] []
  | next {marker : Nat} {rest : List Nat} {f : Formula} {fs : List Formula} :
      IsStride settings g bases s marker f → StridesAlong settings g bases s rest fs →
        StridesAlong settings g bases s (marker :: rest) (f :: fs)
  | noWay {marker : Nat} {rest : List Nat} :
      CyclicPath.find g s.block marker = .error (.noCyclicPath s.block marker) →
        StridesAlong settings g bases s (marker :: rest) []

theorem StridesAlong.eq_nil {s : OperandSite} {fs : List Formula}
    (h : StridesAlong settings g bases s [] fs) : fs = [] := by
  cases h
  rfl

def levelStrides (o : OperandId) (level : Nat) (fs : List Formula) : List LevelStride :=
  (fs.zipIdx level).map fun (f, l) => ⟨o, l, f⟩

theorem inLoop_spec {α : Type} {E : Stop → Prop} {m : Stride.M α} (h : m.StopsOnly E)
    (marker : Nat) (work : StrideWork) :
    wp (inLoop marker m) (fun answer work' => work'.strides = work.strides ∧
        ((∃ a w w', answer = .ok a ∧ m.run w = .ok a w') ∨ ∃ stop, answer = .error stop ∧ E stop))
      (fun _ _ => False) work := by
  let before : Walk StrideState := { work.loops.getD marker { client := {} } with
    client.session := work.session, journal := work.journal }
  have stops := h before
  unfold inLoop
  simp only [wp_bind, wp_get, wp_set, wp_pure]
  cases hr : m.run before with
  | ok a w => exact ⟨trivial, .inl ⟨a, _, w, rfl, hr⟩⟩
  | error stop w => exact ⟨trivial, .inr ⟨stop, rfl, wp_error stops hr⟩⟩

theorem computeStrides_spec (hs : settings.strict = false) (hg : g.WellFormed) {s : OperandSite}
    (hp : ∃ n, g.OperandAt s n) (level : Nat) (markers : List Nat) (work : StrideWork) :
    wp (computeStrides settings g bases s level markers)
      (fun _ work' => ∃ fs, StridesAlong settings g bases s markers fs ∧
        work'.strides.reverse = work.strides.reverse ++ levelStrides s.id level fs)
      (fun stop _ => stop.IsExhausted) work := by
  obtain ⟨n, block, u, m, hb, hu, _, hm, _, ho, _⟩ := hp
  induction markers generalizing level work with
  | nil => exact ⟨[], .all, by simp [levelStrides]⟩
  | cons marker rest ih =>
    let task : Stride.Task := { settings, graph := g, bases, marker }
    have lax : task.settings.strict = false := hs
    have stops := Stride.operandStride_stops lax hg hb hu ⟨m, List.mem_of_getElem? hm, ho.symm⟩
    simp only [computeStrides, wp_bind]
    refine wp_mono (inLoop_spec stops marker work) ?_ (fun _ _ h => h.elim)
    rintro answer work' ⟨hkeep, ⟨f, w, w', rfl, hrun⟩ | ⟨stop, rfl, hstop⟩⟩
    · simp only [wp_bind, wp_modify]
      refine wp_imp (ih (level + 1) _) fun _ work'' h => ?_
      obtain ⟨fs, along, he⟩ := h
      refine ⟨f :: fs, .next ⟨w, w', hrun⟩ along, ?_⟩
      rw [he, hkeep]
      simp [levelStrides]
    · obtain rfl | ⟨rfl, hfind⟩ := hstop
      · exact rfl
      · exact ⟨[], .noWay hfind, by simp [levelStrides, hkeep]⟩

def Found (settings : Settings) (g : Graph) (bases : OperandTable)
    (found : List (OperandSite × List Formula)) : Prop :=
  ∀ x ∈ found, StridesAlong settings g bases x.1 (g.enclosingLoops x.1.marker) x.2

theorem computeAllStrides_spec (hs : settings.strict = false) (hg : g.WellFormed)
    {sites : List OperandSite} (hp : ∀ s ∈ sites, ∃ n, g.OperandAt s n)
    (hb : ∀ s ∈ sites, (bases.base? s.id).isSome) (work : StrideWork) :
    wp (computeAllStrides settings g bases sites)
      (fun _ work' => ∃ found, found.map Prod.fst = sites ∧ Found settings g bases found ∧
        work'.strides.reverse = work.strides.reverse ++
          found.flatMap fun x => levelStrides x.1.id 0 x.2)
      (fun stop _ => stop.IsExhausted) work := by
  induction sites generalizing work with
  | nil => exact ⟨[], rfl, by simp [Found], by simp⟩
  | cons s rest ih =>
    have later := ih (fun t ht => hp t (List.mem_cons_of_mem s ht))
      (fun t ht => hb t (List.mem_cons_of_mem s ht))
    -- what the operands after `s` add to the strides of `s`
    have extend : ∀ fs work', StridesAlong settings g bases s (g.enclosingLoops s.marker) fs →
        work'.strides.reverse = work.strides.reverse ++ levelStrides s.id 0 fs →
        wp (computeAllStrides settings g bases rest)
          (fun _ work'' => ∃ found, found.map Prod.fst = s :: rest ∧
            Found settings g bases found ∧ work''.strides.reverse = work.strides.reverse ++
              found.flatMap fun x => levelStrides x.1.id 0 x.2)
          (fun stop _ => stop.IsExhausted) work' := by
      intro fs work' along he
      refine wp_imp (later work') fun _ work'' h => ?_
      obtain ⟨found, hfst, hfound, he'⟩ := h
      refine ⟨(s, fs) :: found, by simp [hfst], ?_, by simp [he', he]⟩
      intro x hx
      obtain rfl | hx := List.mem_cons.mp hx
      · exact along
      · exact hfound x hx
    unfold computeAllStrides
    split
    · have known : (bases.base? s.id).isNone = false := by
        simpa using hb s List.mem_cons_self
      simp only [known, Bool.false_eq_true, if_false, wp_bind]
      refine wp_imp (computeStrides_spec hs hg (hp s List.mem_cons_self) 0 _ work) ?_
      rintro _ work' ⟨fs, along, he⟩
      exact extend fs work' along he
    · next hm =>
      have hz : s.marker = 0 := by omega
      exact extend [] work (by rw [hz]; exact .all) (by simp [levelStrides])

theorem foldlM_append_ok {ε σ α : Type} {f : σ → α → Except ε σ} {xs ys : List α} {s t : σ}
    (h : xs.foldlM f s = .ok t) : (xs ++ ys).foldlM f s = ys.foldlM f t := by
  rw [List.foldlM_append, h]
  rfl

theorem recordStrides_levels {t : OperandTable} {o : OperandId} {level : Nat}
    (hl : (t.strides o).length = level) (fs : List Formula) :
    ∃ t' : OperandTable, recordStrides t (levelStrides o level fs) = .ok t' ∧
      t'.strides o = t.strides o ++ fs ∧ (∀ p, p ≠ o → t'.strides p = t.strides p) ∧
      ∀ p, t'.base? p = t.base? p := by
  induction fs generalizing t level with
  | nil => exact ⟨t, rfl, by simp, fun _ _ => rfl, fun _ => rfl⟩
  | cons f fs ih =>
    obtain ⟨t₁, h₁, hs₁, ho₁, hb₁⟩ := OperandTable.recordStride_next t o hl f
    have next : (t₁.strides o).length = level + 1 := by simp [hs₁, hl]
    obtain ⟨t₂, h₂, hs₂, ho₂, hb₂⟩ := ih next
    refine ⟨t₂, ?_, by simp [hs₂, hs₁], fun p hp => (ho₂ p hp).trans (ho₁ p hp),
      fun p => (hb₂ p).trans (hb₁ p)⟩
    have cons : levelStrides o level (f :: fs) = ⟨o, level, f⟩ :: levelStrides o (level + 1) fs := by
      simp [levelStrides]
    rw [cons, recordStrides, List.foldlM_cons, h₁]
    exact h₂

theorem recordStrides_found {t : OperandTable} {found : List (OperandSite × List Formula)}
    (hn : (found.map fun x => x.1.id).Nodup) (he : ∀ x ∈ found, t.strides x.1.id = []) :
    ∃ t' : OperandTable,
      recordStrides t (found.flatMap fun x => levelStrides x.1.id 0 x.2) = .ok t' ∧
      (∀ x ∈ found, t'.strides x.1.id = x.2) ∧
      (∀ p, (∀ x ∈ found, x.1.id ≠ p) → t'.strides p = t.strides p) ∧
      ∀ p, t'.base? p = t.base? p := by
  induction found generalizing t with
  | nil => exact ⟨t, rfl, by simp, fun _ _ => rfl, fun _ => rfl⟩
  | cons x rest ih =>
    obtain ⟨hx, hrest⟩ := List.nodup_cons.mp hn
    have other : ∀ y ∈ rest, y.1.id ≠ x.1.id := fun y hy h =>
      hx (List.mem_map.mpr ⟨y, hy, h⟩)
    have empty := he x List.mem_cons_self
    have none : (t.strides x.1.id).length = 0 := by simp [empty]
    obtain ⟨t₁, h₁, hs₁, ho₁, hb₁⟩ := recordStrides_levels none x.2
    obtain ⟨t₂, h₂, hs₂, ho₂, hb₂⟩ := ih (t := t₁) hrest fun y hy => by
      rw [ho₁ _ (other y hy)]
      exact he y (List.mem_cons_of_mem x hy)
    refine ⟨t₂, ?_, ?_, ?_, fun p => (hb₂ p).trans (hb₁ p)⟩
    · rw [List.flatMap_cons]
      exact (foldlM_append_ok h₁).trans h₂
    · intro y hy
      obtain rfl | hy := List.mem_cons.mp hy
      · rw [ho₂ _ other, hs₁, empty, List.nil_append]
      · exact hs₂ y hy
    · intro p hp
      rw [ho₂ p fun y hy => hp y (List.mem_cons_of_mem x hy),
        ho₁ p (hp x List.mem_cons_self).symm]

end Analysis

namespace Graph

/-- The result of an analysis lists the memory operands of the routine. Each has a base address, and
strides along the loops around it. -/
structure DescribedBy (settings : Settings) (g : Graph) (r : RoutineFormulas) : Prop where
  sites : g.ListsOperands r.sites
  base : ∀ s ∈ r.sites, (r.base? s.id).isSome
  outside : ∀ s ∈ r.sites, s.marker = 0 → r.strides s.id = []
  strides : ∃ bases : OperandTable, (∀ o, bases.base? o = r.base? o) ∧
    ∀ s ∈ r.sites, ∃ chain, g.ParentChain s.marker chain ∧
      Analysis.StridesAlong settings g bases s chain (r.strides s.id)

theorem analyze_spec {g : Graph} {settings : Settings} (hg : g.WellFormed)
    (hs : settings.strict = false) :
    g.analyze settings = .error .exhausted ∨
      ∃ r, g.analyze settings = .ok r ∧ g.DescribedBy settings r := by
  have lists := listsOperands_operandSites hg
  have places : ∀ s ∈ g.operandSites, ∃ n, g.OperandAt s n := fun s => lists.operandAt
  unfold analyze analyzeWithJournal
  dsimp only
  split
  · next stop w h =>
    have := wp_error (Analysis.computeBases_spec hs hg places _) h
    exact .inl (by rw [this])
  · next w h =>
    have bases := wp_ok (Analysis.computeBases_spec hs hg places _) h
    split
    · next stop work h' =>
      have := wp_error (Analysis.computeAllStrides_spec hs hg places bases.known _) h'
      exact .inl (by rw [this])
    · next work h' =>
      obtain ⟨found, hfst, hfound, hstrides⟩ :=
        wp_ok (Analysis.computeAllStrides_spec hs hg places bases.known _) h'
      -- operands have ids of their own, so no stride is recorded over that of another one
      have ids : found.map (fun x => x.1.id) = g.operandSites.map OperandSite.id := by
        simp [← hfst]
      have distinct : (found.map fun x => x.1.id).Nodup := by
        rw [ids]
        exact lists.nodup
      obtain ⟨t, ht, hs', _, hb⟩ := Analysis.recordStrides_found distinct
        fun x _ => bases.strides x.1.id
      have stride : ∀ s ∈ g.operandSites, Analysis.StridesAlong settings g w.client.bases s
          (g.enclosingLoops s.marker) (t.strides s.id) := by
        intro s hm
        rw [← hfst] at hm
        obtain ⟨x, hx, rfl⟩ := List.mem_map.mp hm
        rw [hs' x hx]
        exact hfound x hx
      rw [hstrides, List.reverse_nil, List.nil_append, ht]
      refine .inr ⟨_, rfl, lists, ?_, ?_, w.client.bases, fun o => (hb o).symm, ?_⟩
      · intro s hm
        change (t.base? s.id).isSome
        rw [hb]
        exact bases.known s hm
      · intro s hm hz
        have := stride s hm
        rw [hz] at this
        exact this.eq_nil
      · intro s hm
        exact ⟨_, parentChain_enclosingLoops hg s.marker, stride s hm⟩

def loopNestBlocks : Graph :=
  let rax : Register := ⟨.listed 0, 0, 63⟩
  let rbx : Register := ⟨.listed 4, 0, 63⟩
  let atRax : Operand := .memory { base := some rax }
  let load : MicroOp :=
    { pc := 0x20, kind := .load, operation := .mov, sources := [atRax],
      destinations := [.register rbx] }
  let store : MicroOp :=
    { pc := 0x30, kind := .store, operation := .mov, sources := [.register rbx],
      destinations := [atRax] }
  let next : MicroOp :=
    { pc := 0x34, kind := .alu, operation := .add, sources := [.register rax, .immediate 8],
      destinations := [.register rax] }
  ((({ loopTree := [0, 0, 1, 0] } : Graph).addBlock 0 1 [load]).addBlock 1 2 [store, next]).addBlock
    2 3 [{ load with pc := 0x40 }]

end Graph

end AddressFormulas
