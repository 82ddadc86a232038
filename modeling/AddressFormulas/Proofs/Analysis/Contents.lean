import AddressFormulas.Proofs.Analysis.Outcome
import AddressFormulas.Proofs.Walk.Invariance

namespace AddressFormulas

namespace Base

open WalkM

variable {settings : Settings} {g : Graph}

theorem slicer_respects_bases : (slicer settings g).Respects (fun _ => True)
    fun w w' => knownBases w' = knownBases w where
  lasting := ⟨fun _ => rfl, fun h h' => h'.trans h, fun _ _ => rfl⟩
  missing := trivial
  exhausted := trivial
  gaps _ _ _ := trivial
  bounds _ _ := rfl
  bound _ _ := rfl
  start _ _ _ := rfl
  op follow hf u reg w := by
    have enter : (enterOp settings follow u reg).Keeps fun _ => True :=
      enterOp_keeps (fun _ _ _ => trivial) u reg fun address => hf _ address
    have leave : (leaveOp settings g u reg).Keeps fun _ => True :=
      leaveOp_keeps (fun _ _ _ => trivial) u reg (.inr trivial)
    refine wp_imp (enter w) fun _ w₁ h₁ w₂ h₂ => wp_imp (leave w₂) fun _ w₃ h₃ => ?_
    exact h₃.trans (h₂.trans h₁)
  edge e reg w := by
    have enter : (enterEdge g e).Keeps fun _ => True :=
      .bind (.require_or (.inr trivial)) fun _ => .bind (.require_or (.inr trivial)) fun _ =>
        .bind .read fun _ => .ok _
    exact wp_imp (enter w) fun _ w₁ h₁ => ⟨fun _ => h₁, fun _ _ h₂ => h₂.trans h₁⟩
  enterBlock b reg := enterBlock_keeps b reg (.inr trivial)
  leaveBlock b reg := leaveBlock_keeps b reg (.inr trivial)
  tryOthers _ _ _ := rfl
  fixedValue _ _ _ := push_keeps _ _

theorem address_keeps (b index : Nat) (opidx : Int) :
    (address settings g b index opidx).Keeps fun _ => True := by
  have register : ∀ u reg, (addressRegister settings g u reg).Keeps fun _ => True := by
    intro u reg
    unfold addressRegister
    split
    · exact .ok _
    · refine .bind (.modifyClient _ fun _ => rfl) fun _ => .bind ?_ fun _ => claim_keeps reg
      exact slicer_respects_bases.slice settings.depth _ reg _
  refine .bind (.require_or (.inr trivial)) fun block => ?_
  refine .bind (.require_or (.inr trivial)) fun op => ?_
  split
  · exact fun _ => trivial
  · refine .bind ?_ fun _ => .bind (.tell _ fun _ => rfl) fun _ => .ok _
    exact (congruence_keeps fun _ _ _ => trivial).addressTerms g g (register _) _ _

end Base

namespace Analysis

variable {settings : Settings} {g : Graph} {bases : OperandTable}

def IsBase (settings : Settings) (g : Graph) (s : OperandSite) (f : Formula) : Prop :=
  ∃ w w', (Base.address settings g s.block s.index s.opidx).run w = .ok f w'

structure BasesOf (settings : Settings) (g : Graph) (sites : List OperandSite)
    (old t : OperandTable) : Prop where
  base : ∀ o f, t.base? o = some f →
    old.base? o = some f ∨ ∃ s ∈ sites, s.id = o ∧ IsBase settings g s f
  strides : ∀ o, t.strides o = old.strides o

theorem computeBases_contents (sites : List OperandSite) (w : Walk BaseState) :
    wp (computeBases settings g sites)
      (fun _ w' => BasesOf settings g sites w.client.bases w'.client.bases)
      (fun _ _ => True) w := by
  induction sites generalizing w with
  | nil => exact ⟨fun _ _ h => .inl h, fun _ => rfl⟩
  | cons s rest ih =>
    have keeps : (Base.address settings g s.block s.index s.opidx).Keeps fun _ => True :=
      Base.address_keeps s.block s.index s.opidx
    refine wp_bind_any fun base w₁ run => wp_imp (ih _) fun _ w₂ h => ?_
    have kept := wp_ok (keeps w) run
    change w₁.client.bases = w.client.bases at kept
    refine ⟨fun o f hf => ?_, fun o => ?_⟩
    · obtain hf | ⟨s', hs', hid, hbase⟩ := h.base o f hf
      · change (w₁.client.bases.setBase s.id base).base? o = some f at hf
        rw [OperandTable.base?_setBase, kept] at hf
        split at hf
        · next ho =>
          cases hf
          exact .inr ⟨s, List.mem_cons_self, ho.symm, w, w₁, run⟩
        · exact .inl hf
      · exact .inr ⟨s', List.mem_cons_of_mem s hs', hid, hbase⟩
    · rw [h.strides, ← kept]
      exact OperandTable.strides_setBase _ _ _ _

def StridesOf (settings : Settings) (g : Graph) (bases : OperandTable) (sites : List OperandSite)
    (old found : List LevelStride) : Prop :=
  ∀ l ∈ found, l ∈ old ∨
    ∃ s ∈ sites, s.id = l.operand ∧ ∃ marker, IsStride settings g bases s marker l.stride

theorem computeStrides_contents (s : OperandSite) (level : Nat) (markers : List Nat)
    (work : StrideWork) :
    wp (computeStrides settings g bases s level markers)
      (fun _ work' => StridesOf settings g bases [s] work.strides work'.strides)
      (fun _ _ => True) work := by
  induction markers generalizing level work with
  | nil => exact fun _ hl => .inl hl
  | cons marker rest ih =>
    let task : Stride.Task := { settings, graph := g, bases, marker }
    have any : (Stride.operandStride task s.block s.index s.opidx).StopsOnly fun _ => True :=
      fun w => wp_mono (wp_run _ w) (fun _ _ _ => rfl) fun _ _ _ => trivial
    simp only [computeStrides, wp_bind]
    refine wp_mono (inLoop_spec any marker work) ?_ fun _ _ h => h.elim
    rintro answer work₁ ⟨hkeep, ⟨f, w, w', rfl, run⟩ | ⟨stop, rfl, -⟩⟩
    · simp only [wp_bind, wp_modify]
      refine wp_imp (ih (level + 1) _) fun _ work₂ h l hl => ?_
      obtain hold | hnew := h l hl
      · obtain rfl | hold := List.mem_cons.mp hold
        · exact .inr ⟨s, List.mem_singleton_self s, rfl, marker, w, w', run⟩
        · exact .inl (hkeep ▸ hold)
      · exact .inr hnew
    · split
      · next h => cases h
      · exact fun l hl => .inl (hkeep ▸ hl)
      · trivial

theorem computeAllStrides_contents (sites : List OperandSite) (work : StrideWork) :
    wp (computeAllStrides settings g bases sites)
      (fun _ work' => StridesOf settings g bases sites work.strides work'.strides)
      (fun _ _ => True) work := by
  induction sites generalizing work with
  | nil => exact fun _ hl => .inl hl
  | cons s rest ih =>
    have later : ∀ work₁, StridesOf settings g bases [s] work.strides work₁.strides →
        wp (computeAllStrides settings g bases rest)
          (fun _ work' => StridesOf settings g bases (s :: rest) work.strides work'.strides)
          (fun _ _ => True) work₁ := by
      intro work₁ h₁
      refine wp_imp (ih work₁) fun _ work₂ h₂ l hl => ?_
      obtain hl | ⟨s', hs', hid, hstride⟩ := h₂ l hl
      · obtain hl | ⟨s', hs', hid, hstride⟩ := h₁ l hl
        · exact .inl hl
        · exact .inr ⟨s', by simp_all, hid, hstride⟩
      · exact .inr ⟨s', List.mem_cons_of_mem s hs', hid, hstride⟩
    unfold computeAllStrides
    split
    · split
      · trivial
      · exact wp_bind.mpr (wp_imp (computeStrides_contents s 0 _ work) fun _ => later)
    · exact later work fun l hl => .inl hl

theorem recordStride_inv {t t' : OperandTable} {o : OperandId} {level : Nat} {f : Formula}
    (h : t.recordStride o level f = .ok t') : (t.strides o).length = level := by
  unfold OperandTable.recordStride OperandFormulas.recordStride at h
  rw [OperandTable.getD_strides] at h
  split at h
  · assumption
  · cases h

theorem recordStrides_contents {t t' : OperandTable} {ls : List LevelStride}
    (h : recordStrides t ls = .ok t') : (∀ o, t'.base? o = t.base? o) ∧
      ∀ o, ∀ f ∈ t'.strides o, f ∈ t.strides o ∨ ∃ l ∈ ls, l.operand = o ∧ l.stride = f := by
  induction ls generalizing t with
  | nil =>
    cases h
    exact ⟨fun _ => rfl, fun _ _ hf => .inl hf⟩
  | cons l ls ih =>
    unfold recordStrides at h
    rw [List.foldlM_cons] at h
    cases h₁ : t.recordStride l.operand l.level l.stride with
    | error e =>
      rw [h₁] at h
      cases h
    | ok t₁ =>
      rw [h₁] at h
      obtain ⟨t₂, h₂, added, other, same⟩ :=
        OperandTable.recordStride_next t l.operand (recordStride_inv h₁) l.stride
      obtain rfl : t₁ = t₂ := Except.ok.inj (h₁.symm.trans h₂)
      obtain ⟨bases, strides⟩ := ih h
      refine ⟨fun o => (bases o).trans (same o), fun o f hf => ?_⟩
      obtain hf | ⟨l', hl', ho, hs⟩ := strides o f hf
      · by_cases ho : o = l.operand
        · subst ho
          rw [added, List.mem_append, List.mem_singleton] at hf
          obtain hf | rfl := hf
          · exact .inl hf
          · exact .inr ⟨l, List.mem_cons_self, rfl, rfl⟩
        · rw [other o ho] at hf
          exact .inl hf
      · exact .inr ⟨l', List.mem_cons_of_mem l hl', ho, hs⟩

end Analysis

namespace Graph

variable {settings : Settings} {g : Graph} {r : RoutineFormulas}

theorem analyze_parts (h : g.analyze settings = .ok r) : ∃ w work,
    (Analysis.computeBases settings g g.operandSites).run
      { client := {}, journal := [.analyzing g.name g.blocks.length] } = .ok () w ∧
    (Analysis.computeAllStrides settings g w.client.bases g.operandSites).run
      { journal := w.journal } = .ok () work ∧
    r.sites = g.operandSites ∧
    Analysis.recordStrides w.client.bases work.strides.reverse = .ok r.formulas := by
  unfold analyze analyzeWithJournal at h
  dsimp only at h
  split at h
  · cases h
  · next w hw =>
    split at h
    · cases h
    · next work hwork =>
      split at h
      · cases h
      · next formulas hf =>
        cases h
        exact ⟨w, work, hw, hwork, rfl, hf⟩

theorem analyze_contents (h : g.analyze settings = .ok r) :
    (∀ o f, r.base? o = some f → ∃ s ∈ r.sites, s.id = o ∧ Analysis.IsBase settings g s f) ∧
    ∀ o, ∀ f ∈ r.strides o, ∃ s ∈ r.sites, s.id = o ∧
      ∃ bases marker, Analysis.IsStride settings g bases s marker f := by
  obtain ⟨w, work, hw, hwork, hsites, hrecord⟩ := analyze_parts h
  have bases := wp_ok (Analysis.computeBases_contents _ _) hw
  have strides := wp_ok (Analysis.computeAllStrides_contents _ _) hwork
  obtain ⟨same, added⟩ := Analysis.recordStrides_contents hrecord
  rw [hsites]
  constructor
  · intro o f hf
    have found : w.client.bases.base? o = some f := (same o).symm.trans hf
    obtain hold | hnew := bases.base o f found
    · cases hold
    · exact hnew
  · intro o f hf
    obtain hf | ⟨l, hl, rfl, rfl⟩ := added o f hf
    · rw [bases.strides] at hf
      cases hf
    · obtain hold | ⟨s, hs, hid, marker, hstride⟩ := strides l (List.mem_reverse.mp hl)
      · cases hold
      · exact ⟨s, hs, hid, _, marker, hstride⟩

end Graph

end AddressFormulas
