import AddressFormulas.Proofs.Base.Claims
import AddressFormulas.Proofs.Base.Owners
import AddressFormulas.Proofs.Base.Recall

/-!
What stays pending when the value of a definition is computed strictly. Registers that begin at bit zero
overlap when they are parts of one architectural register, so that a claim takes a value away whenever
one is pending for that register. It is then enough to bound how many values are pending for each
register and each load.
-/

namespace AddressFormulas.Base

open WalkM

/-- At most the values `B` are pending, and the definitions of places of weight `n` and above are
those of `defs`. -/
structure AtMost (g : Graph) (n : Nat) (defs : Table Site Formula) (B : Multiset Slot)
    (w : Walk BaseState) : Prop where
  low : ∀ e ∈ w.client.values.newestFirst, ∀ r, e.1 = .register r → r.lsb = 0 ∧ r.isAbsent = false
  waiting : ((w.client.values.newestFirst.map fun e => e.1.owner : List Slot) : Multiset Slot) ≤ B
  stop : w.bounds.stop = 0
  kept : Kept g n defs w.client.definitions

variable {settings : Settings} {g : Graph} {n : Nat} {defs : Table Site Formula}
  {B B' : Multiset Slot} {w : Walk BaseState}

theorem AtMost.mono (h : AtMost g n defs B w) (hB : B ≤ B') : AtMost g n defs B' w :=
  ⟨h.low, h.waiting.trans hB, h.stop, h.kept⟩

theorem AtMost.told (h : AtMost g n defs B w) (journal : Journal) :
    AtMost g n defs B { w with journal } :=
  ⟨h.low, h.waiting, h.stop, h.kept⟩

section Values

theorem push_spends (h : AtMost g n defs B w) {r : Register} (hr : r.lsb = 0) (f : Formula) :
    yields (push r f) (fun _ w' => AtMost g n defs (r.owner ::ₘ B) w') w := by
  change AtMost g n defs (r.owner ::ₘ B)
    { w with client := { w.client with values := w.client.values.push r f } }
  unfold Pending.push
  split
  · exact ⟨h.low, h.waiting.trans (Multiset.le_cons_self _ _), h.stop, h.kept⟩
  · next present =>
    refine ⟨?_, Multiset.cons_le_cons _ h.waiting, h.stop, h.kept⟩
    intro e he s hs
    obtain rfl | he := List.mem_cons.mp he
    · cases hs
      exact ⟨hr, by simpa using present⟩
    · exact h.low e he s hs

theorem pushSite_spends (h : AtMost g n defs B w) (site : Site) (f : Formula) :
    yields (pushSite site f) (fun _ w' => AtMost g n defs (.site site ::ₘ B) w') w := by
  refine ⟨?_, Multiset.cons_le_cons _ h.waiting, h.stop, h.kept⟩
  intro e he s hs
  obtain rfl | he := List.mem_cons.mp he
  · cases hs
  · exact h.low e he s hs

theorem AtMost.take (wanted : Slot → Bool) {owner : Slot} (h : AtMost g n defs (owner ::ₘ B) w)
    (hwanted : ∀ e ∈ w.client.values.newestFirst, wanted e.1 = true ↔ e.1.owner = owner) :
    match Pending.takeFirst? wanted w.client.values.newestFirst with
    | none => AtMost g n defs B w
    | some c => AtMost g n defs B { w with client := { w.client with values := c.rest } } := by
  by_cases hit : ∃ e ∈ w.client.values.newestFirst, wanted e.1 = true
  · obtain ⟨e, he, hw⟩ := hit
    obtain ⟨c, hc, hslot, hperm⟩ := Pending.takeFirst?_of_mem he hw
    rw [hc]
    have taken : (c.slot, c.value) ∈ w.client.values.newestFirst :=
      hperm.mem_iff.mpr List.mem_cons_self
    have own : c.slot.owner = owner := (hwanted _ taken).mp hslot
    refine ⟨?_, ?_, h.stop, h.kept⟩
    · intro e he
      exact h.low e (hperm.mem_iff.mpr (List.mem_cons_of_mem _ he))
    · have all := h.waiting
      rw [Multiset.coe_eq_coe.mpr (hperm.map _), List.map_cons, ← Multiset.cons_coe, own] at all
      exact (Multiset.cons_le_cons_iff _).mp all
  · have none : ∀ entries : List (Slot × Formula), (∀ e ∈ entries, ¬wanted e.1 = true) →
        Pending.takeFirst? wanted entries = none := by
      intro entries he
      induction entries with
      | nil => rfl
      | cons e rest ih =>
        unfold Pending.takeFirst?
        rw [if_neg (he e List.mem_cons_self), ih fun e' he' => he e' (List.mem_cons_of_mem _ he')]
        rfl
    rw [none _ fun e he hw => hit ⟨e, he, hw⟩]
    refine ⟨h.low, ?_, h.stop, h.kept⟩
    apply (Multiset.le_cons_of_notMem _).mp h.waiting
    intro hm
    obtain ⟨e, he, hown⟩ := List.mem_map.mp (Multiset.mem_coe.mp hm)
    exact hit ⟨e, he, (hwanted e he).mpr hown⟩

theorem claim_spends {r : Register} (h : AtMost g n defs (r.owner ::ₘ B) w) (hr : r.lsb = 0) :
    yields (claim r) (fun _ w' => AtMost g n defs B w') w := by
  have wanted : ∀ e ∈ w.client.values.newestFirst,
      Slot.overlaps r e.1 = true ↔ e.1.owner = r.owner := by
    rintro ⟨slot, f⟩ he
    cases slot with
    | site s => simp [Slot.overlaps, Slot.owner, Register.owner]
    | register s =>
      obtain ⟨low, present⟩ := h.low _ he s rfl
      change s.overlaps r = true ↔ s.owner = r.owner
      rw [owner_eq_iff]
      constructor
      · intro hover
        simp only [Register.overlaps, Bool.and_eq_true, decide_eq_true_eq] at hover
        exact hover.1.1.2
      · intro same
        have present' : r.isAbsent = false := by
          have classes : s.cls = r.cls := by
            rw [Register.cls, Register.cls, ← s.name.cls_parent, same, r.name.cls_parent]
          simpa [Register.isAbsent, classes] using present
        simp [Register.overlaps, present, present', same, low, hr]
  have take := h.take (Slot.overlaps r) wanted
  unfold claim WalkM.claim
  simp only [wp_bind, wp_client, Pending.claim?]
  split at take
  · next none => simpa only [none, wp_pure] using take
  · next c taken =>
    simp only [taken, wp_bind, wp_modifyClient, wp_tellAll, wp_pure]
    exact take.told _

theorem AtMost.absent (h : AtMost g n defs (Register.absent.owner ::ₘ B) w) : AtMost g n defs B w := by
  refine ⟨h.low, ?_, h.stop, h.kept⟩
  apply (Multiset.le_cons_of_notMem _).mp h.waiting
  intro hm
  obtain ⟨⟨slot, f⟩, he, hown⟩ := List.mem_map.mp (Multiset.mem_coe.mp hm)
  cases slot with
  | site s => simp [Slot.owner, Register.owner] at hown
  | register r =>
    have same : r.name.parent = RegisterName.absent := owner_eq_iff.mp hown
    have absent : r.cls = .none := by rw [Register.cls, ← r.name.cls_parent, same]; rfl
    have present := (h.low _ he r rfl).2
    simp [Register.isAbsent, absent] at present

theorem claimSite_spends {site : Site} (h : AtMost g n defs (.site site ::ₘ B) w) :
    yields (claimSite site) (fun _ w' => AtMost g n defs B w') w := by
  have wanted : ∀ e ∈ w.client.values.newestFirst,
      decide (e.1 = .site site) = true ↔ e.1.owner = .site site := by
    rintro ⟨slot, f⟩ _
    cases slot <;> simp [Slot.owner]
  have take := h.take (fun slot => decide (slot = .site site)) wanted
  unfold claimSite
  simp only [wp_bind, wp_client, Pending.claimSite?]
  revert take
  cases Pending.takeFirst? (fun slot => decide (slot = .site site)) w.client.values.newestFirst with
  | none => exact id
  | some c => exact id

theorem report_spends (hs : settings.strict = true) (failure : Failure)
    {Q : Unit → Walk BaseState → Prop} : yields (report settings.strict failure) Q w := by
  rw [hs]
  trivial

theorem giveUp_spends (hs : settings.strict = true) (failure : Failure) (f : Formula)
    {Q : Formula → Walk BaseState → Prop} : yields (giveUp settings failure f) Q w :=
  wp_bind.mpr (report_spends hs failure)

theorem operandValue_spends {u : MicroOp} (hu : u.Low) (i : Nat)
    (h : AtMost g n defs (owners (operandClaim u i) + B) w) :
    yields (operandValue u i) (fun _ w' => AtMost g n defs B w') w := by
  have read : ∀ {o : Operand}, u.sources[i]? = some o → ∀ {r : Register},
      u.operandRegister? o = some r → yields (claim r.canonical) (fun _ w' => AtMost g n defs B w') w := by
    intro o ho r hr
    have low : r.lsb = 0 := hu.operandRegister? (.inl (List.mem_of_getElem? ho)) hr
    have one : operandClaim u i = [r.canonical] := by simp [operandClaim, ho, hr]
    rw [one] at h
    exact claim_spends h low
  have none : operandClaim u i = [] → AtMost g n defs B w := by
    intro he
    rwa [he, owners, List.map_nil, Multiset.coe_nil, Multiset.zero_add] at h
  unfold operandValue
  cases ho : u.sources[i]? with
  | none => exact none (by simp [operandClaim, ho])
  | some o =>
    cases o with
    | immediate v => exact none (by simp [operandClaim, ho, MicroOp.operandRegister?])
    | memory m => exact none (by simp [operandClaim, ho, MicroOp.operandRegister?])
    | register r => exact read ho rfl
    | temporary k => exact read ho rfl

theorem leaTerms_spends {es : List (TermKey × Term)}
    (hes : ∀ r ∈ es.filterMap termRegister?, r.lsb = 0) (sum : Formula)
    (h : AtMost g n defs (owners (es.filterMap termRegister?) + B) w) :
    yields (leaTerms es sum) (fun _ w' => AtMost g n defs B w') w := by
  induction es generalizing sum w with
  | nil => simpa [leaTerms, owners] using h
  | cons e es ih =>
    obtain ⟨key, t⟩ := e
    cases key with
    | register site r =>
      have hr : r.lsb = 0 := hes r List.mem_cons_self
      have first : AtMost g n defs (r.owner ::ₘ (owners (es.filterMap termRegister?) + B)) w := by
        have split : owners ((((.register site r, t) : TermKey × Term) :: es).filterMap termRegister?) =
            r.owner ::ₘ owners (es.filterMap termRegister?) := rfl
        rwa [split, Multiset.cons_add] at h
      apply wp_bind.mpr
      apply wp_imp (claim_spends first hr)
      intro f? w₁ h₁
      have rest := fun sum' => ih (fun s hs => hes s (List.mem_cons_of_mem _ hs)) sum' h₁
      cases f? with
      | none => exact rest _
      | some f => exact rest _
    | _ => exact ih hes _ h

theorem combine_spends (h : AtMost g n defs B w) (u : MicroOp) (unknown f₁ f₂ : Formula) :
    yields (combine u unknown f₁ f₂) (fun _ w' => AtMost g n defs B w') w := by
  unfold combine
  cases u.operation with
  | sub =>
    dsimp only
    split
    · exact h.told _
    · exact h
  | not =>
    cases f₁.constantValue? with
    | some c => exact h
    | none => exact h
  | xor =>
    dsimp only
    split
    · exact h.told _
    · exact h
  | _ => exact h

end Values

section Micro

variable {u : MicroOp}

theorem operandValue_memory {i : Nat} {m : MemoryOperand} (h : u.sources[i]? = some (.memory m)) :
    operandValue u i = pure none := by
  unfold operandValue
  rw [h]
  rfl

theorem threeSourceValue_spends (hs : settings.strict = true) (hu : u.Low) (unknown f₁ : Formula)
    (h : AtMost g n defs (owners (operandClaim u 1) + (owners (operandClaim u 2) + B)) w) :
    yields (threeSourceValue settings u unknown f₁) (fun _ w' => AtMost g n defs B w') w := by
  unfold threeSourceValue
  apply wp_bind.mpr
  apply wp_imp (operandValue_spends hu 1 h)
  intro filling? w₁ h₁
  apply wp_bind.mpr
  apply wp_imp (operandValue_spends hu 2 h₁)
  intro amount? w₂ h₂
  split
  · split
    · exact h₂
    · split
      · exact giveUp_spends hs _ _
      · exact h₂
  · exact h₂

theorem twoSourceValue_spends (hs : settings.strict = true) (hu : u.Low) (unknown f₁ : Formula)
    (h : AtMost g n defs (owners (if 1 < u.valueSources then operandClaim u 1 else []) + B) w) :
    yields (twoSourceValue settings u unknown f₁) (fun _ w' => AtMost g n defs B w') w := by
  unfold twoSourceValue
  by_cases hcount : 1 < u.valueSources
  · rw [if_pos hcount] at h ⊢
    apply wp_bind.mpr
    apply wp_imp (operandValue_spends hu 1 h)
    intro f₂? w₁ h₁
    cases f₂? with
    | none => exact giveUp_spends hs _ _
    | some f₂ => exact combine_spends h₁ u unknown f₁ f₂
  · rw [if_neg hcount] at h ⊢
    have h : AtMost g n defs B w := by simpa [owners] using h
    split
    · exact combine_spends h u unknown f₁ .zero
    · exact giveUp_spends hs _ _

theorem firstSource_spends (hs : settings.strict = true) (hu : u.Low) {C : Multiset Slot}
    {unknown : Formula} {rest : Formula → M Formula}
    (h : AtMost g n defs (owners (operandClaim u 0) + C) w)
    (hrest : ∀ f₁ w₁, AtMost g n defs C w₁ →
      yields (rest f₁) (fun _ w' => AtMost g n defs B w') w₁) :
    yields (do
      match ← operandValue u 0 with
      | none => giveUp settings (.missingOperand u.site 0) unknown
      | some f₁ => rest f₁) (fun _ w' => AtMost g n defs B w') w := by
  apply wp_bind.mpr
  apply wp_imp (operandValue_spends hu 0 h)
  intro f₁? w₁ h₁
  cases f₁? with
  | none => exact giveUp_spends hs _ _
  | some f₁ => exact hrest f₁ w₁ h₁

theorem operandsValue_spends (hs : settings.strict = true) (hu : u.Low) (ht : u.Tidy) {unknown : Formula}
    (hfirst : ∀ m, u.sources[0]? ≠ some (.memory m)) (hop : u.operation ≠ .invalid)
    (hpos : 0 < u.valueSources) (hcount : u.valueSources ≤ 3)
    (hthree : u.valueSources = 3 → u.allowsThreeSources = true)
    (h : AtMost g n defs (owners u.valueRegisters + B) w) :
    yields (do
      match ← operandValue u 0 with
      | none => giveUp settings (.missingOperand u.site 0) unknown
      | some f₁ =>
        if u.valueSources = 3 then threeSourceValue settings u unknown f₁
        else twoSourceValue settings u unknown f₁) (fun _ w' => AtMost g n defs B w') w := by
  by_cases three : u.valueSources = 3
  · have kinds : u.kind = .div ∨ u.operation = .sll := by
      simpa [MicroOp.allowsThreeSources, hop] using hthree three
    have claimed := h.mono (add_le_add_left (valueRegisters_le_three ht kinds three hfirst) B)
    rw [add_assoc, add_assoc] at claimed
    apply firstSource_spends hs hu claimed
    intro f₁ w₁ h₁
    rw [if_pos three]
    exact threeSourceValue_spends hs hu _ f₁ h₁
  by_cases hsecond : 1 < u.valueSources ∧ ∃ m, u.sources[1]? = some (.memory m)
  · obtain ⟨two, m, hm⟩ := hsecond
    apply wp_bind_any
    intro f₁? w₁ _
    cases f₁? with
    | none => exact giveUp_spends hs _ _
    | some f₁ =>
      dsimp only
      rw [if_neg three, twoSourceValue, if_pos two, operandValue_memory hm]
      exact giveUp_spends hs _ _
  have unmemory : ∀ i < u.valueSources, ∀ m, u.sources[i]? ≠ some (.memory m) := by
    intro i hi m hm
    obtain rfl | rfl : i = 0 ∨ i = 1 := by omega
    · exact hfirst m hm
    · exact hsecond ⟨hi, m, hm⟩
  have le := valueRegisters_le_two hpos (by omega) unmemory
  have claimed := h.mono (add_le_add_left le B)
  rw [add_assoc] at claimed
  apply firstSource_spends hs hu claimed
  intro f₁ w₁ h₁
  rw [if_neg three]
  exact twoSourceValue_spends hs hu _ f₁ h₁

theorem normalValue_spends (hs : settings.strict = true) (hu : u.Low) (ht : u.Tidy) (reg : Register)
    (h : AtMost g n defs (owners (sliced u) + B) w) :
    yields (normalValue settings u reg) (fun _ w' => AtMost g n defs B w') w := by
  have course := valueCourse settings u reg
  generalize normalValue settings u reg = m at course ⊢
  generalize claims u = rs at course
  cases course with
  | refused => exact giveUp_spends hs _ _
  | address hlea hhead hone =>
    have claimed := add_le_add_left (sliced_le_lea hhead ht hlea hone) B
    exact leaTerms_spends (low_of_mem_lea hhead hu) .zero (h.mono claimed)
  | unmodelled hop =>
    rw [sliced, if_pos hop] at h
    simpa [owners] using h
  | operands hhead hmemory hop hpos hcount hthree =>
    rw [sliced, if_neg hop] at h
    refine operandsValue_spends hs hu ht (fun m hm => ?_) hop hpos hcount hthree h
    rw [← List.head?_eq_getElem?, hhead] at hm
    exact hmemory m (Option.some.inj hm)

end Micro

section Definitions

variable {u : Placed}

def prepared (u : MicroOp) : Multiset Slot :=
  match u.effect with
  | .easy | .impossible => 0
  | .normal => owners (sliced u)
  | .hard => {.site u.site}

theorem definitionValue_spends (hs : settings.strict = true) (hu : u.op.Low) (ht : u.op.Tidy)
    (reg : Register) (h : AtMost g n defs (prepared u.op + B) w) :
    yields (definitionValue settings g u reg) (fun _ w' => AtMost g n defs B w') w := by
  unfold definitionValue
  simp only [wp_bind, wp_classify]
  unfold prepared at h
  have h := h.told (u.op.effectEvents.reverse ++ w.journal)
  -- what waits is what the value of such an effect claims, and no more
  cases heffect : u.op.effect with
  | easy =>
    rw [heffect, Multiset.zero_add] at h
    unfold easyValue
    dsimp only
    split
    · exact giveUp_spends hs _ _
    · split
      · exact h
      · exact giveUp_spends hs _ _
  | normal =>
    rw [heffect] at h
    exact normalValue_spends hs hu ht reg h
  | hard =>
    rw [heffect, Multiset.singleton_add] at h
    apply wp_bind.mpr
    apply wp_imp (claimSite_spends h)
    intro f? w₁ h₁
    cases f? with
    | none => exact giveUp_spends hs _ _
    | some f => exact h₁
  | impossible =>
    rw [heffect, Multiset.zero_add] at h
    dsimp only
    split
    · exact h
    · unfold callValue
      apply wp_bind.mpr
      cases g.block? u.block with
      | none => trivial
      | some block => exact h

end Definitions

end AddressFormulas.Base
