import AddressFormulas.Proofs.Base.Values

namespace AddressFormulas

theorem Pending.takeFirst?_of_mem {α : Type} {wanted : Slot → Bool} {entries : List (Slot × α)}
    {e : Slot × α} (he : e ∈ entries) (hw : wanted e.1 = true) :
    ∃ c, Pending.takeFirst? wanted entries = some c ∧ wanted c.slot = true ∧
      entries.Perm ((c.slot, c.value) :: c.rest.newestFirst) := by
  induction entries with
  | nil => cases he
  | cons e' rest ih =>
    obtain ⟨slot, a⟩ := e'
    unfold takeFirst?
    by_cases h : wanted slot = true
    · rw [if_pos h]
      exact ⟨_, rfl, h, .rfl⟩
    · rw [if_neg h]
      have he : e ∈ rest := by
        obtain rfl | he := List.mem_cons.mp he
        · exact absurd hw h
        · exact he
      obtain ⟨c, hc, hwanted, hperm⟩ := ih he
      rw [hc]
      exact ⟨_, rfl, hwanted, (hperm.cons _).trans (.swap ..)⟩

theorem Pending.takeFirst?_append {α : Type} {wanted : Slot → Bool} {entries : List (Slot × α)}
    {c : Claim α} (h : Pending.takeFirst? wanted entries = some c) (others : List (Slot × α)) :
    Pending.takeFirst? wanted (entries ++ others) =
      some ⟨c.slot, c.value, ⟨c.rest.newestFirst ++ others⟩⟩ := by
  induction entries generalizing c with
  | nil => cases h
  | cons e rest ih =>
    obtain ⟨slot, a⟩ := e
    rw [List.cons_append]
    unfold takeFirst? at h ⊢
    split at h
    · next hw =>
      cases h
      rw [if_pos hw]
    · next hw =>
      obtain ⟨c', hc', rfl⟩ := Option.map_eq_some_iff.mp h
      rw [if_neg hw, ih hc']
      rfl

namespace Base

open WalkM

variable {α β : Type} {settings : Settings} {top top' top'' : List (Slot × Formula)}

structure Leaves (w : Walk BaseState) (vs : List (Slot × Formula)) (w' : Walk BaseState) : Prop where
  client : w'.client = { w.client with values := ⟨vs⟩ }
  bounds : w'.bounds = w.bounds

/-- Whatever is pending below `top`, the answer is `a`, and `top'` is there in place of `top`. -/
def Turns (m : M α) (top top' : List (Slot × Formula)) (a : α) : Prop :=
  ∀ vs w, w.client.values.newestFirst = top ++ vs →
    wp m (fun a' w' => a' = a ∧ Leaves w (top' ++ vs) w') (fun _ _ => False) w

namespace Turns

theorem bind {m : M α} {f : α → M β} {a : α} {b : β} (hm : Turns m top top' a)
    (hf : Turns (f a) top' top'' b) : Turns (m >>= f) top top'' b := by
  intro vs w hw
  refine wp_bind.mpr (wp_imp (hm vs w hw) ?_)
  rintro _ w₁ ⟨rfl, client, bounds⟩
  refine wp_imp (hf vs w₁ (by rw [client])) ?_
  rintro _ w₂ ⟨rfl, client₂, bounds₂⟩
  exact ⟨rfl, by rw [client₂, client], by rw [bounds₂, bounds]⟩

theorem andThen {m : M α} {f : α → M β} {a : α} (hm : Turns m top top' a)
    (hf : ∃ b, Turns (f a) top' top'' b) : ∃ b, Turns (m >>= f) top top'' b :=
  hf.imp fun _ => hm.bind

theorem keep {m : M α} {a : α}
    (h : ∀ w, wp m (fun a' w' => a' = a ∧ w'.client = w.client ∧ w'.bounds = w.bounds)
      (fun _ _ => False) w) : Turns m top top a := by
  intro vs w hw
  refine wp_imp (h w) ?_
  rintro _ w' ⟨rfl, client, bounds⟩
  refine ⟨rfl, ?_, bounds⟩
  rw [client, ← hw]

theorem ok (a : α) : Turns (pure a : M α) top top a := keep fun _ => ⟨rfl, rfl, rfl⟩

theorem tell (e : Event) : Turns (WalkM.tell e) top top () := keep fun _ => ⟨rfl, rfl, rfl⟩

theorem classify (u : MicroOp) : Turns (WalkM.classify u) top top u.effect :=
  keep fun _ => (wp_classify u).mpr ⟨rfl, rfl, rfl⟩

theorem giveUp (hs : settings.strict = false) {failure : Failure}
    (hf : failure.isCoverageGap = true) (f : Formula) :
    Turns (giveUp settings failure f) top top f := by
  apply keep
  intro w
  rw [Base.giveUp, hs]
  exact wp_bind.mpr ((wp_report hf).mpr ⟨rfl, rfl, rfl⟩)

theorem claim {r : Register} {c : Claim Formula}
    (h : Pending.takeFirst? (Slot.overlaps r) top = some c) :
    Turns (claim r) top c.rest.newestFirst (some c.value) := by
  intro vs w hw
  have taken : w.client.values.claim? r = some ⟨c.slot, c.value, ⟨c.rest.newestFirst ++ vs⟩⟩ := by
    rw [Pending.claim?, hw]
    exact Pending.takeFirst?_append h vs
  unfold Base.claim WalkM.claim
  refine wp_bind.mpr ?_
  simp only [wp_client, taken]
  refine wp_bind.mpr (wp_bind.mpr ((wp_tellAll _).mpr ?_))
  exact ⟨rfl, rfl, rfl⟩

theorem claim_one {r d : Register} (h : d.overlaps r = true) (f : Formula) :
    Turns (Base.claim r) [(.register d, f)] [] (some f) := by
  have taken : Pending.takeFirst? (Slot.overlaps r) [(.register d, f)] =
      some ⟨.register d, f, ⟨[]⟩⟩ := if_pos h
  exact claim taken

theorem claimSite (site : Site) (f : Formula) :
    Turns (claimSite site) [(.site site, f)] [] (some f) := by
  intro vs w hw
  have taken : w.client.values.claimSite? site = some ⟨.site site, f, ⟨vs⟩⟩ := by
    rw [Pending.claimSite?, hw]
    simp [Pending.takeFirst?]
  unfold Base.claimSite
  refine wp_bind.mpr ?_
  simp only [wp_client, taken]
  exact ⟨rfl, rfl, rfl⟩

theorem combine (u : MicroOp) (unknown f₁ f₂ : Formula) :
    ∃ f, Turns (combine u unknown f₁ f₂) top top f := by
  unfold Base.combine
  generalize u.operation = op
  cases op with
  | sub =>
    dsimp only
    split
    · exact ⟨_, .bind (.tell _) (.ok _)⟩
    · exact ⟨_, .ok _⟩
  | not =>
    cases f₁.constantValue? with
    | some c => exact ⟨_, .ok _⟩
    | none => exact ⟨_, .ok _⟩
  | xor =>
    dsimp only
    split
    · exact ⟨_, .bind (.tell _) (.ok _)⟩
    · exact ⟨_, .ok _⟩
  | _ => exact ⟨_, .ok _⟩

end Turns

structure Stocked (place : Register → Register) (value : Register → Formula) (rs : List Register)
    (top : List (Slot × Formula)) : Prop where
  perm : top.Perm (rs.map fun r => (.register (place r), value r))
  hits : ∀ r ∈ rs, (place r).overlaps r = true
  apart : ∀ r ∈ rs, ∀ s ∈ rs, (place s).overlaps r = true → s = r

section Stocked

variable {place : Register → Register} {value : Register → Formula} {rs : List Register}

theorem Stocked.nil (h : Stocked place value [] top) : top = [] := List.perm_nil.mp h.perm

theorem Stocked.of_perm (h : Stocked place value rs top) {rs' : List Register} (hp : rs.Perm rs') :
    Stocked place value rs' top where
  perm := h.perm.trans (hp.map _)
  hits r hr := h.hits r (hp.mem_iff.mpr hr)
  apart r hr s hs := h.apart r (hp.mem_iff.mpr hr) s (hp.mem_iff.mpr hs)

theorem Stocked.claim {r : Register} (h : Stocked place value (r :: rs) top) :
    ∃ top', Turns (claim r) top top' (some (value r)) ∧ Stocked place value rs top' := by
  have there : (Slot.register (place r), value r) ∈ top := h.perm.mem_iff.mpr List.mem_cons_self
  have hit : Slot.overlaps r (.register (place r)) = true := h.hits r List.mem_cons_self
  obtain ⟨⟨slot, f, rest⟩, htake, hwanted, hperm⟩ := Pending.takeFirst?_of_mem there hit
  -- Whatever was taken was put for one of the registers, and no other one overlaps.
  have one : (slot, f) = (.register (place r), value r) := by
    have member := h.perm.mem_iff.mp (hperm.mem_iff.mpr List.mem_cons_self)
    obtain ⟨s, hs, hput⟩ := List.mem_map.mp member
    cases hput
    rw [h.apart r List.mem_cons_self s hs hwanted]
  cases one
  refine ⟨rest.newestFirst, .claim htake, ?_, fun s hs => h.hits s (List.mem_cons_of_mem r hs), ?_⟩
  · exact (hperm.symm.trans h.perm).cons_inv
  · exact fun s hs t ht => h.apart s (List.mem_cons_of_mem r hs) t (List.mem_cons_of_mem r ht)

theorem leaTerms_turns {es : List (TermKey × Term)} (sum : Formula)
    (h : Stocked place value (es.filterMap termRegister?) top) :
    ∃ f, Turns (leaTerms es sum) top [] f := by
  induction es generalizing sum top with
  | nil =>
    obtain rfl := h.nil
    exact ⟨sum, .ok _⟩
  | cons e es ih =>
    obtain ⟨key, t⟩ := e
    cases key with
    | register site r =>
      obtain ⟨top', hclaim, h'⟩ := Stocked.claim (r := r) h
      obtain ⟨f, hf⟩ := ih (sum + (value r).scale t.coeff) h'
      exact ⟨f, .bind hclaim hf⟩
    | _ =>
      obtain ⟨f, hf⟩ := ih _ h
      exact ⟨f, hf⟩

def operandClaim (u : MicroOp) (i : Nat) : List Register :=
  ((u.sources[i]?.bind u.operandRegister?).map Register.canonical).toList

def claims (u : MicroOp) : List Register :=
  let count := u.valueSources
  if count = 0 ∨ 3 < count ∨ (count = 3 ∧ !u.allowsThreeSources) then []
  else if u.kind = .lea then
    match u.sources.head? with
    | some (.memory m) =>
      if count = 1 then (u.addressFormula m).terms.entries.filterMap termRegister? else []
    | _ => []
  else if u.operation = .invalid then []
  else
    match u.sources.head? with
    | none | some (.memory _) => []
    | some _ => operandClaim u 0 ++
        if count = 3 then operandClaim u 1 ++ operandClaim u 2
        else if 1 < count then operandClaim u 1 else []

inductive ValueCourse (settings : Settings) (u : MicroOp) (unknown : Formula) :
    M Formula → List Register → Prop
  | refused {failure : Failure} : failure.isCoverageGap = true →
    ValueCourse settings u unknown (giveUp settings failure unknown) []
  | address {m : MemoryOperand} : u.kind = .lea → u.sources.head? = some (.memory m) →
    u.valueSources = 1 →
    ValueCourse settings u unknown (leaTerms (u.addressFormula m).terms.entries .zero)
      ((u.addressFormula m).terms.entries.filterMap termRegister?)
  | unmodelled : u.operation = .invalid → ValueCourse settings u unknown (pure unknown) []
  | operands {o : Operand} : u.sources.head? = some o → (∀ m, o ≠ .memory m) →
    u.operation ≠ .invalid → 0 < u.valueSources → u.valueSources ≤ 3 →
    (u.valueSources = 3 → u.allowsThreeSources = true) →
    ValueCourse settings u unknown
      (do
        match ← operandValue u 0 with
        | none => giveUp settings (.missingOperand u.site 0) unknown
        | some f₁ =>
          if u.valueSources = 3 then threeSourceValue settings u unknown f₁
          else twoSourceValue settings u unknown f₁)
      (operandClaim u 0 ++ if u.valueSources = 3 then operandClaim u 1 ++ operandClaim u 2
        else if 1 < u.valueSources then operandClaim u 1 else [])

theorem valueCourse (settings : Settings) (u : MicroOp) (reg : Register) :
    ValueCourse settings u (.register u.site reg) (normalValue settings u reg) (claims u) := by
  unfold claims normalValue
  dsimp only
  -- the cases are those of `claims`, in the order in which `normalValue` decides them
  by_cases hcount : u.valueSources = 0 ∨ 3 < u.valueSources ∨
      (u.valueSources = 3 ∧ !u.allowsThreeSources)
  · rw [if_pos hcount, if_pos hcount]
    exact .refused rfl
  rw [if_neg hcount, if_neg hcount]
  by_cases hlea : u.kind = .lea
  · rw [if_pos hlea, if_pos hlea]
    cases hhead : u.sources.head? with
    | none => exact .refused rfl
    | some o =>
      cases o with
      | memory m =>
        dsimp only
        split
        · next hone => exact .address hlea hhead hone
        · exact .refused rfl
      | _ => exact .refused rfl
  rw [if_neg hlea, if_neg hlea]
  by_cases hop : u.operation = .invalid
  · rw [if_pos hop, if_pos hop]
    exact .unmodelled hop
  rw [if_neg hop, if_neg hop]
  have missing : operandValue u 0 = pure none → ValueCourse settings u (.register u.site reg)
      (do
        match ← operandValue u 0 with
        | none => giveUp settings (.missingOperand u.site 0) (.register u.site reg)
        | some f₁ =>
          if u.valueSources = 3 then threeSourceValue settings u (.register u.site reg) f₁
          else twoSourceValue settings u (.register u.site reg) f₁) [] := by
    intro none
    rw [none]
    exact .refused rfl
  cases hhead : u.sources.head? with
  | none =>
    apply missing
    rw [operandValue, ← List.head?_eq_getElem?, hhead]
  | some o =>
    cases o with
    | memory m =>
      apply missing
      rw [operandValue, ← List.head?_eq_getElem?, hhead]
      rfl
    | _ =>
      refine .operands hhead nofun hop (by omega) (by omega) fun hthree => ?_
      simpa [hthree] using hcount

theorem operandValue_turns {u : MicroOp} {i : Nat}
    (h : Stocked place value (operandClaim u i ++ rs) top) :
    ∃ f? top', Turns (operandValue u i) top top' f? ∧ Stocked place value rs top' ∧
      (f? = none → u.sources[i]? = none ∨ ∃ m, u.sources[i]? = some (.memory m)) := by
  unfold operandClaim at h
  unfold operandValue
  cases hi : u.sources[i]? with
  | none =>
    rw [hi] at h
    exact ⟨none, top, .ok _, h, fun _ => .inl rfl⟩
  | some o =>
    rw [hi] at h
    cases o with
    | immediate v => exact ⟨some (.constant v), top, .ok _, h, nofun⟩
    | memory m => exact ⟨none, top, .ok _, h, fun _ => .inr ⟨m, rfl⟩⟩
    | register r =>
      obtain ⟨top', hclaim, h'⟩ := Stocked.claim (r := r.canonical) h
      exact ⟨_, top', hclaim, h', nofun⟩
    | temporary k =>
      obtain ⟨top', hclaim, h'⟩ := Stocked.claim (r := (Register.temporary k u.width).canonical) h
      exact ⟨_, top', hclaim, h', nofun⟩

theorem threeSourceValue_turns (hs : settings.strict = false) {u : MicroOp} (unknown f₁ : Formula)
    (h : Stocked place value (operandClaim u 1 ++ operandClaim u 2) top) :
    ∃ f, Turns (threeSourceValue settings u unknown f₁) top [] f := by
  rw [← List.append_nil (operandClaim u 2)] at h
  obtain ⟨filling?, top₁, h₁, stocked₁, _⟩ := operandValue_turns h
  obtain ⟨amount?, top₂, h₂, stocked₂, _⟩ := operandValue_turns stocked₁
  obtain rfl := stocked₂.nil
  unfold threeSourceValue
  refine h₁.andThen (h₂.andThen ?_)
  split
  · split
    · exact ⟨_, .ok _⟩
    · split
      · exact ⟨_, .giveUp hs rfl _⟩
      · exact ⟨_, .ok _⟩
  · exact ⟨_, .ok _⟩

theorem twoSourceValue_turns (hs : settings.strict = false) {u : MicroOp} (unknown f₁ : Formula)
    (h : Stocked place value (if 1 < u.valueSources then operandClaim u 1 else []) top) :
    ∃ f, Turns (twoSourceValue settings u unknown f₁) top [] f := by
  unfold twoSourceValue
  split at h
  · next hcount =>
    rw [if_pos hcount]
    rw [← List.append_nil (operandClaim u 1)] at h
    obtain ⟨f₂?, top₁, h₁, stocked₁, _⟩ := operandValue_turns h
    obtain rfl := stocked₁.nil
    refine h₁.andThen ?_
    split
    · exact Turns.combine _ _ _ _
    · exact ⟨_, .giveUp hs rfl _⟩
  · next hcount =>
    obtain rfl := h.nil
    rw [if_neg hcount]
    split
    · exact Turns.combine _ _ _ _
    · exact ⟨_, .giveUp hs rfl _⟩

theorem normalValue_turns (hs : settings.strict = false) {u : MicroOp} (reg : Register)
    (h : Stocked place value (claims u) top) :
    ∃ f, Turns (normalValue settings u reg) top [] f := by
  have course := valueCourse settings u reg
  generalize normalValue settings u reg = m at course ⊢
  generalize claims u = rs at course h
  cases course with
  | refused gap =>
    obtain rfl := h.nil
    exact ⟨_, .giveUp hs gap _⟩
  | address => exact leaTerms_turns .zero h
  | unmodelled =>
    obtain rfl := h.nil
    exact ⟨_, .ok _⟩
  | operands hhead hmemory =>
    obtain ⟨f₁?, top₁, h₁, stocked₁, hnone⟩ := operandValue_turns h
    refine h₁.andThen ?_
    cases f₁? with
    | none =>
      rw [← List.head?_eq_getElem?, hhead] at hnone
      obtain hnone | ⟨m, hm⟩ := hnone rfl
      · cases hnone
      · exact absurd (Option.some.inj hm) (hmemory m)
    | some f₁ =>
      dsimp only
      split at stocked₁
      · next hthree =>
        rw [if_pos hthree]
        exact threeSourceValue_turns hs _ f₁ stocked₁
      · next hthree =>
        rw [if_neg hthree]
        exact twoSourceValue_turns hs _ f₁ stocked₁

theorem easyValue_turns (hs : settings.strict = false) (u : MicroOp) (reg : Register) :
    ∃ f, Turns (easyValue settings u reg) top top f := by
  unfold easyValue
  dsimp only
  split
  · exact ⟨_, .giveUp hs rfl _⟩
  · split
    · exact ⟨_, .ok _⟩
    · exact ⟨_, .giveUp hs rfl _⟩

end Stocked

end Base

end AddressFormulas
