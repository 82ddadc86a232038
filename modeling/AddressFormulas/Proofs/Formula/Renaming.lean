import AddressFormulas.Base.Fold
import AddressFormulas.Proofs.Formula.Coefficients

namespace AddressFormulas

/-- An exchange of the names of unknown register values: what register `r` holds at `s` is called what
it holds at `site s r`. -/
structure KeySwap where
  site : Site → Register → Site
  involutive : ∀ s r, site (site s r) r = s

namespace KeySwap

def key (σ : KeySwap) : TermKey → TermKey
  | .register s r => .register (σ.site s r) r
  | k => k

instance : CoeFun KeySwap fun _ => TermKey → TermKey := ⟨key⟩

protected def id : KeySwap := ⟨fun s _ => s, fun _ _ => rfl⟩

theorem key_key (σ : KeySwap) (k : TermKey) : σ (σ k) = k := by
  cases k with
  | register s r => exact congrArg (TermKey.register · r) (σ.involutive s r)
  | _ => rfl

theorem isConstant_key (σ : KeySwap) (k : TermKey) : (σ k).isConstant = k.isConstant := by
  cases k <;> rfl

def sites (site site' : Site) (regs : List Register) : KeySwap where
  site s r := if r ∈ regs then if s = site then site' else if s = site' then site else s else s
  involutive s r := by
    by_cases hr : r ∈ regs
    · by_cases hs : s = site
      · by_cases hs' : site' = site <;> simp [hr, hs, hs']
      · by_cases hs' : s = site' <;> simp [hr, hs, hs']
    · simp [hr]

end KeySwap

namespace Formula

structure Renamed (σ : KeySwap) (f f' : Formula) : Prop where
  ordered : f.Ordered
  ordered' : f'.Ordered
  coeff : ∀ k, f'.coeffAt (σ k) = f.coeffAt k
  proper : ∀ k c, f.coeffAt k = some c → c.Proper
  overflow : f'.overflow = f.overflow
  irregular : f'.access.irregular = f.access.irregular

/-- The same up to names, unless both overflow: what is left of terms that overflow depends on their
order. -/
structure Agrees (σ : KeySwap) (f f' : Formula) : Prop where
  overflow : f'.overflow = f.overflow
  renamed : f.overflow = false → Renamed σ f f'

namespace Renamed

variable {σ : KeySwap} {f f' g g' : Formula}

theorem agrees (h : Renamed σ f f') : Agrees σ f f' := ⟨h.overflow, fun _ => h⟩

theorem coeff' (h : Renamed σ f f') (k : TermKey) : f'.coeffAt k = f.coeffAt (σ k) := by
  rw [← h.coeff, σ.key_key]

theorem proper' (h : Renamed σ f f') (k : TermKey) (c : Coeff) (hc : f'.coeffAt k = some c) :
    c.Proper :=
  h.proper (σ k) c (h.coeff' k ▸ hc)

theorem zero : Renamed σ zero zero := by
  constructor
  · exact List.Pairwise.nil
  · exact List.Pairwise.nil
  · intro k
    rfl
  · intro k c hc
    cases hc
  · rfl
  · rfl

theorem addTerm (h : Renamed σ f f') {key key' : TermKey} (hk : σ key = key') {c : Coeff}
    (hc : c.isZero = true ∨ c.Proper) (origin origin' : Option Site) :
    Renamed σ (f.addTerm key c origin) (f'.addTerm key' c origin') := by
  have found : f'.coeffAt key' = f.coeffAt key := by rw [← hk, h.coeff]
  constructor
  · exact h.ordered.addTerm
  · exact h.ordered'.addTerm
  · intro k
    have same : σ k = key' ↔ k = key := by
      constructor
      · intro hk'
        rw [← σ.key_key k, hk', ← hk, σ.key_key]
      · rintro rfl
        exact hk
    rw [coeffAt_addTerm h.ordered', coeffAt_addTerm h.ordered, found, h.coeff]
    simp [same]
  · intro k a ha
    rw [coeffAt_addTerm h.ordered] at ha
    split at ha
    · obtain hz | hp := hc
      · exact h.proper key a (by simpa [Coeff.plus, hz] using ha)
      · exact Coeff.proper_of_plus hp (h.proper key) ha
    · exact h.proper k a ha
  · rw [Bool.eq_iff_iff, overflow_addTerm, overflow_addTerm, h.overflow, found]
  · rw [access_addTerm, access_addTerm, h.irregular]

theorem ofTerm {key key' : TermKey} (hk : σ key = key') {c : Coeff}
    (hc : c.isZero = true ∨ c.Proper) (origin origin' : Option Site) :
    Renamed σ (ofTerm key c origin) (ofTerm key' c origin') :=
  zero.addTerm hk hc origin origin'

theorem constant {v : Int} (hv : Word.fits v = true) : Renamed σ (constant v) (constant v) := by
  apply ofTerm (show σ .constant = .constant from rfl)
  by_cases hz : v = 0
  · exact .inl (by simp [Coeff.isZero, Coeff.ofInt, hz])
  · exact .inr (Coeff.proper_ofInt hv hz)

theorem one_proper : Coeff.one.Proper := Coeff.proper_ofInt (by decide) one_ne_zero

theorem register {site site' : Site} {reg : Register} (h : σ.site site reg = site') :
    Renamed σ (register site reg) (register site' reg) := by
  have named : σ (.register site reg) = .register site' reg := congrArg (TermKey.register · reg) h
  exact ofTerm named (.inr one_proper) _ _

theorem load (site : Site) (reg : Register) : Renamed σ (load site reg) (load site reg) :=
  ofTerm rfl (.inr one_proper) _ _

theorem reference (site : Site) (address : Int) :
    Renamed σ (reference site address) (reference site address) :=
  ofTerm rfl (.inr one_proper) _ _

theorem call (site : Site) (target : Nat) : Renamed σ (call site target) (call site target) :=
  ofTerm rfl (.inr one_proper) _ _

theorem withAccess (h : Renamed σ f f') {a a' : Access} (ha : a'.irregular = a.irregular) :
    Renamed σ { f with access := a } { f' with access := a' } :=
  ⟨h.ordered, h.ordered', h.coeff, h.proper, h.overflow, ha⟩

theorem markIrregular (h : Renamed σ f f') : Renamed σ f.markIrregular f'.markIrregular :=
  h.withAccess rfl

theorem markIndirect (h : Renamed σ f f') : Renamed σ f.markIndirect f'.markIndirect :=
  h.withAccess h.irregular

theorem markLoad (h : Renamed σ f f') (site : Site) : Renamed σ (f.markLoad site) (f'.markLoad site) :=
  h.withAccess h.irregular

theorem inheritAccess (h : Renamed σ f f') (hg : g'.access.irregular = g.access.irregular) :
    Renamed σ (f.inheritAccess g) (f'.inheritAccess g') := by
  apply h.withAccess
  simp [Access.merge, h.irregular, hg]

theorem add (hf : Renamed σ f f') (hg : Renamed σ g g') : Renamed σ (f + g) (f' + g') := by
  constructor
  · exact hf.ordered.add
  · exact hf.ordered'.add
  · intro k
    rw [coeffAt_add hf.ordered' hg.ordered', coeffAt_add hf.ordered hg.ordered, hf.coeff, hg.coeff]
  · intro k c hc
    rw [coeffAt_add hf.ordered hg.ordered] at hc
    split at hc
    · exact hf.proper k c hc
    · next b hb => exact Coeff.proper_of_plus (hg.proper k b hb) (hf.proper k) hc
  · rw [Bool.eq_iff_iff, overflow_add hf.ordered' hg.ordered', overflow_add hf.ordered hg.ordered,
      hf.overflow, hg.overflow]
    refine or_congr_right (or_congr_right ?_)
    constructor
    · rintro ⟨k, c, hc, clash⟩
      exact ⟨σ k, c, hg.coeff' k ▸ hc, hf.coeff' k ▸ clash⟩
    · rintro ⟨k, c, hc, clash⟩
      exact ⟨σ k, c, (hg.coeff k).trans hc, (hf.coeff k).symm ▸ clash⟩
  · rw [access_add, access_add]
    simp [Access.merge, hf.irregular, hg.irregular]

theorem mapCoeffs (h : Renamed σ f f') {op : Coeff → Option Coeff}
    (hop : ∀ c c', c.Proper → op c = some c' → c'.Proper) :
    Renamed σ (f.mapCoeffs op) (f'.mapCoeffs op) := by
  constructor
  · exact h.ordered.mapCoeffs
  · exact h.ordered'.mapCoeffs
  · intro k
    rw [coeffAt_mapCoeffs, coeffAt_mapCoeffs, h.coeff]
  · intro k c hc
    rw [coeffAt_mapCoeffs] at hc
    obtain ⟨b, hb, rfl⟩ := Option.map_eq_some_iff.mp hc
    cases hop' : op b with
    | none => exact h.proper k b hb
    | some b' => exact hop b b' (h.proper k b hb) hop'
  · rw [Bool.eq_iff_iff, overflow_mapCoeffs h.ordered', overflow_mapCoeffs h.ordered, h.overflow]
    refine or_congr_right ?_
    constructor
    · rintro ⟨k, c, hc, none⟩
      exact ⟨σ k, c, h.coeff' k ▸ hc, none⟩
    · rintro ⟨k, c, hc, none⟩
      exact ⟨σ k, c, (h.coeff k).trans hc, none⟩
  · exact h.irregular

theorem neg (h : Renamed σ f f') : Renamed σ (-f) (-f') :=
  h.mapCoeffs fun _ _ proper => proper.neg?

theorem sub (hf : Renamed σ f f') (hg : Renamed σ g g') : Renamed σ (f - g) (f' - g') :=
  hf.add hg.neg

theorem scale (h : Renamed σ f f') (c : Coeff) : Renamed σ (f.scale c) (f'.scale c) := by
  unfold Formula.scale
  split
  · have empty : Renamed σ Formula.zero Formula.zero := .zero
    exact ⟨empty.ordered, empty.ordered', empty.coeff, empty.proper, h.overflow, rfl⟩
  · next hc => exact h.mapCoeffs fun _ _ proper => proper.mul? (by simpa using hc)

theorem mul (h : Renamed σ f f') (k : Int) : Renamed σ (f.mul k) (f'.mul k) := h.scale _

theorem div (h : Renamed σ f f') (k : Int) : Renamed σ (f.div k) (f'.div k) := by
  unfold Formula.div
  split
  · exact h.scale _
  · exact ⟨h.ordered, h.ordered', h.coeff, h.proper, rfl, h.irregular⟩

theorem constantValue? (h : Renamed σ f f') : f'.constantValue? = f.constantValue? := by
  by_cases ho : f.overflow = true
  · have ho' := h.overflow.trans ho
    simp [Formula.constantValue?, ho, ho']
  · by_cases unknown : ∃ k, k.isConstant = false ∧ f.coeffAt k ≠ none
    · obtain ⟨k, hk, present⟩ := unknown
      rw [constantValue?_of_unknown hk present, constantValue?_of_unknown (k := σ k)]
      · rw [σ.isConstant_key, hk]
      · rwa [h.coeff]
    · have known : ∀ k, k.isConstant = false → f.coeffAt k = none := by
        intro k hk
        by_contra present
        exact unknown ⟨k, hk, present⟩
      have known' : ∀ k, k.isConstant = false → f'.coeffAt k = none := by
        intro k hk
        rw [h.coeff']
        exact known _ (by rw [σ.isConstant_key, hk])
      have plain : f.overflow = false := by simpa using ho
      rw [constantValue?_of_known h.ordered plain known,
        constantValue?_of_known h.ordered' (h.overflow.trans plain) known', h.coeff']
      rfl

theorem hasComplexDenominator (h : Renamed σ f f') :
    f'.hasComplexDenominator = f.hasComplexDenominator := by
  rw [Bool.eq_iff_iff, hasComplexDenominator_iff h.ordered', hasComplexDenominator_iff h.ordered]
  constructor
  · rintro ⟨k, c, hk, hc, hfrac⟩
    exact ⟨σ k, c, by rw [σ.isConstant_key, hk], h.coeff' k ▸ hc, hfrac⟩
  · rintro ⟨k, c, hk, hc, hfrac⟩
    exact ⟨σ k, c, by rw [σ.isConstant_key, hk], (h.coeff k).trans hc, hfrac⟩

theorem sameTerms (hf : Renamed σ f f') (hg : Renamed σ g g') : f'.sameTerms g' = f.sameTerms g := by
  rw [Bool.eq_iff_iff, sameTerms_iff hf.ordered' hg.ordered', sameTerms_iff hf.ordered hg.ordered]
  constructor
  · intro h k
    rw [← hf.coeff, ← hg.coeff, h]
  · intro h k
    rw [hf.coeff', hg.coeff', h]

theorem integral? (h : Renamed σ f f') : f'.integral? = f.integral? := by
  unfold Formula.integral?
  rw [h.constantValue?]

theorem scale_one (h : Renamed σ f f') : Renamed σ f (f'.scale .one) := by
  have op : ∀ k c, f'.coeffAt k = some c → c.mul? .one = some c :=
    fun k c hc => (h.proper' k c hc).mul?_one
  have same : ∀ k, (f'.mapCoeffs (·.mul? .one)).coeffAt k = f'.coeffAt k := by
    intro k
    rw [coeffAt_mapCoeffs]
    cases hc : f'.coeffAt k with
    | none => rfl
    | some c => simp [op k c hc]
  have scaled : f'.scale .one = f'.mapCoeffs (·.mul? .one) := by
    unfold Formula.scale
    rw [if_neg (by decide)]
  rw [scaled]
  constructor
  · exact h.ordered
  · exact h.ordered'.mapCoeffs
  · intro k
    rw [same, h.coeff]
  · exact h.proper
  · rw [← h.overflow, Bool.eq_iff_iff, overflow_mapCoeffs h.ordered']
    constructor
    · rintro (ho | ⟨k, c, hc, none⟩)
      · exact ho
      · rw [op k c hc] at none
        cases none
    · exact .inl
  · exact h.irregular

theorem zero_add (h : Renamed σ f f') : Renamed σ f (Formula.zero + f') := by
  have empty : Formula.zero.Ordered := List.Pairwise.nil
  have none : ∀ k, Formula.zero.coeffAt k = none := fun _ => rfl
  constructor
  · exact h.ordered
  · exact empty.add
  · intro k
    rw [coeffAt_add empty h.ordered', none, ← h.coeff]
    cases hc : f'.coeffAt (σ k) with
    | none => rfl
    | some c => simp [Coeff.plus, (h.proper' _ c hc).isZero]
  · exact h.proper
  · rw [← h.overflow, Bool.eq_iff_iff, overflow_add empty h.ordered']
    constructor
    · rintro (ho | ho | ⟨k, c, _, _, a, ha, _⟩)
      · cases ho
      · exact ho
      · cases ha
    · exact fun ho => .inr (.inl ho)
  · rw [access_add, ← h.irregular]
    simp [Access.merge, Formula.zero]

theorem overflow_add_swap (hf : Renamed σ f f') (hg : Renamed σ g g') :
    (g' + f').overflow = (f + g).overflow := by
  rw [← (hf.add hg).overflow, Bool.eq_iff_iff, overflow_add hg.ordered' hf.ordered',
    overflow_add hf.ordered' hg.ordered']
  have clash : ∀ {f g : Formula}, (∀ k c, g.coeffAt k = some c → c.Proper) →
      (∃ k c, f.coeffAt k = some c ∧ Coeff.Clashes c (g.coeffAt k)) →
      ∃ k c, g.coeffAt k = some c ∧ Coeff.Clashes c (f.coeffAt k) := by
    rintro f g proper ⟨k, c, hc, _, a, ha, none⟩
    exact ⟨k, a, ha, (proper k a ha).isZero, c, hc, by rw [Coeff.add?_comm, none]⟩
  constructor
  · rintro (ho | ho | h)
    · exact .inr (.inl ho)
    · exact .inl ho
    · exact .inr (.inr (clash hg.proper' h))
  · rintro (ho | ho | h)
    · exact .inr (.inl ho)
    · exact .inl ho
    · exact .inr (.inr (clash hf.proper' h))

theorem add_swap (hf : Renamed σ f f') (hg : Renamed σ g g') (ho : (f + g).overflow = false) :
    Renamed σ (f + g) (g' + f') := by
  have sum := hf.add hg
  have noClash : ∀ k a c, f.coeffAt k = some a → g.coeffAt k = some c → a.add? c ≠ none := by
    intro k a c ha hc none
    have clash := (overflow_add hf.ordered hg.ordered).mpr
      (.inr (.inr ⟨k, c, hc, (hg.proper k c hc).isZero, a, ha, none⟩))
    simp [ho] at clash
  constructor
  · exact sum.ordered
  · exact hg.ordered'.add
  · intro k
    rw [coeffAt_add hg.ordered' hf.ordered', coeffAt_add hf.ordered hg.ordered, hf.coeff, hg.coeff]
    cases ha : f.coeffAt k with
    | none =>
      cases hc : g.coeffAt k with
      | none => rfl
      | some c => simp [Coeff.plus, (hg.proper k c hc).isZero]
    | some a =>
      cases hc : g.coeffAt k with
      | none => simp [Coeff.plus, (hf.proper k a ha).isZero]
      | some c =>
        obtain ⟨b, hb⟩ := Option.ne_none_iff_exists'.mp (noClash k a c ha hc)
        simp [Coeff.plus, (hf.proper k a ha).isZero, (hg.proper k c hc).isZero, hb,
          Coeff.add?_comm c a]
  · exact sum.proper
  · rw [overflow_add_swap hf hg]
  · rw [access_add, access_add]
    simp [Access.merge, hf.irregular, hg.irregular, Bool.or_comm]

theorem agrees_swap (hf : Renamed σ f f') (hg : Renamed σ g g') : Agrees σ (f + g) (g' + f') :=
  ⟨hf.overflow_add_swap hg, hf.add_swap hg⟩

end Renamed

theorem Agrees.marked {σ : KeySwap} {f f' : Formula} (h : Agrees σ f f') {a a' : Access}
    (ha : a'.irregular = a.irregular) :
    Agrees σ { f with access := f.access.merge a } { f' with access := f'.access.merge a' } := by
  refine ⟨h.overflow, fun plain => (h.renamed plain).withAccess ?_⟩
  simp only [Access.merge]
  rw [(h.renamed plain).irregular, ha]

end Formula

namespace Operation

variable {σ : KeySwap} {f f' g g' : Formula}

theorem fits_onWords? {op : Operation} {a b v : Int} (h : op.onWords? a b = some v) :
    Word.fits v = true := by
  unfold onWords? at h
  cases op with
  | or | orn | andn | and | xor | xnor =>
    cases h
    exact Word.fits_toInt _
  | sll | srl | sra =>
    obtain ⟨_, hv⟩ := Option.ite_none_right_eq_some.mp h
    cases hv
    exact Word.fits_toInt _
  | mul =>
    cases h
    exact Word.fits_wrap _
  | div =>
    obtain ⟨_, hv⟩ := Option.ite_none_right_eq_some.mp h
    cases hv
    exact Word.fits_wrap _
  | add | sub | mov | not | invalid => cases h

theorem ifSimple?_renamed (h : f.Renamed σ f') :
    Option.Rel (Formula.Renamed σ) (ifSimple? f) (ifSimple? f') := by
  unfold ifSimple?
  rw [h.hasComplexDenominator]
  split
  · exact .none
  · exact .some h

theorem byConstant?_renamed (op : Operation) (h : f.Renamed σ f') (b : Int) :
    Option.Rel (Formula.Renamed σ) (op.byConstant? f b) (op.byConstant? f' b) := by
  unfold byConstant?
  cases op with
  | sll =>
    dsimp only
    cases shiftFactor? b with
    | none => exact .none
    | some k => exact .some (h.mul k)
  | srl | sra =>
    dsimp only
    cases shiftFactor? b with
    | none => exact .none
    | some k => exact ifSimple?_renamed (h.div k)
  | or | andn =>
    dsimp only
    split
    · exact .some h
    · exact .none
  | mul => exact .some (h.mul b)
  | div =>
    dsimp only
    split
    · exact ifSimple?_renamed (h.div b)
    · exact .none
  | _ => exact .none

theorem ofConstant?_renamed (op : Operation) (a : Int) (h : g.Renamed σ g') :
    Option.Rel (Formula.Renamed σ) (op.ofConstant? a g) (op.ofConstant? a g') := by
  unfold ofConstant?
  cases op with
  | or =>
    dsimp only
    split
    · exact .some h
    · exact .none
  | mul => exact .some (h.mul a)
  | _ => exact .none

theorem onFormulas?_renamed (op : Operation) (hf : f.Renamed σ f') (hg : g.Renamed σ g') :
    Option.Rel (Formula.Renamed σ) (op.onFormulas? f g) (op.onFormulas? f' g') := by
  unfold onFormulas?
  rw [hf.integral?, hg.integral?]
  dsimp only
  split
  · next v _ _ hv =>
    obtain ⟨a, _, hv⟩ := Option.bind_eq_some_iff.mp hv
    obtain ⟨b, _, hv⟩ := Option.bind_eq_some_iff.mp hv
    exact .some (.constant (fits_onWords? hv))
  · exact byConstant?_renamed op hf _
  · exact ofConstant?_renamed op _ hg
  · exact .none

end Operation

theorem doubleShift?_renamed {σ : KeySwap} {f f' filling filling' amount amount' : Formula}
    (width : Nat) (hf : f.Renamed σ f') (hfill : filling.Renamed σ filling')
    (hamount : amount.Renamed σ amount') :
    Option.Rel (Formula.Renamed σ) (doubleShift? width f filling amount)
      (doubleShift? width f' filling' amount') := by
  unfold doubleShift?
  rw [hfill.integral?, hamount.integral?]
  cases filling.integral? with
  | none => exact .none
  | some v =>
    cases amount.integral? with
    | none => exact .none
    | some n =>
      simp only [Option.bind_eq_bind, Option.bind_some]
      split
      · exact .none
      · next hn =>
        apply Option.Rel.some
        apply (hf.mul _).add
        apply Formula.Renamed.constant
        split
        · decide
        · exact Word.fits_mod_power _ (by omega)

end AddressFormulas
