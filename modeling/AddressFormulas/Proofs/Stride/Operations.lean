import AddressFormulas.Proofs.Data.Options
import AddressFormulas.Proofs.Formula.Renaming
import AddressFormulas.Proofs.Walk.Mirroring
import AddressFormulas.Stride.Combine

namespace AddressFormulas

structure StrideValue.Renamed (σ : KeySwap) (v v' : StrideValue) : Prop where
  kind : v'.kind = v.kind
  target : v'.target = v.target
  formula : v.formula.Renamed σ v'.formula

structure StrideValue.Agrees (σ : KeySwap) (v v' : StrideValue) : Prop where
  kind : v'.kind = v.kind
  target : v'.target = v.target
  formula : v.formula.Agrees σ v'.formula

namespace StrideValue

variable {σ : KeySwap} {v v' : StrideValue} {f f' : Formula}

theorem Renamed.of_formula (h : f.Renamed σ f') (kind : StrideKind) (target : Nat) :
    Renamed σ ⟨f, kind, target⟩ ⟨f', kind, target⟩ :=
  ⟨rfl, rfl, h⟩

theorem Renamed.agrees (h : v.Renamed σ v') : v.Agrees σ v' := ⟨h.kind, h.target, h.formula.agrees⟩

end StrideValue

namespace Stride

open Formula

variable {σ : KeySwap} {u : MicroOp}

theorem operandFormula_renamed (hu : ∀ reg, σ.site u.site reg = u.site) (words : u.HasWords) (i : Nat) :
    (operandFormula u i).Renamed σ (operandFormula u i) := by
  unfold operandFormula
  split
  · next v hv =>
    apply Renamed.constant
    apply words.immediates
    exact List.mem_filterMap.mpr ⟨_, List.mem_of_getElem? hv, rfl⟩
  · split
    · exact .register (hu _)
    · exact .zero
  · exact .zero

namespace Operands

def Alike (σ : KeySwap) (o o' : Operands) : Prop :=
  ∃ f₁' f₂', o' = { o with f₁ := f₁', f₂ := f₂' } ∧ o.f₁.Renamed σ f₁' ∧ o.f₂.Renamed σ f₂'

def Paired (σ : KeySwap) (r r' : Formula × StrideKind) : Prop := r.1.Renamed σ r'.1 ∧ r'.2 = r.2

variable {o o' : Operands} {unknown irregular : Formula}

theorem Paired.ite {c : Prop} [Decidable c] {a a' b b' : Formula × StrideKind} (ha : Paired σ a a')
    (hb : Paired σ b b') : Paired σ (if c then a else b) (if c then a' else b') := by
  split
  · exact ha
  · exact hb

theorem sum_paired (h : Alike σ o o') : Paired σ o.sum o'.sum := by
  obtain ⟨f₁', f₂', rfl, h₁, h₂⟩ := h
  unfold sum
  apply Paired.ite
  · exact ⟨h₁.add h₂, rfl⟩
  · apply Paired.ite
    · exact ⟨h₁.add h₂, rfl⟩
    · apply Paired.ite
      · exact ⟨h₁, rfl⟩
      · exact ⟨h₂, rfl⟩

section Unknown

variable (hirr : irregular.Renamed σ irregular)

include hirr

theorem difference_paired (h : Alike σ o o') :
    Paired σ (o.difference irregular) (o'.difference irregular) := by
  obtain ⟨f₁', f₂', rfl, h₁, h₂⟩ := h
  unfold difference
  apply Paired.ite
  · exact ⟨h₁.sub h₂, rfl⟩
  · apply Paired.ite
    · apply Paired.ite
      · exact ⟨h₂.neg, rfl⟩
      · exact ⟨hirr, rfl⟩
    · apply Paired.ite
      · exact ⟨h₁, rfl⟩
      · exact ⟨h₂.neg, rfl⟩

theorem scaled_paired (h : Alike σ o o') {f f' : Formula} (hf : f.Renamed σ f') (k : Int) :
    Paired σ (o.scaled f k irregular) (o'.scaled f' k irregular) := by
  obtain ⟨f₁', f₂', rfl, _, _⟩ := h
  unfold scaled
  apply Paired.ite
  · exact ⟨hirr, rfl⟩
  · exact ⟨hf.mul k, rfl⟩

theorem withFirst?_paired (op : Operation) (h : Alike σ o o') (v : Int) :
    Option.Rel (Paired σ) (o.withFirst? op v irregular) (o'.withFirst? op v irregular) := by
  have scaled := @scaled_paired σ o o' irregular hirr h
  obtain ⟨f₁', f₂', rfl, _, h₂⟩ := h
  unfold withFirst?
  cases op with
  | or =>
    dsimp only
    split
    · exact .some ⟨h₂, rfl⟩
    · exact .none
  | mul => exact .some (scaled h₂ v)
  | _ => exact .none

omit hirr in
theorem fits_bitwise {op : Operation} {a b v : Int} (h : bitwise? op a b = some v) :
    Word.fits v = true := by
  unfold bitwise? at h
  cases op with
  | not | or | orn | andn | and | xor | xnor =>
    cases h
    exact Word.fits_toInt _
  | _ => cases h

theorem withBoth?_paired (op : Operation) (h : Alike σ o o') (a b : Int) :
    Option.Rel (Paired σ) (o.withBoth? op a b irregular) (o'.withBoth? op a b irregular) := by
  obtain ⟨f₁', f₂', rfl, _, _⟩ := h
  unfold withBoth?
  cases hv : bitwise? op a b with
  | none => exact .none
  | some v =>
    simp only [Option.map_some]
    apply Option.Rel.some
    constructor
    · dsimp only
      split
      · exact hirr
      · exact .constant (fits_bitwise hv)
    · rfl

variable (hunk : unknown.Renamed σ unknown)

include hunk

theorem unknownOr_paired (h : Alike σ o o') :
    Paired σ (o.unknownOr unknown irregular) (o'.unknownOr unknown irregular) := by
  obtain ⟨f₁', f₂', rfl, _, _⟩ := h
  have either : ∀ b : Bool,
      (if b then irregular else unknown).Renamed σ (if b then irregular else unknown) := by
    intro b
    cases b with
    | false => exact hunk
    | true => exact hirr
  exact ⟨either _, rfl⟩

omit hirr in
theorem quotient_renamed (h : Alike σ o o') (k : Int) :
    (o.quotient k unknown).Renamed σ (o'.quotient k unknown) := by
  obtain ⟨f₁', f₂', rfl, h₁, _⟩ := h
  unfold quotient
  rw [(h₁.div k).hasComplexDenominator]
  split
  · exact hunk
  · exact h₁.div k

theorem withSecond?_paired (op : Operation) (count : Nat) (h : Alike σ o o') (v : Int) :
    Option.Rel (Paired σ) (o.withSecond? op count v unknown irregular)
      (o'.withSecond? op count v unknown irregular) := by
  have scaled := @scaled_paired σ o o' irregular hirr h
  have quotient := quotient_renamed hunk h
  obtain ⟨f₁', f₂', rfl, h₁, _⟩ := h
  have gaveUp : ∀ kind, Paired σ (irregular, kind) (irregular, kind) := fun _ => ⟨hirr, rfl⟩
  unfold withSecond?
  dsimp only [joined] at scaled quotient ⊢
  -- these are the operations that take a constant for the second operand
  cases op with
  | sll =>
    dsimp only
    split
    · exact .some ⟨h₁, rfl⟩
    · split
      · exact .some (gaveUp _)
      · exact .some ⟨h₁.mul _, rfl⟩
  | srl | sra =>
    dsimp only
    split
    · exact .some ⟨h₁, rfl⟩
    · split
      · exact .some (gaveUp _)
      · exact .some ⟨quotient _, rfl⟩
  | or | andn =>
    dsimp only
    split
    · exact .some ⟨h₁, rfl⟩
    · exact .none
  | mul => exact .some (scaled h₁ v)
  | div =>
    dsimp only
    split
    · exact .some (gaveUp _)
    · split
      · exact .some ⟨hunk, rfl⟩
      · exact .some ⟨quotient v, rfl⟩
  | _ => exact .none

theorem other_paired (op : Operation) (count : Nat) (h : Alike σ o o') :
    Paired σ (o.other op count unknown irregular) (o'.other op count unknown irregular) := by
  have unknownOr := unknownOr_paired hirr hunk h
  have second := withSecond?_paired hirr hunk op count h
  have first := withFirst?_paired hirr op h
  have both := withBoth?_paired hirr op h
  obtain ⟨f₁', f₂', rfl, _, _⟩ := h
  unfold other
  dsimp only
  split
  · exact unknownOr
  · apply Option.Rel.getD _ unknownOr
    apply (Option.Rel.bind_self _ second).orElse
    apply (Option.Rel.bind_self _ first).orElse
    exact .bind_self _ fun a => .bind_self _ fun b => both a b

end Unknown

theorem result_paired (hunk : unknown.Renamed σ unknown) (op : Operation) (count : Nat)
    (h : Alike σ o o') : Paired σ (o.result op count unknown) (o'.result op count unknown) := by
  have other := other_paired hunk.markIrregular hunk op count h
  unfold result
  cases op with
  | add | mov => exact sum_paired h
  | sub => exact difference_paired hunk.markIrregular h
  | _ => exact other

end Operands

theorem Operands.Paired.marked {r r' : Formula × StrideKind} (h : Paired σ r r') {access access' : Access}
    (ha : access'.irregular = access.irregular) (target : Nat) :
    StrideValue.Renamed σ ⟨{ r.1 with access := r.1.access.merge access }, r.2, target⟩
      ⟨{ r'.1 with access := r'.1.access.merge access' }, r'.2, target⟩ := by
  obtain ⟨formula, kind⟩ := h
  refine ⟨kind, rfl, formula.withAccess ?_⟩
  simp only [Access.merge]
  rw [formula.irregular, ha]

section Combine

variable (hu : ∀ reg, σ.site u.site reg = u.site) (words : u.HasWords)
  {o₁ o₁' o₂ o₂' : StrideValue} (h₁ : o₁.Renamed σ o₁') (h₂ : o₂.Renamed σ o₂')

include hu words h₁ h₂

theorem settle_alike (second : Nat) :
    (settle u second o₁ o₂).Alike σ (settle u second o₁' o₂') := by
  have settled : ∀ {v v' : StrideValue}, v.Renamed σ v' → ∀ i,
      (v.formula + operandFormula u i).Renamed σ (v'.formula + operandFormula u i) :=
    fun h i => h.formula.add (operandFormula_renamed hu words i)
  unfold settle
  rw [h₁.kind, h₂.kind, h₁.formula.constantValue?, h₂.formula.constantValue?]
  dsimp only
  split
  · exact ⟨_, _, rfl, h₁.formula, settled h₂ second⟩
  · exact ⟨_, _, rfl, settled h₁ 0, h₂.formula⟩
  · exact ⟨_, _, rfl, h₁.formula, h₂.formula⟩

theorem combine_renamed (reg : Register) (count second : Nat) {middle middle' : Option StrideValue}
    (hm : Option.Rel (StrideValue.Renamed σ) middle middle') :
    (combine u reg count second o₁ middle o₂).Renamed σ (combine u reg count second o₁' middle' o₂') := by
  have unknown : (register u.site reg).Renamed σ (register u.site reg) := .register (hu reg)
  obtain ⟨f₁', f₂', heq, hf₁, hf₂⟩ := settle_alike hu words h₁ h₂ second
  have target : earlier o₁'.target o₂'.target = earlier o₁.target o₂.target := by
    rw [h₁.target, h₂.target]
  unfold combine
  rw [heq, target]
  cases hm with
  | none =>
    apply Operands.Paired.marked (Operands.result_paired unknown _ _ ⟨f₁', f₂', rfl, hf₁, hf₂⟩)
    simp [operandAccess, Access.merge, hf₁.irregular, hf₂.irregular]
  | @some v v' h =>
    dsimp only
    rw [h.kind]
    have joined : Operands.Alike σ
        { settle u second o₁ o₂ with k₁ := (settle u second o₁ o₂).k₁.join v.kind }
        { settle u second o₁ o₂ with
          f₁ := f₁', f₂ := f₂', k₁ := (settle u second o₁ o₂).k₁.join v.kind } :=
      ⟨f₁', f₂', rfl, hf₁, hf₂⟩
    apply Operands.Paired.marked (Operands.result_paired unknown _ _ joined)
    simp [operandAccess, Access.merge, hf₁.irregular, hf₂.irregular, h.formula.irregular]

end Combine

end Stride

end AddressFormulas
