import AddressFormulas.Proofs.Stride.Meaning

namespace AddressFormulas

namespace StrideKind

def joinAll (kinds : List StrideKind) : StrideKind :=
  if .partialSum ∈ kinds then .partialSum else if .stride ∈ kinds then .stride else .invariant

theorem joinAll_eq_partialSum (kinds : List StrideKind) :
    joinAll kinds = .partialSum ↔ .partialSum ∈ kinds := by
  unfold joinAll
  split
  · simp_all
  · split <;> simp_all

end StrideKind

namespace Indirection

variable {i j : Indirection}

theorem merge_eq_guaranteed : i.merge j = .guaranteed ↔ i = .guaranteed ∨ j = .guaranteed := by
  cases i <;> cases j <;> simp [merge]

def Lists (i : Indirection) (site : Site) : Prop :=
  ∃ loads, i = .deferred loads ∧ loads.contains site = true

theorem lists_deferred (loads : KeySet Site) (site : Site) :
    (deferred loads).Lists site ↔ loads.contains site = true := by
  simp [Lists]

theorem not_lists_none (site : Site) : ¬none.Lists site := by
  simp [Lists]

theorem lists_merge (h : i.merge j ≠ .guaranteed) (site : Site) :
    (i.merge j).Lists site ↔ i.Lists site ∨ j.Lists site := by
  have neither := mt merge_eq_guaranteed.mpr h
  cases i with
  | guaranteed => simp at neither
  | none => cases j with
    | guaranteed => simp at neither
    | none => simp [merge]
    | deferred t => simp [merge, not_lists_none]
  | deferred s => cases j with
    | guaranteed => simp at neither
    | none => simp [merge, not_lists_none]
    | deferred t => simp only [merge, lists_deferred, KeySet.contains_union]

end Indirection

namespace Access

variable (marks : List Access) (a : Access)

theorem irregular_foldl_merge : (marks.foldl merge a).irregular = true ↔
    a.irregular = true ∨ ∃ b ∈ marks, b.irregular = true := by
  induction marks generalizing a with
  | nil => simp
  | cons b marks ih => simp [ih, merge, or_assoc]

theorem guaranteed_foldl_merge : (marks.foldl merge a).indirect = .guaranteed ↔
    a.indirect = .guaranteed ∨ ∃ b ∈ marks, b.indirect = .guaranteed := by
  induction marks generalizing a with
  | nil => simp
  | cons b marks ih => simp [ih, merge, Indirection.merge_eq_guaranteed, or_assoc]

theorem lists_foldl_merge (h : (marks.foldl merge a).indirect ≠ .guaranteed) (site : Site) :
    (marks.foldl merge a).indirect.Lists site ↔
      a.indirect.Lists site ∨ ∃ b ∈ marks, b.indirect.Lists site := by
  induction marks generalizing a with
  | nil => simp
  | cons b marks ih =>
    have first : (a.merge b).indirect ≠ .guaranteed := by
      intro covered
      exact h ((guaranteed_foldl_merge marks (a.merge b)).mpr (.inl covered))
    rw [List.foldl_cons, ih _ h, merge, Indirection.lists_merge first]
    simp [or_assoc]

end Access

namespace Formula

variable {f g : Formula}

/-- The access goes through a loaded address, whatever the loads turn out to be. -/
def Guaranteed (f : Formula) : Prop := f.access.indirect = .guaranteed

theorem not_guaranteed_ofTerm (key : TermKey) (c : Coeff) (origin : Option Site) :
    ¬(ofTerm key c origin).Guaranteed := by
  rw [Guaranteed, ofTerm, access_addTerm]
  simp [zero]

theorem guaranteed_add_iff : (f + g).Guaranteed ↔ f.Guaranteed ∨ g.Guaranteed := by
  rw [Guaranteed, access_add]
  exact Indirection.merge_eq_guaranteed

theorem Guaranteed.of_neg (h : (-f).Guaranteed) : f.Guaranteed := h

theorem guaranteed_of_sub (h : (f - g).Guaranteed) : f.Guaranteed ∨ g.Guaranteed :=
  (guaranteed_add_iff.mp h).imp_right Guaranteed.of_neg

theorem Guaranteed.of_scale {c : Coeff} (h : (f.scale c).Guaranteed) : f.Guaranteed := by
  unfold Guaranteed scale at h
  split at h
  · simp at h
  · exact h

theorem Guaranteed.of_div {k : Int} (h : (f.div k).Guaranteed) : f.Guaranteed := by
  unfold div at h
  split at h
  · exact h.of_scale
  · exact h

end Formula

namespace Stride

open Formula

namespace Operands

variable {o : Operands} {op : Operation} {count : Nat} {unknown irregular : Formula}
  {r : Formula × StrideKind}

theorem other_induction {P : Formula × StrideKind → Prop} (hunknown : P (o.unknownOr unknown irregular))
    (hsecond : ∀ c r, o.c₂ = some c → o.withSecond? op count c.value unknown irregular = some r → P r)
    (hfirst : ∀ v r, o.withFirst? op v irregular = some r → P r)
    (hboth : ∀ c c' r, o.c₁ = some c → o.c₂ = some c' →
      o.withBoth? op c.value c'.value irregular = some r → P r) :
    P (o.other op count unknown irregular) := by
  unfold other
  split
  · exact hunknown
  dsimp only
  cases h₂ : (o.c₂.map Coeff.value).bind fun v => o.withSecond? op count v unknown irregular with
  | some r =>
    obtain ⟨v, hv, hr⟩ := Option.bind_eq_some_iff.mp h₂
    obtain ⟨c, hc, rfl⟩ := Option.map_eq_some_iff.mp hv
    exact hsecond c r hc hr
  | none =>
    cases h₁ : (o.c₁.map Coeff.value).bind fun v => o.withFirst? op v irregular with
    | some r =>
      obtain ⟨v, _, hr⟩ := Option.bind_eq_some_iff.mp h₁
      exact hfirst v r hr
    | none =>
      cases h : (o.c₁.map Coeff.value).bind fun a => (o.c₂.map Coeff.value).bind fun b =>
          o.withBoth? op a b irregular with
      | some r =>
        obtain ⟨a, ha, hb⟩ := Option.bind_eq_some_iff.mp h
        obtain ⟨c, hc, rfl⟩ := Option.map_eq_some_iff.mp ha
        obtain ⟨b, hb, hr⟩ := Option.bind_eq_some_iff.mp hb
        obtain ⟨c', hc', rfl⟩ := Option.map_eq_some_iff.mp hb
        exact hboth c c' r hc hc' hr
      | none => exact hunknown

section Kind

theorem sum_joined (o : Operands) : o.sum.2 = o.joined := by
  unfold sum eitherPartial joined
  cases o.k₁ <;> cases o.k₂ <;> rfl

theorem difference_joined (o : Operands) (irregular : Formula) :
    (o.difference irregular).2 = o.joined := by
  unfold difference joined
  by_cases zero : o.c₁.any Coeff.isZero = true <;> cases o.k₁ <;> cases o.k₂ <;>
    simp [zero, StrideKind.join]

theorem scaled_joined (o : Operands) (f : Formula) (k : Int) (irregular : Formula) :
    (o.scaled f k irregular).2 = o.joined := by
  unfold scaled eitherPartial joined
  cases o.k₁ <;> cases o.k₂ <;> rfl

theorem joined_of_second (h : o.k₂ = .invariant) : o.k₁ = o.joined := by
  rw [joined, h]
  cases o.k₁ <;> rfl

theorem joined_of_first (h : o.k₁ = .invariant) : o.k₂ = o.joined := by
  rw [joined, h]
  cases o.k₂ <;> rfl

theorem withSecond?_joined {v : Int} (hr : o.withSecond? op count v unknown irregular = some r) :
    r.2 = o.joined := by
  unfold withSecond? at hr
  cases op with
  | sll | srl | sra | div =>
    dsimp only at hr
    split at hr
    · cases hr
      rfl
    · split at hr <;> cases hr <;> rfl
  | or | andn =>
    obtain ⟨⟨_, invariant⟩, hr⟩ := Option.ite_none_right_eq_some.mp hr
    cases hr
    exact joined_of_second invariant
  | mul =>
    cases hr
    exact scaled_joined o _ _ _
  | _ => cases hr

theorem withFirst?_joined {v : Int} (hr : o.withFirst? op v irregular = some r) : r.2 = o.joined := by
  unfold withFirst? at hr
  cases op with
  | or =>
    obtain ⟨⟨_, invariant⟩, hr⟩ := Option.ite_none_right_eq_some.mp hr
    cases hr
    exact joined_of_first invariant
  | mul =>
    cases hr
    exact scaled_joined o _ _ _
  | _ => cases hr

theorem withBoth?_joined {a b : Int} (h : op = .not → o.k₂ = .invariant)
    (hr : o.withBoth? op a b irregular = some r) : r.2 = o.joined := by
  obtain ⟨v, _, rfl⟩ := Option.map_eq_some_iff.mp hr
  dsimp only
  split
  · next negated => exact joined_of_second (h negated)
  · rfl

/-- The kind of the result is that of both operands. Only a `not` of two constants leaves out what
the second operand is. -/
theorem result_joined (h : op = .not → o.k₂ = .invariant ∨ o.c₁ = none ∨ o.c₂ = none) :
    (o.result op count unknown).2 = o.joined := by
  have other : (o.other op count unknown unknown.markIrregular).2 = o.joined := by
    apply other_induction (P := fun r => r.2 = o.joined)
    · rfl
    · exact fun _ _ _ => withSecond?_joined
    · exact fun _ _ => withFirst?_joined
    · intro c c' r hc hc' hr
      refine withBoth?_joined (fun negated => ?_) hr
      simpa [hc, hc'] using h negated
  unfold result
  cases op with
  | add | mov => exact sum_joined o
  | sub => exact difference_joined o _
  | _ => exact other

end Kind

section Marks

def NoMore (o : Operands) (f : Formula) : Prop := f.Guaranteed → o.f₁.Guaranteed ∨ o.f₂.Guaranteed

theorem noMore_first : o.NoMore o.f₁ := .inl

theorem noMore_second : o.NoMore o.f₂ := .inr

theorem noMore_sum (o : Operands) : o.NoMore o.sum.1 := by
  unfold sum
  split
  · exact guaranteed_add_iff.mp
  · split
    · exact guaranteed_add_iff.mp
    · split
      · exact noMore_first
      · exact noMore_second

variable (hunk : ¬unknown.Guaranteed) (hirr : ¬irregular.Guaranteed)

include hirr

theorem noMore_difference (o : Operands) : o.NoMore (o.difference irregular).1 := by
  have negated : o.NoMore (-o.f₂) := fun h => .inr h.of_neg
  unfold difference
  split
  · exact guaranteed_of_sub
  · split
    · split
      · exact negated
      · exact fun h => absurd h hirr
    · split
      · exact noMore_first
      · exact negated

theorem noMore_scaled {f : Formula} (hf : o.NoMore f) (k : Int) :
    o.NoMore (o.scaled f k irregular).1 := by
  unfold scaled
  split
  · exact fun h => absurd h hirr
  · exact fun h => hf h.of_scale

theorem noMore_withFirst? {v : Int} (hr : o.withFirst? op v irregular = some r) : o.NoMore r.1 := by
  unfold withFirst? at hr
  cases op with
  | or =>
    obtain ⟨_, hr⟩ := Option.ite_none_right_eq_some.mp hr
    cases hr
    exact noMore_second
  | mul =>
    cases hr
    exact noMore_scaled hirr noMore_second v
  | _ => cases hr

theorem noMore_withBoth? {a b : Int} (hr : o.withBoth? op a b irregular = some r) : o.NoMore r.1 := by
  obtain ⟨v, _, rfl⟩ := Option.map_eq_some_iff.mp hr
  dsimp only
  split
  · exact fun h => absurd h hirr
  · exact fun h => absurd h (not_guaranteed_ofTerm _ _ _)

include hunk

theorem noMore_unknownOr (o : Operands) : o.NoMore (o.unknownOr unknown irregular).1 := by
  intro h
  unfold unknownOr at h
  dsimp only at h
  split at h
  · exact absurd h hirr
  · exact absurd h hunk

omit hirr in
theorem noMore_quotient (k : Int) : o.NoMore (o.quotient k unknown) := by
  unfold quotient
  split
  · exact fun h => absurd h hunk
  · exact fun h => .inl h.of_div

theorem noMore_withSecond? {v : Int} (hr : o.withSecond? op count v unknown irregular = some r) :
    o.NoMore r.1 := by
  have gaveUp : o.NoMore irregular := fun h => absurd h hirr
  unfold withSecond? at hr
  cases op with
  | sll =>
    dsimp only at hr
    split at hr
    · cases hr
      exact noMore_first
    · split at hr
      · cases hr
        exact gaveUp
      · cases hr
        exact fun h => .inl h.of_scale
  | srl | sra =>
    dsimp only at hr
    split at hr
    · cases hr
      exact noMore_first
    · split at hr
      · cases hr
        exact gaveUp
      · cases hr
        exact noMore_quotient hunk _
  | or | andn =>
    obtain ⟨_, hr⟩ := Option.ite_none_right_eq_some.mp hr
    cases hr
    exact noMore_first
  | mul =>
    cases hr
    exact noMore_scaled hirr noMore_first v
  | div =>
    dsimp only at hr
    split at hr
    · cases hr
      exact gaveUp
    · split at hr
      · cases hr
        exact fun h => absurd h hunk
      · cases hr
        exact noMore_quotient hunk v
  | _ => cases hr

omit hirr in
theorem noMore_result (o : Operands) (op : Operation) (count : Nat) :
    o.NoMore (o.result op count unknown).1 := by
  have hirr : ¬unknown.markIrregular.Guaranteed := hunk
  have other : o.NoMore (o.other op count unknown unknown.markIrregular).1 := by
    apply other_induction (P := fun r => o.NoMore r.1)
    · exact noMore_unknownOr hunk hirr o
    · exact fun _ _ _ => noMore_withSecond? hunk hirr
    · exact fun _ _ => noMore_withFirst? hirr
    · exact fun _ _ _ _ _ => noMore_withBoth? hirr
  unfold result
  cases op with
  | add | mov => exact noMore_sum o
  | sub => exact noMore_difference hirr o
  | _ => exact other

end Marks

end Operands

section Combine

variable (u : MicroOp) (second : Nat) (o₁ o₂ : StrideValue) (middle : Option StrideValue)

theorem access_operandFormula (i : Nat) : (operandFormula u i).access = {} := by
  unfold operandFormula
  split
  · exact access_addTerm _ _ _
  · split
    · exact access_addTerm _ _ _
    · rfl
  · rfl

theorem settle_access : (settle u second o₁ o₂).f₁.access = o₁.formula.access ∧
    (settle u second o₁ o₂).f₂.access = o₂.formula.access := by
  have settled : ∀ (f : Formula) i, (f + operandFormula u i).access = f.access := by
    intro f i
    rw [access_add, access_operandFormula]
    simp [Access.merge, Indirection.merge]
  unfold settle
  dsimp only
  split
  · exact ⟨rfl, settled _ _⟩
  · exact ⟨settled _ _, rfl⟩
  · exact ⟨rfl, rfl⟩

theorem settle_constants : (settle u second o₁ o₂).c₁ = o₁.formula.constantValue? ∧
    (settle u second o₁ o₂).c₂ = o₂.formula.constantValue? := by
  unfold settle
  dsimp only
  split <;> exact ⟨rfl, rfl⟩

theorem settle_invariant (h : o₂.kind = .invariant) : (settle u second o₁ o₂).k₂ = .invariant := by
  unfold settle
  rw [h]
  cases o₁.kind <;> rfl

def Mixed (o o' : StrideValue) : Prop :=
  o.kind = .partialSum ∧ o'.kind = .stride ∧
    ∀ c, o'.formula.constantValue? = some c → c.isZero = false

theorem settle_irregular (h : Mixed o₁ o₂ ∨ Mixed o₂ o₁) :
    (settle u second o₁ o₂).irregular = true := by
  unfold settle
  obtain ⟨k₁, k₂, nonzero⟩ | ⟨k₂, k₁, nonzero⟩ := h <;> rw [k₁, k₂] <;>
    simpa [Option.all_eq_true] using nonzero

def allOperands : List StrideValue := o₁ :: o₂ :: middle.toList

def settleAll : Operands :=
  match middle with
  | some v => { settle u second o₁ o₂ with k₁ := (settle u second o₁ o₂).k₁.join v.kind }
  | none => settle u second o₁ o₂

theorem settleAll_joined : (settleAll u second o₁ o₂ middle).joined =
    .joinAll ((allOperands o₁ o₂ middle).map StrideValue.kind) := by
  obtain ⟨f₁, k₁, t₁⟩ := o₁
  obtain ⟨f₂, k₂, t₂⟩ := o₂
  cases middle with
  | none => cases k₁ <;> cases k₂ <;> rfl
  | some v =>
    obtain ⟨f, k, t⟩ := v
    cases k₁ <;> cases k₂ <;> cases k <;> rfl

theorem settleAll_rest : (settleAll u second o₁ o₂ middle).f₁ = (settle u second o₁ o₂).f₁ ∧
    (settleAll u second o₁ o₂ middle).f₂ = (settle u second o₁ o₂).f₂ ∧
    (settleAll u second o₁ o₂ middle).c₁ = (settle u second o₁ o₂).c₁ ∧
    (settleAll u second o₁ o₂ middle).c₂ = (settle u second o₁ o₂).c₂ ∧
    (settleAll u second o₁ o₂ middle).k₂ = (settle u second o₁ o₂).k₂ := by
  cases middle <;> exact ⟨rfl, rfl, rfl, rfl, rfl⟩

def marksOf : Access := ((allOperands o₁ o₂ middle).map (·.formula.access)).foldl Access.merge {}

theorem marksOf_guaranteed_iff : (marksOf o₁ o₂ middle).indirect = .guaranteed ↔
    ∃ o ∈ allOperands o₁ o₂ middle, o.formula.access.indirect = .guaranteed := by
  rw [marksOf, Access.guaranteed_foldl_merge]
  simp

theorem operandAccess_settle : operandAccess (settle u second o₁ o₂) middle =
    { marksOf o₁ o₂ middle with
      irregular := (marksOf o₁ o₂ middle).irregular || (settle u second o₁ o₂).irregular } := by
  obtain ⟨access₁, access₂⟩ := settle_access u second o₁ o₂
  unfold operandAccess
  rw [access₁, access₂]
  cases middle <;> rfl

theorem combine_joined (reg : Register) (count : Nat) (h : u.operation = .not →
      o₂.kind = .invariant ∨ o₁.formula.constantValue? = none ∨ o₂.formula.constantValue? = none) :
    (combine u reg count second o₁ middle o₂).kind =
      .joinAll ((allOperands o₁ o₂ middle).map StrideValue.kind) := by
  obtain ⟨_, _, const₁, const₂, kind₂⟩ := settleAll_rest u second o₁ o₂ middle
  obtain ⟨known₁, known₂⟩ := settle_constants u second o₁ o₂
  have kind : (combine u reg count second o₁ middle o₂).kind =
      ((settleAll u second o₁ o₂ middle).result u.operation count (.register u.site reg)).2 := by
    cases middle <;> rfl
  rw [kind, Operands.result_joined, settleAll_joined]
  intro negated
  rw [const₁, const₂, kind₂, known₁, known₂]
  exact (h negated).imp_left (settle_invariant u second o₁ o₂)

theorem combine_access (reg : Register) (count : Nat) : ∃ f : Formula,
    (combine u reg count second o₁ middle o₂).formula.access =
      f.access.merge (operandAccess (settle u second o₁ o₂) middle) ∧
    (f.Guaranteed → (marksOf o₁ o₂ middle).indirect = .guaranteed) := by
  refine ⟨((settleAll u second o₁ o₂ middle).result u.operation count (.register u.site reg)).1,
    by cases middle <;> rfl, fun h => ?_⟩
  obtain ⟨first, second', _⟩ := settleAll_rest u second o₁ o₂ middle
  obtain ⟨access₁, access₂⟩ := settle_access u second o₁ o₂
  have either := Operands.noMore_result (not_guaranteed_ofTerm _ _ _)
    (settleAll u second o₁ o₂ middle) u.operation count h
  rw [first, second', Guaranteed, Guaranteed, access₁, access₂] at either
  apply (marksOf_guaranteed_iff o₁ o₂ middle).mpr
  obtain h | h := either
  · exact ⟨o₁, by simp [allOperands], h⟩
  · exact ⟨o₂, by simp [allOperands], h⟩

variable {u} in
theorem combine_kind (hop : u.operation = .mov ∨ u.operation = .add ∨ u.operation = .sub)
    (reg : Register) (count second : Nat) (o₁ o₂ : StrideValue) :
    (combine u reg count second o₁ none o₂).kind = .partialSum ↔
      o₁.kind = .partialSum ∨ o₂.kind = .partialSum := by
  rw [combine_joined u second o₁ o₂ none reg count, StrideKind.joinAll_eq_partialSum]
  · simp [allOperands, eq_comm]
  · intro negated
    simp [negated] at hop

end Combine

/-- The result of an operation forgets nothing about its operands: neither of which kind they are,
nor that one of them is irregular or goes through a loaded address. Only a `not` of two constants
leaves out of which kind the last one is. -/
theorem combine_forgets_nothing (u : MicroOp) (reg : Register) (count second : Nat) (o₁ o₂ : StrideValue)
    (middle : Option StrideValue) :
    let operands := allOperands o₁ o₂ middle
    let result := combine u reg count second o₁ middle o₂
    ((u.operation = .not → o₂.kind = .invariant ∨ o₁.formula.constantValue? = none ∨
        o₂.formula.constantValue? = none) → result.kind = .joinAll (operands.map StrideValue.kind)) ∧
    (∀ o ∈ operands, o.formula.access.irregular = true → result.formula.access.irregular = true) ∧
    (result.formula.access.indirect = .guaranteed ↔
      ∃ o ∈ operands, o.formula.access.indirect = .guaranteed) ∧
    (result.formula.access.indirect ≠ .guaranteed → ∀ o ∈ operands, ∀ site,
      o.formula.access.indirect.Lists site → result.formula.access.indirect.Lists site) ∧
    (Mixed o₁ o₂ ∨ Mixed o₂ o₁ → result.formula.access.irregular = true) := by
  obtain ⟨f, marks, noMore⟩ := combine_access u second o₁ o₂ middle reg count
  rw [operandAccess_settle] at marks
  dsimp only
  rw [marks]
  refine ⟨combine_joined u second o₁ o₂ middle reg count, fun o ho irregular => ?_, ?_, ?_, ?_⟩
  · have one : (marksOf o₁ o₂ middle).irregular = true :=
      (Access.irregular_foldl_merge _ _).mpr (.inr ⟨_, List.mem_map_of_mem ho, irregular⟩)
    simp [Access.merge, one]
  · -- the formula may have lost marks of its operands, but has none that they do not have
    rw [← marksOf_guaranteed_iff]
    simp only [Access.merge, Indirection.merge_eq_guaranteed]
    exact or_iff_right_of_imp noMore
  · intro open_ o ho site lists
    simp only [Access.merge] at open_ ⊢
    rw [Indirection.lists_merge open_]
    right
    have apart := fun h => open_ (Indirection.merge_eq_guaranteed.mpr (.inr h))
    exact (Access.lists_foldl_merge _ _ apart site).mpr (.inr ⟨_, List.mem_map_of_mem ho, lists⟩)
  · intro mixed
    simp [Access.merge, settle_irregular u second o₁ o₂ mixed]

theorem combine_forgets_nothing_loadedStride :
    let rax : Register := ⟨.listed 0, 0, 63⟩
    let u : MicroOp := { pc := 0x18, kind := .alu, operation := .or }
    let open_ : StrideValue := ⟨.register ⟨0x14, 0⟩ rax, .partialSum, 0⟩
    let loaded : StrideValue := ⟨(Formula.constant 8).markLoad ⟨0x10, 0⟩, .stride, 0⟩
    let result := combine u rax 2 1 open_ none loaded
    result.kind = .partialSum ∧ result.formula.access.irregular = true ∧
      result.formula.access.indirect.Lists ⟨0x10, 0⟩ := by
  intro rax u open_ loaded result
  obtain ⟨kind, _, guaranteed, lists, mixed⟩ := combine_forgets_nothing u rax 2 1 open_ loaded none
  refine ⟨kind nofun, mixed (.inl ⟨rfl, rfl, ?_⟩),
    lists (mt guaranteed.mp (by decide)) loaded (by decide) _ ⟨_, rfl, by decide⟩⟩
  intro c hc
  cases hc
  rfl

/-- Of a `not` of three constants, the last one may change from one iteration to the next, and the
result is invariant nevertheless. -/
theorem combine_forgets_last :
    let rcx : Register := ⟨.listed 8, 0, 63⟩
    let u : MicroOp := { pc := 0x14, kind := .div, operation := .not }
    let first : StrideValue := { formula := .constant 1 }
    let middle : StrideValue := { formula := .constant 2 }
    let last : StrideValue := ⟨.constant 8, .stride, 0⟩
    (combine u rcx 3 2 first (some middle) last).kind = .invariant ∧
      StrideKind.joinAll ((allOperands first last (some middle)).map StrideValue.kind) = .stride := by
  decide

end Stride

end AddressFormulas
