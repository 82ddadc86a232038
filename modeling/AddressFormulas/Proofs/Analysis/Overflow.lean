import AddressFormulas.Proofs.Analysis.Contents
import AddressFormulas.Proofs.Base.Values
import AddressFormulas.Proofs.Routine.Definitions

/-!
Which formulas of a result can be flagged as overflowed. A value that overflows an address is
replaced by the unknown of its register, so that a flag comes only from the terms that are added
without a check: those unknowns and the displacement.
-/

namespace AddressFormulas

namespace Formula

variable {f : Formula} {key k : TermKey} {c d : Coeff} {origin : Option Site}
  {P P' : TermKey → Coeff → Prop}

/-- There is a term with this key, and its coefficient and `c` add up to no word. -/
def Refuses (f : Formula) (key : TermKey) (c : Coeff) : Prop :=
  ∃ t, f.terms.get? key = some t ∧ t.coeff.add? c = none

theorem Refuses.addTerm (h : f.Refuses k d) (hk : k ≠ key) :
    (f.addTerm key c origin).Refuses k d := by
  obtain ⟨t, ht, hd⟩ := h
  exact ⟨t, by rw [get?_addTerm_of_ne hk, ht], hd⟩

theorem refuses_of_overflow (hf : f.overflow = false)
    (h : (f.addTerm key c origin).overflow = true) : (f.addTerm key c origin).Refuses key c := by
  unfold addTerm at h ⊢
  split at h
  · simp [hf] at h
  · split at h
    · simp [hf] at h
    · next t ht =>
      split at h
      · next hadd => exact ⟨t, by simp [*], hadd⟩
      · split at h
        · simp [hf] at h
        · simp [hf] at h

/-- The formula is flagged only if it refuses a term of which `P` holds. -/
def FlaggedBy (f : Formula) (P : TermKey → Coeff → Prop) : Prop :=
  f.overflow = true → ∃ key c, P key c ∧ f.Refuses key c

theorem flaggedBy_of_overflow (h : f.overflow = false) (P : TermKey → Coeff → Prop) :
    f.FlaggedBy P := by
  intro ho
  rw [h] at ho
  cases ho

theorem FlaggedBy.mono (h : f.FlaggedBy P) (hp : ∀ k d, P k d → P' k d) : f.FlaggedBy P' := by
  intro ho
  obtain ⟨k, d, hk, hr⟩ := h ho
  exact ⟨k, d, hp k d hk, hr⟩

theorem FlaggedBy.addTerm (h : f.FlaggedBy P) (hk : ∀ k d, P k d → k ≠ key ∧ P' k d)
    (hz : f = .zero ∨ P' key c) : (f.addTerm key c origin).FlaggedBy P' := by
  intro ho
  cases hf : f.overflow with
  | true =>
    obtain ⟨k, d, hp, hr⟩ := h hf
    exact ⟨k, d, (hk k d hp).2, hr.addTerm (hk k d hp).1⟩
  | false =>
    obtain rfl | hp := hz
    · exact absurd ho (by rw [← ofTerm, overflow_ofTerm]; simp)
    · exact ⟨key, c, hp, refuses_of_overflow hf ho⟩

theorem add_irregular (f : Formula) (site : Site) (reg : Register) :
    let sum := f + (register site reg).markIrregular
    let added := f.addTerm (.register site reg) .one (some site)
    sum.terms = added.terms ∧ sum.overflow = added.overflow ∧ sum.access.irregular = true :=
  ⟨rfl, Bool.or_false _, Bool.or_true _⟩

theorem FlaggedBy.addIrregular {site : Site} {reg : Register}
    (h : (f.addTerm (.register site reg) .one (some site)).FlaggedBy P) :
    (f + (register site reg).markIrregular).FlaggedBy P := by
  obtain ⟨ht, ho, -⟩ := add_irregular f site reg
  unfold FlaggedBy Refuses
  rw [ht, ho]
  exact h

theorem nodup_of_plain (h : f.Plain) : (f.terms.entries.map Prod.fst).Nodup := by
  refine List.pairwise_map.mpr (h.ascending.imp fun {e e'} hlt heq => ?_)
  rw [heq, Std.compare_self] at hlt
  cases hlt

end Formula

section Terms

variable {done rest : List (TermKey × Term)} {e x : TermKey × Term}

theorem mem_tail_concat (h : ((done ++ e :: rest).map Prod.fst).Nodup) (hx : x ∈ done.tail) :
    x.1 ≠ e.1 ∧ x ∈ (done ++ [e]).tail := by
  cases done with
  | nil => cases hx
  | cons e₀ es =>
    refine ⟨fun he => ?_, by simpa using .inl hx⟩
    rw [List.map_append, List.nodup_append] at h
    exact h.2.2 x.1 (List.mem_map.mpr ⟨x, List.mem_cons_of_mem _ hx, rfl⟩) e.1 (by simp) he

theorem last_mem_tail (hd : done ≠ []) : e ∈ (done ++ [e]).tail := by
  cases done with
  | nil => exact absurd rfl hd
  | cons e₀ es => simp

end Terms

theorem wp_op {σ α : Type} {g : Graph} {b index : Nat} {k : MicroOp → WalkM σ α}
    {Q : α → Walk σ → Prop} {w : Walk σ}
    (h : ∀ u, g.op? b index = some u → wp (k u) Q (fun _ _ => True) w) :
    wp (do
      let block ← WalkM.require (g.block? b)
      let u ← WalkM.require block.ops[index]?
      k u) Q (fun _ _ => True) w := by
  cases hb : g.block? b with
  | none => trivial
  | some block =>
    simp only [wp_bind, WalkM.wp_require_some]
    cases ho : block.ops[index]? with
    | none => trivial
    | some u => exact h u (Graph.op?_eq_some.mpr ⟨block, hb, ho⟩)

namespace Base

variable {settings : Settings} {g : Graph}

/-- The terms of an address after the first one, as they are. -/
def Follows (es : List (TermKey × Term)) (key : TermKey) (c : Coeff) : Prop :=
  ∃ t, (key, t) ∈ es.tail ∧ t.coeff = c

theorem addressTerms_flagged (u : Placed) (done : List (TermKey × Term)) (sum : Formula)
    {rest : List (TermKey × Term)} (hd : ((done ++ rest).map Prod.fst).Nodup)
    (h0 : done = [] → sum = .zero) (h : sum.FlaggedBy (Follows done)) (w : Walk BaseState) :
    wp (addressTerms settings g u rest sum) (fun f _ => f.FlaggedBy (Follows (done ++ rest)))
      (fun _ _ => True) w := by
  -- `done` grows at its end: the first term meets a sum of zero and cannot overflow it
  induction rest generalizing done sum w with
  | nil =>
    rw [List.append_nil]
    exact h
  | cons e rest ih =>
    have unknown : (sum.addTerm e.1 e.2.coeff e.2.origin).FlaggedBy (Follows (done ++ [e])) := by
      refine h.addTerm ?_ ?_
      · rintro k _ ⟨t, ht, rfl⟩
        obtain ⟨hne, hmem⟩ := mem_tail_concat hd ht
        exact ⟨hne, t, hmem, rfl⟩
      · by_cases hn : done = []
        · exact .inl (h0 hn)
        · exact .inr ⟨e.2, last_mem_tail hn, rfl⟩
    rw [List.append_cons] at hd ⊢
    have go := fun sum' w' h' => ih (done ++ [e]) sum' hd (by simp) h' w'
    unfold addressTerms
    dsimp only
    split
    · refine wp_bind_any fun f? w' _ => ?_
      split
      · exact go _ w' unknown
      · split
        · exact wp_bind.mpr (go _ _ unknown)
        · next ho => exact go _ w' (Formula.flaggedBy_of_overflow (by simpa using ho) _)
    · exact go _ w unknown

theorem address_flagged (b index : Nat) (opidx : Int) (w : Walk BaseState) :
    wp (address settings g b index opidx)
      (fun f _ => ∃ u m, g.op? b index = some u ∧ m ∈ u.memoryOperands ∧ m.opidx = opidx ∧
        f.FlaggedBy (Follows (u.addressFormula m).terms.entries))
      (fun _ _ => True) w := by
  refine wp_op fun u hu => ?_
  split
  · trivial
  · next m hm =>
    have distinct := Formula.nodup_of_plain (plain_addressFormula u m)
    refine wp_bind.mpr (wp_imp (addressTerms_flagged _ [] .zero distinct (fun _ => rfl)
      (Formula.flaggedBy_of_overflow rfl _) w) fun f w' hf => ?_)
    exact ⟨u, m, hu, List.mem_of_find?_eq_some hm, by simpa using List.find?_some hm, hf⟩

end Base

namespace Stride

variable {task : Task}

/-- The unknowns of the registers of an address after the first term. -/
def Unknown (es : List (TermKey × Term)) (key : TermKey) (c : Coeff) : Prop :=
  c = .one ∧ ∃ site reg t, key = .register site reg ∧ (key, t) ∈ es.tail

theorem strideTerms_flagged (u : Placed) (done : List (TermKey × Term)) (sum : Formula)
    {rest : List (TermKey × Term)}
    (hu : ∀ e ∈ rest, ∀ site reg, e.1 = .register site reg → site = u.op.site)
    (hd : ((done ++ rest).map Prod.fst).Nodup) (h0 : done = [] → sum = .zero)
    (h : sum.FlaggedBy (Unknown done))
    (hirr : sum.overflow = true → sum.access.irregular = true) (w : Walk StrideState) :
    wp (strideTerms task u rest sum)
      (fun f _ => f.FlaggedBy (Unknown (done ++ rest)) ∧
        (f.overflow = true → f.access.irregular = true))
      (fun _ _ => True) w := by
  -- `done` grows at its end; a term whose stride does not fit becomes an unknown
  induction rest generalizing done sum w with
  | nil =>
    rw [List.append_nil]
    exact ⟨h, hirr⟩
  | cons e rest ih =>
    have kept : ∀ k d, Unknown done k d → k ≠ e.1 ∧ Unknown (done ++ [e]) k d := by
      rintro _ _ ⟨rfl, site, reg, t, rfl, ht⟩
      obtain ⟨hne, hmem⟩ := mem_tail_concat hd ht
      exact ⟨hne, rfl, site, reg, t, rfl, hmem⟩
    have skip : sum.FlaggedBy (Unknown (done ++ [e])) := h.mono fun k d hk => (kept k d hk).2
    rw [List.append_cons] at hd ⊢
    have go := fun sum' w' h' hirr' => ih (done ++ [e]) sum'
      (fun e' he' => hu e' (List.mem_cons_of_mem e he')) hd (by simp) h' hirr' w'
    obtain ⟨key, t⟩ := e
    cases key with
    | register site reg =>
      unfold strideTerms
      split
      · exact go sum w skip hirr
      · refine wp_bind_any fun _ w₁ _ => wp_bind_any fun _ w₂ _ => wp_bind_any fun stride w₃ _ => ?_
        dsimp only
        split
        · obtain rfl := hu _ List.mem_cons_self site reg rfl
          have unknown : (sum.addTerm (.register u.op.site reg) .one (some u.op.site)).FlaggedBy
              (Unknown (done ++ [(.register u.op.site reg, t)])) := by
            refine h.addTerm kept ?_
            by_cases hn : done = []
            · exact .inl (h0 hn)
            · exact .inr ⟨rfl, u.op.site, reg, t, rfl, last_mem_tail hn⟩
          exact wp_bind.mpr (go _ _ unknown.addIrregular fun _ => (Formula.add_irregular _ _ _).2.2)
        · next ho =>
          have plain : (sum + stride.scale t.coeff).overflow = false := by simpa using ho
          refine go _ w₃ (Formula.flaggedBy_of_overflow plain _) fun ho' => ?_
          rw [plain] at ho'
          cases ho'
    | _ => exact go sum w skip hirr

theorem operandStride_flagged (b index : Nat) (opidx : Int) (w : Walk StrideState) :
    wp (operandStride task b index opidx)
      (fun f _ => (∃ u m, task.graph.op? b index = some u ∧ m ∈ u.memoryOperands ∧
        m.opidx = opidx ∧ f.FlaggedBy (Unknown (u.addressFormula m).terms.entries)) ∧
        (f.overflow = true → f.access.irregular = true))
      (fun _ _ => True) w := by
  refine wp_op fun u hu => ?_
  split
  · trivial
  · next m hm =>
    have distinct := Formula.nodup_of_plain (Base.plain_addressFormula u m)
    have here : ∀ e ∈ (u.addressFormula m).terms.entries, ∀ site reg,
        e.1 = .register site reg → site = u.site := fun e he site reg hkey =>
      (Base.key_of_mem_addressFormula he hkey).1
    refine wp_bind.mpr (wp_imp (strideTerms_flagged _ [] .zero here distinct (fun _ => rfl)
      (Formula.flaggedBy_of_overflow rfl _) (fun h => by cases h) w) fun f w' hf => ?_)
    exact ⟨⟨u, m, hu, List.mem_of_find?_eq_some hm, by simpa using List.find?_some hm, hf.1⟩, hf.2⟩

end Stride

namespace Graph

def HasOperand (g : Graph) (s : OperandSite) (u : MicroOp) (m : MemoryOperand) : Prop :=
  g.op? s.block s.index = some u ∧ m ∈ u.memoryOperands ∧ m.opidx = s.opidx

/-- No formula of a result is flagged as overflowed, unless a term of the address that is added
without a check finds its own key taken: for a base address, any term after the first; for a stride,
the unknown of a register after the first term. Such a stride is marked irregular. -/
theorem analyze_overflow {settings : Settings} {g : Graph} {r : RoutineFormulas}
    (h : g.analyze settings = .ok r) (o : OperandId) :
    (∀ f, r.base? o = some f → f.overflow = false ∨
      ∃ s ∈ r.sites, s.id = o ∧ ∃ u m, g.HasOperand s u m ∧
        ∃ e ∈ (u.addressFormula m).terms.entries.tail, f.Refuses e.1 e.2.coeff) ∧
    ∀ f ∈ r.strides o, f.overflow = false ∨ f.access.irregular = true ∧
      ∃ s ∈ r.sites, s.id = o ∧ ∃ u m, g.HasOperand s u m ∧
        ∃ site reg t, (.register site reg, t) ∈ (u.addressFormula m).terms.entries.tail ∧
          f.Refuses (.register site reg) .one := by
  obtain ⟨bases, strides⟩ := analyze_contents h
  constructor
  · intro f hf
    obtain ⟨s, hs, hid, w, w', run⟩ := bases o f hf
    obtain ⟨u, m, hu, hm, hi, flagged⟩ := wp_ok (Base.address_flagged _ _ _ w) run
    refine Bool.eq_false_or_eq_true f.overflow |>.symm.imp id fun ho => ?_
    obtain ⟨key, _, ⟨t, ht, rfl⟩, hr⟩ := flagged ho
    exact ⟨s, hs, hid, u, m, ⟨hu, hm, hi⟩, (key, t), ht, hr⟩
  · intro f hf
    obtain ⟨s, hs, hid, table, marker, w, w', run⟩ := strides o f hf
    obtain ⟨⟨u, m, hu, hm, hi, flagged⟩, irregular⟩ :=
      wp_ok (Stride.operandStride_flagged _ _ _ w) run
    refine Bool.eq_false_or_eq_true f.overflow |>.symm.imp id fun ho => ⟨irregular ho, ?_⟩
    obtain ⟨key, _, ⟨rfl, site, reg, t, rfl, ht⟩, hr⟩ := flagged ho
    exact ⟨s, hs, hid, u, m, ⟨hu, hm, hi⟩, site, reg, t, ht, hr⟩

def beyondTop : Graph :=
  let rax : Register := ⟨.listed 0, 0, 63⟩
  let top : MicroOp :=
    { pc := 0x10, kind := .move, operation := .mov, sources := [.immediate 0x7fffffffffffffff],
      destinations := [.register rax] }
  let load : MicroOp :=
    { pc := 0x14, kind := .load, operation := .mov,
      sources := [.memory { base := some rax, disp := 1 }], destinations := [.register rax] }
  (({} : Graph).addBlock 0 0 [top, load]).setEntry 0

def multipleLoop : Graph :=
  let rax : Register := ⟨.listed 0, 0, 63⟩
  let rbx : Register := ⟨.listed 4, 0, 63⟩
  let multiple : MicroOp :=
    { pc := 0x10, kind := .alu, operation := .mul,
      sources := [.register rbx, .immediate 0x7fffffffffffffff], destinations := [.register rax] }
  let mixed : MicroOp :=
    { pc := 0x14, kind := .alu, operation := .xnor, sources := [.register rbx, .immediate 3],
      destinations := [.register rbx, .memory { base := some rax, index := some rbx }] }
  (({ loopTree := [0, 0] } : Graph).addBlock 0 1 [multiple, mixed]).addEdge 0 0 true

theorem ok_of_mem_toOption {ε α : Type} {e : Except ε α} {a : α} (h : a ∈ e.toOption) :
    e = .ok a := by
  cases e with
  | error _ => cases h
  | ok _ =>
    cases h
    rfl

theorem analyze_overflow_multipleLoop :
    ∃ r, multipleLoop.analyze {} = .ok r ∧
      (∀ f, r.base? ⟨0x14, 0⟩ = some f → f.overflow = false ∨
        ∃ s ∈ r.sites, s.id = ⟨0x14, 0⟩ ∧ ∃ u m, multipleLoop.HasOperand s u m ∧
          ∃ e ∈ (u.addressFormula m).terms.entries.tail, f.Refuses e.1 e.2.coeff) ∧
      ∃ f ∈ r.strides ⟨0x14, 0⟩, f.access.irregular = true ∧
        ∃ s ∈ r.sites, s.id = ⟨0x14, 0⟩ ∧ ∃ u m, multipleLoop.HasOperand s u m ∧
          ∃ site reg t, (.register site reg, t) ∈ (u.addressFormula m).terms.entries.tail ∧
            f.Refuses (.register site reg) .one := by
  obtain ⟨r, hr, f, hf, ho⟩ : ∃ r ∈ (multipleLoop.analyze {}).toOption,
      ∃ f ∈ r.strides ⟨0x14, 0⟩, f.overflow = true := by decide +kernel
  obtain ⟨bases, strides⟩ := analyze_overflow (ok_of_mem_toOption hr) ⟨0x14, 0⟩
  exact ⟨r, ok_of_mem_toOption hr, bases, f, hf, (strides f hf).resolve_left (by simp [ho])⟩

/-- Formulas that are flagged as overflowed get into results: a base address by its displacement, a
stride by the unknown of a register. -/
theorem analyze_overflows :
    (∃ r f, beyondTop.analyze {} = .ok r ∧ r.base? ⟨0x14, 0⟩ = some f ∧ f.overflow = true) ∧
    ∃ r f, multipleLoop.analyze {} = .ok r ∧ f ∈ r.strides ⟨0x14, 0⟩ ∧ f.overflow = true := by
  constructor
  · obtain ⟨r, hr, f, hf, ho⟩ : ∃ r ∈ (beyondTop.analyze {}).toOption,
        ∃ f ∈ r.base? ⟨0x14, 0⟩, f.overflow = true := by decide +kernel
    exact ⟨r, f, ok_of_mem_toOption hr, hf, ho⟩
  · obtain ⟨r, hr, f, hf, ho⟩ : ∃ r ∈ (multipleLoop.analyze {}).toOption,
        ∃ f ∈ r.strides ⟨0x14, 0⟩, f.overflow = true := by decide +kernel
    exact ⟨r, f, ok_of_mem_toOption hr, hf, ho⟩

end Graph

end AddressFormulas
