import AddressFormulas.Base.Slicer
import AddressFormulas.Proofs.Base.Fold
import AddressFormulas.Proofs.Walk.Rules

namespace AddressFormulas

namespace Operation

def arity? : Operation → Option Nat
  | .mov | .not => some 1
  | .add | .sub | .and | .or | .xor | .andn | .orn | .xnor | .mul | .sll => some 2
  | .div | .srl | .sra | .invalid => none

end Operation

namespace MicroOp

/-- Moves and arithmetic on whole general registers and immediates. -/
structure IsArithmetic (u : MicroOp) (d : Register) : Prop where
  unconditional : u.conditional = false
  kind : u.kind = .move ∨ u.kind = .copy ∨ u.kind = .alu
  operands : u.operation.arity? = some u.sources.length
  sources : ∀ o ∈ u.sources, (∃ v, o = .immediate v) ∨ ∃ r : Register, o = .register r ∧ r.isWhole = true
  writes : u.WritesOnly d

/-- Addresses are made of different whole registers, with one of the usual scales. -/
structure IsLea (u : MicroOp) (d : Register) (m : MemoryOperand) : Prop where
  unconditional : u.conditional = false
  kind : u.kind = .lea
  operation : u.operation ≠ .invalid
  sources : u.sources = [.memory m]
  base : ∀ r ∈ m.base, r.isWhole = true
  index : ∀ r ∈ m.index, r.isWhole = true
  different : ∀ r ∈ m.base, ∀ s ∈ m.index, r.canonical ≠ s.canonical
  scale : m.scale ∈ [1, 2, 4, 8]
  writes : u.WritesOnly d

end MicroOp

namespace Base

open Formula

def combined (u : MicroOp) (unknown f₁ f₂ : Formula) : Formula :=
  match u.operation with
  | .add => f₁ + f₂
  | .sub => f₁ - f₂
  | .mov => f₁
  | .not =>
    match f₁.constantValue? with
    | some c => .constant (Word.complement c.value)
    | none => unknown
  | .xor => if f₁.sameTerms f₂ then .zero else (Operation.xor.onFormulas? f₁ f₂).getD unknown
  | op => (op.onFormulas? f₁ f₂).getD unknown

def operandFormulas : List Operand → List Formula → List Formula
  | .immediate v :: os, fs => .constant v :: operandFormulas os fs
  | _ :: os, f :: fs => f :: operandFormulas os fs
  | _, _ => []

def leaSum : List (TermKey × Term) → List Formula → Formula → Formula
  | (.register _ _, t) :: rest, f :: fs, sum => leaSum rest fs (sum + f.scale t.coeff)
  | (key, t) :: rest, fs, sum => leaSum rest fs (sum.addTerm key t.coeff t.origin)
  | [], _, sum => sum

def termRegister? : TermKey × Term → Option Register
  | (.register _ reg, _) => some reg
  | _ => none

def claimed (u : MicroOp) : List Register :=
  match u.sources with
  | [.memory m] => (u.addressFormula m).terms.entries.filterMap termRegister?
  | _ => u.sourceRegisters.map Register.canonical

def folded (u : MicroOp) (reg : Register) (fs : List Formula) : Formula :=
  let unknown := Formula.register u.site reg
  if u.effect = .easy then
    match u.kind, u.immediates with
    | .move, [v] | .copy, [v] => .constant v
    | _, _ => unknown
  else
    match u.sources with
    | [.memory m] => leaSum (u.addressFormula m).terms.entries fs .zero
    | os =>
      match operandFormulas os fs with
      | [f₁] => combined u unknown f₁ .zero
      | [f₁, f₂] => combined u unknown f₁ f₂
      | _ => unknown

def settled (u : MicroOp) (reg : Register) (fs : List Formula) : Formula :=
  if (folded u reg fs).overflow then .register u.site reg else folded u reg fs

section Combined

variable {ρ : TermKey → BitVec 64} {u : MicroOp} {unknown f₁ f₂ : Formula} {a b v : BitVec 64}

theorem getD_onFormulas?_sound {op : Operation} (hρ : ρ .constant = 1) (h₁ : f₁.Means ρ a)
    (h₂ : f₂.Means ρ b) (hv : op.onBits? [a, b] = some v) :
    (op.onFormulas? f₁ f₂).getD unknown = unknown ∨
      ((op.onFormulas? f₁ f₂).getD unknown).Means ρ v := by
  cases h : op.onFormulas? f₁ f₂ with
  | none => exact .inl rfl
  | some f => exact .inr (Operation.onFormulas?_sound hρ h₁ h₂ hv h)

theorem combined_two_sound (hρ : ρ .constant = 1) (h₁ : f₁.Means ρ a) (h₂ : f₂.Means ρ b)
    (ho₁ : f₁.overflow = false) (ho₂ : f₂.overflow = false)
    (hv : u.operation.onBits? [a, b] = some v) :
    combined u unknown f₁ f₂ = unknown ∨ (combined u unknown f₁ f₂).Means ρ v := by
  unfold combined
  cases hop : u.operation <;> rw [hop] at hv <;>
    first
    | exact getD_onFormulas?_sound hρ h₁ h₂ hv
    | simp only [Operation.onBits?, reduceCtorEq] at hv
  case add =>
    obtain rfl := Option.some.inj hv
    exact .inr (h₁.add h₂)
  case sub =>
    obtain rfl := Option.some.inj hv
    exact .inr (h₁.sub h₂)
  case xor =>
    dsimp only
    split
    · next hsame =>
      obtain rfl := Option.some.inj hv
      have equal : a = b := by
        rw [← h₁.word ho₁, ← h₂.word ho₂]
        exact word_of_sameTerms ρ hsame
      rw [equal, BitVec.xor_self]
      exact .inr (means_zero ρ)
    · exact getD_onFormulas?_sound hρ h₁ h₂ hv

theorem combined_one_sound (hρ : ρ .constant = 1) (h₁ : f₁.Means ρ a)
    (hv : u.operation.onBits? [a] = some v) :
    combined u unknown f₁ f₂ = unknown ∨ (combined u unknown f₁ f₂).Means ρ v := by
  unfold combined
  cases hop : u.operation <;> rw [hop] at hv <;>
    simp only [Operation.onBits?, reduceCtorEq, Option.some.injEq] at hv
  case mov =>
    subst hv
    exact .inr h₁
  case not =>
    subst hv
    dsimp only
    split
    · next c hc =>
      obtain rfl := h₁.of_constantValue? hρ hc
      have word : BitVec.ofInt 64 (Word.complement c.value) = ~~~BitVec.ofInt 64 c.value :=
        BitVec.ofInt_toInt
      rw [← word]
      exact .inr (means_constant hρ _)
    · exact .inl rfl

end Combined

section Address

variable {u : MicroOp} {m : MemoryOperand} {val : TermKey → BitVec 64}

def addRegister (u : MicroOp) (f : Formula) (reg : Option Register) (scale : Int) : Formula :=
  match reg with
  | some r => f.addTerm (.register u.site r.canonical) (.ofInt scale) (some u.site)
  | none => f

theorem addressFormula_eq (u : MicroOp) (m : MemoryOperand) : u.addressFormula m =
    addRegister u (addRegister u (.constant m.disp) m.base 1) m.index m.scale := rfl

theorem key_of_mem_addressFormula {e : TermKey × Term}
    (h : e ∈ (u.addressFormula m).terms.entries) {site : Site} {r : Register}
    (hkey : e.1 = .register site r) :
    site = u.site ∧ ∃ s, (s ∈ m.base ∨ s ∈ m.index) ∧ r = s.canonical := by
  have added : ∀ {f : Formula} {reg : Option Register} {scale : Int},
      e ∈ (addRegister u f reg scale).terms.entries →
      (site = u.site ∧ ∃ s ∈ reg, r = s.canonical) ∨ e ∈ f.terms.entries := by
    intro f reg scale he
    cases reg with
    | none => exact .inr he
    | some s =>
      obtain hs | he := Formula.key_of_mem_addTerm he
      · cases hkey.symm.trans hs
        exact .inl ⟨rfl, s, rfl, rfl⟩
      · exact .inr he
  rw [addressFormula_eq] at h
  obtain ⟨hsite, s, hs, hr⟩ | h := added h
  · exact ⟨hsite, s, .inr hs, hr⟩
  · obtain ⟨hsite, s, hs, hr⟩ | h := added h
    · exact ⟨hsite, s, .inl hs, hr⟩
    · obtain hc | hc := Formula.key_of_mem_addTerm h
      · cases hkey.symm.trans hc
      · cases hc

theorem means_addRegister {f : Formula} {a : BitVec 64} (hf : f.Means val a)
    (reg : Option Register) (scale : Int) : (addRegister u f reg scale).Means val
      (a + BitVec.ofInt 64 scale *
        (reg.map fun r => val (.register u.site r.canonical)).getD 0) := by
  cases reg with
  | none => simpa [addRegister] using hf
  | some r => exact hf.addTerm _ rfl _

theorem get?_constant (v : Int) (site : Site) (reg : Register) :
    (constant v).terms.get? (.register site reg) = none := by
  unfold constant ofTerm addTerm
  split
  · rfl
  · exact Table.get?_insert_of_ne (by simp) _ _

theorem overflow_addressFormula (u : MicroOp) (hs : m.scale ∈ [1, 2, 4, 8]) :
    (u.addressFormula m).overflow = false := by
  rw [addressFormula_eq]
  -- after the base each register has coefficient one, and one more scale still fits
  have base : (addRegister u (.constant m.disp) m.base 1).overflow = false ∧
      ∀ site reg t, (addRegister u (.constant m.disp) m.base 1).terms.get? (.register site reg) =
        some t → t.coeff = .one := by
    cases m.base with
    | none =>
      refine ⟨overflow_ofTerm _ _ _, fun site reg t ht => ?_⟩
      rw [addRegister, get?_constant] at ht
      cases ht
    | some r =>
      let key := TermKey.register u.site r.canonical
      have inserted : addRegister u (.constant m.disp) (some r) 1 = { constant m.disp with
          terms := (constant m.disp).terms.insert key ⟨.one, some u.site⟩ } :=
        addTerm_of_none rfl (get?_constant _ _ _)
      refine ⟨?_, fun site reg t ht => ?_⟩
      · rw [inserted]
        exact overflow_ofTerm _ _ _
      · rw [inserted, Table.get?_insert] at ht
        split at ht
        · cases ht
          rfl
        · rw [get?_constant] at ht
          cases ht
  generalize addRegister u (.constant m.disp) m.base 1 = f at base
  cases m.index with
  | none => exact base.1
  | some r =>
    unfold addRegister addTerm
    dsimp only
    split
    · exact base.1
    · split
      · exact base.1
      · next t ht =>
        rw [base.2 _ _ t ht]
        have fits : ∃ c, Coeff.one.add? (.ofInt m.scale) = some c := by
          simp only [List.mem_cons, List.not_mem_nil, or_false] at hs
          obtain h | h | h | h := hs <;> rw [h] <;> exact ⟨_, rfl⟩
        obtain ⟨c, hc⟩ := fits
        rw [hc]
        dsimp only
        split
        · exact base.1
        · exact base.1

theorem plain_addressFormula (u : MicroOp) (m : MemoryOperand) : (u.addressFormula m).Plain := by
  have means := means_addRegister (u := u)
    (means_addRegister (u := u) (means_constant (ρ := fun _ => 1) rfl m.disp) m.base 1) m.index m.scale
  exact means.plain

theorem word_addressFormula (hval : val .constant = 1) (hs : m.scale ∈ [1, 2, 4, 8]) :
    (u.addressFormula m).word val = BitVec.ofInt 64 m.disp +
      (m.base.map fun r => val (.register u.site r.canonical)).getD 0 +
      BitVec.ofInt 64 m.scale * (m.index.map fun r => val (.register u.site r.canonical)).getD 0 := by
  have means := means_addRegister (u := u)
    (means_addRegister (u := u) (means_constant hval m.disp) m.base 1) m.index m.scale
  rw [← addressFormula_eq] at means
  have one : BitVec.ofInt 64 1 = 1 := rfl
  rw [means.word (overflow_addressFormula u hs), one, one_mul]

end Address

def Stands (ρ : TermKey → BitVec 64) (st : Registers) (r : Register) (f : Formula) : Prop :=
  f.overflow = false ∧ f.Means ρ (st.read r)

section Folded

variable {ρ : TermKey → BitVec 64} {st : Registers} {u : MicroOp} {d : Register}
  {fs : List Formula} {v : BitVec 64}

theorem operandFormulas_sound (hρ : ρ .constant = 1) {os : List Operand}
    (ho : ∀ o ∈ os, (∃ v, o = .immediate v) ∨ ∃ r : Register, o = .register r ∧ r.isWhole = true)
    (hfs : List.Forall₂ (Stands ρ st)
      ((os.flatMap fun o => (u.operandRegister? o).toList).map Register.canonical) fs) :
    ∃ bits, os.mapM (MicroOp.operandBits? st) = some bits ∧
      List.Forall₂ (fun f a => f.overflow = false ∧ f.Means ρ a) (operandFormulas os fs) bits := by
  induction os generalizing fs with
  | nil => exact ⟨[], rfl, by simp [operandFormulas]⟩
  | cons o os ih =>
    have rest : ∀ o ∈ os, _ := fun o' h => ho o' (List.mem_cons_of_mem o h)
    obtain ⟨v, rfl⟩ | ⟨r, rfl, hr⟩ := ho o List.mem_cons_self
    · obtain ⟨bits, hbits, hall⟩ := ih rest hfs
      refine ⟨BitVec.ofInt 64 v :: bits, by simp [MicroOp.operandBits?, hbits], ?_⟩
      exact .cons ⟨overflow_ofTerm _ _ _, means_constant hρ v⟩ hall
    · cases hfs with
      | cons hf hfs =>
        obtain ⟨bits, hbits, hall⟩ := ih rest hfs
        refine ⟨st.read r :: bits, by simp [MicroOp.operandBits?, hr, hbits], .cons ?_ hall⟩
        rwa [Stands, Registers.read_canonical] at hf

theorem sourceRegisters_eq (hu : u.IsArithmetic d) :
    u.sourceRegisters = u.sources.flatMap fun o => (u.operandRegister? o).toList := by
  refine List.flatMap_congr fun o ho => ?_
  obtain ⟨v, rfl⟩ | ⟨r, rfl, _⟩ := hu.sources o ho
  · rfl
  · rfl

theorem claimed_arithmetic (hu : u.IsArithmetic d) :
    claimed u = u.sourceRegisters.map Register.canonical := by
  unfold claimed
  split
  · next m hm =>
    obtain ⟨v, h⟩ | ⟨r, h, _⟩ := hu.sources (.memory m) (by simp [hm])
    · cases h
    · cases h
  · rfl

theorem mem_sourceRegisters (hu : u.IsArithmetic d) {r : Register} :
    r ∈ u.sourceRegisters ↔ .register r ∈ u.sources := by
  rw [sourceRegisters_eq hu, List.mem_flatMap]
  constructor
  · rintro ⟨o, ho, hr⟩
    obtain ⟨v, rfl⟩ | ⟨s, rfl, _⟩ := hu.sources o ho
    · simp [MicroOp.operandRegister?] at hr
    · simp only [MicroOp.operandRegister?, Option.toList_some, List.mem_singleton] at hr
      exact hr ▸ ho
  · exact fun h => ⟨_, h, by simp [MicroOp.operandRegister?]⟩

theorem whole_of_mem_sourceRegisters (hu : u.IsArithmetic d) {r : Register}
    (hr : r ∈ u.sourceRegisters) : r.isWhole = true := by
  obtain ⟨v, h⟩ | ⟨s, h, hs⟩ := hu.sources _ ((mem_sourceRegisters hu).mp hr)
  · cases h
  · cases h
    exact hs

theorem sources_arithmetic (hu : u.IsArithmetic d) :
    (∃ o, u.sources = [o] ∧ (u.operation = .mov ∨ u.operation = .not)) ∨
      ∃ o₁ o₂, u.sources = [o₁, o₂] := by
  have count := hu.operands
  cases hop : u.operation <;> rw [hop] at count <;>
    simp only [Operation.arity?, reduceCtorEq, Option.some.injEq] at count
  case mov =>
    obtain ⟨o, ho⟩ := List.length_eq_one_iff.mp count.symm
    exact .inl ⟨o, ho, .inl rfl⟩
  case not =>
    obtain ⟨o, ho⟩ := List.length_eq_one_iff.mp count.symm
    exact .inl ⟨o, ho, .inr rfl⟩
  all_goals exact .inr (List.length_eq_two.mp count.symm)

theorem counts_of_whole {r : Register} (hr : r.isWhole = true) :
    (!(r.isAbsent || r.isPseudo || r.isFlagOrStatus)) = true := by
  obtain ⟨hc, _⟩ := Register.isWhole_iff.mp hr
  simp [Register.isAbsent, Register.isPseudo, Register.isFlagOrStatus, hc]

theorem effect_eq (hb : u.isBranch = false) (hl : u.isLoad = false)
    (hw : ∀ r ∈ u.sourceRegisters, r.isWhole = true) :
    u.effect = if u.sourceRegisters = [] then .easy else .normal := by
  have values : u.valueRegisters = u.sourceRegisters.map Register.canonical := by
    refine List.filter_eq_self.mpr fun r hr => ?_
    obtain ⟨s, hs, rfl⟩ := List.mem_map.mp hr
    exact counts_of_whole (Register.isWhole_canonical (hw s hs))
  simp [MicroOp.effect, hb, hl, values]

theorem effect_arithmetic (hu : u.IsArithmetic d) :
    u.effect = if u.sourceRegisters = [] then .easy else .normal := by
  refine effect_eq ?_ ?_ fun r hr => whole_of_mem_sourceRegisters hu hr
  · obtain h | h | h := hu.kind <;> simp [MicroOp.isBranch, h]
  · obtain h | h | h := hu.kind <;> simp [MicroOp.isLoad, h]

theorem eq_map_immediates {os : List Operand} (h : ∀ o ∈ os, ∃ v, o = .immediate v) :
    os = (os.filterMap Operand.immediate?).map Operand.immediate := by
  induction os with
  | nil => rfl
  | cons o os ih =>
    obtain ⟨v, rfl⟩ := h o List.mem_cons_self
    exact congrArg (Operand.immediate v :: ·) (ih fun o ho => h o (List.mem_cons_of_mem _ ho))

theorem folded_arithmetic_sound (hρ : ρ .constant = 1) (hu : u.IsArithmetic d)
    (hnot : ∀ w, u.kind ≠ .alu → u.operation = .not → u.sources ≠ [.immediate w])
    (hfs : List.Forall₂ (Stands ρ st) (claimed u) fs) (hv : u.result? st = some v)
    (reg : Register) :
    folded u reg fs = .register u.site reg ∨ (folded u reg fs).Means ρ v := by
  rw [claimed_arithmetic hu, sourceRegisters_eq hu] at hfs
  obtain ⟨bits, hbits, hall⟩ := operandFormulas_sound hρ hu.sources hfs
  have result : u.operation.onBits? bits = some v := by
    unfold MicroOp.result? at hv
    rw [hu.unconditional] at hv
    obtain h | h | h := hu.kind <;> simpa [h, hbits] using hv
  unfold folded
  dsimp only
  split
  · next heasy =>
    rw [effect_arithmetic hu] at heasy
    -- easy micro-ops read no register, so all that a move can have is an immediate
    have none : u.sourceRegisters = [] := by
      by_contra hne
      rw [if_neg hne] at heasy
      cases heasy
    have moved : ∀ w, u.kind ≠ .alu → u.immediates = [w] → Means ρ (.constant w) v := by
      intro w hkind himm
      have sources : u.sources = [.immediate w] := by
        rw [eq_map_immediates fun o ho => (hu.sources o ho).resolve_right ?_]
        · exact congrArg (List.map Operand.immediate) himm
        · rintro ⟨r, rfl, _⟩
          simpa [none] using (mem_sourceRegisters hu).mpr ho
      rw [sources] at hbits
      obtain rfl : [BitVec.ofInt 64 w] = bits := Option.some.inj hbits
      cases hop : u.operation <;> rw [hop] at result <;>
        simp only [Operation.onBits?, reduceCtorEq, Option.some.injEq] at result
      case mov =>
        rw [← result]
        exact means_constant hρ w
      case not => exact absurd sources (hnot w hkind hop)
    split
    · next hk hi => exact .inr (moved _ (by simp [hk]) hi)
    · next hk hi => exact .inr (moved _ (by simp [hk]) hi)
    · exact .inl rfl
  · split
    · next m hm =>
      obtain ⟨v, h⟩ | ⟨r, h, _⟩ := hu.sources (.memory m) (by simp [hm])
      · cases h
      · cases h
    · split
      · next f₁ hf =>
        rw [hf] at hall
        cases hall with
        | cons h₁ hnil =>
          cases hnil
          exact combined_one_sound hρ h₁.2 result
      · next f₁ f₂ hf =>
        rw [hf] at hall
        cases hall with
        | cons h₁ hrest => cases hrest with
          | cons h₂ hnil =>
            cases hnil
            exact combined_two_sound hρ h₁.2 h₂.2 h₁.1 h₂.1 result
      · exact .inl rfl

def holding (ρ : TermKey → BitVec 64) (st : Registers) : TermKey → BitVec 64
  | .register _ r => st.read r
  | key => ρ key

theorem leaSum_sound {es : List (TermKey × Term)} (he : ∀ e ∈ es, e.2.coeff.den = 1)
    (hfs : List.Forall₂ (Stands ρ st) (es.filterMap termRegister?) fs) {sum : Formula}
    {a : BitVec 64} (hsum : sum.Means ρ a) :
    (leaSum es fs sum).Means ρ (a + (es.map (termWord (holding ρ st))).sum) := by
  induction es generalizing fs sum a with
  | nil => simpa [leaSum] using hsum
  | cons e es ih =>
    obtain ⟨key, t⟩ := e
    have rest := fun e h => he e (List.mem_cons_of_mem _ h)
    have first : t.coeff.den = 1 := he _ List.mem_cons_self
    rw [List.map_cons, List.sum_cons, ← add_assoc]
    cases key with
    | register site r =>
      cases hfs with
      | cons hf hfs => exact ih rest hfs (hsum.add (hf.2.scale first))
    | _ =>
      rw [leaSum]
      · exact ih rest hfs (hsum.addTerm _ first _)
      · simp

theorem hardwired?_of_whole {r : Register} (hr : r.isWhole = true) (u : MicroOp) :
    u.hardwired? r = none := by
  obtain ⟨hc, _⟩ := Register.isWhole_iff.mp hr
  simp [MicroOp.hardwired?, Register.hardwired?, hc]

variable {m : MemoryOperand}

theorem sourceRegisters_lea (hu : u.IsLea d m) :
    u.sourceRegisters = m.base.toList ++ m.index.toList := by
  simp [MicroOp.sourceRegisters, hu.sources]

theorem effect_lea (hu : u.IsLea d m) :
    u.effect = if u.sourceRegisters = [] then .easy else .normal := by
  refine effect_eq (by simp [MicroOp.isBranch, hu.kind]) (by simp [MicroOp.isLoad, hu.kind]) ?_
  intro r hr
  rw [sourceRegisters_lea hu, List.mem_append, Option.mem_toList, Option.mem_toList] at hr
  exact hr.elim (hu.base r) (hu.index r)

theorem filterMap_addRegister {f : Formula} {reg : Option Register} {scale : Int} (hs : scale ≠ 0)
    (hnew : ∀ r ∈ reg, f.terms.get? (.register u.site r.canonical) = none) :
    ((addRegister u f reg scale).terms.entries.filterMap termRegister?).Perm
      (f.terms.entries.filterMap termRegister? ++ reg.toList.map Register.canonical) := by
  cases reg with
  | none => simp [addRegister]
  | some r =>
    have nonzero : (Coeff.ofInt scale).isZero = false := decide_eq_false hs
    rw [addRegister, addTerm_of_none nonzero (hnew r rfl)]
    refine ((Table.insertEntry_perm (hnew r rfl) _).filterMap termRegister?).trans ?_
    exact (List.perm_append_singleton _ _).symm

theorem claimed_lea_perm (hu : u.IsLea d m) :
    (claimed u).Perm (u.sourceRegisters.map Register.canonical) := by
  have scale : m.scale ≠ 0 := by
    intro h
    simpa [h] using hu.scale
  have plain : (constant m.disp).terms.entries.filterMap termRegister? = [] := by
    unfold constant ofTerm addTerm
    split
    · rfl
    · rfl
  have base : ((addRegister u (constant m.disp) m.base 1).terms.entries.filterMap
      termRegister?).Perm (m.base.toList.map Register.canonical) := by
    have added := filterMap_addRegister (u := u) (f := constant m.disp) one_ne_zero
      fun r (_ : r ∈ m.base) => get?_constant _ _ _
    rwa [plain, List.nil_append] at added
  have new : ∀ r ∈ m.index, (addRegister u (constant m.disp) m.base 1).terms.get?
      (.register u.site r.canonical) = none := by
    intro r hr
    cases hb : m.base with
    | none => exact get?_constant _ _ _
    | some s =>
      have other : TermKey.register u.site r.canonical ≠ .register u.site s.canonical := by
        simpa using (hu.different s hb r hr).symm
      change (addTerm _ (.register u.site s.canonical) _ _).terms.get? _ = _
      rw [addTerm_of_none rfl (get?_constant _ _ _)]
      exact (Table.get?_insert_of_ne other _ _).trans (get?_constant _ _ _)
  rw [claimed, hu.sources, sourceRegisters_lea hu, List.map_append]
  exact (filterMap_addRegister scale new).trans (base.append_right _)

theorem folded_lea_sound (hρ : ρ .constant = 1) (hu : u.IsLea d m)
    (hfs : List.Forall₂ (Stands ρ st) (claimed u) fs) (hv : u.result? st = some v)
    (reg : Register) :
    folded u reg fs = .register u.site reg ∨ (folded u reg fs).Means ρ v := by
  unfold folded
  dsimp only
  split
  · split
    · next hk _ => cases hu.kind.symm.trans hk
    · next hk _ => cases hu.kind.symm.trans hk
    · exact .inl rfl
  · rw [claimed, hu.sources] at hfs
    rw [hu.sources]
    have means := leaSum_sound (plain_addressFormula u m).integral hfs (means_zero ρ)
    have word : ((u.addressFormula m).terms.entries.map (termWord (holding ρ st))).sum =
        (u.addressFormula m).word (holding ρ st) := rfl
    have hval : holding ρ st .constant = 1 := hρ
    rw [zero_add, word, word_addressFormula hval hu.scale] at means
    refine .inr ?_
    have result : u.addressBits st m = v := by
      simpa [MicroOp.result?, hu.unconditional, hu.kind, hu.sources] using hv
    have read : ∀ r : Register, r.isWhole = true →
        holding ρ st (.register u.site r.canonical) = u.registerBits st r := by
      intro r hr
      rw [MicroOp.registerBits, hardwired?_of_whole (Register.isWhole_canonical hr)]
      exact st.read_canonical r
    have reads : ∀ r? : Option Register, (∀ r ∈ r?, r.isWhole = true) →
        r?.map (fun r => holding ρ st (.register u.site r.canonical)) =
          r?.map (u.registerBits st) := by
      intro r? hr
      cases r? with
      | none => rfl
      | some r => exact congrArg some (read r (hr r rfl))
    rw [reads _ hu.base, reads _ hu.index] at means
    rw [← result]
    exact means

end Folded

end Base

namespace MicroOp

def Computes (u : MicroOp) (d : Register) : Prop := u.IsArithmetic d ∨ ∃ m, u.IsLea d m

variable {u : MicroOp} {d : Register}

theorem Computes.writes (h : u.Computes d) : u.WritesOnly d := by
  obtain h | ⟨_, h⟩ := h
  · exact h.writes
  · exact h.writes

theorem Computes.unconditional (h : u.Computes d) : u.conditional = false := by
  obtain h | ⟨_, h⟩ := h
  · exact h.unconditional
  · exact h.unconditional

theorem Computes.valid (h : u.Computes d) : u.operation ≠ .invalid := by
  obtain h | ⟨_, h⟩ := h
  · intro hop
    have := h.operands
    simp [hop, Operation.arity?] at this
  · exact h.operation

theorem Computes.whole (h : u.Computes d) {r : Register} (hr : r ∈ u.sourceRegisters) :
    r.isWhole = true := by
  obtain h | ⟨_, h⟩ := h
  · exact Base.whole_of_mem_sourceRegisters h hr
  · rw [Base.sourceRegisters_lea h, List.mem_append, Option.mem_toList, Option.mem_toList] at hr
    exact hr.elim (h.base r) (h.index r)

theorem Computes.effect_eq (h : u.Computes d) :
    u.effect = if u.sourceRegisters = [] then .easy else .normal := by
  obtain h | ⟨_, h⟩ := h
  · exact Base.effect_arithmetic h
  · exact Base.effect_lea h

theorem Computes.claimed_perm (h : u.Computes d) :
    (Base.claimed u).Perm (u.sourceRegisters.map Register.canonical) := by
  obtain h | ⟨_, h⟩ := h
  · rw [Base.claimed_arithmetic h]
  · exact Base.claimed_lea_perm h

def movesComplement (u : MicroOp) : Prop :=
  u.kind ≠ .alu ∧ u.operation = .not ∧ ∃ v, u.sources = [.immediate v]

theorem Computes.folded_sound {ρ : TermKey → BitVec 64} {st : Registers} {fs : List Formula}
    {v : BitVec 64} (h : u.Computes d) (hρ : ρ .constant = 1) (hnot : ¬u.movesComplement)
    (hfs : List.Forall₂ (Base.Stands ρ st) (Base.claimed u) fs) (hv : u.result? st = some v)
    (reg : Register) :
    Base.folded u reg fs = .register u.site reg ∨ (Base.folded u reg fs).Means ρ v := by
  obtain h | ⟨_, h⟩ := h
  · exact Base.folded_arithmetic_sound hρ h
      (fun w hk hop hs => hnot ⟨hk, hop, w, hs⟩) hfs hv reg
  · exact Base.folded_lea_sound hρ h hfs hv reg

theorem Computes.result?_eq (h : u.Computes d) (st : Registers) : ∃ v, u.result? st = some v := by
  obtain h | ⟨m, h⟩ := h
  · have bits : ∀ o ∈ u.sources, ∃ a, operandBits? st o = some a := by
      intro o ho
      obtain ⟨v, rfl⟩ | ⟨r, rfl, hr⟩ := h.sources o ho
      · exact ⟨_, rfl⟩
      · exact ⟨st.read r, by simp [operandBits?, hr]⟩
    have eq : u.result? st = (u.sources.mapM (operandBits? st)).bind u.operation.onBits? := by
      unfold result?
      rw [h.unconditional]
      obtain hk | hk | hk := h.kind <;> simp [hk]
    rw [eq]
    have count := h.operands
    obtain ⟨o, ho, hop⟩ | ⟨o₁, o₂, ho⟩ := Base.sources_arithmetic h
    · obtain ⟨a, ha⟩ := bits o (by simp [ho])
      obtain hop | hop := hop <;> exact ⟨_, by simp [ho, ha, hop, Operation.onBits?]; rfl⟩
    · obtain ⟨a, ha⟩ := bits o₁ (by simp [ho])
      obtain ⟨b, hb⟩ := bits o₂ (by simp [ho])
      rw [ho] at count
      cases hop : u.operation <;> rw [hop] at count <;>
        simp only [Operation.arity?, List.length_cons, List.length_nil, reduceCtorEq,
          Option.some.injEq, Nat.reduceEqDiff, Nat.reduceAdd] at count
      all_goals exact ⟨_, by simp [ho, ha, hb, Operation.onBits?]; rfl⟩
  · exact ⟨u.addressBits st m, by simp [result?, h.unconditional, h.kind, h.sources]⟩

end MicroOp

end AddressFormulas
