import AddressFormulas.Formula.Basic
import AddressFormulas.Proofs.Data.Table
import AddressFormulas.Proofs.Formula.KeyOrder
import Mathlib.Data.BitVec
import Mathlib.Data.Rat.Defs
import Mathlib.Tactic.Ring

namespace AddressFormulas

namespace Coeff

theorem reduce?_one {n : Int} {c : Coeff} (h : reduce? n 1 = some c) : c = ⟨n, 1⟩ := by
  simp only [reduce?, one_ne_zero, if_false, Int.gcd_one, Int.reduceLT, Nat.cast_one,
    Int.ediv_one, Int.natAbs_one, Nat.div_one, Option.ite_none_right_eq_some, Option.some.injEq] at h
  exact h.2.symm

theorem add?_eq {a b c : Coeff} (ha : a.den = 1) (hb : b.den = 1) (h : a.add? b = some c) :
    c = ⟨a.num + b.num, 1⟩ := by
  simp only [add?, ha, hb, Nat.cast_one, mul_one] at h
  exact reduce?_one h

theorem mul?_eq {a b c : Coeff} (ha : a.den = 1) (hb : b.den = 1) (h : a.mul? b = some c) :
    c = ⟨a.num * b.num, 1⟩ := by
  simp only [mul?, ha, hb, Nat.cast_one, mul_one] at h
  exact reduce?_one h

theorem neg?_eq {a c : Coeff} (h : a.neg? = some c) : c = ⟨-a.num, a.den⟩ := by
  simp only [neg?, Option.ite_none_right_eq_some, Option.some.injEq] at h
  exact h.2.symm

end Coeff

namespace Formula

structure Plain (f : Formula) : Prop where
  ascending : Table.Ascending f.terms.entries
  integral : ∀ e ∈ f.terms.entries, e.2.coeff.den = 1

variable (ρ : TermKey → BitVec 64)

def termWord (e : TermKey × Term) : BitVec 64 := (e.2.coeff.num : BitVec 64) * ρ e.1

def word (f : Formula) : BitVec 64 := (f.terms.entries.map (termWord ρ)).sum

theorem plain_empty (access : Access) (overflow : Bool) :
    Plain { access := access, overflow := overflow } :=
  ⟨List.Pairwise.nil, by simp⟩

theorem plain_zero : zero.Plain := plain_empty {} false

@[simp] theorem word_zero : zero.word ρ = 0 := rfl

section AddTerm

variable {f : Formula} {key : TermKey} {c : Coeff} {origin : Option Site}

theorem Plain.addTerm (hf : f.Plain) (hc : c.den = 1) : (f.addTerm key c origin).Plain := by
  have inserted : ∀ t : Term, t.coeff.den = 1 →
      Plain { f with terms := f.terms.insert key t } := by
    intro t ht
    refine ⟨hf.ascending.insert key t, fun e he => ?_⟩
    obtain rfl | he := Table.mem_insertEntry he
    · exact ht
    · exact hf.integral e he
  unfold Formula.addTerm
  split
  · exact hf
  · split
    · exact inserted _ hc
    · next t ht =>
      have old : t.coeff.den = 1 := hf.integral _ (Table.mem_of_findEntry ht)
      split
      · exact ⟨hf.ascending, hf.integral⟩
      · next c' hadd =>
        split
        · exact ⟨hf.ascending.erase key, fun e he =>
            hf.integral e ((Table.eraseEntry_sublist key _).subset he)⟩
        · refine inserted _ ?_
          rw [Coeff.add?_eq old hc hadd]

theorem addTerm_of_none (hc : c.isZero = false) (h : f.terms.get? key = none) :
    f.addTerm key c origin = { f with terms := f.terms.insert key ⟨c, origin⟩ } := by
  simp [Formula.addTerm, hc, h]

theorem get?_addTerm_of_ne {k : TermKey} (hk : k ≠ key) :
    (f.addTerm key c origin).terms.get? k = f.terms.get? k := by
  unfold addTerm
  split
  · rfl
  · split
    · exact Table.get?_insert_of_ne hk _ _
    · split
      · rfl
      · split
        · exact Table.get?_erase_of_ne hk _
        · exact Table.get?_insert_of_ne hk _ _

theorem key_of_mem_addTerm {e : TermKey × Term} (h : e ∈ (f.addTerm key c origin).terms.entries) :
    e.1 = key ∨ e ∈ f.terms.entries := by
  have inserted : ∀ {t}, e ∈ (f.terms.insert key t).entries → e.1 = key ∨ e ∈ f.terms.entries := by
    intro t he
    obtain rfl | he := Table.mem_insertEntry he
    · exact .inl rfl
    · exact .inr he
  unfold Formula.addTerm at h
  split at h
  · exact .inr h
  · split at h
    · exact inserted h
    · split at h
      · exact .inr h
      · split at h
        · exact .inr ((Table.eraseEntry_sublist key _).subset h)
        · exact inserted h

theorem overflow_of_addTerm (h : (f.addTerm key c origin).overflow = false) :
    f.overflow = false := by
  unfold addTerm at h
  split at h
  · exact h
  · split at h
    · exact h
    · split at h
      · cases h
      · split at h
        · exact h
        · exact h

theorem word_addTerm (hf : f.Plain) (hc : c.den = 1)
    (ho : (f.addTerm key c origin).overflow = false) :
    (f.addTerm key c origin).word ρ = f.word ρ + c.num * ρ key := by
  unfold addTerm at ho ⊢
  split
  · next hz =>
    have : c.num = 0 := by simpa [Coeff.isZero] using hz
    simp [this]
  · next hz =>
    rw [if_neg hz] at ho
    split
    · next hnone =>
      have sum := Table.sum_insertEntry_of_none (termWord ρ) hnone ⟨c, origin⟩
      exact sum.trans (add_comm _ _)
    · next t ht =>
      have old : t.coeff.den = 1 := hf.integral _ (Table.mem_of_findEntry ht)
      rw [ht] at ho
      dsimp only at ho
      split
      · next hadd =>
        rw [hadd] at ho
        cases ho
      · next c' hadd =>
        have hc' := Coeff.add?_eq old hc hadd
        split
        · next hz' =>
          have cancel : t.coeff.num + c.num = 0 := by simpa [hc', Coeff.isZero] using hz'
          have cancel' : (t.coeff.num : BitVec 64) + c.num = 0 := by
            rw [← Int.cast_add, cancel, Int.cast_zero]
          have sum := Table.sum_eraseEntry (termWord ρ) ht
          unfold word
          rw [← sum, termWord, add_assoc, ← add_mul, cancel', zero_mul, add_zero]
          rfl
        · have sum := Table.sum_insertEntry_of_some (termWord ρ) hf.ascending ht { t with coeff := c' }
          have added : termWord ρ (key, { t with coeff := c' }) =
              termWord ρ (key, t) + c.num * ρ key := by
            simp only [termWord, hc', Int.cast_add, add_mul]
          rw [added, add_right_comm, add_comm, add_assoc] at sum
          exact add_left_cancel sum

end AddTerm

@[simp] theorem overflow_ofTerm (key : TermKey) (c : Coeff) (origin : Option Site) :
    (ofTerm key c origin).overflow = false := by
  unfold ofTerm addTerm
  split
  · rfl
  · rfl

theorem plain_ofTerm (key : TermKey) {c : Coeff} (hc : c.den = 1) (origin : Option Site) :
    (ofTerm key c origin).Plain :=
  plain_zero.addTerm hc

theorem word_ofTerm (key : TermKey) {c : Coeff} (hc : c.den = 1) (origin : Option Site) :
    (ofTerm key c origin).word ρ = c.num * ρ key := by
  have added := word_addTerm ρ plain_zero hc (overflow_ofTerm key c origin)
  rw [word_zero, zero_add] at added
  exact added

theorem plain_constant (v : Int) : (constant v).Plain := plain_ofTerm _ rfl _

theorem plain_register (site : Site) (reg : Register) : (register site reg).Plain :=
  plain_ofTerm _ rfl _

theorem word_constant (h : ρ .constant = 1) (v : Int) : (constant v).word ρ = v := by
  rw [constant, word_ofTerm ρ _ rfl, h, mul_one]
  rfl

theorem word_register (site : Site) (reg : Register) :
    (register site reg).word ρ = ρ (.register site reg) := by
  rw [register, word_ofTerm ρ _ rfl, Coeff.one, Int.cast_one, one_mul]

def addTerms (f : Formula) (es : List (TermKey × Term)) : Formula :=
  es.foldl (fun s (k, t) => s.addTerm k t.coeff t.origin) f

theorem Plain.addTerms {f : Formula} {es : List (TermKey × Term)} (hf : f.Plain)
    (he : ∀ e ∈ es, e.2.coeff.den = 1) : (f.addTerms es).Plain := by
  induction es generalizing f with
  | nil => exact hf
  | cons e es ih =>
    exact ih (hf.addTerm (he e List.mem_cons_self)) fun e' h => he e' (List.mem_cons_of_mem e h)

theorem overflow_of_addTerms {f : Formula} {es : List (TermKey × Term)}
    (h : (f.addTerms es).overflow = false) : f.overflow = false := by
  induction es generalizing f with
  | nil => exact h
  | cons e es ih => exact overflow_of_addTerm (ih h)

theorem word_addTerms {f : Formula} {es : List (TermKey × Term)} (hf : f.Plain)
    (he : ∀ e ∈ es, e.2.coeff.den = 1) (ho : (f.addTerms es).overflow = false) :
    (f.addTerms es).word ρ = f.word ρ + (es.map (termWord ρ)).sum := by
  induction es generalizing f with
  | nil => simp [addTerms]
  | cons e es ih =>
    have first := he e List.mem_cons_self
    have rest : ((f.addTerm e.1 e.2.coeff e.2.origin).addTerms es).overflow = false := ho
    change ((f.addTerm e.1 e.2.coeff e.2.origin).addTerms es).word ρ = _
    rw [ih (hf.addTerm first) (fun e' h => he e' (List.mem_cons_of_mem e h)) rest,
      word_addTerm ρ hf first (overflow_of_addTerms rest), List.map_cons, List.sum_cons, add_assoc]
    rfl

section Operations

variable {f g : Formula}

theorem Plain.add (hf : f.Plain) (hg : g.Plain) : (f + g).Plain :=
  have sum := hf.addTerms hg.integral
  ⟨sum.ascending, sum.integral⟩

theorem overflow_of_add (h : (f + g).overflow = false) :
    f.overflow = false ∧ g.overflow = false := by
  have either : ((f.addTerms g.terms.entries).overflow || g.overflow) = false := h
  simp only [Bool.or_eq_false_iff] at either
  exact ⟨overflow_of_addTerms either.1, either.2⟩

theorem word_add (hf : f.Plain) (hg : g.Plain) (ho : (f + g).overflow = false) :
    (f + g).word ρ = f.word ρ + g.word ρ := by
  have either : ((f.addTerms g.terms.entries).overflow || g.overflow) = false := ho
  simp only [Bool.or_eq_false_iff] at either
  exact word_addTerms ρ hf hg.integral either.1

theorem mapEntries_spec {op : Coeff → Option Coeff} {k : BitVec 64}
    (hop : ∀ c c', c.den = 1 → op c = some c' → c'.den = 1 ∧ (c'.num : BitVec 64) = k * c.num)
    {es : List (TermKey × Term)} (he : ∀ e ∈ es, e.2.coeff.den = 1) :
    (mapEntries op es).1.map Prod.fst = es.map Prod.fst ∧
    (∀ e ∈ (mapEntries op es).1, e.2.coeff.den = 1) ∧
    ((mapEntries op es).2 = false →
      ((mapEntries op es).1.map (termWord ρ)).sum = k * (es.map (termWord ρ)).sum) := by
  induction es with
  | nil => simp [mapEntries]
  | cons e es ih =>
    obtain ⟨keys, dens, sums⟩ := ih fun e' h => he e' (List.mem_cons_of_mem e h)
    have first := he e List.mem_cons_self
    unfold mapEntries
    dsimp only
    split
    · next c' hc' =>
      obtain ⟨den, num⟩ := hop _ _ first hc'
      refine ⟨by simp [keys], List.forall_mem_cons.mpr ⟨den, dens⟩, fun ho => ?_⟩
      rw [List.map_cons, List.sum_cons, sums ho, List.map_cons, List.sum_cons, mul_add]
      simp only [termWord, num, mul_assoc]
    · exact ⟨by simp [keys], List.forall_mem_cons.mpr ⟨first, dens⟩, fun ho => by cases ho⟩

variable {op : Coeff → Option Coeff} {k : BitVec 64}

theorem Plain.mapCoeffs (hf : f.Plain)
    (hop : ∀ c c', c.den = 1 → op c = some c' → c'.den = 1 ∧ (c'.num : BitVec 64) = k * c.num) :
    (f.mapCoeffs op).Plain := by
  obtain ⟨keys, dens, _⟩ := mapEntries_spec (fun _ => 0) hop hf.integral
  refine ⟨?_, dens⟩
  have ordered : (f.terms.entries.map Prod.fst).Pairwise (fun a b => compare a b = .lt) :=
    List.pairwise_map.mpr hf.ascending
  rw [← keys] at ordered
  exact List.pairwise_map.mp ordered

theorem overflow_of_mapCoeffs (h : (f.mapCoeffs op).overflow = false) : f.overflow = false := by
  have either : (f.overflow || (mapEntries op f.terms.entries).2) = false := h
  simp only [Bool.or_eq_false_iff] at either
  exact either.1

theorem word_mapCoeffs (hf : f.Plain)
    (hop : ∀ c c', c.den = 1 → op c = some c' → c'.den = 1 ∧ (c'.num : BitVec 64) = k * c.num)
    (ho : (f.mapCoeffs op).overflow = false) : (f.mapCoeffs op).word ρ = k * f.word ρ := by
  have either : (f.overflow || (mapEntries op f.terms.entries).2) = false := ho
  simp only [Bool.or_eq_false_iff] at either
  exact (mapEntries_spec ρ hop hf.integral).2.2 either.2

theorem neg?_times (c c' : Coeff) (hc : c.den = 1) (h : c.neg? = some c') :
    c'.den = 1 ∧ (c'.num : BitVec 64) = -1 * c.num := by
  obtain rfl := Coeff.neg?_eq h
  exact ⟨hc, by rw [Int.cast_neg, neg_one_mul]⟩

theorem mul?_times {m : Coeff} (hm : m.den = 1) (c c' : Coeff) (hc : c.den = 1)
    (h : c.mul? m = some c') : c'.den = 1 ∧ (c'.num : BitVec 64) = (m.num : BitVec 64) * c.num := by
  obtain rfl := Coeff.mul?_eq hc hm h
  exact ⟨rfl, by rw [Int.cast_mul, mul_comm]⟩

theorem Plain.neg (hf : f.Plain) : (-f).Plain := hf.mapCoeffs neg?_times

theorem word_neg (hf : f.Plain) (ho : (-f).overflow = false) : (-f).word ρ = -f.word ρ := by
  have := word_mapCoeffs ρ hf neg?_times ho
  rwa [neg_one_mul] at this

theorem Plain.sub (hf : f.Plain) (hg : g.Plain) : (f - g).Plain := hf.add hg.neg

theorem overflow_of_sub (h : (f - g).overflow = false) :
    f.overflow = false ∧ (-g).overflow = false :=
  overflow_of_add h

theorem word_sub (hf : f.Plain) (hg : g.Plain) (ho : (f - g).overflow = false) :
    (f - g).word ρ = f.word ρ - g.word ρ := by
  have sum := word_add ρ hf hg.neg ho
  rw [word_neg ρ hg (overflow_of_sub ho).2, ← sub_eq_add_neg] at sum
  exact sum

theorem Plain.scale (hf : f.Plain) {c : Coeff} (hc : c.den = 1) : (f.scale c).Plain := by
  unfold Formula.scale
  split
  · exact plain_empty _ _
  · exact hf.mapCoeffs (mul?_times hc)

theorem overflow_of_scale {c : Coeff} (h : (f.scale c).overflow = false) : f.overflow = false := by
  unfold scale at h
  split at h
  · exact h
  · exact overflow_of_mapCoeffs h

theorem word_scale (hf : f.Plain) {c : Coeff} (hc : c.den = 1)
    (ho : (f.scale c).overflow = false) : (f.scale c).word ρ = c.num * f.word ρ := by
  unfold scale at ho ⊢
  split
  · next hz =>
    have : c.num = 0 := by simpa [Coeff.isZero] using hz
    simp [this, word]
  · next hz =>
    rw [if_neg hz] at ho
    exact word_mapCoeffs ρ hf (mul?_times hc) ho

theorem Plain.mul (hf : f.Plain) (k : Int) : (f.mul k).Plain := hf.scale rfl

theorem word_mul (hf : f.Plain) (k : Int) (ho : (f.mul k).overflow = false) :
    (f.mul k).word ρ = k * f.word ρ :=
  word_scale ρ hf rfl ho

theorem foldlM_constants (h : ρ .constant = 1) {es : List (TermKey × Term)}
    (he : ∀ e ∈ es, e.2.coeff.den = 1) {acc c : Coeff} (hacc : acc.den = 1)
    (hc : es.foldlM (fun acc (k, t) => if k.isConstant then acc.add? t.coeff else none) acc =
      some c) :
    c.den = 1 ∧ (c.num : BitVec 64) = acc.num + (es.map (termWord ρ)).sum := by
  induction es generalizing acc with
  | nil =>
    cases hc
    exact ⟨hacc, by simp⟩
  | cons e es ih =>
    obtain ⟨next, hnext, hc⟩ := Option.bind_eq_some_iff.mp hc
    simp only [Option.ite_none_right_eq_some] at hnext
    obtain ⟨hkey, hadd⟩ := hnext
    have key : e.1 = .constant := by
      cases hk : e.1 <;> simp [hk, TermKey.isConstant] at hkey ⊢
    obtain rfl := Coeff.add?_eq hacc (he e List.mem_cons_self) hadd
    obtain ⟨den, num⟩ := ih (fun e' h => he e' (List.mem_cons_of_mem e h)) rfl hc
    refine ⟨den, ?_⟩
    rw [num, List.map_cons, List.sum_cons, termWord, key, h, mul_one, Int.cast_add, add_assoc]

theorem word_of_constantValue? (h : ρ .constant = 1) (hf : f.Plain) {c : Coeff}
    (hc : f.constantValue? = some c) : c.den = 1 ∧ f.word ρ = c.num := by
  unfold constantValue? at hc
  split at hc
  · cases hc
  · obtain ⟨den, num⟩ := foldlM_constants ρ h hf.integral rfl hc
    refine ⟨den, ?_⟩
    rw [num, Coeff.zero, Int.cast_zero, zero_add]
    rfl

theorem value_of_den {c : Coeff} (h : c.den = 1) : c.value = c.num := by
  simp [Coeff.value, h]

theorem word_of_sameTerms (h : f.sameTerms g = true) : f.word ρ = g.word ρ := by
  obtain ⟨size, same⟩ := Bool.and_eq_true_iff.mp h
  have length : f.terms.entries.length = g.terms.entries.length := of_decide_eq_true size
  suffices f.terms.entries.map (termWord ρ) = g.terms.entries.map (termWord ρ) by
    unfold word
    rw [this]
  refine List.ext_getElem (by simp [length]) fun i hi hj => ?_
  simp only [List.length_map] at hi hj
  have mem : (f.terms.entries[i], g.terms.entries[i]) ∈ f.terms.entries.zip g.terms.entries :=
    List.mem_iff_getElem.mpr ⟨i, by simp [hi, hj], by simp⟩
  have pair := List.all_eq_true.mp same _ mem
  simp only [Bool.and_eq_true, decide_eq_true_eq] at pair
  simp only [List.getElem_map, termWord, pair.1, pair.2]

end Operations

def value (z : TermKey → ℤ) (f : Formula) : ℚ :=
  (f.terms.entries.map fun e => (e.2.coeff.num / e.2.coeff.den : ℚ) * z e.1).sum

/-- A formula with integer coefficients is an integer, whose lowest bits are its word. -/
theorem value_eq_word {f : Formula} (hf : f.Plain) (z : TermKey → ℤ) :
    ∃ v : ℤ, f.value z = v ∧ BitVec.ofInt 64 v = f.word fun k => BitVec.ofInt 64 (z k) := by
  suffices ∀ es : List (TermKey × Term), (∀ e ∈ es, e.2.coeff.den = 1) → ∃ v : ℤ,
      (es.map fun e => (e.2.coeff.num / e.2.coeff.den : ℚ) * z e.1).sum = v ∧
      (v : BitVec 64) = (es.map (termWord fun k => BitVec.ofInt 64 (z k))).sum from
    this _ hf.integral
  intro es he
  induction es with
  | nil => exact ⟨0, by simp, by simp⟩
  | cons e es ih =>
    obtain ⟨v, hv, hw⟩ := ih fun e' h => he e' (List.mem_cons_of_mem e h)
    refine ⟨e.2.coeff.num * z e.1 + v, ?_, ?_⟩
    · rw [List.map_cons, List.sum_cons, hv, he e List.mem_cons_self]
      push_cast
      rw [div_one]
    · rw [List.map_cons, List.sum_cons, ← hw, Int.cast_add, Int.cast_mul]
      rfl

end Formula

end AddressFormulas
