import AddressFormulas.Proofs.Data.Word
import AddressFormulas.Proofs.Formula.Marks

namespace AddressFormulas

open Std

namespace Table

variable {κ α : Type} [Ord κ] [LawfulEqOrd κ]

theorem findEntry_of_mem {k : κ} {a : α} {es : List (κ × α)} (h : Ascending es)
    (hm : (k, a) ∈ es) : findEntry k es = some a := by
  induction es with
  | nil => cases hm
  | cons e es ih =>
    obtain ⟨he, hes⟩ := List.pairwise_cons.mp h
    unfold findEntry
    obtain rfl | hm := List.mem_cons.mp hm
    · simp
    · have hne : compare k e.1 ≠ .eq := by
        intro heq
        have less := he _ hm
        have same : k = e.1 := LawfulEqOrd.eq_of_compare heq
        subst same
        simp at less
      simp [hne, ih hes hm]

theorem findEntry_eraseEntry_self (k : κ) {es : List (κ × α)} (h : Ascending es) :
    findEntry k (eraseEntry k es) = none := by
  induction es with
  | nil => rfl
  | cons e es ih =>
    obtain ⟨he, hes⟩ := List.pairwise_cons.mp h
    unfold eraseEntry
    split
    · next heq =>
      have same : k = e.1 := LawfulEqOrd.eq_of_compare heq
      cases found : findEntry k es with
      | none => rfl
      | some a =>
        have less := he _ (mem_of_findEntry found)
        subst same
        simp at less
    · next hne => simp [findEntry, hne, ih hes]

end Table

namespace Coeff

structure Proper (c : Coeff) : Prop where
  nonzero : c.num ≠ 0
  positive : c.den ≠ 0
  lowest : Int.gcd c.num c.den = 1
  num_fits : Word.fits c.num = true
  den_fits : Word.fits c.den = true

theorem Proper.isZero {c : Coeff} (h : c.Proper) : c.isZero = false := by
  simp [Coeff.isZero, h.nonzero]

theorem Proper.reduce? {c : Coeff} (h : c.Proper) : reduce? c.num c.den = some c := by
  have sign : ¬(c.den : Int) < 0 := by omega
  simp [Coeff.reduce?, h.positive, h.lowest, h.num_fits, h.den_fits, sign]

theorem Proper.mul?_one {c : Coeff} (h : c.Proper) : c.mul? .one = some c := by
  simpa [Coeff.mul?, Coeff.one] using h.reduce?

theorem proper_of_reduce? {n d : Int} {c : Coeff} (h : Coeff.reduce? n d = some c) (hn : n ≠ 0) :
    c.Proper := by
  simp only [Coeff.reduce?, Option.ite_none_left_eq_some, Option.ite_none_right_eq_some,
    Option.some.injEq, Bool.and_eq_true] at h
  obtain ⟨hd, ⟨num_fits, den_fits⟩, rfl⟩ := h
  have pos : 0 < Int.gcd n d := Int.gcd_pos_of_ne_zero_left d hn
  have size : ((if d < 0 then -n else n) / (Int.gcd n d : Int)).natAbs = n.natAbs / Int.gcd n d := by
    have divides : (Int.gcd n d : Int) ∣ if d < 0 then -n else n := by
      split
      · exact Int.dvd_neg.mpr (Int.gcd_dvd_left n d)
      · exact Int.gcd_dvd_left n d
    rw [Int.natAbs_ediv_of_dvd divides]
    split <;> simp
  have num_ne : n.natAbs / Int.gcd n d ≠ 0 := by
    have le := Nat.le_of_dvd (Int.natAbs_pos.mpr hn) (Nat.gcd_dvd_left n.natAbs d.natAbs)
    exact (Nat.div_pos le pos).ne'
  have den_ne : d.natAbs / Int.gcd n d ≠ 0 := by
    have le := Nat.le_of_dvd (Int.natAbs_pos.mpr hd) (Nat.gcd_dvd_right n.natAbs d.natAbs)
    exact (Nat.div_pos le pos).ne'
  constructor
  · intro hzero
    apply num_ne
    rw [← size]
    exact Int.natAbs_eq_zero.mpr hzero
  · exact den_ne
  · rw [Int.gcd, size, Int.natAbs_natCast]
    exact Nat.coprime_div_gcd_div_gcd pos
  · exact num_fits
  · exact den_fits

theorem proper_ofInt {v : Int} (hv : Word.fits v = true) (hne : v ≠ 0) : (ofInt v).Proper := by
  constructor
  · exact hne
  · exact one_ne_zero
  · simp [ofInt]
  · exact hv
  · exact (by decide : Word.fits 1 = true)

theorem Proper.neg? {c c' : Coeff} (h : c.Proper) (hn : c.neg? = some c') : c'.Proper := by
  simp only [Coeff.neg?, Option.ite_none_right_eq_some, Option.some.injEq] at hn
  obtain ⟨hfits, rfl⟩ := hn
  constructor
  · simpa using h.nonzero
  · exact h.positive
  · simpa using h.lowest
  · exact hfits
  · exact h.den_fits

theorem Proper.mul? {c m c' : Coeff} (h : c.Proper) (hm : m.isZero = false)
    (hc : c.mul? m = some c') : c'.Proper := by
  apply proper_of_reduce? hc
  apply mul_ne_zero h.nonzero
  simpa [Coeff.isZero] using hm

theorem proper_of_add? {a b c : Coeff} (h : a.add? b = some c) (hc : c.isZero = false) : c.Proper := by
  apply proper_of_reduce? h
  intro hzero
  rw [Coeff.add?, hzero, Coeff.reduce?] at h
  simp only [Option.ite_none_left_eq_some, Option.ite_none_right_eq_some, Option.some.injEq] at h
  obtain ⟨_, _, rfl⟩ := h
  simp [Coeff.isZero] at hc

theorem add?_comm (a b : Coeff) : a.add? b = b.add? a := by
  unfold Coeff.add?
  rw [add_comm, mul_comm (a.den : Int)]

/-- What adding `c` makes of a coefficient. One that overflows stays as it is. -/
def plus (c : Coeff) (x : Option Coeff) : Option Coeff :=
  if c.isZero then x
  else
    match x with
    | none => some c
    | some a =>
      match a.add? c with
      | none => some a
      | some b => if b.isZero then none else some b

def Clashes (c : Coeff) (x : Option Coeff) : Prop :=
  c.isZero = false ∧ ∃ a, x = some a ∧ a.add? c = none

theorem proper_of_plus {c b : Coeff} {x : Option Coeff} (hc : c.Proper) (hx : ∀ a, x = some a → a.Proper)
    (h : plus c x = some b) : b.Proper := by
  unfold plus at h
  rw [hc.isZero] at h
  simp only [Bool.false_eq_true, if_false] at h
  split at h
  · cases h
    exact hc
  · next a =>
    split at h
    · cases h
      exact hx _ rfl
    · next s hs =>
      split at h
      · cases h
      · next hz =>
        cases h
        exact proper_of_add? hs (by simpa using hz)

end Coeff

namespace Formula

open Coeff

variable {f g : Formula} {key : TermKey} {c : Coeff} {origin : Option Site}

def coeffAt (f : Formula) (key : TermKey) : Option Coeff := (f.terms.get? key).map Term.coeff

def Ordered (f : Formula) : Prop := Table.Ascending f.terms.entries

theorem coeffAt_mem (hf : f.Ordered) : f.coeffAt key = some c ↔
    ∃ t, (key, t) ∈ f.terms.entries ∧ t.coeff = c := by
  constructor
  · intro h
    obtain ⟨t, ht, rfl⟩ := Option.map_eq_some_iff.mp h
    exact ⟨t, Table.mem_of_findEntry ht, rfl⟩
  · rintro ⟨t, ht, rfl⟩
    have found : f.terms.get? key = some t := Table.findEntry_of_mem hf ht
    simp [coeffAt, found]

section AddTerm

theorem Ordered.addTerm (hf : f.Ordered) : (f.addTerm key c origin).Ordered := by
  unfold Formula.addTerm
  split
  · exact hf
  · split
    · exact Table.Ascending.insert hf _ _
    · split
      · exact hf
      · split
        · exact Table.Ascending.erase hf _
        · exact Table.Ascending.insert hf _ _

theorem coeffAt_addTerm (hf : f.Ordered) (k : TermKey) :
    (f.addTerm key c origin).coeffAt k = if k = key then plus c (f.coeffAt key) else f.coeffAt k := by
  have inserted : ∀ t : Term, ({ f with terms := f.terms.insert key t } : Formula).coeffAt k =
      if k = key then some t.coeff else f.coeffAt k := by
    intro t
    unfold coeffAt
    rw [Table.get?_insert]
    split <;> rfl
  have erased : ({ f with terms := f.terms.erase key } : Formula).coeffAt k =
      if k = key then none else f.coeffAt k := by
    unfold coeffAt
    split
    · next hk =>
      have gone : (f.terms.erase key).get? k = none := by
        rw [hk]
        exact Table.findEntry_eraseEntry_self key hf
      rw [gone]
      rfl
    · next hk => rw [Table.get?_erase_of_ne hk]
  unfold Formula.addTerm plus
  by_cases hc : c.isZero = true
  · simp only [hc, if_true]
    split
    · next hk => rw [hk]
    · rfl
  · simp only [hc]
    cases ht : f.terms.get? key with
    | none =>
      have absent : f.coeffAt key = none := by simp [coeffAt, ht]
      simp [absent, inserted]
    | some t =>
      have present : f.coeffAt key = some t.coeff := by simp [coeffAt, ht]
      cases hs : t.coeff.add? c with
      | none =>
        have same : ({ f with overflow := true } : Formula).coeffAt k = f.coeffAt k := rfl
        simp only [present, hs, Bool.false_eq_true, if_false, same]
        split
        · next hk => rw [hk, present]
        · rfl
      | some s =>
        by_cases hz : s.isZero = true
        · simp [present, hs, hz, erased]
        · simp [present, hs, hz, inserted]

theorem overflow_addTerm : (f.addTerm key c origin).overflow = true ↔
    f.overflow = true ∨ Clashes c (f.coeffAt key) := by
  unfold Formula.addTerm Clashes coeffAt
  by_cases hc : c.isZero = true
  · simp [hc]
  · cases ht : f.terms.get? key with
    | none => simp [hc]
    | some t =>
      cases hs : t.coeff.add? c with
      | none => simp [hc, hs]
      | some s =>
        by_cases hz : s.isZero = true
        · simp [hc, hs, hz]
        · simp [hc, hs, hz]

end AddTerm

section AddTerms

variable {es : List (TermKey × Term)}

theorem Ordered.addTerms (hf : f.Ordered) : (f.addTerms es).Ordered := by
  induction es generalizing f with
  | nil => exact hf
  | cons e es ih => exact ih hf.addTerm

theorem coeffAt_addTerms (hf : f.Ordered) (hes : Table.Ascending es) (k : TermKey) :
    (f.addTerms es).coeffAt k =
      match Table.findEntry k es with
      | none => f.coeffAt k
      | some t => plus t.coeff (f.coeffAt k) := by
  induction es generalizing f with
  | nil => rfl
  | cons e es ih =>
    obtain ⟨he, hes⟩ := List.pairwise_cons.mp hes
    have later : Table.findEntry e.1 es = none := by
      cases found : Table.findEntry e.1 es with
      | none => rfl
      | some a => simpa using he _ (Table.mem_of_findEntry found)
    change ((f.addTerm e.1 e.2.coeff e.2.origin).addTerms es).coeffAt k = _
    rw [ih hf.addTerm hes, coeffAt_addTerm hf]
    by_cases hk : k = e.1
    · subst hk
      simp [later, Table.findEntry]
    · have hne : compare k e.1 ≠ .eq := fun h => hk (LawfulEqOrd.eq_of_compare h)
      simp [hk, hne, Table.findEntry]

theorem overflow_addTerms (hf : f.Ordered) (hes : Table.Ascending es) :
    (f.addTerms es).overflow = true ↔
      f.overflow = true ∨ ∃ e ∈ es, Clashes e.2.coeff (f.coeffAt e.1) := by
  induction es generalizing f with
  | nil => simp [addTerms]
  | cons e es ih =>
    obtain ⟨he, hes⟩ := List.pairwise_cons.mp hes
    change ((f.addTerm e.1 e.2.coeff e.2.origin).addTerms es).overflow = true ↔ _
    have same : ∀ e' ∈ es, (f.addTerm e.1 e.2.coeff e.2.origin).coeffAt e'.1 = f.coeffAt e'.1 := by
      intro e' he'
      have less := he e' he'
      rw [coeffAt_addTerm hf, if_neg]
      intro heq
      rw [heq] at less
      simp at less
    rw [ih hf.addTerm hes, overflow_addTerm, List.exists_mem_cons_iff, or_assoc]
    refine or_congr_right (or_congr_right ?_)
    constructor
    · rintro ⟨e', he', clash⟩
      rw [same e' he'] at clash
      exact ⟨e', he', clash⟩
    · rintro ⟨e', he', clash⟩
      rw [← same e' he'] at clash
      exact ⟨e', he', clash⟩

end AddTerms

section Operations

theorem Ordered.add (hf : f.Ordered) : (f + g).Ordered := Ordered.addTerms hf

theorem coeffAt_add (hf : f.Ordered) (hg : g.Ordered) (k : TermKey) :
    (f + g).coeffAt k =
      match g.coeffAt k with
      | none => f.coeffAt k
      | some c => plus c (f.coeffAt k) := by
  have sum : (f + g).coeffAt k = (f.addTerms g.terms.entries).coeffAt k := rfl
  rw [sum, coeffAt_addTerms hf hg]
  unfold coeffAt Table.get?
  cases Table.findEntry k g.terms.entries <;> rfl

theorem overflow_add (hf : f.Ordered) (hg : g.Ordered) : (f + g).overflow = true ↔
    f.overflow = true ∨ g.overflow = true ∨
      ∃ k c, g.coeffAt k = some c ∧ Clashes c (f.coeffAt k) := by
  have sum : (f + g).overflow = ((f.addTerms g.terms.entries).overflow || g.overflow) := rfl
  rw [sum, Bool.or_eq_true, overflow_addTerms hf hg, or_assoc]
  refine or_congr_right ?_
  rw [or_comm]
  refine or_congr_right ?_
  constructor
  · rintro ⟨⟨k, t⟩, he, clash⟩
    exact ⟨k, t.coeff, (coeffAt_mem hg).mpr ⟨t, he, rfl⟩, clash⟩
  · rintro ⟨k, c, hc, clash⟩
    obtain ⟨t, ht, rfl⟩ := (coeffAt_mem hg).mp hc
    exact ⟨(k, t), ht, clash⟩

variable {op : Coeff → Option Coeff}

theorem mapEntries_keys (es : List (TermKey × Term)) :
    (mapEntries op es).1.map Prod.fst = es.map Prod.fst := by
  induction es with
  | nil => rfl
  | cons e es ih =>
    unfold mapEntries
    dsimp only
    split <;> simp [ih]

theorem findEntry_mapEntries (es : List (TermKey × Term)) (k : TermKey) :
    (Table.findEntry k (mapEntries op es).1).map Term.coeff =
      (Table.findEntry k es).map fun t => (op t.coeff).getD t.coeff := by
  induction es with
  | nil => rfl
  | cons e es ih =>
    unfold mapEntries
    dsimp only
    split
    · next c hc =>
      unfold Table.findEntry
      split
      · simp [hc]
      · exact ih
    · next hc =>
      unfold Table.findEntry
      split
      · simp [hc]
      · exact ih

theorem overflow_mapEntries (es : List (TermKey × Term)) :
    (mapEntries op es).2 = true ↔ ∃ e ∈ es, op e.2.coeff = none := by
  induction es with
  | nil => simp [mapEntries]
  | cons e es ih =>
    unfold mapEntries
    dsimp only
    split
    · next c hc => simp [hc, ih]
    · next hc => simp [hc]

theorem Ordered.mapCoeffs (hf : f.Ordered) : (f.mapCoeffs op).Ordered := by
  have ordered : (f.terms.entries.map Prod.fst).Pairwise (fun a b => compare a b = .lt) :=
    List.pairwise_map.mpr hf
  rw [← @mapEntries_keys op] at ordered
  exact List.pairwise_map.mp ordered

theorem coeffAt_mapCoeffs (k : TermKey) :
    (f.mapCoeffs op).coeffAt k = (f.coeffAt k).map fun c => (op c).getD c := by
  change (Table.findEntry k (mapEntries op f.terms.entries).1).map Term.coeff = _
  rw [findEntry_mapEntries, coeffAt, Option.map_map]
  rfl

theorem overflow_mapCoeffs (hf : f.Ordered) : (f.mapCoeffs op).overflow = true ↔
    f.overflow = true ∨ ∃ k c, f.coeffAt k = some c ∧ op c = none := by
  have mapped : (f.mapCoeffs op).overflow = (f.overflow || (mapEntries op f.terms.entries).2) := rfl
  rw [mapped, Bool.or_eq_true, overflow_mapEntries]
  refine or_congr_right ?_
  constructor
  · rintro ⟨⟨k, t⟩, he, hop⟩
    exact ⟨k, t.coeff, (coeffAt_mem hf).mpr ⟨t, he, rfl⟩, hop⟩
  · rintro ⟨k, c, hc, hop⟩
    obtain ⟨t, ht, rfl⟩ := (coeffAt_mem hf).mp hc
    exact ⟨(k, t), ht, hop⟩

end Operations

section Views

theorem entries_eq_of_coeffAt (hf : f.Ordered) (hg : g.Ordered) (h : ∀ k, f.coeffAt k = g.coeffAt k) :
    f.terms.entries.map (fun e => (e.1, e.2.coeff)) = g.terms.entries.map fun e => (e.1, e.2.coeff) := by
  have less : ∀ {f : Formula}, f.Ordered →
      (f.terms.entries.map fun e => (e.1, e.2.coeff)).Pairwise fun a b => compare a.1 b.1 = .lt :=
    fun hf => List.pairwise_map.mpr hf
  have member : ∀ {f : Formula}, f.Ordered → ∀ e : TermKey × Coeff,
      e ∈ f.terms.entries.map (fun e => (e.1, e.2.coeff)) ↔ f.coeffAt e.1 = some e.2 := by
    intro f hf e
    rw [coeffAt_mem hf]
    constructor
    · intro he
      obtain ⟨⟨k, t⟩, ht, rfl⟩ := List.mem_map.mp he
      exact ⟨t, ht, rfl⟩
    · rintro ⟨t, ht, hc⟩
      exact List.mem_map.mpr ⟨_, ht, Prod.ext rfl hc⟩
  have nodup : ∀ {f : Formula}, f.Ordered →
      (f.terms.entries.map fun e => (e.1, e.2.coeff)).Nodup := by
    intro f hf
    apply (less hf).imp
    rintro a b hlt rfl
    simp at hlt
  have perm := (List.perm_ext_iff_of_nodup (nodup hf) (nodup hg)).mpr fun e => by
    rw [member hf, member hg, h]
  apply perm.eq_of_pairwise ?_ (less hf) (less hg)
  intro a b _ _ hab hba
  exact absurd (OrientedCmp.gt_of_lt hab) (by simp [hba])

theorem sameTerms_iff_entries : f.sameTerms g = true ↔
    f.terms.entries.map (fun e => (e.1, e.2.coeff)) =
      g.terms.entries.map fun e => (e.1, e.2.coeff) := by
  unfold sameTerms Table.size
  generalize f.terms.entries = es
  generalize g.terms.entries = es'
  induction es generalizing es' with
  | nil => cases es' <;> simp
  | cons e es ih =>
    cases es' with
    | nil => simp
    | cons e' es' =>
      have rest := ih es'
      simp only [Bool.and_eq_true, decide_eq_true_eq, List.length_cons, Nat.add_right_cancel_iff,
        List.zip_cons_cons, List.all_cons, List.map_cons, List.cons.injEq, Prod.mk.injEq] at rest ⊢
      rw [← rest]
      tauto

theorem sameTerms_iff (hf : f.Ordered) (hg : g.Ordered) :
    f.sameTerms g = true ↔ ∀ k, f.coeffAt k = g.coeffAt k := by
  rw [sameTerms_iff_entries]
  constructor
  · intro h k
    have look : ∀ es : List (TermKey × Term), (Table.findEntry k es).map Term.coeff =
        Table.findEntry k (es.map fun e => (e.1, e.2.coeff)) := by
      intro es
      induction es with
      | nil => rfl
      | cons e es ih =>
        simp only [List.map_cons, Table.findEntry]
        split
        · rfl
        · exact ih
    unfold coeffAt Table.get?
    rw [look, look, h]
  · exact entries_eq_of_coeffAt hf hg

theorem constantValue?_of_unknown {k : TermKey} (hk : k.isConstant = false)
    (h : f.coeffAt k ≠ none) : f.constantValue? = none := by
  obtain ⟨c, hc⟩ := Option.ne_none_iff_exists'.mp h
  obtain ⟨t, ht, _⟩ := Option.map_eq_some_iff.mp hc
  have stuck : ∀ (es : List (TermKey × Term)) (acc : Coeff), (k, t) ∈ es →
      es.foldlM (fun acc (e : TermKey × Term) =>
        if e.1.isConstant then acc.add? e.2.coeff else none) acc = none := by
    intro es
    induction es with
    | nil => simp
    | cons e es ih =>
      intro acc hm
      rw [List.foldlM_cons]
      obtain rfl | hm := List.mem_cons.mp hm
      · simp [hk]
      · cases (if e.1.isConstant then acc.add? e.2.coeff else none) with
        | none => rfl
        | some acc' => exact ih acc' hm
  unfold constantValue?
  split
  · rfl
  · exact stuck _ _ (Table.mem_of_findEntry ht)

theorem constantValue?_of_known (hf : f.Ordered) (ho : f.overflow = false)
    (h : ∀ k, k.isConstant = false → f.coeffAt k = none) :
    f.constantValue? = match f.coeffAt .constant with
      | none => some .zero
      | some c => Coeff.zero.add? c := by
  have constants : ∀ e ∈ f.terms.entries, e.1 = .constant := by
    rintro ⟨k, t⟩ he
    have present := (coeffAt_mem hf).mpr ⟨t, he, rfl⟩
    by_contra hk
    have unknown : k.isConstant = false := by
      cases k <;> simp_all [TermKey.isConstant]
    simp [h k unknown] at present
  unfold constantValue? coeffAt Table.get?
  rw [ho]
  cases hes : f.terms.entries with
  | nil => rfl
  | cons e es =>
    obtain ⟨he, _⟩ := List.pairwise_cons.mp (hes ▸ hf : Table.Ascending (e :: es))
    have first : e.1 = .constant := constants e (by simp [hes])
    cases es with
    | nil =>
      obtain ⟨k, t⟩ := e
      cases first
      simp [Table.findEntry, TermKey.isConstant]
    | cons e' es =>
      have second : e'.1 = .constant := constants e' (by simp [hes])
      have less := he e' List.mem_cons_self
      simp [first, second] at less

theorem hasComplexDenominator_iff (hf : f.Ordered) : f.hasComplexDenominator = true ↔
    ∃ k c, k.isConstant = false ∧ f.coeffAt k = some c ∧ c.isFractional = true := by
  unfold hasComplexDenominator
  rw [List.any_eq_true]
  constructor
  · rintro ⟨⟨k, t⟩, he, h⟩
    simp only [Bool.and_eq_true, Bool.not_eq_true'] at h
    exact ⟨k, t.coeff, h.1, (coeffAt_mem hf).mpr ⟨t, he, rfl⟩, h.2⟩
  · rintro ⟨k, c, hk, hc, hfrac⟩
    obtain ⟨t, ht, rfl⟩ := (coeffAt_mem hf).mp hc
    exact ⟨(k, t), ht, by simp [hk, hfrac]⟩

end Views

end Formula

end AddressFormulas
