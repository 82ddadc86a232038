import AddressFormulas.Proofs.Walk.Claiming
import Mathlib.Order.Bounds.Basic

/-!
Pending values, call by call. Whatever is put, claimed and cleared in whatever order, a claim gets
the newest value that it wants and that no claim has got before, and it leaves all others as they
are. Calls do not look at the values, so that the calls may be followed with every value numbered by
the call that puts it: the numbers of what is pending are those of the values that wait, and they
fall from the newest on.
-/

namespace AddressFormulas

namespace Register

def HasBit (r : Register) (whole : RegisterName) (k : Nat) : Prop :=
  r.isAbsent = false ∧ r.name.parent = whole ∧ r.lsb ≤ k ∧ k ≤ r.msb

theorem overlaps_iff_hasBit {r s : Register} (hr : r.lsb ≤ r.msb) (hs : s.lsb ≤ s.msb) :
    r.overlaps s = true ↔ ∃ whole k, r.HasBit whole k ∧ s.HasBit whole k := by
  simp only [overlaps, Bool.and_eq_true, Bool.not_eq_true', decide_eq_true_eq]
  constructor
  · rintro ⟨⟨⟨⟨present, present'⟩, same⟩, low⟩, high⟩
    refine ⟨s.name.parent, max r.lsb s.lsb, ⟨present, same, ?_⟩, present', rfl, ?_⟩ <;> omega
  · rintro ⟨_, k, ⟨present, same, low, high⟩, present', rfl, low', high'⟩
    refine ⟨⟨⟨⟨present, present'⟩, same⟩, ?_⟩, ?_⟩ <;> omega

end Register

inductive PendingCall (α : Type) where
  | push (reg : Register) (a : α)
  | pushSite (site : Site) (a : α)
  | claim (reg : Register)
  | claimSite (site : Site)
  | clear

namespace PendingCall

variable {α β : Type}

def isClaim : PendingCall α → Bool
  | claim _ | claimSite _ => true
  | _ => false

def value? : PendingCall α → Option α
  | push _ a | pushSite _ a => some a
  | _ => none

def Wants : PendingCall α → PendingCall α → Prop
  | claim reg, push r _ => r.overlaps reg = true
  | claimSite site, pushSite s _ => s = site
  | _, _ => False

def handOver (p : Pending α) : Option (Claim α) → Option α × Pending α
  | none => (none, p)
  | some c => (some c.value, c.rest)

def make (p : Pending α) : PendingCall α → Option α × Pending α
  | push reg a => (none, p.push reg a)
  | pushSite site a => (none, p.pushSite site a)
  | claim reg => handOver p (p.claim? reg)
  | claimSite site => handOver p (p.claimSite? site)
  | clear => (none, {})

section Runs

def after (calls : List (PendingCall α)) (n : Nat) : Pending α :=
  (calls.take n).foldl (fun p c => (c.make p).2) {}

def answer? (calls : List (PendingCall α)) (n : Nat) : Option α :=
  calls[n]?.bind fun c => (c.make (after calls n)).1

/-- The value that call `i` puts, if it puts one, is still there for call `n`, when the claims get
the values of the calls `source`. -/
def Waits (calls : List (PendingCall α)) (source : Nat → Option Nat) (n i : Nat) : Prop :=
  i < n ∧ ∀ m, i < m → m < n → calls[m]? ≠ some .clear ∧ source m ≠ some i

def Wanted (calls : List (PendingCall α)) (source : Nat → Option Nat) (n i : Nat) : Prop :=
  Waits calls source n i ∧ ∃ c put, calls[n]? = some c ∧ calls[i]? = some put ∧ c.Wants put

def stored? : PendingCall α → Option (Slot × α)
  | push reg a => if reg.isAbsent then none else some (.register reg, a)
  | pushSite site a => some (.site site, a)
  | _ => none

/-- How the calls are answered: call `n` gets the value of call `source n`. -/
structure Delivery (calls : List (PendingCall α)) (source : Nat → Option Nat) : Prop where
  newest : ∀ n i, source n = some i ↔ IsGreatest {i | Wanted calls source n i} i
  nothing : ∀ n, source n = none ↔ ∀ i, ¬Wanted calls source n i
  answer : ∀ n, answer? calls n = (source n).bind fun i => calls[i]?.bind value?
  once : ∀ m n i, source m = some i → source n = some i → m = n
  present : ∀ n i reg a, source n = some i → calls[i]? = some (.push reg a) → reg.isAbsent = false
  others : ∀ n i, source n = some i → ∃ newer e older, calls[i]?.bind stored? = some e ∧
    (after calls n).newestFirst = newer ++ e :: older ∧
    (after calls (n + 1)).newestFirst = newer ++ older
  untouched : ∀ n c, calls[n]? = some c → c.isClaim = true → source n = none →
    after calls (n + 1) = after calls n

variable {calls : List (PendingCall α)} {c : PendingCall α} {n : Nat}

theorem after_succ (hc : calls[n]? = some c) :
    after calls (n + 1) = (c.make (after calls n)).2 := by
  unfold after
  rw [List.take_add_one, hc, List.foldl_append]
  rfl

theorem after_succ_of_none (hc : calls[n]? = none) : after calls (n + 1) = after calls n := by
  unfold after
  rw [List.take_add_one, hc]
  simp

end Runs

section Relabel

variable (f : α → β)

def relabel : PendingCall α → PendingCall β
  | push reg a => push reg (f a)
  | pushSite site a => pushSite site (f a)
  | claim reg => claim reg
  | claimSite site => claimSite site
  | clear => clear

def relabelAll (p : Pending α) : Pending β := ⟨p.newestFirst.map (Prod.map id f)⟩

theorem takeFirst?_relabel (wanted : Slot → Bool) (es : List (Slot × α)) :
    Pending.takeFirst? wanted (es.map (Prod.map id f)) =
      (Pending.takeFirst? wanted es).map fun t => ⟨t.slot, f t.value, relabelAll f t.rest⟩ := by
  induction es with
  | nil => rfl
  | cons e es ih =>
    obtain ⟨slot, a⟩ := e
    cases hw : wanted slot with
    | true => simp [Pending.takeFirst?, hw, relabelAll]
    | false => simp [Pending.takeFirst?, hw, ih, relabelAll, Function.comp_def]

theorem handOver_relabel (p : Pending α) (t : Option (Claim α)) :
    handOver (relabelAll f p) (t.map fun t => ⟨t.slot, f t.value, relabelAll f t.rest⟩) =
      ((handOver p t).1.map f, relabelAll f (handOver p t).2) := by
  cases t <;> rfl

theorem make_relabel (c : PendingCall α) (p : Pending α) :
    (c.relabel f).make (relabelAll f p) = ((c.make p).1.map f, relabelAll f (c.make p).2) := by
  cases c with
  | push reg a =>
    cases absent : reg.isAbsent <;> simp [make, relabel, Pending.push, relabelAll, absent]
  | pushSite site a => rfl
  | claim reg =>
    exact (congrArg (handOver _) (takeFirst?_relabel f _ _)).trans (handOver_relabel f p _)
  | claimSite site =>
    exact (congrArg (handOver _) (takeFirst?_relabel f _ _)).trans (handOver_relabel f p _)
  | clear => rfl

theorem after_relabel (calls : List (PendingCall α)) (n : Nat) :
    after (calls.map (relabel f)) n = relabelAll f (after calls n) := by
  induction n with
  | zero => rfl
  | succ n ih =>
    cases hc : calls[n]? with
    | none => rw [after_succ_of_none hc, after_succ_of_none (by simp [hc]), ih]
    | some c => rw [after_succ hc, after_succ (c := c.relabel f) (by simp [hc]), ih, make_relabel]

theorem answer?_relabel (calls : List (PendingCall α)) (n : Nat) :
    answer? (calls.map (relabel f)) n = (answer? calls n).map f := by
  unfold answer?
  rw [List.getElem?_map, after_relabel]
  cases calls[n]? with
  | none => rfl
  | some c => exact congrArg Prod.fst (make_relabel f c _)

def numbered (calls : List (PendingCall α)) : List (PendingCall (Nat × α)) :=
  calls.mapIdx fun n c => c.relabel (Prod.mk n)

theorem numbered_relabel (calls : List (PendingCall α)) :
    (numbered calls).map (relabel Prod.snd) = calls := by
  apply List.ext_getElem?
  intro n
  simp only [numbered, List.getElem?_map, List.getElem?_mapIdx, Option.map_map]
  have same : ∀ c : PendingCall α, (relabel Prod.snd ∘ relabel (Prod.mk n)) c = c := by
    intro c
    cases c <;> rfl
  rw [funext same]
  exact Option.map_id'

end Relabel

section Sources

variable {calls : List (PendingCall α)} {source : Nat → Option Nat} {n i : Nat}

theorem waits_succ : Waits calls source (n + 1) i ↔
    i = n ∨ Waits calls source n i ∧ calls[n]? ≠ some .clear ∧ source n ≠ some i := by
  unfold Waits
  constructor
  · rintro ⟨hi, h⟩
    obtain rfl | lt := Nat.lt_succ_iff_lt_or_eq.mp hi |>.symm
    · exact .inl rfl
    · exact .inr ⟨⟨lt, fun m him hmn => h m him (by omega)⟩, h n lt (by omega)⟩
  · rintro (rfl | ⟨⟨lt, h⟩, last⟩)
    · exact ⟨by omega, fun m him hmn => by omega⟩
    · refine ⟨by omega, fun m him hmn => ?_⟩
      obtain rfl | earlier := Nat.lt_succ_iff_lt_or_eq.mp hmn |>.symm
      · exact last
      · exact h m him earlier

/-- What is pending before call `n` are the values that wait, newest first. This is what every call
keeps, whatever the claims get. -/
structure Tracks (calls : List (PendingCall α)) (source : Nat → Option Nat) (n : Nat)
    (p : Pending (Nat × α)) : Prop where
  falling : p.newestFirst.Pairwise fun e f => f.2.1 < e.2.1
  mem_iff : ∀ slot i a, (slot, i, a) ∈ p.newestFirst ↔
    calls[i]?.bind stored? = some (slot, a) ∧ Waits calls source n i

variable {p : Pending (Nat × α)} {c : PendingCall α}

theorem tracks_zero : Tracks calls source 0 {} where
  falling := .nil
  mem_iff := by simp [Waits]

theorem tracks_cleared (hc : calls[n]? = some .clear) : Tracks calls source (n + 1) {} where
  falling := .nil
  mem_iff slot i a := by
    rw [waits_succ]
    constructor
    · rintro ⟨⟩
    · rintro ⟨entry, rfl | ⟨_, kept, _⟩⟩
      · rw [hc] at entry
        cases entry
      · exact absurd hc kept

namespace Tracks

variable (h : Tracks calls source n p)

include h

theorem put {slot : Slot} {a : α} (hc : calls[n]?.bind stored? = some (slot, a))
    (hkeep : calls[n]? ≠ some .clear) (hs : source n = none) :
    Tracks calls source (n + 1) ⟨(slot, n, a) :: p.newestFirst⟩ where
  falling := by
    refine List.pairwise_cons.mpr ⟨?_, h.falling⟩
    rintro ⟨slot', i, a'⟩ he
    exact ((h.mem_iff slot' i a').mp he).2.1
  mem_iff slot' i a' := by
    rw [List.mem_cons, h.mem_iff, waits_succ]
    constructor
    · rintro (same | ⟨entry, waits⟩)
      · cases same
        exact ⟨hc, .inl rfl⟩
      · exact ⟨entry, .inr ⟨waits, hkeep, by simp [hs]⟩⟩
    · rintro ⟨entry, rfl | ⟨waits, _⟩⟩
      · rw [hc] at entry
        cases entry
        exact .inl rfl
      · exact .inr ⟨entry, waits⟩

theorem keep (hc : calls[n]?.bind stored? = none) (hkeep : calls[n]? ≠ some .clear)
    (hs : source n = none) : Tracks calls source (n + 1) p where
  falling := h.falling
  mem_iff slot i a := by
    rw [h.mem_iff, waits_succ]
    constructor
    · exact fun ⟨entry, waits⟩ => ⟨entry, .inr ⟨waits, hkeep, by simp [hs]⟩⟩
    · rintro ⟨entry, rfl | ⟨waits, _⟩⟩
      · rw [hc] at entry
        cases entry
      · exact ⟨entry, waits⟩

theorem take {wanted : Slot → Bool} {t : Claim (Nat × α)}
    (ht : Pending.takeFirst? wanted p.newestFirst = some t)
    (hc : calls[n]?.bind stored? = none) (hkeep : calls[n]? ≠ some .clear)
    (hs : source n = some t.value.1) : Tracks calls source (n + 1) t.rest := by
  obtain ⟨slot₀, ⟨i₀, a₀⟩, rest⟩ := t
  obtain ⟨newer, older, split, hrest, _⟩ := Pending.split_of_takeFirst? ht
  dsimp only at split hrest hs
  have falling := h.falling
  rw [split] at falling
  subst hrest
  -- Numbers fall, so no other entry has the number of the one that is taken.
  have apart : ∀ e ∈ newer ++ older, e.2.1 ≠ i₀ := by
    obtain ⟨_, below, above⟩ := List.pairwise_append.mp falling
    intro e he same
    obtain he | he := List.mem_append.mp he
    · exact (above e he _ List.mem_cons_self).ne' same
    · exact ((List.pairwise_cons.mp below).1 e he).ne same
  refine ⟨falling.sublist (by simp), fun slot i a => ?_⟩
  rw [waits_succ]
  constructor
  · intro he
    obtain ⟨entry, waits⟩ := (h.mem_iff slot i a).mp (Pending.mem_of_takeFirst? ht he)
    refine ⟨entry, .inr ⟨waits, hkeep, fun taken => ?_⟩⟩
    exact apart _ he (Option.some.inj (taken.symm.trans hs))
  · rintro ⟨entry, rfl | ⟨waits, _, left⟩⟩
    · rw [hc] at entry
      cases entry
    · have before := (h.mem_iff slot i a).mpr ⟨entry, waits⟩
      rw [split] at before
      obtain he | he := List.mem_append.mp before
      · exact List.mem_append_left _ he
      · obtain same | he := List.mem_cons.mp he
        · cases same
          exact absurd hs left
        · exact List.mem_append_right _ he

end Tracks

def wanted : PendingCall α → Slot → Bool
  | claim reg => Slot.overlaps reg
  | claimSite site => (· = .site site)
  | _ => fun _ => false

theorem wants_iff {put : PendingCall α} :
    c.Wants put ↔ ∃ slot a, put.stored? = some (slot, a) ∧ c.wanted slot = true := by
  cases put with
  | push r a =>
    cases absent : r.isAbsent <;> cases c <;>
      simp [Wants, wanted, stored?, Slot.overlaps, Register.overlaps, absent]
  | pushSite s a => cases c <;> simp [Wants, wanted, stored?, Slot.overlaps]
  | _ => cases c <;> simp [Wants, stored?]

theorem takeFirst?_of_isClaim_eq_false (hc : c.isClaim = false) (es : List (Slot × β)) :
    Pending.takeFirst? c.wanted es = none := by
  have nothing : c.wanted = fun _ => false := by
    cases c with
    | claim _ | claimSite _ => cases hc
    | _ => rfl
  rw [nothing]
  exact Pending.takeFirst?_eq_none.mpr fun _ _ => rfl

theorem isClaim_of_takeFirst? {es : List (Slot × β)} {t : Claim β}
    (ht : Pending.takeFirst? c.wanted es = some t) : c.isClaim = true := by
  by_contra hc
  rw [takeFirst?_of_isClaim_eq_false (eq_false_of_ne_true hc)] at ht
  cases ht

theorem Tracks.make (h : Tracks calls source n p) (hc : calls[n]? = some c)
    (hs : source n = (Pending.takeFirst? c.wanted p.newestFirst).map (·.value.1)) :
    Tracks calls source (n + 1) ((c.relabel (Prod.mk n)).make p).2 := by
  -- Both kinds of claims take the first entry that they want, if there is one.
  have claimed : ∀ hclaim : c.isClaim = true, Tracks calls source (n + 1)
      (handOver p (Pending.takeFirst? c.wanted p.newestFirst)).2 := by
    intro hclaim
    have hkeep : calls[n]? ≠ some .clear := by
      rw [hc]
      rintro ⟨⟩
      cases hclaim
    have empty : calls[n]?.bind stored? = none := by
      rw [hc]
      cases c with
      | claim _ | claimSite _ => rfl
      | _ => cases hclaim
    cases ht : Pending.takeFirst? c.wanted p.newestFirst with
    | none => exact h.keep empty hkeep (by rw [hs, ht]; rfl)
    | some t => exact h.take ht empty hkeep (by rw [hs, ht]; rfl)
  cases c with
  | claim reg => exact claimed rfl
  | claimSite site => exact claimed rfl
  | clear => exact tracks_cleared hc
  | pushSite site a =>
    rw [takeFirst?_of_isClaim_eq_false rfl] at hs
    exact h.put (by rw [hc]; rfl) (by simp [hc]) hs
  | push reg a =>
    rw [takeFirst?_of_isClaim_eq_false rfl] at hs
    cases absent : reg.isAbsent with
    | false =>
      simp only [relabel, make, Pending.push, absent]
      exact h.put (by simp [hc, stored?, absent]) (by simp [hc]) hs
    | true =>
      simp only [relabel, make, Pending.push, absent]
      exact h.keep (by simp [hc, stored?, absent]) (by simp [hc]) hs

theorem Tracks.wanted_iff (h : Tracks calls source n p) (hc : calls[n]? = some c) :
    Wanted calls source n i ↔ ∃ slot a, (slot, i, a) ∈ p.newestFirst ∧ c.wanted slot = true := by
  unfold Wanted
  constructor
  · rintro ⟨waits, c', put, hc', hput, wants⟩
    cases hc.symm.trans hc'
    obtain ⟨slot, a, entry, hslot⟩ := wants_iff.mp wants
    exact ⟨slot, a, (h.mem_iff slot i a).mpr ⟨by rw [hput]; exact entry, waits⟩, hslot⟩
  · rintro ⟨slot, a, mem, hslot⟩
    obtain ⟨entry, waits⟩ := (h.mem_iff slot i a).mp mem
    obtain ⟨put, hput, entry⟩ := Option.bind_eq_some_iff.mp entry
    exact ⟨waits, c, put, hc, hput, wants_iff.mpr ⟨slot, a, entry, hslot⟩⟩

theorem Tracks.isGreatest (h : Tracks calls source n p) (hc : calls[n]? = some c)
    {t : Claim (Nat × α)} (ht : Pending.takeFirst? c.wanted p.newestFirst = some t) :
    IsGreatest {i | Wanted calls source n i} t.value.1 := by
  obtain ⟨newer, older, split, _, hslot, unwanted⟩ := Pending.split_of_takeFirst? ht
  constructor
  · exact (h.wanted_iff hc).mpr ⟨t.slot, t.value.2, Pending.taken_mem ht, hslot⟩
  · intro j hj
    obtain ⟨slot, a, mem, hwanted⟩ := (h.wanted_iff hc).mp hj
    have falling := h.falling
    rw [split] at mem falling
    obtain he | he := List.mem_append.mp mem
    · have := unwanted _ he
      rw [hwanted] at this
      cases this
    · obtain same | he := List.mem_cons.mp he
      · have number : j = t.value.1 := congrArg (·.2.1) same
        exact number.le
      · have below := (List.pairwise_append.mp falling).2.1
        exact ((List.pairwise_cons.mp below).1 _ he).le

theorem Tracks.not_wanted (h : Tracks calls source n p) (hc : calls[n]? = some c)
    (ht : Pending.takeFirst? c.wanted p.newestFirst = none) (i : Nat) :
    ¬Wanted calls source n i := by
  intro hi
  obtain ⟨slot, a, mem, hwanted⟩ := (h.wanted_iff hc).mp hi
  have := Pending.takeFirst?_eq_none.mp ht _ mem
  rw [hwanted] at this
  cases this

end Sources

section Delivery

variable {calls : List (PendingCall α)} {c : PendingCall α} {n : Nat}

def taken? (calls : List (PendingCall α)) (n : Nat) : Option (Claim (Nat × α)) :=
  calls[n]?.bind fun c => Pending.takeFirst? c.wanted (after (numbered calls) n).newestFirst

def source? (calls : List (PendingCall α)) (n : Nat) : Option Nat :=
  (taken? calls n).map (·.value.1)

theorem taken?_eq (hc : calls[n]? = some c) :
    taken? calls n = Pending.takeFirst? c.wanted (after (numbered calls) n).newestFirst := by
  unfold taken?
  rw [hc, Option.bind_some]

theorem numbered_eq (calls : List (PendingCall α)) (n : Nat) :
    (numbered calls)[n]? = calls[n]?.map (relabel (Prod.mk n)) := by
  unfold numbered
  exact List.getElem?_mapIdx

theorem tracks_after (calls : List (PendingCall α)) (n : Nat) :
    Tracks calls (source? calls) n (after (numbered calls) n) := by
  induction n with
  | zero => exact tracks_zero
  | succ n ih =>
    have number := numbered_eq calls n
    cases hc : calls[n]? with
    | none =>
      rw [hc] at number
      rw [after_succ_of_none number]
      exact ih.keep (by rw [hc]; rfl) (by simp [hc]) (by simp [source?, taken?, hc])
    | some c =>
      rw [hc] at number
      rw [after_succ number]
      exact ih.make hc (by rw [source?, taken?_eq hc])

theorem after_eq (calls : List (PendingCall α)) (n : Nat) :
    after calls n = relabelAll Prod.snd (after (numbered calls) n) := by
  rw [← after_relabel, numbered_relabel]

theorem make_of_isClaim (hc : c.isClaim = true) (p : Pending α) :
    c.make p = handOver p (Pending.takeFirst? c.wanted p.newestFirst) := by
  cases c with
  | claim _ | claimSite _ => rfl
  | _ => cases hc

theorem make_fst (c : PendingCall α) (p : Pending α) :
    (c.make p).1 = (Pending.takeFirst? c.wanted p.newestFirst).map (·.value) := by
  cases hc : c.isClaim with
  | true =>
    rw [make_of_isClaim hc]
    cases Pending.takeFirst? c.wanted p.newestFirst <;> rfl
  | false =>
    rw [takeFirst?_of_isClaim_eq_false hc]
    cases c with
    | claim _ | claimSite _ => cases hc
    | _ => rfl

theorem wanted_relabel (f : α → β) (c : PendingCall α) : (c.relabel f).wanted = c.wanted := by
  cases c <;> rfl

theorem isClaim_relabel (f : α → β) (c : PendingCall α) : (c.relabel f).isClaim = c.isClaim := by
  cases c <;> rfl

theorem answer?_eq_taken? (calls : List (PendingCall α)) (n : Nat) :
    answer? calls n = (taken? calls n).map (·.value.2) := by
  conv_lhs => rw [← numbered_relabel calls]
  rw [answer?_relabel]
  unfold answer? taken?
  rw [numbered_eq]
  cases calls[n]? with
  | none => rfl
  | some c =>
    simp only [Option.map_some, Option.bind_some, make_fst, wanted_relabel, Option.map_map]
    rfl

theorem after_succ_of_isClaim (hc : calls[n]? = some c) (hclaim : c.isClaim = true) :
    after (numbered calls) (n + 1) = (handOver (after (numbered calls) n) (taken? calls n)).2 := by
  have number := numbered_eq calls n
  rw [hc] at number
  rw [after_succ number, make_of_isClaim (by rw [isClaim_relabel, hclaim]), wanted_relabel,
    taken?_eq hc]

variable {t : Claim (Nat × α)}

theorem source?_eq_some (ht : taken? calls n = some t) : source? calls n = some t.value.1 := by
  unfold source?
  rw [ht, Option.map_some]

theorem source?_eq_none (ht : taken? calls n = none) : source? calls n = none := by
  unfold source?
  rw [ht, Option.map_none]

theorem isGreatest_of_taken? (ht : taken? calls n = some t) :
    IsGreatest {i | Wanted calls (source? calls) n i} t.value.1 := by
  obtain ⟨c, hc, ht⟩ := Option.bind_eq_some_iff.mp ht
  exact (tracks_after calls n).isGreatest hc ht

theorem not_wanted_of_taken? (ht : taken? calls n = none) (i : Nat) :
    ¬Wanted calls (source? calls) n i := by
  intro hi
  obtain ⟨_, c, _, hc, _⟩ := id hi
  rw [taken?_eq hc] at ht
  exact (tracks_after calls n).not_wanted hc ht i hi

theorem taken?_stored (ht : taken? calls n = some t) :
    calls[t.value.1]?.bind stored? = some (t.slot, t.value.2) := by
  obtain ⟨c, hc, ht⟩ := Option.bind_eq_some_iff.mp ht
  exact ((tracks_after calls n).mem_iff _ _ _).mp (Pending.taken_mem ht) |>.1

theorem exists_taken? {i : Nat} (hs : source? calls n = some i) :
    ∃ t, taken? calls n = some t ∧ t.value.1 = i := Option.map_eq_some_iff.mp hs

theorem waits_of_source? {i : Nat} (hs : source? calls n = some i) :
    Waits calls (source? calls) n i := by
  obtain ⟨t, ht, rfl⟩ := exists_taken? hs
  exact (isGreatest_of_taken? ht).1.1

theorem not_lt_of_source? {m i : Nat} (hm : source? calls m = some i)
    (hn : source? calls n = some i) : ¬m < n := fun lt =>
  ((waits_of_source? hn).2 m (waits_of_source? hm).1 lt).2 hm

theorem value?_of_stored? {slot : Slot} {a : α} (h : c.stored? = some (slot, a)) :
    c.value? = some a := by
  cases c with
  | push reg b =>
    simp only [stored?, Option.ite_none_left_eq_some, Option.some.injEq, Prod.mk.injEq] at h
    exact congrArg some h.2.2
  | pushSite site b =>
    cases h
    rfl
  | _ => cases h

theorem source?_eq_some_iff (n i : Nat) :
    source? calls n = some i ↔ IsGreatest {i | Wanted calls (source? calls) n i} i := by
  cases ht : taken? calls n with
  | none =>
    rw [source?_eq_none ht]
    exact ⟨nofun, fun greatest => absurd greatest.1 (not_wanted_of_taken? ht i)⟩
  | some t =>
    have greatest := isGreatest_of_taken? ht
    rw [source?_eq_some ht, Option.some.injEq]
    exact ⟨fun same => same ▸ greatest, fun other => greatest.unique other⟩

theorem source?_eq_none_iff (n : Nat) :
    source? calls n = none ↔ ∀ i, ¬Wanted calls (source? calls) n i := by
  cases ht : taken? calls n with
  | none => exact ⟨fun _ => not_wanted_of_taken? ht, fun _ => source?_eq_none ht⟩
  | some t =>
    rw [source?_eq_some ht]
    exact ⟨nofun, fun none => absurd (isGreatest_of_taken? ht).1 (none _)⟩

theorem answer?_eq_value? (n : Nat) :
    answer? calls n = (source? calls n).bind fun i => calls[i]?.bind value? := by
  rw [answer?_eq_taken?]
  cases ht : taken? calls n with
  | none =>
    rw [source?_eq_none ht]
    rfl
  | some t =>
    obtain ⟨put, hput, entry⟩ := Option.bind_eq_some_iff.mp (taken?_stored ht)
    rw [source?_eq_some ht, Option.map_some, Option.bind_some, hput, Option.bind_some,
      value?_of_stored? entry]

theorem isAbsent_of_source? {i : Nat} {reg : Register} {a : α} (hs : source? calls n = some i)
    (hput : calls[i]? = some (.push reg a)) : reg.isAbsent = false := by
  obtain ⟨t, ht, rfl⟩ := exists_taken? hs
  have entry := taken?_stored ht
  rw [hput] at entry
  simp only [Option.bind_some, stored?, Option.ite_none_left_eq_some] at entry
  simpa using entry.1

theorem after_succ_of_source? {i : Nat} (hs : source? calls n = some i) :
    ∃ newer e older, calls[i]?.bind stored? = some e ∧
      (after calls n).newestFirst = newer ++ e :: older ∧
      (after calls (n + 1)).newestFirst = newer ++ older := by
  obtain ⟨t, ht, rfl⟩ := exists_taken? hs
  obtain ⟨c, hc, hfirst⟩ := Option.bind_eq_some_iff.mp ht
  obtain ⟨newer, older, split, rest, _⟩ := Pending.split_of_takeFirst? hfirst
  have next := after_succ_of_isClaim hc (isClaim_of_takeFirst? hfirst)
  rw [ht, handOver, rest] at next
  refine ⟨newer.map (Prod.map id Prod.snd), _, older.map (Prod.map id Prod.snd), taken?_stored ht,
    ?_, ?_⟩
  · rw [after_eq, relabelAll, split]
    exact List.map_append
  · rw [after_eq, next, relabelAll]
    exact List.map_append

theorem after_succ_of_source?_eq_none (hc : calls[n]? = some c) (hclaim : c.isClaim = true)
    (hs : source? calls n = none) : after calls (n + 1) = after calls n := by
  have next := after_succ_of_isClaim hc hclaim
  rw [Option.map_eq_none_iff.mp hs, handOver] at next
  rw [after_eq calls (n + 1), after_eq calls n, next]

/-- Every claim gets the newest value that it wants of those that wait, each value once, and takes
nothing else away. What a claim wants are the values of registers with a bit in common. -/
theorem handed_over_once (calls : List (PendingCall α)) :
    (∃ source, Delivery calls source) ∧ ∀ r s : Register, r.lsb ≤ r.msb → s.lsb ≤ s.msb →
      (r.overlaps s = true ↔ ∃ whole k, r.HasBit whole k ∧ s.HasBit whole k) := by
  refine ⟨⟨source? calls, ?_⟩, fun r s => Register.overlaps_iff_hasBit⟩
  exact
    { newest := source?_eq_some_iff
      nothing := source?_eq_none_iff
      answer := answer?_eq_value?
      once := fun m n i hm hn =>
        Nat.le_antisymm (not_lt.mp (not_lt_of_source? hn hm)) (not_lt.mp (not_lt_of_source? hm hn))
      present := fun _ _ _ _ => isAbsent_of_source?
      others := fun _ _ => after_succ_of_source?
      untouched := fun _ _ => after_succ_of_source?_eq_none }

example :
    let whole : Register := ⟨.listed 0, 0, 63⟩
    let low : Register := ⟨.listed 0, 0, 7⟩
    let second : Register := ⟨.listed 0, 8, 15⟩
    (List.range 6).map (answer? [.push whole 'a', .push second 'b', .push whole 'c', .claim low,
      .claim low, .claim whole]) = [none, none, none, some 'c', some 'a', some 'b'] := by
  decide

end Delivery

end PendingCall

end AddressFormulas
