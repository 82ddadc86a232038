import AddressFormulas.Pending
import AddressFormulas.Proofs.Machine.Run
import AddressFormulas.Proofs.Walk.Rules
import Mathlib.Data.List.Basic

namespace AddressFormulas.Pending

variable {α : Type} {wanted wanted' : Slot → Bool} {es : List (Slot × α)} {c c' : Claim α}

theorem split_of_takeFirst? (h : takeFirst? wanted es = some c) :
    ∃ before after, es = before ++ (c.slot, c.value) :: after ∧ c.rest = ⟨before ++ after⟩ ∧
      wanted c.slot = true ∧ ∀ e ∈ before, wanted e.1 = false := by
  induction es generalizing c with
  | nil => cases h
  | cons e es ih =>
    unfold takeFirst? at h
    split at h
    · next hw =>
      cases h
      exact ⟨[], es, rfl, rfl, hw, nofun⟩
    · next hw =>
      obtain ⟨c, hc, rfl⟩ := Option.map_eq_some_iff.mp h
      obtain ⟨before, after, rfl, hrest, hslot, hbefore⟩ := ih hc
      refine ⟨e :: before, after, rfl, ?_, hslot, ?_⟩
      · rw [hrest]
        rfl
      · exact List.forall_mem_cons.mpr ⟨eq_false_of_ne_true hw, hbefore⟩

theorem mem_of_takeFirst? (h : takeFirst? wanted es = some c) {e : Slot × α}
    (he : e ∈ c.rest.newestFirst) : e ∈ es := by
  obtain ⟨before, after, rfl, hrest, _, _⟩ := split_of_takeFirst? h
  rw [hrest] at he
  obtain he | he := List.mem_append.mp he
  · exact List.mem_append_left _ he
  · exact List.mem_append_right _ (List.mem_cons_of_mem _ he)

theorem taken_mem (h : takeFirst? wanted es = some c) : (c.slot, c.value) ∈ es := by
  obtain ⟨before, after, rfl, _⟩ := split_of_takeFirst? h
  exact List.mem_append_right _ List.mem_cons_self

theorem takeFirst?_eq_none : takeFirst? wanted es = none ↔ ∀ e ∈ es, wanted e.1 = false := by
  induction es with
  | nil => exact ⟨fun _ => nofun, fun _ => rfl⟩
  | cons e es ih =>
    rw [List.forall_mem_cons]
    unfold takeFirst?
    split
    · next hw => simp [hw]
    · next hw => simp [hw, ih]

theorem takeFirst?_comm (hd : ∀ slot, wanted slot = true → wanted' slot = false)
    (h : takeFirst? wanted es = some c) (h' : takeFirst? wanted' es = some c') :
    ∃ rest, takeFirst? wanted' c.rest.newestFirst = some ⟨c'.slot, c'.value, rest⟩ ∧
      takeFirst? wanted c'.rest.newestFirst = some ⟨c.slot, c.value, rest⟩ := by
  induction es generalizing c c' with
  | nil => cases h
  | cons e es ih =>
    obtain ⟨slot, a⟩ := e
    unfold takeFirst? at h h'
    -- the first entry is wanted by one, by the other or by neither of them
    by_cases hw : wanted slot = true
    · rw [if_pos hw] at h
      rw [if_neg (by simp [hd slot hw])] at h'
      cases h
      obtain ⟨c', hc', rfl⟩ := Option.map_eq_some_iff.mp h'
      refine ⟨c'.rest, hc', ?_⟩
      unfold takeFirst?
      rw [if_pos hw]
    · rw [if_neg hw] at h
      obtain ⟨c, hc, rfl⟩ := Option.map_eq_some_iff.mp h
      by_cases hw' : wanted' slot = true
      · rw [if_pos hw'] at h'
        cases h'
        refine ⟨c.rest, ?_, hc⟩
        unfold takeFirst?
        rw [if_pos hw']
      · rw [if_neg hw'] at h'
        obtain ⟨c', hc', rfl⟩ := Option.map_eq_some_iff.mp h'
        obtain ⟨rest, first, second⟩ := ih hc hc'
        refine ⟨⟨(slot, a) :: rest.newestFirst⟩, ?_, ?_⟩
        · unfold takeFirst?
          rw [if_neg hw', first]
          rfl
        · unfold takeFirst?
          rw [if_neg hw, second]
          rfl

theorem claim?_comm {p : Pending α} {r r' : Register}
    (hd : ∀ slot, Slot.overlaps r slot = true → Slot.overlaps r' slot = false)
    (h : p.claim? r = some c) (h' : p.claim? r' = some c') :
    ∃ rest, c.rest.claim? r' = some ⟨c'.slot, c'.value, rest⟩ ∧
      c'.rest.claim? r = some ⟨c.slot, c.value, rest⟩ :=
  takeFirst?_comm hd h h'

theorem claim?_rest_eq_none {p : Pending α} {r r' : Register} (h : p.claim? r = some c)
    (h' : p.claim? r' = none) : c.rest.claim? r' = none := by
  apply takeFirst?_eq_none.mpr
  exact fun e he => takeFirst?_eq_none.mp h' e (mem_of_takeFirst? h he)

end AddressFormulas.Pending

namespace AddressFormulas.WalkM

variable {σ α : Type} {values : σ → Pending α} {setValues : Pending α → σ → σ} {w : Walk σ} {r : Register}
  {Q : Option α → Walk σ → Prop} {E : Stop → Walk σ → Prop}

theorem wp_claim_some {c : Claim α} (hc : (values w.client).claim? r = some c)
    (hq : ∀ told, Q (some c.value)
      { w with client := setValues c.rest w.client, journal := told ++ w.journal }) :
    wp (claim values setValues r) Q E w := by
  apply wp_bind.mpr
  simp only [wp_client, hc]
  apply wp_bind.mpr
  apply wp_bind.mpr
  apply (wp_tellAll _).mpr
  exact hq _

theorem wp_claim_none (hc : (values w.client).claim? r = none) (hq : Q none w) :
    wp (claim values setValues r) Q E w := by
  apply wp_bind.mpr
  simp only [wp_client, hc]
  exact hq

end AddressFormulas.WalkM
