import AddressFormulas.Proofs.Walk.Rules
import Mathlib.Data.List.Forall2
import Mathlib.Data.Option.Basic
import Mathlib.Order.Basic

/-!
Two runs side by side until the first one tells something that spoils the comparison. The second run
follows the first one if both, begun in states that have something in common, come to the same end.
What is told stays in the journal, so that a journal without such an event at the end of a run never
had one.
-/

namespace AddressFormulas

variable {S σ α β τ : Type}

structure Comparison (S : Type) where
  journal : S → Journal
  spoils : Event → Prop
  Beside : S → S → Prop

namespace Comparison

variable (C : Comparison S)

def Clean (s : S) : Prop := ∀ e ∈ C.journal s, ¬C.spoils e

/-- Whatever happens, `m` takes nothing out of the journal that spoils the comparison. -/
def Keeps (m : EStateM Stop S α) : Prop :=
  ∀ s, wp m (fun _ t => C.Clean t → C.Clean s) (fun _ t => C.Clean t → C.Clean s) s

variable {C}

theorem Keeps.bind {m : EStateM Stop S α} {f : α → EStateM Stop S β} (hm : C.Keeps m)
    (hf : ∀ a, C.Keeps (f a)) : C.Keeps (m >>= f) := by
  intro s
  apply wp_bind.mpr
  apply wp_mono (hm s)
  · intro a t ht
    exact wp_mono (hf a t) (fun _ _ hu clean => ht (hu clean)) fun _ _ hu clean => ht (hu clean)
  · exact fun _ _ ht => ht

end Comparison

/-- From the two states, `m'` comes to the same end as `m`, with answers that `V` relates, unless `m`
spoils the comparison. -/
abbrev FollowsAt (C : Comparison S) (V : α → α → Prop) (m m' : EStateM Stop S α) (s s' : S) : Prop :=
  wp m (fun a t => C.Clean t → wp m' (fun a' t' => V a a' ∧ C.Beside t t') (fun _ _ => False) s')
    (fun stop t => C.Clean t →
      wp m' (fun _ _ => False) (fun stop' t' => stop' = stop ∧ C.Beside t t') s') s

structure Follows (C : Comparison S) (live : Prop) (V : α → α → Prop) (m m' : EStateM Stop S α) :
    Prop where
  keeps : C.Keeps m
  ends : live → ∀ s s', C.Beside s s' → FollowsAt C V m m' s s'

namespace Follows

variable {C : Comparison S} {live live' : Prop} {V V' : α → α → Prop} {W : β → β → Prop}
  {m m' n n' : EStateM Stop S α} {f f' : α → EStateM Stop S β}

theorem keeps_of (h : Follows C False V m m') : C.Keeps m := h.keeps

theorem weaken (h : Follows C live V m m') (hl : live' → live) : Follows C live' V m m' :=
  ⟨h.keeps, fun l => h.ends (hl l)⟩

theorem mono (h : Follows C live V m m') (hV : ∀ a a', V a a' → V' a a') : Follows C live V' m m' := by
  constructor
  · exact h.keeps
  · intro l s s' hs
    apply wp_mono (h.ends l s s' hs)
    · intro a t ends clean
      exact wp_imp (ends clean) fun a' t' ⟨v, ht⟩ => ⟨hV a a' v, ht⟩
    · exact fun _ _ ends => ends

theorem bind_at {s s' : S} (h : FollowsAt C V m m' s s') (hk : ∀ a, C.Keeps (f a))
    (hf : ∀ a a', V a a' → ∀ t t', C.Beside t t' → FollowsAt C W (f a) (f' a') t t') :
    FollowsAt C W (m >>= f) (m' >>= f') s s' := by
  apply wp_bind.mpr
  apply wp_mono h
  · intro a t ends
    by_cases clean : C.Clean t
    · obtain ⟨a', t', run, v, ht⟩ := run_of_ends (ends clean)
      have joined : (m' >>= f') s' = f' a' t' := run_bind run
      have next := hf a a' v t t' ht
      unfold FollowsAt at next
      unfold wp at next ⊢
      rw [joined]
      exact next
    · apply wp_mono (hk a t)
      · exact fun _ _ hu cleanU => absurd (hu cleanU) clean
      · exact fun _ _ hu cleanU => absurd (hu cleanU) clean
  · intro stop t ends clean
    exact wp_bind.mpr (wp_mono (ends clean) (fun _ _ h => h.elim) fun _ _ h => h)

theorem bind_of (h : Follows C live V m m') (hk : ∀ a, C.Keeps (f a))
    (hf : live → ∀ a a', V a a' → Follows C True W (f a) (f' a')) :
    Follows C live W (m >>= f) (m' >>= f') := by
  constructor
  · exact h.keeps.bind hk
  · intro l s s' hs
    apply bind_at (h.ends l s s' hs) hk
    exact fun a a' v => (hf l a a' v).ends trivial

theorem bind (h : Follows C live V m m')
    (hf : ∀ {live'}, (live' → live) → ∀ a a', (live' → V a a') → Follows C live' W (f a) (f' a')) :
    Follows C live W (m >>= f) (m' >>= f') := by
  apply h.bind_of
  · exact fun a => (hf False.elim a a False.elim).keeps
  · exact fun l a a' v => hf (fun _ => l) a a' fun _ => v

theorem bind_known {Q : α → Prop} (h : Follows C live (fun a a' => a' = a ∧ Q a) m m')
    (hf : ∀ {live'}, (live' → live) → ∀ a, (live' → Q a) → Follows C live' W (f a) (f' a)) :
    Follows C live W (m >>= f) (m' >>= f') := by
  apply h.bind
  intro live' hl a a' ha
  have next := hf hl a fun l => (ha l).2
  constructor
  · exact next.keeps
  · intro l
    rw [(ha l).1]
    exact next.ends l

theorem bind_eq (h : Follows C live Eq m m') (hf : ∀ a, Follows C live W (f a) (f' a)) :
    Follows C live W (m >>= f) (m' >>= f') := by
  apply h.bind_of
  · exact fun a => (hf a).keeps
  · rintro l a _ rfl
    exact (hf a).weaken fun _ => l

theorem ok {a a' : α} (h : live → V a a') :
    Follows C live V (pure a : EStateM Stop S α) (pure a') := by
  constructor
  · exact fun _ clean => clean
  · exact fun l _ _ hs _ => ⟨h l, hs⟩

theorem stop (e : Stop) : Follows C live V (throw e : EStateM Stop S α) (throw e) := by
  constructor
  · exact fun _ clean => clean
  · exact fun _ _ _ hs _ => ⟨rfl, hs⟩

theorem read {W : S → S → Prop} (h : ∀ s s', C.Beside s s' → W s s') :
    Follows C live W (get : EStateM Stop S S) get := by
  constructor
  · exact fun _ clean => clean
  · exact fun _ s s' hs _ => ⟨h s s' hs, hs⟩

theorem read_bind {f f' : S → EStateM Stop S β}
    (hf : ∀ {live'}, (live' → live) → ∀ s s', (live' → C.Beside s s') →
      Follows C live' W (f s) (f' s')) : Follows C live W (get >>= f) (get >>= f') :=
  (read fun _ _ hs => hs).bind hf

theorem change {g g' : S → S} (hj : ∀ s, C.Clean (g s) → C.Clean s)
    (hb : live → ∀ s s', C.Beside s s' → C.Beside (g s) (g' s')) :
    Follows C live Eq (modify g : EStateM Stop S Unit) (modify g') := by
  constructor
  · exact hj
  · exact fun l s s' hs _ => ⟨rfl, hb l s s' hs⟩

section Cases

variable {x x' : τ}

theorem same (hx : live → x' = x) (p' : τ → EStateM Stop S α) (h : Follows C live V m (p' x)) :
    Follows C live V m (p' x') := by
  constructor
  · exact h.keeps
  · intro l
    rw [hx l]
    exact h.ends l

theorem option {P : τ → τ → Prop} {x x' : Option τ} (hx : live → Option.Rel P x x')
    (p p' : Option τ → EStateM Stop S α) (hn : Follows C live V (p none) (p' none))
    (hs : ∀ {live'}, (live' → live) → ∀ a a', (live' → P a a') →
      Follows C live' V (p (some a)) (p' (some a'))) : Follows C live V (p x) (p' x') := by
  constructor
  · cases x with
    | none => exact hn.keeps
    | some a => exact (hs False.elim a a False.elim).keeps
  · intro l
    cases hx l with
    | none => exact hn.ends l
    | some h => exact (hs (fun _ => l) _ _ fun _ => h).ends trivial

theorem ite {c c' : Prop} [Decidable c] [Decidable c'] (hc : live → (c' ↔ c))
    (ht : Follows C live V m m') (hf : Follows C live V n n') :
    Follows C live V (if c then m else n) (if c' then m' else n') := by
  constructor
  · split
    · exact ht.keeps
    · exact hf.keeps
  · intro l
    simp only [hc l]
    split
    · exact ht.ends l
    · exact hf.ends l

end Cases

theorem run_ok (h : Follows C True V m m') {s s' t : S} (hs : C.Beside s s') {a : α}
    (run : m.run s = .ok a t) (clean : C.Clean t) :
    ∃ a' t', m'.run s' = .ok a' t' ∧ V a a' ∧ C.Beside t t' :=
  run_of_ends (wp_ok (h.ends trivial s s' hs) run clean)

theorem run_error (h : Follows C True V m m') {s s' t : S} (hs : C.Beside s s') {e : Stop}
    (run : m.run s = .error e t) (clean : C.Clean t) :
    ∃ t', m'.run s' = .error e t' ∧ C.Beside t t' := by
  obtain ⟨_, t', run', rfl, ht⟩ := run_of_stops (wp_error (h.ends trivial s s' hs) run clean)
  exact ⟨t', run', ht⟩

end Follows

def Comparison.walks (spoils : Event → Prop) (Alike : σ → σ → Prop) : Comparison (Walk σ) where
  journal := Walk.journal
  spoils
  Beside w w' := Alike w.client w'.client ∧ w'.bounds = w.bounds ∧ w.bounds.stop = 0

namespace WalkM

open Comparison

variable {spoils : Event → Prop} {Alike : σ → σ → Prop} {live : Prop} {W : β → β → Prop}

abbrev FollowedBy (spoils : Event → Prop) (Alike : σ → σ → Prop) (live : Prop) (V : α → α → Prop)
    (m m' : WalkM σ α) : Prop :=
  Follows (walks spoils Alike) live V m m'

namespace FollowedBy

theorem tell (e e' : Event) :
    FollowedBy spoils Alike live Eq (WalkM.tell e : WalkM σ Unit) (WalkM.tell e') := by
  apply Follows.change
  · exact fun w clean a ha => clean a (List.mem_cons_of_mem e ha)
  · exact fun _ _ _ hw => hw

theorem told (es : List Event) (m' : WalkM σ Unit)
    (h : FollowedBy spoils Alike live Eq (pure () : WalkM σ Unit) m') :
    FollowedBy spoils Alike live Eq (WalkM.tellAll es) m' := by
  constructor
  · intro w
    apply (wp_tellAll _).mpr
    exact fun clean a ha => clean a (List.mem_append_right _ ha)
  · intro l w w' hw
    apply (wp_tellAll _).mpr
    intro clean
    exact h.ends l w w' hw fun a ha => clean a (List.mem_append_right _ ha)

theorem tellAll (es es' : List Event) :
    FollowedBy spoils Alike live Eq (WalkM.tellAll es : WalkM σ Unit) (WalkM.tellAll es') := by
  apply told
  constructor
  · exact fun _ clean => clean
  · intro l w w' hw _
    exact (wp_tellAll _).mpr ⟨rfl, hw⟩

theorem classify {u u' : MicroOp} (h : u'.effect = u.effect) :
    FollowedBy spoils Alike live Eq (WalkM.classify u : WalkM σ Effect) (WalkM.classify u') := by
  apply (tellAll _ _).bind_eq
  intro _
  exact .ok fun _ => h.symm

theorem client_bind {f f' : σ → WalkM σ β}
    (hf : ∀ {live'}, (live' → live) → ∀ st st', (live' → Alike st st') →
      FollowedBy spoils Alike live' W (f st) (f' st')) :
    FollowedBy spoils Alike live W (WalkM.client >>= f) (WalkM.client >>= f') :=
  .read_bind fun hl w w' hw => hf hl w.client w'.client fun l => (hw l).1

theorem client_bind_at {f f' : σ → WalkM σ β} {w w' : Walk σ}
    (h : FollowsAt (walks spoils Alike) W (f w.client) (f' w'.client) w w') :
    FollowsAt (walks spoils Alike) W (WalkM.client >>= f) (WalkM.client >>= f') w w' := h

theorem modifyClient_bind_at {g g' : σ → σ} {m m' : WalkM σ β} {w w' : Walk σ}
    (h : FollowsAt (walks spoils Alike) W m m' { w with client := g w.client }
      { w' with client := g' w'.client }) :
    FollowsAt (walks spoils Alike) W (WalkM.modifyClient g >>= fun _ => m)
      (WalkM.modifyClient g' >>= fun _ => m') w w' := h

theorem modifyClient {g g' : σ → σ} (h : live → ∀ st st', Alike st st' → Alike (g st) (g' st')) :
    FollowedBy spoils Alike live Eq (WalkM.modifyClient g : WalkM σ Unit) (WalkM.modifyClient g') := by
  apply Follows.change
  · exact fun _ clean => clean
  · exact fun l w w' hw => ⟨h l _ _ hw.1, hw.2⟩

theorem keeps_of_updates {m : WalkM σ Unit} {g : σ → σ} (hm : Updates m g) :
    (walks spoils Alike).Keeps m :=
  fun _ => hm.wp fun told _ clean e he => clean e (List.mem_append_right told he)

theorem of_updates {m m' : WalkM σ Unit} {g g' : σ → σ} (hm : Updates m g) (hm' : Updates m' g')
    (h : live → ∀ st st', Alike st st' → Alike (g st) (g' st')) :
    FollowedBy spoils Alike live Eq m m' := by
  constructor
  · exact keeps_of_updates hm
  · intro l w w' hw
    exact hm.wp fun _ _ _ => hm'.wp fun _ _ => ⟨rfl, h l _ _ hw.1, hw.2⟩

theorem fail (f : Failure) {V : α → α → Prop} :
    FollowedBy spoils Alike live V (WalkM.fail f : WalkM σ α) (WalkM.fail f) :=
  .stop _

theorem report (strict : Bool) (f : Failure) :
    FollowedBy spoils Alike live Eq (WalkM.report strict f : WalkM σ Unit) (WalkM.report strict f) := by
  apply (tell _ _).bind_eq
  intro _
  split
  · exact fail f
  · exact .ok fun _ => rfl

theorem require_bind {P : τ → τ → Prop} {a? a'? : Option τ} {f f' : τ → WalkM σ β}
    (h : Option.Rel P a? a'?)
    (hf : ∀ a a', a? = some a → P a a' → FollowedBy spoils Alike live W (f a) (f' a')) :
    FollowedBy spoils Alike live W (WalkM.require a? >>= f) (WalkM.require a'? >>= f') := by
  cases h with
  | none => exact .stop _
  | some h => exact hf _ _ rfl h

theorem require_same {a? : Option τ} {f f' : τ → WalkM σ β}
    (hf : ∀ a, a? = some a → FollowedBy spoils Alike live W (f a) (f' a)) :
    FollowedBy spoils Alike live W (WalkM.require a? >>= f) (WalkM.require a? >>= f') := by
  cases a? with
  | none => exact .stop _
  | some a => exact hf a rfl

end FollowedBy

end WalkM

def Pending.Alike (P : Slot → α → α → Prop) (p p' : Pending α) : Prop :=
  List.Forall₂ (fun e e' => e'.1 = e.1 ∧ P e.1 e.2 e'.2) p.newestFirst p'.newestFirst

namespace Pending.Alike

variable {P : Slot → α → α → Prop} {p p' : Pending α}

theorem empty : Alike P {} {} := List.Forall₂.nil

theorem push (h : Alike P p p') (reg : Register) {v v' : α} (hv : P (.register reg) v v') :
    Alike P (p.push reg v) (p'.push reg v') := by
  unfold Pending.push
  split
  · exact h
  · exact List.Forall₂.cons ⟨rfl, hv⟩ h

theorem pushSite (h : Alike P p p') (site : Site) {v v' : α} (hv : P (.site site) v v') :
    Alike P (p.pushSite site v) (p'.pushSite site v') :=
  List.Forall₂.cons ⟨rfl, hv⟩ h

theorem eq_iff {Q : Slot → α → Prop} :
    Alike (fun slot v v' => v' = v ∧ Q slot v) p p' ↔ p' = p ∧ ∀ e ∈ p.newestFirst, Q e.1 e.2 := by
  have lists : ∀ es es' : List (Slot × α),
      List.Forall₂ (fun e e' => e'.1 = e.1 ∧ e'.2 = e.2 ∧ Q e.1 e.2) es es' ↔
        es' = es ∧ ∀ e ∈ es, Q e.1 e.2 := by
    intro es es'
    constructor
    · intro h
      induction h with
      | nil => exact ⟨rfl, nofun⟩
      | @cons e e' es es' he _ ih =>
        obtain ⟨hslot, hvalue, hq⟩ := he
        obtain ⟨rfl, all⟩ := ih
        exact ⟨congrArg (· :: es') (Prod.ext hslot hvalue), List.forall_mem_cons.mpr ⟨hq, all⟩⟩
    · rintro ⟨rfl, all⟩
      exact List.forall₂_same.mpr fun e he => ⟨rfl, rfl, all e he⟩
  obtain ⟨es⟩ := p
  obtain ⟨es'⟩ := p'
  rw [Pending.mk.injEq]
  exact lists es es'

theorem takeFirst? (wanted : Slot → Bool) {es es' : List (Slot × α)}
    (h : List.Forall₂ (fun e e' => e'.1 = e.1 ∧ P e.1 e.2 e'.2) es es') :
    Option.Rel (fun c c' => (∃ slot, wanted slot = true ∧ P slot c.value c'.value) ∧
      Alike P c.rest c'.rest) (takeFirst? wanted es) (takeFirst? wanted es') := by
  induction h with
  | nil => exact .none
  | @cons e e' es es' he hes ih =>
    obtain ⟨slot, v⟩ := e
    obtain ⟨_, v'⟩ := e'
    obtain ⟨rfl, hv⟩ := he
    unfold Pending.takeFirst?
    split
    · next hw => exact .some ⟨⟨_, hw, hv⟩, hes⟩
    · generalize Pending.takeFirst? wanted es = c?, Pending.takeFirst? wanted es' = c'? at ih ⊢
      cases ih with
      | none => exact .none
      | some h => exact .some ⟨h.1, List.Forall₂.cons ⟨rfl, hv⟩ h.2⟩

theorem claim?_eq_some {reg : Register} {c : Claim α} (h : Alike P p p') (hc : p.claim? reg = some c) :
    ∃ c', p'.claim? reg = some c' ∧ (∃ slot, Slot.overlaps reg slot = true ∧ P slot c.value c'.value) ∧
      Alike P c.rest c'.rest := by
  have claims := takeFirst? (Slot.overlaps reg) h
  unfold Pending.claim? at hc ⊢
  rw [hc] at claims
  generalize Pending.takeFirst? (Slot.overlaps reg) p'.newestFirst = c'? at claims ⊢
  cases claims with
  | some alike => exact ⟨_, rfl, alike⟩

end Pending.Alike

theorem WalkM.FollowedBy.claim {spoils : Event → Prop} {Alike : σ → σ → Prop} {live : Prop}
    {P : Slot → α → α → Prop} {values : σ → Pending α} {setValues : Pending α → σ → σ}
    (hv : ∀ st st', Alike st st' → Pending.Alike P (values st) (values st'))
    (hset : ∀ st st' p p', Alike st st' → Pending.Alike P p p' →
      Alike (setValues p st) (setValues p' st')) (reg : Register) :
    FollowedBy spoils Alike live
      (Option.Rel fun v v' => ∃ slot, Slot.overlaps reg slot = true ∧ P slot v v')
      (WalkM.claim values setValues reg) (WalkM.claim values setValues reg) := by
  apply client_bind
  intro live' _ st st' hst
  have claims : live' → Option.Rel (fun c c' =>
      (∃ slot, Slot.overlaps reg slot = true ∧ P slot c.value c'.value) ∧
        Pending.Alike P c.rest c'.rest) ((values st).claim? reg) ((values st').claim? reg) :=
    fun l => Pending.Alike.takeFirst? _ (hv _ _ (hst l))
  generalize (values st).claim? reg = c?, (values st').claim? reg = c'? at claims ⊢
  apply Follows.option claims
  · exact .ok fun _ => .none
  · intro live'' _ c c' hc
    apply (modifyClient fun l st st' h => hset st st' _ _ h (hc l).2).bind_eq
    intro _
    apply (tellAll _ _).bind_eq
    intro _
    exact .ok fun l => .some (hc l).1

end AddressFormulas
