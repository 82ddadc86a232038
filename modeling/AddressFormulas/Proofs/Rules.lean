/-!
Rules for programs with a state that can stop early. `wp m Q E s` says that `m`, begun in the state
`s`, either comes to an end with an answer and a state of which `Q` holds, or stops early as `E`
allows. The rules follow the way a program is put together, so that a statement about a program
becomes one about its parts.
-/

namespace AddressFormulas

variable {ε σ α β : Type}

def wp (m : EStateM ε σ α) (Q : α → σ → Prop) (E : ε → σ → Prop) (s : σ) : Prop :=
  match m s with
  | .ok a t => Q a t
  | .error e t => E e t

variable {m : EStateM ε σ α} {Q Q' : α → σ → Prop} {E E' : ε → σ → Prop} {s t : σ}

theorem wp_mono (h : wp m Q E s) (hq : ∀ a t, Q a t → Q' a t) (he : ∀ e t, E e t → E' e t) :
    wp m Q' E' s := by
  unfold wp at *
  split at h
  · exact hq _ _ h
  · exact he _ _ h

theorem wp_imp (h : wp m Q E s) (hq : ∀ a t, Q a t → Q' a t) : wp m Q' E s :=
  wp_mono h hq (fun _ _ he => he)

theorem wp_congr {m' : EStateM ε σ α} (h : m' s = m s) : wp m' Q E s ↔ wp m Q E s := by
  rw [wp, wp, h]

theorem wp_and (h : wp m Q E s) (h' : wp m Q' E s) : wp m (fun a t => Q a t ∧ Q' a t) E s := by
  unfold wp at *
  split <;> simp_all

theorem wp_ok {a : α} (h : wp m Q E s) (hr : m.run s = .ok a t) : Q a t := by
  change m s = .ok a t at hr
  simpa only [wp, hr] using h

theorem wp_error {e : ε} (h : wp m Q E s) (hr : m.run s = .error e t) : E e t := by
  change m s = .error e t at hr
  simpa only [wp, hr] using h

theorem wp_run (m : EStateM ε σ α) (s : σ) :
    wp m (fun a t => m.run s = .ok a t) (fun e t => m.run s = .error e t) s := by
  unfold wp
  split
  · next h => exact h
  · next h => exact h

@[simp] theorem wp_pure (a : α) : wp (pure a : EStateM ε σ α) Q E s ↔ Q a s := Iff.rfl

@[simp] theorem wp_bind {f : α → EStateM ε σ β} {Q : β → σ → Prop} :
    wp (m >>= f) Q E s ↔ wp m (fun a => wp (f a) Q E) E s := by
  change (match EStateM.bind m f s with | .ok a t => Q a t | .error e t => E e t) ↔ _
  unfold EStateM.bind wp
  cases m s <;> rfl

theorem wp_bind_any {f : α → EStateM ε σ β} {Q : β → σ → Prop}
    (hf : ∀ a t, m.run s = .ok a t → wp (f a) Q (fun _ _ => True) t) :
    wp (m >>= f) Q (fun _ _ => True) s :=
  wp_bind.mpr (wp_mono (wp_run m s) hf fun _ _ _ => trivial)

@[simp] theorem wp_map (f : α → β) {Q : β → σ → Prop} :
    wp (f <$> m) Q E s ↔ wp m (fun a => Q (f a)) E s := by
  change (match EStateM.map f m s with | .ok a t => Q a t | .error e t => E e t) ↔ _
  unfold EStateM.map wp
  cases m s <;> rfl

@[simp] theorem wp_throw (e : ε) : wp (throw e : EStateM ε σ α) Q E s ↔ E e s := Iff.rfl

@[simp] theorem wp_get {Q : σ → σ → Prop} : wp (get : EStateM ε σ σ) Q E s ↔ Q s s := Iff.rfl

@[simp] theorem wp_set {Q : PUnit → σ → Prop} : wp (set t : EStateM ε σ PUnit) Q E s ↔ Q () t :=
  Iff.rfl

@[simp] theorem wp_modify {Q : PUnit → σ → Prop} (f : σ → σ) :
    wp (modify f : EStateM ε σ PUnit) Q E s ↔ Q () (f s) := Iff.rfl

theorem run_bind {a : α} {f : α → EStateM ε σ β} (h : m s = .ok a t) : (m >>= f) s = f a t := by
  change EStateM.bind m f s = _
  unfold EStateM.bind
  rw [h]

theorem wp_bind_of_run {a : α} {f : α → EStateM ε σ β} {Q : β → σ → Prop} (h : m s = .ok a t) :
    wp (m >>= f) Q E s ↔ wp (f a) Q E t := by
  rw [wp, run_bind h, wp]

theorem wp_ite {c : Prop} [Decidable c] {m' : EStateM ε σ α} (ht : c → wp m Q E s)
    (hf : ¬c → wp m' Q E s) : wp (if c then m else m') Q E s := by
  split
  · exact ht ‹_›
  · exact hf ‹_›

instance wpDecidable [∀ a t, Decidable (Q a t)] [∀ e t, Decidable (E e t)] :
    Decidable (wp m Q E s) :=
  show Decidable (match m s with | .ok a t => Q a t | .error e t => E e t) from
    match m s with
    | .ok a t => inferInstanceAs (Decidable (Q a t))
    | .error e t => inferInstanceAs (Decidable (E e t))

theorem run_of_ends (h : wp m Q (fun _ _ => False) s) : ∃ a t, m.run s = .ok a t ∧ Q a t := by
  change ∃ a t, m s = .ok a t ∧ Q a t
  unfold wp at h
  split at h
  · next a t run => exact ⟨a, t, run, h⟩
  · exact h.elim

theorem run_of_stops (h : wp m (fun _ _ => False) E s) : ∃ e t, m.run s = .error e t ∧ E e t := by
  change ∃ e t, m s = .error e t ∧ E e t
  unfold wp at h
  split at h
  · exact h.elim
  · next e t run => exact ⟨e, t, run, h⟩

def answer? (m : EStateM ε σ α) (s : σ) : Option α :=
  match m.run s with
  | .ok a _ => some a
  | .error _ _ => none

theorem run_of_answer? {a : α} (h : answer? m s = some a) : ∃ t, m.run s = .ok a t := by
  unfold answer? at h
  split at h
  · next t ht =>
    cases h
    exact ⟨t, ht⟩
  · cases h

end AddressFormulas
