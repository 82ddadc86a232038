import AddressFormulas.Proofs.Rules
import AddressFormulas.Walk.Engine

namespace AddressFormulas.WalkM

variable {σ α : Type} {Q : α → Walk σ → Prop} {E : Stop → Walk σ → Prop} {w : Walk σ}

@[simp] theorem wp_client {Q : σ → Walk σ → Prop} :
    wp (client : WalkM σ σ) Q E w ↔ Q w.client w := Iff.rfl

@[simp] theorem wp_modifyClient {Q : Unit → Walk σ → Prop} (f : σ → σ) :
    wp (modifyClient f : WalkM σ Unit) Q E w ↔ Q () { w with client := f w.client } := Iff.rfl

@[simp] theorem wp_tell {Q : Unit → Walk σ → Prop} (e : Event) :
    wp (tell e : WalkM σ Unit) Q E w ↔ Q () { w with journal := e :: w.journal } := Iff.rfl

@[simp] theorem wp_tellAll {Q : Unit → Walk σ → Prop} (es : List Event) :
    wp (tellAll es : WalkM σ Unit) Q E w ↔ Q () { w with journal := es.reverse ++ w.journal } := by
  induction es generalizing w with
  | nil => rfl
  | cons e es ih => simp [tellAll, ih]

@[simp] theorem wp_fail (f : Failure) : wp (fail f : WalkM σ α) Q E w ↔ E (.failed f) w := Iff.rfl

theorem wp_report {Q : Unit → Walk σ → Prop} {f : Failure} (hf : f.isCoverageGap = true) :
    wp (report false f : WalkM σ Unit) Q E w ↔
      Q () { w with journal := .failure f :: w.journal } := by
  simp [report, hf]

@[simp] theorem wp_require_some (a : α) : wp (require (some a) : WalkM σ α) Q E w ↔ Q a w := Iff.rfl

theorem wp_require {a? : Option α} {a : α} (h : a? = some a) (hq : Q a w) :
    wp (require a? : WalkM σ α) Q E w := by
  subst h
  exact hq

@[simp] theorem wp_classify {Q : Effect → Walk σ → Prop} (u : MicroOp) :
    wp (classify u : WalkM σ Effect) Q E w ↔
      Q u.effect { w with journal := u.effectEvents.reverse ++ w.journal } := by
  simp [classify]

def Updates (m : WalkM σ Unit) (f : σ → σ) : Prop :=
  ∀ w, ∃ told, (∀ e ∈ told, ∀ failure, e ≠ .failure failure) ∧
    m w = .ok () { w with client := f w.client, journal := told ++ w.journal }

namespace Updates

variable {m n : WalkM σ Unit} {f g : σ → σ}

theorem ok : Updates (pure () : WalkM σ Unit) id := fun _ => ⟨[], List.forall_mem_nil _, rfl⟩

theorem tell {e : Event} (he : ∀ failure, e ≠ .failure failure) :
    Updates (tell e : WalkM σ Unit) id := by
  refine fun _ => ⟨[e], ?_, rfl⟩
  rintro _ (_ | ⟨_, ⟨⟩⟩)
  exact he

theorem modifyClient (f : σ → σ) : Updates (modifyClient f) f := fun _ => ⟨[], List.forall_mem_nil _, rfl⟩

theorem bind (hm : Updates m f) (hn : Updates n g) : Updates (m >>= fun _ => n) (g ∘ f) := by
  intro w
  obtain ⟨told, plain, run⟩ := hm w
  obtain ⟨told', plain', run'⟩ := hn { w with client := f w.client, journal := told ++ w.journal }
  refine ⟨told' ++ told, ?_, ?_⟩
  · intro e he
    exact (List.mem_append.mp he).elim (plain' e) (plain e)
  · rw [run_bind run, run', List.append_assoc]
    rfl

theorem client {k : σ → WalkM σ Unit} {f : σ → σ → σ} (h : ∀ st, Updates (k st) (f st)) :
    Updates (client >>= k) fun st => f st st :=
  fun w => h w.client w

theorem tellAll {es : List Event} (hes : ∀ e ∈ es, ∀ failure, e ≠ .failure failure) :
    Updates (tellAll es : WalkM σ Unit) id := by
  induction es with
  | nil => exact .ok
  | cons e es ih =>
    rw [List.forall_mem_cons] at hes
    exact (tell hes.1).bind (ih hes.2)

theorem ite {c : Prop} [Decidable c] (hm : c → Updates m f) (hn : ¬c → Updates n f) :
    Updates (if c then m else n) f := by
  split
  · exact hm ‹_›
  · exact hn ‹_›

theorem tellValues {α : Type} (values : Pending α) (shown : α → ShownValue) :
    Updates (WalkM.tellAll (values.events shown) : WalkM σ Unit) id := by
  apply tellAll
  intro e he
  obtain ⟨_, _, rfl⟩ := List.mem_map.mp he
  nofun

theorem wp {Q : Unit → Walk σ → Prop} (h : Updates m f)
    (hq : ∀ told, (∀ e ∈ told, ∀ failure, e ≠ .failure failure) →
      Q () { w with client := f w.client, journal := told ++ w.journal }) : wp m Q E w := by
  obtain ⟨told, plain, run⟩ := h w
  rw [AddressFormulas.wp, run]
  exact hq told plain

end Updates

end AddressFormulas.WalkM
