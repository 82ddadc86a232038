import AddressFormulas.Proofs.Stride.Congruence
import AddressFormulas.Proofs.Walk.Safety

namespace AddressFormulas.Stride

open WalkM

structure Unconcerned {τ : Type} (keep : Walk StrideState → τ) : Prop where
  values : ∀ w values, keep { w with client.values := values } = keep w
  unheard : ∀ e : Event, e.isWindowFailure = false → Unheard keep e

namespace Unconcerned

variable {τ : Type} {keep : Walk StrideState → τ} {E : Stop → Prop} {task : Task}

theorem push (hk : Unconcerned keep) (reg : Register) (v : ValueSource) :
    (Stride.push reg v).StopsOnly E keep :=
  .modifyClient _ fun w => hk.values w _

theorem claim (hk : Unconcerned keep) (reg : Register) : (Stride.claim reg).StopsOnly E keep :=
  .claim _ _ reg (fun p w => hk.values w p) fun _ => hk.unheard _ rfl

theorem congruence (hk : Unconcerned keep) (hs : Tolerates E task.settings.strict) :
    ValueCongruence task task.settings fun _ m _ => m.StopsOnly E keep where
  ok := .ok
  bind := .bind
  client := .client
  tell e he := .tell e (hk.unheard e he)
  report hf he := .report_gap hs hf (hk.unheard _ he)
  claim := hk.claim

theorem definitionValue (hk : Unconcerned keep) (hs : Tolerates E task.settings.strict) (u : MicroOp)
    (reg : Register) : (Stride.definitionValue task u reg).StopsOnly E keep :=
  (hk.congruence hs).definitionValue u reg

end Unconcerned

end AddressFormulas.Stride
