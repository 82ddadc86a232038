import AddressFormulas.MicroOp.Basic

namespace AddressFormulas

namespace Operation

def isShift : Operation → Bool
  | sll | srl | sra => true
  | _ => false

/-- The result on two words, for operations other than sums. Shifts take amounts below 64. -/
def onWords? (op : Operation) (a b : Int) : Option Int :=
  match op with
  | or => some (Word.disjunction a b)
  | orn => some (Word.disjunction a (Word.complement b))
  | andn => some (Word.conjunction a (Word.complement b))
  | and => some (Word.conjunction a b)
  | xor => some (Word.exclusive a b)
  | xnor => some (Word.complement (Word.exclusive a b))
  | sll => if b < 64 then some (Word.shiftLeft a b.toNat) else none
  | srl => if b < 64 then some (Word.shiftRight a b.toNat) else none
  | sra => if b < 64 then some (Word.shiftRightSigned a b.toNat) else none
  | mul => some (Word.product a b)
  | div => if b ≠ 0 then some (Word.quotient a b) else none
  | add | sub | mov | not | invalid => none

def shiftFactor? (b : Int) : Option Int :=
  if b < 63 then some (Word.power b.toNat) else none

/-- The formula, if no unknown in it is divided by something that does not divide its
coefficient. -/
def ifSimple? (f : Formula) : Option Formula := if f.hasComplexDenominator then none else some f

def byConstant? (op : Operation) (f : Formula) (b : Int) : Option Formula :=
  match op with
  | sll => (shiftFactor? b).map f.mul
  | srl | sra => (shiftFactor? b).bind fun k => ifSimple? (f.div k)
  | or | andn => if b = 0 then some f else none
  | mul => some (f.mul b)
  | div => if b ≠ 0 then ifSimple? (f.div b) else none
  | _ => none

def ofConstant? (op : Operation) (a : Int) (f : Formula) : Option Formula :=
  match op with
  | or => if a = 0 then some f else none
  | mul => some (f.mul a)
  | _ => none

def onFormulas? (op : Operation) (f g : Formula) : Option Formula :=
  let a? := f.integral?
  let b? := g.integral?.filter fun b => !(op.isShift && b < 0)
  let folded? := a?.bind fun a => b?.bind fun b => op.onWords? a b
  match folded?, b?, a? with
  | some v, _, _ => some (.constant v)
  | none, some b, _ => op.byConstant? f b
  | none, none, some a => op.ofConstant? a g
  | none, none, none => none

end Operation

def doubleShift? (width : Nat) (f filling amount : Formula) : Option Formula := do
  let v ← filling.integral?
  let n ← amount.integral?
  if 64 < width ∨ n < 0 ∨ (width : Int) ≤ n ∨ 63 ≤ n then none
  let fill : Int :=
    if n = 0 then 0
    else ((Word.bits v >>> (width - n.toNat)).toNat % Word.power n.toNat : Nat)
  return f.mul (Word.power n.toNat) + .constant fill

end AddressFormulas
