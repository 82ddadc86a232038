import AddressFormulas.Coefficient

/-!
Coefficient arithmetic step by step, on signed numbers of 128 bits. A step whose result is no such
number breaks the computation off, and so does a division by zero.
-/

namespace AddressFormulas

namespace Wide

def half : Int := 0x80000000000000000000000000000000

def fits (x : Int) : Bool := -half ≤ x && x < half

inductive Fault where
  | overflow
  | divisionByZero
  deriving DecidableEq, Repr

abbrev Run := Except Fault

def checked (x : Int) : Run Int := if fits x then return x else throw .overflow

def add (x y : Int) : Run Int := checked (x + y)

def mul (x y : Int) : Run Int := checked (x * y)

def neg (x : Int) : Run Int := checked (-x)

def magnitude (x : Int) : Run Int := if x < 0 then neg x else return x

def quotient (x y : Int) : Run Int :=
  if y = 0 then throw .divisionByZero else checked (x.tdiv y)

def remainder (x y : Int) : Run Int := do
  let _ ← quotient x y
  return x.tmod y

def Turn (p q : Int × Int) : Prop := p.2 ≠ 0 ∧ q.1 = p.2 ∧ remainder p.1 p.2 = .ok q.2

theorem natAbs_lt_of_turn {p q : Int × Int} (h : Turn p q) : q.2.natAbs < p.2.natAbs := by
  obtain ⟨nonzero, _, left⟩ := h
  have modulo : q.2 = p.1.tmod p.2 := by
    unfold remainder at left
    match quotient p.1 p.2, left with
    | .ok _, left => exact (Except.ok.inj left).symm
  rw [modulo, Int.natAbs_tmod]
  exact Nat.mod_lt _ (Int.natAbs_pos.mpr nonzero)

def euclid (x y : Int) : Run Int :=
  if _ : y = 0 then return x
  else
    match _ : remainder x y with
    | .error f => throw f
    | .ok r => euclid y r
termination_by y.natAbs
decreasing_by exact natAbs_lt_of_turn (p := (x, y)) (q := (y, r)) ⟨‹_›, rfl, ‹_›⟩

def gcd (x y : Int) : Run Int := do
  euclid (← magnitude x) (← magnitude y)

end Wide

namespace Coeff

def withSign (num den : Int) : Wide.Run (Int × Int) := do
  if den < 0 then return (← Wide.neg num, ← Wide.neg den)
  return (num, den)

def reduceWide (num den : Int) : Wide.Run (Option Coeff) := do
  if den = 0 then return none
  let (num, den) ← withSign num den
  let g := max (← Wide.gcd num den) 1
  let n ← Wide.quotient num g
  if !Word.fits n then return none
  let d ← Wide.quotient den g
  if !Word.fits d then return none
  return some ⟨n, d.toNat⟩

def addWide (a b : Coeff) : Wide.Run (Option Coeff) := do
  let num ← Wide.add (← Wide.mul a.num b.den) (← Wide.mul b.num a.den)
  reduceWide num (← Wide.mul a.den b.den)

def mulWide (a b : Coeff) : Wide.Run (Option Coeff) := do
  reduceWide (← Wide.mul a.num b.num) (← Wide.mul a.den b.den)

end Coeff

end AddressFormulas
