import AddressFormulas.Text.Numeral
import AddressFormulas.Word

/-!
Rational coefficients whose numerator and denominator are words. Arithmetic is exact: an operation
gives the reduced fraction of the exact result, or nothing if that fraction does not fit.
-/

namespace AddressFormulas

/-- A fraction, kept in lowest terms. -/
structure Coeff where
  num : Int
  den : Nat := 1
  deriving DecidableEq, Repr

namespace Coeff

def zero : Coeff := ⟨0, 1⟩

def one : Coeff := ⟨1, 1⟩

def ofInt (v : Int) : Coeff := ⟨v, 1⟩

def reduce? (num den : Int) : Option Coeff :=
  if den = 0 then none
  else
    let g := Int.gcd num den
    let n := (if den < 0 then -num else num) / (g : Int)
    let d := den.natAbs / g
    if Word.fits n && Word.fits d then some ⟨n, d⟩ else none

def isZero (c : Coeff) : Bool := c.num = 0

def value (c : Coeff) : Int := c.num.tdiv c.den

def isFractional (c : Coeff) : Bool := c.den ≠ 1

def add? (a b : Coeff) : Option Coeff :=
  reduce? (a.num * b.den + b.num * a.den) (a.den * b.den)

def mul? (a b : Coeff) : Option Coeff :=
  reduce? (a.num * b.num) (a.den * b.den)

def neg? (a : Coeff) : Option Coeff :=
  if Word.fits (-a.num) then some ⟨-a.num, a.den⟩ else none

def integral? (c : Coeff) : Option Int := if c.isFractional then none else some c.value

def text (c : Coeff) : String :=
  if c.den = 1 then Numeral.decimal c.num
  else Numeral.decimal c.num ++ "/" ++ Numeral.natural c.den

end Coeff

end AddressFormulas
