import AddressFormulas.Coefficient
import AddressFormulas.Register.Basic

namespace AddressFormulas

structure Site where
  pc : Nat
  idx : Int
  deriving DecidableEq, Repr

namespace Site

instance : Ord Site where
  compare := compareLex (compareOn Site.pc) (compareOn Site.idx)

def text (s : Site) : String := Numeral.hex s.pc ++ ":" ++ Numeral.decimal s.idx

end Site

inductive TermKey where
  | call (site : Site) (target : Nat)
  | reference (address : Int)
  | stack (slot : Int)
  | load (site : Site) (reg : Register)
  | register (site : Site) (reg : Register)
  | constant
  deriving DecidableEq, Repr

namespace TermKey

def kind : TermKey → Nat
  | call .. => 0
  | reference .. => 1
  | stack .. => 2
  | load .. => 3
  | register .. => 4
  | constant => 5

def site? : TermKey → Option Site
  | call s _ | load s _ | register s _ => some s
  | _ => none

def number : TermKey → Int
  | call _ target => target
  | reference a | stack a => a
  | _ => 0

def reg : TermKey → Register
  | load _ r | register _ r => r
  | _ => .absent

instance : Ord TermKey where
  compare := compareLex (compareOn TermKey.kind) <|
    compareLex (compareOn fun k => (k.site?.map Site.pc).getD 0) <|
    compareLex (compareOn fun k => (k.site?.map Site.idx).getD 0) <|
    compareLex (compareOn TermKey.number) (compareOn TermKey.reg)

def isConstant : TermKey → Bool
  | constant => true
  | _ => false

def text : TermKey → String
  | call s target => "C\x7b" ++ s.text ++ "->" ++ Numeral.hex target ++ "\x7d"
  | reference a => "M\x7b" ++ Numeral.hexWord a ++ "\x7d"
  | stack a => "S\x7b" ++ Numeral.decimal a ++ "\x7d"
  | load s r => "L\x7b" ++ r.text ++ "@" ++ s.text ++ "\x7d"
  | register s r => "R\x7b" ++ r.text ++ "@" ++ s.text ++ "\x7d"
  | constant => ""

end TermKey

structure Term where
  coeff : Coeff
  origin : Option Site := none
  deriving DecidableEq, Repr

def Term.definedAt? (t : Term) : TermKey → Option Nat
  | .call s _ | .load s _ | .register s _ => some s.pc
  | .reference _ | .stack _ => t.origin.map Site.pc
  | .constant => none

end AddressFormulas
