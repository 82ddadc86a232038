import AddressFormulas.Failure

namespace AddressFormulas

inductive NotationError where
  | unknownRegister (line : Nat) (name : String)
  | badOperand (line : Nat) (text : String)
  | badNumber (line : Nat) (text : String)
  | unknownKeyword (line : Nat) (what text : String)
  | unknownBlock (line id : Nat)
  | orphanMicroOp (line : Nat)
  | malformed (line : Nat) (text : String)
  | loopTree (line : Nat) (cause : Failure)
  deriving DecidableEq, Repr

namespace NotationError

def line : NotationError → Nat
  | unknownRegister n _ | badOperand n _ | badNumber n _ | unknownKeyword n _ _ | unknownBlock n _
  | orphanMicroOp n | malformed n _ | loopTree n _ => n

def complaint : NotationError → String
  | unknownRegister _ name => "unknown register \x60" ++ name ++ "\x60"
  | badOperand _ text => "could not parse operand \x60" ++ text ++ "\x60"
  | badNumber _ text => "could not parse number \x60" ++ text ++ "\x60"
  | unknownKeyword _ what text => "unknown " ++ what ++ " \x60" ++ text ++ "\x60"
  | unknownBlock _ id => "reference to undeclared block " ++ Numeral.natural id
  | orphanMicroOp _ => "micro-op outside of any block"
  | malformed _ text => "malformed line \x60" ++ text ++ "\x60"
  | loopTree _ cause => cause.message

def message (e : NotationError) : String :=
  "Line " ++ Numeral.natural e.line ++ ": " ++ e.complaint

end NotationError

end AddressFormulas
