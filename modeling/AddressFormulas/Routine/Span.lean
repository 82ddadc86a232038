import AddressFormulas.Text.Numeral

namespace AddressFormulas

structure BlockSpan where
  block : Nat
  start : Nat
  stop : Nat
  deriving DecidableEq, Repr

def BlockSpan.text (s : BlockSpan) : String :=
  "B" ++ Numeral.natural s.block ++ " [" ++ Numeral.hex s.start ++ "," ++ Numeral.hex s.stop ++ ")"

end AddressFormulas
