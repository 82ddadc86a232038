namespace AddressFormulas

structure Settings where
  /-- Gaps in the model of micro-ops end the analysis. -/
  strict : Bool := false
  followSpills : Bool := true
  showValues : Bool := false
  showPaths : Bool := false
  depth : Nat := 1000000
  deriving DecidableEq, Repr

end AddressFormulas
