import AddressFormulas.Formula.Term

namespace AddressFormulas

inductive StrideKind where
  /-- The value itself, the same in every iteration. -/
  | invariant
  /-- A sum along a value cycle that is still open. -/
  | partialSum
  /-- The change over one iteration. -/
  | stride
  deriving DecidableEq, Repr, Inhabited

namespace StrideKind

def join : StrideKind → StrideKind → StrideKind
  | partialSum, _ | _, partialSum => partialSum
  | stride, _ | _, stride => stride
  | invariant, invariant => invariant

def text : StrideKind → String
  | invariant => "Invariant"
  | partialSum => "Partial"
  | stride => "Stride"

end StrideKind

inductive ValueSource where
  /-- From outside the iteration. Such values bear the reserved address `outsidePc`; no micro-op stands
  there, for one of any length would have no address after it. -/
  | outside
  /-- From the micro-op at `site`; `target` is the visit of the cycle start on which the value still
  depends, or zero. -/
  | definition (site : Site) (target : Nat)
  deriving DecidableEq, Repr

namespace ValueSource

def outsidePc : Nat := 0xffffffffffffffff

def pc : ValueSource → Nat
  | outside => outsidePc
  | definition s _ => s.pc

def idx : ValueSource → Int
  | outside => 0
  | definition s _ => s.idx

def target : ValueSource → Nat
  | outside => 0
  | definition _ t => t

def text (v : ValueSource) : String :=
  "RegCache \x7b def_pc: " ++ Numeral.natural v.pc ++ ", idx: " ++ Numeral.decimal v.idx ++
    ", target_dfs: " ++ Numeral.natural v.target ++ " \x7d"

end ValueSource

end AddressFormulas
