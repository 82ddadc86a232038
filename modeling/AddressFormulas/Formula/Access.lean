import AddressFormulas.Data.Table
import AddressFormulas.Formula.Term

namespace AddressFormulas

inductive Indirection where
  | none
  /-- Whatever the loads turn out to be. -/
  | guaranteed
  /-- If one of the loads at these places is indirect itself. -/
  | deferred (loads : KeySet Site)
  deriving DecidableEq, Repr

namespace Indirection

/-- The marks of both; a guaranteed mark covers every other. -/
def merge : Indirection → Indirection → Indirection
  | i, none => i
  | _, guaranteed => guaranteed
  | guaranteed, deferred _ => guaranteed
  | deferred s, deferred t => deferred (s.union t)
  | none, deferred t => deferred t

def through (i : Indirection) (site : Site) : Indirection :=
  match i with
  | guaranteed => guaranteed
  | deferred s => deferred (s.add site)
  | none => deferred (KeySet.add {} site)

def text : Indirection → String
  | none => ""
  | guaranteed => " [indirect]"
  | deferred s => " [indirect via " ++ ",".intercalate (s.keys.map Site.text) ++ "]"

end Indirection

structure Access where
  irregular : Bool := false
  indirect : Indirection := .none
  deriving DecidableEq, Repr

def Access.merge (a b : Access) : Access :=
  ⟨a.irregular || b.irregular, a.indirect.merge b.indirect⟩

end AddressFormulas
