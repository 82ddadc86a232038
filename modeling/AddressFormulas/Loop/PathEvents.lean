import AddressFormulas.Diagnostic.Event
import AddressFormulas.Loop.CyclicPath

namespace AddressFormulas.CyclicPath

def find (g : Graph) (start marker : Nat) : Except Failure CyclicPath :=
  match build? g start marker with
  | some path => .ok path
  | none => .error (.noCyclicPath start marker)

def events (shown : Bool) (g : Graph) (start marker : Nat) :
    Except Failure CyclicPath → List Event
  | .error _ => [.noCyclicPath g.name start marker]
  | .ok path => if shown then [.cyclicPath marker (path.spans g)] else []

end AddressFormulas.CyclicPath
