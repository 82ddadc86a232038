import AddressFormulas.Loop.PathEvents
import AddressFormulas.Settings
import AddressFormulas.Stride.Combine
import AddressFormulas.Walk.Engine

namespace AddressFormulas

structure Progress where
  /-- While the micro-op is being computed, one more than the number of back edges behind which it
  was entered; zero otherwise. -/
  loopCount : Nat := 0
  tracked : Option Register := none
  formula : Option Formula := none
  kind : StrideKind := .invariant
  visit : Nat := 0
  /-- The visit of the cycle start on which the formula depends; zero for none. -/
  target : Nat := 0
  reuse : Bool := false
  slice : Nat := 0
  deriving DecidableEq, Repr

structure StrideSession where
  visits : Nat := 0
  slices : Nat := 0
  deriving DecidableEq, Repr

structure OpenCycle where
  visit : Nat
  site : Site
  deriving DecidableEq, Repr

structure StrideState where
  values : Pending ValueSource := {}
  progress : Table Site Progress := {}
  /-- The cycle entered last comes first. -/
  cycles : List OpenCycle := []
  path : Option CyclicPath := none
  backEdges : Nat := 0
  startBackEdges : Nat := 0
  startRank : Nat := 0
  session : StrideSession := {}
  deriving DecidableEq, Repr

namespace StrideState

def pathRank (st : StrideState) (b : Nat) : Nat := (st.path.map (·.rank b)).getD 0

def progressAt (st : StrideState) (site : Site) : Progress := st.progress.getD site {}

def modifyProgress (st : StrideState) (site : Site) (f : Progress → Progress) : StrideState :=
  { st with progress := st.progress.update site {} f }

def push (st : StrideState) (reg : Register) (v : ValueSource) : StrideState :=
  { st with values := st.values.push reg v }

/-- A place is more than one iteration away from where the slice began: `early` says that it lies
before the start within the block of the start. -/
def outsideWindow (st : StrideState) (rank : Nat) (early : Bool) : Bool :=
  (st.startBackEdges < st.backEdges &&
      (rank < st.startRank || (rank = st.startRank && early))) ||
    st.startBackEdges + 1 < st.backEdges

def targetPending (st : StrideState) (target : Nat) : Bool :=
  target ≠ 0 && st.values.newestFirst.any fun e => e.2.target = target

def insertCycle (c : OpenCycle) : List OpenCycle → List OpenCycle
  | [] => [c]
  | d :: ds => if d.visit < c.visit then c :: d :: ds else d :: insertCycle c ds

def atCycleStart (st : StrideState) (site : Site) : Bool :=
  st.cycles.head?.any (·.site = site)

/-- The stride of a register whose value has the given source. An invariant value has stride zero
and keeps its marks. -/
def strideOf (st : StrideState) : ValueSource → Formula
  | .outside => .zero
  | .definition site _ =>
    match st.progress.get? site with
    | some { formula := some f, kind, .. } =>
      if kind = .invariant then Formula.zero.inheritAccess f else f
    | _ => .zero

end StrideState

end AddressFormulas
