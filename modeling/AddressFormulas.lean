import AddressFormulas.Main
import AddressFormulas.Proofs.Analysis.Outcome
import AddressFormulas.Proofs.Base.Soundness
import AddressFormulas.Proofs.Stride.Completion
import AddressFormulas.Walk.Recorder
import AddressFormulas.Proofs.Base.Agreement
import AddressFormulas.Proofs.Stride.Agreement
import AddressFormulas.Proofs.Analysis.Strictness
import AddressFormulas.Proofs.Base.Termination
import AddressFormulas.Proofs.Routine.Description
import AddressFormulas.Proofs.Routine.Splitting
import AddressFormulas.Proofs.Base.EmptyBlocks
import AddressFormulas.Proofs.Base.Consumption
import AddressFormulas.Proofs.Base.Leftovers
import AddressFormulas.Proofs.Base.Reuse
import AddressFormulas.Proofs.Base.Reload
import AddressFormulas.Proofs.Stride.Ledger
import AddressFormulas.Proofs.Stride.Operands
import AddressFormulas.Proofs.Stride.Claims
import AddressFormulas.Proofs.Stride.Bookkeeping
import AddressFormulas.Proofs.Stride.Sliced
import AddressFormulas.Proofs.Stride.Recovery
import AddressFormulas.Proofs.Walk.Nesting
import AddressFormulas.Proofs.Analysis.Overflow
import AddressFormulas.Proofs.Analysis.BackEdges
import AddressFormulas.Proofs.Analysis.StrideSoundness
import AddressFormulas.Proofs.Loop.Return
import AddressFormulas.Proofs.Analysis.ChainStrides
import AddressFormulas.Proofs.Analysis.SumAsAddress
import AddressFormulas.Proofs.Formula.SameAddress
import AddressFormulas.Proofs.Base.Rounding
import AddressFormulas.Proofs.Stride.Unchanged
import AddressFormulas.Proofs.Loop.Ancestry
import AddressFormulas.Proofs.Base.SelfXor
import AddressFormulas.Proofs.Base.DoubleShift
import AddressFormulas.Proofs.Stride.Combining
import AddressFormulas.Proofs.Routine.MemoryText
import AddressFormulas.Proofs.Routine.FirstError
import AddressFormulas.Proofs.Routine.Changes
import AddressFormulas.Proofs.Analysis.Delivery
import AddressFormulas.Proofs.Formula.Wide
import AddressFormulas.Proofs.Walk.Handover
