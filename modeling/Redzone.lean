import Redzone.Config.Reader
import Redzone.Config.Writer
import Redzone.Instrument.Pipeline
import Redzone.Ir.Builder
import Redzone.Ir.Summary
import Redzone.Ir.Text
import Redzone.Proofs.Annotations
import Redzone.Proofs.Arrangement
import Redzone.Proofs.Check.Bytes
import Redzone.Proofs.Circles
import Redzone.Proofs.Edits.Rearranged
import Redzone.Proofs.Failure
import Redzone.Proofs.Frame.Addressable
import Redzone.Proofs.Frame.Balance
import Redzone.Proofs.Frame.Description
import Redzone.Proofs.Frame.Gaps
import Redzone.Proofs.Frame.Path
import Redzone.Proofs.Frame.Scope
import Redzone.Proofs.Frame.ShadowCopy
import Redzone.Proofs.Interning
import Redzone.Proofs.Modules.AddressSpaces
import Redzone.Proofs.Modules.Confined
import Redzone.Proofs.Modules.Flow
import Redzone.Proofs.Modules.GlobalShadow
import Redzone.Proofs.Modules.InitOrder
import Redzone.Proofs.Modules.Nameless
import Redzone.Proofs.Modules.Redzones
import Redzone.Proofs.Modules.Registration
import Redzone.Proofs.Order.Commute
import Redzone.Proofs.Pipeline.Current
import Redzone.Proofs.Pipeline.EntryBlock
import Redzone.Proofs.Pipeline.History
import Redzone.Proofs.Pipeline.Idempotent
import Redzone.Proofs.Pipeline.Preserved
import Redzone.Proofs.Pipeline.WellFormed
import Redzone.Proofs.Pointer
import Redzone.Proofs.Preservation
import Redzone.Proofs.Progress.Assertions
import Redzone.Proofs.Progress.Pipeline
import Redzone.Proofs.Shielded
import Redzone.Proofs.Text.Numbers
import Redzone.Verify.Module
