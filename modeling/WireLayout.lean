import WireLayout.Conversion.Stock
import WireLayout.PriceUpdate
import WireLayout.Reader.Pool
import WireLayout.Version
import WireLayout.Proofs.PriceUpdate.Encoding
import WireLayout.Proofs.Extent
import WireLayout.Proofs.Streaming
import WireLayout.Proofs.PriceUpdate.Failure
import WireLayout.Proofs.Accumulation
import WireLayout.Proofs.Relocation
import WireLayout.Proofs.Totality
import WireLayout.Proofs.History
import WireLayout.Proofs.Progress
import WireLayout.Proofs.Elements
import WireLayout.Proofs.PriceUpdate.Capacity
import WireLayout.Proofs.PriceUpdate.Padding
import WireLayout.Proofs.Refusal
import WireLayout.Proofs.Prefix
import WireLayout.Proofs.PriceUpdate.Interruption
import WireLayout.Proofs.PriceUpdate.Inverse
import WireLayout.Proofs.Exhaustion
import WireLayout.Proofs.Shortfall
import WireLayout.Proofs.Defects
import WireLayout.Proofs.Restating
import WireLayout.Proofs.Ordering
import WireLayout.Proofs.Partition
import WireLayout.Proofs.Store
