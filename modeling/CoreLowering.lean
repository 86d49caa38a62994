import CoreLowering.Compile.View
import CoreLowering.Host.Tree
import CoreLowering.Main
import CoreLowering.Proofs.Graph.Arms
import CoreLowering.Proofs.Graph.Delivery
import CoreLowering.Proofs.Graph.Naming
import CoreLowering.Proofs.Graph.Replay
import CoreLowering.Proofs.Graph.Ordering
import CoreLowering.Proofs.Graph.Scoping
import CoreLowering.Proofs.Graph.Settings
import CoreLowering.Proofs.Machine.Budget
import CoreLowering.Proofs.Encoding.Agreement
import CoreLowering.Proofs.Encoding.RoundTrip
import CoreLowering.Proofs.Encoding.PairLists
import CoreLowering.Proofs.Layout.Canonical
import CoreLowering.Proofs.Binary.Cbor
import CoreLowering.Proofs.Printing.Unambiguous
import CoreLowering.Proofs.Source.Positions
import CoreLowering.Proofs.Typed.Alternatives
import CoreLowering.Proofs.Interchange.Lossless
import CoreLowering.Proofs.Machine.FreeNames
