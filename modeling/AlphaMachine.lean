import AlphaMachine.Isa.Assembly
import AlphaMachine.Main
import AlphaMachine.Proofs.Isa.Dispatch
import AlphaMachine.Proofs.Engine.Blocks
import AlphaMachine.Proofs.Exec.Frame
import AlphaMachine.Proofs.Exec.Traps
import AlphaMachine.Proofs.Engine.Events
import AlphaMachine.Proofs.Engine.Invalidation
import AlphaMachine.Proofs.Engine.Runs
import AlphaMachine.Proofs.Engine.Protocol
import AlphaMachine.Proofs.Engine.Transparency
import AlphaMachine.Proofs.Host.Resolution
import AlphaMachine.Proofs.Host.Decoding
import AlphaMachine.Proofs.Block.Meaning
import AlphaMachine.Proofs.Block.Fragments
import AlphaMachine.Proofs.Block.Effect
import AlphaMachine.Proofs.Block.RegisterOnly
import AlphaMachine.Proofs.Block.Instructions
import AlphaMachine.Proofs.Isa.RoundTrip
import AlphaMachine.Proofs.Exec.Effects
import AlphaMachine.Proofs.Exec.Reservation
import AlphaMachine.Proofs.Engine.Compilations
import AlphaMachine.Proofs.Engine.Visits
import AlphaMachine.Proofs.Engine.Steps
import AlphaMachine.Proofs.Exec.Alignment
import AlphaMachine.Proofs.Engine.Alignment
import AlphaMachine.Proofs.Exec.WellFormed
import AlphaMachine.Proofs.Engine.Pending
import AlphaMachine.Proofs.Engine.Reachable
import AlphaMachine.Proofs.Engine.Exclusion
import AlphaMachine.Proofs.Host.Running
import AlphaMachine.Proofs.Host.Placement
import AlphaMachine.Proofs.Host.Labels
import AlphaMachine.Proofs.Block.Discipline
import AlphaMachine.Proofs.Block.Convention
import AlphaMachine.Proofs.Block.Calling
import AlphaMachine.Proofs.Block.Acceptance
import AlphaMachine.Proofs.Engine.BlockFormation
import AlphaMachine.Proofs.Exec.Unaligned
import AlphaMachine.Proofs.Exec.ExactArithmetic
import AlphaMachine.Proofs.Machine.ByteMap
import AlphaMachine.Proofs.Isa.Registrations
import AlphaMachine.Proofs.Exec.Naming
import AlphaMachine.Proofs.Bits.PackedBytes
import AlphaMachine.Proofs.Float.NarrowFormats
import AlphaMachine.Proofs.Exec.NarrowFormats
import AlphaMachine.Proofs.Engine.Bodies
import AlphaMachine.Proofs.Engine.Reporting
