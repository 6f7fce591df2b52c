import EvmPrep.Hex
import EvmPrep.Word
import EvmPrep.Fault
import EvmPrep.Opcode.Basic
import EvmPrep.Opcode.Category
import EvmPrep.Opcode.Info
import EvmPrep.Instruction.Basic
import EvmPrep.Instruction.Stream
import EvmPrep.Instruction.Start
import EvmPrep.JumpTable.Basic
import EvmPrep.JumpTable.Scan
import EvmPrep.ConstantPool
import EvmPrep.Quicken
import EvmPrep.Code
import EvmPrep.Restore
import EvmPrep.Dispatch
import EvmPrep.Telemetry
import EvmPrep.Listing
import EvmPrep.Proofs.Starts
import EvmPrep.Proofs.Scan
import EvmPrep.Proofs.Pool
import EvmPrep.Proofs.Walk
import EvmPrep.Proofs.Layout
import EvmPrep.Proofs.Quickened
import EvmPrep.Proofs.QuickenExact
import EvmPrep.Proofs.Destinations
import EvmPrep.Proofs.LockStep
import EvmPrep.Proofs.Padding
import EvmPrep.Proofs.Restored
import EvmPrep.Proofs.Traps
import EvmPrep.Proofs.SecondPreparation
import EvmPrep.InPlace
import EvmPrep.Proofs.InPlace
import EvmPrep.Proofs.ScanInPlace
import EvmPrep.Proofs.QuickenInPlace
import EvmPrep.Proofs.AccessSafety
import EvmPrep.Proofs.PoolHistory
import EvmPrep.Proofs.Switches
import EvmPrep.Proofs.Accounting
import EvmPrep.Proofs.Appended
import EvmPrep.Proofs.Heads
import EvmPrep.Proofs.Concatenated
import EvmPrep.Proofs.Immediates
import EvmPrep.Proofs.Unpooled
import EvmPrep.Proofs.CutOff
import EvmPrep.Cursor
import EvmPrep.Proofs.Cursor
import EvmPrep.Proofs.TextLines
import EvmPrep.Proofs.CompactListing
import EvmPrep.Proofs.HexdumpListing
import EvmPrep.Proofs.VerboseListing
import EvmPrep.Proofs.ByteColumn
