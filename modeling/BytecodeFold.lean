import BytecodeFold.Arena.Basic
import BytecodeFold.Arena.Encoding
import BytecodeFold.Arena.Layout
import BytecodeFold.Binary.Arithmetic
import BytecodeFold.Binary.Format
import BytecodeFold.Binary.Round
import BytecodeFold.Bytes.BigEndian
import BytecodeFold.Bytes.Cursor
import BytecodeFold.ClassModel
import BytecodeFold.Code
import BytecodeFold.ConstantPool.Basic
import BytecodeFold.ConstantPool.Entry
import BytecodeFold.ConstantPool.Lookup
import BytecodeFold.Decimal.Shortest
import BytecodeFold.Decoding
import BytecodeFold.Descriptor
import BytecodeFold.Encoding
import BytecodeFold.Error
import BytecodeFold.Event.Log
import BytecodeFold.Event.Stats
import BytecodeFold.Fold.Arithmetic
import BytecodeFold.Fold.Comparison
import BytecodeFold.Fold.Match
import BytecodeFold.Fold.Resolve
import BytecodeFold.Fold.Rule
import BytecodeFold.Fold.Schedule
import BytecodeFold.Fold.Session
import BytecodeFold.Handle
import BytecodeFold.Instruction.Basic
import BytecodeFold.Instruction.Size
import BytecodeFold.Instruction.Text
import BytecodeFold.Listing.Basic
import BytecodeFold.Listing.Layout
import BytecodeFold.Number.Basic
import BytecodeFold.Number.Conversion
import BytecodeFold.Number.Operation
import BytecodeFold.Opcode.Shape
import BytecodeFold.Opcode.Table
import BytecodeFold.Optimizer
import BytecodeFold.Proofs.Arena.Edit
import BytecodeFold.Proofs.Arena.Emission
import BytecodeFold.Proofs.Arena.Layout
import BytecodeFold.Proofs.Arena.Links
import BytecodeFold.Proofs.Arena.Listing
import BytecodeFold.Proofs.Arena.Positions
import BytecodeFold.Proofs.Arena.Sequence
import BytecodeFold.Proofs.Codec.Compact
import BytecodeFold.Proofs.Codec.Emission
import BytecodeFold.Proofs.Codec.Format
import BytecodeFold.Proofs.Codec.Parsing
import BytecodeFold.Proofs.Codec.Reading
import BytecodeFold.Proofs.Codec.RoundTrip
import BytecodeFold.Proofs.Codec.Typing
import BytecodeFold.Proofs.ConstantPool.Growth
import BytecodeFold.Proofs.Execution.Control
import BytecodeFold.Proofs.Execution.Folding
import BytecodeFold.Proofs.Execution.Machine
import BytecodeFold.Proofs.Execution.Preservation
import BytecodeFold.Proofs.Execution.Replacement
import BytecodeFold.Proofs.Execution.Simulation
import BytecodeFold.Proofs.Fold.Resolve
import BytecodeFold.Proofs.Fold.Scan
import BytecodeFold.Proofs.Fold.Shape
import BytecodeFold.Proofs.Listing.Edit
import BytecodeFold.Proofs.Listing.Layout
import BytecodeFold.Proofs.Listing.Renaming
import BytecodeFold.Proofs.Listing.Stream
import BytecodeFold.Proofs.Number.Typing
import BytecodeFold.Proofs.Outcome
import BytecodeFold.StackDepth
import BytecodeFold.TypeTag
import BytecodeFold.Proofs.Listing.Positions
import BytecodeFold.Proofs.Listing.Sequence
import BytecodeFold.Proofs.Codec.Regular
import BytecodeFold.Proofs.Optimizer.Stages
import BytecodeFold.Proofs.StackDepth
import BytecodeFold.Proofs.Optimizer.WellFormed
import BytecodeFold.Proofs.Fold.Attempt
import BytecodeFold.Proofs.Failure
import BytecodeFold.Proofs.Optimizer.Failure
import BytecodeFold.Proofs.Fold.Transport
import BytecodeFold.Proofs.Optimizer.Idempotence
import BytecodeFold.Proofs.Codec.Sizes
import BytecodeFold.Proofs.Fold.Reach
import BytecodeFold.Proofs.Fold.Run
import BytecodeFold.Proofs.Listing.History
import BytecodeFold.Proofs.Listing.Room
import BytecodeFold.Proofs.Optimizer.Frame
import BytecodeFold.Proofs.Optimizer.Length
import BytecodeFold.Proofs.Optimizer.Locations
import BytecodeFold.Proofs.Execution.Paths
import BytecodeFold.Proofs.Optimizer.Completeness
import BytecodeFold.Proofs.Fold.Atomicity
import BytecodeFold.Proofs.Fold.Ledger
import BytecodeFold.Proofs.Optimizer.Accounting
import BytecodeFold.Proofs.Fold.Grammar
import BytecodeFold.Proofs.Listing.Deletion
import BytecodeFold.Proofs.StackDepth.Levels
import BytecodeFold.Proofs.StackDepth.Replacement
import BytecodeFold.Proofs.StackDepth.Folding
import BytecodeFold.Proofs.Descriptor
import BytecodeFold.Proofs.Codec.Agreement
import BytecodeFold.Proofs.Codec.Displacement
import BytecodeFold.Proofs.Optimizer.Stabilisation
import BytecodeFold.Proofs.Codec.Partition
import BytecodeFold.Proofs.ConstantPool.Indexing
import BytecodeFold.Proofs.ConstantPool.References
import BytecodeFold.Proofs.Number.Words
import BytecodeFold.Proofs.Binary.Rounding
import BytecodeFold.Proofs.Binary.Integers
import BytecodeFold.Proofs.Number.Exactness
import BytecodeFold.Proofs.Listing.Rounds
import BytecodeFold.Proofs.Bytes.Calls
