import CborGraph.Data
import CborGraph.Encoder
import CborGraph.Proofs.HeadReader
import CborGraph.Proofs.Magnitude
import CborGraph.Proofs.Widening
import CborGraph.Proofs.Item
import CborGraph.Proofs.ItemReader
import CborGraph.Proofs.BuiltinTable
import CborGraph.Proofs.Reading
import CborGraph.Proofs.Run
import CborGraph.Proofs.ScalarRun
import CborGraph.Proofs.Walk
import CborGraph.Proofs.Nesting
import CborGraph.Proofs.WalkRun
import CborGraph.Proofs.Failure
import CborGraph.Proofs.Sized
import CborGraph.Proofs.WalkItem
import CborGraph.Proofs.Image
import CborGraph.Proofs.Encounters
import CborGraph.Proofs.Sharing
import CborGraph.Proofs.Linked
import CborGraph.Proofs.Cycles
import CborGraph.Proofs.Frame
import CborGraph.Proofs.Integers
import CborGraph.Proofs.FullSink
import CborGraph.Proofs.Renaming
import CborGraph.Proofs.Limit
import CborGraph.Proofs.Restoring
import CborGraph.Proofs.Document
import CborGraph.Proofs.Reuse
import CborGraph.Proofs.Calls
import CborGraph.Proofs.Reach
import CborGraph.Proofs.Termination
import CborGraph.Proofs.Journal
import CborGraph.Proofs.Unsharing
import CborGraph.Proofs.Dispatching
import CborGraph.Proofs.Overrides
import CborGraph.Proofs.Markless
import CborGraph.Proofs.Suspension
import CborGraph.Proofs.DataItem
import CborGraph.Proofs.Planting
import CborGraph.Proofs.Serialised
import CborGraph.Proofs.Precedence
import CborGraph.Proofs.Narrowing
import CborGraph.Proofs.CanonicalInteger
import CborGraph.Proofs.DecimalLiteral
import CborGraph.Proofs.LowestTerms
import CborGraph.Proofs.Gregorian
import CborGraph.Proofs.PaddedNumeral
import CborGraph.Proofs.DateTimeForm
import CborGraph.Proofs.IsoReading
import CborGraph.Proofs.IsoShape
import CborGraph.Proofs.Rounding
import CborGraph.Proofs.Timestamp
import CborGraph.Proofs.HeadForms
import CborGraph.Proofs.Borrow
import CborGraph.Proofs.Carry
import CborGraph.Proofs.LocalTime
