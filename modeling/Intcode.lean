import Intcode.Listing
import Intcode.Tape
import Intcode.Program
import Intcode.Machine.Together
import Intcode.Pipeline.Run
import Intcode.Command.Argument
import Intcode.Command.Run
import Intcode.Command.Pipe
import Intcode.Command.Decode
import Intcode.Config.Reader
import Intcode.Config.Search
import Intcode.Program.File
import Intcode.Files.Tree
import Intcode.CommandLine.Launch
import Intcode.Main
import Intcode.Proofs.Pipeline.Coordinator
import Intcode.Proofs.Pipeline.Cancellation
import Intcode.Proofs.Pipeline.RootCause
import Intcode.Proofs.Pipeline.Determinism
import Intcode.Proofs.Pipeline.Drive
import Intcode.Proofs.Pipeline.SerialRun
import Intcode.Proofs.Pipeline.SerialAgreement
import Intcode.Proofs.Endless.Machine
import Intcode.Proofs.Endless.Refinement
import Intcode.Proofs.Machine.Rest
import Intcode.Proofs.Machine.Arrival
import Intcode.Proofs.Machine.Exchange
import Intcode.Proofs.Machine.RunModes
import Intcode.Proofs.Pipeline.Flow
import Intcode.Proofs.Pipeline.Signal
import Intcode.Proofs.Pipeline.Conservation
import Intcode.Proofs.Machine.Limit
import Intcode.Proofs.Machine.Truncation
import Intcode.Proofs.Program.TextForm
import Intcode.Proofs.Command.Conversation
import Intcode.Proofs.Command.Interactive
import Intcode.Proofs.Instruction.WordForm
import Intcode.Proofs.Listing.Tiling
import Intcode.Proofs.Machine.FaultOrder
import Intcode.Proofs.Machine.Likeness
import Intcode.Proofs.Pipeline.LoneRuns
import Intcode.Proofs.Listing.Text
import Intcode.Proofs.Machine.Footprint
import Intcode.Proofs.Machine.Overflow
import Intcode.Proofs.Command.Reading
import Intcode.Proofs.Console.Bounded
import Intcode.Proofs.Command.FullStreams
import Intcode.Proofs.Command.Arguments
import Intcode.Proofs.Command.Printing
import Intcode.Proofs.Report.Json
import Intcode.Proofs.Report.Text
import Intcode.Proofs.Report.Values
import Intcode.Proofs.Listing.Execution
import Intcode.Proofs.Hub.Signals
import Intcode.Proofs.Failure.Causes
import Intcode.Proofs.Config.InForce
import Intcode.Proofs.Tape.Accesses
