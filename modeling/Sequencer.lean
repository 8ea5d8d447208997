import Sequencer.Main
import Sequencer.Proofs.Command.Cache
import Sequencer.Proofs.Design.ControlFlow
import Sequencer.Proofs.Handshake.Safety
import Sequencer.Proofs.Lowering.Chains
import Sequencer.Proofs.Lowering.Folding
import Sequencer.Proofs.Lowering.Unrolling
import Sequencer.Proofs.Program.Incomplete
import Sequencer.Proofs.Program.RoundTrip
import Sequencer.Proofs.Project.Ports
import Sequencer.Proofs.Reference.Equivalence
import Sequencer.Proofs.Register.Selection
import Sequencer.Proofs.Simulation.Delivery
import Sequencer.Proofs.Simulation.Idling
import Sequencer.Proofs.Simulation.Bounds
import Sequencer.Proofs.Token.BlankLines
import Sequencer.Proofs.Token.Blocks
import Sequencer.Proofs.Token.EndOfText
import Sequencer.Proofs.Token.LineEndings
import Sequencer.Proofs.Token.Tiling
import Sequencer.Proofs.Verilog.Constants
import Sequencer.Proofs.Verilog.Runs
import Sequencer.Proofs.Verilog.TrueWidths
import Sequencer.Proofs.Verilog.WireOrder
