import Chip8.Machine.Operation
import Chip8.Machine.InPlace
import Chip8.Main
import Chip8.Proofs.Footprint
import Chip8.Proofs.History
import Chip8.Proofs.WellFormed
import Chip8.Proofs.InPlace
import Chip8.Proofs.Faults
import Chip8.Proofs.KeyWait
import Chip8.Proofs.Subroutine
import Chip8.Proofs.Draws
import Chip8.Proofs.Twins
import Chip8.Proofs.Randomness
import Chip8.Proofs.Reset
import Chip8.Proofs.Dialects
import Chip8.Proofs.Reads
import Chip8.Proofs.Timers
import Chip8.Proofs.Tone
import Chip8.Proofs.Interleaving
import Chip8.Proofs.Glyph
import Chip8.Proofs.Hits
import Chip8.Proofs.Drawings
import Chip8.Proofs.Balance
import Chip8.Proofs.DrawInstruction
import Chip8.Proofs.Playback
import Chip8.Proofs.Finish
import Chip8.Proofs.Pictures
import Chip8.Proofs.Rounds
import Chip8.Proofs.Truncation
import Chip8.Proofs.Trail
import Chip8.Proofs.Blocked
import Chip8.Proofs.Headless
import Chip8.Proofs.Diagnostics
import Chip8.Proofs.Journal
import Chip8.Proofs.Arithmetic
import Chip8.Proofs.Stores
import Chip8.Proofs.Successor
import Chip8.Proofs.Writes
import Chip8.Proofs.StoreInstructions
import Chip8.Proofs.BadOperands
import Chip8.Proofs.Loading
import Chip8.Proofs.KeyHistory
import Chip8.Proofs.Alignment
import Chip8.Proofs.Regions
import Chip8.Proofs.Scan
import Chip8.Proofs.InstructionText
import Chip8.Proofs.Trace
import Chip8.Proofs.PictureText
import Chip8.Proofs.FaultText
import Chip8.Proofs.LastWrite
import Chip8.Proofs.Bracketing
