import Chip8.Instruction.Text
import Chip8.Machine

/-!
What the machine writes to its log: the events and their lines.
-/

namespace Chip8

inductive Level
  | trace
  | debug
  | info
  | warn
deriving DecidableEq, Repr

def Level.name : Level → String
  | trace => "TRACE"
  | debug => "DEBUG"
  | info => "INFO"
  | warn => "WARN"

inductive Event
  | executing (pc word : Word) (instruction : Instruction)
  | resetting
  | loaded (size : Nat)
  | ignoredRoutine (address : Word)
  | awaitingKey (register : Nat)
  | keyTaken (key register : Nat)
  | sound (edge : SoundEdge)
deriving DecidableEq, Repr

namespace Event

open Numeral (decimal hex)

def level : Event → Level
  | executing _ _ _ => .trace
  | _ => .debug

def text : Event → String
  | executing pc word i =>
    String.join ["0x", hex 3 pc.toNat, ": ", hex 4 word.toNat, " ", i.text]
  | resetting => "resetting machine"
  | loaded size => String.join ["loaded ", decimal size, " byte program"]
  | ignoredRoutine a => String.join ["ignoring machine code routine at 0x", hex 3 a.toNat]
  | awaitingKey x => String.join ["waiting for key into V", hex 1 x]
  | keyTaken k x => String.join ["key ", hex 1 k, " pressed, stored in V", hex 1 x]
  | sound edge => String.join ["sound ", edge.name]

def line (e : Event) : String := String.join [e.level.name, " ", e.text]

end Event

/-- What an instruction logs when it is carried out. -/
def Instruction.notes : Instruction → List Event
  | sys a => [.ignoredRoutine a]
  | waitKey x => [.awaitingKey x]
  | _ => []

end Chip8
