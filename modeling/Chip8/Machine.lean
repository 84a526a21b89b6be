import Chip8.CallStack
import Chip8.Keypad
import Chip8.RandomSource
import Chip8.Registers
import Chip8.Screen

/-!
The state of a machine and what a step of it can answer.
-/

namespace Chip8

/-- The two points on which programs of different ages disagree. -/
structure Dialect where
  /-- Shifts read VY; otherwise they shift VX in place. -/
  shiftUsesVy : Bool := false
  /-- An offset jump adds the register of its top digit; otherwise it adds V0. -/
  jumpUsesVx : Bool := false
deriving DecidableEq, Repr

/-- The dialect of the COSMAC VIP, the first machine of the kind. -/
def Dialect.cosmacVip : Dialect := { shiftUsesVy := true }

structure Machine where
  memory : Memory := Memory.blank
  registers : Registers := {}
  stack : CallStack := {}
  screen : Screen := Screen.blank
  keypad : Keypad := {}
  /-- The register that a key is awaited for. -/
  waiting : Option Nat := none
  dialect : Dialect
  random : RandomSource

inductive Signal
  | screenDirty
  | blockedOnKey (register : Nat)
  | sound (edge : SoundEdge)
deriving DecidableEq, Repr

/-- A step that succeeded: where the machine goes on, and the signal. -/
structure Step where
  nextPc : Word
  signal : Option Signal
deriving DecidableEq, Repr

def Step.isBlocked (s : Step) : Bool :=
  match s.signal with
  | some (.blockedOnKey _) => true
  | _ => false

theorem Step.isBlocked_iff {s : Step} :
    s.isBlocked = true ↔ ∃ x, s.signal = some (.blockedOnKey x) := by
  unfold Step.isBlocked
  split <;> simp_all

/-- Why the machine stopped: a fault, or an operand that is not a hexadecimal digit, which only an
instruction that no word stands for can have. -/
inductive Stop
  | fault (cause : Fault)
  | badOperand
deriving DecidableEq, Repr

def Stop.message : Stop → String
  | fault cause => cause.message
  | badOperand => "operand out of range"

namespace Machine

def fresh (dialect : Dialect) (random : RandomSource) : Machine :=
  { dialect := dialect, random := random }

def fetch (m : Machine) : Word := m.memory.readWord m.registers.pc

end Machine

end Chip8
