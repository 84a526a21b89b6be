import Chip8.Numeral
import Chip8.Word

/-!
The faults of the machine, as causes, and the two texts of each: the message a user reads and a
record of its fields.
-/

namespace Chip8

/-- Why an operation was refused. None of them is mended inside the machine. -/
inductive Fault
  | unknownOpcode (opcode : Word)
  | stackOverflow (address : Word)
  | stackUnderflow
  | memoryOutOfRange (address : Nat)
  | loadTooLarge (size maxSize : Nat)
  | invalidKey (key : Byte)
deriving DecidableEq, Repr

namespace Fault

open Numeral (decimal hex)

def message : Fault → String
  | unknownOpcode w => String.join ["unknown opcode 0x", hex 4 w.toNat]
  | stackOverflow a => String.join ["stack overflow pushing return address 0x", hex 3 a.toNat]
  | stackUnderflow => "stack underflow: return with an empty call stack"
  | memoryOutOfRange a => String.join ["memory access out of range at 0x", hex 4 a]
  | loadTooLarge size maxSize =>
    String.join
      ["program is too large (", decimal size, " bytes), at most ", decimal maxSize, " bytes fit"]
  | invalidKey k => String.join ["key 0x", hex 1 k.toNat, " is not on the 16-key pad"]

def name : Fault → String
  | unknownOpcode _ => "UnknownOpcode"
  | stackOverflow _ => "StackOverflow"
  | stackUnderflow => "StackUnderflow"
  | memoryOutOfRange _ => "MemoryOutOfRange"
  | loadTooLarge _ _ => "LoadTooLarge"
  | invalidKey _ => "InvalidKey"

def fields : Fault → List (String × Nat)
  | unknownOpcode w => [("opcode", w.toNat)]
  | stackOverflow a => [("address", a.toNat)]
  | stackUnderflow => []
  | memoryOutOfRange a => [("address", a)]
  | loadTooLarge size maxSize => [("size", size), ("max_size", maxSize)]
  | invalidKey k => [("key", k.toNat)]

def field (f : String × Nat) : String := String.join [f.1, ": ", decimal f.2]

/-- The name alone, or the name and the fields in braces. -/
def record (f : Fault) : String :=
  match f.fields with
  | [] => f.name
  | fs => String.join [f.name, " \x7b ", ", ".intercalate (fs.map field), " \x7d"]

end Fault

end Chip8
