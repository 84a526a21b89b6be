import Chip8.Word

/-!
The instruction set. Register operands are plain numbers. A decoded instruction names registers
that exist; one built by hand may not, and executing it then stops the machine.
-/

namespace Chip8

/-- What a skip asks of two bytes. -/
inductive Comparison
  | equal
  | different
deriving DecidableEq, Repr

def Comparison.holds : Comparison → Byte → Byte → Bool
  | equal, a, b => a == b
  | different, a, b => a != b

inductive Operator
  | copy
  | or
  | and
  | xor
  | add
  | sub
  | subFrom
deriving DecidableEq, Repr

inductive Direction
  | right
  | left
deriving DecidableEq, Repr

inductive Instruction
  /-- Written `00E0`. -/
  | clearScreen
  /-- Return from a subroutine, `00EE`. -/
  | ret
  /-- A machine code routine, `0NNN`, which is not run. -/
  | sys (address : Word)
  /-- Written `1NNN`. -/
  | jump (address : Word)
  /-- Written `2NNN`. -/
  | call (address : Word)
  /-- Compares VX with a byte, `3XNN` and `4XNN`. -/
  | skipByte (test : Comparison) (x : Nat) (byte : Byte)
  /-- Compares VX with VY, `5XY0` and `9XY0`. -/
  | skipRegister (test : Comparison) (x y : Nat)
  /-- Written `6XNN`. -/
  | setByte (x : Nat) (byte : Byte)
  /-- Adds to VX without a carry, `7XNN`. -/
  | addByte (x : Nat) (byte : Byte)
  /-- Puts the result of an operation on VX and VY into VX, `8XY0` to `8XY5` and `8XY7`. -/
  | combine (op : Operator) (x y : Nat)
  /-- Shifts by one bit, `8XY6` and `8XYE`. -/
  | shift (direction : Direction) (x y : Nat)
  /-- Written `ANNN`. -/
  | setIndex (address : Word)
  /-- Jumps to an address plus a register, `BNNN`. -/
  | jumpOffset (address : Word)
  /-- Puts a random byte under a mask into VX, `CXNN`. -/
  | random (x : Nat) (mask : Byte)
  /-- Draws the sprite at I, `DXYN`. -/
  | draw (x y : Nat) (rows : Byte)
  /-- Skips if the key in VX is held, `EX9E`, or if it is not, `EXA1`. -/
  | skipKey (held : Bool) (x : Nat)
  /-- Written `FX07`. -/
  | readDelay (x : Nat)
  /-- Waits for a new press and puts the key into VX, `FX0A`. -/
  | waitKey (x : Nat)
  /-- Written `FX15`. -/
  | setDelay (x : Nat)
  /-- Written `FX18`. -/
  | setSound (x : Nat)
  /-- Adds VX to I, `FX1E`. -/
  | addIndex (x : Nat)
  /-- Points I to the glyph of the digit in VX, `FX29`. -/
  | pointGlyph (x : Nat)
  /-- Stores the three decimal digits of VX at I, `FX33`. -/
  | storeDecimal (x : Nat)
  /-- Stores V0 to VX at I, `FX55`. -/
  | dump (x : Nat)
  /-- Fills V0 to VX from I, `FX65`. -/
  | restore (x : Nat)
deriving DecidableEq, Repr

end Chip8
