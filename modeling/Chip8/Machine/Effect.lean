import Chip8.Instruction
import Chip8.Machine

/-!
What each instruction does. An effect is the machine after the instruction, with the program
counter still in place, and the way on from there.
-/

namespace Chip8

namespace Operator

/-- The result of an operation, and the carry or its like for those that set VF. -/
def apply : Operator → Byte → Byte → Byte × Option Bool
  | copy, _, b => (b, none)
  | or, a, b => (a ||| b, none)
  | and, a, b => (a &&& b, none)
  | xor, a, b => (a ^^^ b, none)
  | add, a, b => (a + b, some (256 ≤ a.toNat + b.toNat))
  | sub, a, b => (a - b, some (b ≤ a))
  | subFrom, a, b => (b - a, some (a ≤ b))

end Operator

namespace Direction

def apply : Direction → Byte → Byte × Bool
  | right, b => (b / 2, b.toNat % 2 = 1)
  | left, b => (b * 2, 128 ≤ b.toNat)

end Direction

inductive Flow
  | next
  | skip
  | goto (address : Word)
  | stay
deriving DecidableEq, Repr

namespace Flow

def skipIf (condition : Bool) : Flow := if condition then skip else next

/-- The next program counter. Only a jump can lead past the last address. -/
def target (pc : Word) : Flow → Word
  | next => pc.advance 2
  | skip => pc.advance 4
  | goto a => a
  | stay => pc

end Flow

structure Effect where
  machine : Machine
  flow : Flow := .next
  signal : Option Signal := none

def decimalDigits (b : Byte) : List Byte := [b / 100, b / 10 % 10, b % 10]

/-- Registers and the rows of a sprite are counted by one hexadecimal digit. -/
def operand (n : Nat) : Except Stop (Fin 16) :=
  if h : n < 16 then .ok ⟨n, h⟩ else .error .badOperand

/-- The register that a jump adds, counted by the top digit of the address or V0. -/
def Dialect.offsetRegister (d : Dialect) (address : Word) : Nat :=
  if d.jumpUsesVx then address.toNat / 256 else 0

def Dialect.shiftSource (d : Dialect) (x y : Nat) : Nat := if d.shiftUsesVy then y else x

namespace Instruction

def effect (m : Machine) : Instruction → Except Stop Effect
  | clearScreen =>
    .ok { machine := { m with screen := Screen.blank }, signal := some .screenDirty }
  | ret => do
    let (address, rest) ← m.stack.pop.mapError .fault
    .ok { machine := { m with stack := rest }, flow := .goto address }
  | sys _ => .ok { machine := m }
  | jump a => .ok { machine := m, flow := .goto a }
  | call a => do
    let stack ← (m.stack.push (m.registers.pc.advance 2)).mapError .fault
    .ok { machine := { m with stack := stack }, flow := .goto a }
  | skipByte test x b => do
    let x ← operand x
    .ok { machine := m, flow := .skipIf (test.holds (m.registers.get x) b) }
  | skipRegister test x y => do
    let x ← operand x
    let y ← operand y
    .ok { machine := m, flow := .skipIf (test.holds (m.registers.get x) (m.registers.get y)) }
  | setByte x b => do
    let x ← operand x
    .ok { machine := { m with registers := m.registers.set x b } }
  | addByte x b => do
    let x ← operand x
    .ok { machine := { m with registers := m.registers.set x (m.registers.get x + b) } }
  | combine op x y => do
    let x ← operand x
    let y ← operand y
    let (value, flag) := op.apply (m.registers.get x) (m.registers.get y)
    .ok { machine := { m with registers := m.registers.setResult x value flag } }
  | shift direction x y => do
    let source ← operand (m.dialect.shiftSource x y)
    let x ← operand x
    let (value, flag) := direction.apply (m.registers.get source)
    .ok { machine := { m with registers := m.registers.setResult x value (some flag) } }
  | setIndex a => .ok { machine := { m with registers := m.registers.setIndex a } }
  | jumpOffset a => do
    let x ← operand (m.dialect.offsetRegister a)
    .ok { machine := m, flow := .goto (a.advance (m.registers.get x).toUInt16) }
  | random x mask => do
    let x ← operand x
    let (byte, rest) := m.random.next
    .ok { machine := { m with registers := m.registers.set x (byte &&& mask), random := rest } }
  | draw x y rows => do
    let x ← operand x
    let y ← operand y
    let rows ← operand rows.toNat
    let sprite := m.memory.block m.registers.index rows.val
    let (screen, collision) := m.screen.draw (m.registers.get x) (m.registers.get y) sprite
    .ok
      { machine := { m with screen := screen, registers := m.registers.setFlag collision }
        signal := some .screenDirty }
  | skipKey held x => do
    let x ← operand x
    .ok { machine := m, flow := .skipIf (m.keypad.isPressed (m.registers.get x % 16) == held) }
  | readDelay x => do
    let x ← operand x
    .ok { machine := { m with registers := m.registers.set x m.registers.delay } }
  | waitKey x =>
    .ok
      { machine := { m with waiting := some x, keypad := m.keypad.discardPresses }
        flow := .stay
        signal := some (.blockedOnKey x) }
  | setDelay x => do
    let x ← operand x
    .ok { machine := { m with registers := { m.registers with delay := m.registers.get x } } }
  | setSound x => do
    let x ← operand x
    let edge := SoundEdge.between m.registers.sound (m.registers.get x)
    .ok
      { machine := { m with registers := { m.registers with sound := m.registers.get x } }
        signal := edge.map .sound }
  | addIndex x => do
    let x ← operand x
    let index := m.registers.index + (m.registers.get x).toUInt16
    .ok { machine := { m with registers := m.registers.setIndex index } }
  | pointGlyph x => do
    let x ← operand x
    let glyph := Font.glyphAddress ((m.registers.get x).toNat % 16)
    .ok { machine := { m with registers := m.registers.setIndex glyph } }
  | storeDecimal x => do
    let x ← operand x
    let digits := decimalDigits (m.registers.get x)
    .ok { machine := { m with memory := m.memory.store m.registers.index digits } }
  | dump x => do
    let x ← operand x
    let bytes := m.registers.v.toList.take (x.val + 1)
    .ok { machine := { m with memory := m.memory.store m.registers.index bytes } }
  | restore x => do
    let x ← operand x
    let bytes := m.memory.block m.registers.index (x.val + 1)
    .ok { machine := { m with registers := m.registers.setAll bytes } }

end Instruction

theorem operand_of_lt {n : Nat} (h : n < 16) : operand n = .ok ⟨n, h⟩ := dif_pos h

theorem operand_cases (n : Nat) :
    (∃ x : Fin 16, x.val = n ∧ operand n = .ok x) ∨ operand n = .error .badOperand := by
  by_cases h : n < 16
  · exact .inl ⟨⟨n, h⟩, rfl, operand_of_lt h⟩
  · exact .inr (dif_neg h)

theorem operand_eq_error_iff {n : Nat} : operand n = .error .badOperand ↔ 16 ≤ n := by
  unfold operand
  split
  · simp
    omega
  · simp
    omega

end Chip8
