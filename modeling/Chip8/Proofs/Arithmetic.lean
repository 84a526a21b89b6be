import Chip8.Proofs.Footprint
import Chip8.Proofs.History

/-!
The arithmetic of two registers, either of which may be VF, and both of which may be one. The
operands are read before anything is written, and VF is written last. Main statement:
`arithmetic_under_aliasing`.
-/

namespace Chip8

theorem toNat_decide {p q : Prop} [Decidable p] [Decidable q] (h : p ↔ q) :
    (decide p).toNat = if q then 1 else 0 := by
  by_cases hq : q
  · simp [h, hq]
  · simp [h, hq]

theorem toNat_sub_byte (a b : Byte) : (a - b).toNat = (256 + a.toNat - b.toNat) % 256 := by
  have := b.toNat_lt
  rw [UInt8.toNat_sub]
  omega

theorem Direction.toNat_apply_right (b : Byte) :
    (right.apply b).1.toNat = b.toNat / 2 ∧ (right.apply b).2.toNat = b.toNat % 2 := by
  refine ⟨UInt8.toNat_div b 2, (toNat_decide Iff.rfl).trans ?_⟩
  rcases Nat.mod_two_eq_zero_or_one b.toNat with h | h
  · rw [h, if_neg (by decide)]
  · rw [h, if_pos rfl]

theorem Direction.toNat_apply_left (b : Byte) :
    (left.apply b).1.toNat = 2 * b.toNat % 256 ∧ (left.apply b).2.toNat = b.toNat / 128 := by
  have := b.toNat_lt
  refine ⟨?_, (toNat_decide Iff.rfl).trans ?_⟩
  · rw [Nat.mul_comm]
    exact UInt8.toNat_mul b 2
  · split
    · omega
    · omega

namespace Machine

/-- The word stands for an instruction, and this is what the machine answers to it. -/
def Obeys (m : Machine) (w : Word) (answer : Reply Step → Prop) : Prop :=
  ∃ i, Instruction.decode w = .ok i ∧ answer (m.execute i)

/-- A value is put into VX and nothing else is done. -/
structure Puts (m : Machine) (x : Fin 16) (value : Nat) (done : Reply Step) : Prop where
  result : done.result = .ok ⟨m.registers.pc.advance 2, none⟩
  value : (done.machine.registers.get x).toNat = value
  others : ∀ k, k ≠ x → done.machine.registers.get k = m.registers.get k
  /-- Only V0 to VF and the program counter are not what they were. -/
  frame : done.machine =
    { m with
      registers :=
        { m.registers with
          v := done.machine.registers.v, pc := m.registers.pc.advance 2 } }

/-- A value is put into VX and then a flag into VF, where it is what remains if VX is VF. -/
structure PutsWithFlag (m : Machine) (x : Fin 16) (value flag : Nat) (done : Reply Step) :
    Prop where
  result : done.result = .ok ⟨m.registers.pc.advance 2, none⟩
  value : x ≠ Registers.flag → (done.machine.registers.get x).toNat = value
  flag : (done.machine.registers.get Registers.flag).toNat = flag
  others : ∀ k, k ≠ x → k ≠ Registers.flag →
    done.machine.registers.get k = m.registers.get k
  frame : done.machine =
    { m with
      registers :=
        { m.registers with
          v := done.machine.registers.v, pc := m.registers.pc.advance 2 } }

def replyOf (m : Machine) (x : Fin 16) (value : Byte) (flag : Option Bool) : Reply Step where
  result := .ok ⟨m.registers.pc.advance 2, none⟩
  machine :=
    { m with
      registers := { m.registers.setResult x value flag with pc := m.registers.pc.advance 2 } }

theorem puts_replyOf (m : Machine) (x : Fin 16) (value : Byte) :
    m.Puts x value.toNat (m.replyOf x value none) where
  result := rfl
  value := by
    rw [replyOf, Registers.get_withPc, Registers.get_setResult_none, if_pos rfl]
  others := by
    intro k hk
    rw [replyOf, Registers.get_withPc, Registers.get_setResult_none, if_neg hk.symm]
  frame := rfl

theorem putsWithFlag_replyOf (m : Machine) (x : Fin 16) (value : Byte) (b : Bool) :
    m.PutsWithFlag x value.toNat b.toNat (m.replyOf x value (some b)) where
  result := rfl
  value := by
    intro hx
    rw [replyOf, Registers.get_withPc, Registers.get_setResult_some, if_neg hx.symm, if_pos rfl]
  flag := by
    rw [replyOf, Registers.get_withPc, Registers.get_setResult_some, if_pos rfl]
    cases b <;> rfl
  others := by
    intro k hx hflag
    rw [replyOf, Registers.get_withPc, Registers.get_setResult_some, if_neg hflag.symm,
      if_neg hx.symm]
  frame := rfl

theorem execute_combine (m : Machine) (op : Operator) (x y : Fin 16) :
    let made := op.apply (m.registers.get x) (m.registers.get y)
    m.execute (.combine op x.val y.val) = m.replyOf x made.1 made.2 := by
  simp only [execute, Instruction.effect, operand_of_lt x.isLt, operand_of_lt y.isLt]
  rfl

theorem execute_shift (m : Machine) (direction : Direction) (x y : Fin 16) :
    let source := if m.dialect.shiftUsesVy then m.registers.get y else m.registers.get x
    let made := direction.apply source
    m.execute (.shift direction x.val y.val) = m.replyOf x made.1 (some made.2) := by
  cases hd : m.dialect.shiftUsesVy with
  | false | true =>
    simp only [execute, Instruction.effect, Dialect.shiftSource, hd, if_true, if_false,
      Bool.false_eq_true, operand_of_lt x.isLt, operand_of_lt y.isLt]
    rfl

theorem execute_setByte (m : Machine) (x : Fin 16) (b : Byte) :
    m.execute (.setByte x.val b) = m.replyOf x b none := by
  simp only [execute, Instruction.effect, operand_of_lt x.isLt]
  rfl

theorem execute_addByte (m : Machine) (x : Fin 16) (b : Byte) :
    m.execute (.addByte x.val b) = m.replyOf x (m.registers.get x + b) none := by
  simp only [execute, Instruction.effect, operand_of_lt x.isLt]
  rfl

variable {m : Machine} {x y : Fin 16}

theorem obeys_toWord (i : Instruction) {answer : Reply Step → Prop} (hi : i.FitsWord)
    (h : answer (m.execute i)) : m.Obeys i.toWord answer :=
  ⟨i, Instruction.decode_eq_ok_iff.mpr ⟨hi, rfl⟩, h⟩

/-- An operation without a flag. -/
theorem obeys_combine (op : Operator) {value : Nat}
    (hvalue : (op.apply (m.registers.get x) (m.registers.get y)).1.toNat = value)
    (hflag : (op.apply (m.registers.get x) (m.registers.get y)).2 = none) :
    m.Obeys (Instruction.combine op x.val y.val).toWord (m.Puts x value) := by
  apply obeys_toWord (.combine op x.val y.val) ⟨x.isLt, y.isLt⟩
  rw [execute_combine, hflag, ← hvalue]
  exact m.puts_replyOf x _

/-- An operation that sets VF. -/
theorem obeys_combine_of_flag (op : Operator) {value flag : Nat} {b : Bool}
    (hvalue : (op.apply (m.registers.get x) (m.registers.get y)).1.toNat = value)
    (hb : (op.apply (m.registers.get x) (m.registers.get y)).2 = some b) (hflag : b.toNat = flag) :
    m.Obeys (Instruction.combine op x.val y.val).toWord (m.PutsWithFlag x value flag) := by
  apply obeys_toWord (.combine op x.val y.val) ⟨x.isLt, y.isLt⟩
  rw [execute_combine, hb, ← hvalue, ← hflag]
  exact m.putsWithFlag_replyOf x _ b

theorem obeys_shift (direction : Direction) {value flag : Nat} {source : Byte}
    (hsource : source = if m.dialect.shiftUsesVy then m.registers.get y else m.registers.get x)
    (h : (direction.apply source).1.toNat = value ∧ (direction.apply source).2.toNat = flag) :
    m.Obeys (Instruction.shift direction x.val y.val).toWord (m.PutsWithFlag x value flag) := by
  apply obeys_toWord (.shift direction x.val y.val) ⟨x.isLt, y.isLt⟩
  rw [execute_shift, ← hsource, ← h.1, ← h.2]
  exact m.putsWithFlag_replyOf x _ _

/-- The two-register arithmetic and the two forms with a byte, whichever registers they name. What
VX and VY hold before is what goes into the sum, the differences and the shifts. Five of the
instructions leave a flag in VF, also if VX is VF, and the others write to VX alone. -/
theorem arithmetic_under_aliasing (m : Machine) (x y : Fin 16) (nn : Byte) :
    let a := (m.registers.get x).toNat
    let b := (m.registers.get y).toNat
    let source := if m.dialect.shiftUsesVy then b else a
    let pair (n : Nat) : Word := UInt16.ofNat (Instruction.pairForm 0x8 x.val y.val n)
    let byte (family : Nat) : Word := UInt16.ofNat (Instruction.byteForm family x.val nn.toNat)
    m.Obeys (pair 0x4) (m.PutsWithFlag x ((a + b) % 256) (if 256 ≤ a + b then 1 else 0)) ∧
    m.Obeys (pair 0x5) (m.PutsWithFlag x ((256 + a - b) % 256) (if b ≤ a then 1 else 0)) ∧
    m.Obeys (pair 0x7) (m.PutsWithFlag x ((256 + b - a) % 256) (if a ≤ b then 1 else 0)) ∧
    m.Obeys (pair 0x6) (m.PutsWithFlag x (source / 2) (source % 2)) ∧
    m.Obeys (pair 0xE) (m.PutsWithFlag x (2 * source % 256) (source / 128)) ∧
    m.Obeys (pair 0x0) (m.Puts x b) ∧
    m.Obeys (pair 0x1) (m.Puts x (a ||| b)) ∧
    m.Obeys (pair 0x2) (m.Puts x (a &&& b)) ∧
    m.Obeys (pair 0x3) (m.Puts x (a ^^^ b)) ∧
    m.Obeys (byte 0x6) (m.Puts x nn.toNat) ∧
    m.Obeys (byte 0x7) (m.Puts x ((a + nn.toNat) % 256)) := by
  intro a b source pair byte
  -- the dialect chooses the byte to shift, and the statement chooses between numbers
  have hsource : source =
      (if m.dialect.shiftUsesVy then m.registers.get y else m.registers.get x).toNat := by
    cases h : m.dialect.shiftUsesVy with
    | false | true => simp [source, a, b, h]
  refine ⟨?_, ?_, ?_, ?_, ?_, ?_, ?_, ?_, ?_, ?_, ?_⟩
  · exact obeys_combine_of_flag .add (UInt8.toNat_add _ _) rfl (toNat_decide Iff.rfl)
  · exact obeys_combine_of_flag .sub (toNat_sub_byte _ _) rfl
      (toNat_decide UInt8.le_iff_toNat_le)
  · exact obeys_combine_of_flag .subFrom (toNat_sub_byte _ _) rfl
      (toNat_decide UInt8.le_iff_toNat_le)
  · rw [hsource]
    exact obeys_shift .right rfl (Direction.toNat_apply_right _)
  · rw [hsource]
    exact obeys_shift .left rfl (Direction.toNat_apply_left _)
  · exact obeys_combine .copy rfl rfl
  · exact obeys_combine .or (UInt8.toNat_or _ _) rfl
  · exact obeys_combine .and (UInt8.toNat_and _ _) rfl
  · exact obeys_combine .xor (UInt8.toNat_xor _ _) rfl
  · apply obeys_toWord (.setByte x.val nn) x.isLt
    rw [execute_setByte]
    exact m.puts_replyOf x nn
  · apply obeys_toWord (.addByte x.val nn) x.isLt
    rw [execute_addByte, ← UInt8.toNat_add]
    exact m.puts_replyOf x _

end Machine

end Chip8
