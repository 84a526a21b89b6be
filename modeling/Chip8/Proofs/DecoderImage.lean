import Chip8.Instruction.Decode

/-!
Which instructions a word can stand for: those whose operands are small enough, but for two routine
calls whose words mean something else. Main statement: `decoder_image`.
-/

namespace Chip8.Instruction

def registers : Instruction → List Nat
  | clearScreen | ret | sys _ | jump _ | call _ | setIndex _ | jumpOffset _ => []
  | skipRegister _ x y | combine _ x y | shift _ x y | draw x y _ => [x, y]
  | skipByte _ x _ | setByte x _ | addByte x _ | random x _ | skipKey _ x | readDelay x | waitKey x
  | setDelay x | setSound x | addIndex x | pointGlyph x | storeDecimal x | dump x | restore x => [x]

def address? : Instruction → Option Word
  | sys a | jump a | call a | setIndex a | jumpOffset a => some a
  | _ => none

def rows? : Instruction → Option Byte
  | draw _ _ rows => some rows
  | _ => none

/-- To fit into a word is a matter of each operand alone, and of two calls. -/
theorem fitsWord_iff (i : Instruction) :
    i.FitsWord ↔ (∀ x ∈ i.registers, x ≤ 15) ∧ (∀ a ∈ i.address?, a.toNat ≤ 0xFFF) ∧
      (∀ n ∈ i.rows?, n.toNat ≤ 15) ∧ i ≠ sys 0x0E0 ∧ i ≠ sys 0x0EE := by
  cases i <;> simp [FitsWord, registers, address?, rows?, Nat.lt_succ_iff, and_assoc]

theorem exists_decode_iff (i : Instruction) : (∃ w, decode w = .ok i) ↔ i.FitsWord := by
  constructor
  · rintro ⟨w, hw⟩
    exact (decode_eq_ok_iff.mp hw).1
  · intro hi
    exact ⟨i.toWord, decode_eq_ok_iff.mpr ⟨hi, rfl⟩⟩

/-- Both words are the one that the instruction is written as. -/
theorem word_unique {i : Instruction} {v w : Word} (hv : decode v = .ok i) (hw : decode w = .ok i) :
    v = w := by
  obtain ⟨-, rfl⟩ := decode_eq_ok_iff.mp hv
  exact (decode_eq_ok_iff.mp hw).2

/-- An instruction is what some word stands for if its operands fit, two routine calls apart. No two
words stand for the same one, and a word that stands for none is refused and named. -/
theorem decoder_image :
    (∀ i : Instruction,
      ((∃ w, decode w = .ok i) ↔
        (∀ x ∈ i.registers, x ≤ 15) ∧ (∀ a ∈ i.address?, a.toNat ≤ 0xFFF) ∧
          (∀ n ∈ i.rows?, n.toNat ≤ 15) ∧ i ≠ sys 0x0E0 ∧ i ≠ sys 0x0EE) ∧
      ∀ v w, decode v = .ok i → decode w = .ok i → v = w) ∧
    ∀ w, (∀ i, decode w ≠ .ok i) ↔ decode w = .error (.unknownOpcode w) := by
  refine ⟨?_, ?_⟩
  · intro i
    rw [exists_decode_iff, fitsWord_iff]
    exact ⟨Iff.rfl, fun v w => word_unique⟩
  · intro w
    rw [decode_eq_error_iff]
    exact (and_iff_left rfl).symm

end Chip8.Instruction
