import Chip8.Proofs.DecoderImage
import Chip8.Proofs.Faults

/-!
When an operand stops the machine. An instruction built by hand may name a register that does not
exist, and executing it then stops at that operand, unless it is the register of a key wait, which
is looked at only when a key has come. Main statement: `badOperand_exactly`.
-/

namespace Chip8

variable {n : Nat} {f : Fin 16 → Except Stop Effect} {p : Prop}

/-- An operand stops the machine if it is too large, or by what comes after it. -/
theorem bind_operand_eq_error_iff (hf : ∀ x, f x = .error .badOperand ↔ p) :
    (operand n >>= f) = .error .badOperand ↔ 15 < n ∨ p := by
  rcases operand_cases n with ⟨x, rfl, hx⟩ | hn
  · have hle : ¬ 15 < x.val := Nat.not_lt_of_le (Nat.le_of_lt_succ x.isLt)
    rw [hx, or_iff_right hle]
    exact hf x
  · rw [hn]
    exact iff_of_true rfl (.inl (operand_eq_error_iff.mp hn))

/-- The last operand. -/
theorem bind_operand_eq_error_iff_of_ok (hf : ∀ x, ∃ e, f x = .ok e) :
    (operand n >>= f) = .error .badOperand ↔ 15 < n := by
  rw [bind_operand_eq_error_iff (p := False), or_false]
  intro x
  obtain ⟨e, he⟩ := hf x
  rw [he]
  exact ⟨nofun, False.elim⟩

namespace Instruction

def lookups (d : Dialect) : Instruction → List Nat
  | waitKey _ => []
  | shift _ x y => if d.shiftUsesVy then [x, y] else [x]
  | i => i.registers

theorem effect_eq_badOperand_iff (m : Machine) (i : Instruction) :
    i.effect m = .error .badOperand ↔
      (∃ x ∈ i.lookups m.dialect, 15 < x) ∨ (∃ n ∈ i.rows?, 15 < n.toNat) ∨
        ∃ a, i = jumpOffset a ∧ m.dialect.jumpUsesVx = true ∧ 0xFFF < a.toNat := by
  cases i with
  | clearScreen | sys a | jump a | setIndex a | waitKey x =>
    simp [effect, lookups, registers, rows?]
  | ret =>
    cases hf : m.stack.frames with
    | nil => simp [effect_ret_of_nil hf, lookups, registers, rows?]
    | cons a rest => simp [effect_ret_of_cons hf, lookups, registers, rows?]
  | call a =>
    by_cases hd : m.stack.depth < 16
    · simp [effect_call_of_lt a hd, lookups, registers, rows?]
    · simp [effect_call_of_le a (Nat.le_of_not_lt hd), lookups, registers, rows?]
  | skipByte test x b | setByte x b | addByte x b | random x b | skipKey held x | readDelay x
  | setDelay x | setSound x | addIndex x | pointGlyph x | storeDecimal x | dump x | restore x =>
    rw [effect, bind_operand_eq_error_iff_of_ok fun _ => ⟨_, rfl⟩]
    simp [lookups, registers, rows?]
  | skipRegister test x y | combine op x y =>
    rw [effect, bind_operand_eq_error_iff fun _ =>
      bind_operand_eq_error_iff_of_ok fun _ => ⟨_, rfl⟩]
    simp [lookups, registers, rows?]
  | shift direction x y =>
    rw [effect, bind_operand_eq_error_iff fun _ =>
      bind_operand_eq_error_iff_of_ok fun _ => ⟨_, rfl⟩]
    cases hd : m.dialect.shiftUsesVy with
    | true => simp [lookups, rows?, Dialect.shiftSource, hd, or_comm]
    | false => simp [lookups, rows?, Dialect.shiftSource, hd]
  | draw x y rows =>
    rw [effect, bind_operand_eq_error_iff fun _ => bind_operand_eq_error_iff fun _ =>
      bind_operand_eq_error_iff_of_ok fun _ => ⟨_, rfl⟩]
    simp [lookups, registers, rows?, or_assoc]
  | jumpOffset a =>
    rw [effect, bind_operand_eq_error_iff_of_ok fun _ => ⟨_, rfl⟩]
    cases hd : m.dialect.jumpUsesVx with
    | true =>
      have hdigit : 15 < a.toNat / 256 ↔ 0xFFF < a.toNat := by omega
      simp [lookups, registers, rows?, Dialect.offsetRegister, hd, hdigit]
    | false => simp [lookups, registers, rows?, Dialect.offsetRegister, hd]

end Instruction

namespace Machine

/-- A key has come that is awaited for a register that does not exist. -/
def AwaitsInVain (m : Machine) : Prop :=
  ∃ x, m.waiting = some x ∧ 15 < x ∧ ∃ key, m.keypad.Latched key

theorem poll_eq_badOperand_iff (m : Machine) (x : Nat) :
    (m.poll x).result = .error .badOperand ↔ 15 < x ∧ ∃ key, m.keypad.Latched key := by
  rw [poll]
  cases hp : m.keypad.takePress with
  | none =>
    have hnone := Keypad.takePress_eq_none_iff.mp hp
    simp [hnone]
  | some taken =>
    have hlatched : ∃ key, m.keypad.Latched key :=
      ⟨_, (Keypad.takePress_eq_some_iff.mp hp).1⟩
    rcases operand_cases x with ⟨target, rfl, hx⟩ | hx
    · have hle : ¬ 15 < target.val := Nat.not_lt_of_le (Nat.le_of_lt_succ target.isLt)
      simp [hx, hle]
    · have hlt : 15 < x := operand_eq_error_iff.mp hx
      simp [hx, hlt, hlatched]

theorem step_eq_badOperand_iff (m : Machine) :
    m.step.result = .error .badOperand ↔ m.AwaitsInVain := by
  cases hw : m.waiting with
  | some x => simp [step_eq_poll hw, poll_eq_badOperand_iff, AwaitsInVain, hw]
  | none =>
    have hnot : ¬ m.AwaitsInVain := by
      rintro ⟨x, hx, -⟩
      rw [hw] at hx
      cases hx
    refine iff_of_false ?_ hnot
    cases hd : Instruction.decode m.fetch with
    | error fault => simp [step, hw, hd]
    | ok i =>
      rw [result_step_of_decode hw hd, result_execute_eq_error_iff,
        Instruction.effect_eq_error_iff (Instruction.decode_eq_ok_iff.mp hd).1]
      simp

/-- An operand stops an instruction if it names a register that does not exist, or a sprite of more
than fifteen rows. What stops a step is a key that is awaited for such a register, and decoded
instructions never lead there. -/
theorem badOperand_exactly :
    (∀ (m : Machine) (i : Instruction), (m.execute i).result = .error .badOperand ↔
      (∃ x ∈ i.lookups m.dialect, 15 < x) ∨ (∃ n ∈ i.rows?, 15 < n.toNat) ∨
        ∃ a, i = .jumpOffset a ∧ m.dialect.jumpUsesVx = true ∧ 0xFFF < a.toNat) ∧
    (∀ m : Machine, m.step.result = .error .badOperand ↔ m.AwaitsInVain) ∧
    ∀ dialect random ops, (∀ op ∈ ops, op.Decoded) →
      ¬ ((fresh dialect random).performAll ops).AwaitsInVain := by
  refine ⟨?_, step_eq_badOperand_iff, ?_⟩
  · intro m i
    rw [result_execute_eq_error_iff]
    exact i.effect_eq_badOperand_iff m
  · rintro dialect random ops hops ⟨x, hw, hx, -⟩
    have hreachable := (Reachable.fresh dialect random).performAll hops
    exact Nat.not_le_of_lt hx (hreachable.wellFormed.waiting x hw)

/-- A wait for the seventeenth register succeeds, and so does the press; only the step after them
meets the operand. The same wait for VF comes from a word. -/
theorem badOperand_of_wait_in_vain :
    let start := fresh {} (.ofSeed 8)
    let vain := start.performAll [.execute (.waitKey 16), .press 5]
    let sound := start.performAll [.execute (.waitKey 15), .press 5]
    (∃ step, (start.execute (.waitKey 16)).result = .ok step) ∧
      vain.step.result = .error .badOperand ∧
      (∀ op ∈ [Operation.execute (.waitKey 15), .press 5], op.Decoded) ∧
      sound.step.result ≠ .error .badOperand := by
  intro start vain sound
  have hops : ∀ op ∈ [Operation.execute (.waitKey 15), .press 5], op.Decoded := by
    rw [List.forall_mem_cons, List.forall_mem_singleton]
    exact ⟨⟨0xFF0A, rfl⟩, trivial⟩
  obtain ⟨-, hstep, hnever⟩ := badOperand_exactly
  refine ⟨⟨_, rfl⟩, (hstep vain).mpr ⟨16, rfl, by decide, 5, by decide⟩, hops, ?_⟩
  rw [Ne, hstep]
  exact hnever {} (.ofSeed 8) _ hops

end Machine

end Chip8
