import Chip8.Proofs.Footprint
import Chip8.Proofs.History

/-!
The bounds that every machine keeps. The program counter alone cannot be bounded: a return takes
it from the call stack, and a key wait keeps a register number for later, so their bounds belong to
the invariant too. Main statement: `wellFormed_perform`, no operation breaks a bound as long as the
instructions it executes are decoded ones.
-/

namespace Chip8

theorem Word.toNat_advance_le (a k : Word) : (a.advance k).toNat ≤ 0xFFF :=
  Nat.le_of_lt_succ (a.advance_lt k)

namespace Machine

structure WellFormed (m : Machine) : Prop where
  pc : m.registers.pc.toNat ≤ 0xFFF
  index : m.registers.index.toNat ≤ 0xFFF
  depth : m.stack.depth ≤ 16
  frames : ∀ a ∈ m.stack.frames, a.toNat ≤ 0xFFF
  waiting : ∀ x, m.waiting = some x → x ≤ 15

theorem wellFormed_fresh (dialect : Dialect) (random : RandomSource) :
    (fresh dialect random).WellFormed := by
  constructor
  · show (512 : Word).toNat ≤ 0xFFF
    decide
  · show (0 : Word).toNat ≤ 0xFFF
    decide
  · exact Nat.zero_le _
  · intro a ha
    cases ha
  · intro x hx
    cases hx

theorem fitsWord_of_instruction? {m : Machine} {op : Operation} {i : Instruction}
    (hop : op.Decoded) (hi : m.instruction? op = some i) : i.FitsWord := by
  cases op with
  | step =>
    simp only [instruction?] at hi
    split at hi
    · exact (Instruction.ofWord?_eq_some_iff.mp hi).1
    · cases hi
  | execute j =>
    cases hi
    obtain ⟨w, hw⟩ := hop
    exact (Instruction.decode_eq_ok_iff.mp hw).1
  | _ => cases hi

variable {m : Machine} {i : Instruction} {e : Effect}

theorem WellFormed.target_le (h : m.WellFormed) (hi : i.FitsWord) (he : i.effect m = .ok e) :
    (e.flow.target m.registers.pc).toNat ≤ 0xFFF := by
  cases hf : e.flow with
  | next => exact Word.toNat_advance_le _ _
  | skip => exact Word.toNat_advance_le _ _
  | stay => exact h.pc
  | goto a =>
    show a.toNat ≤ 0xFFF
    rcases Instruction.goto_of_effect he hf with rfl | rfl | ⟨-, ha⟩ | ⟨b, k, -, rfl⟩
    · exact Nat.le_of_lt_succ hi
    · exact Nat.le_of_lt_succ hi
    · exact h.frames a ha
    · exact Word.toNat_advance_le _ _

theorem WellFormed.index_le (h : m.WellFormed) (he : i.effect m = .ok e) :
    e.machine.registers.index.toNat ≤ 0xFFF := by
  obtain heq | ⟨a, heq⟩ := Instruction.index_of_effect he
  · rw [heq]
    exact h.index
  · rw [heq]
    exact Nat.le_of_lt_succ a.nnn_lt

theorem WellFormed.stack_le (h : m.WellFormed) (he : i.effect m = .ok e) :
    e.machine.stack.depth ≤ 16 ∧ ∀ a ∈ e.machine.stack.frames, a.toNat ≤ 0xFFF := by
  obtain ⟨-, -, hs⟩ | ⟨a, -, hlt, hs⟩ | ⟨-, a, -, hs⟩ := Instruction.stack_of_effect he
  · rw [hs]
    exact ⟨h.depth, h.frames⟩
  · rw [CallStack.depth, hs]
    refine ⟨hlt, ?_⟩
    intro b hb
    rcases List.mem_cons.mp hb with rfl | hb
    · exact Word.toNat_advance_le _ _
    · exact h.frames b hb
  · have hd := h.depth
    have hf := h.frames
    rw [CallStack.depth, hs] at hd
    rw [hs] at hf
    exact ⟨Nat.le_of_succ_le hd, fun b hb => hf b (List.mem_cons_of_mem a hb)⟩

theorem WellFormed.waiting_le (h : m.WellFormed) (hi : i.FitsWord) (he : i.effect m = .ok e) :
    ∀ x, e.machine.waiting = some x → x ≤ 15 := by
  intro x hx
  by_cases hw : ∃ y, i = .waitKey y
  · obtain ⟨y, rfl⟩ := hw
    cases he
    cases hx
    exact Nat.le_of_lt_succ hi
  · rw [not_exists] at hw
    rw [(Instruction.footprint_of_effect he).waiting hw] at hx
    exact h.waiting x hx

theorem WellFormed.after (h : m.WellFormed) (hi : i.FitsWord) (he : i.effect m = .ok e) :
    (m.after e).WellFormed where
  pc := h.target_le hi he
  index := h.index_le he
  depth := (h.stack_le he).1
  frames := (h.stack_le he).2
  waiting := h.waiting_le hi he

theorem Performs.wellFormed {op : Operation} {result : Except Stop Answer} {m' : Machine}
    (hp : Performs m op result m') (h : m.WellFormed) (hop : op.Decoded) : m'.WellFormed := by
  cases hp with
  | refused | blocked | untaken => exact h
  | executed hi he => exact h.after (fitsWord_of_instruction? hop hi) he
  | resumed => exact ⟨Word.toNat_advance_le _ _, h.index, h.depth, h.frames, nofun⟩
  | reset => exact wellFormed_fresh m.dialect m.random
  | loaded | ticked | pressed | released | taken | discarded | cleared =>
    exact ⟨h.pc, h.index, h.depth, h.frames, h.waiting⟩

theorem wellFormed_perform {op : Operation} (h : m.WellFormed) (hop : op.Decoded) :
    (m.perform op).machine.WellFormed :=
  (m.performs_perform op).wellFormed h hop

theorem Reachable.wellFormed (h : m.Reachable) : m.WellFormed := by
  induction h with
  | fresh dialect random => exact wellFormed_fresh dialect random
  | perform _ hop ih => exact wellFormed_perform ih hop

end Machine

end Chip8
