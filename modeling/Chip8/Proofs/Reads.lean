import Chip8.Proofs.Faults
import Chip8.Proofs.Twins

/-!
The cells that a machine reads: those of the instruction word and those of the sprite or the block
that the instruction asks for. What the other cells hold makes no difference, however long the
machine runs and whatever it stores into them: `unread_cells_hidden`.
-/

namespace Chip8

def Instruction.readSize : Instruction → Nat
  | draw _ _ rows => rows.toNat
  | restore x => x + 1
  | _ => 0

namespace Machine

/-- The operation reads the cell: for the instruction word, unless the machine waits for a key, or
for the instruction itself. -/
def Reads (m : Machine) (op : Operation) (c : Fin 4096) : Prop :=
  (op = .step ∧ m.waiting = none ∧
    (c = m.registers.pc.cell ∨ c = (m.registers.pc.advance 1).cell)) ∨
  ∃ i, m.instruction? op = some i ∧
    ∃ k < i.readSize, c = (m.registers.index.advance (UInt16.ofNat k)).cell

variable {D : Set (Fin 4096)} {m : Machine} {μ : Memory} {op : Operation}

theorem sameIntake_memory (hμ : m.memory.AgreeOff D μ) (h : ∀ c ∈ D, ¬ m.Reads op c) :
    m.SameIntake { m with memory := μ } op := by
  refine ⟨?_, ?_⟩
  · intro hop hw
    rw [fetch_eq, fetch_eq]
    have hhigh := hμ m.registers.pc fun hD => h _ hD (.inl ⟨hop, hw, .inl rfl⟩)
    have hlow := hμ (m.registers.pc.advance 1) fun hD => h _ hD (.inl ⟨hop, hw, .inr rfl⟩)
    rw [hhigh, hlow]
  · intro i hi
    have hblock : ∀ k < i.readSize, (m.registers.index.advance (UInt16.ofNat k)).cell ∉ D :=
      fun k hk hD => h _ hD (.inr ⟨i, hi, k, hk, rfl⟩)
    cases i with
    | draw x y rows | restore x => exact congrArg Except.ok (hμ.block_eq hblock)
    | _ => rfl

/-- A machine that differs only in cells that are never read answers and logs the same, and in the
end it still differs in no other cell and in nothing else. -/
theorem unread_cells_hidden (D : Set (Fin 4096)) (m : Machine) (μ : Memory) (ops : List Operation)
    (hμ : m.memory.AgreeOff D μ)
    (hops : ∀ before op after, ops = before ++ op :: after →
      ∀ c ∈ D, ¬ (m.performAll before).Reads op c) :
    ({ m with memory := μ } : Machine).replies ops = m.replies ops ∧
      ∃ μ', ({ m with memory := μ } : Machine).performAll ops =
          { m.performAll ops with memory := μ' } ∧
        (m.performAll ops).memory.AgreeOff D μ' := by
  obtain ⟨hreplies, μ', hμ', hstate⟩ :=
    performAll_refit m.dialect m.random hμ ops <| by
      intro before op after hsplit μ hμ
      rw [← m.random_performAll_eq before, ← m.dialect_performAll before]
      exact sameIntake_memory hμ (hops before op after hsplit)
  refine ⟨hreplies, μ', hstate.trans ?_, hμ'⟩
  rw [← m.random_performAll_eq ops, ← m.dialect_performAll ops]
  rfl

/-- A sprite of two rows drawn from the cells 0 and 1, and a byte at 0x300 that no one reads. -/
theorem unread_cells_hidden_at_300 :
    let m := ((fresh {} (.ofSeed 8)).perform (.load #[0xD0, 0x02])).machine
    m.memory.AgreeOff {0x300} (m.memory.write 0x300 0xFF) ∧
      (∀ before op after, [Operation.step] = before ++ op :: after →
        ∀ c ∈ ({0x300} : Set (Fin 4096)), ¬ (m.performAll before).Reads op c) ∧
      ({ m with memory := m.memory.write 0x300 0xFF } : Machine).replies [.step] =
        m.replies [.step] := by
  intro m
  have hread := read_perform_load (m := fresh {} (.ofSeed 8)) (p := #[0xD0, 0x02]) (by decide)
  have hpc : m.registers.pc = 0x200 := rfl
  have hindex : m.registers.index = 0 := rfl
  have hf : m.fetch = 0xD002 := by
    rw [fetch_eq, hread, hread, hpc]
    rfl
  have hi : m.instruction? .step = some (.draw 0 0 2) := by
    rw [instruction?, hf]
    rfl
  have hμ : m.memory.AgreeOff {0x300} (m.memory.write 0x300 0xFF) := by
    intro a ha
    rw [Memory.read_write, if_neg]
    rintro ⟨hc, -⟩
    exact ha hc.symm
  have hops : ∀ before op after, [Operation.step] = before ++ op :: after →
      ∀ c ∈ ({0x300} : Set (Fin 4096)), ¬ (m.performAll before).Reads op c := by
    intro before op after h c hc hr
    obtain ⟨rfl, rfl, -⟩ : before = [] ∧ op = .step ∧ after = [] := by
      rcases before with _ | ⟨first, before⟩
      · simpa [eq_comm] using h
      · simp at h
    rw [performAll_nil] at hr
    obtain rfl : c = 0x300 := hc
    rcases hr with ⟨-, -, h | h⟩ | ⟨i, hj, k, hk, h⟩
    · rw [hpc] at h
      revert h
      decide
    · rw [hpc] at h
      revert h
      decide
    · obtain rfl := Option.some.inj (hi.symm.trans hj)
      rw [hindex] at h
      have hk : k < 2 := hk
      obtain rfl | rfl : k = 0 ∨ k = 1 := by omega
      · revert h
        decide
      · revert h
        decide
  exact ⟨hμ, hops, (unread_cells_hidden _ m _ _ hμ hops).1⟩

end Machine

end Chip8
