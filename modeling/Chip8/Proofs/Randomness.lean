import Chip8.Proofs.Twins

/-!
The random values a machine takes: one for each random instruction it executes, of which only the
bits under the mask of that instruction matter. Main statement: `draws_of_operations`.
-/

namespace Chip8

def RandomSource.byte (s : RandomSource) (k : Nat) : Byte :=
  UInt8.ofNat (s.value (s.taken + k)).toNat

namespace Machine

variable {m : Machine} {op : Operation}

theorem next_performAll (m : Machine) (ops : List Operation) :
    (m.performAll ops).random.next.1 = m.random.byte (m.draws ops).length := by
  rw [random_performAll_eq]
  rfl

/-- A machine takes the same from another source if its next byte is the same under the mask. -/
theorem sameIntake_random {r : RandomSource}
    (h : ∀ x mask, m.executed? op = some (.random x mask) →
      m.random.next.1 &&& mask = r.next.1 &&& mask) :
    m.SameIntake { m with random := r } op := by
  refine ⟨fun _ _ => rfl, ?_⟩
  intro i hi
  cases i with
  | random x mask =>
    simp only [Instruction.intake]
    rcases operand_cases x with ⟨k, -, hk⟩ | hk
    · have he : ∃ e, (Instruction.random x mask).effect m = .ok e := by
        simp only [Instruction.effect, hk]
        exact ⟨_, rfl⟩
      obtain ⟨e, he⟩ := he
      rw [hk, h x mask (executed?_of_effect hi he)]
    · rw [hk]
      rfl
  | _ => rfl

theorem getElem?_draws {before after : List Operation} {x : Nat} {mask : Byte}
    (hex : (m.performAll before).executed? op = some (.random x mask)) :
    (m.draws (before ++ op :: after))[(m.draws before).length]? = some mask := by
  simp [draws, executions_append, executions, hex, Instruction.mask?]

/-- Whatever is done to a machine, it takes one random value for each random instruction that it
executes and none otherwise, and it never goes back. Another source in its place makes no
difference to any answer, log or state if its values agree with those of the first under the masks
of these instructions. -/
theorem draws_of_operations (m : Machine) (r : RandomSource) (ops : List Operation) :
    (m.performAll ops).random =
      { m.random with taken := m.random.taken + (m.draws ops).length } ∧
    ((∀ k mask, (m.draws ops)[k]? = some mask →
        m.random.byte k &&& mask = r.byte k &&& mask) →
      ({ m with random := r } : Machine).replies ops = m.replies ops ∧
      ({ m with random := r } : Machine).performAll ops =
        { m.performAll ops with
          random := { r with taken := r.taken + (m.draws ops).length } }) := by
  refine ⟨m.random_performAll_eq ops, ?_⟩
  intro hbytes
  obtain ⟨hreplies, μ, hμ, hstate⟩ :=
    performAll_refit m.dialect r (.refl ∅ m.memory) ops <| by
      intro before op after hsplit μ hμ
      obtain rfl := hμ.eq
      rw [← m.dialect_performAll before]
      apply sameIntake_random
      intro x mask hex
      rw [next_performAll]
      exact hbytes _ mask (by rw [hsplit, getElem?_draws hex])
  obtain rfl := hμ.eq
  refine ⟨hreplies, hstate.trans ?_⟩
  rw [← m.dialect_performAll ops]
  rfl

/-- Two sources that have only the low digit of each value in common, and a mask that lets only
this digit through. -/
theorem draws_of_common_digit :
    let m := fresh {} (.cycle #[0x1F5])
    let r := RandomSource.cycle #[0x2A5]
    let ops := [Operation.execute (.random 0 0x0F), .reset, .execute (.random 1 0)]
    m.draws ops = [0x0F, 0] ∧
      (∀ k mask, (m.draws ops)[k]? = some mask →
        m.random.byte k &&& mask = r.byte k &&& mask) ∧
      ({ m with random := r } : Machine).replies ops = m.replies ops := by
  intro m r ops
  have hdraws : m.draws ops = [0x0F, 0] := rfl
  have hbytes : ∀ k mask, (m.draws ops)[k]? = some mask →
      m.random.byte k &&& mask = r.byte k &&& mask := by
    rw [hdraws]
    intro k mask hk
    have h0 : (RandomSource.cycle #[0x1F5]).byte 0 &&& 0x0F =
        (RandomSource.cycle #[0x2A5]).byte 0 &&& 0x0F := by decide
    match k, hk with
    | 0, hk =>
      cases hk
      exact h0
    | 1, hk =>
      cases hk
      rw [UInt8.and_zero, UInt8.and_zero]
  exact ⟨hdraws, hbytes, ((draws_of_operations m r ops).2 hbytes).1⟩

end Machine

end Chip8
