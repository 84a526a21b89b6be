import Chip8.Proofs.Footprint
import Chip8.Proofs.History

/-!
What becomes of the dialect and of the random source. The dialect stays, and the source gives one
value for each random instruction that is executed, whatever else is done: `random_performAll_eq`.
-/

namespace Chip8

def Instruction.mask? : Instruction → Option Byte
  | random _ mask => some mask
  | _ => none

theorem Instruction.mask?_eq_none_iff {i : Instruction} :
    i.mask? = none ↔ ∀ x mask, i ≠ random x mask := by
  cases i <;> simp [mask?]

namespace Machine

/-- The masks of the random instructions executed in the course of the operations, in turn. -/
def draws (m : Machine) (ops : List Operation) : List Byte :=
  (m.executions ops).filterMap Instruction.mask?

variable {m : Machine} {op : Operation}

theorem Performs.dialect {result : Except Stop Answer} {m' : Machine}
    (hp : Performs m op result m') : m'.dialect = m.dialect := by
  cases hp with
  | executed hi he => exact (Instruction.footprint_of_effect he).dialect
  | reset => rw [machine_reset, dialect_fresh]
  | refused | blocked | resumed | loaded | ticked | pressed | released | untaken | taken
  | discarded | cleared => rfl

theorem dialect_performAll (m : Machine) (ops : List Operation) :
    (m.performAll ops).dialect = m.dialect := by
  induction ops generalizing m with
  | nil => rfl
  | cons op ops ih => rw [performAll_cons, ih, (m.performs_perform op).dialect]

theorem draws_singleton (m : Machine) (op : Operation) :
    m.draws [op] = (m.executed? op).toList.filterMap Instruction.mask? := by
  simp [draws, executions]

theorem draws_append (m : Machine) (ops more : List Operation) :
    m.draws (ops ++ more) = m.draws ops ++ (m.performAll ops).draws more := by
  rw [draws, draws, draws, executions_append, List.filterMap_append]

theorem random_perform (m : Machine) (op : Operation) :
    (m.perform op).machine.random =
      { m.random with taken := m.random.taken + (m.draws [op]).length } := by
  rw [draws_singleton]
  rcases hex : m.executed? op with _ | i
  · exact (idle_of_executed?_eq_none hex).random
  · obtain ⟨e, he, hm⟩ := effect_of_executed? hex
    rw [hm]
    show e.machine.random = _
    rcases Instruction.random_of_effect he with ⟨hi, hr⟩ | ⟨⟨x, mask, rfl⟩, hr⟩
    · simp [hr, Instruction.mask?_eq_none_iff.mpr hi]
    · rw [hr]
      rfl

/-- The source is the same stream, and one value is taken for each random instruction. -/
theorem random_performAll_eq (m : Machine) (ops : List Operation) :
    (m.performAll ops).random =
      { m.random with taken := m.random.taken + (m.draws ops).length } := by
  induction ops generalizing m with
  | nil => rfl
  | cons op ops ih =>
    have hdraws := m.draws_append [op] ops
    rw [List.singleton_append, performAll_cons, performAll_nil] at hdraws
    rw [performAll_cons, ih, random_perform, hdraws, List.length_append, Nat.add_assoc]

end Machine

end Chip8
