import Chip8.Proofs.Randomness

/-!
A reset makes a new machine. The one thing it keeps besides the dialect is the random source, of
which a host can see no more than the values still to come. Two machines that agree in these and
in everything else cannot be told apart by any operations (`Alike.performAll`), and a machine after
a reset is such a twin of one just switched on: `reset_indistinguishable`.
-/

namespace Chip8

namespace Machine

/-- The machines agree in all that can be read off them, and in the random values to come. -/
def Alike (m n : Machine) : Prop := ∃ r, n = { m with random := r } ∧ m.random.rest = r.rest

end Machine

structure Reply.Alike {α : Type} (r t : Reply α) : Prop where
  result : r.result = t.result
  log : r.log = t.log
  machine : r.machine.Alike t.machine

namespace Machine

variable {m n : Machine}

theorem alike_fresh {r t : RandomSource} (dialect : Dialect) (h : r.rest = t.rest) :
    (fresh dialect r).Alike (fresh dialect t) :=
  ⟨t, rfl, h⟩

/-- An operation answers the same on machines that are alike, and leaves them alike. -/
theorem Alike.perform (h : m.Alike n) (op : Operation) : (m.perform op).Alike (n.perform op) := by
  obtain ⟨r, rfl, hr⟩ := h
  have htwins : m.Twins ∅ { m with random := r } := ⟨m.memory, m.dialect, r, rfl, .refl ∅ _⟩
  have hi : m.SameIntake { m with random := r } op :=
    sameIntake_random fun x mask _ => by rw [RandomSource.next_of_rest_eq hr]
  obtain ⟨hresult, hlog, hmachine⟩ := htwins.perform hi
  have hd := (performs_perform { m with random := r } op).dialect.trans
    (performs_perform m op).dialect.symm
  refine ⟨hresult, hlog, _, hmachine.eq_withRandom hd, ?_⟩
  rw [random_perform, random_perform, draws_singleton, draws_singleton, htwins.executed?_eq hi]
  exact RandomSource.rest_of_rest_eq hr _

theorem Alike.performAll (h : m.Alike n) (ops : List Operation) :
    m.replies ops = n.replies ops ∧ (m.performAll ops).Alike (n.performAll ops) := by
  induction ops generalizing m n with
  | nil => exact ⟨rfl, h⟩
  | cons op ops ih =>
    obtain ⟨hresult, hlog, hmachine⟩ := h.perform op
    obtain ⟨hreplies, halike⟩ := ih hmachine
    refine ⟨?_, halike⟩
    rw [replies, replies, hresult, hlog, hreplies]

/-- The source is the same stream, with some more of its values taken. -/
theorem random_performAll (m : Machine) (ops : List Operation) :
    ∃ k, (m.performAll ops).random = { m.random with taken := m.random.taken + k } :=
  ⟨_, m.random_performAll_eq ops⟩

/-- A machine that is reset, whatever has been done to it, cannot be told apart from one just
switched on with the same dialect and the random values that were still to come: all operations
answer and log the same on both, and leave both in the same state. -/
theorem reset_indistinguishable (dialect : Dialect) (random : RandomSource)
    (past later : List Operation) :
    let m := (fresh dialect random).performAll past
    let new := fresh dialect m.random.rest
    (∃ k, m.random = { random with taken := random.taken + k }) ∧
      m.reset.machine.replies later = new.replies later ∧
      (m.reset.machine.performAll later).Alike (new.performAll later) := by
  intro m new
  have h : m.reset.machine.Alike new := by
    rw [machine_reset, dialect_performAll, dialect_fresh]
    exact alike_fresh dialect m.random.rest_rest.symm
  refine ⟨?_, h.performAll later⟩
  have hrandom := random_performAll (fresh dialect random) past
  rwa [random_fresh] at hrandom

end Machine

end Chip8
