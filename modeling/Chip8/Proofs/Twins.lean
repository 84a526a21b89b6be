import Chip8.Proofs.Draws
import Mathlib.Data.List.Induction
import Mathlib.Data.Set.Basic

/-!
Machines that differ in memory, dialect and random source, the three places where a machine finds
its values. An instruction takes little from them, and its intake says how much: two such machines
that meet the same intake at every operation answer alike for ever (`performAll_refit`). What makes
the intakes the same, a mask over the random values, registers that agree at the shifts or cells
that are never read, is left to those who cite this.
-/

namespace Chip8

namespace Memory

/-- The memories read the same but for the cells of a set. -/
def AgreeOff (D : Set (Fin 4096)) (m n : Memory) : Prop :=
  ∀ a : Word, a.cell ∉ D → m.read a = n.read a

namespace AgreeOff

variable {D : Set (Fin 4096)} {m n : Memory}

theorem refl (D : Set (Fin 4096)) (m : Memory) : m.AgreeOff D m := fun _ _ => rfl

theorem eq (h : m.AgreeOff ∅ n) : m = n := ext_read fun a => h a (Set.notMem_empty _)

theorem write (h : m.AgreeOff D n) (a : Word) (b : Byte) :
    (m.write a b).AgreeOff D (n.write a b) := by
  intro c hc
  rw [read_write, read_write, h c hc]

theorem store (h : m.AgreeOff D n) (a : Word) (bytes : List Byte) :
    (m.store a bytes).AgreeOff D (n.store a bytes) := by
  induction bytes generalizing m n a with
  | nil => exact h
  | cons b bytes ih => exact ih (h.write a b) (a.advance 1)

theorem block_eq (h : m.AgreeOff D n) {a : Word} {size : Nat}
    (hD : ∀ k < size, (a.advance (UInt16.ofNat k)).cell ∉ D) : m.block a size = n.block a size := by
  apply List.ext_getElem?
  intro k
  rw [getElem?_block, getElem?_block]
  split
  · rw [h _ (hD k ‹_›)]
  · rfl

/-- A program goes into both memories or into neither. -/
theorem load_cases (h : m.AgreeOff D n) (p : Array Byte) :
    (∃ m' n', m.load p = .ok m' ∧ n.load p = .ok n' ∧ m'.AgreeOff D n') ∨
      ∃ fault, m.load p = .error fault ∧ n.load p = .error fault := by
  rcases Nat.lt_or_ge programRoom p.size with hp | hp
  · exact .inr ⟨_, m.load_of_lt hp, n.load_of_lt hp⟩
  · obtain ⟨m', hm⟩ := m.exists_load hp
    obtain ⟨n', hn⟩ := n.exists_load hp
    refine .inl ⟨m', n', hm, hn, ?_⟩
    intro a ha
    rw [read_load hm, read_load hn, h a ha]

end AgreeOff

end Memory

/-- What an instruction takes from memory, the dialect and the random source. A shift and an offset
jump take the value of the register that the dialect names. -/
def Instruction.intake (m : Machine) : Instruction → Except Stop (List Byte)
  | draw _ _ rows => .ok (m.memory.block m.registers.index rows.toNat)
  | restore x => .ok (m.memory.block m.registers.index (x + 1))
  | shift _ x y => (operand (m.dialect.shiftSource x y)).map fun s => [m.registers.get s]
  | jumpOffset a => (operand (m.dialect.offsetRegister a)).map fun x => [m.registers.get x]
  | random x mask => (operand x).map fun _ => [m.random.next.1 &&& mask]
  | _ => .ok []

namespace Machine

/-- The machines differ at most in their dialects, in their random sources and in the memory cells
of a set. -/
def Twins (D : Set (Fin 4096)) (m n : Machine) : Prop :=
  ∃ memory dialect random,
    n = { m with memory := memory, dialect := dialect, random := random } ∧
      m.memory.AgreeOff D memory

def refit (m : Machine) (memory : Memory) (dialect : Dialect) (random : RandomSource) : Machine :=
  { m with memory := memory, dialect := dialect, random := random }

/-- An operation takes the same from the memory, the dialect and the random source of both. -/
structure SameIntake (m n : Machine) (op : Operation) : Prop where
  fetch : op = .step → m.waiting = none → m.fetch = n.fetch
  intake : ∀ i, m.instruction? op = some i → i.intake m = i.intake n

end Machine

structure Reply.Twins {α : Type} (D : Set (Fin 4096)) (r t : Reply α) : Prop where
  result : r.result = t.result
  log : r.log = t.log
  machine : r.machine.Twins D t.machine

theorem Reply.Twins.map {α β : Type} {D : Set (Fin 4096)} {r t : Reply α} (h : r.Twins D t)
    (f : α → β) : (r.map f).Twins D (t.map f) where
  result := congrArg (Except.map f) h.result
  log := h.log
  machine := h.machine

/-- A reply that differs from another only in where its machine finds its values. -/
theorem Reply.twins_refit {α : Type} {D : Set (Fin 4096)} {μ : Memory} (t : Reply α)
    (hμ : t.machine.memory.AgreeOff D μ) (d : Dialect) (r : RandomSource) :
    t.Twins D { t with machine := t.machine.refit μ d r } where
  result := rfl
  log := rfl
  machine := ⟨μ, d, r, rfl, hμ⟩

/-- Two operands that name the same value, or two that name none. -/
theorem Registers.get_cases (r : Registers) {j k : Nat}
    (h : (operand j).map (fun x => [r.get x]) = (operand k).map fun x => [r.get x]) :
    (∃ x y, operand j = .ok x ∧ operand k = .ok y ∧ r.get x = r.get y) ∨
      (operand j = .error .badOperand ∧ operand k = .error .badOperand) := by
  rcases operand_cases j with ⟨x, -, hj⟩ | hj
  · rcases operand_cases k with ⟨y, -, hk⟩ | hk
    · rw [hj, hk] at h
      injection h with h
      injection h with h
      exact .inl ⟨x, y, hj, hk, h⟩
    · rw [hj, hk] at h
      cases h
  · rcases operand_cases k with ⟨y, -, hk⟩ | hk
    · rw [hj, hk] at h
      cases h
    · exact .inr ⟨hj, hk⟩

namespace Machine.Twins

variable {D : Set (Fin 4096)} {m n : Machine}

theorem execute (h : m.Twins D n) {i : Instruction} (hi : i.intake m = i.intake n) :
    (m.execute i).Twins D (n.execute i) := by
  obtain ⟨μ, d, r, rfl, hμ⟩ := h
  cases i with
  | clearScreen | sys a | jump a | setIndex a | waitKey x => exact Reply.twins_refit _ hμ d r
  | ret =>
    simp only [Machine.execute, Instruction.effect]
    cases m.stack.pop <;> exact Reply.twins_refit _ hμ d r
  | call a =>
    simp only [Machine.execute, Instruction.effect]
    cases m.stack.push (m.registers.pc.advance 2) <;> exact Reply.twins_refit _ hμ d r
  | skipRegister test x y | combine op x y =>
    simp only [Machine.execute, Instruction.effect]
    cases operand x with
    | error stop => exact Reply.twins_refit _ hμ d r
    | ok x => cases operand y <;> exact Reply.twins_refit _ hμ d r
  | shift direction x y =>
    simp only [Machine.execute, Instruction.effect]
    rcases m.registers.get_cases hi with ⟨s, t, hs, ht, hget⟩ | ⟨hs, ht⟩
    · rw [hs, ht]
      cases operand x with
      | error stop => exact Reply.twins_refit _ hμ d r
      | ok x =>
        simp only [bind, Except.bind, hget]
        exact Reply.twins_refit _ hμ d r
    · rw [hs, ht]
      exact Reply.twins_refit _ hμ d r
  | jumpOffset a =>
    simp only [Machine.execute, Instruction.effect]
    rcases m.registers.get_cases hi with ⟨s, t, hs, ht, hget⟩ | ⟨hs, ht⟩
    · rw [hs, ht]
      simp only [bind, Except.bind, hget]
      exact Reply.twins_refit _ hμ d r
    · rw [hs, ht]
      exact Reply.twins_refit _ hμ d r
  | random x mask =>
    simp only [Machine.execute, Instruction.effect]
    simp only [Instruction.intake] at hi
    rcases operand_cases x with ⟨x, -, hx⟩ | hx
    · rw [hx] at hi ⊢
      injection hi with hi
      injection hi with hi
      simp only [bind, Except.bind, hi]
      exact Reply.twins_refit _ hμ d r.next.2
    · rw [hx]
      exact Reply.twins_refit _ hμ d r
  | draw x y rows =>
    simp only [Machine.execute, Instruction.effect]
    injection hi with hi
    cases operand x with
    | error stop => exact Reply.twins_refit _ hμ d r
    | ok x =>
      cases operand y with
      | error stop => exact Reply.twins_refit _ hμ d r
      | ok y =>
        rcases operand_cases rows.toNat with ⟨k, hk, ho⟩ | ho
        · rw [ho]
          rw [← hk] at hi
          simp only [bind, Except.bind, hi]
          exact Reply.twins_refit _ hμ d r
        · rw [ho]
          exact Reply.twins_refit _ hμ d r
  | restore x =>
    simp only [Machine.execute, Instruction.effect]
    injection hi with hi
    rcases operand_cases x with ⟨k, rfl, ho⟩ | ho
    · rw [ho]
      simp only [bind, Except.bind, hi]
      exact Reply.twins_refit _ hμ d r
    · rw [ho]
      exact Reply.twins_refit _ hμ d r
  | storeDecimal x | dump x =>
    simp only [Machine.execute, Instruction.effect]
    cases operand x with
    | error stop => exact Reply.twins_refit _ hμ d r
    | ok x => exact Reply.twins_refit _ (hμ.store _ _) d r
  | skipByte test x b | setByte x b | addByte x b | skipKey held x | readDelay x | setDelay x
  | setSound x | addIndex x | pointGlyph x =>
    simp only [Machine.execute, Instruction.effect]
    cases operand x <;> exact Reply.twins_refit _ hμ d r

theorem poll (h : m.Twins D n) (x : Nat) : (m.poll x).Twins D (n.poll x) := by
  obtain ⟨μ, d, r, rfl, hμ⟩ := h
  simp only [Machine.poll]
  cases m.keypad.takePress with
  | none => exact Reply.twins_refit _ hμ d r
  | some taken => cases operand x <;> exact Reply.twins_refit _ hμ d r

theorem eq (h : m.Twins D n) : n = m.refit n.memory n.dialect n.random := by
  obtain ⟨μ, d, r, rfl, -⟩ := h
  rfl

theorem memory (h : m.Twins D n) : m.memory.AgreeOff D n.memory := by
  obtain ⟨μ, d, r, rfl, hμ⟩ := h
  exact hμ

/-- Twins that agree in every memory cell and in the dialect differ only in their sources. -/
theorem eq_withRandom (h : m.Twins ∅ n) (hd : n.dialect = m.dialect) :
    n = { m with random := n.random } := by
  have heq := h.eq
  rwa [← h.memory.eq, hd] at heq

theorem waiting_eq (h : m.Twins D n) : n.waiting = m.waiting := by
  obtain ⟨μ, d, r, rfl, -⟩ := h
  rfl

theorem registers_eq (h : m.Twins D n) : n.registers = m.registers := by
  obtain ⟨μ, d, r, rfl, -⟩ := h
  rfl

theorem keypad_eq (h : m.Twins D n) : n.keypad = m.keypad := by
  obtain ⟨μ, d, r, rfl, -⟩ := h
  rfl

theorem step (h : m.Twins D n) (hi : m.SameIntake n .step) : m.step.Twins D n.step := by
  simp only [Machine.step, h.waiting_eq, h.registers_eq]
  cases hw : m.waiting with
  | some x => exact h.poll x
  | none =>
    rw [← hi.fetch rfl hw]
    cases hd : Instruction.decode m.fetch with
    | error fault => exact ⟨rfl, rfl, h⟩
    | ok i =>
      obtain ⟨hresult, hlog, hmachine⟩ :=
        h.execute (hi.intake i (instruction?_step_eq_some_iff.mpr ⟨hw, hd⟩))
      exact ⟨hresult, congrArg (_ :: ·) hlog, hmachine⟩

theorem load (h : m.Twins D n) (program : Array Byte) :
    (m.load program).Twins D (n.load program) := by
  obtain ⟨μ, d, r, rfl, hμ⟩ := h
  simp only [Machine.load]
  rcases hμ.load_cases program with ⟨m', n', hm, hn, h⟩ | ⟨fault, hm, hn⟩
  · rw [hm, hn]
    exact Reply.twins_refit _ h d r
  · rw [hm, hn]
    exact Reply.twins_refit _ hμ d r

theorem withKeypad (h : m.Twins D n) (keypad : Except Fault Keypad) :
    (m.withKeypad keypad).Twins D (n.withKeypad keypad) := by
  obtain ⟨μ, d, r, rfl, hμ⟩ := h
  cases keypad <;> exact Reply.twins_refit _ hμ d r

theorem reset (h : m.Twins D n) : m.reset.Twins D n.reset := by
  obtain ⟨μ, d, r, rfl, -⟩ := h
  exact Reply.twins_refit _ (.refl D _) d r

theorem tick (h : m.Twins D n) : m.tick.Twins D n.tick := by
  obtain ⟨μ, d, r, rfl, hμ⟩ := h
  exact Reply.twins_refit _ hμ d r

theorem perform (h : m.Twins D n) {op : Operation} (hi : m.SameIntake n op) :
    (m.perform op).Twins D (n.perform op) := by
  cases op with
  | load program => exact (h.load program).map _
  | reset => exact h.reset.map _
  | step => exact (h.step hi).map _
  | execute i => exact (h.execute (hi.intake i rfl)).map _
  | tick => exact h.tick.map _
  | press b | release b | discardPresses | clearKeys =>
    simp only [Machine.perform, h.keypad_eq]
    exact h.withKeypad _
  | takePress =>
    simp only [Machine.perform, h.keypad_eq]
    obtain ⟨μ, d, r, rfl, hμ⟩ := h
    cases m.keypad.takePress <;> exact Reply.twins_refit _ hμ d r

theorem executed?_eq (h : m.Twins D n) {op : Operation} (hi : m.SameIntake n op) :
    m.executed? op = n.executed? op := by
  have hinstruction : m.instruction? op = n.instruction? op := by
    cases op with
    | step =>
      simp only [instruction?, h.waiting_eq]
      split
      · rw [hi.fetch rfl ‹_›]
      · rfl
    | _ => rfl
  rw [executed?, executed?, (h.perform hi).result, hinstruction]

end Machine.Twins

namespace Machine

/-- A machine that is given another memory, dialect and source answers as before, as long as each
operation meets the same intake. The memories go on to differ in the same cells only, and as many
values are taken from the one source as from the other. -/
theorem performAll_refit {D : Set (Fin 4096)} {m : Machine} {μ : Memory} (d : Dialect)
    (r : RandomSource) (hμ : m.memory.AgreeOff D μ) (ops : List Operation)
    (hops : ∀ before op after, ops = before ++ op :: after →
      ∀ μ, (m.performAll before).memory.AgreeOff D μ →
        (m.performAll before).SameIntake
          ((m.performAll before).refit μ d
            { r with taken := r.taken + (m.draws before).length }) op) :
    (m.refit μ d r).replies ops = m.replies ops ∧
      ∃ μ', (m.performAll ops).memory.AgreeOff D μ' ∧
        (m.refit μ d r).performAll ops =
          (m.performAll ops).refit μ' d { r with taken := r.taken + (m.draws ops).length } := by
  induction ops using List.reverseRecOn with
  | nil => exact ⟨rfl, μ, hμ, rfl⟩
  | append_singleton ops op ih =>
    obtain ⟨hreplies, μ', hμ', hstate⟩ := ih fun before last after hb =>
      hops before last (after ++ [op]) (by simp [hb])
    have hi := hops ops op [] rfl μ' hμ'
    rw [← hstate] at hi
    have htwins : (m.performAll ops).Twins D ((m.refit μ d r).performAll ops) :=
      ⟨μ', d, _, hstate, hμ'⟩
    have hop := htwins.perform hi
    have hd : (((m.refit μ d r).performAll ops).perform op).machine.dialect = d := by
      rw [(performs_perform _ op).dialect, hstate]
      rfl
    have hr : (((m.refit μ d r).performAll ops).perform op).machine.random =
        { r with taken := r.taken + (m.draws (ops ++ [op])).length } := by
      rw [random_perform, draws_singleton, ← htwins.executed?_eq hi, ← draws_singleton, hstate,
        draws_append, List.length_append, ← Nat.add_assoc]
      rfl
    refine ⟨?_, ((m.refit μ d r).performAll (ops ++ [op])).memory, ?_, ?_⟩
    · rw [replies_append, replies_append, hreplies]
      simp only [replies, hop.result, hop.log]
    · rw [performAll_concat, performAll_concat]
      exact hop.machine.memory
    · have heq := hop.machine.eq
      rw [performAll_concat, performAll_concat]
      rwa [hd, hr] at heq

end Machine

end Chip8
