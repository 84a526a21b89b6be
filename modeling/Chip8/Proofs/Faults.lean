import Chip8.Proofs.InPlace
import Chip8.Proofs.WellFormed

/-!
The faults of a step. Main statements: `safe_of_history`, whatever has been done to a machine, its
next step succeeds or meets one of three faults, and `step_faults_of_reachable`, the exact
conditions of the three and that a fault changes nothing.
-/

namespace Chip8.Machine

variable {m : Machine}

/-- The second byte of a word at the last address comes from the first. -/
theorem fetch_eq (m : Machine) :
    m.fetch = Word.ofBytes (m.memory.read m.registers.pc)
      (m.memory.read (m.registers.pc.advance 1)) := by
  have hc : Word.cell (m.registers.pc + 1) = Word.cell (m.registers.pc.advance 1) := by
    apply Fin.ext
    rw [Word.cell_advance, Word.val_cell, UInt16.toNat_add]
    simp only [UInt16.reduceToNat]
    omega
  simp only [fetch, Memory.readWord, Memory.read, hc]

theorem exists_result_poll {x : Nat} (hx : x ≤ 15) : ∃ s, (m.poll x).result = .ok s := by
  unfold poll
  cases m.keypad.takePress with
  | none => exact ⟨_, rfl⟩
  | some taken =>
    rw [operand_of_lt (Nat.lt_succ_of_le hx)]
    exact ⟨_, rfl⟩

theorem WellFormed.step_eq_error_iff (h : m.WellFormed) {stop : Stop} :
    m.step.result = .error stop ↔ m.waiting = none ∧
      (((∀ i, Instruction.decode m.fetch ≠ .ok i) ∧ stop = .fault (.unknownOpcode m.fetch)) ∨
       (m.fetch = 0x00EE ∧ m.stack.frames = [] ∧ stop = .fault .stackUnderflow) ∨
       (m.fetch.toNat / 4096 = 2 ∧ m.stack.depth = 16 ∧
         stop = .fault (.stackOverflow (m.registers.pc.advance 2)))) := by
  cases hw : m.waiting with
  | some x =>
    obtain ⟨s, hs⟩ := exists_result_poll (m := m) (h.waiting x hw)
    rw [step_eq_poll hw, hs]
    simp
  | none =>
    rw [← Instruction.decode_eq_ok_ret_iff, ← Instruction.exists_decode_eq_ok_call_iff]
    cases hd : Instruction.decode m.fetch with
    | error fault =>
      obtain ⟨-, rfl⟩ := Instruction.decode_eq_error_iff.mp hd
      simp [step, hw, hd, eq_comm]
    | ok i =>
      have hfull : 16 ≤ m.stack.depth ↔ m.stack.depth = 16 := by
        have := h.depth
        omega
      rw [result_step_of_decode hw hd, result_execute_eq_error_iff,
        Instruction.effect_eq_error_iff (Instruction.decode_eq_ok_iff.mp hd).1, hfull]
      simp

theorem WellFormed.step_ne_badOperand (h : m.WellFormed) : m.step.result ≠ .error .badOperand := by
  intro hs
  rcases (h.step_eq_error_iff.mp hs).2 with ⟨-, he⟩ | ⟨-, -, he⟩ | ⟨-, -, he⟩
  · cases he
  · cases he
  · cases he

/-- No operation meets an operand that is out of range. -/
theorem WellFormed.perform_ne_badOperand (h : m.WellFormed) {op : Operation} (hop : op.Decoded) :
    (m.perform op).result ≠ .error .badOperand := by
  cases op with
  | step =>
    intro hs
    exact h.step_ne_badOperand (Reply.result_map_eq_error_iff.mp hs)
  | execute i =>
    intro hs
    have he := result_execute_eq_error_iff.mp (Reply.result_map_eq_error_iff.mp hs)
    obtain ⟨w, hw⟩ := hop
    rw [Instruction.effect_eq_error_iff (Instruction.decode_eq_ok_iff.mp hw).1] at he
    rcases he with ⟨-, -, he⟩ | ⟨a, -, -, he⟩
    · cases he
    · cases he
  | load program =>
    simp only [perform, load]
    rcases m.memory.load program with fault | memory <;> simp [Reply.map, Except.map]
  | press b =>
    simp only [perform]
    rcases m.keypad.press b with fault | keypad <;> simp [withKeypad]
  | release b =>
    simp only [perform]
    rcases m.keypad.release b with fault | keypad <;> simp [withKeypad]
  | takePress =>
    simp only [perform]
    rcases m.keypad.takePress with _ | taken <;> simp
  | reset | tick => simp [perform, Reply.map, reset, tick, Except.map]
  | discardPresses | clearKeys => simp [perform, withKeypad]

/-- Whatever has been done to a machine, its bounds hold, no further operation meets an operand out
of range, and the next step can only meet three faults. -/
theorem safe_of_history (dialect : Dialect) (random : RandomSource) (ops : List Operation)
    (hops : ∀ op ∈ ops, op.Decoded) :
    let m := (fresh dialect random).performAll ops
    m.WellFormed ∧ (∀ op, op.Decoded → (m.perform op).result ≠ .error .badOperand) ∧
      ((∃ s, m.step.result = .ok s) ∨ ∃ fault, m.step.result = .error (.fault fault) ∧
        ((∃ w, fault = .unknownOpcode w) ∨ (∃ a, fault = .stackOverflow a) ∨
          fault = .stackUnderflow)) := by
  intro m
  have h : m.WellFormed := ((Reachable.fresh dialect random).performAll hops).wellFormed
  refine ⟨h, fun op hop => h.perform_ne_badOperand hop, ?_⟩
  rcases hs : m.step.result with stop | s
  · rcases (h.step_eq_error_iff.mp hs).2 with ⟨-, rfl⟩ | ⟨-, -, rfl⟩ | ⟨-, -, rfl⟩
    · exact .inr ⟨_, rfl, .inl ⟨_, rfl⟩⟩
    · exact .inr ⟨_, rfl, .inr (.inr rfl)⟩
    · exact .inr ⟨_, rfl, .inr (.inl ⟨_, rfl⟩)⟩
  · exact .inl ⟨s, rfl⟩

/-- A key wait, a call by hand while it lasts, and its end. -/
theorem safe_of_key_wait_history :
    (∀ op ∈ [Operation.load #[0xF3, 0x0A], .step, .execute (.call 0xFFE), .press 5, .step],
      op.Decoded) ∧
    ((fresh {} (.ofSeed 8)).performAll
      [.load #[0xF3, 0x0A], .step, .execute (.call 0xFFE), .press 5, .step]).WellFormed := by
  have hops : ∀ op ∈ [Operation.load #[0xF3, 0x0A], .step, .execute (.call 0xFFE), .press 5, .step],
      op.Decoded := by
    simp only [List.forall_mem_cons, Operation.Decoded, true_and]
    exact ⟨⟨0x2FFE, rfl⟩, fun op hop => nomatch hop⟩
  exact ⟨hops, (safe_of_history _ _ _ hops).1⟩

theorem performAll_steps_of_error {stop : Stop} (h : m.step.result = .error stop) (n : Nat) :
    m.performAll (List.replicate n .step) = m := by
  have hm : (m.perform .step).machine = m := machine_step_of_error h
  exact performAll_replicate hm n

/-- The exact conditions of the faults of a step. A fault changes nothing, also in a machine that is
changed in place, so the steps after it meet it again. -/
theorem step_faults_of_reachable (h : m.Reachable) :
    m.fetch = Word.ofBytes (m.memory.read m.registers.pc)
      (m.memory.read (m.registers.pc.advance 1)) ∧
    (∀ stop, m.step.result = .error stop ↔ m.waiting = none ∧
      (((∀ i, Instruction.decode m.fetch ≠ .ok i) ∧ stop = .fault (.unknownOpcode m.fetch)) ∨
       (m.fetch = 0x00EE ∧ m.stack.frames = [] ∧ stop = .fault .stackUnderflow) ∨
       (m.fetch.toNat / 4096 = 2 ∧ m.stack.depth = 16 ∧
         stop = .fault (.stackOverflow (m.registers.pc.advance 2))))) ∧
    ∀ stop, m.step.result = .error stop → m.step.machine = m ∧
      (InPlace.step.reply m []).result = .error stop ∧ (InPlace.step.reply m []).machine = m ∧
      ∀ n, (m.performAll (List.replicate n .step)).step.result = .error stop := by
  refine ⟨m.fetch_eq, fun stop => h.wellFormed.step_eq_error_iff, ?_⟩
  intro stop hs
  have hwhole : m.step.machine = m := machine_step_of_error hs
  have hin := InPlace.agrees_step m
  refine ⟨hwhole, hin.result.trans hs,
    (hin.machine h.wellFormed.step_ne_badOperand).trans hwhole, ?_⟩
  intro n
  rw [performAll_steps_of_error hs, hs]

/-- A return with nothing to return to, as the first instruction of a program. -/
theorem step_faults_of_lone_return :
    ((fresh {} (.ofSeed 8)).performAll [.load #[0x00, 0xEE]]).Reachable ∧
    ((fresh {} (.ofSeed 8)).performAll [.load #[0x00, 0xEE]]).step.result =
      .error (.fault .stackUnderflow) := by
  have h : ((fresh {} (.ofSeed 8)).performAll [.load #[0x00, 0xEE]]).Reachable :=
    (Reachable.fresh _ _).perform trivial
  obtain ⟨hf, he, -⟩ := step_faults_of_reachable h
  refine ⟨h, (he _).mpr ⟨rfl, .inr (.inl ⟨?_, rfl, rfl⟩)⟩⟩
  rw [hf, performAll_cons, performAll_nil, read_perform_load (by decide),
    read_perform_load (by decide)]
  rfl

end Chip8.Machine
