import Chip8.Proofs.Playback
import Chip8.Proofs.Subroutine

/-!
What becomes of a program that the host has declared finished. The host looks for a step that ends
where it began. A jump to itself is one, and it ends so for ever; but a call of itself and a return
to itself are others, and these have changed the stack and will do so again. Main statement:
`finished_cases`.
-/

namespace Chip8

theorem Flow.goto_or_stay_of_target {f : Flow} {pc : Word} (h : f.target pc = pc) :
    f = .goto pc ∨ f = .stay := by
  cases f with
  | next => exact absurd h (Word.advance_ne _ (by decide) (by decide))
  | skip => exact absurd h (Word.advance_ne _ (by decide) (by decide))
  | goto a => exact .inl (congrArg _ h)
  | stay => exact .inr rfl

namespace Machine

variable {m : Machine} {s : Step}

/-- Every further step succeeds and changes nothing. -/
def Rests (m : Machine) : Prop :=
  ∀ k, (∃ s, (m.performAll (List.replicate k .step)).step.result = .ok s) ∧
    m.performAll (List.replicate k .step) = m

theorem rests_of_step (hs : m.step.result = .ok s) (hm : m.step.machine = m) : m.Rests := by
  intro k
  have hstep : (m.perform .step).machine = m := hm
  rw [performAll_replicate hstep]
  exact ⟨⟨s, hs⟩, rfl⟩

/-- A step that ends where it began, and not because it waits for a key, has gone there. -/
theorem Performs.goto_of_parked {m' : Machine} (hp : Performs m .step (.ok (.stepped s)) m')
    (hb : s.isBlocked = false) (hpc : s.nextPc = m.registers.pc) :
    ∃ i e, m.instruction? .step = some i ∧ i.effect m = .ok e ∧
      e.flow = .goto m.registers.pc ∧ m' = m.after e := by
  cases hp with
  | @executed _ i e hi he =>
    refine ⟨i, e, hi, he, ?_, rfl⟩
    rcases Flow.goto_or_stay_of_target hpc with hf | hf
    · exact hf
    -- only a key wait stays, and its step is blocked
    by_cases hw : ∃ x, i = .waitKey x
    · obtain ⟨x, rfl⟩ := hw
      cases he
      cases hb
    · rw [not_exists] at hw
      exact absurd hf ((Instruction.footprint_of_effect he).stay hw)
  | blocked => cases hb
  | resumed => exact absurd hpc (Word.advance_ne _ (by decide) (by decide))

theorem after_of_goto_pc {i : Instruction} {e : Effect} (he : i.effect m = .ok e)
    (hf : e.flow = .goto m.registers.pc) (hc : ∀ a, i ≠ .call a) (hr : i ≠ .ret) :
    m.after e = m := by
  have hm : e.machine = m := by
    rcases Instruction.goto_of_effect he hf with rfl | rfl | ⟨rfl, -⟩ | ⟨b, -, rfl, -⟩
    · cases he
      rfl
    · exact absurd rfl (hc _)
    · exact absurd rfl hr
    · simp only [Instruction.effect, bind_eq_ok_iff] at he
      obtain ⟨x, -, he⟩ := he
      cases he
      rfl
  rw [after, hm, hf]
  rfl

/-- The instruction of a step that ended where it began is still the next one. Jumps have changed
nothing, and the others are a call and a return. -/
theorem parked_step_cases (hs : m.step.result = .ok s) (hb : s.isBlocked = false)
    (hpc : s.nextPc = m.registers.pc) :
    let m' := m.step.machine
    m'.waiting = none ∧ ∃ i, Instruction.decode m'.fetch = .ok i ∧
      (((i = .jump m'.registers.pc ∨ ∃ a, i = .jumpOffset a) ∧ m' = m) ∨
        i = .call m'.registers.pc ∨ i = .ret) := by
  intro m'
  have hp : Performs m .step (.ok (.stepped s)) m' := by
    have h := m.performs_step
    rw [hs] at h
    exact h
  obtain ⟨i, e, hi, he, hf, hm⟩ := hp.goto_of_parked hb hpc
  obtain ⟨hw, hd⟩ := instruction?_step_eq_some_iff.mp hi
  have hform := Instruction.goto_of_effect he hf
  have hkept : e.machine.memory = m.memory ∧ e.machine.waiting = m.waiting := by
    have hfoot := Instruction.footprint_of_effect he
    rcases hform with rfl | rfl | ⟨rfl, -⟩ | ⟨b, -, rfl, -⟩ <;>
      exact ⟨hfoot.memory (by simp) (by simp), hfoot.waiting (by simp)⟩
  have hpc' : m'.registers.pc = m.registers.pc := by
    rw [hm, after, hf]
    rfl
  have hfetch : m'.fetch = m.fetch := by
    rw [fetch, fetch, hpc', hm, after, hkept.1]
  refine ⟨?_, i, ?_, ?_⟩
  · rw [hm, waiting_after, hkept.2, hw]
  · rw [hfetch, hd]
  · rcases hform with rfl | rfl | ⟨rfl, -⟩ | ⟨b, -, rfl, -⟩
    · exact .inl ⟨.inl (by rw [hpc']), hm.trans (after_of_goto_pc he hf (by simp) (by simp))⟩
    · exact .inr (.inl (by rw [hpc']))
    · exact .inr (.inr rfl)
    · exact .inl ⟨.inr ⟨_, rfl⟩, hm.trans (after_of_goto_pc he hf (by simp) (by simp))⟩

/-- A call of itself, left to run, fills the stack. -/
theorem overflow_of_self_call {k : Nat} (hw : m.waiting = none)
    (hd : Instruction.decode m.fetch = .ok (.call m.registers.pc))
    (hk : m.stack.depth + k = 16) :
    (m.performAll (List.replicate k .step)).step.result =
      .error (.fault (.stackOverflow (m.registers.pc.advance 2))) := by
  induction k generalizing m with
  | zero =>
    have hfull := Instruction.effect_call_of_le m.registers.pc (Nat.le_of_eq hk.symm)
    rw [List.replicate_zero, performAll_nil, result_step_of_decode hw hd]
    exact result_execute_eq_error_iff.mpr hfull
  | succ k ih =>
    have hstep := machine_step_of_decode hw hd
    rw [execute_of_effect (Instruction.effect_call_of_lt m.registers.pc (by omega))] at hstep
    have hperform : (m.perform .step).machine = m.step.machine := rfl
    rw [List.replicate_succ, performAll_cons, hperform, hstep]
    refine ih hw hd ?_
    show m.stack.frames.length + 1 + k = 16
    rw [← hk, CallStack.depth]
    omega

theorem step_of_decode_ret (hw : m.waiting = none) (hd : Instruction.decode m.fetch = .ok .ret) :
    (m.stack.frames = [] ∧ m.step.result = .error (.fault .stackUnderflow)) ∨
      ∃ a, m.stack.frames = a :: m.step.machine.stack.frames := by
  rcases hframes : m.stack.frames with _ | ⟨a, rest⟩
  · refine .inl ⟨rfl, ?_⟩
    rw [result_step_of_decode hw hd]
    exact result_execute_eq_error_iff.mpr (Instruction.effect_ret_of_nil hframes)
  · refine .inr ⟨a, ?_⟩
    rw [(step_of_ret hw (Instruction.decode_eq_ok_ret_iff.mp hd) hframes).2]

end Machine

namespace Terminal

variable {s : Settings} {p : Playback} {n k : Nat}

theorem Frame.Runs.exists_parked_step {f g : Frame} (h : Runs n f k g)
    (hf : f.ending ≠ .parked) (hg : g.ending = .parked) :
    ∃ (m : Machine) (t : Step), m.step.result = .ok t ∧ t.isBlocked = false ∧
      t.nextPc = m.registers.pc ∧ g.machine = m.step.machine := by
  induction h with
  | spent => exact absurd hg hf
  | stopped | blocked => cases hg
  | parked hs hb hpc => exact ⟨_, _, hs, hb, hpc, machine_note _ _ _⟩
  | moved _ _ _ _ ih => exact ih (by rwa [ending_note]) hg

namespace Playback

theorem start_ending_ne_finished (s : Settings) (file : Except FileError (Array Byte))
    (random : RandomSource) : (start s file random).ending ≠ some .finished := by
  intro h
  obtain ⟨failure, hfailure⟩ := exists_failure_of_start h
  cases hfailure

theorem frame_of_finished (hp : p.ending = none) (h : (p.next s).ending = some .finished) :
    (frame s.stepsPerFrame p.machine).ending = .parked ∧
      (p.next s).machine = (frame s.stepsPerFrame p.machine).machine := by
  rw [ending_next, hp] at h
  cases hf : (frame s.stepsPerFrame p.machine).ending with
  | parked => simp only [next, hf, and_self]
  | stopped | blocked | spent => simp [hf] at h

/-- What the host takes for the end of a program. -/
theorem exists_last_step (hp : p.ending ≠ some .finished)
    (h : (p.play s n).ending = some .finished) :
    ∃ (m : Machine) (t : Step), m.step.result = .ok t ∧ t.isBlocked = false ∧
      t.nextPc = m.registers.pc ∧ (p.play s n).machine = m.step.machine := by
  have hgoing : p.ending = none := by
    rcases hstart : p.ending with _ | e
    · rfl
    · rw [(play_of_ending hstart n).1] at h
      exact absurd h hp
  obtain ⟨k, -, hk, hlast, -⟩ := exists_last_frame hgoing h
  rw [hlast] at h ⊢
  obtain ⟨hparked, hmachine⟩ := frame_of_finished hk h
  rw [hmachine]
  exact (Frame.runs_run _ _).exists_parked_step (by exact nofun) hparked

/-- A program is finished with the frame whose first instruction leads to where it stands. -/
theorem finished_play_of_goto {i : Instruction} {e : Effect} (hp : p.ending = none)
    (hw : p.machine.waiting = none) (hd : Instruction.decode p.machine.fetch = .ok i)
    (he : i.effect p.machine = .ok e) (hf : e.flow = .goto p.machine.registers.pc)
    (hs : e.signal = none) :
    (p.play s 1).ending = some .finished ∧ (p.play s 1).machine = p.machine.after e := by
  obtain ⟨n, hn⟩ : ∃ n, s.stepsPerFrame = n + 1 :=
    Nat.exists_eq_succ_of_ne_zero (Nat.ne_of_gt (Nat.le_max_left 1 _))
  have hrun : frame s.stepsPerFrame p.machine =
      { machine := p.machine.after e, ending := .parked } := by
    have hfree : ∀ x, e.signal ≠ some (.blockedOnKey x) := by
      rw [hs]
      exact nofun
    rw [hn, frame, Frame.run_of_effect (f := { machine := p.machine }) hw hd he hfree, hf, hs]
    exact if_pos rfl
  rw [(play_one hp).1]
  exact ⟨by rw [ending_next, hrun], by simp only [next, hrun]⟩

theorem finished_play_of_self_jump (hp : p.ending = none) (hw : p.machine.waiting = none)
    (hd : Instruction.decode p.machine.fetch = .ok (.jump p.machine.registers.pc)) :
    (p.play s 1).ending = some .finished ∧ (p.play s 1).machine = p.machine :=
  finished_play_of_goto hp hw hd rfl rfl rfl

theorem finished_play_of_self_call (hp : p.ending = none) (hw : p.machine.waiting = none)
    (hd : Instruction.decode p.machine.fetch = .ok (.call p.machine.registers.pc))
    (hlt : p.machine.stack.depth < 16) :
    (p.play s 1).ending = some .finished ∧ ¬ (p.play s 1).machine.Rests := by
  let m : Machine :=
    { p.machine with stack := ⟨p.machine.registers.pc.advance 2 :: p.machine.stack.frames⟩ }
  have hplay : (p.play s 1).ending = some .finished ∧ (p.play s 1).machine = m :=
    finished_play_of_goto hp hw hd (Instruction.effect_call_of_lt _ hlt) rfl rfl
  have hdepth : p.machine.stack.depth + 1 + (15 - p.machine.stack.depth) = 16 := by omega
  refine ⟨hplay.1, ?_⟩
  rw [hplay.2]
  intro hrests
  obtain ⟨⟨t, ht⟩, -⟩ := hrests (15 - p.machine.stack.depth)
  rw [Machine.overflow_of_self_call (m := m) hw hd hdepth] at ht
  cases ht

/-- Where a program stands that has been declared finished: at a jump to itself, and then it rests
for ever; at a call of itself, and then further steps fill the stack and fault; or at a return, and
then the next step takes an address off the stack, or faults for want of one. -/
theorem finished_cases (s : Settings) (file : Except FileError (Array Byte))
    (random : RandomSource) (n : Nat)
    (h : ((start s file random).play s n).ending = some .finished) :
    let m := ((start s file random).play s n).machine
    m.waiting = none ∧ ∃ i, Instruction.decode m.fetch = .ok i ∧
      (((i = .jump m.registers.pc ∨ ∃ a, i = .jumpOffset a) ∧ m.Rests) ∨
        (i = .call m.registers.pc ∧ m.stack.depth ≤ 16 ∧
          (m.performAll (List.replicate (16 - m.stack.depth) .step)).step.result =
            .error (.fault (.stackOverflow (m.registers.pc.advance 2)))) ∨
        (i = .ret ∧ ((m.stack.frames = [] ∧ m.step.result = .error (.fault .stackUnderflow)) ∨
          ∃ a, m.stack.frames = a :: m.step.machine.stack.frames))) := by
  intro m
  have hwf : m.WellFormed := (reachable_play (reachable_start s file random) n).wellFormed
  obtain ⟨b, t, ht, hblocked, hpc, hm⟩ :=
    exists_last_step (start_ending_ne_finished s file random) h
  have hm : m = b.step.machine := hm
  obtain ⟨hw, i, hd, hi⟩ := b.parked_step_cases ht hblocked hpc
  rw [← hm] at hw hd hi
  refine ⟨hw, i, hd, ?_⟩
  rcases hi with ⟨hjump, hmb⟩ | rfl | rfl
  · refine .inl ⟨hjump, ?_⟩
    rw [hmb] at hm ⊢
    exact Machine.rests_of_step ht hm.symm
  · have hdepth := hwf.depth
    exact .inr (.inl ⟨rfl, hdepth, Machine.overflow_of_self_call hw hd (by omega)⟩)
  · exact .inr (.inr ⟨rfl, Machine.step_of_decode_ret hw hd⟩)

/-- A program that is nothing but a jump to itself. -/
theorem finished_at_self_jump :
    let p := (start { rom := "loop" } (.ok #[0x12, 0x00]) (.ofSeed 8)).play { rom := "loop" } 1
    p.ending = some .finished ∧ p.machine.Rests := by
  obtain ⟨hp, -, hat, -⟩ :=
    start_of_le (p := #[0x12, 0x00]) (by decide) { rom := "loop" } (.ofSeed 8)
  have hf := hat.fetch (by decide)
  obtain ⟨hfinished, hmachine⟩ :=
    finished_play_of_self_jump (s := { rom := "loop" }) hp hat.waiting (by rw [hf, hat.pc]; rfl)
  obtain ⟨-, i, hi, hcases⟩ := finished_cases _ _ _ 1 hfinished
  rw [hmachine, hf] at hi
  cases hi
  rcases hcases with ⟨-, hrests⟩ | ⟨hcall, -⟩ | ⟨hret, -⟩
  · exact ⟨hfinished, hrests⟩
  · cases hcall
  · cases hret

/-- A program that is nothing but a call of itself. It is declared finished, and does not rest: the
stack overflows if it runs on. -/
theorem finished_at_self_call :
    let p := (start { rom := "loop" } (.ok #[0x22, 0x00]) (.ofSeed 8)).play { rom := "loop" } 1
    p.ending = some .finished ∧ ¬ p.machine.Rests := by
  obtain ⟨hp, -, hat, hs⟩ :=
    start_of_le (p := #[0x22, 0x00]) (by decide) { rom := "loop" } (.ofSeed 8)
  have hf := hat.fetch (by decide)
  refine finished_play_of_self_call hp hat.waiting (by rw [hf, hat.pc]; rfl) ?_
  rw [CallStack.depth, hs]
  decide

end Playback

end Terminal

end Chip8
