import Chip8.Proofs.Playback

/-!
Which pictures a playback shows. Only two instructions touch the screen, and they signal it, so a
frame that is not dirty has left the screen as it was (`Frame.Runs.dirty_eq`, `screen_performAll`).
Hence, as long as no step faults, the last picture is the screen as it stands (`Shows.play`). Main
statement: `last_picture`, which also says what a fault leaves: the frame it cuts off is not shown.
-/

namespace Chip8

section Paints

variable {m m' : Machine} {op : Operation} {ops : List Operation} {s : Step}

namespace Machine

def paints (m : Machine) : List Operation → Bool
  | [] => false
  | op :: ops => (m.executed? op).any Instruction.paints || (m.perform op).machine.paints ops

theorem paints_append (m : Machine) (ops more : List Operation) :
    m.paints (ops ++ more) = (m.paints ops || (m.performAll ops).paints more) := by
  induction ops generalizing m with
  | nil => rfl
  | cons op ops ih => rw [List.cons_append, paints, paints, ih, performAll_cons, Bool.or_assoc]

theorem Performs.screen {result : Except Stop Answer} (hp : Performs m op result m')
    (hop : op ≠ .reset)
    (hno : ∀ i, result.isOk = true → m.instruction? op = some i → i.paints = false) :
    m'.screen = m.screen := by
  cases hp with
  | executed hi he => exact Instruction.screen_of_effect he (hno _ rfl hi)
  | reset => exact absurd rfl hop
  | refused | blocked | resumed | loaded | ticked | pressed | released | untaken | taken
  | discarded | cleared => rfl

/-- The screen stays as it is unless an instruction touches it. -/
theorem screen_performAll (h : m.paints ops = false) (hops : .reset ∉ ops) :
    (m.performAll ops).screen = m.screen := by
  induction ops generalizing m with
  | nil => rfl
  | cons op ops ih =>
    obtain ⟨hop, hrest⟩ := Bool.or_eq_false_iff.mp h
    rw [List.mem_cons, not_or] at hops
    rw [performAll_cons, ih hrest hops.2]
    refine (m.performs_perform op).screen (Ne.symm hops.1) ?_
    intro i hok hi
    rw [executed?_eq_some_iff.mpr ⟨hok, hi⟩] at hop
    exact hop

theorem paints_step_of_error {stop : Stop} (hs : m.step.result = .error stop) :
    (m.executed? .step).any Instruction.paints = false := by
  rw [executed?_step_of_error hs]
  rfl

/-- A step touches the screen exactly when it signals so. -/
theorem paints_step_of_ok (hs : m.step.result = .ok s) :
    (m.executed? .step).any Instruction.paints = decide (s.signal = some .screenDirty) := by
  have hok : (m.perform .step).result.isOk = true := by
    rw [isOk_perform_step, hs]
    rfl
  have hp := m.performs_step
  rw [hs] at hp
  rw [executed?, if_pos hok, Bool.eq_iff_iff, decide_eq_true_iff]
  generalize m.step.machine = m' at hp
  cases hp with
  | executed hi he => rw [hi, Instruction.signal_eq_screenDirty_iff he, Option.any_some]
  | blocked hw | resumed hw => simp [instruction?, hw]

theorem paints_replicate_succ (m : Machine) (k : Nat) :
    m.paints (List.replicate (k + 1) .step) =
      ((m.executed? .step).any Instruction.paints ||
        m.step.machine.paints (List.replicate k .step)) := rfl

end Machine

end Paints

namespace Terminal

variable {s : Settings} {p : Playback} {n k : Nat}

namespace Frame

variable {f g : Frame}

theorem dirty_note (f : Frame) (m : Machine) (signal : Option Signal) :
    (f.note m signal).dirty = (f.dirty || decide (signal = some .screenDirty)) := by
  unfold note
  split <;> simp_all

/-- A frame is dirty when one of its steps has touched the screen. -/
theorem Runs.dirty_eq (h : Runs n f k g) :
    g.dirty = (f.dirty || f.machine.paints (List.replicate k .step)) := by
  induction h with
  | spent => rw [List.replicate_zero, Machine.paints, Bool.or_false]
  | stopped hs =>
    rw [Machine.paints_replicate_succ, Machine.paints_step_of_error hs]
    exact (Bool.or_false _).symm
  | blocked hs hx =>
    rw [Machine.paints_replicate_succ, Machine.paints_step_of_ok hs, hx]
    exact (Bool.or_false _).symm
  | parked hs =>
    rw [Machine.paints_replicate_succ, Machine.paints_step_of_ok hs, List.replicate_zero,
      Machine.paints, Bool.or_false]
    exact dirty_note _ _ _
  | moved hs _ _ _ ih =>
    rw [ih, dirty_note, machine_note, Machine.paints_replicate_succ, Machine.paints_step_of_ok hs,
      Bool.or_assoc]

end Frame

def Output.screen? : Output → Option Screen
  | bell => none
  | picture screen => some screen

namespace Playback

def shown (p : Playback) : List Screen := p.output.filterMap Output.screen?

theorem shown_cut (p : Playback) : p.cut.shown = p.shown := by
  unfold cut
  split <;> rfl

/-- If the screen has been touched, the last picture is the screen as it is, and if it has not,
there is no picture. -/
def Shows (p : Playback) (touched : Bool) : Prop :=
  p.shown.getLast? = if touched then some p.machine.screen else none

theorem paints_frameOperations (s : Settings) (p : Playback) :
    p.machine.paints (p.frameOperations s) = (frame s.stepsPerFrame p.machine).dirty := by
  have hdirty : (frame s.stepsPerFrame p.machine).dirty = _ := (Frame.runs_run _ _).dirty_eq
  rw [hdirty, frameOperations, Machine.paints_append, Bool.false_or]
  cases (frame s.stepsPerFrame p.machine).ending <;> exact Bool.or_false _

/-- A frame that a fault cuts off is not shown. -/
theorem shown_next_of_stopped {pc : Word} {cause : Stop}
    (h : (frame s.stepsPerFrame p.machine).ending = .stopped pc cause) :
    (p.next s).shown = p.shown := by
  simp [next, h, shown, Output.screen?]

/-- Every other frame is, if it is dirty. -/
theorem shown_next (hh : s.headless = false)
    (h : ∀ failure, (p.next s).ending ≠ some (.failed failure)) :
    (p.next s).shown =
      p.shown ++
        if p.machine.paints (p.frameOperations s) then [(p.next s).machine.screen] else [] := by
  rw [paints_frameOperations]
  rw [ending_next] at h
  cases hf : (frame s.stepsPerFrame p.machine).ending with
  | stopped pc cause =>
    rw [hf] at h
    exact absurd rfl (h (.stopped cause))
  | parked | blocked | spent =>
    cases hd : (frame s.stepsPerFrame p.machine).dirty <;>
      simp [next, hf, hd, hh, shown, pictures, Output.screen?, Machine.tick]

/-- A frame keeps it so, as long as no step faults. -/
theorem Shows.next {touched : Bool} (hp : p.Shows touched) (hh : s.headless = false)
    (h : ∀ failure, (p.next s).ending ≠ some (.failed failure)) :
    (p.next s).Shows (touched || p.machine.paints (p.frameOperations s)) := by
  have hshown := shown_next hh h
  cases hpaints : p.machine.paints (p.frameOperations s) with
  | true =>
    rw [hpaints] at hshown
    rw [Shows, hshown, Bool.or_true, if_pos rfl, if_pos rfl, List.getLast?_concat]
  | false =>
    have hscreen : (p.next s).machine.screen = p.machine.screen := by
      rw [machine_next]
      refine Machine.screen_performAll hpaints fun hreset => ?_
      rcases mem_frameOperations hreset with hop | hop <;> cases hop
    rw [hpaints, if_neg (by decide), List.append_nil] at hshown
    rw [Shows, hshown, hscreen, Bool.or_false]
    exact hp

theorem Shows.play {touched : Bool} (hp : p.Shows touched) (hh : s.headless = false)
    (h : ∀ failure, (p.play s n).ending ≠ some (.failed failure)) :
    (p.play s n).Shows (touched || p.machine.paints (p.operations s n)) := by
  induction n generalizing p touched with
  | zero => rwa [operations, Machine.paints, Bool.or_false]
  | succ n ih =>
    rcases hgoing : p.ending with _ | e
    · obtain ⟨hplay, hoperations⟩ := play_succ (s := s) hgoing n
      rw [hplay] at h ⊢
      have hnext : ∀ failure, (p.next s).ending ≠ some (.failed failure) := by
        intro failure hfailed
        rw [(play_of_ending hfailed n).1] at h
        exact h failure hfailed
      have hshows := ih (hp.next hh hnext) h
      rwa [machine_next, Bool.or_assoc, ← Machine.paints_append, ← hoperations] at hshows
    · obtain ⟨hplay, hoperations⟩ := play_of_ending (s := s) hgoing (n + 1)
      rwa [hplay, hoperations, Machine.paints, Bool.or_false]

theorem Shows.shown_eq_nil (hp : p.Shows false) : p.shown = [] := List.getLast?_eq_none_iff.mp hp

/-- After a fault the pictures are those from before the last frame. -/
theorem Shows.exists_before_fault {touched : Bool} {failure : Failure} (hp : p.Shows touched)
    (hh : s.headless = false) (hgoing : p.ending = none)
    (h : (p.play s n).ending = some (.failed failure)) :
    ∃ k < n, p.play s n = (p.play s k).next s ∧
      p.operations s n = p.operations s k ++ (p.play s k).frameOperations s ∧
      (p.play s n).shown = (p.play s k).shown ∧
      (p.play s k).Shows (touched || p.machine.paints (p.operations s k)) := by
  obtain ⟨k, hk, hkgoing, hlast, hops⟩ := exists_last_frame hgoing h
  refine ⟨k, hk, hlast, hops, ?_, hp.play hh (by rw [hkgoing]; exact nofun)⟩
  rw [hlast, ending_next, hkgoing] at h
  rw [hlast]
  cases hf : (frame s.stepsPerFrame (p.play s k).machine).ending with
  | stopped pc cause => exact shown_next_of_stopped hf
  | parked | blocked | spent => simp [hf] at h

/-- The pictures of a program that is loaded and has a display, when it has ended. If it did not
touch the screen, there is none. If it did, and no step faulted, the last one is the screen as it
is left. After a fault, it is the screen as it was before the last frame, if it had been touched by
then: what that frame drew is not shown. -/
theorem last_picture (s : Settings) (program : Array Byte) (random : RandomSource) (n : Nat)
    (hp : program.size ≤ Memory.programRoom) (hh : s.headless = false) :
    let q := start s (.ok program) random
    let p := (q.play s n).cut
    let touched := fun k => q.machine.paints (q.operations s k)
    (touched n = false → p.shown = []) ∧
    (touched n = true → (∀ failure, p.ending ≠ some (.failed failure)) →
      p.shown.getLast? = some p.machine.screen) ∧
    ∀ failure, p.ending = some (.failed failure) →
      ∃ k < n, q.play s n = (q.play s k).next s ∧ p.shown = (q.play s k).shown ∧
        p.shown.getLast? = if touched k then some (q.play s k).machine.screen else none := by
  intro q p touched
  obtain ⟨hgoing, houtput, -⟩ : q.ending = none ∧ q.output = [] ∧ _ := start_of_le hp s random
  have hshows : q.Shows false := by
    rw [Shows, shown, houtput]
    rfl
  have hplay : ∀ k, (∀ failure, (q.play s k).ending ≠ some (.failed failure)) →
      (q.play s k).Shows (touched k) := fun k hfine => hshows.play hh hfine
  have hshown : p.shown = (q.play s n).shown := shown_cut _
  refine ⟨?_, ?_, ?_⟩
  · intro huntouched
    rw [hshown]
    by_cases hfailed : ∃ failure, (q.play s n).ending = some (.failed failure)
    · obtain ⟨failure, hfailed⟩ := hfailed
      obtain ⟨k, -, -, hops, hbefore, hk⟩ := hshows.exists_before_fault hh hgoing hfailed
      have hkeeps : touched k = false := by
        have hsplit : q.machine.paints (q.operations s n) = false := huntouched
        rw [hops, Machine.paints_append] at hsplit
        exact (Bool.or_eq_false_iff.mp hsplit).1
      have hk : (q.play s k).Shows (touched k) := hk
      rw [hkeeps] at hk
      rw [hbefore, hk.shown_eq_nil]
    · rw [not_exists] at hfailed
      have hn := hplay n hfailed
      rw [huntouched] at hn
      exact hn.shown_eq_nil
  · intro htouched hfine
    have hn := hplay n fun failure hfailed => hfine failure (ending_cut_eq_failed_iff.mpr hfailed)
    rw [htouched] at hn
    have hmachine : p.machine = (q.play s n).machine := machine_cut _
    rw [hshown, hmachine]
    exact hn
  · intro failure hfailed
    obtain ⟨k, hk, hlast, -, hbefore, hshows⟩ :=
      hshows.exists_before_fault hh hgoing (ending_cut_eq_failed_iff.mp hfailed)
    exact ⟨k, hk, hlast, hshown.trans hbefore, by rw [hshown, hbefore]; exact hshows⟩

/-- A program that clears the screen, at one instruction a frame. -/
theorem last_picture_of_clear :
    let s : Settings := { rom := "clear", ips := 60 }
    let p := ((start s (.ok #[0x00, 0xE0]) (.ofSeed 8)).play s 1).cut
    p.ending = some .frameLimit ∧ p.shown.getLast? = some p.machine.screen := by
  intro s
  have hsteps : s.stepsPerFrame = 1 := by decide
  have hlast := last_picture s #[0x00, 0xE0] (.ofSeed 8) 1 (by decide) rfl
  obtain ⟨hp, -, hat, -⟩ := start_of_le (p := #[0x00, 0xE0]) (by decide) s (.ofSeed 8)
  generalize start s (.ok #[0x00, 0xE0]) (.ofSeed 8) = q at *
  clear_value s
  have hd : Instruction.decode q.machine.fetch = .ok .clearScreen := by
    rw [hat.fetch (by decide)]
    rfl
  have hframe : (frame s.stepsPerFrame q.machine).ending = .spent ∧
      (frame s.stepsPerFrame q.machine).dirty = true := by
    rw [hsteps, frame,
      Frame.run_of_next (f := { machine := q.machine }) hat.waiting hd rfl rfl nofun]
    exact ⟨rfl, rfl⟩
  have hending : (q.play s 1).cut.ending = some .frameLimit := by
    apply ending_cut_of_none
    rw [(play_one hp).1, ending_next, hframe.1]
    exact hp
  have htouched : q.machine.paints (q.operations s 1) = true := by
    rw [(play_one hp).2, paints_frameOperations]
    exact hframe.2
  exact ⟨hending, hlast.2.1 htouched (by rw [hending]; exact nofun)⟩

/-- A digit is drawn, and the next instruction is none. The program has touched the screen and has
shown no picture. -/
theorem no_picture_of_fault :
    let s : Settings := { rom := "digit" }
    let q := start s (.ok #[0xA0, 0x50, 0xD0, 0x05, 0xFF, 0xFF]) (.ofSeed 8)
    let p := (q.play s 1).cut
    p.ending = some (.failed (.stopped (.fault (.unknownOpcode 0xFFFF)))) ∧
      q.machine.paints (q.operations s 1) = true ∧ p.shown = [] := by
  intro s
  have hsteps : s.stepsPerFrame = 11 := by decide
  obtain ⟨hp, houtput, hat, -⟩ :=
    start_of_le (p := #[0xA0, 0x50, 0xD0, 0x05, 0xFF, 0xFF]) (by decide) s (.ofSeed 8)
  generalize start s (.ok #[0xA0, 0x50, 0xD0, 0x05, 0xFF, 0xFF]) (.ofSeed 8) = q at *
  clear_value s
  have hd : Instruction.decode q.machine.fetch = .ok (.setIndex 0x50) := by
    rw [hat.fetch (by decide)]
    rfl
  let m := q.machine.after
    { machine := { q.machine with registers := q.machine.registers.setIndex 0x50 } }
  have hm : m.StandsAt _ 2 :=
    hat.after (i := .setIndex 0x50) (by decide) rfl rfl (by simp)
  have hd' : Instruction.decode m.fetch = .ok (.draw 0 0 5) := by
    rw [hm.fetch (by decide)]
    rfl
  obtain ⟨e, he, hflow, hsignal⟩ : ∃ e, (Instruction.draw 0 0 5).effect m = .ok e ∧
      e.flow = .next ∧ e.signal = some .screenDirty :=
    ⟨_, Instruction.effect_draw m 0 0 5 (by decide), rfl, rfl⟩
  have hdrawn := hm.after (by decide) he hflow (by simp)
  have hfault : (m.after e).step.result = .error (.fault (.unknownOpcode 0xFFFF)) := by
    simp only [Machine.step, hdrawn.waiting, hdrawn.fetch (by decide)]
    rfl
  have hframe : frame s.stepsPerFrame q.machine =
      Frame.run 9 { machine := m.after e, dirty := true } := by
    rw [hsteps]
    calc frame 11 q.machine
      _ = Frame.run 10 { machine := m } :=
        Frame.run_of_next (f := { machine := q.machine }) hat.waiting hd rfl rfl (by simp)
      _ = Frame.run 9 { machine := m.after e, dirty := true } := by
        rw [Frame.run_of_next (f := { machine := m }) hm.waiting hd' he hflow (by simp [hsignal]),
          hsignal]
        rfl
  have hstopped : (frame s.stepsPerFrame q.machine).ending =
      .stopped 0x204 (.fault (.unknownOpcode 0xFFFF)) := by
    rw [hframe]
    simp only [Frame.run, hfault, hdrawn.pc]
    rfl
  have hdirty : (frame s.stepsPerFrame q.machine).dirty = true := by
    rw [hframe]
    simp only [Frame.run, hfault]
  refine ⟨?_, ?_, ?_⟩
  · rw [ending_cut_eq_failed_iff, (play_one hp).1, ending_next, hstopped]
  · rw [(play_one hp).2, paints_frameOperations, hdirty]
  · rw [shown_cut, (play_one hp).1, shown_next_of_stopped hstopped, shown, houtput]
    rfl

end Playback

end Terminal

end Chip8
