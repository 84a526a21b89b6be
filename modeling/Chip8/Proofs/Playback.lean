import Chip8.Proofs.Faults
import Chip8.Terminal.Playback

/-!
The host as a history of its machine. A frame makes a number of steps (`Frame.runs_run`), and a
playback the operations of its frames (`machine_play`), so that what holds of all histories holds of
a program being played. A playback that has ended did so in its last frame (`exists_last_frame`).
-/

namespace Chip8

namespace Machine

variable {m : Machine} {p : Array Byte} {k : Nat}

/-- The machine is to execute the word at byte `k` of a program that is in memory as it was
loaded. -/
structure StandsAt (m : Machine) (p : Array Byte) (k : Nat) : Prop where
  memory : Memory.blank.load p = .ok m.memory
  pc : m.registers.pc = UInt16.ofNat (Memory.programStart + k)
  waiting : m.waiting = none

theorem StandsAt.toNat_pc (h : m.StandsAt p k) (hk : k < p.size) :
    m.registers.pc.toNat = Memory.programStart + k := by
  have hroom := Memory.size_le_of_load h.memory
  rw [h.pc, UInt16.toNat_ofNat']
  simp only [Memory.programStart, Memory.programRoom] at *
  omega

theorem StandsAt.fetch (h : m.StandsAt p k) (hk : k + 1 < p.size) :
    m.fetch = Word.ofBytes p[k] p[k + 1] := by
  have hroom := Memory.size_le_of_load h.memory
  have hpc := h.toNat_pc (Nat.lt_of_succ_lt hk)
  have hcell : (Word.cell m.registers.pc).val = Memory.programStart + k := by
    rw [Word.val_cell, hpc]
    simp only [Memory.programStart, Memory.programRoom] at *
    omega
  have hnext : (Word.cell (m.registers.pc.advance 1)).val = Memory.programStart + (k + 1) := by
    rw [Word.cell_advance, hpc]
    simp only [Memory.programStart, Memory.programRoom, UInt16.reduceToNat] at *
    omega
  rw [fetch_eq, Memory.read_load h.memory, Memory.read_load h.memory, hcell, hnext,
    if_pos (Nat.le_add_right _ _), if_pos (Nat.le_add_right _ _), Nat.add_sub_cancel_left,
    Nat.add_sub_cancel_left]
  simp [hk, Nat.lt_of_succ_lt hk]

/-- An instruction that neither stores nor waits leads to the next one. -/
theorem StandsAt.after {i : Instruction} {e : Effect} (h : m.StandsAt p k) (hk : k + 2 < p.size)
    (he : i.effect m = .ok e) (hf : e.flow = .next)
    (hi : (∀ x, i ≠ .storeDecimal x) ∧ (∀ x, i ≠ .dump x) ∧ ∀ x, i ≠ .waitKey x) :
    (m.after e).StandsAt p (k + 2) := by
  obtain ⟨hdecimal, hdump, hwait⟩ := hi
  have hfoot := Instruction.footprint_of_effect he
  refine ⟨?_, ?_, ?_⟩
  · rw [Machine.after, hfoot.memory hdecimal hdump]
    exact h.memory
  · have hroom := Memory.size_le_of_load h.memory
    have hpc := h.toNat_pc (by omega)
    apply UInt16.toNat_inj.mp
    rw [Machine.after, hf]
    show (m.registers.pc.advance 2).toNat = _
    rw [Word.toNat_advance, hpc, UInt16.toNat_ofNat']
    simp only [Memory.programStart, Memory.programRoom, UInt16.reduceToNat] at *
    omega
  · rw [waiting_after, hfoot.waiting hwait]
    exact h.waiting

end Machine

namespace Terminal

namespace Frame

/-- How many steps a frame of at most `n` makes. The one that ends it is the last of them. -/
def steps : Nat → Machine → Nat
  | 0, _ => 0
  | n + 1, m =>
    match m.step.result with
    | .error _ => 1
    | .ok s =>
      if s.isBlocked ∨ s.nextPc = m.registers.pc then 1 else steps n m.step.machine + 1

/-- From one frame with at most `n` steps left, `k` steps lead to the other. -/
inductive Runs : Nat → Frame → Nat → Frame → Prop
  | spent {f : Frame} : Runs 0 f 0 f
  | stopped {n : Nat} {f : Frame} {stop : Stop} (h : f.machine.step.result = .error stop) :
      Runs (n + 1) f 1
        { f with
          machine := f.machine.step.machine
          ending := .stopped f.machine.registers.pc stop }
  | blocked {n : Nat} {f : Frame} {s : Step} {x : Nat} (h : f.machine.step.result = .ok s)
      (hx : s.signal = some (.blockedOnKey x)) :
      Runs (n + 1) f 1
        { f with machine := f.machine.step.machine, ending := .blocked f.machine.registers.pc x }
  | parked {n : Nat} {f : Frame} {s : Step} (h : f.machine.step.result = .ok s)
      (hb : s.isBlocked = false) (hpc : s.nextPc = f.machine.registers.pc) :
      Runs (n + 1) f 1 { f.note f.machine.step.machine s.signal with ending := .parked }
  | moved {n k : Nat} {f g : Frame} {s : Step} (h : f.machine.step.result = .ok s)
      (hb : s.isBlocked = false) (hpc : s.nextPc ≠ f.machine.registers.pc)
      (hr : Runs n (f.note f.machine.step.machine s.signal) k g) : Runs (n + 1) f (k + 1) g

variable {f g : Frame} {n k : Nat}

@[simp] theorem machine_note (f : Frame) (m : Machine) (signal : Option Signal) :
    (f.note m signal).machine = m := by
  unfold note
  split <;> rfl

@[simp] theorem ending_note (f : Frame) (m : Machine) (signal : Option Signal) :
    (f.note m signal).ending = f.ending := by
  unfold note
  split <;> rfl

/-- The loop of a frame, once a step is known not to block. -/
theorem run_of_not_isBlocked {s : Step} (h : f.machine.step.result = .ok s)
    (hb : s.isBlocked = false) :
    run (n + 1) f =
      if s.nextPc = f.machine.registers.pc then
        { f.note f.machine.step.machine s.signal with ending := .parked }
      else run n (f.note f.machine.step.machine s.signal) := by
  obtain ⟨nextPc, signal⟩ := s
  rcases signal with _ | signal
  · simp only [run, h]
  · cases signal with
    | blockedOnKey x => cases hb
    | screenDirty | sound edge => simp only [run, h]

theorem run_of_effect {i : Instruction} {e : Effect} (hw : f.machine.waiting = none)
    (hd : Instruction.decode f.machine.fetch = .ok i) (he : i.effect f.machine = .ok e)
    (hs : ∀ x, e.signal ≠ some (.blockedOnKey x)) :
    run (n + 1) f =
      if e.flow.target f.machine.registers.pc = f.machine.registers.pc then
        { f.note (f.machine.after e) e.signal with ending := .parked }
      else run n (f.note (f.machine.after e) e.signal) := by
  have hresult := Machine.result_step_of_decode hw hd
  have hmachine := Machine.machine_step_of_decode hw hd
  rw [Machine.execute_of_effect he] at hresult hmachine
  rw [run_of_not_isBlocked hresult, hmachine]
  rw [Bool.eq_false_iff, ne_eq, Step.isBlocked_iff]
  exact fun ⟨x, hx⟩ => hs x hx

/-- A step that neither goes anywhere nor blocks is followed by the next. -/
theorem run_of_next {i : Instruction} {e : Effect} (hw : f.machine.waiting = none)
    (hd : Instruction.decode f.machine.fetch = .ok i) (he : i.effect f.machine = .ok e)
    (hf : e.flow = .next) (hs : ∀ x, e.signal ≠ some (.blockedOnKey x)) :
    run (n + 1) f = run n (f.note (f.machine.after e) e.signal) := by
  rw [run_of_effect hw hd he hs, hf, if_neg]
  exact Word.advance_ne _ (by decide) (by decide)

theorem runs_run (n : Nat) (f : Frame) : Runs n f (steps n f.machine) (run n f) := by
  induction n generalizing f with
  | zero => exact .spent
  | succ n ih =>
    rcases hs : f.machine.step.result with stop | s
    · simp only [steps, run, hs]
      exact .stopped hs
    rcases hb : s.isBlocked with _ | _
    · by_cases hpc : s.nextPc = f.machine.registers.pc
      · rw [run_of_not_isBlocked hs hb, if_pos hpc]
        simp only [steps, hs, hb, hpc]
        exact .parked hs hb hpc
      · rw [run_of_not_isBlocked hs hb, if_neg hpc]
        simp only [steps, hs, hb, hpc]
        refine .moved hs hb hpc ?_
        have hr := ih (f.note f.machine.step.machine s.signal)
        rwa [machine_note] at hr
    · obtain ⟨x, hx⟩ := Step.isBlocked_iff.mp hb
      obtain ⟨nextPc, signal⟩ := s
      obtain rfl : signal = _ := hx
      simp only [steps, run, hs, hb]
      exact .blocked hs rfl

theorem Runs.machine (h : Runs n f k g) :
    g.machine = f.machine.performAll (List.replicate k .step) := by
  induction h with
  | spent => rfl
  | stopped | blocked => rfl
  | parked => exact machine_note _ _ _
  | moved _ _ _ _ ih =>
    rw [ih, machine_note]
    rfl

end Frame

namespace Playback

variable {s : Settings} {p : Playback} {n : Nat}

/-- What the next frame does to the machine. After the step that ends the program the timers do not
tick. -/
def frameOperations (s : Settings) (p : Playback) : List Operation :=
  List.replicate (Frame.steps s.stepsPerFrame p.machine) .step ++
    match (frame s.stepsPerFrame p.machine).ending with
    | .spent | .blocked _ _ => [.tick]
    | .parked | .stopped _ _ => []

def operations (s : Settings) : Nat → Playback → List Operation
  | 0, _ => []
  | n + 1, p =>
    match p.ending with
    | some _ => []
    | none => p.frameOperations s ++ operations s n (p.next s)

theorem play_of_ending {e : Ending} (h : p.ending = some e) (n : Nat) :
    p.play s n = p ∧ p.operations s n = [] := by
  cases n with
  | zero => exact ⟨rfl, rfl⟩
  | succ n => simp only [play, operations, h, and_self]

theorem play_succ (h : p.ending = none) (n : Nat) :
    p.play s (n + 1) = (p.next s).play s n ∧
      p.operations s (n + 1) = p.frameOperations s ++ (p.next s).operations s n := by
  simp only [play, operations, h, and_self]

theorem play_one (h : p.ending = none) :
    p.play s 1 = p.next s ∧ p.operations s 1 = p.frameOperations s := by
  obtain ⟨hplay, hoperations⟩ := play_succ (s := s) h 0
  rw [operations, List.append_nil] at hoperations
  exact ⟨hplay, hoperations⟩

theorem ending_next (s : Settings) (p : Playback) :
    (p.next s).ending =
      match (frame s.stepsPerFrame p.machine).ending with
      | .stopped _ cause => some (.failed (.stopped cause))
      | .parked => some .finished
      | .blocked _ _ | .spent => p.ending := by
  cases hf : (frame s.stepsPerFrame p.machine).ending <;> simp only [next, hf]

theorem machine_next (s : Settings) (p : Playback) :
    (p.next s).machine = p.machine.performAll (p.frameOperations s) := by
  have h : (frame s.stepsPerFrame p.machine).machine = _ := (Frame.runs_run _ _).machine
  rw [frameOperations, Machine.performAll_append, ← h]
  cases hf : (frame s.stepsPerFrame p.machine).ending <;> simp only [next, hf] <;> rfl

theorem machine_play (s : Settings) (n : Nat) (p : Playback) :
    (p.play s n).machine = p.machine.performAll (p.operations s n) := by
  induction n generalizing p with
  | zero => rfl
  | succ n ih =>
    rcases hp : p.ending with _ | e
    · obtain ⟨hplay, hoperations⟩ := play_succ (s := s) hp n
      rw [hplay, hoperations, ih, machine_next, Machine.performAll_append]
    · obtain ⟨hplay, hoperations⟩ := play_of_ending (s := s) hp (n + 1)
      rw [hplay, hoperations, Machine.performAll_nil]

theorem mem_frameOperations {op : Operation} (h : op ∈ p.frameOperations s) :
    op = .step ∨ op = .tick := by
  rw [frameOperations, List.mem_append] at h
  rcases h with h | h
  · exact .inl (List.eq_of_mem_replicate h)
  · split at h
    · exact .inr (List.mem_singleton.mp h)
    · exact .inr (List.mem_singleton.mp h)
    · cases h
    · cases h

/-- The host only steps and ticks. -/
theorem mem_operations {op : Operation} (h : op ∈ p.operations s n) : op = .step ∨ op = .tick := by
  induction n generalizing p with
  | zero => cases h
  | succ n ih =>
    rcases hp : p.ending with _ | e
    · rw [(play_succ hp n).2, List.mem_append] at h
      rcases h with h | h
      · exact mem_frameOperations h
      · exact ih h
    · rw [(play_of_ending hp _).2] at h
      cases h

/-- A program that fits is loaded, and is to begin. -/
theorem start_of_le {p : Array Byte} (h : p.size ≤ Memory.programRoom) (s : Settings)
    (random : RandomSource) :
    let q := start s (.ok p) random
    q.ending = none ∧ q.output = [] ∧ q.machine.StandsAt p 0 ∧ q.machine.stack.frames = [] := by
  obtain ⟨memory, hl⟩ := Memory.blank.exists_load h
  have hstart : start s (.ok p) random =
      { machine := { Machine.fresh s.dialect random with memory := memory }
        notices := [.loaded p.size s.rom] } := by
    simp only [start, Machine.load, Machine.memory_fresh, hl]
  intro q
  have hq : q = _ := hstart
  rw [hq]
  exact ⟨rfl, rfl, ⟨hl, rfl, rfl⟩, rfl⟩

theorem machine_cut (p : Playback) : p.cut.machine = p.machine := by
  unfold cut
  split <;> rfl

theorem ending_cut_of_none (h : p.ending = none) : p.cut.ending = some .frameLimit := by
  simp only [cut, h]

theorem ending_cut_of_some {e : Ending} (h : p.ending = some e) : p.cut.ending = some e := by
  simp only [cut, h]

theorem ending_cut_eq_failed_iff {failure : Failure} :
    p.cut.ending = some (.failed failure) ↔ p.ending = some (.failed failure) := by
  unfold cut
  cases h : p.ending <;> simp [h]

/-- A program that does not get to its first frame has failed. -/
theorem exists_failure_of_start {s : Settings} {file : Except FileError (Array Byte)}
    {random : RandomSource} {e : Ending} (h : (start s file random).ending = some e) :
    ∃ failure, e = .failed failure := by
  revert h
  unfold start
  split
  · rintro ⟨rfl⟩
    exact ⟨_, rfl⟩
  · dsimp only
    split
    · rintro ⟨rfl⟩
      exact ⟨_, rfl⟩
    · exact nofun

theorem reachable_start (s : Settings) (file : Except FileError (Array Byte))
    (random : RandomSource) : (start s file random).machine.Reachable := by
  have hfresh := Machine.Reachable.fresh s.dialect random
  cases file with
  | error cause => exact hfresh
  | ok program =>
    have hloaded : ((Machine.fresh s.dialect random).perform (.load program)).machine.Reachable :=
      hfresh.perform trivial
    simp only [start]
    rcases (Machine.load (Machine.fresh s.dialect random) program).result with stop | _
    · exact hfresh
    · exact hloaded

theorem reachable_play (h : p.machine.Reachable) (n : Nat) : (p.play s n).machine.Reachable := by
  rw [machine_play]
  refine h.performAll ?_
  intro op hop
  rcases mem_operations hop with rfl | rfl
  · exact trivial
  · exact trivial

/-- A playback that ends does so in a frame, and that frame is its last. -/
theorem exists_last_frame {e : Ending} (hp : p.ending = none)
    (he : (p.play s n).ending = some e) :
    ∃ k < n, (p.play s k).ending = none ∧ p.play s n = (p.play s k).next s ∧
      p.operations s n = p.operations s k ++ (p.play s k).frameOperations s := by
  induction n generalizing p with
  | zero =>
    rw [play, hp] at he
    cases he
  | succ n ih =>
    obtain ⟨hplay, hoperations⟩ := play_succ (s := s) hp n
    rcases hn : (p.next s).ending with _ | e'
    · rw [hplay] at he
      obtain ⟨k, hk, hgoing, hlast, hops⟩ := ih hn he
      obtain ⟨hplay', hoperations'⟩ := play_succ (s := s) hp k
      refine ⟨k + 1, Nat.succ_lt_succ hk, ?_, ?_, ?_⟩
      · rw [hplay', hgoing]
      · rw [hplay, hplay', hlast]
      · rw [hoperations, hops, hoperations', hplay', List.append_assoc]
    · obtain ⟨hstop, hnil⟩ := play_of_ending (s := s) hn n
      refine ⟨0, Nat.succ_pos n, hp, ?_, ?_⟩
      · rw [hplay, hstop, play]
      · rw [hoperations, hnil, List.append_nil, operations, List.nil_append, play]

end Playback

end Terminal

end Chip8
