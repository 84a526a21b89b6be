import Chip8.Proofs.Finish
import Chip8.Proofs.Pictures
import Chip8.Proofs.Tone
import Chip8.Terminal.Session

/-!
A playback told round by round: the machine each frame begins with and how many steps it makes of
it. What a frame calls and what it writes follow from these two (`machine_next_eq`, `output_next`),
and how many steps it makes from how the steps go (`Round.Fills`). Main statement: `rounds_of_run`.
-/

namespace Chip8

/-- How a step goes: on to another address, or not, since it waits for a key, comes back to where it
was, or faults. -/
inductive Course
  | moves
  | blocks
  | parks
  | faults
deriving DecidableEq, Repr

namespace Machine

def course (m : Machine) : Course :=
  match m.step.result with
  | .error _ => .faults
  | .ok s =>
    if s.isBlocked then .blocks
    else if m.step.machine.registers.pc = m.registers.pc then .parks
    else .moves

def rises (m : Machine) : List Operation → Nat
  | [] => 0
  | op :: ops =>
    (if m.registers.sound = 0 ∧ (m.perform op).machine.registers.sound ≠ 0 then 1 else 0) +
      (m.perform op).machine.rises ops

variable {m : Machine} {s : Step}

/-- A step answers with the program counter that it leaves. -/
theorem pc_of_step (hs : m.step.result = .ok s) : m.step.machine.registers.pc = s.nextPc := by
  have hp := m.performs_step
  rw [hs] at hp
  generalize m.step.machine = m' at hp
  cases hp <;> rfl

theorem course_of_error {stop : Stop} (h : m.step.result = .error stop) : m.course = .faults := by
  simp only [course, h]

theorem course_of_blocked (h : m.step.result = .ok s) (hb : s.isBlocked = true) :
    m.course = .blocks := by
  simp only [course, h, hb]
  rfl

theorem course_of_parked (h : m.step.result = .ok s) (hb : s.isBlocked = false)
    (hpc : s.nextPc = m.registers.pc) : m.course = .parks := by
  simp only [course, pc_of_step h, h, hb, hpc]
  rfl

theorem course_of_moved (h : m.step.result = .ok s) (hb : s.isBlocked = false)
    (hpc : s.nextPc ≠ m.registers.pc) : m.course = .moves := by
  simp only [course, pc_of_step h, h, hb, hpc]
  rfl

theorem rises_replicate_succ (m : Machine) (k : Nat) :
    m.rises (List.replicate (k + 1) .step) =
      (if m.registers.sound = 0 ∧ m.step.machine.registers.sound ≠ 0 then 1 else 0) +
        m.step.machine.rises (List.replicate k .step) := rfl

/-- A step signals that the tone starts exactly when it takes the timer from zero. -/
theorem signal_eq_on_iff (hs : m.step.result = .ok s) :
    s.signal = some (.sound .on) ↔
      m.registers.sound = 0 ∧ m.step.machine.registers.sound ≠ 0 := by
  have hedge : (Answer.stepped s).edge? = some .on ↔ s.signal = some (.sound .on) := by
    obtain ⟨pc, _ | signal⟩ := s
    · simp [Answer.edge?]
    · cases signal <;> simp [Answer.edge?]
  have hperform : m.edge? .step = (Answer.stepped s).edge? := by
    simp only [edge?, perform, Reply.map, hs]
    rfl
  have hbetween : m.edge? .step =
      SoundEdge.between m.registers.sound m.step.machine.registers.sound :=
    edge?_perform m (by decide)
  rw [← hedge, ← hperform, hbetween, SoundEdge.between_eq_on_iff]

end Machine

namespace Terminal

def FrameEnd.course : FrameEnd → Course
  | spent => .moves
  | blocked _ _ => .blocks
  | parked => .parks
  | stopped _ _ => .faults

namespace Frame

variable {f g : Frame} {n k : Nat}

theorem Runs.le (h : Runs n f k g) : k ≤ n := by
  induction h with
  | spent => exact Nat.le_refl 0
  | stopped | blocked | parked => exact Nat.succ_le_succ (Nat.zero_le _)
  | moved _ _ _ _ ih => exact Nat.succ_le_succ ih

/-- All steps of a frame but the last move on. -/
theorem Runs.moves (h : Runs n f k g) {j : Nat} (hj : j + 1 < k) :
    (f.machine.performAll (List.replicate j .step)).course = .moves := by
  induction h generalizing j with
  | spent | stopped | blocked | parked => omega
  | moved hs hb hpc _ ih =>
    cases j with
    | zero => exact Machine.course_of_moved hs hb hpc
    | succ j =>
      have hnext := ih (Nat.lt_of_succ_lt_succ hj)
      rwa [machine_note] at hnext

/-- The last step of a frame is the one it ends with. -/
theorem Runs.close (h : Runs n f k g) (hn : 0 < n) (hf : f.ending = .spent) :
    0 < k ∧ (f.machine.performAll (List.replicate (k - 1) .step)).course = g.ending.course := by
  induction h with
  | spent => omega
  | stopped hs => exact ⟨Nat.one_pos, Machine.course_of_error hs⟩
  | blocked hs hx =>
    exact ⟨Nat.one_pos, Machine.course_of_blocked hs (Step.isBlocked_iff.mpr ⟨_, hx⟩)⟩
  | parked hs hb hpc => exact ⟨Nat.one_pos, Machine.course_of_parked hs hb hpc⟩
  | @moved n k f g s hs hb hpc hr ih =>
    refine ⟨Nat.succ_pos k, ?_⟩
    rw [Nat.add_sub_cancel]
    cases n with
    | zero =>
      cases hr
      rw [ending_note, hf]
      exact Machine.course_of_moved hs hb hpc
    | succ n =>
      obtain ⟨hk, hlast⟩ := ih (Nat.succ_pos n) (by rwa [ending_note])
      obtain ⟨k, rfl⟩ := Nat.exists_eq_succ_of_ne_zero (Nat.ne_of_gt hk)
      rwa [machine_note] at hlast

/-- A frame whose steps are spent has made them all. -/
theorem Runs.eq_of_spent (h : Runs n f k g) (hg : g.ending = .spent) : k = n := by
  induction h with
  | spent => rfl
  | stopped | blocked | parked => cases hg
  | moved _ _ _ _ ih => exact congrArg Nat.succ (ih hg)

theorem bells_note (f : Frame) (m : Machine) (signal : Option Signal) :
    (f.note m signal).bells = f.bells + if signal = some (.sound .on) then 1 else 0 := by
  unfold note
  split <;> simp_all

/-- A frame rings once for each of its steps that takes the sound timer from zero. -/
theorem Runs.bells_eq (h : Runs n f k g) :
    g.bells = f.bells + f.machine.rises (List.replicate k .step) := by
  induction h with
  | spent => rfl
  | @stopped n f stop hs =>
    have hm : f.machine.step.machine = f.machine := Machine.machine_step_of_error hs
    rw [Machine.rises_replicate_succ, hm, if_neg fun h => h.2 h.1]
    rfl
  | blocked hs hx =>
    rw [Machine.rises_replicate_succ, if_neg]
    · rfl
    · rw [← Machine.signal_eq_on_iff hs, hx]
      exact nofun
  | parked hs =>
    simp only [Machine.rises_replicate_succ, ← Machine.signal_eq_on_iff hs]
    exact bells_note _ _ _
  | moved hs _ _ _ ih =>
    simp only [ih, bells_note, machine_note, Machine.rises_replicate_succ,
      ← Machine.signal_eq_on_iff hs, Nat.add_assoc]

end Frame

structure Round where
  start : Machine
  steps : Nat

namespace Round

def close (r : Round) : Course :=
  (r.start.performAll (List.replicate (r.steps - 1) .step)).course

/-- What the frame does to the machine. After a step that ends the program the timers do not
tick. -/
def calls (r : Round) : List Operation :=
  List.replicate r.steps .step ++
    match r.close with
    | .moves | .blocks => [.tick]
    | .parks | .faults => []

/-- What the frame writes: a bell for each start of the tone, and the screen as the frame leaves it
if one of its steps touched it, there is a display, and no fault has cut the frame off. -/
def output (headless : Bool) (r : Round) : List Output :=
  List.replicate (r.start.rises (List.replicate r.steps .step)) .bell ++
    if r.start.paints (List.replicate r.steps .step) && !headless && r.close != .faults then
      [.picture (r.start.performAll r.calls).screen]
    else []

def Completed (r : Round) : Prop := r.close = .moves ∨ r.close = .blocks

/-- The frame makes `n` steps, or fewer if one of them does not move on, and that is the last. -/
structure Fills (r : Round) (n : Nat) : Prop where
  pos : 0 < r.steps
  le : r.steps ≤ n
  moves : ∀ j, j + 1 < r.steps →
    (r.start.performAll (List.replicate j .step)).course = .moves
  full : r.close = .moves → r.steps = n

end Round

namespace Playback

def round (s : Settings) (p : Playback) : Round :=
  { start := p.machine, steps := Frame.steps s.stepsPerFrame p.machine }

def rounds (s : Settings) : Nat → Playback → List Round
  | 0, _ => []
  | n + 1, p =>
    match p.ending with
    | some _ => []
    | none => p.round s :: rounds s n (p.next s)

variable {s : Settings} {p : Playback} {n : Nat}

theorem rounds_of_ending {e : Ending} (h : p.ending = some e) (n : Nat) : p.rounds s n = [] := by
  cases n with
  | zero => rfl
  | succ n => simp only [rounds, h]

theorem rounds_succ (h : p.ending = none) (n : Nat) :
    p.rounds s (n + 1) = p.round s :: (p.next s).rounds s n := by
  simp only [rounds, h]

theorem stepsPerFrame_pos (s : Settings) : 0 < s.stepsPerFrame := Nat.le_max_left 1 _

theorem runs_round (s : Settings) (p : Playback) :
    Frame.Runs s.stepsPerFrame { machine := p.machine } (p.round s).steps
      (frame s.stepsPerFrame p.machine) :=
  Frame.runs_run _ _

theorem close_round (s : Settings) (p : Playback) :
    (p.round s).close = (frame s.stepsPerFrame p.machine).ending.course :=
  ((runs_round s p).close (stepsPerFrame_pos s) rfl).2

theorem fills_round (s : Settings) (p : Playback) : (p.round s).Fills s.stepsPerFrame where
  pos := ((runs_round s p).close (stepsPerFrame_pos s) rfl).1
  le := (runs_round s p).le
  moves _ hj := (runs_round s p).moves hj
  full h := by
    apply (runs_round s p).eq_of_spent
    rw [close_round] at h
    cases hf : (frame s.stepsPerFrame p.machine).ending with
    | spent => rfl
    | blocked | parked | stopped =>
      rw [hf] at h
      cases h

theorem calls_round (s : Settings) (p : Playback) : (p.round s).calls = p.frameOperations s := by
  rw [Round.calls, frameOperations, close_round]
  cases (frame s.stepsPerFrame p.machine).ending <;> rfl

theorem output_next (s : Settings) (p : Playback) :
    (p.next s).output = p.output ++ (p.round s).output s.headless := by
  have hbells : (frame s.stepsPerFrame p.machine).bells =
      (p.round s).start.rises (List.replicate (p.round s).steps .step) :=
    (runs_round s p).bells_eq.trans (Nat.zero_add _)
  have hdirty : (frame s.stepsPerFrame p.machine).dirty =
      (p.round s).start.paints (List.replicate (p.round s).steps .step) :=
    (runs_round s p).dirty_eq.trans (Bool.false_or _)
  have hmachine : (p.round s).start.performAll (p.round s).calls = (p.next s).machine := by
    rw [machine_next, calls_round]
    rfl
  rw [Round.output, close_round, hmachine, ← hdirty, ← hbells]
  cases hf : (frame s.stepsPerFrame p.machine).ending <;>
    simp [next, hf, pictures, FrameEnd.course, Machine.tick, Bool.and_comm]

theorem ending_next_of_none {e : Ending} (hp : p.ending = none)
    (h : (p.next s).ending = some e) :
    (e = .finished ∧ (p.round s).close = .parks) ∨
      ∃ stop, e = .failed (.stopped stop) ∧ (p.round s).close = .faults := by
  rw [ending_next, hp] at h
  rw [close_round]
  cases hf : (frame s.stepsPerFrame p.machine).ending with
  | spent | blocked =>
    rw [hf] at h
    cases h
  | parked =>
    rw [hf] at h
    cases h
    exact .inl ⟨rfl, rfl⟩
  | stopped pc stop =>
    rw [hf] at h
    cases h
    exact .inr ⟨stop, rfl, rfl⟩

theorem completed_round (h : (p.next s).ending = none) : (p.round s).Completed := by
  rw [ending_next] at h
  rw [Round.Completed, close_round]
  cases hf : (frame s.stepsPerFrame p.machine).ending with
  | spent => exact .inl rfl
  | blocked => exact .inr rfl
  | parked | stopped =>
    rw [hf] at h
    cases h

/-- The rounds are a true record of how at most `n` frames have led from one playback to another. -/
structure Records (s : Settings) (n : Nat) (p q : Playback) (rounds : List Round) : Prop where
  length_le : rounds.length ≤ n
  fills : ∀ r ∈ rounds, r.Fills s.stepsPerFrame
  /-- Each frame begins where those before it have led. -/
  start : ∀ before r after, rounds = before ++ r :: after →
    r.start = p.machine.performAll (before.flatMap Round.calls)
  machine : q.machine = p.machine.performAll (rounds.flatMap Round.calls)
  output : q.output = p.output ++ rounds.flatMap (Round.output s.headless)
  /-- As long as the program goes on, each frame is played and completed. -/
  going : q.ending = none → rounds.length = n ∧ ∀ r ∈ rounds, r.Completed
  /-- The last frame of a program that has ended is the only one not completed. -/
  ended : ∀ e, q.ending = some e → ∃ init r, rounds = init ++ [r] ∧ (∀ c ∈ init, c.Completed) ∧
    ((e = .finished ∧ r.close = .parks) ∨
      ∃ stop, e = .failed (.stopped stop) ∧ r.close = .faults)

theorem machine_next_eq (s : Settings) (p : Playback) :
    (p.next s).machine = p.machine.performAll (p.round s).calls := by
  rw [machine_next, calls_round]

theorem records_nil (s : Settings) (hp : p.ending = none) : Records s 0 p p [] where
  length_le := Nat.le_refl 0
  fills _ hr := nomatch hr
  start before r after h := by simp at h
  machine := rfl
  output := (List.append_nil _).symm
  going _ := ⟨rfl, fun _ hr => nomatch hr⟩
  ended e he := by
    rw [hp] at he
    cases he

theorem records_single {e : Ending} (hp : p.ending = none) (h : (p.next s).ending = some e)
    (n : Nat) : Records s (n + 1) p (p.next s) [p.round s] where
  length_le := Nat.succ_le_succ (Nat.zero_le n)
  fills r hr := by
    rw [List.mem_singleton.mp hr]
    exact fills_round s p
  start before r after hsplit := by
    obtain ⟨rfl, rfl, -⟩ : before = [] ∧ r = p.round s ∧ after = [] := by
      simpa [List.singleton_eq_append_iff] using hsplit
    rfl
  machine := by rw [List.flatMap_singleton, machine_next_eq]
  output := by rw [List.flatMap_singleton, output_next]
  going hnone := by
    rw [h] at hnone
    cases hnone
  ended e' he' := by
    rw [he'] at h
    cases h
    exact ⟨[], p.round s, rfl, nofun, ending_next_of_none hp he'⟩

theorem Records.cons {q : Playback} {rounds : List Round} (h : Records s n (p.next s) q rounds)
    (hnext : (p.next s).ending = none) : Records s (n + 1) p q (p.round s :: rounds) where
  length_le := Nat.succ_le_succ h.length_le
  fills := List.forall_mem_cons.mpr ⟨fills_round s p, h.fills⟩
  start before r after hsplit := by
    cases before with
    | nil =>
      obtain ⟨rfl, -⟩ := List.cons.inj hsplit
      rfl
    | cons first before =>
      obtain ⟨rfl, htail⟩ := List.cons.inj hsplit
      rw [h.start before r after htail, machine_next_eq, List.flatMap_cons,
        Machine.performAll_append]
  machine := by rw [h.machine, machine_next_eq, List.flatMap_cons, Machine.performAll_append]
  output := by rw [h.output, output_next, List.flatMap_cons, List.append_assoc]
  going hnone := by
    obtain ⟨hlength, hall⟩ := h.going hnone
    exact ⟨congrArg Nat.succ hlength, List.forall_mem_cons.mpr ⟨completed_round hnext, hall⟩⟩
  ended e he := by
    obtain ⟨init, r, rfl, hinit, hclose⟩ := h.ended e he
    exact ⟨p.round s :: init, r, rfl, List.forall_mem_cons.mpr ⟨completed_round hnext, hinit⟩,
      hclose⟩

theorem records_play (hp : p.ending = none) (n : Nat) :
    Records s n p (p.play s n) (p.rounds s n) := by
  induction n generalizing p with
  | zero => exact records_nil s hp
  | succ n ih =>
    rw [(play_succ hp n).1, rounds_succ hp]
    rcases hnext : (p.next s).ending with _ | e
    · exact (ih hnext).cons hnext
    · rw [(play_of_ending hnext n).1, rounds_of_ending hnext]
      exact records_single hp hnext n

theorem report?_of_maxFrames (hn : s.maxFrames = some n) (file : Except FileError (Array Byte))
    (random : RandomSource) (patience : Nat) :
    report? s file random patience =
      ((start s file random).play s n).cut.ending.map
        (Report.ofPlayback ((start s file random).play s n).cut) := by
  simp only [report?, hn]

theorem output_cut (p : Playback) : p.cut.output = p.output := by
  unfold cut
  split <;> rfl

end Playback

end Terminal

end Chip8
