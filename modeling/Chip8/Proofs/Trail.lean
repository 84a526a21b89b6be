import Chip8.Proofs.Truncation

/-!
The steps of a playback one by one. A frame ends as its last step says and goes on after every other
(`Frame.Runs.exists_last`), so a step that does not move on is the last of its frame, and the frames
behind that are those of the playback it leaves (`exists_split_of_rounds`).
-/

namespace Chip8

namespace Machine

def trail (m : Machine) : Nat → List Machine
  | 0 => []
  | k + 1 => m :: m.step.machine.trail k

variable {m : Machine} {s : Step}

theorem exists_of_mem_trail {b : Machine} {k : Nat} (h : b ∈ m.trail k) :
    ∃ j < k, b = m.performAll (List.replicate j .step) := by
  induction k generalizing m with
  | zero => cases h
  | succ k ih =>
    rw [trail, List.mem_cons] at h
    rcases h with rfl | h
    · exact ⟨0, Nat.succ_pos k, rfl⟩
    · obtain ⟨j, hj, hb⟩ := ih h
      exact ⟨j + 1, Nat.succ_lt_succ hj, hb⟩

/-- A step that blocks leaves the machine waiting where it stands. -/
theorem waiting_of_blocked {x : Nat} (hs : m.step.result = .ok s)
    (hx : s.signal = some (.blockedOnKey x)) :
    s.nextPc = m.registers.pc ∧ m.step.machine.waiting = some x := by
  have hp := m.performs_step
  rw [hs] at hp
  generalize m.step.machine = m' at hp
  cases hp with
  | executed hi he =>
    obtain ⟨h, -⟩ | ⟨y, h, rfl⟩ | ⟨edge, y, h, -⟩ := Instruction.signal_of_effect he hx
    · cases h
    · cases h
      cases he
      exact ⟨rfl, rfl⟩
    · cases h
  | blocked hw =>
    cases hx
    exact ⟨rfl, hw⟩
  | resumed => cases hx

/-- After any other step that succeeds, the machine does not wait. -/
theorem waiting_of_not_isBlocked (hs : m.step.result = .ok s) (hb : s.isBlocked = false) :
    m.step.machine.waiting = none := by
  have hp := m.performs_step
  rw [hs] at hp
  generalize m.step.machine = m' at hp
  cases hp with
  | @executed _ i e hi he =>
    have hfree : ∀ x, i ≠ .waitKey x := by
      rintro x rfl
      cases he
      cases hb
    rw [waiting_after, (Instruction.footprint_of_effect he).waiting hfree]
    exact (instruction?_step_eq_some_iff.mp hi).1
  | blocked => cases hb
  | resumed => rfl

end Machine

namespace Terminal

namespace FrameEnd

/-- How a frame ends with the next step of a machine. A step that moves on does not end it. -/
def ofStep (m : Machine) : FrameEnd :=
  match m.step.result with
  | .error stop => .stopped m.registers.pc stop
  | .ok { nextPc := _, signal := some (.blockedOnKey x) } => .blocked m.registers.pc x
  | .ok { nextPc := nextPc, signal := _ } => if nextPc = m.registers.pc then .parked else .spent

def ending? : FrameEnd → Option Ending
  | stopped _ cause => some (.failed (.stopped cause))
  | parked => some .finished
  | blocked _ _ | spent => none

variable {m : Machine} {s : Step} {pc : Word} {x : Nat} {stop : Stop}

theorem ofStep_of_error (h : m.step.result = .error stop) :
    ofStep m = .stopped m.registers.pc stop := by
  simp only [ofStep, h]

theorem ofStep_of_blocked (h : m.step.result = .ok s) (hx : s.signal = some (.blockedOnKey x)) :
    ofStep m = .blocked m.registers.pc x := by
  obtain ⟨nextPc, signal⟩ := s
  obtain rfl : signal = _ := hx
  simp only [ofStep, h]

theorem ofStep_of_not_isBlocked (h : m.step.result = .ok s) (hb : s.isBlocked = false) :
    ofStep m = if s.nextPc = m.registers.pc then .parked else .spent := by
  obtain ⟨nextPc, signal⟩ := s
  rcases signal with _ | signal
  · simp only [ofStep, h]
  · cases signal with
    | blockedOnKey x => cases hb
    | screenDirty | sound edge => simp only [ofStep, h]

theorem ofStep_cases (m : Machine) :
    (∃ stop, m.step.result = .error stop ∧ ofStep m = .stopped m.registers.pc stop) ∨
    (∃ x, m.step.result = .ok ⟨m.registers.pc, some (.blockedOnKey x)⟩ ∧
      ofStep m = .blocked m.registers.pc x) ∨
    ∃ s, m.step.result = .ok s ∧ s.isBlocked = false ∧
      ofStep m = if s.nextPc = m.registers.pc then .parked else .spent := by
  rcases h : m.step.result with stop | s
  · exact .inl ⟨stop, rfl, ofStep_of_error h⟩
  rcases hb : s.isBlocked with _ | _
  · exact .inr (.inr ⟨s, rfl, hb, ofStep_of_not_isBlocked h hb⟩)
  · obtain ⟨x, hx⟩ := Step.isBlocked_iff.mp hb
    have hpc := (Machine.waiting_of_blocked h hx).1
    obtain ⟨nextPc, signal⟩ := s
    obtain rfl : nextPc = _ := hpc
    obtain rfl : signal = _ := hx
    exact .inr (.inl ⟨x, rfl, ofStep_of_blocked h rfl⟩)

theorem ofStep_eq_stopped_iff :
    ofStep m = .stopped pc stop ↔ m.registers.pc = pc ∧ m.step.result = .error stop := by
  obtain ⟨cause, h, hm⟩ | ⟨x, h, hm⟩ | ⟨s, h, -, hm⟩ := ofStep_cases m
  · simp [h, hm]
  · simp [h, hm]
  · rw [h, hm]
    split <;> simp

theorem ofStep_eq_blocked_iff :
    ofStep m = .blocked pc x ↔
      m.registers.pc = pc ∧ m.step.result = .ok ⟨pc, some (.blockedOnKey x)⟩ := by
  obtain ⟨cause, h, hm⟩ | ⟨x, h, hm⟩ | ⟨s, h, hb, hm⟩ := ofStep_cases m
  · simp [h, hm]
  · rw [h, hm]
    constructor
    · rintro ⟨⟩
      exact ⟨rfl, rfl⟩
    · rintro ⟨rfl, ⟨⟩⟩
      rfl
  · rw [h, hm]
    constructor
    · intro h
      split at h <;> cases h
    · rintro ⟨-, ⟨⟩⟩
      cases hb

theorem ofStep_eq_parked_iff : ofStep m = .parked ↔ m.course = .parks := by
  obtain ⟨stop, h, hm⟩ | ⟨x, h, hm⟩ | ⟨s, h, hb, hm⟩ := ofStep_cases m
  · simp [hm, Machine.course_of_error h]
  · simp [hm, Machine.course_of_blocked h rfl]
  · rw [hm]
    by_cases hpc : s.nextPc = m.registers.pc
    · simp [hpc, Machine.course_of_parked h hb hpc]
    · simp [hpc, Machine.course_of_moved h hb hpc]

end FrameEnd

namespace Frame

variable {f g : Frame} {n k : Nat}

/-- A frame goes on after each of its steps but the last, and ends as that one says. -/
theorem Runs.exists_last (h : Runs n f k g) (hn : 0 < n) (hf : f.ending = .spent) :
    ∃ init last, f.machine.trail k = init ++ [last] ∧
      (∀ m ∈ init, FrameEnd.ofStep m = .spent) ∧
      g.ending = .ofStep last ∧ g.machine = last.step.machine := by
  -- a step that moves on is the last one only if no more are allowed
  induction h with
  | spent => omega
  | @stopped n f stop hs => exact ⟨[], _, rfl, nofun, (FrameEnd.ofStep_of_error hs).symm, rfl⟩
  | @blocked n f s x hs hx =>
    exact ⟨[], _, rfl, nofun, (FrameEnd.ofStep_of_blocked hs hx).symm, rfl⟩
  | @parked n f s hs hb hpc =>
    refine ⟨[], _, rfl, nofun, ?_, machine_note _ _ _⟩
    rw [FrameEnd.ofStep_of_not_isBlocked hs hb, if_pos hpc]
  | @moved n k f g s hs hb hpc hr ih =>
    have hmoved : FrameEnd.ofStep f.machine = .spent := by
      rw [FrameEnd.ofStep_of_not_isBlocked hs hb, if_neg hpc]
    cases n with
    | zero =>
      cases hr
      refine ⟨[], _, rfl, nofun, ?_, machine_note _ _ _⟩
      rw [ending_note, hf, hmoved]
    | succ n =>
      obtain ⟨init, last, htrail, hinit, hlast⟩ := ih (Nat.succ_pos n) (by rwa [ending_note])
      rw [machine_note] at htrail
      refine ⟨f.machine :: init, last, ?_, List.forall_mem_cons.mpr ⟨hmoved, hinit⟩, hlast⟩
      rw [Machine.trail, htrail, List.cons_append]

end Frame

def Round.machines (r : Round) : List Machine := r.start.trail r.steps

namespace Playback

variable {s : Settings} {p q : Playback} {n : Nat} {m : Machine}

/-- The machine before each step of at most `n` frames. -/
def machines (s : Settings) (n : Nat) (p : Playback) : List Machine :=
  (p.rounds s n).flatMap Round.machines

theorem exists_last_machine (s : Settings) (p : Playback) :
    ∃ init last, (p.round s).machines = init ++ [last] ∧
      (∀ m ∈ init, FrameEnd.ofStep m = .spent) ∧
      (frame s.stepsPerFrame p.machine).ending = .ofStep last ∧
      (frame s.stepsPerFrame p.machine).machine = last.step.machine :=
  (runs_round s p).exists_last (stepsPerFrame_pos s) rfl

theorem machine_mem_round (s : Settings) (p : Playback) : p.machine ∈ (p.round s).machines := by
  obtain ⟨k, hk⟩ := Nat.exists_eq_succ_of_ne_zero (Nat.ne_of_gt (fills_round s p).pos)
  rw [Round.machines, hk]
  exact List.mem_cons_self

theorem exists_round_of_mem_machines (h : m ∈ q.machines s n) :
    ∃ before r after, q.rounds s n = before ++ r :: after ∧ m ∈ r.machines := by
  obtain ⟨r, hr, hm⟩ := List.mem_flatMap.mp h
  obtain ⟨before, after, hrounds⟩ := List.append_of_mem hr
  exact ⟨before, r, after, hrounds, hm⟩

/-- A step that does not move on is the last of its frame. -/
theorem frame_of_mem_machines (h : m ∈ (p.round s).machines) (hm : FrameEnd.ofStep m ≠ .spent) :
    (frame s.stepsPerFrame p.machine).ending = .ofStep m ∧
      (frame s.stepsPerFrame p.machine).machine = m.step.machine ∧
      (p.round s).machines.getLast? = some m := by
  obtain ⟨init, last, hmachines, hinit, hlast⟩ := exists_last_machine s p
  rw [hmachines] at h
  rcases List.mem_append.mp h with h | h
  · exact absurd (hinit m h) hm
  · obtain rfl := List.mem_singleton.mp h
    exact ⟨hlast.1, hlast.2, by rw [hmachines, List.getLast?_concat]⟩

theorem ending_next_eq (hp : p.ending = none) :
    (p.next s).ending = (frame s.stepsPerFrame p.machine).ending.ending? := by
  rw [ending_next, hp]
  cases (frame s.stepsPerFrame p.machine).ending <;> rfl

/-- A frame of a playback is the next frame of the playback that the frames before it have led to,
and the frames after it are played from there. -/
theorem exists_split_of_rounds {before after : List Round} {r : Round}
    (h : q.rounds s n = before ++ r :: after) :
    let p := q.play s before.length
    p.ending = none ∧ r = p.round s ∧ ∃ k, n = before.length + 1 + k ∧
      after = (p.next s).rounds s k ∧ q.play s n = (p.next s).play s k := by
  induction before generalizing q n with
  | nil =>
    cases n with
    | zero => cases h
    | succ n =>
      rcases hq : q.ending with _ | e
      · rw [rounds_succ hq, List.nil_append, List.cons.injEq] at h
        obtain ⟨rfl, rfl⟩ := h
        exact ⟨hq, rfl, n, Nat.add_comm _ _, rfl, (play_succ hq n).1⟩
      · rw [rounds_of_ending hq] at h
        cases h
  | cons first before ih =>
    cases n with
    | zero => cases h
    | succ n =>
      rcases hq : q.ending with _ | e
      · rw [rounds_succ hq, List.cons_append, List.cons.injEq] at h
        obtain ⟨hgoing, hround, k, rfl, hafter, hplay⟩ := ih h.2
        rw [List.length_cons, (play_succ hq _).1]
        exact ⟨hgoing, hround, k, by omega, hafter, by rw [(play_succ hq _).1, hplay]⟩
      · rw [rounds_of_ending hq] at h
        cases h

/-- The step that ends the program is the last of the playback. -/
theorem play_of_ending_step {e : Ending} (h : m ∈ q.machines s n)
    (he : (FrameEnd.ofStep m).ending? = some e) :
    (q.play s n).ending = some e ∧ (q.play s n).machine = m.step.machine ∧
      (q.machines s n).getLast? = some m := by
  obtain ⟨before, r, after, hrounds, hm⟩ := exists_round_of_mem_machines h
  obtain ⟨hgoing, rfl, k, -, hafter, hplay⟩ := exists_split_of_rounds hrounds
  have hspent : FrameEnd.ofStep m ≠ .spent := by
    intro hm
    rw [hm] at he
    cases he
  obtain ⟨hending, hmachine, hlast⟩ := frame_of_mem_machines hm hspent
  have hnext : ((q.play s before.length).next s).ending = some e := by
    rw [ending_next_eq hgoing, hending, he]
  rw [rounds_of_ending hnext] at hafter
  rw [hplay, (play_of_ending hnext k).1]
  refine ⟨hnext, ?_, ?_⟩
  · rw [← hmachine]
    cases hm : FrameEnd.ofStep m with
    | stopped | parked => simp only [next, hending, hm]
    | blocked | spent =>
      rw [hm] at he
      cases he
  · rw [machines, hrounds, hafter, List.flatMap_append, List.flatMap_singleton,
      List.getLast?_append, hlast, Option.some_or]

theorem round_mem_rounds {k : Nat} (hk : k < n) (h : (q.play s k).ending = none) :
    (q.play s k).round s ∈ q.rounds s n := by
  induction k generalizing q n with
  | zero =>
    obtain ⟨n, rfl⟩ := Nat.exists_eq_succ_of_ne_zero (Nat.ne_of_gt hk)
    have hq : q.ending = none := h
    rw [rounds_succ hq]
    exact List.mem_cons_self
  | succ k ih =>
    obtain ⟨n, rfl⟩ := Nat.exists_eq_succ_of_ne_zero (Nat.ne_of_gt (Nat.zero_lt_of_lt hk))
    rcases hq : q.ending with _ | e
    · rw [(play_succ hq k).1] at h ⊢
      rw [rounds_succ hq]
      exact List.mem_cons_of_mem _ (ih (Nat.lt_of_succ_lt_succ hk) h)
    · rw [(play_of_ending hq (k + 1)).1, hq] at h
      cases h

/-- A program that has ended did so with one of its steps. -/
theorem exists_ending_step {e : Ending} (hq : q.ending = none)
    (he : (q.play s n).ending = some e) :
    ∃ m ∈ q.machines s n, (FrameEnd.ofStep m).ending? = some e := by
  obtain ⟨k, hk, hgoing, hplay, -⟩ := exists_last_frame hq he
  obtain ⟨init, last, hmachines, -, hending, -⟩ := exists_last_machine s (q.play s k)
  refine ⟨last, List.mem_flatMap.mpr ⟨_, round_mem_rounds hk hgoing, ?_⟩, ?_⟩
  · rw [hmachines]
    exact List.mem_append_right _ List.mem_cons_self
  · rw [← hending, ← ending_next_eq hgoing, ← hplay, he]

end Playback

end Terminal

end Chip8
