import Chip8.Proofs.KeyWait
import Chip8.Proofs.Trail

/-!
A program that waits for a key, on a host that has none to give. The pad of a machine being played
never has a press to take (`Unattended`), so once a step has blocked, each frame is one blocked step
and one tick (`Waits.play`), and the one report of it is never followed by another
(`Accounts.play`). Main statement: `blocked_for_good`.
-/

namespace Chip8

def Terminal.FrameEnd.awaited? : FrameEnd → Option Nat
  | blocked _ x => some x
  | stopped _ _ | parked | spent => none

def Terminal.FrameEnd.notice? : FrameEnd → Option Notice
  | stopped pc cause => some (.faulted pc cause)
  | blocked pc x => some (.waiting pc x)
  | parked | spent => none

namespace Machine

/-- Nobody is at the keys: there is no press to take, and a machine that waits does so at the
instruction that asked for a key. -/
structure Unattended (m : Machine) : Prop where
  press : m.keypad.takePress = none
  wait : ∀ x, m.waiting = some x → Instruction.decode m.fetch = .ok (.waitKey x)

def countedDown (m : Machine) (k : Nat) : Machine :=
  { m with
    registers :=
      { m.registers with
        delay := UInt8.ofNat (m.registers.delay.toNat - k)
        sound := UInt8.ofNat (m.registers.sound.toNat - k) } }

variable {m m' b : Machine} {op : Operation} {ops : List Operation} {pc : Word} {x k : Nat}

theorem performAll_ticks (m : Machine) (k : Nat) :
    m.performAll (List.replicate k .tick) = m.countedDown k := by
  induction k generalizing m with
  | zero =>
    rw [List.replicate_zero, performAll_nil, countedDown]
    simp
  | succ k ih =>
    have htick : (m.perform .tick).machine = { m with registers := m.registers.tick.1 } := rfl
    rw [List.replicate_succ, performAll_cons, ih, htick]
    simp only [countedDown, Registers.tick, Registers.toNat_countDown, Nat.sub_sub,
      Nat.add_comm k 1]

theorem Performs.unattended {result : Except Stop Answer} (hp : Performs m op result m')
    (h : m.Unattended) (hop : op = .step ∨ op = .tick) : m'.Unattended := by
  cases hp with
  | refused | blocked => exact h
  | ticked => exact ⟨h.press, h.wait⟩
  | @executed _ i e hi he =>
    obtain rfl : op = .step := hop.resolve_right (by rintro rfl; cases hi)
    obtain ⟨hw, hd⟩ := instruction?_step_eq_some_iff.mp hi
    -- one instruction begins a wait, and it drops the presses that there were
    by_cases hx : ∃ x, i = .waitKey x
    · obtain ⟨x, rfl⟩ := hx
      cases he
      refine ⟨Keypad.takePress_eq_none_iff.mpr m.keypad.not_latched_discardPresses, ?_⟩
      intro y hy
      cases hy
      exact hd
    · rw [not_exists] at hx
      have hfoot := Instruction.footprint_of_effect he
      refine ⟨?_, ?_⟩
      · rw [keypad_after, hfoot.keypad hx]
        exact h.press
      · intro y hy
        rw [waiting_after, hfoot.waiting hx, hw] at hy
        cases hy
  | resumed hw hp =>
    rw [h.press] at hp
    cases hp
  | loaded | reset | pressed | released | untaken | taken | discarded | cleared => simp at hop

theorem Unattended.performAll (h : m.Unattended) (hops : ∀ op ∈ ops, op = .step ∨ op = .tick) :
    (m.performAll ops).Unattended := by
  induction ops generalizing m with
  | nil => exact h
  | cons op ops ih =>
    rw [List.forall_mem_cons] at hops
    exact ih ((m.performs_perform op).unattended h hops.1) hops.2

theorem Unattended.of_mem_trail (h : m.Unattended) (hb : b ∈ m.trail k) : b.Unattended := by
  obtain ⟨j, -, rfl⟩ := exists_of_mem_trail hb
  exact h.performAll fun op hop => .inl (List.eq_of_mem_replicate hop)

theorem Unattended.step_of_waiting (h : m.Unattended) (hx : m.waiting = some x) :
    m.step.result = .ok ⟨m.registers.pc, some (.blockedOnKey x)⟩ ∧ m.step.machine = m := by
  rw [step_eq_poll hx, poll, h.press]
  exact ⟨rfl, rfl⟩

/-- A step blocks at an instruction that asks for a key, and nowhere else. -/
theorem Unattended.decode_of_blocked {s : Step} (h : m.Unattended)
    (hs : m.step.result = .ok s) (hx : s.signal = some (.blockedOnKey x)) :
    Instruction.decode m.fetch = .ok (.waitKey x) := by
  have hp := m.performs_step
  rw [hs] at hp
  generalize m.step.machine = m' at hp
  cases hp with
  | executed hi he =>
    obtain ⟨hsignal, -⟩ | ⟨y, hsignal, rfl⟩ | ⟨edge, y, hsignal, -⟩ :=
      Instruction.signal_of_effect he hx
    · cases hsignal
    · cases hsignal
      exact (instruction?_step_eq_some_iff.mp hi).2
    · cases hsignal
  | blocked hw =>
    cases hx
    exact h.wait x hw
  | resumed => cases hx

/-- With nobody at the keys, a machine waits exactly after a step that blocks. -/
theorem Unattended.waiting_step (h : m.Unattended) :
    m.step.machine.waiting = (Terminal.FrameEnd.ofStep m).awaited? := by
  obtain ⟨stop, hs, hm⟩ | ⟨y, hs, hm⟩ | ⟨s, hs, hb, hm⟩ := Terminal.FrameEnd.ofStep_cases m
  · rw [hm, machine_step_of_error hs]
    rcases hx : m.waiting with _ | x
    · rfl
    · rw [(h.step_of_waiting hx).1] at hs
      cases hs
  · rw [hm, (waiting_of_blocked hs rfl).2]
    rfl
  · rw [hm, waiting_of_not_isBlocked hs hb]
    split <;> rfl

end Machine

namespace Terminal

/-- A frame that is nothing but a step that blocks and changes nothing. -/
theorem Round.of_blocked {r : Round} {pc : Word} {x : Nat} (hsteps : r.steps = 1)
    (hs : r.start.step.result = .ok ⟨pc, some (.blockedOnKey x)⟩)
    (hm : r.start.step.machine = r.start) :
    r.calls = [.step, .tick] ∧ ∀ headless, r.output headless = [] := by
  have hclose : r.close = .blocks := by
    rw [close, hsteps]
    exact Machine.course_of_blocked hs rfl
  have hrises : r.start.rises [.step] = 0 := by
    have hperform : (r.start.perform .step).machine = r.start := hm
    rw [Machine.rises, hperform, if_neg fun h => h.2 h.1]
    rfl
  have hpaints : r.start.paints [.step] = false := by
    rw [Machine.paints, Machine.paints_step_of_ok hs]
    rfl
  refine ⟨?_, fun headless => ?_⟩
  · rw [calls, hclose, hsteps]
    rfl
  · rw [output, hsteps, List.replicate_one, hrises, hpaints]
    rfl

namespace Playback

variable {s : Settings} {p q : Playback} {pc : Word} {x n k : Nat} {m : Machine}
  {first : List Notice}

theorem frame_of_waiting (hm : m.Unattended) (hx : m.waiting = some x) (hn : 0 < n) :
    frame n m = { machine := m, ending := .blocked m.registers.pc x } ∧ Frame.steps n m = 1 := by
  obtain ⟨n, rfl⟩ := Nat.exists_eq_succ_of_ne_zero (Nat.ne_of_gt hn)
  obtain ⟨hs, hkept⟩ := hm.step_of_waiting hx
  constructor
  · simp only [frame, Frame.run, hs, hkept]
  · simp only [Frame.steps, hs]
    rfl

structure Waits (p : Playback) (pc : Word) (x : Nat) : Prop where
  unattended : p.machine.Unattended
  waiting : p.machine.waiting = some x
  pc : p.machine.registers.pc = pc
  warned : p.warned = true
  going : p.ending = none

/-- Such a playback does no more in a frame than to let its timers tick. -/
theorem Waits.next_eq (h : p.Waits pc x) :
    p.next s = { p with machine := p.machine.tick.machine } := by
  obtain ⟨hframe, -⟩ := frame_of_waiting h.unattended h.waiting (stepsPerFrame_pos s)
  obtain ⟨machine, warned, output, notices, ending⟩ := p
  obtain rfl : warned = true := h.warned
  simp [next, hframe, pictures]

theorem Waits.next (h : p.Waits pc x) : (p.next s).Waits pc x := by
  rw [h.next_eq]
  exact ⟨⟨h.unattended.press, h.unattended.wait⟩, h.waiting, h.pc, h.warned, h.going⟩

theorem Waits.play_eq (h : p.Waits pc x) (k : Nat) :
    p.play s k = { p with machine := p.machine.countedDown k } := by
  rw [← Machine.performAll_ticks]
  induction k generalizing p with
  | zero => rfl
  | succ k ih =>
    rw [(play_succ h.going k).1, ih h.next, h.next_eq]
    rfl

theorem Waits.play (h : p.Waits pc x) (k : Nat) : (p.play s k).Waits pc x := by
  induction k generalizing p with
  | zero => exact h
  | succ k ih =>
    rw [(play_succ h.going k).1]
    exact ih h.next

theorem Waits.rounds (h : p.Waits pc x) :
    (p.rounds s k).length = k ∧ ∀ r ∈ p.rounds s k, r.calls = [.step, .tick] ∧
      r.start.step.result = .ok ⟨pc, some (.blockedOnKey x)⟩ ∧ r.start.step.machine = r.start ∧
      ∀ headless, r.output headless = [] := by
  induction k generalizing p with
  | zero => exact ⟨rfl, nofun⟩
  | succ k ih =>
    obtain ⟨hlength, hrest⟩ := ih h.next
    rw [rounds_succ h.going]
    refine ⟨congrArg Nat.succ hlength, List.forall_mem_cons.mpr ⟨?_, hrest⟩⟩
    have hsteps : (p.round s).steps = 1 :=
      (frame_of_waiting h.unattended h.waiting (stepsPerFrame_pos s)).2
    obtain ⟨hs, hm⟩ := h.unattended.step_of_waiting h.waiting
    rw [h.pc] at hs
    obtain ⟨hcalls, houtput⟩ := Round.of_blocked (r := p.round s) hsteps hs hm
    exact ⟨hcalls, hs, hm, houtput⟩

/-- What there is to report of a playback, as it stands: the fault that has stopped it, or the key
that it waits for. -/
def account (p : Playback) : List Notice :=
  match p.ending with
  | some (.failed (.stopped cause)) => [.faulted p.machine.registers.pc cause]
  | _ => (p.machine.waiting.map (Notice.waiting p.machine.registers.pc)).toList

/-- What has been reported, after some first notices, is what there is to report. -/
structure Accounts (first : List Notice) (p : Playback) : Prop where
  unattended : p.machine.Unattended
  warned : p.warned = p.machine.waiting.isSome
  notices : p.notices = first ++ p.account

theorem registers_next (s : Settings) (p : Playback) :
    (p.next s).machine.waiting = (frame s.stepsPerFrame p.machine).machine.waiting ∧
      (p.next s).machine.registers.pc =
        (frame s.stepsPerFrame p.machine).machine.registers.pc := by
  cases hf : (frame s.stepsPerFrame p.machine).ending with
  | stopped | parked => simp only [next, hf, and_self]
  | blocked | spent =>
    simp only [next, hf]
    exact ⟨rfl, rfl⟩

/-- How a frame has ended can be told from the machine that it leaves. -/
theorem account_next (hu : p.machine.Unattended) (hp : p.ending = none) :
    (p.next s).account = (frame s.stepsPerFrame p.machine).ending.notice?.toList ∧
      (p.next s).machine.waiting = (frame s.stepsPerFrame p.machine).ending.awaited? := by
  obtain ⟨init, last, hmachines, -, hending, hmachine⟩ := exists_last_machine s p
  have hlast : last.Unattended := by
    apply hu.of_mem_trail (k := (p.round s).steps)
    show last ∈ (p.round s).machines
    rw [hmachines]
    exact List.mem_append_right _ List.mem_cons_self
  obtain ⟨hwaiting, hpc⟩ := registers_next s p
  rw [hmachine, hlast.waiting_step, ← hending] at hwaiting
  rw [hmachine] at hpc
  refine ⟨?_, hwaiting⟩
  rw [account, ending_next_eq hp, hwaiting, hpc]
  cases hf : (frame s.stepsPerFrame p.machine).ending with
  | stopped pc cause =>
    obtain ⟨rfl, hs⟩ := FrameEnd.ofStep_eq_stopped_iff.mp (hending.symm.trans hf)
    rw [Machine.machine_step_of_error hs]
    rfl
  | blocked pc x =>
    obtain ⟨rfl, hs⟩ := FrameEnd.ofStep_eq_blocked_iff.mp (hending.symm.trans hf)
    rw [Machine.pc_of_step hs]
    rfl
  | parked | spent => rfl

theorem reports_next (hw : p.warned = false) :
    (p.next s).notices =
        p.notices ++ (frame s.stepsPerFrame p.machine).ending.notice?.toList ∧
      (p.next s).warned = (frame s.stepsPerFrame p.machine).ending.awaited?.isSome := by
  cases hf : (frame s.stepsPerFrame p.machine).ending <;>
    simp [next, hf, hw, FrameEnd.notice?, FrameEnd.awaited?]

theorem Accounts.next (h : p.Accounts first) (hp : p.ending = none) :
    (p.next s).Accounts first := by
  rcases hw : p.machine.waiting with _ | x
  · -- nothing has been reported so far
    have hwarned : p.warned = false := by rw [h.warned, hw, Option.isSome_none]
    have hnotices : p.notices = first := by
      rw [h.notices, account, hp, hw, Option.map_none, Option.toList_none, List.append_nil]
    have hunattended : (p.next s).machine.Unattended := by
      rw [machine_next]
      exact h.unattended.performAll fun op hop => mem_frameOperations hop
    obtain ⟨haccount, hwaiting⟩ := account_next (s := s) h.unattended hp
    obtain ⟨hreported, hwarns⟩ := reports_next (s := s) hwarned
    exact ⟨hunattended, by rw [hwarns, hwaiting], by rw [hreported, hnotices, haccount]⟩
  · -- the wait has been reported, and the frame changes nothing but the timers
    have hwaits : p.Waits p.machine.registers.pc x :=
      ⟨h.unattended, hw, rfl, by rw [h.warned, hw, Option.isSome_some], hp⟩
    rw [hwaits.next_eq]
    exact ⟨⟨h.unattended.press, h.unattended.wait⟩, h.warned, h.notices⟩

theorem Accounts.play (h : p.Accounts first) (n : Nat) : (p.play s n).Accounts first := by
  induction n generalizing p with
  | zero => exact h
  | succ n ih =>
    rcases hp : p.ending with _ | e
    · rw [(play_succ hp n).1]
      exact ih (h.next hp)
    · rwa [(play_of_ending hp (n + 1)).1]

theorem accounts_start {program : Array Byte} (h : program.size ≤ Memory.programRoom)
    (s : Settings) (random : RandomSource) :
    (start s (.ok program) random).Accounts [.loaded program.size s.rom] := by
  obtain ⟨memory, hl⟩ := Memory.blank.exists_load h
  have hstart : start s (.ok program) random =
      { machine := { Machine.fresh s.dialect random with memory := memory }
        notices := [.loaded program.size s.rom] } := by
    simp only [start, Machine.load, Machine.memory_fresh, hl]
  rw [hstart]
  exact ⟨⟨Keypad.takePress_eq_none_iff.mpr Keypad.not_latched_empty, by rintro x ⟨⟩⟩, rfl, rfl⟩

/-- A program that does not fit is not played. -/
theorem start_of_lt {program : Array Byte} (h : Memory.programRoom < program.size) (s : Settings)
    (random : RandomSource) :
    start s (.ok program) random =
      { machine := Machine.fresh s.dialect random
        notices := [.loaded program.size s.rom]
        ending := some (.failed (.stopped
          (.fault (.loadTooLarge program.size Memory.programRoom)))) } := by
  simp only [start, Machine.load, Machine.memory_fresh, Memory.blank.load_of_lt h]

theorem machines_succ (hq : q.ending = none) (n : Nat) :
    q.machines s (n + 1) = (q.round s).machines ++ (q.next s).machines s n := by
  rw [machines, rounds_succ hq, List.flatMap_cons, machines]

/-- The frame of a step that blocks leaves the playback waiting for that key. -/
theorem Accounts.waits_next (h : p.Accounts first) (hp : p.ending = none)
    (hm : m ∈ (p.round s).machines)
    (hs : m.step.result = .ok ⟨pc, some (.blockedOnKey x)⟩) : (p.next s).Waits pc x := by
  have hpc : m.registers.pc = pc := (Machine.waiting_of_blocked hs rfl).1.symm
  have hblocked : FrameEnd.ofStep m = .blocked pc x := FrameEnd.ofStep_eq_blocked_iff.mpr ⟨hpc, hs⟩
  obtain ⟨hending, hmachine, -⟩ := frame_of_mem_machines hm (by rw [hblocked]; exact nofun)
  rw [hblocked] at hending
  have hnext : (p.next s).Accounts first := h.next hp
  have hwaiting : (p.next s).machine.waiting = some x := by
    rw [(account_next h.unattended hp).2, hending]
    rfl
  refine ⟨hnext.unattended, hwaiting, ?_, ?_, ?_⟩
  · rw [(registers_next s p).2, hmachine, Machine.pc_of_step hs]
  · rw [hnext.warned, hwaiting, Option.isSome_some]
  · rw [ending_next_eq hp, hending]
    rfl

theorem exists_blocked_step (hu : q.machine.Unattended) (hq : q.machine.waiting = none)
    (hx : (q.play s n).machine.waiting = some x) :
    ∃ m ∈ q.machines s n, ∃ pc y, m.step.result = .ok ⟨pc, some (.blockedOnKey y)⟩ := by
  induction n generalizing q with
  | zero =>
    rw [play, hq] at hx
    cases hx
  | succ n ih =>
    rcases hgoing : q.ending with _ | e
    · rw [machines_succ hgoing]
      rw [(play_succ hgoing n).1] at hx
      rcases hnext : (q.next s).machine.waiting with _ | y
      · have hkept : (q.next s).machine.Unattended := by
          rw [machine_next]
          exact hu.performAll fun op hop => mem_frameOperations hop
        obtain ⟨m, hm, hs⟩ := ih hkept hnext hx
        exact ⟨m, List.mem_append_right _ hm, hs⟩
      · obtain ⟨init, last, hmachines, -, hending, -⟩ := exists_last_machine s q
        rw [(account_next hu hgoing).2] at hnext
        cases hf : (frame s.stepsPerFrame q.machine).ending with
        | blocked pc z =>
          refine ⟨last, ?_, pc, z, (FrameEnd.ofStep_eq_blocked_iff.mp (hending.symm.trans hf)).2⟩
          rw [hmachines]
          simp
        | stopped | parked | spent =>
          rw [hf] at hnext
          cases hnext
    · rw [(play_of_ending hgoing (n + 1)).1, hq] at hx
      cases hx

theorem notices_cut (p : Playback) : p.cut.notices = p.notices := by
  unfold cut
  split <;> rfl

theorem Waits.account_eq (h : p.Waits pc x) : p.account = [.waiting pc x] := by
  rw [account, h.going, h.waiting, h.pc]
  rfl

theorem waiting_of_mem_account (h : .waiting pc x ∈ p.account) : p.machine.waiting = some x := by
  unfold account at h
  split at h
  · simp at h
  · simp only [Option.mem_toList, Option.map_eq_some_iff] at h
    obtain ⟨y, hy, heq⟩ := h
    cases heq
    exact hy

/-- How `n` frames of a playback go on behind frame `r` of them, in which a step has blocked at an
address on a key into `x`. -/
structure StaysBlocked (s : Settings) (n : Nat) (q : Playback) (before : List Round) (r : Round)
    (after : List Round) (pc : Word) (x : Nat) : Prop where
  /-- Each later frame is one step, which blocks at the same place and changes nothing, and a
  tick. -/
  frames : ∀ r' ∈ after, r'.calls = [.step, .tick] ∧
    r'.start.step.result = .ok ⟨pc, some (.blockedOnKey x)⟩ ∧ r'.start.step.machine = r'.start
  /-- After frame `r` only the timers change. -/
  timers : ∀ k ≤ after.length, (q.play s (before.length + 1 + k)).machine =
    (r.start.performAll r.calls).countedDown k
  /-- Nothing is written after frame `r`. -/
  output : (q.play s n).output = q.output ++ (before ++ [r]).flatMap (Round.output s.headless)
  /-- All `n` frames are played, and the program has not ended with them. -/
  length : (q.rounds s n).length = n
  going : (q.play s n).ending = none

theorem Accounts.staysBlocked {before after : List Round} {r : Round} (h : q.Accounts first)
    (hq : q.ending = none) (hrounds : q.rounds s n = before ++ r :: after) (hm : m ∈ r.machines)
    (hs : m.step.result = .ok ⟨pc, some (.blockedOnKey x)⟩) :
    m.Unattended ∧ (q.play s n).Waits pc x ∧ StaysBlocked s n q before r after pc x := by
  obtain ⟨hbefore, rfl, k, rfl, hafter, hplay⟩ := exists_split_of_rounds hrounds
  have hb : (q.play s before.length).Accounts _ := h.play before.length
  have hwaits : ((q.play s before.length).next s).Waits pc x := hb.waits_next hbefore hm hs
  have hend : (q.play s (before.length + 1 + k)).Waits pc x := hplay ▸ hwaits.play k
  obtain ⟨-, hrest⟩ := hwaits.rounds (s := s) (k := k)
  rw [← hafter] at hrest
  refine ⟨hb.unattended.of_mem_trail hm, hend, ?_, ?_, ?_, ?_, hend.going⟩
  · intro r' hr'
    obtain ⟨hcalls, hblocked, hkept, -⟩ := hrest r' hr'
    exact ⟨hcalls, hblocked, hkept⟩
  · intro j _
    rw [Nat.add_assoc, play_add, Nat.add_comm 1 j, (play_succ hbefore j).1, hwaits.play_eq j,
      machine_next_eq]
    rfl
  · have hsilent : after.flatMap (Round.output s.headless) = [] :=
      List.flatMap_eq_nil_iff.mpr fun r' hr' => (hrest r' hr').2.2.2 s.headless
    rw [(records_play hq _).output, hrounds, List.flatMap_append, List.flatMap_cons, hsilent,
      List.append_nil, List.flatMap_append, List.flatMap_singleton]
  · exact ((records_play hq _).going hend.going).1

/-- A program that waits for a key does so for good, as there is nobody at the keys. Once a step has
blocked, at an instruction that asks for a key, each later frame is one blocked step and one tick
that change nothing but the timers, nothing more is written, and the run ends by the frame limit or
not at all. The wait is reported once, and without a step that blocks there is no such report. -/
theorem blocked_for_good (s : Settings) (program : Array Byte) (random : RandomSource) (n : Nat) :
    let q := start s (.ok program) random
    let p := (q.play s n).cut
    (∀ before r after m pc x, q.rounds s n = before ++ r :: after → m ∈ r.machines →
      m.step.result = .ok ⟨pc, some (.blockedOnKey x)⟩ →
      pc = m.registers.pc ∧ Instruction.decode m.fetch = .ok (.waitKey x) ∧
        StaysBlocked s n q before r after pc x ∧ p.ending = some .frameLimit ∧
        p.notices = [.loaded program.size s.rom, .waiting pc x]) ∧
    ((∀ m ∈ q.machines s n, ∀ pc x, m.step.result ≠ .ok ⟨pc, some (.blockedOnKey x)⟩) →
      ∀ pc x, .waiting pc x ∉ p.notices) := by
  intro q p
  rcases Nat.lt_or_ge Memory.programRoom program.size with hroom | hroom
  · -- there is no frame
    have hq : q = _ := start_of_lt hroom s random
    have hending : q.ending = some _ := congrArg Playback.ending hq
    refine ⟨?_, ?_⟩
    · intro before r after m pc x hrounds
      rw [rounds_of_ending hending] at hrounds
      simp at hrounds
    · intro _ pc x
      have hnotices : p.notices = q.notices := by
        rw [notices_cut, (play_of_ending hending n).1]
      rw [hnotices, hq]
      simp
  obtain ⟨hgoing, -, hstands, -⟩ := start_of_le hroom s random
  have haccounts : q.Accounts [.loaded program.size s.rom] := accounts_start hroom s random
  have hnotices : p.notices = [.loaded program.size s.rom] ++ (q.play s n).account := by
    rw [notices_cut, (haccounts.play n).notices]
  refine ⟨?_, ?_⟩
  · intro before r after m pc x hrounds hm hs
    obtain ⟨hunattended, hwaits, hstays⟩ := haccounts.staysBlocked hgoing hrounds hm hs
    refine ⟨(Machine.waiting_of_blocked hs rfl).1, hunattended.decode_of_blocked hs rfl, hstays,
      ending_cut_of_none hstays.going, ?_⟩
    rw [hnotices, hwaits.account_eq]
    rfl
  · intro hfree pc x hmem
    rw [hnotices, List.mem_append] at hmem
    rcases hmem with hmem | hmem
    · cases List.mem_singleton.mp hmem
    · obtain ⟨m, hm, pc, y, hs⟩ :=
        exists_blocked_step haccounts.unattended hstands.waiting (waiting_of_mem_account hmem)
      exact hfree m hm pc y hs

/-- A program that asks for a key at once, and a limit of three frames. -/
theorem blocked_for_good_from_the_start :
    let s : Settings := { rom := "wait", maxFrames := some 3 }
    let p := ((start s (.ok #[0xF3, 0x0A]) (.ofSeed 8)).play s 3).cut
    p.ending = some .frameLimit ∧ p.notices = [.loaded 2 "wait", .waiting 0x200 3] := by
  intro s
  have hblocked := (blocked_for_good s #[0xF3, 0x0A] (.ofSeed 8) 3).1
  obtain ⟨hq, -, hat, -⟩ := start_of_le (p := #[0xF3, 0x0A]) (by decide) s (.ofSeed 8)
  generalize start s (.ok #[0xF3, 0x0A]) (.ofSeed 8) = q at *
  obtain ⟨hs, -⟩ := Machine.step_of_waitKey (x := 3) hat.waiting
    (by rw [hat.fetch (by decide)]; rfl)
  obtain ⟨-, -, -, hending, hnotices⟩ :=
    hblocked [] _ _ _ _ _ (rounds_succ hq 2) (machine_mem_round s q) hs
  rw [hat.pc] at hnotices
  exact ⟨hending, hnotices⟩

end Playback

end Terminal

end Chip8
