import Chip8.Proofs.Playback
import Chip8.Proofs.Tone

/-!
The log at the level of debugging. An operation brings about at most one of the events that have a
line there (`Brings`), and logs the event that it brings about (`debugLog_cases`,
`Brings.mem_debugLog`). The edges of the sound timer are the exception: that of a tick is logged,
and that of a step is signalled to the host alone. So the edges in the log are those of the ticks,
which end the tone and never start it. Main statement: `journal_of_history`.
-/

namespace Chip8

def Event.edge? : Event → Option SoundEdge
  | sound edge => some edge
  | _ => none

def Answer.ticked? : Answer → Option SoundEdge
  | edge e => e
  | _ => none

namespace Machine

/-- The events that an operation brings about, told by its result and by the machine it leaves: a
reset, a load, a routine ignored, a wait for a key that begins or ends, an edge of the sound
timer. A key may also be taken in vain, for a register that does not exist. -/
inductive Brings (m : Machine) : Operation → Event → Prop
  | reset : Brings m .reset .resetting
  | load {program : Array Byte} (h : (m.perform (.load program)).result = .ok .done) :
      Brings m (.load program) (.loaded program.size)
  | ignore {op : Operation} {a : Word} (h : m.executed? op = some (.sys a)) :
      Brings m op (.ignoredRoutine a)
  | await {op : Operation} {x : Nat} (h : m.executed? op = some (.waitKey x)) :
      Brings m op (.awaitingKey x)
  | take {x key : Fin 16} (hw : m.waiting = some x.val) (hdone : m.step.machine.waiting = none)
      (hkey : m.step.machine.registers.get x = UInt8.ofNat key.val) :
      Brings m .step (.keyTaken key.val x.val)
  | takeInVain {x : Nat} {key : Fin 16} (hw : m.waiting = some x) (hx : 15 < x)
      (hkey : m.keypad.Latched key) (hlow : ∀ j < key, ¬ m.keypad.Latched j) :
      Brings m .step (.keyTaken key.val x)
  | turn {op : Operation} {edge : SoundEdge} (h : m.edge? op = some edge) :
      Brings m op (.sound edge)

def debugLog (m : Machine) (op : Operation) : List Event :=
  (m.perform op).log.filter (·.level = .debug)

/-- What operations log at the level of debugging, in turn. -/
def journal (m : Machine) (ops : List Operation) : List Event :=
  (m.replies ops).flatMap fun reply => reply.2.filter (·.level = .debug)

def tickEdges (m : Machine) (ops : List Operation) : List SoundEdge :=
  (m.replies ops).filterMap fun reply => reply.1.toOption.bind Answer.ticked?

variable {m : Machine} {op : Operation} {i : Instruction} {e : Event} {x : Nat}

theorem journal_cons (m : Machine) (op : Operation) (ops : List Operation) :
    m.journal (op :: ops) = m.debugLog op ++ (m.perform op).machine.journal ops := rfl

theorem journal_append (m : Machine) (ops more : List Operation) :
    m.journal (ops ++ more) = m.journal ops ++ (m.performAll ops).journal more := by
  rw [journal, replies_append, List.flatMap_append, journal, journal]

theorem tickEdges_cons (m : Machine) (op : Operation) (ops : List Operation) :
    m.tickEdges (op :: ops) =
      ((m.perform op).result.toOption.bind Answer.ticked?).toList ++
        (m.perform op).machine.tickEdges ops := by
  rw [tickEdges, replies, List.filterMap_cons]
  cases (m.perform op).result.toOption.bind Answer.ticked? <;> rfl

theorem notes_cases (i : Instruction) :
    i.notes = [] ∨ (∃ a, i = .sys a ∧ i.notes = [.ignoredRoutine a]) ∨
      ∃ x, i = .waitKey x ∧ i.notes = [.awaitingKey x] := by
  cases i with
  | sys a => exact .inr (.inl ⟨a, rfl, rfl⟩)
  | waitKey x => exact .inr (.inr ⟨x, rfl, rfl⟩)
  | _ => exact .inl rfl

theorem filter_notes (i : Instruction) : i.notes.filter (·.level = .debug) = i.notes := by
  cases i <;> rfl

/-- An operation that executes an instruction logs the notes of the instruction. -/
theorem debugLog_of_executed? (h : m.executed? op = some i) : m.debugLog op = i.notes := by
  obtain ⟨hok, hi⟩ := executed?_eq_some_iff.mp h
  obtain ⟨e, he, -⟩ := effect_of_executed? h
  cases op with
  | execute j =>
    cases hi
    rw [debugLog, perform, Reply.map, execute_of_effect he, filter_notes]
  | step =>
    obtain ⟨hw, hd⟩ := instruction?_step_eq_some_iff.mp hi
    simp only [debugLog, perform, Reply.map, step, hw, hd, execute_of_effect he]
    exact filter_notes i
  | _ => cases hi

theorem debugLog_load_cases (m : Machine) (program : Array Byte) :
    ((m.perform (.load program)).result ≠ .ok .done ∧ m.debugLog (.load program) = []) ∨
      ((m.perform (.load program)).result = .ok .done ∧
        m.debugLog (.load program) = [.loaded program.size]) := by
  simp only [debugLog, perform, load, Reply.map]
  cases m.memory.load program with
  | error fault => exact .inl ⟨by simp [Except.map], rfl⟩
  | ok memory => exact .inr ⟨rfl, rfl⟩

theorem debugLog_tick (m : Machine) :
    m.debugLog .tick = ((m.edge? .tick).map Event.sound).toList := by
  have hedge : m.edge? .tick = m.registers.tick.2 := rfl
  have hlog : (m.perform .tick).log = (m.registers.tick.2.map Event.sound).toList := rfl
  rw [debugLog, hlog, hedge]
  cases m.registers.tick.2 <;> rfl

/-- A machine that waits logs the key that it takes, also if there is no register for it. -/
theorem debugLog_of_waiting (hw : m.waiting = some x) :
    ((∀ key, ¬ m.keypad.Latched key) ∧ m.step.machine.waiting = some x ∧ m.debugLog .step = []) ∨
      ∃ key, (m.keypad.Latched key ∧ ∀ j < key, ¬ m.keypad.Latched j) ∧
        m.debugLog .step = [.keyTaken key.val x] ∧
        ((15 < x ∧ m.step.machine.waiting = some x) ∨
          ∃ target : Fin 16, target.val = x ∧ m.step.machine.waiting = none ∧
            m.step.machine.registers.get target = UInt8.ofNat key.val) := by
  simp only [debugLog, perform, Reply.map, step_eq_poll hw, poll]
  rcases hp : m.keypad.takePress with _ | ⟨key, keypad⟩
  · exact .inl ⟨Keypad.takePress_eq_none_iff.mp hp, hw, rfl⟩
  · obtain ⟨hkey, hlow, -⟩ := Keypad.takePress_eq_some_iff.mp hp
    refine .inr ⟨key, ⟨hkey, hlow⟩, ?_⟩
    obtain ⟨target, hx, ho⟩ | ho := operand_cases x
    · simp only [ho]
      exact ⟨rfl, .inr ⟨target, hx, trivial, (Registers.get_set _ _ _ _).trans (if_pos rfl)⟩⟩
    · simp only [ho]
      exact ⟨rfl, .inl ⟨operand_eq_error_iff.mp ho, hw⟩⟩

theorem Brings.mem_debugLog (h : m.Brings op e) (he : e.edge? ≠ none → op = .tick) :
    e ∈ m.debugLog op := by
  cases h with
  | reset => exact List.mem_singleton_self _
  | @load program h =>
    rcases m.debugLog_load_cases program with ⟨hr, -⟩ | ⟨-, hlog⟩
    · exact absurd h hr
    · rw [hlog]
      exact List.mem_singleton_self _
  | ignore h =>
    rw [debugLog_of_executed? h]
    exact List.mem_singleton_self _
  | await h =>
    rw [debugLog_of_executed? h]
    exact List.mem_singleton_self _
  | @take x key hw hdone hkey =>
    rcases debugLog_of_waiting hw with
      ⟨-, hstill, -⟩ | ⟨taken, -, hlog, ⟨hx, -⟩ | ⟨target, hx, -, htaken⟩⟩
    · rw [hdone] at hstill
      cases hstill
    · exact absurd x.isLt (Nat.not_lt_of_le hx)
    · -- a key is told by the byte that it leaves in the register
      obtain rfl := Fin.eq_of_val_eq hx
      have hkeys : key = taken := by
        have hbytes := congrArg UInt8.toNat (hkey.symm.trans htaken)
        simp only [UInt8.toNat_ofNat'] at hbytes
        omega
      rw [hlog, hkeys]
      exact List.mem_singleton_self _
  | @takeInVain x key hw hx hkey hlow =>
    rcases debugLog_of_waiting hw with ⟨hnone, -⟩ | ⟨taken, ⟨htaken, hbelow⟩, hlog, -⟩
    · exact absurd hkey (hnone key)
    · have hkeys : key = taken := by
        rcases Nat.lt_trichotomy key.val taken.val with hlt | heq | hgt
        · exact absurd hkey (hbelow key hlt)
        · exact Fin.ext heq
        · exact absurd htaken (hlow taken hgt)
      rw [hlog, hkeys]
      exact List.mem_singleton_self _
  | @turn _ edge h =>
    obtain rfl := he (Option.some_ne_none edge)
    rw [debugLog_tick, h]
    exact List.mem_singleton_self _

theorem debugLog_of_error {stop : Stop} (hi : m.instruction? op = some i)
    (he : i.effect m = .error stop) : m.debugLog op = [] := by
  cases op with
  | execute j =>
    cases hi
    simp only [debugLog, perform, Reply.map, execute, he]
    rfl
  | step =>
    obtain ⟨hw, hd⟩ := instruction?_step_eq_some_iff.mp hi
    simp only [debugLog, perform, Reply.map, step, hw, hd, execute, he]
    rfl
  | _ => cases hi

theorem debugLog_cases_of_instruction? (hi : m.instruction? op = some i) :
    m.debugLog op = [] ∨
      ∃ e, m.debugLog op = [e] ∧ m.Brings op e ∧ (e.edge? ≠ none → op = .tick) := by
  rcases he : i.effect m with stop | effect
  · exact .inl (debugLog_of_error hi he)
  -- what the instruction signals does not matter: its notes are all that is logged
  have hx := executed?_of_effect hi he
  rw [debugLog_of_executed? hx]
  obtain hnone | ⟨a, rfl, hnote⟩ | ⟨x, rfl, hnote⟩ := notes_cases i
  · exact .inl hnone
  · exact .inr ⟨_, hnote, .ignore hx, absurd rfl⟩
  · exact .inr ⟨_, hnote, .await hx, absurd rfl⟩

/-- An operation logs one event at most, and only one that it brings about. -/
theorem debugLog_cases (m : Machine) (op : Operation) :
    m.debugLog op = [] ∨
      ∃ e, m.debugLog op = [e] ∧ m.Brings op e ∧ (e.edge? ≠ none → op = .tick) := by
  cases op with
  | load program =>
    rcases m.debugLog_load_cases program with ⟨-, hlog⟩ | ⟨hr, hlog⟩
    · exact .inl hlog
    · exact .inr ⟨_, hlog, .load hr, absurd rfl⟩
  | reset => exact .inr ⟨_, rfl, .reset, absurd rfl⟩
  | step =>
    rcases hw : m.waiting with _ | x
    · rcases hd : Instruction.decode m.fetch with fault | i
      · left
        simp only [debugLog, perform, Reply.map, step, hw, hd]
        rfl
      · exact debugLog_cases_of_instruction? (instruction?_step_eq_some_iff.mpr ⟨hw, hd⟩)
    · rcases debugLog_of_waiting hw with
        ⟨-, -, hlog⟩ | ⟨key, ⟨hkey, hlow⟩, hlog, ⟨hx, -⟩ | ⟨target, rfl, hdone, hleft⟩⟩
      · exact .inl hlog
      · exact .inr ⟨_, hlog, .takeInVain hw hx hkey hlow, absurd rfl⟩
      · exact .inr ⟨_, hlog, .take hw hdone hleft, absurd rfl⟩
  | execute i =>
    have hi : m.instruction? (.execute i) = some i := rfl
    exact debugLog_cases_of_instruction? hi
  | tick =>
    rw [debugLog_tick]
    rcases hedge : m.edge? .tick with _ | edge
    · exact .inl rfl
    · exact .inr ⟨_, rfl, .turn hedge, fun _ => rfl⟩
  | press b =>
    simp only [debugLog, perform]
    cases m.keypad.press b <;> exact .inl rfl
  | release b =>
    simp only [debugLog, perform]
    cases m.keypad.release b <;> exact .inl rfl
  | takePress =>
    simp only [debugLog, perform]
    cases m.keypad.takePress <;> exact .inl rfl
  | discardPresses | clearKeys => exact .inl rfl

theorem Performs.ticked? {m' : Machine} {result : Except Stop Answer}
    (hp : Performs m op result m') (hop : op ≠ .tick) :
    result.toOption.bind Answer.ticked? = none := by
  cases hp with
  | ticked => exact absurd rfl hop
  | _ => rfl

/-- The edge that an operation logs is the one that a tick answers with. -/
theorem filterMap_debugLog (m : Machine) (op : Operation) :
    (m.debugLog op).filterMap Event.edge? =
      ((m.perform op).result.toOption.bind Answer.ticked?).toList := by
  by_cases hop : op = .tick
  · subst hop
    have hedge : (m.perform .tick).result.toOption.bind Answer.ticked? = m.edge? .tick := rfl
    rw [debugLog_tick, hedge]
    cases m.edge? .tick <;> rfl
  · rw [(m.performs_perform op).ticked? hop]
    obtain hlog | ⟨e, hlog, -, he⟩ := m.debugLog_cases op
    · rw [hlog]
      rfl
    · have hnone : e.edge? = none := by
        by_contra hedge
        exact hop (he hedge)
      rw [hlog, List.filterMap_cons, hnone]
      rfl

theorem filterMap_journal (m : Machine) (ops : List Operation) :
    (m.journal ops).filterMap Event.edge? = m.tickEdges ops := by
  induction ops generalizing m with
  | nil => rfl
  | cons op ops ih =>
    rw [journal_cons, tickEdges_cons, List.filterMap_append, filterMap_debugLog, ih]

theorem off_of_mem_tickEdges {edge : SoundEdge} {ops : List Operation}
    (h : edge ∈ m.tickEdges ops) : edge = .off := by
  induction ops generalizing m with
  | nil => cases h
  | cons op ops ih =>
    rw [tickEdges_cons, List.mem_append] at h
    rcases h with h | h
    · by_cases hop : op = .tick
      · subst hop
        have hne := m.edge?_tick_ne_on
        have hedge : m.edge? .tick = some edge := Option.mem_toList.mp h
        cases edge with
        | on => exact absurd hedge hne
        | off => rfl
      · rw [(m.performs_perform op).ticked? hop] at h
        cases h
    · exact ih h

/-- Every operation of a history logs at most one line at the level of debugging, and that is what
it brings about, but for the edge of the sound timer that a step makes. In the log of the whole
history the edges are those that the ticks have answered with, in turn, and none of them starts the
tone. -/
theorem journal_of_history (m : Machine) (ops : List Operation) :
    (∀ before op after, ops = before ++ op :: after →
      let b := m.performAll before
      m.journal ops = m.journal before ++ b.debugLog op ++ (b.perform op).machine.journal after ∧
        (b.debugLog op).length ≤ 1 ∧
        ∀ e, e ∈ b.debugLog op ↔ b.Brings op e ∧ (e.edge? ≠ none → op = .tick)) ∧
    (m.journal ops).filterMap Event.edge? = m.tickEdges ops ∧
    ∀ edge ∈ m.tickEdges ops, edge = .off := by
  refine ⟨?_, filterMap_journal m ops, fun edge => off_of_mem_tickEdges⟩
  rintro before op after rfl b
  refine ⟨?_, ?_, fun e => ⟨fun h => ?_, fun h => h.1.mem_debugLog h.2⟩⟩
  · rw [journal_append, journal_cons, List.append_assoc]
  · obtain hlog | ⟨e, hlog, -⟩ := b.debugLog_cases op
    · rw [hlog]
      exact Nat.zero_le 1
    · rw [hlog]
      exact Nat.le_refl 1
  · obtain hlog | ⟨e', hlog, hbrings⟩ := b.debugLog_cases op
    · rw [hlog] at h
      cases h
    · rw [hlog] at h
      obtain rfl := List.mem_singleton.mp h
      exact hbrings

/-- An instruction that sets the sound timer makes an edge and logs none. -/
theorem debugLog_of_setSound {x : Fin 16} (hi : m.instruction? op = some (.setSound x)) :
    m.debugLog op = [] ∧
      m.edge? op = SoundEdge.between m.registers.sound (m.registers.get x) := by
  have he : ∃ e, (Instruction.setSound x).effect m = .ok e ∧
      e.machine.registers.sound = m.registers.get x := by
    simp only [Instruction.effect, operand_of_lt x.isLt]
    exact ⟨_, rfl, rfl⟩
  obtain ⟨e, he, hsound⟩ := he
  have hop : op ≠ .reset := by
    rintro rfl
    cases hi
  refine ⟨debugLog_of_executed? (executed?_of_effect hi he), ?_⟩
  rw [edge?_perform m hop, machine_perform_of_effect hi he]
  exact congrArg (SoundEdge.between m.registers.sound) hsound

theorem standsAt_load {p : Array Byte} (h : p.size ≤ Memory.programRoom) (dialect : Dialect)
    (random : RandomSource) :
    let m := ((fresh dialect random).perform (.load p)).machine
    m.StandsAt p 0 ∧ m.registers = {} := by
  obtain ⟨memory, hl⟩ := Memory.blank.exists_load h
  have hm : ((fresh dialect random).perform (.load p)).machine =
      { fresh dialect random with memory := memory } := by
    simp only [perform, load, Reply.map, memory_fresh, hl]
  rw [hm]
  exact ⟨⟨hl, rfl, rfl⟩, rfl⟩

/-- Two instructions, of which the second starts the tone. -/
theorem sound_on_not_logged :
    let m := (fresh {} (.ofSeed 8)).performAll [.load #[0x60, 0x05, 0xF0, 0x18], .step]
    m.Brings .step (.sound .on) ∧ m.debugLog .step = [] := by
  rw [performAll_cons, performAll_cons, performAll_nil]
  obtain ⟨hat, hregisters⟩ :=
    standsAt_load (p := #[0x60, 0x05, 0xF0, 0x18]) (by decide) {} (.ofSeed 8)
  generalize ((fresh {} (.ofSeed 8)).perform (.load #[0x60, 0x05, 0xF0, 0x18])).machine = start at *
  have he : (Instruction.setByte 0 5).effect start =
    .ok { machine := { start with registers := start.registers.set 0 5 } } := rfl
  have hi : start.instruction? .step = some (.setByte 0 5) := by
    refine instruction?_step_eq_some_iff.mpr ⟨hat.waiting, ?_⟩
    rw [hat.fetch (by decide)]
    rfl
  have hset := machine_perform_of_effect hi he
  have hat : (start.perform .step).machine.StandsAt _ 2 :=
    hset ▸ hat.after (by decide) he rfl (by simp)
  have hsilent : (start.perform .step).machine.registers.sound = 0 := by
    rw [hset]
    exact congrArg Registers.sound hregisters
  have hget : (start.perform .step).machine.registers.get 0 = 5 := by
    rw [hset]
    exact (Registers.get_set _ _ _ _).trans (if_pos rfl)
  generalize (start.perform .step).machine = m at *
  have hi : m.instruction? .step = some (.setSound 0) := by
    refine instruction?_step_eq_some_iff.mpr ⟨hat.waiting, ?_⟩
    rw [hat.fetch (by decide)]
    rfl
  obtain ⟨hlog, hedge⟩ := debugLog_of_setSound (x := 0) hi
  rw [hsilent, hget] at hedge
  exact ⟨.turn hedge, hlog⟩

end Machine

end Chip8
