import Chip8.Proofs.DecoderImage
import Chip8.Proofs.Footprint
import Chip8.Proofs.History
import Chip8.Proofs.InstructionText
import Mathlib.Data.List.Basic

/-!
The log at the level of tracing. A step that finds no key awaited, and a word that stands for an
instruction, writes one line there before it executes the instruction, and nothing else writes any
(`trace_log`). The line tells where and what was fetched, and can be read back. Main statement:
`trace_of_history`.
-/

namespace Chip8

structure Fetch where
  pc : Word
  word : Word
  instruction : Instruction
  decoded : Instruction.decode word = .ok instruction

namespace Fetch

def event (f : Fetch) : Event := .executing f.pc f.word f.instruction

def text (f : Fetch) : String := f.event.text

/-- The address and the word that a line tells of, and its text behind them. -/
def read? (s : String) : Option (Word × Word × String) := do
  let cs ← s.toList.dropPrefix? ['0', 'x']
  let (pc, cs) ← Numeral.scan? 16 cs
  let cs ← cs.dropPrefix? [':', ' ']
  let (word, cs) ← Numeral.scan? 16 cs
  let cs ← cs.dropPrefix? [' ']
  some (UInt16.ofNat pc, UInt16.ofNat word, String.ofList cs)

theorem toList_text (f : Fetch) :
    f.text.toList = ['0', 'x'] ++ (Numeral.write 16 3 f.pc.toNat ++ ':' :: ' ' ::
      (Numeral.write 16 4 f.word.toNat ++ ' ' :: f.instruction.text.toList)) := by
  simp [text, event, Event.text, Numeral.hex]

/-- A line is read back, whatever its text. The numbers are written to a least width, and may be
longer. -/
theorem read?_text (f : Fetch) : read? f.text = some (f.pc, f.word, f.instruction.text) := by
  have hpc : ∀ cs, Numeral.scan? 16 (Numeral.write 16 3 f.pc.toNat ++ ':' :: cs) =
      some (f.pc.toNat, ':' :: cs) :=
    fun cs => Numeral.scan?_write_cons (by decide) (by decide) 3 _ (by decide)
  have hword : ∀ cs, Numeral.scan? 16 (Numeral.write 16 4 f.word.toNat ++ ' ' :: cs) =
      some (f.word.toNat, ' ' :: cs) :=
    fun cs => Numeral.scan?_write_cons (by decide) (by decide) 4 _ (by decide)
  rw [read?, toList_text]
  simp [List.dropPrefix?, hpc, hword]

theorem text_injective {f g : Fetch} (h : f.text = g.text) : f = g := by
  have hf := read?_text f
  rw [h, read?_text g] at hf
  obtain ⟨hpc, hword, -⟩ : g.pc = f.pc ∧ g.word = f.word ∧ _ := by simpa using hf
  obtain ⟨pc, word, i, hi⟩ := f
  obtain ⟨pc', word', j, hj⟩ := g
  subst hpc hword
  cases hi.symm.trans hj
  rfl

end Fetch

namespace Machine

/-- What an operation fetches: a step the word at the program counter, unless a key is awaited or
the word stands for no instruction. -/
def fetched? (m : Machine) : Operation → Option Fetch
  | .step =>
    if m.waiting = none then
      match h : Instruction.decode m.fetch with
      | .ok i => some ⟨m.registers.pc, m.fetch, i, h⟩
      | .error _ => none
    else none
  | _ => none

def fetches (m : Machine) : List Operation → List Fetch
  | [] => []
  | op :: ops => (m.fetched? op).toList ++ (m.perform op).machine.fetches ops

def traceLog (m : Machine) (ops : List Operation) : List String :=
  (((m.replies ops).flatMap Prod.snd).filter (·.level = .trace)).map Event.text

variable {m : Machine} {op : Operation} {i : Instruction} {e : Event}

theorem fetched?_step_of_decode (hw : m.waiting = none)
    (hi : Instruction.decode m.fetch = .ok i) :
    m.fetched? .step = some ⟨m.registers.pc, m.fetch, i, hi⟩ := by
  rw [fetched?, if_pos hw]
  split
  · rename_i j hj
    cases hi.symm.trans hj
    rfl
  · rename_i fault hfault
    cases hi.symm.trans hfault

theorem fetched?_eq_some_iff {f : Fetch} :
    m.fetched? op = some f ↔
      op = .step ∧ m.waiting = none ∧ f.pc = m.registers.pc ∧ f.word = m.fetch := by
  constructor
  · intro h
    unfold fetched? at h
    split at h
    · split at h
      · rename_i hw
        split at h
        · obtain rfl := Option.some.inj h
          exact ⟨rfl, hw, rfl, rfl⟩
        · cases h
      · cases h
    · cases h
  · rintro ⟨rfl, hw, hpc, hword⟩
    obtain ⟨pc, word, i, hi⟩ := f
    subst hpc hword
    exact fetched?_step_of_decode hw hi

theorem level_of_mem_execute (h : e ∈ (m.execute i).log) : e.level = .debug := by
  have hnotes : ∀ e ∈ i.notes, e.level = .debug := by
    cases i <;> simp [Instruction.notes, Event.level]
  rcases he : i.effect m with stop | effect
  · simp [execute, he] at h
  · rw [execute_of_effect he] at h
    exact hnotes e h

theorem level_of_mem_poll {x : Nat} (h : e ∈ (m.poll x).log) : e.level = .debug := by
  unfold poll at h
  split at h
  · cases h
  · -- the key is logged whether or not there is a register for it
    split at h
    · rw [List.mem_singleton.mp h]
      rfl
    · rw [List.mem_singleton.mp h]
      rfl

theorem filter_trace_eq_nil {log : List Event} (h : ∀ e ∈ log, e.level = .debug) :
    log.filter (·.level = .trace) = [] := by
  rw [List.filter_eq_nil_iff]
  intro e he
  simp [h e he]

theorem level_of_mem_log (hf : m.fetched? op = none) (h : e ∈ (m.perform op).log) :
    e.level = .debug := by
  cases op with
  | step =>
    rcases hw : m.waiting with _ | x
    · rcases hi : Instruction.decode m.fetch with fault | i
      · simp [perform, Reply.map, step, hw, hi] at h
      · rw [fetched?_step_of_decode hw hi] at hf
        cases hf
    · rw [perform, step_eq_poll hw] at h
      exact level_of_mem_poll h
  | execute i => exact level_of_mem_execute h
  | load program =>
    simp only [perform, load, Reply.map] at h
    split at h
    · cases h
    · rw [List.mem_singleton.mp h]
      rfl
  | reset =>
    rw [List.mem_singleton.mp h]
    rfl
  | tick =>
    obtain ⟨edge, -, rfl⟩ := Option.map_eq_some_iff.mp (Option.mem_toList.mp h)
    rfl
  | press b => rcases hp : m.keypad.press b with _ | _ <;> simp [perform, hp, withKeypad] at h
  | release b => rcases hp : m.keypad.release b with _ | _ <;> simp [perform, hp, withKeypad] at h
  | takePress => rcases hp : m.keypad.takePress with _ | _ <;> simp [perform, hp] at h
  | discardPresses | clearKeys => cases h

/-- An operation writes the line of what it fetches, and no other. -/
theorem trace_log (m : Machine) (op : Operation) :
    (m.perform op).log.filter (·.level = .trace) = ((m.fetched? op).map Fetch.event).toList := by
  rcases hf : m.fetched? op with _ | f
  · exact filter_trace_eq_nil fun e => level_of_mem_log hf
  · obtain ⟨rfl, hw, hpc, hword⟩ := fetched?_eq_some_iff.mp hf
    have hi : Instruction.decode m.fetch = .ok f.instruction := hword ▸ f.decoded
    have hlog : (m.perform .step).log = f.event :: (m.execute f.instruction).log := by
      simp only [perform, Reply.map, step, hw, hi, Fetch.event, hpc, hword]
    rw [hlog, List.filter_cons_of_pos rfl, filter_trace_eq_nil fun e => level_of_mem_execute]
    rfl

theorem traceLog_cons (m : Machine) (op : Operation) (ops : List Operation) :
    m.traceLog (op :: ops) =
      ((m.fetched? op).toList.map Fetch.text) ++ (m.perform op).machine.traceLog ops := by
  have hline : ((m.fetched? op).map Fetch.event).toList.map Event.text =
      (m.fetched? op).toList.map Fetch.text := by
    cases m.fetched? op <;> rfl
  rw [traceLog, replies, List.flatMap_cons, List.filter_append, trace_log, List.map_append, hline]
  rfl

theorem traceLog_eq (m : Machine) (ops : List Operation) :
    m.traceLog ops = (m.fetches ops).map Fetch.text := by
  induction ops generalizing m with
  | nil => rfl
  | cons op ops ih => rw [traceLog_cons, fetches, List.map_append, ih]

/-- The trace. Operations write one line there for each word that they fetch, in turn: a step the
word at the program counter, if no key is awaited and the word stands for an instruction. A line
tells the address and the word, and the text of the instruction, which is different for different
words. So the trace tells what was fetched, and in which order. -/
theorem trace_of_history (m : Machine) (ops : List Operation) :
    m.traceLog ops = (m.fetches ops).map Fetch.text ∧
    (∀ (b : Machine) op (f : Fetch), b.fetched? op = some f ↔
      op = .step ∧ b.waiting = none ∧ f.pc = b.registers.pc ∧ f.word = b.fetch) ∧
    (∀ f : Fetch, Fetch.read? f.text = some (f.pc, f.word, f.instruction.text)) ∧
    (∀ v w i j, Instruction.decode v = .ok i → Instruction.decode w = .ok j → v ≠ w →
      i.text ≠ j.text) ∧
    ∀ (other : Machine) (others : List Operation), m.traceLog ops = other.traceLog others →
      m.fetches ops = other.fetches others := by
  refine ⟨traceLog_eq m ops, fun b op f => fetched?_eq_some_iff, Fetch.read?_text, ?_, ?_⟩
  · intro v w i j hv hw hne heq
    obtain rfl := Instruction.text_injective heq
    exact hne (Instruction.word_unique hv hw)
  · intro other others h
    rw [traceLog_eq, traceLog_eq] at h
    exact List.map_injective_iff.mpr (fun f g => Fetch.text_injective) h

/-- A return with nowhere to go is traced each time it is tried, and a tick is not. -/
theorem trace_of_lone_return :
    let m := ((fresh {} (.ofSeed 8)).perform (.load #[0x00, 0xEE])).machine
    let line := "0x200: 00EE ReturnFromSubroutine"
    m.traceLog [.step, .tick, .step] = [line, line] ∧
      m.traceLog [.step, .tick, .step] = m.traceLog [.tick, .step, .step] ∧
      m.fetches [.step, .tick, .step] = m.fetches [.tick, .step, .step] := by
  intro m line
  let f : Fetch := ⟨0x200, 0x00EE, .ret, rfl⟩
  have hline : f.text = line := by decide +kernel
  have hlone : ∀ b : Machine, b.waiting = none → b.registers.pc = 0x200 → b.fetch = 0x00EE →
      b.stack.frames = [] → b.fetched? .step = some f ∧ (b.perform .step).machine = b := by
    intro b hw hpc hf hs
    have hi := Instruction.decode_eq_ok_ret_iff.mpr hf
    refine ⟨fetched?_eq_some_iff.mpr ⟨rfl, hw, hpc.symm, hf.symm⟩, ?_⟩
    have hfault : b.step.result = .error (.fault .stackUnderflow) := by
      rw [result_step_of_decode hw hi, result_execute_eq_error_iff,
        Instruction.effect_ret_of_nil hs]
    exact machine_step_of_error hfault
  have hread := read_perform_load (m := fresh {} (.ofSeed 8)) (p := #[0x00, 0xEE]) (by decide)
  have hw : m.waiting = none := rfl
  have hpc : m.registers.pc = 0x200 := rfl
  have hs : m.stack.frames = [] := rfl
  have hf : m.fetch = 0x00EE := by
    rw [fetch, Memory.readWord, hread, hread, hpc]
    rfl
  -- the rest needs no more of the machine, and must not compute its memory
  clear_value m
  obtain ⟨hfetched, hstep⟩ := hlone m hw hpc hf hs
  obtain ⟨hfetched', hstep'⟩ := hlone (m.perform .tick).machine hw hpc hf hs
  have hidle : ∀ b : Machine, b.fetched? .tick = none := fun b => rfl
  obtain ⟨hlog, -, -, -, hsame⟩ := trace_of_history m [.step, .tick, .step]
  obtain ⟨hlog', -⟩ := trace_of_history m [.tick, .step, .step]
  have hfetches : m.fetches [.step, .tick, .step] = [f, f] := by
    simp [fetches, hfetched, hstep, hidle, hfetched']
  have hfetches' : m.fetches [.tick, .step, .step] = [f, f] := by
    simp [fetches, hidle, hfetched', hstep']
  rw [hfetches] at hlog
  rw [hfetches'] at hlog'
  have hequal := hlog.trans hlog'.symm
  exact ⟨by rw [hlog, ← hline]; rfl, hequal, hsame m _ hequal⟩

end Machine

end Chip8
