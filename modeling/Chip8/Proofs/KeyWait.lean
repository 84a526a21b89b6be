import Chip8.Proofs.Faults
import Mathlib.Data.List.Induction

/-!
Waiting for a key, seen as a protocol between the machine that polls and the host that presses and
releases keys. The latch that a poll looks at is private to the pad; what the host knows is which
keys it has put down since the wait began. `latched_iff_wentDown` says that the two agree, and
`key_wait_of_reachable` draws the consequences for the polls.
-/

namespace Chip8

def Operation.OfPlay : Operation → Prop
  | .press _ | .release _ | .tick | .step => True
  | _ => False

namespace Machine

def PutsDown (m : Machine) (op : Operation) (key : Fin 16) : Prop :=
  ¬ m.keypad.Held key ∧ (m.perform op).machine.keypad.Held key

def WentDown (m : Machine) (ops : List Operation) (key : Fin 16) : Prop :=
  ∃ before op after, ops = before ++ op :: after ∧ (m.performAll before).PutsDown op key

/-- A step that finds no press: it blocks, and nothing changes. -/
def BlocksAt (m : Machine) (pc : Word) (x : Fin 16) : Prop :=
  m.step.result = .ok { nextPc := pc, signal := some (.blockedOnKey x.val) } ∧ m.step.machine = m

/-- A step that takes the latched press of a key: the key goes into the register, the machine goes
on behind the instruction, and nothing else changes. -/
def ResumesAt (m : Machine) (pc : Word) (x key : Fin 16) : Prop :=
  m.keypad.Latched key ∧
  m.step.result = .ok { nextPc := pc.advance 2, signal := none } ∧
  m.step.machine =
    { m with
      keypad := m.keypad.unlatch key
      registers := { m.registers.set x (UInt8.ofNat key.val) with pc := pc.advance 2 }
      waiting := none }

/-- No step has come after a key went down. -/
def Unpolled (m : Machine) (ops : List Operation) : Prop :=
  ∀ before after, ops = before ++ .step :: after → ∀ key, ¬ m.WentDown before key

section Keys

variable {m : Machine} {ops more : List Operation} {op : Operation} {key : Fin 16}

theorem not_wentDown_nil : ¬ m.WentDown [] key := by
  rintro ⟨before, op, after, h, -⟩
  exact List.append_ne_nil_of_right_ne_nil before (List.cons_ne_nil op after) h.symm

theorem WentDown.append (h : m.WentDown ops key) (more : List Operation) :
    m.WentDown (ops ++ more) key := by
  obtain ⟨before, op, after, rfl, hp⟩ := h
  exact ⟨before, op, after ++ more, by simp, hp⟩

theorem wentDown_concat_iff :
    m.WentDown (ops ++ [op]) key ↔ m.WentDown ops key ∨ (m.performAll ops).PutsDown op key := by
  refine ⟨?_, ?_⟩
  · rintro ⟨before, last, after, h, hp⟩
    rcases split_concat_cases h with ⟨rfl, rfl, -⟩ | ⟨init, hops, -⟩
    · exact .inr hp
    · exact .inl ⟨before, last, init, hops, hp⟩
  · rintro (h | hp)
    · exact h.append [op]
    · exact ⟨ops, op, [], rfl, hp⟩

theorem held_of_effect {i : Instruction} {e : Effect} (he : i.effect m = .ok e) :
    e.machine.keypad.held = m.keypad.held := by
  by_cases hi : ∃ x, i = .waitKey x
  · obtain ⟨x, rfl⟩ := hi
    cases he
    rfl
  · rw [not_exists] at hi
    rw [(Instruction.footprint_of_effect he).keypad hi]

theorem Performs.held_of_step {result : Except Stop Answer} {m' : Machine}
    (hp : Performs m .step result m') : m'.keypad.held = m.keypad.held := by
  cases hp with
  | refused | blocked => rfl
  | executed hi he => exact held_of_effect he
  | resumed hw hp => exact Keypad.held_of_takePress hp

/-- The keys held after an operation are those the host has put down and not let up. -/
theorem held_perform_iff : (m.perform op).machine.keypad.Held key ↔
    op = .press (UInt8.ofNat key.val) ∨ (m.keypad.Held key ∧
      op ≠ .release (UInt8.ofNat key.val) ∧ op ≠ .reset ∧ op ≠ .clearKeys) := by
  cases op with
  | load program =>
    simp only [perform, load]
    rcases m.memory.load program with fault | memory <;> simp [Reply.map]
  | reset | clearKeys => simp [perform, Reply.map, reset, withKeypad, Keypad.not_held_empty]
  | tick => simp [perform, Reply.map, tick]
  | discardPresses => simp [perform, withKeypad, Keypad.Held, Keypad.discardPresses]
  | step => simp [perform, Reply.map, Keypad.Held, m.performs_step.held_of_step]
  | execute i =>
    rcases he : i.effect m with stop | e
    · simp [perform, Reply.map, execute, he]
    · simp [perform, Reply.map, execute_of_effect he, Keypad.Held, held_of_effect he]
  | press b =>
    rcases Keypad.eq_ofNat_key_or_le b with ⟨k, rfl⟩ | hb
    · simp [perform, Keypad.press, Keypad.key?_ofNat, Except.map, withKeypad,
        Keypad.held_down_iff, Keypad.ofNat_key_inj]
    · simp [perform, Keypad.press, Keypad.key?_of_le hb, Except.map, withKeypad,
        Keypad.ne_ofNat_key_of_le hb]
  | release b =>
    rcases Keypad.eq_ofNat_key_or_le b with ⟨k, rfl⟩ | hb
    · simp [perform, Keypad.release, Keypad.key?_ofNat, Except.map, withKeypad,
        Keypad.held_up_iff, Keypad.ofNat_key_inj, and_comm]
    · simp [perform, Keypad.release, Keypad.key?_of_le hb, Except.map, withKeypad,
        Keypad.ne_ofNat_key_of_le hb]
  | takePress =>
    rcases hp : m.keypad.takePress with _ | ⟨k, keypad⟩
    · simp [perform, hp]
    · simp [perform, hp, Keypad.Held, Keypad.held_of_takePress hp]

/-- Only pressing a key that is up puts it down. -/
theorem putsDown_iff : m.PutsDown op key ↔
    ¬ m.keypad.Held key ∧ op = .press (UInt8.ofNat key.val) := by
  rw [PutsDown, held_perform_iff]
  apply and_congr_right
  intro hup
  simp [hup]

/-- While a key is awaited, a latch comes from a key that went down in the meantime. -/
theorem Performs.latched {result : Except Stop Answer} {m' : Machine}
    (hp : Performs m op result m') (hw : m'.waiting ≠ none) (hl : m'.keypad.Latched key) :
    (m.waiting ≠ none ∧ m.keypad.Latched key) ∨ m.PutsDown op key := by
  rw [putsDown_iff]
  cases hp with
  | @executed _ i e hi he =>
    by_cases hk : ∃ x, i = .waitKey x
    · obtain ⟨x, rfl⟩ := hk
      cases he
      exact absurd hl (Keypad.not_latched_discardPresses _ _)
    · rw [not_exists] at hk
      have hf := Instruction.footprint_of_effect he
      have hw : e.machine.waiting ≠ none := hw
      have hl : e.machine.keypad.Latched key := hl
      rw [hf.waiting hk] at hw
      rw [hf.keypad hk] at hl
      exact .inl ⟨hw, hl⟩
  | pressed hb =>
    rcases Keypad.latched_down_iff.mp hl with hl | ⟨rfl, hup⟩
    · exact .inl ⟨hw, hl⟩
    · exact .inr ⟨hup, by rw [← hb]; simp⟩
  | taken hp =>
    exact .inl ⟨hw, ((Keypad.latched_iff_of_takePress hp).mp hl).2⟩
  | resumed => exact absurd rfl hw
  | reset => exact absurd rfl hw
  | discarded => exact absurd hl (Keypad.not_latched_discardPresses _ _)
  | cleared => exact absurd hl (Keypad.not_latched_empty _)
  | refused | blocked | untaken | loaded | ticked | released => exact .inl ⟨hw, hl⟩

/-- From a machine that does not wait, a wait is ended only by a key that goes down on the way. -/
theorem wentDown_of_latched (hm : m.waiting = none) (hw : (m.performAll ops).waiting ≠ none)
    (hl : (m.performAll ops).keypad.Latched key) : m.WentDown ops key := by
  induction ops using List.reverseRecOn with
  | nil => exact absurd hm hw
  | append_singleton ops op ih =>
    rw [performAll_concat] at hw hl
    rw [wentDown_concat_iff]
    rcases (performs_perform _ op).latched hw hl with ⟨hw, hl⟩ | hp
    · exact .inl (ih hw hl)
    · exact .inr hp

theorem Unpolled.of_concat (h : m.Unpolled (ops ++ [op])) :
    m.Unpolled ops ∧ (op = .step → ∀ key, ¬ m.WentDown ops key) := by
  refine ⟨?_, ?_⟩
  · rintro before after rfl
    exact h before (after ++ [op]) (by simp)
  · rintro rfl
    exact h ops [] rfl

theorem unpolled_of_not_wentDown (h : ∀ key, ¬ m.WentDown ops key) : m.Unpolled ops := by
  rintro before after rfl key hb
  exact h key (hb.append (.step :: after))

end Keys

structure Awaits (m : Machine) (pc : Word) (x : Fin 16) : Prop where
  waiting : m.waiting = some x.val
  pc : m.registers.pc = pc

section Wait

variable {m : Machine} {ops : List Operation} {op : Operation} {pc : Word} {x key : Fin 16}

theorem Awaits.blocksAt (h : m.Awaits pc x) (hl : ∀ key, ¬ m.keypad.Latched key) :
    m.BlocksAt pc x := by
  have hp := Keypad.takePress_eq_none_iff.mpr hl
  rw [BlocksAt, step_eq_poll h.waiting, poll, hp, ← h.pc]
  exact ⟨rfl, rfl⟩

theorem Awaits.resumesAt (h : m.Awaits pc x) (hl : m.keypad.Latched key)
    (hlow : ∀ j < key, ¬ m.keypad.Latched j) : m.ResumesAt pc x key := by
  have hp := Keypad.takePress_eq_some_iff.mpr ⟨hl, hlow, rfl⟩
  rw [ResumesAt, step_eq_poll h.waiting, poll, hp, operand_of_lt x.isLt, ← h.pc]
  exact ⟨hl, rfl, rfl⟩

/-- As long as no step comes upon a press, the wait lasts and the latch collects the keys that go
down. -/
theorem Awaits.perform (h : m.Awaits pc x) (hop : op.OfPlay)
    (hs : op = .step → ∀ key, ¬ m.keypad.Latched key) :
    (m.perform op).machine.Awaits pc x ∧
      ∀ key, (m.perform op).machine.keypad.Latched key ↔
        m.keypad.Latched key ∨ m.PutsDown op key := by
  simp only [putsDown_iff]
  cases op with
  | step =>
    have hm : (m.perform .step).machine = m := (h.blocksAt (hs rfl)).2
    rw [hm]
    exact ⟨h, by simp⟩
  | tick => exact ⟨⟨h.waiting, h.pc⟩, by simp [perform, Reply.map, tick]⟩
  | press b =>
    rcases Keypad.eq_ofNat_key_or_le b with ⟨k, rfl⟩ | hb
    · rw [perform, Keypad.press, Keypad.key?_ofNat]
      refine ⟨⟨h.waiting, h.pc⟩, ?_⟩
      intro key
      show (m.keypad.down k).Latched key ↔ _
      simp [Keypad.latched_down_iff, Keypad.ofNat_key_inj, and_comm]
    · rw [perform, Keypad.press, Keypad.key?_of_le hb]
      refine ⟨⟨h.waiting, h.pc⟩, ?_⟩
      intro key
      simp [withKeypad, Except.map, Keypad.ne_ofNat_key_of_le hb]
  | release b =>
    rcases Keypad.eq_ofNat_key_or_le b with ⟨k, rfl⟩ | hb
    · rw [perform, Keypad.release, Keypad.key?_ofNat]
      refine ⟨⟨h.waiting, h.pc⟩, ?_⟩
      intro key
      show (m.keypad.up k).Latched key ↔ _
      simp [Keypad.latched_up_iff]
    · rw [perform, Keypad.release, Keypad.key?_of_le hb]
      exact ⟨⟨h.waiting, h.pc⟩, by simp [withKeypad, Except.map]⟩
  | _ => cases hop

theorem latched_iff_wentDown (h : m.Awaits pc x) (hl : ∀ key, ¬ m.keypad.Latched key)
    (hops : ∀ op ∈ ops, op.OfPlay) (hu : m.Unpolled ops) :
    (m.performAll ops).Awaits pc x ∧
      ∀ key, (m.performAll ops).keypad.Latched key ↔ m.WentDown ops key := by
  induction ops using List.reverseRecOn with
  | nil => exact ⟨h, fun key => by simp [hl, not_wentDown_nil]⟩
  | append_singleton ops op ih =>
    obtain ⟨hu, hs⟩ := hu.of_concat
    obtain ⟨hops, hop⟩ := List.forall_mem_append.mp hops
    obtain ⟨ha, hl⟩ := ih hops hu
    have hstep : op = .step → ∀ key, ¬ (m.performAll ops).keypad.Latched key := by
      intro he key
      rw [hl]
      exact hs he key
    obtain ⟨ha, hl'⟩ := ha.perform (hop op (List.mem_singleton_self op)) hstep
    rw [performAll_concat]
    refine ⟨ha, ?_⟩
    intro key
    rw [hl', hl, wentDown_concat_iff]

theorem WentDown.press_mem (h : m.WentDown ops key) : .press (UInt8.ofNat key.val) ∈ ops := by
  obtain ⟨before, op, after, rfl, hp⟩ := h
  obtain ⟨-, rfl⟩ := putsDown_iff.mp hp
  simp

theorem release_mem_of_held (hops : ∀ op ∈ ops, op.OfPlay) (hheld : m.keypad.Held key)
    (hup : ¬ (m.performAll ops).keypad.Held key) : .release (UInt8.ofNat key.val) ∈ ops := by
  induction ops generalizing m with
  | nil => exact absurd hheld hup
  | cons op ops ih =>
    obtain ⟨hop, hops⟩ := List.forall_mem_cons.mp hops
    by_cases hr : op = .release (UInt8.ofNat key.val)
    · rw [hr]
      exact List.mem_cons_self
    · have hheld : (m.perform op).machine.keypad.Held key := by
        refine held_perform_iff.mpr (.inr ⟨hheld, hr, ?_, ?_⟩)
        · rintro rfl
          exact hop
        · rintro rfl
          exact hop
      exact List.mem_cons_of_mem op (ih hops hheld hup)

/-- A key that is held from before goes down only after it has been let up. -/
theorem WentDown.release_press_sublist (h : m.WentDown ops key) (hops : ∀ op ∈ ops, op.OfPlay)
    (hheld : m.keypad.Held key) :
    [.release (UInt8.ofNat key.val), .press (UInt8.ofNat key.val)].Sublist ops := by
  obtain ⟨before, op, after, rfl, hp⟩ := h
  obtain ⟨hup, rfl⟩ := putsDown_iff.mp hp
  have hmem := release_mem_of_held (List.forall_mem_append.mp hops).1 hheld hup
  exact (List.singleton_sublist.mpr hmem).append (List.singleton_sublist.mpr List.mem_cons_self)

/-- A tap counts, although the key is up again afterwards. -/
theorem wentDown_tap (hup : ¬ (m.performAll ops).keypad.Held key) :
    m.WentDown (ops ++ [.press (UInt8.ofNat key.val), .release (UInt8.ofNat key.val)]) key :=
  ⟨ops, _, [.release (UInt8.ofNat key.val)], rfl, putsDown_iff.mpr ⟨hup, rfl⟩⟩

theorem step_of_waitKey (hw : m.waiting = none) (hf : m.fetch.toNat = 0xF00A + 256 * x.val) :
    m.step.result =
      .ok { nextPc := m.registers.pc, signal := some (.blockedOnKey x.val) } ∧
    m.step.machine = { m with waiting := some x.val, keypad := m.keypad.discardPresses } := by
  have hd := Instruction.decode_eq_ok_waitKey_iff.mpr ⟨x.isLt, hf⟩
  rw [result_step_of_decode hw hd, machine_step_of_decode hw hd]
  exact ⟨rfl, rfl⟩

theorem WellFormed.waiting_step_iff (h : m.WellFormed) :
    m.step.machine.waiting.isSome = true ↔ ∃ s, m.step.result = .ok s ∧ s.isBlocked = true := by
  rcases hw : m.waiting with _ | y
  · rcases hd : Instruction.decode m.fetch with fault | i
    · simp [step, hw, hd]
    rw [result_step_of_decode hw hd, machine_step_of_decode hw hd]
    rcases he : i.effect m with stop | e
    · simp [execute, he, hw]
    rw [execute_of_effect he]
    by_cases hi : ∃ z, i = .waitKey z
    · obtain ⟨z, rfl⟩ := hi
      cases he
      simp [Step.isBlocked_iff]
    · rw [not_exists] at hi
      have hsignal : ∀ z, e.signal ≠ some (.blockedOnKey z) := by
        intro z hz
        rcases Instruction.signal_of_effect he hz with ⟨hs, -⟩ | ⟨z, -, rfl⟩ | ⟨_, _, hs, -⟩
        · cases hs
        · exact hi z rfl
        · cases hs
      simp [Step.isBlocked_iff, (Instruction.footprint_of_effect he).waiting hi, hw, hsignal]
  · have ha : m.Awaits m.registers.pc ⟨y, Nat.lt_succ_of_le (h.waiting y hw)⟩ := ⟨hw, rfl⟩
    rcases hp : m.keypad.takePress with _ | ⟨key, keypad⟩
    · obtain ⟨hr, hm⟩ := ha.blocksAt (Keypad.takePress_eq_none_iff.mp hp)
      simp [hr, hm, hw, Step.isBlocked_iff]
    · obtain ⟨hl, hlow, -⟩ := Keypad.takePress_eq_some_iff.mp hp
      obtain ⟨-, hr, hm⟩ := ha.resumesAt hl hlow
      simp [hr, hm, Step.isBlocked_iff]

theorem wentDown_of_resumed (hm : m.waiting = none)
    (hw : (m.performAll ops).waiting = some x.val)
    (hend : (m.performAll ops).step.machine.waiting = none) :
    ∃ key, m.WentDown ops key ∧
      (m.performAll ops).step.machine.registers.get x = UInt8.ofNat key.val := by
  have ha : (m.performAll ops).Awaits (m.performAll ops).registers.pc x := ⟨hw, rfl⟩
  rcases hp : (m.performAll ops).keypad.takePress with _ | ⟨key, keypad⟩
  · have hb := (ha.blocksAt (Keypad.takePress_eq_none_iff.mp hp)).2
    rw [hb, hw] at hend
    cases hend
  · obtain ⟨hl, hlow, -⟩ := Keypad.takePress_eq_some_iff.mp hp
    refine ⟨key, wentDown_of_latched hm (by simp [hw]) hl, ?_⟩
    rw [(ha.resumesAt hl hlow).2.2]
    exact (Registers.get_set _ x x _).trans (if_pos rfl)

/-- The key wait. A step blocks exactly while a key is awaited, and no press ends two waits: one
that ends a wait comes after all earlier waits are over. A step of `FX0A` begins a wait, in which
all steps block and change nothing until some key goes down; the next step then takes the lowest of
the keys that went down. Presses latched from before do not count, a key held from before is to be
let up and pressed again, and one that is tapped between two steps is not lost. -/
theorem key_wait_of_reachable (h : m.Reachable) :
    (m.step.machine.waiting.isSome = true ↔ ∃ s, m.step.result = .ok s ∧ s.isBlocked = true) ∧
    (m.waiting = none → ∀ ops (x : Fin 16), (m.performAll ops).waiting = some x.val →
      (m.performAll ops).step.machine.waiting = none →
      ∃ key, m.WentDown ops key ∧
        (m.performAll ops).step.machine.registers.get x = UInt8.ofNat key.val) ∧
    ∀ x : Fin 16, m.waiting = none → m.fetch.toNat = 0xF00A + 256 * x.val →
      m.step.result =
        .ok { nextPc := m.registers.pc, signal := some (.blockedOnKey x.val) } ∧
      ∀ ops, (∀ op ∈ ops, op.OfPlay) →
        ((∀ key, ¬ m.step.machine.WentDown ops key) →
          (m.step.machine.performAll ops).BlocksAt m.registers.pc x) ∧
        (∀ key, m.step.machine.WentDown ops key →
          (∀ j < key, ¬ m.step.machine.WentDown ops j) → m.step.machine.Unpolled ops →
          (m.step.machine.performAll ops).ResumesAt m.registers.pc x key) ∧
        (∀ key, m.step.machine.WentDown ops key → .press (UInt8.ofNat key.val) ∈ ops ∧
          (m.keypad.Held key →
            [.release (UInt8.ofNat key.val), .press (UInt8.ofNat key.val)].Sublist ops)) ∧
        ∀ key, ¬ (m.step.machine.performAll ops).keypad.Held key →
          m.step.machine.WentDown
            (ops ++ [.press (UInt8.ofNat key.val), .release (UInt8.ofNat key.val)]) key := by
  refine ⟨h.wellFormed.waiting_step_iff, fun hw ops x => wentDown_of_resumed hw, ?_⟩
  intro x hw hf
  obtain ⟨hr, hm⟩ := step_of_waitKey hw hf
  have ha : m.step.machine.Awaits m.registers.pc x := by
    rw [hm]
    exact ⟨rfl, rfl⟩
  have hnone : ∀ key, ¬ m.step.machine.keypad.Latched key := by
    rw [hm]
    exact m.keypad.not_latched_discardPresses
  refine ⟨hr, fun ops hops => ⟨?_, ?_, ?_, fun key => wentDown_tap⟩⟩
  · intro hquiet
    obtain ⟨ha, hl⟩ := latched_iff_wentDown ha hnone hops (unpolled_of_not_wentDown hquiet)
    exact ha.blocksAt fun key hk => hquiet key ((hl key).mp hk)
  · intro key hkey hlow hu
    obtain ⟨ha, hl⟩ := latched_iff_wentDown ha hnone hops hu
    exact ha.resumesAt ((hl key).mpr hkey) fun j hj hk => hlow j hj ((hl j).mp hk)
  · intro key hkey
    refine ⟨hkey.press_mem, fun hheld => hkey.release_press_sublist hops ?_⟩
    rw [hm]
    exact hheld

/-- Key 5 is down when the wait begins, and ends it when it is let up and pressed again. -/
theorem key_wait_of_held_key :
    let m := (fresh {} (.ofSeed 8)).performAll [.press 5, .load #[0xF3, 0x0A]]
    m.Reachable ∧ m.waiting = none ∧ m.fetch.toNat = 0xF30A ∧
      (m.step.machine.performAll [.release 5, .press 5]).ResumesAt m.registers.pc 3 5 := by
  intro m
  have hr : m.Reachable := (Reachable.fresh _ _).performAll (by simp [Operation.Decoded])
  have hw : m.waiting = none := rfl
  have hf : m.fetch.toNat = 0xF30A := by
    show UInt16.toNat (((fresh {} (.ofSeed 8)).perform (.press 5)).machine.perform
      (.load #[0xF3, 0x0A])).machine.fetch = 0xF30A
    rw [fetch_eq, read_perform_load (by decide), read_perform_load (by decide)]
    rfl
  obtain ⟨-, hwait⟩ := (key_wait_of_reachable hr).2.2 3 hw hf
  have hops : ∀ op ∈ [Operation.release 5, .press 5], op.OfPlay := by
    rw [List.forall_mem_cons, List.forall_mem_singleton]
    exact ⟨trivial, trivial⟩
  obtain ⟨-, hresume, hpress, -⟩ := hwait [.release 5, .press 5] hops
  refine ⟨hr, hw, hf, hresume 5 ?_ ?_ ?_⟩
  · refine ⟨[.release 5], .press 5, [], rfl, putsDown_iff.mpr ⟨?_, rfl⟩⟩
    intro hheld
    rcases held_perform_iff.mp hheld with h | ⟨-, h, -⟩
    · cases h
    · exact h rfl
  · intro j hj hdown
    have hmem := (hpress j hdown).1
    rw [List.mem_cons, List.mem_singleton] at hmem
    rcases hmem with h | h
    · cases h
    · have h5 : (5 : Byte) = UInt8.ofNat (5 : Fin 16).val := rfl
      injection h with h
      rw [h5, Keypad.ofNat_key_inj] at h
      exact absurd h (Fin.ne_of_lt hj)
  · intro before after h
    have hmem : Operation.step ∈ [Operation.release 5, .press 5] := by simp [h]
    simp at hmem

end Wait

end Machine

end Chip8
