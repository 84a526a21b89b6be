import Chip8.Proofs.Subroutine
import Mathlib.Algebra.Group.Nat.Even

/-!
Even addresses. Instructions are two bytes long, but nothing in a machine keeps it from running them
at odd addresses: a jump goes wherever it says. It stays at even ones exactly as long as the jumps,
calls and offset jumps that it executes lead to even ones. A return goes by the stack, so the return
addresses belong to the invariant too. Main statement: `aligned_iff_even_targets`.
-/

namespace Chip8

theorem Word.even_advance_iff (a k : Word) :
    Even (a.advance k).toNat ↔ Even (a.toNat + k.toNat) := by
  rw [toNat_advance, Nat.even_iff, Nat.even_iff]
  omega

/-- The number that an instruction jumps to, before it is cut down to an address: the one that a
jump or a call names, or the sum that an offset jump makes. -/
def Instruction.target? (m : Machine) : Instruction → Option Nat
  | jump a | call a => some a.toNat
  | jumpOffset a =>
    (operand (m.dialect.offsetRegister a)).toOption.map fun x =>
      a.toNat + (m.registers.get x).toNat
  | _ => none

namespace Machine

structure Aligned (m : Machine) : Prop where
  pc : Even m.registers.pc.toNat
  frames : ∀ a ∈ m.stack.frames, Even a.toNat

/-- All jumps, calls and offset jumps executed in the course of the operations lead to even
addresses. -/
def EvenTargets (m : Machine) (ops : List Operation) : Prop :=
  ∀ before op after, ops = before ++ op :: after →
    ∀ i n, (m.performAll before).executed? op = some i → i.target? (m.performAll before) = some n →
      Even n

variable {m : Machine} {op : Operation} {ops : List Operation} {i : Instruction} {e : Effect}
  {n : Nat}

theorem goto_of_target? (he : i.effect m = .ok e) (hn : i.target? m = some n) :
    ∃ a, e.flow = .goto a ∧ (Even a.toNat ↔ Even n) := by
  cases i with
  | jump a =>
    cases he
    cases hn
    exact ⟨a, rfl, Iff.rfl⟩
  | call a =>
    simp only [Instruction.effect, bind_eq_ok_iff] at he
    obtain ⟨stack, -, he⟩ := he
    cases he
    cases hn
    exact ⟨a, rfl, Iff.rfl⟩
  | jumpOffset a =>
    simp only [Instruction.effect, bind_eq_ok_iff] at he
    obtain ⟨x, hx, he⟩ := he
    rw [Instruction.target?, hx] at hn
    cases he
    cases hn
    refine ⟨_, rfl, ?_⟩
    rw [Word.even_advance_iff, UInt8.toNat_toUInt16]
  | _ => cases hn

/-- An instruction that goes to an address without naming it is a return. -/
theorem mem_frames_of_goto {a : Word} (he : i.effect m = .ok e) (hg : e.flow = .goto a)
    (hn : i.target? m = none) : a ∈ m.stack.frames := by
  rcases Instruction.goto_of_effect he hg with rfl | rfl | ⟨-, ha⟩ | ⟨b, k, rfl, -⟩
  · cases hn
  · cases hn
  · exact ha
  · simp only [Instruction.effect, bind_eq_ok_iff] at he
    obtain ⟨x, hx, -⟩ := he
    rw [Instruction.target?, hx] at hn
    cases hn

theorem Aligned.even_target (h : m.Aligned) (he : i.effect m = .ok e)
    (heven : ∀ n, i.target? m = some n → Even n) :
    Even (e.flow.target m.registers.pc).toNat := by
  have hpc := h.pc
  rcases hn : i.target? m with _ | n
  · cases hf : e.flow with
    | next =>
      refine (Word.even_advance_iff _ _).mpr (hpc.add ?_)
      decide
    | skip =>
      refine (Word.even_advance_iff _ _).mpr (hpc.add ?_)
      decide
    | stay => exact hpc
    | goto a => exact h.frames a (mem_frames_of_goto he hf hn)
  · obtain ⟨a, hf, ha⟩ := goto_of_target? he hn
    rw [hf]
    exact ha.mpr (heven n hn)

theorem Aligned.even_frames (h : m.Aligned) (he : i.effect m = .ok e) :
    ∀ a ∈ e.machine.stack.frames, Even a.toNat := by
  obtain ⟨-, -, hs⟩ | ⟨a, -, -, hs⟩ | ⟨-, a, -, hs⟩ := Instruction.stack_of_effect he
  · rw [hs]
    exact h.frames
  · rw [hs, List.forall_mem_cons, Word.even_advance_iff]
    exact ⟨h.pc.add (by decide), h.frames⟩
  · intro b hb
    refine h.frames b ?_
    rw [hs]
    exact List.mem_cons_of_mem a hb

theorem aligned_fresh (dialect : Dialect) (random : RandomSource) :
    (fresh dialect random).Aligned := by
  refine ⟨?_, nofun⟩
  show Even (512 : Word).toNat
  decide

theorem Aligned.perform (h : m.Aligned)
    (heven : ∀ i n, m.executed? op = some i → i.target? m = some n → Even n) :
    (m.perform op).machine.Aligned := by
  have hp := m.performs_perform op
  generalize (m.perform op).result = result, (m.perform op).machine = m' at hp
  cases hp with
  | executed hi he =>
    have hx := executed?_of_effect hi he
    exact ⟨h.even_target he fun n => heven _ n hx, h.even_frames he⟩
  | resumed => exact ⟨(Word.even_advance_iff _ _).mpr (h.pc.add (by decide)), h.frames⟩
  | reset => exact aligned_fresh m.dialect m.random
  | refused | blocked | loaded | ticked | pressed | released | untaken | taken | discarded
  | cleared => exact ⟨h.pc, h.frames⟩

theorem Aligned.performAll (h : m.Aligned) (heven : m.EvenTargets ops) {before : List Operation}
    (hb : before <+: ops) : (m.performAll before).Aligned := by
  induction before using List.reverseRecOn with
  | nil => exact h
  | append_singleton before op ih =>
    obtain ⟨after, rfl⟩ := hb
    rw [performAll_concat]
    apply (ih ⟨[op] ++ after, by simp⟩).perform
    exact heven before op after (by simp)

/-- An executed instruction that names where it goes has gone there. -/
theorem even_of_aligned (hi : m.executed? op = some i) (hn : i.target? m = some n)
    (h : (m.perform op).machine.Aligned) : Even n := by
  obtain ⟨e, he, hm⟩ := effect_of_executed? hi
  obtain ⟨a, hf, ha⟩ := goto_of_target? he hn
  have hpc := h.pc
  rw [hm] at hpc
  refine ha.mp ?_
  rw [← show e.flow.target m.registers.pc = a by rw [hf]; rfl]
  exact hpc

/-- From a machine just switched on or reset, with any program in its memory, the program counter
and the return addresses are even all the way, if and only if the jumps, calls and offset jumps
executed on the way all lead to even addresses. -/
theorem aligned_iff_even_targets (dialect : Dialect) (random : RandomSource) (used : Machine)
    (program : Array Byte) (ops : List Operation) :
    ∀ boot, boot = fresh dialect random ∨ boot = used.reset.machine →
      let start := (boot.perform (.load program)).machine
      start.EvenTargets ops ↔ ∀ before, before <+: ops → (start.performAll before).Aligned := by
  intro boot hboot start
  have hstart : start.Aligned := by
    have hboot : boot.Aligned := by
      rcases hboot with rfl | rfl
      · exact aligned_fresh dialect random
      · exact aligned_fresh used.dialect used.random
    refine hboot.perform fun i n hi => ?_
    cases (executed?_eq_some_iff.mp hi).2
  constructor
  · exact fun heven before hb => hstart.performAll heven hb
  · rintro haligned before op after rfl i n hi hn
    refine even_of_aligned hi hn ?_
    rw [← performAll_concat]
    exact haligned _ ⟨after, by simp⟩

/-- A jump to the last word of memory, where there is no program, and on round the end. -/
theorem aligned_round_the_end :
    let boot := (fresh {} (.ofSeed 8)).reset.machine
    let start := (boot.perform (.load #[0x1F, 0xFE])).machine
    start.EvenTargets [.step, .step] ∧ (start.performAll [.step, .step]).registers.pc = 0x000 ∧
      ∀ before, before <+: [.step, .step] → (start.performAll before).Aligned := by
  intro boot start
  have hiff : start.EvenTargets [.step, .step] ↔
      ∀ before, before <+: [.step, .step] → (start.performAll before).Aligned :=
    aligned_iff_even_targets {} (.ofSeed 8) (fresh {} (.ofSeed 8)) _ _ boot (.inr rfl)
  have hread := read_perform_load (m := boot) (p := #[0x1F, 0xFE]) (by decide)
  have hblank : boot.memory = Memory.blank := rfl
  have hw : start.waiting = none := rfl
  have hpc : start.registers.pc = 0x200 := rfl
  have hjump : start.memory.readWord 0x200 = 0x1FFE := by
    rw [Memory.readWord, hread, hread]
    rfl
  have hempty : start.memory.readWord 0xFFE = 0x0000 := by
    rw [Memory.readWord, hread, hread, hblank, Memory.read_blank, Memory.read_blank]
    rfl
  -- the rest needs no more of the machine, and must not compute its memory
  clear_value start
  have hi : start.instruction? .step = some (.jump 0xFFE) := by
    refine instruction?_step_eq_some_iff.mpr ⟨hw, ?_⟩
    rw [fetch, hpc, hjump]
    rfl
  have hfirst := machine_perform_of_effect hi rfl
  have hj : (start.perform .step).machine.instruction? .step = some (.sys 0) := by
    rw [hfirst]
    refine instruction?_step_eq_some_iff.mpr ⟨hw, ?_⟩
    show Instruction.decode (start.memory.readWord 0xFFE) = _
    rw [hempty]
    rfl
  have hsecond := machine_perform_of_effect hj rfl
  have heven : start.EvenTargets [.step, .step] := by
    intro before op after h i n hx hn
    have hx := (executed?_eq_some_iff.mp hx).2
    rcases before with _ | ⟨first, _ | ⟨second, before⟩⟩
    · obtain rfl : .step = op := (List.cons.inj h).1
      rw [performAll_nil] at hx
      obtain rfl := Option.some.inj (hi.symm.trans hx)
      obtain rfl := Option.some.inj hn
      decide
    · obtain ⟨hstep, hrest⟩ := List.cons.inj h
      obtain rfl : .step = first := hstep
      obtain rfl : .step = op := (List.cons.inj hrest).1
      rw [performAll_cons, performAll_nil] at hx
      obtain rfl := Option.some.inj (hj.symm.trans hx)
      cases hn
    · simp at h
  refine ⟨heven, ?_, hiff.mp heven⟩
  rw [performAll_cons, performAll_cons, performAll_nil, hsecond, hfirst]
  show Word.advance 0xFFE 2 = 0x000
  decide

end Machine

end Chip8
