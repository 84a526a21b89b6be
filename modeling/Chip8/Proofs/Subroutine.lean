import Chip8.Proofs.Faults
import Mathlib.Data.List.Induction

/-!
Calls and returns. Whatever runs between a call and a return, self-modifying or not, the addresses
that were on the stack stay below it: `suffix_performAll`. Main statement: `return_matches_call`,
the return that finds the stack as high as the call left it goes on behind that call, and the
height of the stack is the number of calls less the number of returns.
-/

namespace Chip8

def Instruction.isCall : Instruction → Bool
  | call _ => true
  | _ => false

namespace Machine

/-- The instructions executed in a history since the last reset, the latest first, when those in
`past` have been executed before. -/
def executedFrom (m : Machine) (past : List Instruction) : List Operation → List Instruction
  | [] => past
  | op :: ops =>
    (m.perform op).machine.executedFrom
      (if op = .reset then [] else (m.executed? op).toList ++ past) ops

variable {m : Machine} {ops : List Operation} {op : Operation}

/-- What an operation does to the call stack, and by which instruction. -/
theorem stack_perform (m : Machine) (hop : op ≠ .reset) :
    ((∀ a, m.executed? op ≠ some (.call a)) ∧ m.executed? op ≠ some .ret ∧
      (m.perform op).machine.stack = m.stack) ∨
    (∃ a, m.executed? op = some (.call a) ∧
      (m.perform op).machine.stack.frames = m.registers.pc.advance 2 :: m.stack.frames) ∨
    (m.executed? op = some .ret ∧
      ∃ a, m.stack.frames = a :: (m.perform op).machine.stack.frames) := by
  rcases hex : m.executed? op with _ | i
  · exact .inl ⟨by simp, by simp, (idle_of_executed?_eq_none hex).stack hop⟩
  · obtain ⟨e, he, hm⟩ := effect_of_executed? hex
    rw [hm, stack_after]
    rcases Instruction.stack_of_effect he with ⟨hc, hr, hs⟩ | ⟨a, rfl, -, hs⟩ | ⟨rfl, a, -, hs⟩
    · exact .inl ⟨by simpa using hc, by simpa using hr, hs⟩
    · exact .inr (.inl ⟨a, rfl, hs⟩)
    · exact .inr (.inr ⟨rfl, a, hs⟩)

theorem suffix_perform {base : List Word} (h : base <:+ m.stack.frames) (hop : op ≠ .reset)
    (hd : base.length ≤ (m.perform op).machine.stack.depth) :
    base <:+ (m.perform op).machine.stack.frames := by
  rcases m.stack_perform hop with ⟨-, -, hs⟩ | ⟨a, -, hs⟩ | ⟨-, a, hs⟩
  · rw [hs]
    exact h
  · rw [hs]
    exact h.trans (List.suffix_cons _ _)
  · rw [hs, List.suffix_cons_iff] at h
    rcases h with h | h
    · -- the whole stack would be the base, and its top is gone
      rw [h, List.length_cons] at hd
      exact absurd hd (Nat.not_succ_le_self _)
    · exact h

/-- As long as the stack does not sink below a base, the base stays as it is. -/
theorem suffix_performAll {base : List Word} (h : base <:+ m.stack.frames)
    (hops : .reset ∉ ops)
    (hd : ∀ before, before <+: ops → base.length ≤ (m.performAll before).stack.depth) :
    base <:+ (m.performAll ops).stack.frames := by
  induction ops using List.reverseRecOn with
  | nil => exact h
  | append_singleton ops op ih =>
    rw [List.mem_append, List.mem_singleton, not_or] at hops
    have hlast := hd (ops ++ [op]) (List.prefix_refl _)
    rw [performAll_concat] at hlast ⊢
    refine suffix_perform (ih hops.1 fun before hb => hd before ?_) (Ne.symm hops.2) hlast
    exact hb.trans (List.prefix_append ops [op])

theorem depth_perform (m : Machine) (hop : op ≠ .reset) :
    (m.perform op).machine.stack.depth + (m.executed? op).toList.count .ret =
      m.stack.depth + (m.executed? op).toList.countP Instruction.isCall := by
  rcases m.stack_perform hop with ⟨hc, hr, hs⟩ | ⟨a, hex, hs⟩ | ⟨hex, a, hs⟩
  · rw [hs]
    rcases hex : m.executed? op with _ | i
    · rfl
    · rw [hex] at hc hr
      cases i <;> simp_all [Instruction.isCall]
  · rw [CallStack.depth, hs, hex]
    rfl
  · rw [CallStack.depth, CallStack.depth, hs, hex]
    rfl

theorem depth_performAll (past : List Instruction)
    (h : m.stack.depth + past.count .ret = past.countP Instruction.isCall) :
    (m.performAll ops).stack.depth + (m.executedFrom past ops).count .ret =
      (m.executedFrom past ops).countP Instruction.isCall := by
  induction ops generalizing m past with
  | nil => exact h
  | cons op ops ih =>
    rw [performAll_cons, executedFrom]
    apply ih
    by_cases hop : op = .reset
    · rw [if_pos hop, hop]
      rfl
    · rw [if_neg hop, List.count_append, List.countP_append]
      have := m.depth_perform hop
      omega

theorem frames_step_of_call (hw : m.waiting = none) (hf : m.fetch.toNat / 4096 = 2)
    (hok : ∃ s, m.step.result = .ok s) :
    m.step.machine.stack.frames = m.registers.pc.advance 2 :: m.stack.frames := by
  obtain ⟨a, hd⟩ := Instruction.exists_decode_eq_ok_call_iff.mpr hf
  obtain ⟨s, hs⟩ := hok
  obtain ⟨e, he, -, hm⟩ := exists_effect_of_step hw hd hs
  rw [hm]
  exact (Instruction.frames_of_effect_call he).2

theorem step_of_ret {a : Word} {rest : List Word} (hw : m.waiting = none)
    (hf : m.fetch = 0x00EE) (hs : m.stack.frames = a :: rest) :
    m.step.result = .ok { nextPc := a, signal := none } ∧
    m.step.machine =
      { m with stack := ⟨rest⟩, registers := { m.registers with pc := a } } := by
  have hd := Instruction.decode_eq_ok_ret_iff.mpr hf
  rw [result_step_of_decode hw hd, machine_step_of_decode hw hd,
    execute_of_effect (Instruction.effect_ret_of_cons hs)]
  exact ⟨rfl, rfl⟩

/-- A call and its return. If a step calls, and from then on the stack never gets lower than the
call left it, then a return at that very height goes on behind the call, with the stack from before
it. The height is the number of calls less the number of returns since the last reset, and at most
sixteen. -/
theorem return_matches_call (m : Machine) :
    (m.waiting = none → m.fetch.toNat / 4096 = 2 → (∃ s, m.step.result = .ok s) →
      ∀ ops, .reset ∉ ops →
        (∀ before, before <+: ops →
          m.stack.depth + 1 ≤ (m.step.machine.performAll before).stack.depth) →
        let r := m.step.machine.performAll ops
        r.waiting = none → r.fetch = 0x00EE → r.stack.depth = m.stack.depth + 1 →
          r.step.result = .ok { nextPc := m.registers.pc.advance 2, signal := none } ∧
          r.step.machine =
            { r with
              stack := m.stack
              registers := { r.registers with pc := m.registers.pc.advance 2 } }) ∧
    ∀ (dialect : Dialect) (random : RandomSource) ops, (∀ op ∈ ops, op.Decoded) →
      ((fresh dialect random).performAll ops).stack.depth +
          ((fresh dialect random).executedFrom [] ops).count .ret =
        ((fresh dialect random).executedFrom [] ops).countP Instruction.isCall ∧
      ((fresh dialect random).performAll ops).stack.depth ≤ 16 := by
  refine ⟨?_, ?_⟩
  · intro hw hf hok ops hops hd r hrw hrf hrd
    have hbase := frames_step_of_call hw hf hok
    have hsuffix : m.registers.pc.advance 2 :: m.stack.frames <:+ r.stack.frames :=
      suffix_performAll ⟨[], hbase.symm⟩ hops hd
    have hframes := hsuffix.eq_of_length hrd.symm
    exact step_of_ret hrw hrf hframes.symm
  · intro dialect random ops hops
    exact ⟨depth_performAll [] rfl,
      ((Reachable.fresh dialect random).performAll hops).wellFormed.depth⟩

/-- A subroutine that returns at once, with a tick while it is entered. -/
theorem return_matches_call_at_204 :
    let m := ((fresh {} (.ofSeed 8)).perform
      (.load #[0x22, 0x04, 0x00, 0x00, 0x00, 0xEE])).machine
    let r := m.step.machine.performAll [.tick]
    m.waiting = none ∧ m.fetch = 0x2204 ∧ r.waiting = none ∧ r.fetch = 0x00EE ∧
      r.step.result = .ok { nextPc := m.registers.pc.advance 2, signal := none } ∧
      r.step.machine.stack = m.stack := by
  intro m r
  have hread := read_perform_load (m := fresh {} (.ofSeed 8))
    (p := #[0x22, 0x04, 0x00, 0x00, 0x00, 0xEE]) (by decide)
  have hf : m.fetch = 0x2204 := by
    have hpc : m.registers.pc = 0x200 := rfl
    rw [fetch_eq, hread, hread, hpc]
    rfl
  have hd : Instruction.decode m.fetch = .ok (.call 0x204) := by
    rw [hf]
    rfl
  have hexecute := execute_of_effect (Instruction.effect_call_of_lt (m := m) 0x204 (by decide))
  have hresult := result_step_of_decode rfl hd
  have hmachine := machine_step_of_decode rfl hd
  rw [hexecute] at hresult hmachine
  have hr : r.registers.pc = 0x204 ∧ r.memory = m.memory ∧ r.waiting = none ∧
      r.stack.depth = 1 := by
    simp only [r, performAll_cons, performAll_nil, hmachine]
    exact ⟨rfl, rfl, rfl, rfl⟩
  obtain ⟨hpc, hmemory, hrw, hdepth⟩ := hr
  have hrf : r.fetch = 0x00EE := by
    rw [fetch_eq, hmemory, hread, hread, hpc]
    rfl
  have hmatch := (return_matches_call m).1 rfl (by rw [hf]; rfl) ⟨_, hresult⟩ [.tick] (by simp)
    (by
      intro before hb
      rcases List.prefix_cons_iff.mp hb with rfl | ⟨rest, rfl, hrest⟩
      · rw [hmachine]
        exact Nat.le_refl 1
      · rw [List.prefix_nil.mp hrest]
        exact Nat.le_of_eq hdepth.symm) hrw hrf hdepth
  refine ⟨rfl, hf, hrw, hrf, hmatch.1, ?_⟩
  rw [hmatch.2]

end Machine

end Chip8
