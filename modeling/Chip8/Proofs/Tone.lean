import Chip8.Proofs.Footprint
import Chip8.Proofs.History
import Mathlib.Data.List.Induction

/-!
The edges of the sound timer that a host is told of, by the signal of a step or by the answer of a
tick. Each operation tells of the edge that it makes and of no other (`edge?_perform`), so the edges
of a history go on, off, on, off, and a host that follows them is never out of step with the timer.
Main statement: `tone_of_history`.
-/

namespace Chip8

namespace SoundEdge

def turn (k : Nat) : SoundEdge := if k % 2 = 0 then on else off

theorem turn_eq_on_iff {k : Nat} : turn k = on ↔ k % 2 = 0 := by
  unfold turn
  split <;> simp_all

theorem getLast?_turns (n : Nat) : ((List.range n).map turn).getLast? = some on ↔ n % 2 = 1 := by
  cases n with
  | zero => simp
  | succ n =>
    rw [List.range_succ, List.map_append, List.map_singleton, List.getLast?_concat,
      Option.some.injEq, turn_eq_on_iff]
    omega

theorem between_self (b : Byte) : between b b = none := by
  unfold between
  split
  · simp_all
  · simp_all

theorem between_eq_on_iff {a b : Byte} : between a b = some on ↔ a = 0 ∧ b ≠ 0 := by
  unfold between
  split
  · simp_all
  · split <;> simp_all

/-- If the timer has been at zero after every other edge so far, then an edge that it makes is the
one whose turn it is, and it is at zero after every other edge still. -/
theorem between_cases {a : Byte} {n : Nat} (h : a = 0 ↔ n % 2 = 0) (b : Byte) :
    (between a b = some (turn n) ∧ (b = 0 ↔ (n + 1) % 2 = 0)) ∨
      (between a b = none ∧ (b = 0 ↔ n % 2 = 0)) := by
  have hturn : (n + 1) % 2 = 0 ↔ ¬ n % 2 = 0 := by omega
  rw [hturn, turn]
  by_cases ha : a = 0 <;> by_cases hb : b = 0 <;> simp_all [between]

/-- A timer that counts down does not leave zero. -/
theorem between_countDown_ne_on (b : Byte) : between b (Registers.countDown b) ≠ some on := by
  rw [ne_eq, between_eq_on_iff]
  rintro ⟨rfl, hne⟩
  exact hne rfl

end SoundEdge

/-- The edge that an answer tells of: a step signals it, and a tick answers with it. -/
def Answer.edge? : Answer → Option SoundEdge
  | .stepped { nextPc := _, signal := some (.sound e) } => some e
  | .edge e => e
  | _ => none

/-- The edge that an instruction signals is the edge that it makes. -/
theorem Instruction.edge?_of_effect {i : Instruction} {m : Machine} {e : Effect}
    (he : i.effect m = .ok e) (pc : Word) :
    (Answer.stepped ⟨pc, e.signal⟩).edge? =
      SoundEdge.between m.registers.sound e.machine.registers.sound := by
  by_cases hi : ∃ x, i = setSound x
  · obtain ⟨x, rfl⟩ := hi
    simp only [effect, bind_eq_ok_iff] at he
    obtain ⟨x, -, he⟩ := he
    cases he
    show (Answer.stepped ⟨pc, (SoundEdge.between _ (m.registers.get x)).map .sound⟩).edge? = _
    cases SoundEdge.between m.registers.sound (m.registers.get x) <;> rfl
  · rw [not_exists] at hi
    rw [(footprint_of_effect he).sound hi, SoundEdge.between_self]
    rcases hs : e.signal with _ | s
    · rfl
    rcases signal_of_effect he hs with ⟨rfl, -⟩ | ⟨x, rfl, -⟩ | ⟨edge, x, -, hx⟩
    · rfl
    · rfl
    · exact absurd hx (hi x)

namespace Machine

def edge? (m : Machine) (op : Operation) : Option SoundEdge :=
  (m.perform op).result.toOption.bind Answer.edge?

def edges (m : Machine) (ops : List Operation) : List SoundEdge :=
  (m.replies ops).filterMap fun reply => reply.1.toOption.bind Answer.edge?

variable {m m' : Machine} {op : Operation} {ops : List Operation}

theorem edges_concat (m : Machine) (ops : List Operation) (op : Operation) :
    m.edges (ops ++ [op]) = m.edges ops ++ ((m.performAll ops).edge? op).toList := by
  rw [edges, replies_append, List.filterMap_append]
  simp only [replies, List.filterMap_cons, List.filterMap_nil, edges, edge?]
  split <;> simp_all

theorem Performs.edge? {result : Except Stop Answer} (hp : Performs m op result m')
    (hop : op ≠ .reset) :
    result.toOption.bind Answer.edge? =
      SoundEdge.between m.registers.sound m'.registers.sound := by
  cases hp with
  | executed hi he => exact Instruction.edge?_of_effect he _
  | reset => exact absurd rfl hop
  | ticked => rfl
  | refused | blocked | resumed | loaded | pressed | released | untaken | taken | discarded
  | cleared => exact (SoundEdge.between_self _).symm

/-- Each operation but a reset tells of the edge that it makes. -/
theorem edge?_perform (m : Machine) (hop : op ≠ .reset) :
    m.edge? op =
      SoundEdge.between m.registers.sound (m.perform op).machine.registers.sound :=
  (m.performs_perform op).edge? hop

theorem edge?_tick_ne_on (m : Machine) : m.edge? .tick ≠ some .on :=
  SoundEdge.between_countDown_ne_on m.registers.sound

/-- From a silent machine on, the edges come in turn, and the timer is at zero after every other. -/
theorem exists_edges_eq_turns (hm : m.registers.sound = 0) (hops : .reset ∉ ops) :
    ∃ n, m.edges ops = (List.range n).map SoundEdge.turn ∧
      ((m.performAll ops).registers.sound = 0 ↔ n % 2 = 0) := by
  induction ops using List.reverseRecOn with
  | nil => exact ⟨0, rfl, by simp [hm]⟩
  | append_singleton ops op ih =>
    rw [List.mem_append, List.mem_singleton, not_or] at hops
    obtain ⟨n, hedges, hsound⟩ := ih hops.1
    rw [edges_concat, performAll_concat, edge?_perform _ (Ne.symm hops.2), hedges]
    rcases SoundEdge.between_cases hsound
      ((m.performAll ops).perform op).machine.registers.sound with ⟨hedge, hn⟩ | ⟨hedge, hn⟩
    · refine ⟨n + 1, ?_, hn⟩
      rw [hedge, List.range_succ, List.map_append]
      rfl
    · refine ⟨n, ?_, hn⟩
      rw [hedge, Option.toList_none, List.append_nil]

theorem sound_of_past (dialect : Dialect) (random : RandomSource) {past : List Operation}
    (h : past = [] ∨ past.getLast? = some .reset) :
    ((fresh dialect random).performAll past).registers.sound = 0 := by
  rcases h with rfl | h
  · rfl
  · obtain ⟨init, rfl⟩ := List.getLast?_eq_some_iff.mp h
    rw [performAll_concat]
    rfl

/-- Since the machine was switched on or reset, the edges that a host has been told of are on, off,
on, off, and so forth. No tick starts the tone. After each operation the sound timer is running
exactly when the last of the edges is on. -/
theorem tone_of_history (dialect : Dialect) (random : RandomSource) (past ops : List Operation)
    (hpast : past = [] ∨ past.getLast? = some .reset) (hops : .reset ∉ ops) :
    let start := (fresh dialect random).performAll past
    (∃ n, start.edges ops = (List.range n).map SoundEdge.turn) ∧
      (∀ before after, ops = before ++ .tick :: after →
        (start.performAll before).edge? .tick ≠ some .on) ∧
      ∀ before, before <+: ops →
        ((start.performAll before).registers.sound ≠ 0 ↔
          (start.edges before).getLast? = some .on) := by
  intro start
  have hsilent : start.registers.sound = 0 := sound_of_past dialect random hpast
  refine ⟨?_, fun before _ _ => edge?_tick_ne_on _, ?_⟩
  · obtain ⟨n, hedges, -⟩ := exists_edges_eq_turns hsilent hops
    exact ⟨n, hedges⟩
  · intro before hbefore
    obtain ⟨n, hedges, hsound⟩ :=
      exists_edges_eq_turns hsilent fun hreset => hops (hbefore.subset hreset)
    rw [hedges, SoundEdge.getLast?_turns, ne_eq, hsound]
    omega

/-- A tone that a reset cuts short, and after it one that runs for a single tick. -/
theorem tone_of_history_after_reset :
    let past := [Operation.execute (.setByte 3 9), .execute (.setSound 3), .reset]
    let ops := [Operation.tick, .execute (.setByte 3 1), .execute (.setSound 3), .tick]
    let start := (fresh {} (.ofSeed 8)).performAll past
    (past = [] ∨ past.getLast? = some .reset) ∧ .reset ∉ ops ∧
      start.edges ops = [.on, .off] ∧ (start.performAll ops).registers.sound = 0 := by
  intro past ops start
  have hpast : past = [] ∨ past.getLast? = some .reset := .inr rfl
  have hops : .reset ∉ ops := by decide
  have hedges : start.edges ops = [.on, .off] := by decide
  obtain ⟨-, -, hsound⟩ := tone_of_history {} (.ofSeed 8) past ops hpast hops
  refine ⟨hpast, hops, hedges, ?_⟩
  have hlast := hsound ops (List.prefix_refl ops)
  rw [hedges] at hlast
  by_contra hne
  exact absurd (hlast.mp hne) (by decide)

end Machine

end Chip8
