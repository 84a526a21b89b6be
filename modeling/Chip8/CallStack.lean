import Chip8.Fault

/-!
The call stack: return addresses of at most sixteen nested subroutine calls, the latest first.
-/

namespace Chip8

structure CallStack where
  frames : List Word := []
deriving DecidableEq, Repr

namespace CallStack

def capacity : Nat := 16

def depth (s : CallStack) : Nat := s.frames.length

def isFull (s : CallStack) : Bool := capacity ≤ s.depth

def push (s : CallStack) (address : Word) : Except Fault CallStack :=
  if s.isFull then .error (.stackOverflow address) else .ok ⟨address :: s.frames⟩

def pop (s : CallStack) : Except Fault (Word × CallStack) :=
  match s.frames with
  | [] => .error .stackUnderflow
  | address :: rest => .ok (address, ⟨rest⟩)

theorem isFull_iff (s : CallStack) : s.isFull = true ↔ 16 ≤ s.depth := decide_eq_true_iff

theorem push_eq_ok_iff {s t : CallStack} {a : Word} :
    s.push a = .ok t ↔ s.depth < 16 ∧ t = ⟨a :: s.frames⟩ := by
  by_cases h : 16 ≤ s.depth
  · simp [push, (isFull_iff s).mpr h]
    omega
  · simp [push, mt (isFull_iff s).mp h, eq_comm]
    omega

end CallStack

end Chip8
