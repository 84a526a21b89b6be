import Chip8.Proofs.History
import Mathlib.Data.List.Induction

/-!
Loading a program: it lands in the cells from 0x200 on, if it fits, and nothing else changes. What
several loads leave is, cell by cell, the work of the last one that got as far. Main statement:
`load_exactly`.
-/

namespace Chip8

namespace Word

def high (w : Word) : Byte := UInt8.ofNat (w.toNat / 256)

def bytes (words : List Word) : List Byte := words.flatMap fun w => [w.high, w.nn]

theorem ofBytes_high_nn (w : Word) : ofBytes w.high w.nn = w := by
  have := w.toNat_lt
  apply UInt16.toNat_inj.mp
  rw [toNat_ofBytes, toNat_nn, high, UInt8.toNat_ofNat']
  omega

theorem bytes_cons (w : Word) (words : List Word) :
    bytes (w :: words) = w.high :: w.nn :: bytes words := rfl

theorem length_bytes (words : List Word) : (bytes words).length = 2 * words.length := by
  induction words with
  | nil => rfl
  | cons w words ih =>
    rw [bytes_cons, List.length_cons, List.length_cons, ih, List.length_cons]
    rfl

theorem getElem?_bytes (words : List Word) (k : Nat) :
    (bytes words)[2 * k]? = words[k]?.map high ∧ (bytes words)[2 * k + 1]? = words[k]?.map nn := by
  induction words generalizing k with
  | nil => exact ⟨rfl, rfl⟩
  | cons w words ih =>
    cases k with
    | zero => exact ⟨rfl, rfl⟩
    | succ k => exact ih k

end Word

namespace Memory

/-- A load of the program succeeds and writes to the cell. -/
def CoveredBy (c : Fin 4096) (program : Array Byte) : Prop :=
  program.size ≤ programRoom ∧ programStart ≤ c.val ∧ c.val < programStart + program.size

instance (c : Fin 4096) (program : Array Byte) : Decidable (CoveredBy c program) :=
  inferInstanceAs (Decidable (_ ∧ _))

end Memory

namespace Machine

variable {m : Machine} {program : Array Byte}

/-- The program is put into the cells from 0x200 on, and nothing else changes. -/
structure Loads (m : Machine) (program : Array Byte) (m' : Machine) : Prop where
  loaded : ∀ (i : Nat) (b : Byte) (a : Word), program[i]? = some b → a.cell.val = 0x200 + i →
    m'.memory.read a = b
  others : ∀ a : Word, a.cell.val < 0x200 ∨ 0x200 + program.size ≤ a.cell.val →
    m'.memory.read a = m.memory.read a
  frame : m' = { m with memory := m'.memory }

theorem load_of_le (h : program.size ≤ Memory.programRoom) :
    (m.load program).result = .ok () ∧ m.Loads program (m.load program).machine := by
  obtain ⟨memory, hmemory⟩ := m.memory.exists_load h
  rw [load, hmemory]
  refine ⟨rfl, ?_⟩
  constructor
  case loaded =>
    intro i b a hb ha
    have hat : a.cell.val - Memory.programStart = i := Nat.sub_eq_of_eq_add' ha
    show memory.read a = b
    rw [Memory.read_load hmemory, if_pos (ha ▸ Nat.le_add_right _ i), hat, hb, Option.getD_some]
  case others =>
    intro a ha
    show memory.read a = m.memory.read a
    rw [Memory.read_load hmemory]
    split
    · have hpast : program.size ≤ a.cell.val - Memory.programStart := by
        simp only [Memory.programStart] at *
        omega
      rw [Array.getElem?_eq_none hpast, Option.getD_none]
    · rfl
  case frame => rfl

theorem load_of_lt (h : Memory.programRoom < program.size) :
    m.load program =
      { result := .error (.fault (.loadTooLarge program.size Memory.programRoom))
        machine := m } := by
  rw [load, m.memory.load_of_lt h]

theorem Loads.readWord {words : List Word} {m' : Machine}
    (h : m.Loads (Word.bytes words).toArray m') (hlength : words.length ≤ 1792) {k : Nat}
    {w : Word} (hk : words[k]? = some w) :
    m'.memory.readWord (UInt16.ofNat (0x200 + 2 * k)) = w := by
  obtain ⟨hlt, -⟩ := List.getElem?_eq_some_iff.mp hk
  obtain ⟨hhigh, hlow⟩ := Word.getElem?_bytes words k
  rw [hk] at hhigh hlow
  have hfirst : (Word.cell (UInt16.ofNat (0x200 + 2 * k))).val = 0x200 + 2 * k := by
    rw [Word.val_cell, UInt16.toNat_ofNat']
    omega
  have hsecond : (Word.cell (UInt16.ofNat (0x200 + 2 * k) + 1)).val = 0x200 + (2 * k + 1) := by
    simp only [Word.val_cell, UInt16.toNat_add, UInt16.toNat_ofNat', UInt16.reduceToNat]
    omega
  rw [Memory.readWord, h.loaded _ _ _ (List.getElem?_toArray.trans hhigh) hfirst,
    h.loaded _ _ _ (List.getElem?_toArray.trans hlow) hsecond, Word.ofBytes_high_nn]

theorem cell_perform_load (m : Machine) (program : Array Byte) (a : Word) :
    let cell := (m.perform (.load program)).machine.memory.read a
    (Memory.CoveredBy a.cell program → program[a.cell.val - 0x200]? = some cell) ∧
      (¬ Memory.CoveredBy a.cell program → cell = m.memory.read a) := by
  intro cell
  rcases Nat.lt_or_ge Memory.programRoom program.size with hroom | hroom
  · have hcell : cell = m.memory.read a := by
      show (m.load program).machine.memory.read a = _
      rw [load_of_lt hroom]
    exact ⟨fun h => absurd h.1 (Nat.not_le_of_lt hroom), fun _ => hcell⟩
  · obtain ⟨-, hloads⟩ := load_of_le (m := m) hroom
    refine ⟨?_, ?_⟩
    · rintro ⟨-, hstart, hend⟩
      simp only [Memory.programStart] at hstart hend
      have hlt : a.cell.val - 0x200 < program.size := by omega
      have hget := Array.getElem?_eq_getElem hlt
      rw [hget]
      exact congrArg some (hloads.loaded _ _ a hget (by omega)).symm
    · intro hnot
      apply hloads.others a
      by_contra hwithin
      exact hnot ⟨hroom, by simp only [Memory.programStart]; omega⟩

/-- The last load that covers a cell is the one that counts. -/
theorem cell_performAll_loads (m : Machine) (programs : List (Array Byte)) (a : Word) :
    let last? := programs.reverse.find? (Memory.CoveredBy a.cell ·)
    let cell := (m.performAll (programs.map .load)).memory.read a
    (∀ program, last? = some program → program[a.cell.val - 0x200]? = some cell) ∧
      (last? = none → cell = m.memory.read a) := by
  induction programs using List.reverseRecOn with
  | nil => exact ⟨by simp, fun _ => rfl⟩
  | append_singleton programs program ih =>
    intro last? cell
    obtain ⟨hcovered, hnot⟩ := (m.performAll (programs.map .load)).cell_perform_load program a
    rw [← performAll_concat, ← List.map_singleton, ← List.map_append] at hcovered hnot
    by_cases hc : Memory.CoveredBy a.cell program
    · have hlast : last? = some program := by simp [last?, hc]
      rw [hlast]
      refine ⟨?_, by simp⟩
      rintro _ ⟨⟩
      exact hcovered hc
    · have hlast : last? = programs.reverse.find? (Memory.CoveredBy a.cell ·) := by
        simp [last?, hc]
      have hcell : cell = (m.performAll (programs.map .load)).memory.read a := hnot hc
      rw [hlast, hcell]
      exact ih

/-- Loading, whatever the machine. A program of at most 3584 bytes is put into the program area, and
a larger one is refused and changes nothing. So the words of a program are what is fetched later,
and after several loads a cell holds what the last one that covers it has put there. -/
theorem load_exactly (m : Machine) :
    (∀ program : Array Byte,
      let done := m.load program
      (done.result = .ok () ↔ program.size ≤ 3584) ∧
      (done.result = .ok () → m.Loads program done.machine) ∧
      ∀ stop, done.result = .error stop →
        stop = .fault (.loadTooLarge program.size 3584) ∧ done.machine = m) ∧
    (∀ words : List Word, words.length ≤ 1792 →
      let done := m.load (Word.bytes words).toArray
      done.result = .ok () ∧ ∀ k w, words[k]? = some w →
        done.machine.memory.readWord (UInt16.ofNat (0x200 + 2 * k)) = w) ∧
    ∀ (programs : List (Array Byte)) (a : Word),
      let last? := programs.reverse.find? (Memory.CoveredBy a.cell ·)
      let cell := (m.performAll (programs.map .load)).memory.read a
      (∀ program, last? = some program → program[a.cell.val - 0x200]? = some cell) ∧
        (last? = none → cell = m.memory.read a) := by
  refine ⟨?_, ?_, m.cell_performAll_loads⟩
  · intro program done
    rcases Nat.lt_or_ge Memory.programRoom program.size with hroom | hroom
    · have hdone : done = _ := load_of_lt hroom
      have hnot : ¬ program.size ≤ 3584 := Nat.not_le_of_lt hroom
      rw [hdone]
      refine ⟨iff_of_false (by simp) hnot, by simp, ?_⟩
      rintro _ ⟨⟩
      exact ⟨rfl, rfl⟩
    · obtain ⟨hresult, hloads⟩ := load_of_le (m := m) hroom
      refine ⟨iff_of_true hresult hroom, fun _ => hloads, ?_⟩
      intro stop hstop
      cases hresult.symm.trans hstop
  · intro words hlength
    have hsize : (Word.bytes words).toArray.size ≤ Memory.programRoom := by
      rw [List.size_toArray, Word.length_bytes]
      exact Nat.mul_le_mul_left 2 hlength
    obtain ⟨hresult, hloads⟩ := load_of_le (m := m) hsize
    exact ⟨hresult, fun k w hk => hloads.readWord hlength hk⟩

/-- A shorter program leaves the tail of the one before it, and one that is too large leaves all. -/
theorem load_exactly_over_tail :
    let m := fresh {} (.ofSeed 8)
    let words : List Word := [0x1234, 0x5678]
    let programs : List (Array Byte) := [#[0x12, 0x34, 0x56], #[0xAB], Array.replicate 3585 0]
    let loaded := m.performAll (programs.map .load)
    words.length ≤ 1792 ∧
      (m.load (Word.bytes words).toArray).machine.memory.readWord 0x202 = 0x5678 ∧
      loaded.memory.read 0x200 = 0xAB ∧ loaded.memory.read 0x202 = 0x56 := by
  intro m words programs loaded
  obtain ⟨-, hwords, hlast⟩ := m.load_exactly
  have hlength : words.length ≤ 1792 := by decide
  have hfirst := (hlast programs 0x200).1 #[0xAB] (by
    simp [programs, Memory.CoveredBy, Memory.programRoom, Memory.programStart, Word.val_cell])
  have hthird := (hlast programs 0x202).1 #[0x12, 0x34, 0x56] (by
    simp [programs, Memory.CoveredBy, Memory.programRoom, Memory.programStart, Word.val_cell])
  -- what the loads leave is not to be computed
  clear_value programs
  refine ⟨hlength, (hwords words hlength).2 1 0x5678 rfl, ?_, ?_⟩
  · have hget : (#[0xAB] : Array Byte)[(Word.cell 0x200).val - 0x200]? = some 0xAB := by decide
    exact (Option.some.inj (hget.symm.trans hfirst)).symm
  · have hget : (#[0x12, 0x34, 0x56] : Array Byte)[(Word.cell 0x202).val - 0x200]? = some 0x56 := by
      decide
    exact (Option.some.inj (hget.symm.trans hthird)).symm

end Machine

end Chip8
