import Chip8.Fault
import Chip8.Font

/-!
Main memory: 4096 bytes, with the font in the reserved low part and room for programs from 0x200
on. The machine addresses it modulo 4096 and cannot overwrite the font. Main statements:
`read_write`, a write changes the one cell it names unless the font is there, and `read_load`,
a program that fits lands unchanged from 0x200 on.
-/

namespace Chip8

structure Memory where
  cells : Vector Byte 4096
deriving DecidableEq

namespace Memory

def programStart : Nat := 0x200

def programRoom : Nat := 4096 - programStart

/-- The largest number a host address can be; the end of a region does not go past it. -/
def hostLimit : Nat := UInt64.size - 1

def blank : Memory := ⟨Vector.ofFn fun k => Font.byteAt k.val⟩

def read (m : Memory) (a : Word) : Byte := m.cells[a.cell]

/-- Stores one byte; the font is protected, and a write to it changes nothing. -/
def write (m : Memory) (a : Word) (b : Byte) : Memory :=
  if Font.Covers a.cell.val then m else ⟨m.cells.set a.cell.val b a.cell.isLt⟩

def readWord (m : Memory) (a : Word) : Word := Word.ofBytes (m.read a) (m.read (a + 1))

def block (m : Memory) (a : Word) : Nat → List Byte
  | 0 => []
  | n + 1 => m.read a :: m.block (a.advance 1) n

def store (m : Memory) (a : Word) : List Byte → Memory
  | [] => m
  | b :: bs => (m.write a b).store (a.advance 1) bs

/-- Copies a program image to the program area and leaves the cells after it as they are. -/
def load (m : Memory) (program : Array Byte) : Except Fault Memory :=
  if program.size ≤ programRoom then
    .ok ⟨Vector.ofFn fun k =>
      if programStart ≤ k.val then program[k.val - programStart]?.getD m.cells[k]
      else m.cells[k]⟩
  else .error (.loadTooLarge program.size programRoom)

/-- A view of consecutive cells. It does not wrap round: a region past the last cell is refused. -/
def region (m : Memory) (start : Word) (size : Nat) : Except Fault (List Byte) :=
  let stop := min (start.toNat + size) hostLimit
  if 4096 < stop then .error (.memoryOutOfRange (stop - 1))
  else .ok ((m.cells.toList.drop start.toNat).take size)

theorem read_ofNat (m : Memory) (c : Fin 4096) : m.read (UInt16.ofNat c.val) = m.cells[c] := by
  simp only [read, Word.cell_ofNat]

theorem ext_read {m n : Memory} (h : ∀ a : Word, m.read a = n.read a) : m = n := by
  obtain ⟨c⟩ := m
  obtain ⟨d⟩ := n
  congr 1
  apply Vector.ext
  intro k hk
  have hcell := h (UInt16.ofNat k)
  rw [read_ofNat _ ⟨k, hk⟩, read_ofNat _ ⟨k, hk⟩] at hcell
  exact hcell

theorem read_write (m : Memory) (a b : Word) (v : Byte) :
    (m.write a v).read b =
      if a.cell = b.cell ∧ ¬ Font.Covers b.cell.val then v else m.read b := by
  simp only [read, write]
  by_cases hc : a.cell = b.cell
  · by_cases hf : Font.Covers b.cell.val <;> simp [hc, hf]
  · have hne : a.cell.val ≠ b.cell.val := fun h => hc (Fin.ext h)
    split
    · simp [hc]
    · simp [hc, hne]

theorem read_blank (a : Word) : blank.read a = Font.byteAt a.cell.val := by
  simp [read, blank]

theorem read_congr (m : Memory) {a b : Word} (h : a.cell = b.cell) : m.read a = m.read b := by
  simp only [read, h]

theorem write_congr (m : Memory) {a b : Word} (h : a.cell = b.cell) (v : Byte) :
    m.write a v = m.write b v := by
  simp only [write, h]

/-- A store of one byte more. -/
theorem store_concat (m : Memory) (a : Word) (bytes : List Byte) (b : Byte) :
    m.store a (bytes ++ [b]) =
      (m.store a bytes).write (a.advance (UInt16.ofNat bytes.length)) b := by
  induction bytes generalizing m a with
  | nil => exact m.write_congr a.cell_advance_zero.symm b
  | cons c bytes ih =>
    rw [List.cons_append, store, ih, store]
    exact write_congr _ (a.cell_advance_one_advance bytes.length) b

theorem length_block (m : Memory) (a : Word) (n : Nat) : (m.block a n).length = n := by
  induction n generalizing a with
  | zero => rfl
  | succ n ih => simp [block, ih]

/-- A block of one byte more. -/
theorem block_succ (m : Memory) (a : Word) (n : Nat) :
    m.block a (n + 1) = m.block a n ++ [m.read (a.advance (UInt16.ofNat n))] := by
  induction n generalizing a with
  | zero => exact congrArg (fun b => [b]) (m.read_congr a.cell_advance_zero.symm)
  | succ n ih =>
    rw [block, ih, block, m.read_congr (a.cell_advance_one_advance n)]
    rfl

/-- A block is read cell by cell, round the end of memory. -/
theorem getElem?_block (m : Memory) (a : Word) (n k : Nat) :
    (m.block a n)[k]? = if k < n then some (m.read (a.advance (UInt16.ofNat k))) else none := by
  induction n generalizing a k with
  | zero => rfl
  | succ n ih =>
    cases k with
    | zero => simp [block, m.read_congr a.cell_advance_zero]
    | succ k => simp [block, ih, m.read_congr (a.cell_advance_one_advance k)]

theorem size_le_of_load {m m' : Memory} {p : Array Byte} (h : m.load p = .ok m') :
    p.size ≤ programRoom := by
  unfold load at h
  split at h
  · assumption
  · exact nomatch h

theorem exists_load (m : Memory) {p : Array Byte} (h : p.size ≤ programRoom) :
    ∃ m', m.load p = .ok m' :=
  ⟨_, if_pos h⟩

theorem load_of_lt (m : Memory) {p : Array Byte} (h : programRoom < p.size) :
    m.load p = .error (.loadTooLarge p.size programRoom) :=
  if_neg (Nat.not_le_of_lt h)

theorem read_load {m m' : Memory} {p : Array Byte} (h : m.load p = .ok m') (a : Word) :
    m'.read a =
      if programStart ≤ a.cell.val then p[a.cell.val - programStart]?.getD (m.read a)
      else m.read a := by
  unfold load at h
  split at h
  · injection h with h
    subst h
    simp [read]
  · exact nomatch h

end Memory

end Chip8
