import Chip8.Memory
import Mathlib.Algebra.Group.Nat.Defs

/-!
The host's view of memory: a run of cells, which must end where memory ends. Where it is given, it
shows what the machine reads there. Main statement: `region_exactly`, in which the view is also
computed with 64-bit numbers, as a host has them (`hostRegion?`).
-/

namespace Chip8.Memory

def hostAdd? (a b : UInt64) : Option UInt64 :=
  if a.toNat + b.toNat ≤ hostLimit then some (a + b) else none

def hostSub? (a b : UInt64) : Option UInt64 := if b ≤ a then some (a - b) else none

def slice? (m : Memory) (start stop : UInt64) : Option (List Byte) :=
  if start ≤ stop ∧ stop ≤ 4096 then
    some ((m.cells.toList.drop start.toNat).take (stop.toNat - start.toNat))
  else none

/-- The view, in host numbers. There is none if a difference is negative or bounds are not in
order. -/
def hostRegion? (m : Memory) (start : Word) (size : UInt64) : Option (Except Fault (List Byte)) :=
  let stop := (hostAdd? start.toUInt64 size).getD (UInt64.ofNat hostLimit)
  if 4096 < stop then (hostSub? stop 1).map fun last => .error (.memoryOutOfRange last.toNat)
  else (m.slice? start.toUInt64 stop).map .ok

variable {m : Memory} {start : Word} {n : Nat}

/-- Within memory no address is cut down, so that a read is a look at the cell. -/
theorem take_drop_cells (m : Memory) (h : start.toNat + n ≤ 4096) :
    (m.cells.toList.drop start.toNat).take n =
      List.ofFn fun i : Fin n => m.read (start + UInt16.ofNat i.val) := by
  apply List.ext_getElem
  · simp
    omega
  · intro i hi hn
    have hlt : i < n := by simpa using hn
    have hcell : (start + UInt16.ofNat i).cell.val = start.toNat + i := by
      rw [Word.val_cell, UInt16.toNat_add, UInt16.toNat_ofNat']
      omega
    simp only [List.getElem_take, List.getElem_drop, List.getElem_ofFn, Vector.getElem_toList, read,
      Fin.getElem_fin, hcell]

theorem region_of_le (m : Memory) (h : start.toNat + n ≤ 4096) :
    m.region start n = .ok (List.ofFn fun i : Fin n => m.read (start + UInt16.ofNat i.val)) := by
  have hstop : ¬ 4096 < min (start.toNat + n) hostLimit := by omega
  rw [region, if_neg hstop, take_drop_cells m h]

theorem region_of_lt (m : Memory) (h : 4096 < start.toNat + n) :
    m.region start n = .error (.memoryOutOfRange (min (start.toNat + n) hostLimit - 1)) := by
  have hlimit : 4096 < hostLimit := by decide
  rw [region, if_pos (Nat.lt_min.mpr ⟨h, hlimit⟩)]

theorem toNat_hostStop (start : Word) (size : UInt64) :
    ((hostAdd? start.toUInt64 size).getD (UInt64.ofNat hostLimit)).toNat =
      min (start.toNat + size.toNat) hostLimit := by
  have hlimit : hostLimit = 2 ^ 64 - 1 := rfl
  rw [hostAdd?, UInt16.toNat_toUInt64]
  split
  · rw [Option.getD_some, UInt64.toNat_add, UInt16.toNat_toUInt64]
    omega
  · rw [Option.getD_none, UInt64.toNat_ofNat']
    omega

theorem hostRegion?_eq (m : Memory) (start : Word) (size : UInt64) :
    m.hostRegion? start size = some (m.region start size.toNat) := by
  have hstop := toNat_hostStop start size
  have hlimit : hostLimit = 2 ^ 64 - 1 := rfl
  rw [hostRegion?]
  generalize (hostAdd? start.toUInt64 size).getD (UInt64.ofNat hostLimit) = stop at hstop ⊢
  by_cases h : 4096 < stop
  · have hlt : 4096 < stop.toNat := UInt64.lt_iff_toNat_lt.mp h
    have hone : (1 : UInt64) ≤ stop :=
      UInt64.le_iff_toNat_le.mpr (Nat.le_of_lt (Nat.lt_trans (by decide) hlt))
    rw [if_pos h, hostSub?, if_pos hone, region_of_lt m (by omega), Option.map_some,
      UInt64.toNat_sub_of_le _ _ hone, hstop]
    rfl
  · have hle : stop.toNat ≤ 4096 := Nat.le_of_not_lt fun hlt => h (UInt64.lt_iff_toNat_lt.mpr hlt)
    have hsum : stop.toNat = start.toNat + size.toNat := by omega
    have hbounds : start.toUInt64 ≤ stop ∧ stop ≤ 4096 := by
      rw [UInt64.le_iff_toNat_le, UInt64.le_iff_toNat_le, UInt16.toNat_toUInt64]
      exact ⟨by omega, hle⟩
    rw [if_neg h, slice?, if_pos hbounds, UInt16.toNat_toUInt64, hsum, Nat.add_sub_cancel_left,
      take_drop_cells m (by omega), region_of_le m (by omega), Option.map_some]

/-- A view is given if it ends within memory, and shows the bytes that reads give. Any other is
refused, with the address of its last cell, or of the last one that a host can count up to: in any
case one past the end of memory. To compute it in host numbers takes no negative difference and no
bounds out of order. -/
theorem region_exactly (m : Memory) (start : Word) (size : UInt64) :
    let reply := m.region start size.toNat
    let stop := start.toNat + size.toNat
    (∀ bytes, reply = .ok bytes ↔
      stop ≤ 4096 ∧
        bytes = List.ofFn fun i : Fin size.toNat => m.read (start + UInt16.ofNat i.val)) ∧
    (∀ fault, reply = .error fault ↔
      4096 < stop ∧ fault = .memoryOutOfRange (min stop (2 ^ 64 - 1) - 1)) ∧
    (4096 < stop → 4096 ≤ min stop (2 ^ 64 - 1) - 1) ∧
    m.hostRegion? start size = some reply := by
  intro reply stop
  have hlimit : hostLimit = 2 ^ 64 - 1 := rfl
  refine ⟨?_, ?_, by omega, hostRegion?_eq m start size⟩
  · intro bytes
    rcases Nat.lt_or_ge 4096 stop with hstop | hstop
    · simp [reply, region_of_lt m hstop, Nat.not_le_of_lt hstop]
    · simp [reply, region_of_le m hstop, hstop, eq_comm]
  · intro fault
    rcases Nat.lt_or_ge 4096 stop with hstop | hstop
    · simp only [reply, region_of_lt m hstop, hstop, hlimit, Except.error.injEq, true_and]
      exact eq_comm
    · simp [reply, region_of_le m hstop, Nat.not_lt_of_le hstop]

/-- A view that overruns the end, an empty one at the end and one past it, and the largest there
is. -/
theorem region_exactly_at_limits :
    4096 < (0x1001 : Word).toNat + (0 : UInt64).toNat ∧
      blank.region 0xFFC 8 = .error (.memoryOutOfRange 0x1003) ∧
      blank.region 0x1000 0 = .ok [] ∧
      blank.region 0x1001 0 = .error (.memoryOutOfRange 0x1000) ∧
      4096 ≤ min ((0x1001 : Word).toNat + (0 : UInt64).toNat) (2 ^ 64 - 1) - 1 ∧
      blank.region 0x200 hostLimit = .error (.memoryOutOfRange (hostLimit - 1)) := by
  have hpast : 4096 < (0x1001 : Word).toNat + (0 : UInt64).toNat := by decide
  obtain ⟨-, hover, -⟩ := region_exactly blank 0xFFC 8
  obtain ⟨hempty, -⟩ := region_exactly blank 0x1000 0
  obtain ⟨-, hnone, hlast, -⟩ := region_exactly blank 0x1001 0
  obtain ⟨-, hlargest, -⟩ := region_exactly blank 0x200 (UInt64.ofNat hostLimit)
  have hsize : (UInt64.ofNat hostLimit).toNat = hostLimit := by decide
  rw [hsize] at hlargest
  exact ⟨hpast, (hover _).mpr ⟨by decide, by decide⟩, (hempty _).mpr ⟨by decide, rfl⟩,
    (hnone _).mpr ⟨hpast, by decide⟩, hlast hpast, (hlargest _).mpr ⟨by decide, by decide⟩⟩

end Chip8.Memory
