import Chip8.Fault

/-!
The sixteen-key pad. It knows which keys are held, and it latches each key that goes down until
the press is taken or discarded, so that a tap between two looks at the pad is not lost. The
latches are the bits of one word, and a take looks for the lowest bit that is set
(`takePress_eq_some_iff`).
-/

namespace Chip8

structure Keypad where
  held : Vector Bool 16 := Vector.replicate 16 false
  /-- Bit `k` is set while key `k` has a press that is neither taken nor discarded. -/
  latched : Word := 0
deriving DecidableEq, Repr

namespace Keypad

def key? (k : Byte) : Except Fault (Fin 16) :=
  if h : k.toNat < 16 then .ok ⟨k.toNat, h⟩ else .error (.invalidKey k)

def bit (k : Fin 16) : Word := 1 <<< UInt16.ofNat k.val

/-- Puts a key down. Only a key that was up counts as a new press. -/
def down (p : Keypad) (k : Fin 16) : Keypad :=
  { held := p.held.set k.val true k.isLt
    latched := if p.held[k] then p.latched else p.latched ||| bit k }

/-- Lets a key up; its latched press stays. -/
def up (p : Keypad) (k : Fin 16) : Keypad := { p with held := p.held.set k.val false k.isLt }

def press (p : Keypad) (k : Byte) : Except Fault Keypad := (key? k).map p.down

def release (p : Keypad) (k : Byte) : Except Fault Keypad := (key? k).map p.up

/-- A number that is no key reads as a key that is up. -/
def isPressed (p : Keypad) (k : Byte) : Bool := p.held[k.toNat]?.getD false

def discardPresses (p : Keypad) : Keypad := { p with latched := 0 }

def unlatch (p : Keypad) (k : Fin 16) : Keypad := { p with latched := p.latched &&& ~~~bit k }

theorem ctz_lt {mask : Word} (h : mask ≠ 0) : mask.toBitVec.ctz.toNat < 16 :=
  BitVec.lt_def.mp (BitVec.ctz_lt_iff_ne_zero.mpr fun h0 => h (UInt16.toBitVec_inj.mp h0))

/-- The key of the lowest bit that is set: as many zeros are behind it. -/
def lowest? (mask : Word) : Option (Fin 16) :=
  if h : mask = 0 then none else some ⟨mask.toBitVec.ctz.toNat, ctz_lt h⟩

def takePress (p : Keypad) : Option (Fin 16 × Keypad) :=
  (lowest? p.latched).map fun k => (k, p.unlatch k)

theorem key?_eq_ok_iff {k : Byte} {key : Fin 16} : key? k = .ok key ↔ k.toNat = key.val := by
  unfold key?
  split
  · simp [Fin.ext_iff]
  · have := key.isLt
    simp
    omega

theorem toNat_ofNat_key (k : Fin 16) : (UInt8.ofNat k.val).toNat = k.val :=
  UInt8.toNat_ofNat_of_lt' (Nat.lt_trans k.isLt (by decide))

theorem ofNat_key_inj {j k : Fin 16} : UInt8.ofNat j.val = UInt8.ofNat k.val ↔ j = k := by
  rw [← UInt8.toNat_inj, toNat_ofNat_key, toNat_ofNat_key, Fin.ext_iff]

/-- A byte is the number of a key, or it is too large for one. -/
theorem eq_ofNat_key_or_le (b : Byte) : (∃ k : Fin 16, b = UInt8.ofNat k.val) ∨ 16 ≤ b.toNat := by
  by_cases h : b.toNat < 16
  · exact .inl ⟨⟨b.toNat, h⟩, by simp⟩
  · exact .inr (Nat.le_of_not_lt h)

theorem ne_ofNat_key_of_le {b : Byte} (h : 16 ≤ b.toNat) (k : Fin 16) : b ≠ UInt8.ofNat k.val := by
  rintro rfl
  rw [toNat_ofNat_key] at h
  omega

theorem key?_ofNat (k : Fin 16) : key? (UInt8.ofNat k.val) = .ok k :=
  key?_eq_ok_iff.mpr (toNat_ofNat_key k)

theorem key?_of_le {b : Byte} (h : 16 ≤ b.toNat) : key? b = .error (.invalidKey b) :=
  dif_neg (Nat.not_lt_of_le h)

def Held (p : Keypad) (k : Fin 16) : Prop := p.held[k] = true

/-- The key has a press that is neither taken nor discarded. -/
def Latched (p : Keypad) (k : Fin 16) : Prop := p.latched.toBitVec[k.val] = true

instance (p : Keypad) (k : Fin 16) : Decidable (p.Latched k) :=
  inferInstanceAs (Decidable (_ = true))

theorem not_held_empty (k : Fin 16) : ¬ ({} : Keypad).Held k := by simp [Held]

theorem not_latched_empty (k : Fin 16) : ¬ ({} : Keypad).Latched k := by simp [Latched]

theorem not_latched_discardPresses (p : Keypad) (k : Fin 16) : ¬ p.discardPresses.Latched k := by
  simp [Latched, discardPresses]

theorem held_down_iff {p : Keypad} {k j : Fin 16} : (p.down k).Held j ↔ k = j ∨ p.Held j := by
  simp [Held, down, Vector.getElem_set, Fin.ext_iff]

theorem getElem_bit (k j : Fin 16) : (bit k).toBitVec[j.val] = decide (k = j) := by
  have hshift : ((UInt16.ofNat k.val).toBitVec % 16).toNat = k.val := by simp
  have hbit : (bit k).toBitVec = BitVec.twoPow 16 k.val := by
    rw [bit, UInt16.toBitVec_shiftLeft, BitVec.shiftLeft_eq', hshift, BitVec.twoPow]
    rfl
  simp [hbit, BitVec.getElem_twoPow, Fin.ext_iff, eq_comm]

theorem latched_down_iff {p : Keypad} {k j : Fin 16} :
    (p.down k).Latched j ↔ p.Latched j ∨ (k = j ∧ ¬ p.Held j) := by
  by_cases hheld : p.held[k] = true
  · have hnew : ¬ (k = j ∧ ¬ p.Held j) := by
      rintro ⟨rfl, hup⟩
      exact hup hheld
    simp [Latched, down, hheld, hnew]
  · have hnew : k = j ∧ ¬ p.Held j ↔ k = j := by
      refine and_iff_left_of_imp ?_
      rintro rfl
      exact hheld
    simp [Latched, down, hheld, hnew, getElem_bit]

theorem held_up_iff {p : Keypad} {k j : Fin 16} : (p.up k).Held j ↔ k ≠ j ∧ p.Held j := by
  simp [Held, up, Vector.getElem_set, Fin.ext_iff]

theorem latched_up_iff {p : Keypad} {k j : Fin 16} : (p.up k).Latched j ↔ p.Latched j := Iff.rfl

theorem lowest?_eq_some_iff {mask : Word} {k : Fin 16} :
    lowest? mask = some k ↔
      mask.toBitVec[k.val] = true ∧ ∀ j < k, mask.toBitVec[j.val] = false := by
  simp only [← BitVec.getLsbD_eq_getElem]
  unfold lowest?
  split
  · rename_i h
    simp [h]
  · rename_i h
    have hset := BitVec.getLsbD_true_ctz_of_ne_zero fun h0 => h (UInt16.toBitVec_inj.mp h0)
    rw [Option.some.injEq]
    constructor
    · rintro rfl
      exact ⟨hset, fun j hj => BitVec.getLsbD_false_of_lt_ctz hj⟩
    · rintro ⟨hk, hbelow⟩
      rcases Nat.lt_trichotomy mask.toBitVec.ctz.toNat k.val with hlt | heq | hgt
      · rw [hbelow ⟨_, ctz_lt h⟩ hlt] at hset
        cases hset
      · exact Fin.ext heq
      · rw [BitVec.getLsbD_false_of_lt_ctz hgt] at hk
        cases hk

theorem lowest?_eq_none_iff {mask : Word} :
    lowest? mask = none ↔ ∀ k : Fin 16, mask.toBitVec[k.val] = false := by
  constructor
  · intro h k
    unfold lowest? at h
    split at h
    · rename_i hzero
      simp [hzero]
    · cases h
  · intro h
    cases hk : lowest? mask with
    | none => rfl
    | some k =>
      have hset := (lowest?_eq_some_iff.mp hk).1
      rw [h k] at hset
      cases hset

theorem takePress_eq_none_iff {p : Keypad} : p.takePress = none ↔ ∀ k, ¬ p.Latched k := by
  simp [takePress, Latched, lowest?_eq_none_iff]

/-- Takes are from the lowest key up, one at a time. -/
theorem takePress_eq_some_iff {p q : Keypad} {k : Fin 16} :
    p.takePress = some (k, q) ↔ p.Latched k ∧ (∀ j < k, ¬ p.Latched j) ∧ q = p.unlatch k := by
  simp only [takePress, Option.map_eq_some_iff, lowest?_eq_some_iff, Latched, Bool.not_eq_true,
    Prod.mk.injEq]
  constructor
  · rintro ⟨j, ⟨hset, hlow⟩, rfl, rfl⟩
    exact ⟨hset, hlow, rfl⟩
  · rintro ⟨hset, hlow, rfl⟩
    exact ⟨k, ⟨hset, hlow⟩, rfl, rfl⟩

theorem latched_unlatch_iff {p : Keypad} {k j : Fin 16} :
    (p.unlatch k).Latched j ↔ k ≠ j ∧ p.Latched j := by
  simp [Latched, unlatch, getElem_bit, and_comm]

/-- A take removes one latch. -/
theorem latched_iff_of_takePress {p q : Keypad} {k j : Fin 16} (h : p.takePress = some (k, q)) :
    q.Latched j ↔ k ≠ j ∧ p.Latched j := by
  obtain ⟨-, -, rfl⟩ := takePress_eq_some_iff.mp h
  exact latched_unlatch_iff

theorem held_of_takePress {p q : Keypad} {k : Fin 16} (h : p.takePress = some (k, q)) :
    q.held = p.held := by
  obtain ⟨-, -, rfl⟩ := takePress_eq_some_iff.mp h
  rfl

end Keypad

end Chip8
