import Chip8.Memory

/-!
The register file: V0 to VF, the index register I, the program counter and the two timers, which
count down to zero once per tick.
-/

namespace Chip8

structure Registers where
  v : Vector Byte 16 := Vector.replicate 16 0
  index : Word := 0
  pc : Word := UInt16.ofNat Memory.programStart
  delay : Byte := 0
  sound : Byte := 0
deriving DecidableEq, Repr

/-- The tone starts when the sound timer leaves zero and stops when it comes back to it. -/
inductive SoundEdge
  | on
  | off
deriving DecidableEq, Repr

def SoundEdge.name : SoundEdge → String
  | on => "On"
  | off => "Off"

def SoundEdge.between (before after : Byte) : Option SoundEdge :=
  if before = 0 ∧ after ≠ 0 then some .on
  else if before ≠ 0 ∧ after = 0 then some .off
  else none

namespace Registers

def flag : Fin 16 := 15

def get (r : Registers) (x : Fin 16) : Byte := r.v.get x

def set (r : Registers) (x : Fin 16) (b : Byte) : Registers :=
  { r with v := r.v.setIfInBounds x.val b }

def setFlag (r : Registers) (b : Bool) : Registers := r.set flag (if b then 1 else 0)

/-- The flag is written after the result, so it is what remains if the result goes to VF too. -/
def setResult (r : Registers) (x : Fin 16) (value : Byte) : Option Bool → Registers
  | none => r.set x value
  | some flag => (r.set x value).setFlag flag

/-- Only twelve bits of the index register count. -/
def setIndex (r : Registers) (a : Word) : Registers := { r with index := a.nnn }

/-- Sets V0, V1, … in turn; bytes beyond VF are dropped. -/
def setAll (r : Registers) (bytes : List Byte) : Registers :=
  { r with v := Vector.ofFn fun x => bytes[x.val]?.getD (r.get x) }

/-- The timers tick sixty times a second, and so do the frames of a host. -/
def ticksPerSecond : Nat := 60

def countDown (timer : Byte) : Byte := if timer = 0 then 0 else timer - 1

def tick (r : Registers) : Registers × Option SoundEdge :=
  ({ r with delay := countDown r.delay, sound := countDown r.sound },
   SoundEdge.between r.sound (countDown r.sound))

@[simp] theorem get_set (r : Registers) (x y : Fin 16) (b : Byte) :
    (r.set x b).get y = if x = y then b else r.get y := by
  simp only [Fin.ext_iff]
  exact Vector.getElem_setIfInBounds y.isLt

theorem get_setFlag (r : Registers) (b : Bool) (x : Fin 16) :
    (r.setFlag b).get x = if flag = x then if b then 1 else 0 else r.get x :=
  r.get_set flag x _

theorem get_setResult_none (r : Registers) (x k : Fin 16) (value : Byte) :
    (r.setResult x value none).get k = if x = k then value else r.get k :=
  r.get_set x k value

theorem get_setResult_some (r : Registers) (x k : Fin 16) (value : Byte) (b : Bool) :
    (r.setResult x value (some b)).get k =
      if flag = k then if b then 1 else 0 else if x = k then value else r.get k := by
  rw [setResult, get_setFlag, get_set]

theorem get_withPc (r : Registers) (pc : Word) (x : Fin 16) :
    ({ r with pc := pc } : Registers).get x = r.get x := rfl

theorem get_setAll (r : Registers) (bytes : List Byte) (x : Fin 16) :
    (r.setAll bytes).get x = bytes[x.val]?.getD (r.get x) :=
  Vector.getElem_ofFn x.isLt

-- by its equation: compared as they stand, the two sides set all the registers first
theorem index_setAll (r : Registers) (bytes : List Byte) : (r.setAll bytes).index = r.index := by
  rw [setAll]

theorem ext_get {r s : Registers} (h : ∀ x, r.get x = s.get x) (hrest : { r with v := s.v } = s) :
    r = s := by
  have hv : r.v = s.v := Vector.ext fun k hk => h ⟨k, hk⟩
  rw [← hrest, ← hv]

theorem setAll_nil (r : Registers) : r.setAll [] = r :=
  ext_get (fun x => r.get_setAll [] x) (by rw [setAll])

/-- One byte more is one register more. -/
theorem setAll_concat (r : Registers) {bytes : List Byte} {x : Fin 16} (hx : bytes.length = x.val)
    (b : Byte) : r.setAll (bytes ++ [b]) = (r.setAll bytes).set x b := by
  refine ext_get (fun k => ?_) (by rw [setAll, setAll, set])
  rw [get_setAll, get_set, get_setAll, List.getElem?_append, hx]
  rcases Nat.lt_trichotomy k.val x.val with h | h | h
  · simp [h, Fin.ne_of_gt h]
  · simp [Fin.ext h]
  · have hpast : k.val - x.val ≠ 0 := Nat.sub_ne_zero_of_lt h
    have hout : bytes[k.val]? = none := List.getElem?_eq_none (by omega)
    simp [Nat.not_lt_of_lt h, Fin.ne_of_lt h, hpast, hout]

theorem toNat_countDown (t : Byte) : (countDown t).toNat = t.toNat - 1 := by
  unfold countDown
  split
  · subst_vars; rfl
  · rename_i h
    have h0 : t.toNat ≠ 0 := fun h0 => h (UInt8.toNat_inj.mp h0)
    have := t.toNat_lt
    simp only [UInt8.toNat_sub, UInt8.reduceToNat]
    omega

end Registers

end Chip8
