/-!
The source of random values: an endless stream of 32-bit values and the number of those taken.
-/

namespace Chip8

structure RandomSource where
  value : Nat → UInt32
  taken : Nat := 0

namespace RandomSource

def next (s : RandomSource) : UInt8 × RandomSource :=
  (UInt8.ofNat (s.value s.taken).toNat, { s with taken := s.taken + 1 })

def cycle (values : Array UInt32) : RandomSource :=
  { value := fun k => values[k % values.size]?.getD 0 }

/-- A stream scattered from a seed, value by value. This generator is the library's own. The
command line draws from it, and so do the concrete runs among the proofs; what is proved of all
runs holds for every source. -/
def ofSeed (seed : Nat) : RandomSource where
  value k :=
    let z : UInt64 := UInt64.ofNat seed + UInt64.ofNat (k + 1) * 0x9E3779B97F4A7C15
    let z := (z ^^^ (z >>> 30)) * 0xBF58476D1CE4E5B9
    let z := (z ^^^ (z >>> 27)) * 0x94D049BB133111EB
    (z ^^^ (z >>> 31)).toUInt32

/-- The values still to come, as a source from which none is taken. -/
def rest (s : RandomSource) : RandomSource := { value := fun k => s.value (s.taken + k) }

theorem rest_rest (s : RandomSource) : s.rest.rest = s.rest := by simp [rest]

theorem value_of_rest_eq {s t : RandomSource} (h : s.rest = t.rest) (k : Nat) :
    s.value (s.taken + k) = t.value (t.taken + k) :=
  congrFun (congrArg value h) k

theorem next_of_rest_eq {s t : RandomSource} (h : s.rest = t.rest) : s.next.1 = t.next.1 := by
  have h0 : s.value s.taken = t.value t.taken := value_of_rest_eq h 0
  rw [next, next, h0]

/-- Sources with the same values to come have the same to come after `n` of them. -/
theorem rest_of_rest_eq {s t : RandomSource} (h : s.rest = t.rest) (n : Nat) :
    ({ s with taken := s.taken + n } : RandomSource).rest =
      ({ t with taken := t.taken + n } : RandomSource).rest := by
  rw [rest, rest]
  congr 1
  funext k
  show s.value (s.taken + n + k) = t.value (t.taken + n + k)
  rw [Nat.add_assoc, Nat.add_assoc]
  exact value_of_rest_eq h (n + k)

end RandomSource

end Chip8
