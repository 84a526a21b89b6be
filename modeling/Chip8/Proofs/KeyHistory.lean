import Chip8.Proofs.History
import Mathlib.Data.Fintype.Card
import Mathlib.Data.List.Induction

/-!
The keypad against the calls made on it. Which keys are held, and which key a take gives, is told by
what the host has done: the last thing done to a key (`LastPressed`), and whether it has gone down
and that press is still there to be taken (`Fresh`). Main statement: `pad_of_history`.
-/

namespace Chip8

/-- Something began at a place in the list, and went on at every later place. -/
def Since {α : Type} (begins goesOn : List α → α → Prop) (past : List α) : Prop :=
  ∃ before a after, past = before ++ a :: after ∧ begins before a ∧
    ∀ init b rest, after = init ++ b :: rest → goesOn (before ++ a :: init) b

section Since

variable {α : Type} {begins goesOn : List α → α → Prop} {past : List α} {a : α}

theorem not_since_nil : ¬ Since begins goesOn [] := by
  rintro ⟨before, a, after, h, -⟩
  exact List.append_ne_nil_of_right_ne_nil before (List.cons_ne_nil a after) h.symm

theorem since_concat_iff :
    Since begins goesOn (past ++ [a]) ↔
      begins past a ∨ (Since begins goesOn past ∧ goesOn past a) := by
  constructor
  · rintro ⟨before, b, after, h, hb, hon⟩
    rcases split_concat_cases h with ⟨rfl, rfl, rfl⟩ | ⟨init, rfl, rfl⟩
    · exact .inl hb
    · refine .inr ⟨⟨before, b, init, rfl, hb, ?_⟩, hon init a [] rfl⟩
      rintro start c rest rfl
      exact hon start c (rest ++ [a]) (by simp)
  · rintro (hb | ⟨⟨before, b, after, rfl, hb, hon⟩, ha⟩)
    · exact ⟨past, a, [], rfl, hb, by simp⟩
    · refine ⟨before, b, after ++ [a], by simp, hb, ?_⟩
      intro init c rest h
      rcases split_concat_cases h with ⟨rfl, rfl, -⟩ | ⟨middle, rfl, -⟩
      · exact ha
      · exact hon init c middle rfl

end Since

namespace Keypad

inductive Call
  | press (key : Byte)
  | release (key : Byte)
  | clear
  | discardPresses
  | takePress
deriving DecidableEq, Repr

def taken? (p : Keypad) : Option (Fin 16) := p.takePress.map Prod.fst

def respond (p : Keypad) : Call → Except Fault (Option (Fin 16))
  | .press k => (p.press k).map fun _ => none
  | .release k => (p.release k).map fun _ => none
  | .clear | .discardPresses => .ok none
  | .takePress => .ok p.taken?

/-- The pad after a call; one that is refused leaves it as it was. -/
def after (p : Keypad) : Call → Keypad
  | .press k => (p.press k).toOption.getD p
  | .release k => (p.release k).toOption.getD p
  | .clear => {}
  | .discardPresses => p.discardPresses
  | .takePress => (p.takePress.map Prod.snd).getD p

def afterAll (p : Keypad) (calls : List Call) : Keypad := calls.foldl after p

def takes (p : Keypad) : List Call → List (Option (Fin 16))
  | [] => []
  | .takePress :: calls => p.taken? :: (p.after .takePress).takes calls
  | c :: calls => (p.after c).takes calls

/-- The last press or release of the key since the pad was last cleared was a press. -/
def LastPressed (key : Byte) : List Call → Prop :=
  Since (fun _ c => c = .press key) fun _ c => c ≠ .release key ∧ c ≠ .clear

/-- The key has gone from up to down, and since then the pad was not cleared, no presses were
discarded, and no take has given the key. -/
def Fresh (key : Fin 16) : List Call → Prop :=
  Since (fun past c => c = .press (UInt8.ofNat key.val) ∧ ¬ LastPressed (UInt8.ofNat key.val) past)
    fun past c => c ≠ .clear ∧ c ≠ .discardPresses ∧
      (c = .takePress → (({} : Keypad).afterAll past).taken? ≠ some key)

variable {p : Keypad} {c : Call} {calls : List Call} {key : Fin 16} {k : Byte}

theorem afterAll_concat (p : Keypad) (calls : List Call) (c : Call) :
    p.afterAll (calls ++ [c]) = (p.afterAll calls).after c := by
  simp [afterAll]

theorem after_press (p : Keypad) (key : Fin 16) :
    p.after (.press (UInt8.ofNat key.val)) = p.down key := by
  rw [after, press, key?_ofNat]
  rfl

theorem after_release (p : Keypad) (key : Fin 16) :
    p.after (.release (UInt8.ofNat key.val)) = p.up key := by
  rw [after, release, key?_ofNat]
  rfl

theorem after_press_of_le (p : Keypad) (h : 16 ≤ k.toNat) : p.after (.press k) = p := by
  rw [after, press, key?_of_le h]
  rfl

theorem after_release_of_le (p : Keypad) (h : 16 ≤ k.toNat) : p.after (.release k) = p := by
  rw [after, release, key?_of_le h]
  rfl

theorem key?_eq_error_iff {fault : Fault} :
    key? k = .error fault ↔ 15 < k.toNat ∧ fault = .invalidKey k := by
  unfold key?
  split
  · simp
    omega
  · simp [eq_comm]
    omega

/-- Only numbers that are no key are refused. -/
theorem respond_eq_error_iff {fault : Fault} :
    p.respond c = .error fault ↔
      ∃ k, 15 < k.toNat ∧ (c = .press k ∨ c = .release k) ∧ fault = .invalidKey k := by
  cases c with
  | press b =>
    rw [respond, press, map_eq_error_iff, map_eq_error_iff, key?_eq_error_iff]
    simp
  | release b =>
    rw [respond, release, map_eq_error_iff, map_eq_error_iff, key?_eq_error_iff]
    simp
  | clear | discardPresses | takePress => simp [respond]

theorem after_of_error {fault : Fault} (h : p.respond c = .error fault) : p.after c = p := by
  obtain ⟨k, hk, rfl | rfl, -⟩ := respond_eq_error_iff.mp h
  · exact p.after_press_of_le hk
  · exact p.after_release_of_le hk

theorem taken?_eq_some_iff :
    p.taken? = some key ↔ p.Latched key ∧ ∀ j < key, ¬ p.Latched j := by
  simp [taken?, takePress_eq_some_iff]

theorem taken?_eq_none_iff : p.taken? = none ↔ ∀ key, ¬ p.Latched key := by
  rw [taken?, Option.map_eq_none_iff, takePress_eq_none_iff]

theorem after_takePress_of_taken? (h : p.taken? = some key) :
    p.after .takePress = p.unlatch key := by
  obtain ⟨⟨k, q⟩, hp, rfl⟩ := Option.map_eq_some_iff.mp h
  rw [after, hp, (takePress_eq_some_iff.mp hp).2.2]
  rfl

theorem after_takePress_of_none (h : p.taken? = none) : p.after .takePress = p := by
  rw [after, Option.map_eq_none_iff.mp h]
  rfl

theorem held_after_iff :
    (p.after c).Held key ↔ c = .press (UInt8.ofNat key.val) ∨
      (p.Held key ∧ c ≠ .release (UInt8.ofNat key.val) ∧ c ≠ .clear) := by
  cases c with
  | press b =>
    rcases eq_ofNat_key_or_le b with ⟨k, rfl⟩ | hb
    · simp [after_press, held_down_iff, ofNat_key_inj]
    · simp [after_press_of_le p hb, ne_ofNat_key_of_le hb]
  | release b =>
    rcases eq_ofNat_key_or_le b with ⟨k, rfl⟩ | hb
    · simp [after_release, held_up_iff, ofNat_key_inj, and_comm]
    · simp [after_release_of_le p hb, ne_ofNat_key_of_le hb]
  | clear => simp [after, not_held_empty]
  | discardPresses => simp [after, discardPresses, Held]
  | takePress =>
    rcases ht : p.taken? with _ | k
    · simp [after_takePress_of_none ht]
    · simp [after_takePress_of_taken? ht, unlatch, Held]

theorem latched_after_iff :
    (p.after c).Latched key ↔ (c = .press (UInt8.ofNat key.val) ∧ ¬ p.Held key) ∨
      (p.Latched key ∧ c ≠ .clear ∧ c ≠ .discardPresses ∧
        (c = .takePress → p.taken? ≠ some key)) := by
  cases c with
  | press b =>
    rcases eq_ofNat_key_or_le b with ⟨k, rfl⟩ | hb
    · simp [after_press, latched_down_iff, ofNat_key_inj, or_comm]
    · simp [after_press_of_le p hb, ne_ofNat_key_of_le hb]
  | release b =>
    rcases eq_ofNat_key_or_le b with ⟨k, rfl⟩ | hb
    · simp [after_release, latched_up_iff]
    · simp [after_release_of_le p hb]
  | clear => simp [after, not_latched_empty]
  | discardPresses => simp [after, not_latched_discardPresses]
  | takePress =>
    rcases ht : p.taken? with _ | k
    · simp [after_takePress_of_none ht]
    · simp [after_takePress_of_taken? ht, latched_unlatch_iff, and_comm]

theorem held_afterAll_iff :
    (({} : Keypad).afterAll calls).Held key ↔ LastPressed (UInt8.ofNat key.val) calls := by
  induction calls using List.reverseRecOn with
  | nil => exact iff_of_false (not_held_empty key) not_since_nil
  | append_singleton calls c ih =>
    rw [afterAll_concat, held_after_iff, ih, LastPressed, since_concat_iff]

theorem latched_afterAll_iff : (({} : Keypad).afterAll calls).Latched key ↔ Fresh key calls := by
  induction calls using List.reverseRecOn with
  | nil => exact iff_of_false (not_latched_empty key) not_since_nil
  | append_singleton calls c ih =>
    rw [afterAll_concat, latched_after_iff, ih, held_afterAll_iff, Fresh, since_concat_iff]

theorem isPressed_ofNat : p.isPressed (UInt8.ofNat key.val) = true ↔ p.Held key := by
  rw [isPressed, toNat_ofNat_key, Vector.getElem?_eq_getElem key.isLt]
  rfl

theorem not_isPressed_of_le (h : 16 ≤ k.toNat) : ¬ p.isPressed k = true := by
  simp [isPressed, Vector.getElem?_eq_none h]

/-- As long as no key is pressed, the takes give keys from the lowest up and then no more. -/
theorem exists_takes_of_not_press (p : Keypad) (h : ∀ k, .press k ∉ calls) :
    ∃ (keys : List (Fin 16)) (n : Nat),
      p.takes calls = keys.map some ++ List.replicate n none ∧ keys.Pairwise (· < ·) ∧
        ∀ key ∈ keys, p.Latched key := by
  induction calls generalizing p with
  | nil => exact ⟨[], 0, rfl, .nil, nofun⟩
  | cons c calls ih =>
    have hc : ∀ k, c ≠ .press k := fun k hk => h k (hk ▸ List.mem_cons_self)
    obtain ⟨keys, n, htakes, hsorted, hlatched⟩ :=
      ih (p.after c) fun k hk => h k (List.mem_cons_of_mem c hk)
    have hold : ∀ key ∈ keys, p.Latched key ∧ (c = .takePress → p.taken? ≠ some key) := by
      intro key hkey
      rcases latched_after_iff.mp (hlatched key hkey) with ⟨hpress, -⟩ | ⟨hl, -, -, ht⟩
      · exact absurd hpress (hc _)
      · exact ⟨hl, ht⟩
    by_cases ht : c = .takePress
    · subst ht
      rcases hk : p.taken? with _ | key
      · -- nothing is latched, so the later takes give nothing either
        have hnil : keys = [] := by
          refine List.eq_nil_iff_forall_not_mem.mpr fun key hkey => ?_
          exact taken?_eq_none_iff.mp hk key (hold key hkey).1
        subst hnil
        exact ⟨[], n + 1, by rw [takes, hk, htakes]; rfl, .nil, nofun⟩
      · obtain ⟨hl, hlow⟩ := taken?_eq_some_iff.mp hk
        refine ⟨key :: keys, n, by rw [takes, hk, htakes]; rfl, .cons ?_ hsorted, ?_⟩
        · intro j hj
          obtain ⟨hlj, hne⟩ := hold j hj
          have hle : key ≤ j := Fin.not_lt.mp fun hlt => hlow j hlt hlj
          refine lt_of_le_of_ne hle fun heq => hne rfl ?_
          rw [hk, heq]
        · exact List.forall_mem_cons.mpr ⟨hl, fun j hj => (hold j hj).1⟩
    · have hskip : p.takes (c :: calls) = (p.after c).takes calls := by
        cases c with
        | takePress => exact absurd rfl ht
        | _ => rfl
      exact ⟨keys, n, hskip ▸ htakes, hsorted, fun key hkey => (hold key hkey).1⟩

/-- The pad answers as its history says. Only a press or release of a number above 15 is refused,
and changes nothing. A key is down if it was last pressed, and a take gives the lowest key that has
gone down and is not yet taken or forgotten. So takes without a press between them go up the keys,
and come to an end. -/
theorem pad_of_history (calls : List Call) :
    let p := ({} : Keypad).afterAll calls
    (∀ c fault, p.respond c = .error fault ↔
      ∃ k, 15 < k.toNat ∧ (c = .press k ∨ c = .release k) ∧ fault = .invalidKey k) ∧
    (∀ c fault, p.respond c = .error fault → p.after c = p) ∧
    (∀ k, p.isPressed k = true ↔ k.toNat ≤ 15 ∧ LastPressed k calls) ∧
    (∀ key, p.respond .takePress = .ok (some key) ↔
      Fresh key calls ∧ ∀ j < key, ¬ Fresh j calls) ∧
    (p.respond .takePress = .ok none ↔ ∀ key, ¬ Fresh key calls) ∧
    ∀ more, (∀ k, .press k ∉ more) → ∃ (keys : List (Fin 16)) (n : Nat),
      p.takes more = keys.map some ++ List.replicate n none ∧ keys.Pairwise (· < ·) ∧
        keys.length ≤ 16 ∧ ∀ key ∈ keys, Fresh key calls := by
  intro p
  refine ⟨fun c fault => respond_eq_error_iff, fun c fault => after_of_error, ?_, ?_, ?_, ?_⟩
  · intro k
    rcases eq_ofNat_key_or_le k with ⟨key, rfl⟩ | hk
    · rw [isPressed_ofNat, held_afterAll_iff, toNat_ofNat_key]
      exact (and_iff_right (Nat.le_of_lt_succ key.isLt)).symm
    · exact iff_of_false (not_isPressed_of_le hk) fun h => Nat.not_lt_of_le h.1 hk
  · intro key
    simp only [respond, Except.ok.injEq, taken?_eq_some_iff, p, latched_afterAll_iff]
  · simp only [respond, Except.ok.injEq, taken?_eq_none_iff, p, latched_afterAll_iff]
  · intro more hmore
    obtain ⟨keys, n, htakes, hsorted, hlatched⟩ := exists_takes_of_not_press p hmore
    have hnodup : keys.Nodup := hsorted.imp Fin.ne_of_lt
    refine ⟨keys, n, htakes, hsorted, by simpa using hnodup.length_le_card, ?_⟩
    exact fun key hkey => latched_afterAll_iff.mp (hlatched key hkey)

/-- A tapped key is there to be taken, and a key above it after that, pressed twice or not. -/
theorem pad_of_history_of_tap :
    let calls : List Call := [.press 7, .press 3, .release 3, .press 7, .press 16]
    let more : List Call := [.takePress, .release 7, .takePress, .takePress]
    let p := ({} : Keypad).afterAll calls
    (Fresh 3 calls ∧ ∀ j < 3, ¬ Fresh j calls) ∧ (∀ k, .press k ∉ more) ∧
      (∃ (keys : List (Fin 16)) (n : Nat),
        p.takes more = keys.map some ++ List.replicate n none ∧ keys.Pairwise (· < ·) ∧
          keys.length ≤ 16 ∧ ∀ key ∈ keys, Fresh key calls) ∧
      p.respond (.press 16) = .error (.invalidKey 16) ∧ p.after (.press 16) = p := by
  intro calls more p
  obtain ⟨-, hrefused, -, htake, -, htakes⟩ := pad_of_history calls
  have hmore : ∀ k, .press k ∉ more := by simp [more]
  have hfirst : p.taken? = some 3 := by decide
  exact ⟨(htake 3).mp (congrArg Except.ok hfirst), hmore, htakes more hmore, rfl, hrefused (.press 16) _ rfl⟩

end Keypad

end Chip8
