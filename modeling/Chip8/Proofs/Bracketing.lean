import Chip8.CallStack
import Mathlib.Data.List.Infix

/-!
Well-bracketed use of the call stack. What is pushed during such a use is taken off again, and the
addresses that were there before are not touched (`Above`), so that a pop finds what the push it
matches has put there. Main statement: `balanced_use`, with the one way in which it can fail.
-/

namespace Chip8

/-- The last place at which a property of the part before holds, if it does not hold at the end. -/
theorem exists_last_split {α : Type} {Q : List α → Prop} {l : List α} (hnil : Q []) (hl : ¬ Q l) :
    ∃ before a after, l = before ++ a :: after ∧ Q before ∧
      ∀ rest, rest <+: after → ¬ Q (before ++ a :: rest) := by
  induction l using List.reverseRecOn with
  | nil => exact absurd hnil hl
  | append_singleton l last ih =>
    by_cases hq : Q l
    · refine ⟨l, last, [], rfl, hq, ?_⟩
      intro rest hrest
      rw [List.prefix_nil.mp hrest]
      exact hl
    · obtain ⟨before, a, after, rfl, hbefore, hafter⟩ := ih hq
      refine ⟨before, a, after ++ [last], by simp, hbefore, ?_⟩
      intro rest hrest
      rcases List.prefix_concat_iff.mp hrest with rfl | hrest
      · simpa using hl
      · exact hafter rest hrest

namespace CallStack

inductive Use
  | push (address : Word)
  | pop
deriving DecidableEq, Repr

def respond (s : CallStack) : Use → Except Fault (Option Word)
  | .push a => (s.push a).map fun _ => none
  | .pop => s.pop.map fun popped => some popped.1

/-- The stack after a use; one that is refused leaves it as it was. -/
def after (s : CallStack) : Use → CallStack
  | .push a => (s.push a).toOption.getD s
  | .pop => (s.pop.toOption.map Prod.snd).getD s

def afterAll (s : CallStack) (uses : List Use) : CallStack := uses.foldl after s

def AllSucceed (s : CallStack) (uses : List Use) : Prop :=
  ∀ before u rest, uses = before ++ u :: rest → ∃ answer, (s.afterAll before).respond u = .ok answer

def rise : List Use → Int
  | [] => 0
  | .push _ :: uses => rise uses + 1
  | .pop :: uses => rise uses - 1

def NoLonePop (uses : List Use) : Prop := ∀ before, before <+: uses → 0 ≤ rise before

structure WellBracketed (uses : List Use) : Prop where
  noLonePop : NoLonePop uses
  closed : rise uses = 0

instance (uses : List Use) : Decidable (NoLonePop uses) :=
  decidable_of_iff (∀ before ∈ uses.inits, 0 ≤ rise before) (by simp [NoLonePop])

instance (uses : List Use) : Decidable (WellBracketed uses) :=
  decidable_of_iff (NoLonePop uses ∧ rise uses = 0)
    ⟨fun ⟨h, hclosed⟩ => ⟨h, hclosed⟩, fun ⟨h, hclosed⟩ => ⟨h, hclosed⟩⟩

def nesting (uses : List Use) : Nat :=
  (uses.inits.map fun before => (rise before).toNat).foldr max 0

/-- The address of the last push that is open: what comes after it is well-bracketed. -/
def Awaits (uses : List Use) (a : Word) : Prop :=
  ∃ before inside, uses = before ++ .push a :: inside ∧ WellBracketed inside

/-- The uses leave alone what is on the stack, and there is room for what they push. -/
def Fits (s : CallStack) (uses : List Use) : Prop :=
  ∀ before, before <+: uses → 0 ≤ rise before ∧ s.depth + rise before ≤ 16

/-- The stack `t` holds what `s` holds, and on top of it what the uses have pushed and not
popped. -/
structure Above (s : CallStack) (uses : List Use) (t : CallStack) : Prop where
  height : t.depth = s.depth + rise uses
  base : s.frames <:+ t.frames

variable {s t : CallStack} {uses before inside : List Use} {a : Word}

@[simp] theorem rise_append (xs ys : List Use) : rise (xs ++ ys) = rise xs + rise ys := by
  induction xs with
  | nil => exact (Int.zero_add _).symm
  | cons u xs ih =>
    cases u with
    | push a =>
      show rise (xs ++ ys) + 1 = rise xs + 1 + rise ys
      omega
    | pop =>
      show rise (xs ++ ys) - 1 = rise xs - 1 + rise ys
      omega

theorem rise_concat_push (uses : List Use) (a : Word) :
    rise (uses ++ [.push a]) = rise uses + 1 :=
  rise_append uses _

theorem rise_concat_pop (uses : List Use) : rise (uses ++ [.pop]) = rise uses - 1 :=
  rise_append uses _

theorem afterAll_append (s : CallStack) (xs ys : List Use) :
    s.afterAll (xs ++ ys) = (s.afterAll xs).afterAll ys :=
  List.foldl_append

theorem afterAll_cons (s : CallStack) (u : Use) (uses : List Use) :
    s.afterAll (u :: uses) = (s.after u).afterAll uses := rfl

theorem foldr_max_le_iff {ns : List Nat} {n : Nat} : ns.foldr max 0 ≤ n ↔ ∀ k ∈ ns, k ≤ n := by
  induction ns with
  | nil => simp
  | cons k ns ih => rw [List.foldr_cons, Nat.max_le, ih, List.forall_mem_cons]

theorem nesting_le_iff {n : Nat} :
    nesting uses ≤ n ↔ ∀ before, before <+: uses → rise before ≤ n := by
  simp only [nesting, foldr_max_le_iff, List.forall_mem_map, List.mem_inits, Int.toNat_le]

theorem fits_iff (h : NoLonePop uses) (hs : s.depth ≤ 16) :
    s.Fits uses ↔ s.depth + nesting uses ≤ 16 := by
  have hroom : s.depth + nesting uses ≤ 16 ↔ nesting uses ≤ 16 - s.depth := by omega
  rw [hroom, nesting_le_iff]
  constructor
  · intro hf before hb
    obtain ⟨-, hle⟩ := hf before hb
    omega
  · intro hn before hb
    have hle := hn before hb
    exact ⟨h before hb, by omega⟩

theorem Fits.of_append {xs ys : List Use} (h : s.Fits (xs ++ ys)) : s.Fits xs :=
  fun before hb => h before (hb.trans (List.prefix_append xs ys))

theorem push_of_lt (h : s.depth < 16) (a : Word) :
    s.respond (.push a) = .ok none ∧ s.after (.push a) = ⟨a :: s.frames⟩ := by
  have hpush : s.push a = .ok ⟨a :: s.frames⟩ := push_eq_ok_iff.mpr ⟨h, rfl⟩
  rw [respond, after, hpush]
  exact ⟨rfl, rfl⟩

theorem push_of_le (h : 16 ≤ s.depth) (a : Word) :
    s.respond (.push a) = .error (.stackOverflow a) ∧ s.after (.push a) = s := by
  have hpush : s.push a = .error (.stackOverflow a) := if_pos ((isFull_iff s).mpr h)
  rw [respond, after, hpush]
  exact ⟨rfl, rfl⟩

theorem pop_of_frames {frames : List Word} (h : s.frames = a :: frames) :
    s.respond .pop = .ok (some a) ∧ s.after .pop = ⟨frames⟩ := by
  have hpop : s.pop = .ok (a, ⟨frames⟩) := by rw [pop, h]
  rw [respond, after, hpop]
  exact ⟨rfl, rfl⟩

theorem depth_cons (a : Word) (frames : List Word) :
    depth ⟨a :: frames⟩ = depth ⟨frames⟩ + 1 := rfl

theorem Above.push (h : s.Above uses t) (hroom : s.depth + rise uses < 16) (a : Word) :
    t.respond (.push a) = .ok none ∧ s.Above (uses ++ [.push a]) (t.after (.push a)) := by
  obtain ⟨hheight, hbase⟩ := h
  obtain ⟨hanswer, hafter⟩ := push_of_lt (s := t) (by omega) a
  refine ⟨hanswer, ?_⟩
  rw [hafter]
  constructor
  case height =>
    have hdepth : depth ⟨a :: t.frames⟩ = t.depth + 1 := depth_cons a t.frames
    rw [rise_concat_push, hdepth]
    omega
  case base => exact hbase.trans (List.suffix_cons a t.frames)

theorem Above.pop (h : s.Above uses t) (hopen : 0 < rise uses) :
    (∃ a, t.respond .pop = .ok (some a)) ∧ s.Above (uses ++ [.pop]) (t.after .pop) := by
  obtain ⟨hheight, hbase⟩ := h
  obtain ⟨frames⟩ := t
  cases frames with
  | nil =>
    have hempty : depth ⟨[]⟩ = 0 := rfl
    omega
  | cons a frames =>
    obtain ⟨hanswer, hafter⟩ := pop_of_frames (s := ⟨a :: frames⟩) rfl
    refine ⟨⟨a, hanswer⟩, ?_⟩
    rw [hafter]
    constructor
    case height =>
      rw [depth_cons] at hheight
      rw [rise_concat_pop]
      omega
    case base =>
      rcases List.suffix_cons_iff.mp hbase with hbase | hbase
      · -- then the uses would have nothing open
        have hlength : s.depth = depth ⟨a :: frames⟩ := congrArg List.length hbase
        omega
      · exact hbase

/-- One use more, if there is room for it or something to pop. -/
theorem Above.use {u : Use} (h : s.Above uses t) (hle : 0 ≤ rise (uses ++ [u]))
    (hroom : s.depth + rise (uses ++ [u]) ≤ 16) :
    (∃ answer, t.respond u = .ok answer) ∧ s.Above (uses ++ [u]) (t.after u) := by
  cases u with
  | push a =>
    rw [rise_concat_push] at hroom
    obtain ⟨hanswer, habove⟩ := h.push (by omega) a
    exact ⟨⟨none, hanswer⟩, habove⟩
  | pop =>
    rw [rise_concat_pop] at hle
    obtain ⟨⟨a, hanswer⟩, habove⟩ := h.pop (by omega)
    exact ⟨⟨some a, hanswer⟩, habove⟩

theorem Fits.above (h : s.Fits uses) : s.Above uses (s.afterAll uses) := by
  induction uses using List.reverseRecOn with
  | nil => exact ⟨(Int.add_zero _).symm, List.suffix_refl _⟩
  | append_singleton uses u ih =>
    obtain ⟨hle, hroom⟩ := h _ (List.prefix_refl _)
    rw [afterAll_append]
    exact ((ih h.of_append).use hle hroom).2

theorem Fits.allSucceed (h : s.Fits uses) : s.AllSucceed uses := by
  rintro before u rest rfl
  obtain ⟨hle, hroom⟩ := h (before ++ [u]) (by simp)
  exact (h.of_append.above.use hle hroom).1

/-- When all that was pushed is popped, the stack is what it was. -/
theorem Fits.afterAll_eq (h : s.Fits uses) (hclosed : rise uses = 0) : s.afterAll uses = s := by
  obtain ⟨hheight, hbase⟩ := h.above
  have hframes : s.frames = (s.afterAll uses).frames :=
    hbase.eq_of_length_le (show (s.afterAll uses).depth ≤ s.depth by omega)
  exact congrArg CallStack.mk hframes.symm

theorem Fits.pop_of_awaits (h : s.Fits uses) (ha : Awaits uses a) :
    (s.afterAll uses).respond .pop = .ok (some a) := by
  obtain ⟨before, inside, rfl, hinside⟩ := ha
  have hheight := h.of_append.above.height
  obtain ⟨-, hroom⟩ := h (before ++ [.push a]) (by simp)
  rw [rise_concat_push] at hroom
  obtain ⟨-, hpush⟩ := push_of_lt (s := s.afterAll before) (by omega) a
  -- the pushed address is part of what the uses inside leave alone
  have hfits : Fits ⟨a :: (s.afterAll before).frames⟩ inside := by
    intro start hstart
    obtain ⟨-, hle⟩ := h (before ++ .push a :: start) (by simpa using hstart)
    rw [List.append_cons, rise_append, rise_concat_push] at hle
    have hdepth : depth ⟨a :: (s.afterAll before).frames⟩ = (s.afterAll before).depth + 1 :=
      depth_cons a _
    exact ⟨hinside.noLonePop start hstart, by omega⟩
  have hall : s.afterAll (before ++ .push a :: inside) = ⟨a :: (s.afterAll before).frames⟩ := by
    rw [afterAll_append, afterAll_cons, hpush, hfits.afterAll_eq hinside.closed]
  exact (pop_of_frames (congrArg frames hall)).1

/-- Where there are more pushes than pops, there is a last push that is open. -/
theorem exists_awaits (h : 0 < rise uses) : ∃ a, Awaits uses a := by
  obtain ⟨before, u, inside, rfl, hbefore, hafter⟩ :=
    exists_last_split (Q := fun xs => rise xs < rise uses) (l := uses) h (Int.lt_irrefl _)
  have hsplit (rest : List Use) :
      rise (before ++ u :: rest) = rise (before ++ [u]) + rise rest := by
    rw [List.append_cons, rise_append]
  have hmin (start : List Use) (hstart : start <+: inside) : rise inside ≤ rise start := by
    have hlow := hafter start hstart
    rw [hsplit start, hsplit inside] at hlow
    omega
  have hfirst : rise inside ≤ 0 := hmin [] List.nil_prefix
  rw [hsplit inside] at hbefore
  cases u with
  | pop =>
    rw [rise_concat_pop] at hbefore
    omega
  | push a =>
    rw [rise_concat_push] at hbefore
    have hclosed : rise inside = 0 := by omega
    refine ⟨a, before, inside, rfl, ?_, hclosed⟩
    intro start hstart
    rw [← hclosed]
    exact hmin start hstart

/-- The first use for which there is no room is a push onto a full stack. -/
theorem exists_overflow (h : NoLonePop uses) (hs : s.depth ≤ 16) (hfits : ¬ s.Fits uses) :
    ∃ before a rest, uses = before ++ .push a :: rest ∧ s.Fits before ∧
      s.depth + rise before = 16 := by
  induction uses using List.reverseRecOn with
  | nil =>
    refine absurd (fun before hb => ?_) hfits
    rw [List.prefix_nil.mp hb]
    have hnil : rise [] = 0 := rfl
    exact ⟨Int.le_refl 0, by omega⟩
  | append_singleton uses u ih =>
    by_cases hf : s.Fits uses
    · have hroom : ¬ s.depth + rise (uses ++ [u]) ≤ 16 := by
        intro hroom
        refine hfits fun before hb => ?_
        rcases List.prefix_concat_iff.mp hb with rfl | hb
        · exact ⟨h _ (List.prefix_refl _), hroom⟩
        · exact hf before hb
      obtain ⟨-, hlast⟩ := hf uses (List.prefix_refl uses)
      cases u with
      | push a =>
        rw [rise_concat_push] at hroom
        exact ⟨uses, a, [], rfl, hf, by omega⟩
      | pop =>
        rw [rise_concat_pop] at hroom
        omega
    · have hpast : NoLonePop uses := fun before hb => h before (hb.trans (List.prefix_append _ _))
      obtain ⟨before, a, rest, rfl, hbefore, hfull⟩ := ih hpast hf
      exact ⟨before, a, rest ++ [u], by simp, hbefore, hfull⟩

/-- Pushes and pops in brackets. If they are nested no deeper than there is room for, all of them
succeed, each pop gives the address of the push that it matches, and the stack is left as it was.
If they are nested deeper, the first to fail is the push onto a full stack, which reports its own
address and changes nothing. -/
theorem balanced_use (s : CallStack) (hs : s.depth ≤ 16) {uses : List Use}
    (h : WellBracketed uses) :
    (s.depth + nesting uses ≤ 16 →
      s.AllSucceed uses ∧ s.afterAll uses = s ∧
      ∀ before rest, uses = before ++ .pop :: rest →
        (∃ a, Awaits before a) ∧
          ∀ a, Awaits before a → (s.afterAll before).respond .pop = .ok (some a)) ∧
    (16 < s.depth + nesting uses →
      ∃ before a rest, uses = before ++ .push a :: rest ∧ s.AllSucceed before ∧
        (s.afterAll before).depth = 16 ∧
        (s.afterAll before).respond (.push a) = .error (.stackOverflow a) ∧
        (s.afterAll before).after (.push a) = s.afterAll before) := by
  refine ⟨?_, ?_⟩
  · intro hroom
    have hfits := (fits_iff h.noLonePop hs).mpr hroom
    refine ⟨hfits.allSucceed, hfits.afterAll_eq h.closed, ?_⟩
    rintro before rest rfl
    have hopen := h.noLonePop (before ++ [.pop]) (by simp)
    rw [rise_concat_pop] at hopen
    exact ⟨exists_awaits (by omega), fun a => hfits.of_append.pop_of_awaits⟩
  · intro hroom
    have hnot : ¬ s.Fits uses := fun hf =>
      Nat.not_lt_of_le ((fits_iff h.noLonePop hs).mp hf) hroom
    obtain ⟨before, a, rest, rfl, hfits, hfull⟩ := exists_overflow h.noLonePop hs hnot
    have hheight := hfits.above.height
    have hsixteen : (s.afterAll before).depth = 16 := by omega
    obtain ⟨hanswer, hafter⟩ := push_of_le (Nat.le_of_eq hsixteen.symm) a
    exact ⟨before, a, rest, rfl, hfits.allSucceed, hsixteen, hanswer, hafter⟩

/-- Two levels are left: a push inside a push and another after it find room, and a third one inside
the second does not. -/
theorem balanced_use_on_fourteen :
    let s : CallStack := ⟨List.replicate 14 0x202⟩
    let flat : List Use := [.push 0x300, .push 0x400, .pop, .push 0x500, .pop, .pop]
    let deep : List Use := [.push 0x300, .push 0x400, .push 0x500, .pop, .pop, .pop]
    s.depth ≤ 16 ∧ WellBracketed flat ∧ WellBracketed deep ∧ s.depth + nesting flat ≤ 16 ∧
      16 < s.depth + nesting deep ∧ s.AllSucceed flat ∧ s.afterAll flat = s ∧
      Awaits (flat.take 2) 0x400 ∧ (s.afterAll (flat.take 2)).respond .pop = .ok (some 0x400) ∧
      ∃ before a rest, deep = before ++ .push a :: rest ∧ s.AllSucceed before ∧
        (s.afterAll before).depth = 16 ∧
        (s.afterAll before).respond (.push a) = .error (.stackOverflow a) ∧
        (s.afterAll before).after (.push a) = s.afterAll before := by
  intro s flat deep
  have hs : s.depth ≤ 16 := by decide
  have hflat : WellBracketed flat := by decide
  have hdeep : WellBracketed deep := by decide
  have hroom : s.depth + nesting flat ≤ 16 := by decide
  have hnone : 16 < s.depth + nesting deep := by decide
  have hawaits : Awaits (flat.take 2) 0x400 := ⟨[.push 0x300], [], rfl, by decide⟩
  obtain ⟨hall, hleft, hpops⟩ := (s.balanced_use hs hflat).1 hroom
  obtain ⟨-, hpop⟩ := hpops (flat.take 2) (flat.drop 3) rfl
  exact ⟨hs, hflat, hdeep, hroom, hnone, hall, hleft, hawaits, hpop _ hawaits,
    (s.balanced_use hs hdeep).2 hnone⟩

end CallStack

end Chip8
