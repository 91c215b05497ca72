import MyTools.Library.Run
import MyTools.Mpi.Codec
import MyTools.Mpi.Multiplication
import MyTools.Mpi.ShiftLeft
import MyTools.Mpi.ShiftRight
import Mathlib.Data.Set.Insert

/-! Numbers in variables, and what the routines leave in them over a run. `CMpi_EqualsTo_d` reads the first word
also of a number without words, so it decides equality as long as that word is zero then. -/
namespace MyTools.Mpi
open Library CMpi

/-- A call of a routine with its variables. What a local variable holds before it is set comes with the call,
and a negative count of words is a shift the other way. -/
inductive Call (ν : Type*)
  | assignD (n : ν) (iInitial : UInt32)
  | assign (a b : ν)
  | importBytes (n : ν) (abContent : Bytes) (iLength : ℕ)
  | add (a b : ν) (temp : CMpi)
  | substract (a b : ν) (temp : CMpi)
  | multiplyD (a : ν) (n : UInt32)
  | wordShiftLeft (a : ν) (n : ℕ) (junk : CMpl)
  | wordShiftRight (a : ν) (n : ℕ) (junk : CMpl)
  | bitShiftLeft (a : ν) (iShiftBits : ℕ) (junk : CMpl)
  | bitShiftRight (a : ν) (iShiftBits : ℕ) (junk : CMpl)

namespace Call
variable {ν : Type*}

def operands : Call ν → List ν
  | assignD _ _ | importBytes _ _ _ => []
  | assign a _ | multiplyD a _ => [a]
  | add a b _ | substract a b _ => [a, b]
  | wordShiftLeft a _ _ | wordShiftRight a _ _ | bitShiftLeft a _ _ | bitShiftRight a _ _ => [a]

def result : Call ν → ν
  | assignD n _ | importBytes n _ _ => n
  | assign _ b => b
  | add a _ _ | substract a _ _ | multiplyD a _ => a
  | wordShiftLeft a _ _ | wordShiftRight a _ _ | bitShiftLeft a _ _ | bitShiftRight a _ _ => a

/-- `CMpi_WordShiftLeft` adds the count to the length as an `int`, unless there is nothing to move. -/
def SumFits (a : CMpi) (n : ℕ) : Prop := n < 2 ^ 31 ∧ (a.length = 1 ∧ a.wordAt 0 = 0 ∨ a.length + n < 2 ^ 31)

instance (a : CMpi) (n : ℕ) : Decidable (SumFits a n) := inferInstanceAs (Decidable (_ ∧ _))

/-- What the result becomes. One variable may be both operands: no word is read after it was stored. -/
def value (mem : ν → CMpi) : Call ν → Option CMpi
  | assignD n iInitial => (mem n).assignD iInitial
  | assign a b => (mem a).assign (mem b)
  | importBytes n abContent iLength => (mem n).importBytes abContent iLength
  | add a b temp => (mem a).add (mem b) temp
  | substract a b temp => (mem a).substract (mem b) temp
  | multiplyD a n => (mem a).multiplyD n
  | wordShiftLeft a n junk => if SumFits (mem a) n then (mem a).wordShiftLeft n junk else none
  | wordShiftRight a n junk => (mem a).wordShiftRight n junk
  | bitShiftLeft a iShiftBits junk => (mem a).bitShiftLeft iShiftBits junk
  | bitShiftRight a iShiftBits junk => (mem a).bitShiftRight iShiftBits junk

/-- A call that leaves a number without words finds the first word of the result zero, unless it sets it itself. -/
def Clears (mem : ν → CMpi) : Call ν → Prop
  | assign a b => (mem a).length = 0 → (mem b).wordAt 0 = 0
  | importBytes n _ iLength => 32 < iLength → (mem n).wordAt 0 = 0
  | wordShiftRight a n _ => (mem a).length ≤ n → (mem a).wordAt 0 = 0
  | bitShiftRight a iShiftBits _ => (mem a).length ≤ iShiftBits / 32 → (mem a).wordAt 0 = 0
  | _ => True

end Call

structure Variables (ν : Type*) where
  mem : ν → CMpi
  made : Set ν

namespace Variables
variable {ν : Type*}

def start (mem : ν → CMpi) : Variables ν := ⟨mem, ∅⟩

/-- On the numbers that are not negative `CMpi_EqualsTo_d` decides whether the value is a given word. -/
def Decides (s : Variables ν) : Prop :=
  ∀ v ∈ s.made, 0 ≤ (s.mem v).toInt → ∀ n : UInt32, (s.mem v).equalsToD n = some (decide ((s.mem v).toInt = n.toNat))

variable [DecidableEq ν]

def store (s : Variables ν) (v : ν) (r : CMpi) : Variables ν := ⟨Function.update s.mem v r, insert v s.made⟩

def Step (s : Variables ν) (call : Call ν) (s' : Variables ν) : Prop :=
  (∀ v ∈ call.operands, v ∈ s.made) ∧ ∃ r, call.value s.mem = some r ∧ s' = s.store call.result r

end Variables

namespace CMpi

/-- Without words there is nothing in the first word either. -/
def Blank (a : CMpi) : Prop := a.length = 0 → a.wordAt 0 = 0

theorem equalsToD_iff_blank (a : CMpi) (bounded : a.length ≤ 8) :
    (0 ≤ a.toInt → ∀ n : UInt32, a.equalsToD n = some (decide (a.toInt = n.toNat))) ↔ a.Blank := by
  constructor
  · intro decides empty
    by_contra some_
    have zero : a.toInt = 0 := by
      have abs : a.abs = 0 := by rw [CMpi.abs, empty, Limbs.value_zero]
      rw [← Int.natAbs_eq_zero, natAbs_toInt, abs]
    have found : a.equalsToD (a.wordAt 0) = some true := by
      rw [equalsToD, get_eq a (by decide), empty]
      simp [Loop.find, some_]
    have equal := decides (zero ▸ Int.le_refl 0) (a.wordAt 0)
    rw [found, Option.some.injEq, eq_comm, decide_eq_true_iff, zero] at equal
    exact some_ (UInt32.toNat_inj.mp (Int.natCast_eq_zero.mp equal.symm))
  · intro blank nonneg n
    have magnitude : a.toInt = a.abs := by rw [← natAbs_toInt, Int.natAbs_of_nonneg nonneg]
    rw [a.equalsToD_run n bounded, magnitude]
    · simp only [Nat.cast_inj]
    · intro empty
      by_cases zero : n = 0
      · exact .inl zero
      · exact .inr fun same => zero (same.symm.trans (blank empty))

/-- What a sum or a difference leaves without words: it has looked at all words of the operand. -/
theorem blank_of_zeros {a r : CMpi} {m : ℕ} (reaches : a.length ≤ m) (zeros : ∀ k, r.length ≤ k → k < m → r.wordAt k = 0)
    (above : ∀ k, m ≤ k → r.wordAt k = a.wordAt k) (blank : a.Blank) : r.Blank := by
  intro empty
  by_cases some_ : 0 < m
  · exact zeros 0 (Nat.le_of_eq empty) some_
  · rw [above 0 (by omega)]
    exact blank (by omega)

theorem Sum.blank {a b r : CMpi} (sum : Sum a b r) (blank : a.Blank) : r.Blank := by
  intro empty
  have longer := sum.longer
  rcases sum.above 0 (Nat.le_of_eq empty) with same | zero
  · rw [same]
    exact blank (by omega)
  · exact zero

theorem add_blank (a b temp : CMpi) (a_bounded : a.length ≤ 8) (b_bounded : b.length ≤ 8) {r : CMpi}
    (run : a.add b temp = some r) : r.length ≤ 8 ∧ (a.Blank → r.Blank) := by
  by_cases same : a.sign = b.sign
  · obtain ⟨r', run', sum⟩ := add_same a b temp a_bounded b_bounded same
    obtain rfl := Option.some.inj (run'.symm.trans run)
    exact ⟨sum.bounded, sum.blank⟩
  · obtain ⟨r', run', sum⟩ := add_apart a b temp a_bounded b_bounded same
    obtain rfl := Option.some.inj (run'.symm.trans run)
    exact ⟨Nat.le_trans sum.bounded (Nat.max_le.mpr ⟨a_bounded, b_bounded⟩),
      blank_of_zeros (Nat.le_max_left _ _) sum.zeros sum.above⟩

theorem substract_blank (a b temp : CMpi) (a_bounded : a.length ≤ 8) (b_bounded : b.length ≤ 8) {r : CMpi}
    (run : a.substract b temp = some r) : r.length ≤ 8 ∧ (a.Blank → r.Blank) := by
  by_cases same : a.sign = b.sign
  · obtain ⟨r', run', remainder⟩ := substract_words a b temp a_bounded b_bounded same
    obtain rfl := Option.some.inj (run'.symm.trans run)
    exact ⟨Nat.le_trans remainder.bounded (Nat.max_le.mpr ⟨a_bounded, b_bounded⟩),
      blank_of_zeros (Nat.le_max_left _ _) remainder.zeros remainder.above⟩
  · obtain ⟨minus, r', -, run', sum⟩ := substract_apart a b temp a_bounded b_bounded same
    obtain rfl := Option.some.inj (run'.symm.trans run)
    exact ⟨sum.bounded, sum.blank⟩

theorem Kept.still {a r : CMpi} (kept : Kept a r) (blank : a.Blank) : r.Blank := fun empty =>
  (kept.blank empty).trans (blank (kept.empty.mp empty))

theorem importBytes_long (n : CMpi) (content : Bytes) {count : ℕ} (long : 32 < count) :
    n.importBytes content count = some { n with carry := 0, length := 0, sign := .positive } := if_pos long

theorem importBytes_blank (n : CMpi) (content : Bytes) (count : ℕ) {r : CMpi} (run : n.importBytes content count = some r) :
    r.length ≤ 8 ∧ (r.Blank ↔ (32 < count → n.wordAt 0 = 0)) := by
  by_cases long : 32 < count
  · rw [n.importBytes_long content long, Option.some.injEq] at run
    subst run
    exact ⟨Nat.zero_le 8, (imp_iff_right rfl).trans (imp_iff_right long).symm⟩
  · have fits := Nat.not_lt.mp long
    have enough : count ≤ content.length := by
      by_contra short
      rw [n.importBytes_short (Nat.not_le.mp short) fits] at run
      cases run
    have size : (content.take count).length = count := List.length_take_of_le enough
    obtain ⟨r', run', imported⟩ := n.importBytes_imported (content.take count) (size.symm ▸ fits)
    rw [size, ← n.importBytes_take] at run'
    obtain rfl := Option.some.inj (run'.symm.trans run)
    have length := imported.length
    refine ⟨by omega, iff_of_true (fun empty => imported.blank (by omega)) fun more => absurd more long⟩

theorem Dropped.blank_iff {a r : CMpi} {n : ℕ} (dropped : Dropped a n r) :
    r.Blank ↔ (a.length ≤ n → a.wordAt 0 = 0) := by
  have length := dropped.length
  constructor
  · intro blank beyond
    rw [← dropped.above 0 (by omega)]
    exact blank (by omega)
  · intro blank empty
    rw [dropped.above 0 (Nat.le_of_eq empty)]
    exact blank (by omega)

theorem bitShiftRight_blank (a : CMpi) (s : ℕ) (junk : CMpl) (bounded : a.length ≤ 8) {r : CMpi}
    (run : a.bitShiftRight s junk = some r) :
    r.length ≤ 8 ∧ (r.Blank ↔ (a.length ≤ s / 32 → a.wordAt 0 = 0)) := by
  obtain ⟨b, words, dropped⟩ := a.wordsRight_run (s / 32) junk bounded
  have length := dropped.length
  by_cases zero : s % 32 = 0
  · rw [bitShiftRight, words, Option.bind_eq_bind, Option.bind_some, if_pos zero, Option.some.injEq] at run
    subst run
    exact ⟨by omega, dropped.blank_iff⟩
  · have reaches : s / 32 < a.length := by
      by_contra beyond
      rw [a.bitShiftRight_empty s junk bounded zero (Nat.not_lt.mp beyond)] at run
      cases run
    rw [bitShiftRight, words, Option.bind_eq_bind, Option.bind_some, if_neg zero] at run
    obtain ⟨r', run', halved⟩ := b.bitsRight_halved (Nat.pos_of_ne_zero zero) (Nat.mod_lt s (by decide)) (by omega) (by omega)
    obtain rfl := Option.some.inj (run'.symm.trans run)
    have shorter := halved.bounded
    exact ⟨by omega, iff_of_true halved.blank fun beyond => absurd reaches (Nat.not_lt.mpr beyond)⟩

end CMpi

/-! What a call leaves. -/

namespace Call
variable {ν : Type*}

/-- The result of a call on numbers that are blank without words is so too, if the call clears it. -/
structure Left (mem : ν → CMpi) (call : Call ν) (r : CMpi) : Prop where
  bounded : r.length ≤ 8
  blank : (∀ v ∈ call.operands, (mem v).Blank) → (r.Blank ↔ call.Clears mem)

theorem value_left {mem : ν → CMpi} {call : Call ν} (bounded : ∀ v ∈ call.operands, (mem v).length ≤ 8) {r : CMpi}
    (run : call.value mem = some r) : call.Left mem r := by
  cases call with
  | assignD n iInitial =>
    obtain ⟨r', run', -, -, length, word, -⟩ := assignD_run (mem n) iInitial
    obtain rfl := Option.some.inj (run'.symm.trans run)
    split_ifs at length with zero
    · exact ⟨by omega, fun _ => iff_of_true (fun _ => word.trans zero) trivial⟩
    · exact ⟨by omega, fun _ => iff_of_true (fun empty => absurd empty (by omega)) trivial⟩
  | assign a b =>
    have a_bounded := bounded a (List.mem_singleton_self a)
    obtain ⟨r', run', same, -, above⟩ := assign_run (mem a) (mem b) a_bounded
    obtain rfl := Option.some.inj (run'.symm.trans run)
    have length := same.length
    refine ⟨by omega, fun _ => ⟨fun blank empty => ?_, fun blank empty => ?_⟩⟩
    · rw [← above 0 (Nat.le_of_eq empty)]
      exact blank (by omega)
    · rw [above 0 (by omega)]
      exact blank (by omega)
  | importBytes n abContent iLength =>
    obtain ⟨short, blank⟩ := importBytes_blank (mem n) abContent iLength run
    exact ⟨short, fun _ => blank⟩
  | add a b temp =>
    have b_bounded := bounded b (List.mem_cons_of_mem a (List.mem_singleton_self b))
    obtain ⟨short, blank⟩ := add_blank (mem a) (mem b) temp (bounded a List.mem_cons_self) b_bounded run
    exact ⟨short, fun blanks => iff_of_true (blank (blanks a List.mem_cons_self)) trivial⟩
  | substract a b temp =>
    have b_bounded := bounded b (List.mem_cons_of_mem a (List.mem_singleton_self b))
    obtain ⟨short, blank⟩ := substract_blank (mem a) (mem b) temp (bounded a List.mem_cons_self) b_bounded run
    exact ⟨short, fun blanks => iff_of_true (blank (blanks a List.mem_cons_self)) trivial⟩
  | multiplyD a n =>
    obtain ⟨r', run', scaled⟩ := multiplyD_run (mem a) n (bounded a (List.mem_singleton_self a))
    obtain rfl := Option.some.inj (run'.symm.trans run)
    exact ⟨scaled.bounded, fun _ => iff_of_true scaled.blank trivial⟩
  | wordShiftLeft a n junk =>
    obtain ⟨-, run⟩ := Option.ite_none_right_eq_some.mp run
    obtain ⟨r', run', kept⟩ := wordShiftLeft_kept (mem a) n junk (bounded a (List.mem_singleton_self a))
    obtain rfl := Option.some.inj (run'.symm.trans run)
    exact ⟨kept.bounded, fun blanks => iff_of_true (kept.still (blanks a (List.mem_singleton_self a))) trivial⟩
  | wordShiftRight a n junk =>
    obtain ⟨r', run', dropped⟩ := wordShiftRight_run (mem a) n junk (bounded a (List.mem_singleton_self a))
    obtain rfl := Option.some.inj (run'.symm.trans run)
    have length := dropped.length
    have a_bounded := bounded a (List.mem_singleton_self a)
    exact ⟨by omega, fun _ => dropped.blank_iff⟩
  | bitShiftLeft a iShiftBits junk =>
    have kept := bitShiftLeft_kept (mem a) iShiftBits junk (bounded a (List.mem_singleton_self a)) run
    exact ⟨kept.bounded, fun blanks => iff_of_true (kept.still (blanks a (List.mem_singleton_self a))) trivial⟩
  | bitShiftRight a iShiftBits junk =>
    obtain ⟨short, blank⟩ := bitShiftRight_blank (mem a) iShiftBits junk (bounded a (List.mem_singleton_self a)) run
    exact ⟨short, fun _ => blank⟩

end Call

/-! What is left over a run. -/

namespace Variables
variable {ν : Type*}

/-- The variables that have been set hold numbers of at most eight words. -/
def Bounded (s : Variables ν) : Prop := ∀ v ∈ s.made, (s.mem v).length ≤ 8

def Blank (s : Variables ν) : Prop := ∀ v ∈ s.made, (s.mem v).Blank

theorem decides_iff_blank {s : Variables ν} (bounded : s.Bounded) : s.Decides ↔ s.Blank :=
  forall₂_congr fun v made => (s.mem v).equalsToD_iff_blank (bounded v made)

variable [DecidableEq ν]

theorem Step.left {s s' : Variables ν} {call : Call ν} (step : Step s call s') (bounded : s.Bounded) :
    ∃ r, call.Left s.mem r ∧ s' = s.store call.result r := by
  obtain ⟨operands, r, run, rfl⟩ := step
  exact ⟨r, Call.value_left (fun v operand => bounded v (operands v operand)) run, rfl⟩

theorem store_self (s : Variables ν) (v : ν) (r : CMpi) : (s.store v r).mem v = r := by
  simp only [store, Function.update_self]

theorem store_ne (s : Variables ν) {v u : ν} (r : CMpi) (other : u ≠ v) : (s.store v r).mem u = s.mem u := by
  simp only [store, Function.update_of_ne other]

/-- A property of numbers that the new one has holds of all variables afterwards if it did before. -/
theorem forall_store {s : Variables ν} {v : ν} {r : CMpi} {P : CMpi → Prop} (new : P r) (old : ∀ u ∈ s.made, P (s.mem u)) :
    ∀ u ∈ (s.store v r).made, P ((s.store v r).mem u) := by
  intro u member
  by_cases same : u = v
  · rw [same, store_self]
    exact new
  · rw [store_ne s r same]
    exact old u (Set.mem_of_mem_insert_of_ne member same)

theorem Step.bounded {s s' : Variables ν} {call : Call ν} (step : Step s call s') (bounded : s.Bounded) : s'.Bounded := by
  obtain ⟨r, left, rfl⟩ := step.left bounded
  exact forall_store (P := fun a => a.length ≤ 8) left.bounded bounded

/-- Among numbers that are blank without words a step leaves only such numbers exactly if it clears its result. -/
theorem Step.blank_iff {s s' : Variables ν} {call : Call ν} (step : Step s call s') (bounded : s.Bounded) (blank : s.Blank) :
    s'.Blank ↔ call.Clears s.mem := by
  obtain ⟨r, left, rfl⟩ := step.left bounded
  have operands : ∀ v ∈ call.operands, (s.mem v).Blank := fun v operand => blank v (step.1 v operand)
  rw [← left.blank operands]
  constructor
  · intro all
    have new := all call.result (Set.mem_insert _ _)
    rwa [store_self] at new
  · exact fun new => forall_store new blank

variable {mem : ν → CMpi} {past : List (Variables ν × Call ν)} {s : Variables ν}

theorem bounded_of_run (run : Run Step (start mem) past s) : s.Bounded :=
  run.keeps Bounded (fun _ _ => True) (fun _ member => absurd member (Set.notMem_empty _))
    (fun _ _ _ bounded _ step => step.bounded bounded)
    fun _ _ _ => trivial

theorem blank_of_run (run : Run Step (start mem) past s) (clears : ∀ t call, (t, call) ∈ past → call.Clears t.mem) : s.Blank := by
  have both : s.Bounded ∧ s.Blank := by
    apply run.keeps (fun s => s.Bounded ∧ s.Blank) fun s call => call.Clears s.mem
    · exact ⟨fun _ member => absurd member (Set.notMem_empty _), fun _ member => absurd member (Set.notMem_empty _)⟩
    · intro t call t' ⟨bounded, blank⟩ cleared step
      exact ⟨step.bounded bounded, (step.blank_iff bounded blank).mpr cleared⟩
    · exact clears
  exact both.2

/-- `CMpi_EqualsTo_d` decides equality in all states of a run exactly if every call on the way clears the first word
of a result without words. -/
theorem decides_iff_clears (run : Run Step (start mem) past s) :
    (s.Decides ∧ ∀ t call, (t, call) ∈ past → t.Decides) ↔ ∀ t call, (t, call) ∈ past → call.Clears t.mem := by
  constructor
  · intro ⟨last, before⟩ t call member
    obtain ⟨earlier, _, shorter⟩ := run.reached member
    have bounded := bounded_of_run shorter
    have blank := (decides_iff_blank bounded).mp (before t call member)
    obtain ⟨t', step, next⟩ := run.successor member
    rw [← step.blank_iff bounded blank, ← decides_iff_blank (step.bounded bounded)]
    rcases next with rfl | ⟨call', later⟩
    · exact last
    · exact before t' call' later
  · intro clears
    refine ⟨(decides_iff_blank (bounded_of_run run)).mpr (blank_of_run run clears), fun t call member => ?_⟩
    obtain ⟨earlier, inside, shorter⟩ := run.reached member
    exact (decides_iff_blank (bounded_of_run shorter)).mpr
      (blank_of_run shorter fun t call member => clears t call (inside.subset member))

def fiveWords (length : ℕ) : CMpi := ⟨(Vector.replicate 8 0).setIfInBounds 0 5, 0, .positive, length⟩

def fiveSet : Variables Bool := (start fun _ => zeroWords).store true (fiveWords 1)
def bothSet : Variables Bool := fiveSet.store false zeroWords
def zeroCopied : Variables Bool := bothSet.store true (fiveWords 0)

def copies : List (Variables Bool × Call Bool) :=
  [(start fun _ => zeroWords, .assignD true 5), (fiveSet, .assignD false 0), (bothSet, .assign false true)]

theorem copies_run : Run Step (start fun _ => zeroWords) copies zeroCopied := by
  have first : Step (start fun _ => zeroWords) (.assignD true 5) fiveSet :=
    ⟨fun v none_ => absurd none_ List.not_mem_nil, _, rfl, rfl⟩
  have second : Step fiveSet (.assignD false 0) bothSet := ⟨fun v none_ => absurd none_ List.not_mem_nil, _, rfl, rfl⟩
  have third : Step bothSet (.assign false true) zeroCopied := by
    refine ⟨fun v member => ?_, _, rfl, rfl⟩
    rw [List.mem_singleton.mp member]
    exact Set.mem_insert _ _
  exact ((Run.initial.next first).next second).next third

theorem decides_iff_clears_copies :
    (zeroCopied.Decides ∧ ∀ t call, (t, call) ∈ copies → t.Decides) ↔ ∀ t call, (t, call) ∈ copies → call.Clears t.mem :=
  decides_iff_clears copies_run

theorem not_decides :
    ¬ ∀ past s, Run Step (start fun _ : Bool => zeroWords) past s → s.Decides := by
  intro all
  have decides := all copies zeroCopied copies_run true (Set.mem_insert _ _) (by decide) 5
  exact absurd decides (by decide)

end Variables
end MyTools.Mpi
