import MyTools.Library.Bytes
import MyTools.Library.Loop

/-! `hex_string_to_array`, by which the demonstration reads its keys. The octets of the pairs in front of a
character that is no digit have been stored when the string is rejected. -/
namespace MyTools.Sm2
open Library

/-- The value of a character; without one the routine returns -1. -/
def nibble (c : UInt8) : Option UInt8 :=
  if 0x30 ≤ c ∧ c ≤ 0x39 then some (c - 0x30)
  else if 0x41 ≤ c ∧ c ≤ 0x46 then some (c + 10 - 0x41)
  else if 0x61 ≤ c ∧ c ≤ 0x66 then some (c + 10 - 0x61)
  else none

/-- The pass over the characters `2 * p` and `2 * p + 1`. -/
def hexPass (inStr : Bytes) (p : ℕ) : (ℕ → UInt8) × UInt32 → Option (((ℕ → UInt8) × UInt32) ⊕ (ℕ → UInt8))
  | (outArray, k) => do
    match nibble (← inStr[2 * p]?) with
    | none => some (.inr outArray)
    | some hByte =>
      match nibble (← inStr[2 * p + 1]?) with
      | none => some (.inr outArray)
      | some lByte => some (.inl (Function.update outArray k.toNat (((hByte <<< 4) &&& 0xF0) ||| lByte), k + 1))

/-- `inStr` holds the characters in front of the terminating zero. The return code, `outArray` and `*outArrayLen`. -/
def hexStringToArray (inStr : Bytes) (outArray : ℕ → UInt8) (outArrayLen : UInt32) :
    Option (ℤ × (ℕ → UInt8) × UInt32) :=
  let inStrLen := UInt32.ofNat inStr.length
  if inStrLen % 2 ≠ 0 then some (-1, outArray, outArrayLen)
  else do
    match ← Loop.upUntil (hexPass inStr) (inStrLen / 2).toNat (outArray, 0) with
    | .inl (outArray, k) => some (0, outArray, k)
    | .inr outArray => some (-1, outArray, outArrayLen)

/-! The hexadecimal form. -/

def hexDigits : Bytes :=
  [0x30, 0x31, 0x32, 0x33, 0x34, 0x35, 0x36, 0x37, 0x38, 0x39, 0x61, 0x62, 0x63, 0x64, 0x65, 0x66]

def hexForm : Bytes → Bytes
  | [] => []
  | octet :: octets => hexDigits.getD (octet.toNat / 16) 0 :: hexDigits.getD (octet.toNat % 16) 0 :: hexForm octets

def lowerCase (c : UInt8) : UInt8 := if 0x41 ≤ c ∧ c ≤ 0x5A then c + 0x20 else c

def IsHexDigit (c : UInt8) : Prop := lowerCase c ∈ hexDigits

instance (c : UInt8) : Decidable (IsHexDigit c) := inferInstanceAs (Decidable (_ ∈ hexDigits))

theorem length_hexForm (octets : Bytes) : (hexForm octets).length = 2 * octets.length := by
  induction octets with
  | nil => rfl
  | cons octet octets ih => rw [hexForm, List.length_cons, List.length_cons, ih, List.length_cons, Nat.mul_succ]

private theorem every_octet {P : UInt8 → Prop} (all : ∀ n, n < 256 → P (UInt8.ofNat n)) (c : UInt8) : P c := by
  have holds := all c.toNat c.toNat_lt
  rwa [UInt8.ofNat_toNat] at holds

private theorem nibble_eq (c : UInt8) :
    nibble c = if IsHexDigit c then some (UInt8.ofNat (hexDigits.idxOf (lowerCase c))) else none := by
  revert c
  apply every_octet
  decide +kernel

theorem nibble_eq_none {c : UInt8} : nibble c = none ↔ ¬ IsHexDigit c := by
  rw [nibble_eq]
  split
  · next digit => exact iff_of_false (Option.some_ne_none _) (not_not.mpr digit)
  · next other => exact iff_of_true rfl other

theorem nibble_eq_some {c x : UInt8} (run : nibble c = some x) :
    x.toNat < 16 ∧ hexDigits.getD x.toNat 0 = lowerCase c := by
  rw [nibble_eq] at run
  split at run
  · next digit =>
    obtain rfl := Option.some.inj run
    have inside : hexDigits.idxOf (lowerCase c) < hexDigits.length := List.idxOf_lt_length_of_mem digit
    have below : hexDigits.idxOf (lowerCase c) < 16 := inside
    have small : (UInt8.ofNat (hexDigits.idxOf (lowerCase c))).toNat = hexDigits.idxOf (lowerCase c) := by
      rw [UInt8.toNat_ofNat']
      omega
    rw [small, List.getD_eq_getElem?_getD, List.getElem?_eq_getElem inside, Option.getD_some, List.getElem_idxOf]
    exact ⟨below, rfl⟩
  · cases run

def octetOf (hByte lByte : UInt8) : UInt8 := ((hByte <<< 4) &&& 0xF0) ||| lByte

theorem octetOf_toNat {hByte lByte : UInt8} (high : hByte.toNat < 16) (low : lByte.toNat < 16) :
    (octetOf hByte lByte).toNat / 16 = hByte.toNat ∧ (octetOf hByte lByte).toNat % 16 = lByte.toNat := by
  have parts : ∀ h, h < 16 → ∀ l, l < 16 → (octetOf (UInt8.ofNat h) (UInt8.ofNat l)).toNat / 16 = h ∧
      (octetOf (UInt8.ofNat h) (UInt8.ofNat l)).toNat % 16 = l := by decide +kernel
  have both := parts hByte.toNat high lByte.toNat low
  rwa [UInt8.ofNat_toNat, UInt8.ofNat_toNat] at both

def pairOctet (inStr : Bytes) (p : ℕ) : Option UInt8 := do
  let hByte ← nibble (← inStr[2 * p]?)
  let lByte ← nibble (← inStr[2 * p + 1]?)
  some (octetOf hByte lByte)

theorem pairOctet_eq_none {inStr : Bytes} {p : ℕ} (inside : 2 * p + 1 < inStr.length) :
    pairOctet inStr p = none ↔ ¬ (IsHexDigit inStr[2 * p] ∧ IsHexDigit inStr[2 * p + 1]) := by
  have first : inStr[2 * p]? = some inStr[2 * p] := List.getElem?_eq_getElem _
  have second : inStr[2 * p + 1]? = some inStr[2 * p + 1] := List.getElem?_eq_getElem inside
  rw [pairOctet, first, second, Option.bind_eq_bind, Option.bind_some]
  cases high : nibble inStr[2 * p] with
  | none => exact iff_of_true rfl fun both => nibble_eq_none.mp high both.1
  | some hByte =>
    have high_digit : IsHexDigit inStr[2 * p] := by
      by_contra other
      rw [nibble_eq_none.mpr other] at high
      cases high
    rw [Option.bind_some, Option.bind_some]
    cases low : nibble inStr[2 * p + 1] with
    | none => exact iff_of_true rfl fun both => nibble_eq_none.mp low both.2
    | some lByte =>
      refine iff_of_false (fun none_ => nomatch none_) (not_not.mpr ⟨high_digit, ?_⟩)
      by_contra other
      rw [nibble_eq_none.mpr other] at low
      cases low

theorem hexForm_pairs : ∀ inStr : Bytes, inStr.length % 2 = 0 → (∀ c, c ∈ inStr → IsHexDigit c) →
    ∃ octets, hexForm octets = inStr.map lowerCase ∧ ∀ p, pairOctet inStr p = octets[p]?
  | [], _, _ => ⟨[], rfl, fun _ => rfl⟩
  | [_], odd, _ => absurd odd Nat.one_ne_zero
  | first :: second :: rest, even, digits => by
    obtain ⟨octets, form, pairs⟩ := hexForm_pairs rest (by rw [List.length_cons, List.length_cons] at even; omega)
      fun c member => digits c (List.mem_cons_of_mem _ (List.mem_cons_of_mem _ member))
    have value {c : UInt8} (member : c ∈ first :: second :: rest) : ∃ x, nibble c = some x :=
      Option.ne_none_iff_exists'.mp fun none_ => nibble_eq_none.mp none_ (digits c member)
    obtain ⟨hByte, high⟩ := value (List.mem_cons_self)
    obtain ⟨lByte, low⟩ := value (List.mem_cons_of_mem _ List.mem_cons_self)
    obtain ⟨high_small, high_digit⟩ := nibble_eq_some high
    obtain ⟨low_small, low_digit⟩ := nibble_eq_some low
    obtain ⟨upper, lower⟩ := octetOf_toNat high_small low_small
    refine ⟨octetOf hByte lByte :: octets, ?_, fun p => ?_⟩
    · rw [hexForm, upper, lower, high_digit, low_digit, form]
      rfl
    · cases p with
      | zero =>
        simp only [pairOctet, Nat.mul_zero, Nat.zero_add, List.getElem?_cons_zero, List.getElem?_cons_succ,
          Option.bind_eq_bind, Option.bind_some, high, low]
      | succ p =>
        rw [List.getElem?_cons_succ, ← pairs, pairOctet, pairOctet, Nat.mul_succ]
        rfl

/-- The first `p` octets are those of the pairs. -/
def overlay (inStr : Bytes) (outArray : ℕ → UInt8) (p i : ℕ) : UInt8 :=
  if i < p then (pairOctet inStr i).getD 0 else outArray i

theorem hexPass_run {inStr : Bytes} {p : ℕ} (inside : 2 * p + 1 < inStr.length) (outArray : ℕ → UInt8) (k : UInt32) :
    hexPass inStr p (outArray, k) = some (match pairOctet inStr p with
      | none => .inr outArray
      | some octet => .inl (Function.update outArray k.toNat octet, k + 1)) := by
  have first : inStr[2 * p]? = some inStr[2 * p] := List.getElem?_eq_getElem _
  have second : inStr[2 * p + 1]? = some inStr[2 * p + 1] := List.getElem?_eq_getElem inside
  rw [hexPass, pairOctet, first, second, Option.bind_eq_bind, Option.bind_some, Option.bind_eq_bind, Option.bind_some]
  cases nibble inStr[2 * p] with
  | none => rfl
  | some hByte =>
    simp only [Option.bind_some]
    cases nibble inStr[2 * p + 1] with
    | none => rfl
    | some lByte => rfl

/-- The loop goes on to the end, or to the first pair that is no octet, and stores the octets of all pairs
that it passes. -/
theorem hexPasses_run (inStr : Bytes) (count : ℕ) (inside : 2 * count ≤ inStr.length) (small : count < 2 ^ 32)
    (outArray : ℕ → UInt8) :
    ∃ o, Loop.upUntil (hexPass inStr) count (outArray, 0) = some o ∧
      Loop.Outcome (fun s => (∀ q, q < count → pairOctet inStr q ≠ none) ∧
          s = (overlay inStr outArray count, UInt32.ofNat count))
        (fun r => ∃ p, p < count ∧ pairOctet inStr p = none ∧ (∀ q, q < p → pairOctet inStr q ≠ none) ∧
          r = overlay inStr outArray p) o := by
  apply Loop.upUntil_rule fun p s => (∀ q, q < p → pairOctet inStr q ≠ none) ∧
    s = (overlay inStr outArray p, UInt32.ofNat p)
  · refine ⟨fun q below => absurd below (Nat.not_lt_zero q), ?_⟩
    congr 1
  · rintro p _ below ⟨passed, rfl⟩
    rw [hexPass_run (by omega)]
    refine ⟨_, rfl, ?_⟩
    cases pair : pairOctet inStr p with
    | none => exact ⟨p, below, pair, passed, rfl⟩
    | some octet =>
      have place : (UInt32.ofNat p).toNat = p := by
        rw [UInt32.toNat_ofNat']
        omega
      refine ⟨fun q less => ?_, Prod.ext ?_ (UInt32.ofNat_add p 1).symm⟩
      · rcases Nat.lt_succ_iff_lt_or_eq.mp less with earlier | rfl
        · exact passed q earlier
        · rw [pair]
          exact Option.some_ne_none octet
      · funext i
        dsimp only
        rw [place]
        rcases Nat.lt_trichotomy i p with less | rfl | more
        · rw [Function.update_of_ne (Nat.ne_of_lt less), overlay, overlay, if_pos less, if_pos (Nat.lt_succ_of_lt less)]
        · rw [Function.update_self, overlay, if_pos (Nat.lt_succ_self i), pair, Option.getD_some]
        · rw [Function.update_of_ne (Nat.ne_of_gt more), overlay, overlay, if_neg (Nat.not_lt.mpr more.le),
            if_neg (Nat.not_lt.mpr more)]

theorem hexStringToArray_odd {inStr : Bytes} (odd : inStr.length % 2 = 1) (outArray : ℕ → UInt8) (outArrayLen : UInt32) :
    hexStringToArray inStr outArray outArrayLen = some (-1, outArray, outArrayLen) := by
  apply if_pos
  have two : (2 : UInt32).toNat = 2 := rfl
  rw [ne_eq, ← UInt32.toNat_inj, UInt32.toNat_mod, UInt32.toNat_ofNat', two]
  exact show ¬ inStr.length % 2 ^ 32 % 2 = 0 by omega

theorem hexStringToArray_even {inStr : Bytes} (even : inStr.length % 2 = 0) {count : ℕ}
    (size : inStr.length % 2 ^ 32 / 2 = count) (outArray : ℕ → UInt8) (outArrayLen : UInt32) :
    (∀ q, q < count → pairOctet inStr q ≠ none) ∧
        hexStringToArray inStr outArray outArrayLen = some (0, overlay inStr outArray count, UInt32.ofNat count) ∨
      ∃ p, p < count ∧ pairOctet inStr p = none ∧ (∀ q, q < p → pairOctet inStr q ≠ none) ∧
        hexStringToArray inStr outArray outArrayLen = some (-1, overlay inStr outArray p, outArrayLen) := by
  have length : (UInt32.ofNat inStr.length).toNat = inStr.length % 2 ^ 32 := UInt32.toNat_ofNat'
  have two : (2 : UInt32).toNat = 2 := rfl
  have parity : ¬ UInt32.ofNat inStr.length % 2 ≠ 0 := by
    rw [not_not, ← UInt32.toNat_inj, UInt32.toNat_mod, length, two]
    exact show inStr.length % 2 ^ 32 % 2 = 0 by omega
  have passes : (UInt32.ofNat inStr.length / 2).toNat = count := by rw [UInt32.toNat_div, length, two, size]
  obtain ⟨o, run, outcome⟩ := hexPasses_run inStr count (by omega) (by omega) outArray
  simp only [hexStringToArray, if_neg parity, passes, run, Option.bind_eq_bind, Option.bind_some]
  cases o with
  | inl s =>
    obtain ⟨passed, rfl⟩ := outcome
    exact .inl ⟨passed, rfl⟩
  | inr out =>
    obtain ⟨p, below, none_, passed, rfl⟩ := outcome
    exact .inr ⟨p, below, none_, passed, rfl⟩

/-! The contract. -/

/-- The string is accepted just where it is a hexadecimal form, its octets and their number are then stored, and
nothing is stored otherwise. -/
def Decodes (inStr : Bytes) (outArray : ℕ → UInt8) (outArrayLen : UInt32) : Prop :=
  ∃ (ret : ℤ) (out : ℕ → UInt8) (len : UInt32), hexStringToArray inStr outArray outArrayLen = some (ret, out, len) ∧
    (ret = 0 ↔ inStr.length % 2 = 0 ∧ ∀ c, c ∈ inStr → IsHexDigit c) ∧
    (ret = 0 → ∃ octets : Bytes, hexForm octets = inStr.map lowerCase ∧ octets.length = inStr.length / 2 ∧
      len.toNat = octets.length ∧ ∀ i, out i = octets.getD i (outArray i)) ∧
    (ret ≠ 0 → ret = -1 ∧ out = outArray ∧ len = outArrayLen)

/-- In the part of the string that is looked at, the octets in front of the first pair that is none are in
the array already. -/
def Untouched (inStr : Bytes) (outArray : ℕ → UInt8) : Prop :=
  ∃ p, 2 * p < inStr.length % 2 ^ 32 ∧ pairOctet inStr p = none ∧ ∀ q, q < p → pairOctet inStr q = some (outArray q)

theorem overlay_eq_iff {inStr : Bytes} {outArray : ℕ → UInt8} {p : ℕ} (passed : ∀ q, q < p → pairOctet inStr q ≠ none) :
    overlay inStr outArray p = outArray ↔ ∀ q, q < p → pairOctet inStr q = some (outArray q) := by
  constructor
  · intro same q below
    obtain ⟨octet, pair⟩ := Option.ne_none_iff_exists'.mp (passed q below)
    have stored := congrFun same q
    rw [overlay, if_pos below, pair, Option.getD_some] at stored
    rw [pair, stored]
  · intro stored
    funext i
    rw [overlay]
    split
    · next below => rw [stored i below, Option.getD_some]
    · rfl

theorem not_digits_of_pair {inStr : Bytes} {p : ℕ} (inside : 2 * p + 1 < inStr.length) (none_ : pairOctet inStr p = none) :
    ¬ ∀ c, c ∈ inStr → IsHexDigit c := fun digits =>
  (pairOctet_eq_none inside).mp none_ ⟨digits _ (List.getElem_mem _), digits _ (List.getElem_mem _)⟩

theorem digits_of_pairs {inStr : Bytes} (even : inStr.length % 2 = 0)
    (passed : ∀ q, q < inStr.length / 2 → pairOctet inStr q ≠ none) : ∀ c, c ∈ inStr → IsHexDigit c := by
  intro c member
  obtain ⟨i, inside, rfl⟩ := List.getElem_of_mem member
  have both := not_not.mp (mt (pairOctet_eq_none (show 2 * (i / 2) + 1 < inStr.length by omega)).mpr
    (passed (i / 2) (by omega)))
  rcases Nat.mod_two_eq_zero_or_one i with first | second
  · have place : 2 * (i / 2) = i := by omega
    simpa only [place] using both.1
  · have place : 2 * (i / 2) + 1 = i := by omega
    simpa only [place] using both.2

theorem hexStringToArray_decodes_iff (inStr : Bytes) (outArray : ℕ → UInt8) (outArrayLen : UInt32) :
    Decodes inStr outArray outArrayLen ↔ inStr.length % 2 = 1 ∨
      (inStr.length < 2 ^ 32 ∧ ∀ c, c ∈ inStr → IsHexDigit c) ∨ Untouched inStr outArray := by
  by_cases odd : inStr.length % 2 = 1
  · refine iff_of_true ⟨-1, outArray, outArrayLen, hexStringToArray_odd odd _ _, ?_, fun zero => absurd zero (by decide),
      fun _ => ⟨rfl, rfl, rfl⟩⟩ (.inl odd)
    exact iff_of_false (by decide) fun both => by omega
  · have even : inStr.length % 2 = 0 := by omega
    rw [or_iff_right odd, Decodes]
    generalize size : inStr.length % 2 ^ 32 / 2 = count
    rcases hexStringToArray_even even size outArray outArrayLen with ⟨passed, run⟩ | ⟨p, below, none_, passed, run⟩
    · have stored : (UInt32.ofNat count).toNat = count := by
        rw [UInt32.toNat_ofNat']
        omega
      by_cases short : inStr.length < 2 ^ 32
      · have digits := digits_of_pairs even fun q below => passed q (by omega)
        obtain ⟨octets, form, pairs⟩ := hexForm_pairs inStr even digits
        have number : octets.length = count := by
          have lengths := congrArg List.length form
          rw [length_hexForm, List.length_map] at lengths
          omega
        refine iff_of_true ⟨0, _, _, run, iff_of_true rfl ⟨even, digits⟩, fun _ => ⟨octets, form, by omega, ?_, fun i => ?_⟩,
          fun other => absurd rfl other⟩ (.inl ⟨short, digits⟩)
        · rw [stored, number]
        · rw [overlay, pairs, List.getD_eq_getElem?_getD]
          split
          · next below => rw [List.getElem?_eq_getElem (number ▸ below), Option.getD_some, Option.getD_some]
          · next above => rw [List.getElem?_eq_none (number ▸ Nat.not_lt.mp above), Option.getD_none]
      · refine iff_of_false ?_ ?_
        · rintro ⟨ret, out, len, run', -, accepted, -⟩
          obtain ⟨rfl, -, rfl⟩ : 0 = ret ∧ overlay inStr outArray count = out ∧ UInt32.ofNat count = len := by
            simpa only [run, Option.some.injEq, Prod.mk.injEq] using run'
          obtain ⟨octets, -, half, number, -⟩ := accepted rfl
          omega
        · rintro (⟨less, -⟩ | ⟨p, below, none_, -⟩)
          · exact short less
          · exact passed p (by omega) none_
    · have other : ¬ ∀ c, c ∈ inStr → IsHexDigit c := not_digits_of_pair (by omega) none_
      rw [or_iff_right fun both => other both.2]
      constructor
      · rintro ⟨ret, out, len, run', -, -, rejected⟩
        obtain ⟨rfl, rfl, -⟩ : -1 = ret ∧ overlay inStr outArray p = out ∧ outArrayLen = len := by
          simpa only [run, Option.some.injEq, Prod.mk.injEq] using run'
        exact ⟨p, by omega, none_, (overlay_eq_iff passed).mp (rejected (by decide)).2.1⟩
      · rintro ⟨p', -, none_', stored⟩
        have first : p' = p := by
          rcases Nat.lt_trichotomy p' p with less | same | more
          · exact absurd none_' (passed p' less)
          · exact same
          · exact absurd (none_.symm.trans (stored p more)) (Option.some_ne_none _).symm
        subst first
        exact ⟨-1, _, _, run, iff_of_false (by decide) fun both => other both.2, fun zero => absurd zero (by decide),
          fun _ => ⟨rfl, (overlay_eq_iff passed).mpr stored, rfl⟩⟩

/-- The string `00g0` is rejected after an octet of zeros has been stored. -/
theorem not_hexStringToArray_decodes : ¬ Decodes [0x30, 0x30, 0x67, 0x30] (fun _ => 0xFF) 0 := by
  rintro ⟨ret, out, len, run, accepted, -, rejected⟩
  have nonzero : ret ≠ 0 := fun zero => absurd ((accepted.mp zero).2 0x67 (by decide)) (by decide)
  obtain ⟨rfl, rfl, rfl⟩ := rejected nonzero
  have first := congrArg (Option.map fun result => result.2.1 0) run
  revert first
  decide +kernel

end MyTools.Sm2
