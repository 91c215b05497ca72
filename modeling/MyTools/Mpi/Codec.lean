import MyTools.Library.Bytes
import MyTools.Mpi.Addition
import Mathlib.Data.Nat.Digits.Lemmas

/-! Numbers read from octet strings and written as octet strings. Zero is written as no octets
at all, whatever the least length is. -/
namespace MyTools.Mpi
open Library

namespace CMpi

/-- Octet `i` goes into the word at the length, above the `j` octets that are in it. -/
def importOctet (abContent : Bytes) (i : ℕ) : CMpi × ℕ → Option (CMpi × ℕ)
  | (n, j) => do
    let n ← n.put n.length ((← n.get n.length) + (← abContent[i]?).toUInt32 <<< .ofNat (8 * j))
    if 4 ≤ j + 1 then do
      let n := { n with length := n.length + 1 }
      let n ← (if n.length ≠ 8 then n.put n.length 0 else some n)
      some (n, 0)
    else some (n, j + 1)

/-- `CMpi_Import`, which returns the length of the number. -/
def importBytes (n : CMpi) (abContent : Bytes) (iLength : ℕ) : Option CMpi := do
  let n := { n with carry := 0, length := 0, sign := .positive }
  if 32 < iLength then some n
  else do
    let n ← n.put n.length 0
    let (n, j) ← Loop.down (importOctet abContent) iLength (n, 0)
    some (if j ≠ 0 then { n with length := n.length + 1 } else n)

/-- `for (k = 3; 0 == (u >> (k * 8)); k--)` -/
def topOctet (u : UInt32) : Option ℕ :=
  (Loop.scan (fun k => some (if u >>> .ofNat (k * 8) = 0 then none else some (some k))) none 4).join

/-- `while (iOut < iMinLength)` a zero is written and `iMinLength` is lowered. -/
def pad (iOut : ℕ) : (iMinLength : ℕ) → Bytes → Bytes
  | 0, out => out
  | iMinLength + 1, out => if iOut < iMinLength + 1 then pad iOut iMinLength (out ++ [0]) else out

/-- The last octets of a word, the highest first. -/
def putOctets (u : UInt32) (count : ℕ) (out : Bytes) : Option Bytes :=
  Loop.down (fun k out => some (out ++ [(u >>> .ofNat (k * 8)).toUInt8])) count out

/-- `CMpi_Export`: the octets that are written, whose number is returned. Below the highest word the next one
is read in any case, and not used when it is `before`, the one in front of the number. -/
def exportBytes (n : CMpi) (before : UInt32) (iMinLength : ℕ) : Option Bytes := do
  let words ← n.topLength n.length
  if words = 0 then some []
  else do
    let j := words - 1
    let u ← n.get j
    let k ← topOctet u
    let out ← putOctets u (k + 1) (pad (j * 4 + k + 1) iMinLength [])
    let _ ← (if j = 0 then some before else n.get (j - 1))
    Loop.down (fun i out => do putOctets (← n.get i) 4 out) j out

end CMpi

/-! Import. -/

theorem radix_octets : radix = 256 ^ 4 := by decide

namespace CMpi

/-- After `count` octets: the word at the length is being filled and has `j` octets. -/
private structure Importing (content : Bytes) (count : ℕ) (s : CMpi × ℕ) : Prop where
  sign : s.1.sign = .positive
  place : 4 * s.1.length + s.2 = count
  part : s.2 < 4
  small : s.1.digit s.1.length < 256 ^ s.2
  value : Limbs.value radix s.1.digit (s.1.length + 1) = Bytes.value (content.drop (content.length - count))

private theorem octet_fits {word : UInt32} (octet : UInt8) {j : ℕ} (part : j < 4) (small : word.toNat < 256 ^ j) :
    (word + octet.toUInt32 <<< UInt32.ofNat (8 * j)).toNat = word.toNat + octet.toNat * 256 ^ j ∧
      word.toNat + octet.toNat * 256 ^ j < 256 ^ (j + 1) := by
  have octet_small : octet.toNat < 256 := octet.toNat_lt
  have scaled : octet.toNat * 256 ^ j + 256 ^ j ≤ 256 ^ (j + 1) := by
    rw [pow_succ', ← Nat.succ_mul]
    exact Nat.mul_le_mul_right _ octet_small
  have whole : 256 ^ (j + 1) ≤ 2 ^ 32 := Nat.pow_le_pow_right (n := 256) (by decide) (show j + 1 ≤ 4 by omega)
  have count : (UInt32.ofNat (8 * j)).toNat % 32 = 8 * j := by
    have size : radix = 4294967296 := rfl
    rw [toNat_ofNat, size]
    omega
  have base : 2 ^ 8 = 256 := by decide
  have shifted : (octet.toUInt32 <<< UInt32.ofNat (8 * j)).toNat = octet.toNat * 256 ^ j := by
    rw [UInt32.toNat_shiftLeft, count, Nat.shiftLeft_eq, UInt8.toNat_toUInt32, pow_mul, base]
    exact Nat.mod_eq_of_lt (by omega)
  refine ⟨?_, by omega⟩
  rw [UInt32.toNat_add, shifted]
  exact Nat.mod_eq_of_lt (by omega)

private theorem importOctet_run {content : Bytes} (fits : content.length ≤ 32) {i : ℕ} (inside : i < content.length)
    {s : CMpi × ℕ} (holds : Importing content (content.length - (i + 1)) s) :
    ∃ s', importOctet content i s = some s' ∧ Importing content (content.length - i) s' := by
  obtain ⟨n, j⟩ := s
  obtain ⟨sign, place, part, small, value⟩ := holds
  dsimp only at place part small value sign
  have read : content[i]? = some content[i] := List.getElem?_eq_getElem inside
  have room : n.length < 8 := by omega
  obtain ⟨stored, bounded⟩ := octet_fits content[i] part small
  generalize word : n.wordAt n.length + content[i].toUInt32 <<< UInt32.ofNat (8 * j) = w at stored
  have grown : Limbs.value radix (n.set n.length w).digit (n.length + 1) =
      Bytes.value (content.drop (content.length - (content.length - i))) := by
    have from_ : content.length - (content.length - (i + 1)) = i + 1 := by omega
    have start : content.length - (content.length - i) = i := by omega
    have count : (content.drop (i + 1)).length = 4 * n.length + j := by
      rw [List.length_drop, place]
    have lower : Limbs.value radix (n.set n.length w).digit n.length = Limbs.value radix n.digit n.length :=
      Limbs.value_congr fun k below => digit_set_ne n (Nat.ne_of_lt below) w
    rw [from_] at value
    rw [start, List.drop_eq_getElem_cons inside, Bytes.value_cons, ← value, count, Limbs.value_succ, Limbs.value_succ,
      lower, digit_set_self n room, stored, radix_octets, ← pow_mul, pow_add]
    rw [digit]
    ring
  have top : (n.set n.length w).digit n.length < 256 ^ (j + 1) := by
    rw [digit_set_self n room, stored]
    exact bounded
  rw [importOctet, read, get_eq n room, Option.bind_eq_bind, Option.bind_some, Option.bind_eq_bind, Option.bind_some,
    put_eq n room, word, Option.bind_eq_bind, Option.bind_some]
  by_cases full : 4 ≤ j + 1
  · obtain rfl : j = 3 := by omega
    obtain ⟨m, run, m_sign, m_length, same, clear⟩ : ∃ m : CMpi,
        (if n.length + 1 ≠ 8 then { n.set n.length w with length := n.length + 1 }.put (n.length + 1) 0
          else some { n.set n.length w with length := n.length + 1 }) = some m ∧
        m.sign = n.sign ∧ m.length = n.length + 1 ∧ (∀ k, k ≤ n.length → m.digit k = (n.set n.length w).digit k) ∧
          m.digit (n.length + 1) = 0 := by
      by_cases last : n.length + 1 = 8
      · refine ⟨_, if_neg (not_not.mpr last), rfl, rfl, fun _ _ => rfl, ?_⟩
        rw [digit, wordAt_outside _ (Nat.le_of_eq last.symm)]
        rfl
      · have next : n.length + 1 < 8 := by omega
        refine ⟨_, (if_pos last).trans (put_eq _ next 0), rfl, rfl, fun k below => ?_, digit_set_self _ next 0⟩
        exact digit_set_ne _ (by omega) 0
    rw [if_pos full]
    refine ⟨(m, 0), (congrArg (Option.bind · _) run).trans rfl, m_sign.trans sign, ?_, Nat.zero_lt_succ 3, ?_, ?_⟩
    · dsimp only
      omega
    · dsimp only
      rw [m_length, clear]
      decide
    · dsimp only
      rw [m_length, Limbs.value_succ, clear, Nat.zero_mul, Nat.add_zero, ← grown]
      exact Limbs.value_congr fun k below => same k (Nat.lt_succ_iff.mp below)
  · rw [if_neg full]
    refine ⟨_, rfl, sign, ?_, ?_, top, grown⟩
    · dsimp only [set_length]
      omega
    · dsimp only
      omega

/-- A number as it is read: in as many words as the octets need. -/
structure Imported (content : Bytes) (r : CMpi) : Prop where
  sign : r.sign = .positive
  length : r.length = (content.length + 3) / 4
  value : r.abs = Bytes.value content
  blank : content.length = 0 → r.wordAt 0 = 0

theorem importBytes_imported (n : CMpi) (content : Bytes) (fits : content.length ≤ 32) :
    ∃ r, n.importBytes content content.length = some r ∧ Imported content r := by
  have first : 0 < 8 := by decide
  rw [importBytes]
  dsimp only
  rw [if_neg (Nat.not_lt.mpr fits), put_eq _ first, Option.bind_eq_bind, Option.bind_some]
  apply Loop.seq_rule fun s => Importing content (content.length - 0) s
  · apply Loop.down_rule fun i s => Importing content (content.length - i) s
    · refine ⟨rfl, (Nat.sub_self _).symm, Nat.zero_lt_succ 3, ?_, ?_⟩
      · exact Nat.lt_of_le_of_lt (Nat.le_of_eq (digit_set_self _ first 0)) Nat.one_pos
      · dsimp only [set_length]
        rw [Nat.sub_self, Nat.sub_zero, List.drop_length, Limbs.value_succ, digit_set_self _ first]
        rfl
    · exact fun i s inside holds => importOctet_run fits inside holds
  · rintro ⟨n, j⟩ ⟨sign, place, part, small, value⟩
    dsimp only at sign place part small value ⊢
    rw [Nat.sub_zero, Nat.sub_self, List.drop_zero] at value
    by_cases whole : j = 0
    · rw [whole, pow_zero, Nat.lt_one_iff] at small
      rw [Limbs.value_succ, small, Nat.zero_mul, Nat.add_zero] at value
      rw [if_neg (not_not.mpr whole)]
      refine ⟨n, rfl, sign, by omega, value, fun empty => wordAt_eq_zero.mpr ?_⟩
      have none_ : n.length = 0 := by omega
      rwa [none_] at small
    · rw [if_pos whole]
      exact ⟨_, rfl, sign, by dsimp only; omega, value, fun empty => by omega⟩

theorem importBytes_run (n : CMpi) (content : Bytes) (fits : content.length ≤ 32) :
    ∃ r, n.importBytes content content.length = some r ∧ r.sign = .positive ∧ r.length ≤ 8 ∧
      r.abs = Bytes.value content := by
  obtain ⟨r, run, imported⟩ := n.importBytes_imported content fits
  have length := imported.length
  exact ⟨r, run, imported.sign, by omega, imported.value⟩

theorem importBytes_take (n : CMpi) (content : Bytes) (count : ℕ) :
    n.importBytes content count = n.importBytes (content.take count) count := by
  have same (i : ℕ) (inside : i < count) : importOctet content i = importOctet (content.take count) i := by
    funext ⟨m, j⟩
    rw [importOctet, importOctet, List.getElem?_take_of_lt inside]
  rw [importBytes, importBytes]
  simp only [Loop.down_congr same]

theorem importBytes_short (n : CMpi) {content : Bytes} {count : ℕ} (short : content.length < count) (fits : count ≤ 32) :
    n.importBytes content count = none := by
  obtain ⟨last, rfl⟩ := Nat.exists_eq_succ_of_ne_zero (Nat.ne_of_gt (Nat.lt_of_le_of_lt (Nat.zero_le _) short))
  have first : 0 < 8 := by decide
  have outside : content[last]? = none := List.getElem?_eq_none (Nat.lt_succ_iff.mp short)
  rw [importBytes]
  dsimp only
  rw [if_neg (Nat.not_lt.mpr fits), put_eq _ first, Option.bind_eq_bind, Option.bind_some, Loop.down, importOctet]
  dsimp only [set_length]
  rw [get_eq _ first, outside]
  rfl

/-! Export. -/

private theorem octet_toNat (u : UInt32) {k : ℕ} (inside : k < 4) :
    (u >>> UInt32.ofNat (k * 8)).toNat = u.toNat / 256 ^ k := by
  have count : (UInt32.ofNat (k * 8)).toNat % 32 = 8 * k := by
    have size : radix = 4294967296 := rfl
    rw [toNat_ofNat, size]
    omega
  have base : 2 ^ 8 = 256 := by decide
  rw [UInt32.toNat_shiftRight, count, Nat.shiftRight_eq_div_pow, pow_mul, base]

private theorem topOctet_run {u : UInt32} (nonzero : u.toNat ≠ 0) :
    ∃ k, topOctet u = some k ∧ k < 4 ∧ 256 ^ k ≤ u.toNat ∧ u.toNat < 256 ^ (k + 1) := by
  have tested (k : ℕ) (inside : k < 4) : u >>> UInt32.ofNat (k * 8) = 0 ↔ u.toNat < 256 ^ k := by
    rw [← UInt32.toNat_inj, octet_toNat u inside]
    exact Nat.div_eq_zero_iff_lt (Nat.pow_pos (by decide))
  have fits : u.toNat < 256 ^ 4 := u.toNat_lt
  obtain ⟨r, run, k, rfl, below, least, most⟩ : ∃ r, Loop.scan (fun k =>
      some (if u >>> UInt32.ofNat (k * 8) = 0 then none else some (some k))) none 4 = some r ∧
        ∃ k, r = some k ∧ k < 4 ∧ 256 ^ k ≤ u.toNat ∧ u.toNat < 256 ^ (k + 1) := by
    apply Loop.scan_rule
    · exact fun k inside undefined => nomatch undefined
    · intro k r inside above returned
      rw [Option.some.injEq] at returned
      split_ifs at returned with zero
      refine ⟨k, (Option.some.inj returned).symm, inside, Nat.not_lt.mp fun less => zero ((tested k inside).mpr less), ?_⟩
      rcases Nat.eq_or_lt_of_le (Nat.succ_le_of_lt inside) with last | next
      · have whole : k + 1 = 4 := last
        rw [whole]
        exact fits
      · have passed := above (k + 1) (Nat.lt_succ_self k) next
        rw [Option.some.injEq] at passed
        split_ifs at passed with zero
        exact (tested (k + 1) next).mp zero
    · intro all
      have passed := all 0 (by decide)
      rw [Option.some.injEq] at passed
      split_ifs at passed with zero
      exact absurd (Nat.lt_one_iff.mp ((tested 0 (by decide)).mp zero)) nonzero
  exact ⟨k, congrArg Option.join run, below, least, most⟩

private theorem pad_eq (iOut iMinLength : ℕ) (out : Bytes) :
    pad iOut iMinLength out = out ++ List.replicate (iMinLength - iOut) 0 := by
  induction iMinLength generalizing out with
  | zero => rw [pad, Nat.zero_sub, List.replicate_zero, List.append_nil]
  | succ iMinLength ih =>
    rw [pad]
    split
    · next more =>
      have count : iMinLength + 1 - iOut = iMinLength - iOut + 1 := by omega
      rw [ih, count, List.replicate_succ, List.append_assoc, List.singleton_append]
    · next enough => rw [Nat.sub_eq_zero_of_le (Nat.not_lt.mp enough), List.replicate_zero, List.append_nil]

private theorem putOctets_run (u : UInt32) {count : ℕ} (inside : count ≤ 4) (out : Bytes) :
    ∃ out', putOctets u count out = some out' ∧ out'.length = out.length + count ∧
      Bytes.value out' = Bytes.value out * 256 ^ count + u.toNat % 256 ^ count := by
  obtain ⟨out', run, length, value⟩ : ∃ out', putOctets u count out = some out' ∧
      out'.length + 0 = out.length + count ∧
        Bytes.value out' * 256 ^ 0 + u.toNat % 256 ^ 0 = Bytes.value out * 256 ^ count + u.toNat % 256 ^ count := by
    apply Loop.down_rule fun k (s : Bytes) => s.length + k = out.length + count ∧
      Bytes.value s * 256 ^ k + u.toNat % 256 ^ k = Bytes.value out * 256 ^ count + u.toNat % 256 ^ count
    · exact ⟨rfl, rfl⟩
    · intro k s below ⟨length, value⟩
      refine ⟨_, rfl, ?_, ?_⟩
      · rw [List.length_append, List.length_singleton, ← length]
        omega
      · have octet : (u >>> UInt32.ofNat (k * 8)).toUInt8.toNat = u.toNat / 256 ^ k % 256 := by
          rw [UInt32.toNat_toUInt8, octet_toNat u (by omega)]
        rw [Bytes.value_concat, octet, ← value, pow_succ, Nat.mod_mul]
        ring
  refine ⟨out', run, length, ?_⟩
  rw [pow_zero, Nat.mod_one, Nat.mul_one, Nat.add_zero] at value
  exact value

end CMpi

def octetLength (v : ℕ) : ℕ := (Nat.digits 256 v).length

theorem octetLength_eq {v m : ℕ} (least : 256 ^ m ≤ v) (most : v < 256 ^ (m + 1)) : octetLength v = m + 1 := by
  have upper := (Nat.digits_length_le_iff (by decide) v).mpr most
  have lower : ¬ octetLength v ≤ m := fun short =>
    absurd ((Nat.digits_length_le_iff (by decide) v).mp short) (Nat.not_lt.mpr least)
  exact Nat.le_antisymm upper (Nat.not_le.mp lower)

namespace CMpi

theorem exportBytes_zero (n : CMpi) (before : UInt32) (w : ℕ) (bounded : n.length ≤ 8) (zero : n.abs = 0) :
    n.exportBytes before w = some [] := by
  obtain ⟨words, run, short, -, top⟩ := n.topLength_run bounded
  have none_ : words = 0 := by
    by_contra some_
    obtain ⟨j, rfl⟩ := Nat.exists_eq_succ_of_ne_zero some_
    exact top j rfl (abs_eq_zero.mp zero j short)
  rw [exportBytes, run, Option.bind_eq_bind, Option.bind_some, if_pos none_]

theorem exportBytes_run (n : CMpi) (before : UInt32) (w : ℕ) (bounded : n.length ≤ 8) (nonzero : n.abs ≠ 0) :
    n.exportBytes before w = some (Bytes.ofNat (max w (octetLength n.abs)) n.abs) := by
  obtain ⟨words, run, short, above, top⟩ := n.topLength_run bounded
  have some_ : words ≠ 0 := by
    rintro rfl
    exact nonzero (abs_eq_zero.mpr fun i inside => above i (Nat.zero_le i) inside)
  obtain ⟨j, rfl⟩ := Nat.exists_eq_succ_of_ne_zero some_
  rw [Nat.succ_eq_add_one] at run short above top some_
  have place : j < 8 := by omega
  obtain ⟨k, k_run, k_small, least, most⟩ := topOctet_run (u := n.wordAt j) (top j rfl)
  have value : n.abs = Limbs.value radix n.digit j + n.digit j * radix ^ j :=
    Limbs.value_of_zeros short fun i low high => above i low high
  have lower : Limbs.value radix n.digit j < radix ^ j := Limbs.value_lt fun i _ => n.digit_lt i
  have power : radix ^ j = 256 ^ (j * 4) := by rw [radix_octets, ← pow_mul, Nat.mul_comm]
  have size : octetLength n.abs = j * 4 + k + 1 := by
    apply octetLength_eq
    · rw [value, pow_add, ← power, Nat.mul_comm]
      exact Nat.le_trans (Nat.mul_le_mul_right _ least) (Nat.le_add_left _ _)
    · have scaled := Nat.mul_le_mul_right (radix ^ j) (Nat.succ_le_of_lt most)
      rw [Nat.succ_mul] at scaled
      rw [value, Nat.add_assoc, pow_add, ← power, Nat.mul_comm (radix ^ j)]
      exact Nat.lt_of_lt_of_le (Nat.add_lt_add_right lower _) (Nat.add_comm _ _ ▸ scaled)
  obtain ⟨out, out_run, out_length, out_value⟩ := putOctets_run (n.wordAt j) (show k + 1 ≤ 4 by omega)
    (pad (j * 4 + k + 1) w [])
  rw [pad_eq, List.nil_append] at out_length out_value
  rw [List.length_replicate] at out_length
  rw [Bytes.value_zeros, Nat.zero_mul, Nat.zero_add, Nat.mod_eq_of_lt most] at out_value
  have reads : ∃ x, (if j = 0 then some before else n.get (j - 1)) = some x := by
    split
    · exact ⟨before, rfl⟩
    · exact ⟨_, get_eq n (show j - 1 < 8 by omega)⟩
  obtain ⟨x, read⟩ := reads
  -- what is written, followed by the words below, is the number
  obtain ⟨bytes, bytes_run, length, denoted⟩ : ∃ bytes, Loop.down (fun i out => do putOctets (← n.get i) 4 out) j out =
      some bytes ∧ bytes.length + 4 * 0 = out.length + 4 * j ∧
        Bytes.value bytes * radix ^ 0 + Limbs.value radix n.digit 0 = n.abs := by
    apply Loop.down_rule fun i (s : Bytes) => s.length + 4 * i = out.length + 4 * j ∧
      Bytes.value s * radix ^ i + Limbs.value radix n.digit i = n.abs
    · refine ⟨rfl, ?_⟩
      rw [out_value, value, Nat.add_comm]
      rfl
    · intro i s inside ⟨length, denoted⟩
      obtain ⟨s', run, s_length, s_value⟩ := putOctets_run (n.wordAt i) (Nat.le_refl 4) s
      rw [get_eq n (show i < 8 by omega), Option.bind_eq_bind, Option.bind_some]
      refine ⟨s', run, by omega, ?_⟩
      have whole : (n.wordAt i).toNat % 256 ^ 4 = n.digit i := Nat.mod_eq_of_lt (n.digit_lt i)
      rw [s_value, whole, ← denoted, ← radix_octets, pow_succ, Limbs.value_succ]
      ring
  have count : bytes.length = max w (octetLength n.abs) := by
    rw [size]
    omega
  rw [pow_zero, Nat.mul_one, Limbs.value_zero, Nat.add_zero] at denoted
  rw [exportBytes, run, Option.bind_eq_bind, Option.bind_some, if_neg some_, Nat.add_sub_cancel]
  dsimp only
  rw [get_eq n place, Option.bind_eq_bind, Option.bind_some, k_run, Option.bind_some, out_run, Option.bind_eq_bind,
    Option.bind_some, read, Option.bind_some, ← count, ← denoted, Bytes.ofNat_value]
  exact bytes_run

/-- A number is written with the octets it needs, or with more, and read back. -/
def Exports (n : CMpi) (w : ℕ) : Prop :=
  ∀ (before : UInt32) (m : CMpi), ∃ out r, n.exportBytes before w = some out ∧
    out.length = max w (octetLength n.abs) ∧ out = Bytes.ofNat out.length n.abs ∧
      m.importBytes out out.length = some r ∧ r.toInt = n.toInt

def Returns (s : Bytes) : Prop :=
  ∀ (before : UInt32) (m : CMpi), ∃ r, m.importBytes s s.length = some r ∧ r.exportBytes before s.length = some s

theorem exports_iff (n : CMpi) (w : ℕ) (bounded : n.length ≤ 8) (nonneg : 0 ≤ n.toInt) (width : w ≤ 32) :
    Exports n w ↔ n.abs ≠ 0 ∨ w = 0 := by
  have magnitude : n.toInt = n.abs := by
    rw [← natAbs_toInt, Int.natAbs_of_nonneg nonneg]
  have fits : n.abs < 256 ^ 32 := by
    have words := Nat.pow_le_pow_right radix_pos bounded
    rw [show 32 = 4 * 8 by rfl, pow_mul, ← radix_octets]
    exact Nat.lt_of_lt_of_le n.abs_lt words
  have short : octetLength n.abs ≤ 32 := (Nat.digits_length_le_iff (by decide) n.abs).mpr fits
  constructor
  · intro exports
    by_contra neither
    obtain ⟨zero, some_⟩ := not_or.mp neither
    obtain ⟨out, r, run, length, -⟩ := exports 0 n
    rw [exportBytes_zero n 0 w bounded (not_not.mp zero), Option.some.injEq] at run
    rw [← run, List.length_nil] at length
    omega
  · intro either before m
    by_cases zero : n.abs = 0
    · have none_ := either.resolve_left (not_not.mpr zero)
      obtain ⟨r, run, sign, -, value⟩ := m.importBytes_run [] (Nat.zero_le 32)
      refine ⟨[], r, exportBytes_zero n before w bounded zero, ?_, rfl, run, ?_⟩
      · rw [none_, zero]
        rfl
      · rw [magnitude, toInt, sign, value, zero]
        rfl
    · have length := Bytes.length_ofNat (max w (octetLength n.abs)) n.abs
      obtain ⟨r, run, sign, -, value⟩ := m.importBytes_run (Bytes.ofNat (max w (octetLength n.abs)) n.abs) (by omega)
      refine ⟨_, r, exportBytes_run n before w bounded zero, length, by rw [length], run, ?_⟩
      have enough : n.abs < 256 ^ max w (octetLength n.abs) :=
        (Nat.digits_length_le_iff (by decide) n.abs).mp (le_max_right w (octetLength n.abs))
      rw [magnitude, toInt, sign, value, Bytes.value_ofNat_of_lt enough]

theorem returns_iff (s : Bytes) (fits : s.length ≤ 32) : Returns s ↔ Bytes.value s ≠ 0 ∨ s = [] := by
  constructor
  · intro returns
    by_contra neither
    obtain ⟨zero, some_⟩ := not_or.mp neither
    obtain ⟨r, run, written⟩ := returns 0 ⟨.replicate 8 0, 0, .positive, 0⟩
    obtain ⟨r', run', -, bounded, value⟩ := importBytes_run ⟨.replicate 8 0, 0, .positive, 0⟩ s fits
    rw [run, Option.some.injEq] at run'
    subst run'
    rw [exportBytes_zero r 0 s.length bounded (value.trans (not_not.mp zero)), Option.some.injEq] at written
    exact some_ written.symm
  · intro either before m
    obtain ⟨r, run, -, bounded, value⟩ := m.importBytes_run s fits
    refine ⟨r, run, ?_⟩
    by_cases zero : r.abs = 0
    · rw [exportBytes_zero r before s.length bounded zero, either.resolve_left (not_not.mpr (value.symm.trans zero))]
    · have enough : octetLength r.abs ≤ s.length :=
        (Nat.digits_length_le_iff (by decide) r.abs).mpr (value ▸ s.value_lt)
      rw [exportBytes_run r before s.length bounded zero, max_eq_left enough, value, Bytes.ofNat_value]

/-- The codecs are inverse, with any least width, on all numbers and strings but zero with a width and strings of
zeros: zero is exported as no octets. -/
theorem codec_iff (n : CMpi) (w : ℕ) (s : Bytes) (bounded : n.length ≤ 8) (nonneg : 0 ≤ n.toInt) (width : w ≤ 32)
    (fits : s.length ≤ 32) : (Exports n w ↔ n.abs ≠ 0 ∨ w = 0) ∧ (Returns s ↔ Bytes.value s ≠ 0 ∨ s = []) :=
  ⟨exports_iff n w bounded nonneg width, returns_iff s fits⟩

def three : CMpi := ⟨(Vector.replicate 8 0).setIfInBounds 0 3, 0, .positive, 2⟩

theorem codec_iff_three :
    (Exports three 32 ↔ three.abs ≠ 0 ∨ 32 = 0) ∧ (Returns [0, 3] ↔ Bytes.value [0, 3] ≠ 0 ∨ [0, 3] = ([] : Bytes)) :=
  codec_iff three 32 [0, 3] (by decide) (by decide) (by decide) (by decide)

/-- Zero is not padded, and a string of one zero octet does not come back. -/
theorem not_codec :
    ¬ Exports { three with length := 0 } 32 ∧ ¬ Returns [0] := by
  constructor
  · intro exports
    obtain ⟨out, r, run, length, -⟩ := exports 0 three
    have none_ : CMpi.exportBytes { three with length := 0 } 0 32 = some [] := by decide +kernel
    rw [none_, Option.some.injEq] at run
    rw [← run] at length
    exact absurd length (by decide)
  · intro returns
    obtain ⟨r, run, written⟩ := returns 0 three
    have none_ : (three.importBytes [0] 1).bind (·.exportBytes 0 1) = some [] := by decide +kernel
    rw [show three.importBytes [0] 1 = some r from run, Option.bind_some] at none_
    exact absurd (written.symm.trans none_) (by decide)

end CMpi
end MyTools.Mpi
