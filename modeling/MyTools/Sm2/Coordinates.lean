import MyTools.Sm2.Hash
import MyTools.Sm3.Digest

/-! `sm3_z` and `sm3_e` on coordinates that are shorter than 32 octets. Both place a coordinate by its
length, but `sm3_z` copies 32 octets whatever the length. -/
namespace MyTools.Sm2
open Library

structure Coordinate where
  bytes : Bytes
  short : bytes.length ≤ 32

section
variable (sm3 : Bytes → Octets) (blocks blocks' : (size : ℕ) → Vector UInt8 size)

theorem sm3Z_reads (id : Identity) {xa ya : Bytes} (less : xa.length < 32 ∨ ya.length < 32) {xaLen yaLen : ℤ}
    (valid : ¬ (32 < xaLen ∨ 32 < yaLen)) (z : Octets) :
    sm3Z sm3 (granted blocks) id.bytes id.bytes.length xa xaLen ya yaLen z = none := by
  apply Option.eq_none_iff_forall_ne_some.mpr
  intro r run
  simp only [sm3Z, granted, if_neg valid, Option.bind_eq_bind, Option.bind_eq_some_iff] at run
  obtain ⟨-, -, -, -, -, -, -, -, -, -, -, -, x, x_read, -, -, y, y_read, -⟩ := run
  have x_inside := (Bytes.read_eq_some x_read).1
  have y_inside := (Bytes.read_eq_some y_read).1
  omega

/-- Whatever lies behind the coordinates: `sm3_z` stores behind its buffer when `ya_len` is less than 32. -/
theorem sm3Z_stores (id : Identity) (xa ya : Bytes) {xaLen yaLen : ℤ} (valid : ¬ (32 < xaLen ∨ 32 < yaLen))
    (less : yaLen < 32) (z : Octets) :
    sm3Z sm3 (granted blocks) id.bytes id.bytes.length xa xaLen ya yaLen z = none := by
  apply Option.eq_none_iff_forall_ne_some.mpr
  intro r run
  simp only [sm3Z, granted, if_neg valid, Option.bind_eq_bind, Option.bind_eq_some_iff] at run
  obtain ⟨sum, summed, b₁, w₁, x₂, -, b₂, w₂, b₃, w₃, b₄, w₄, x₅, -, b₅, w₅, y, y_read, b₆, w₆, -⟩ := run
  have fits := id.fits
  obtain ⟨rfl, -⟩ := of_intSum summed
  have size : sizeT (2 + id.bytes.length + 128 + 32 + 32) = id.bytes.length + 194 := by
    unfold sizeT
    omega
  have kept : b₅.length = id.bytes.length + 194 := by
    rw [Bytes.write_length w₅, Bytes.write_length w₄, Bytes.write_length w₃, Bytes.write_length w₂, Bytes.write_length w₁,
      Vector.length_toList, size]
  have y_size := (Bytes.read_eq_some y_read).2.2
  have inside := (Bytes.write_inside w₆).2
  omega

theorem sm3Z_padded {id : Identity} (fits : id.bytes.length + 194 < 2 ^ 31) {xa ya : Bytes} (xa_whole : xa.length = 32)
    (ya_whole : ya.length = 32) (z : Octets) :
    sm3Z sm3 (granted blocks) id.bytes id.bytes.length xa xa.length ya ya.length z = some (0, sm3 (paddedMessage id xa ya)) := by
  have run := sm3Z_run sm3 blocks id ⟨⟨xa⟩, xa_whole⟩ ⟨⟨ya⟩, ya_whole⟩ z
  rw [← paddedMessage_octets, if_pos fits] at run
  rw [xa_whole, ya_whole]
  exact run

theorem sm3E_overflows {id : Identity} (long : 2 ^ 31 ≤ id.bytes.length + 194) {xa ya : Bytes} {xaLen yaLen : ℤ}
    (valid : ¬ (32 < xaLen ∨ 32 < yaLen)) (msg : Bytes) (e : Octets) :
    sm3E sm3 (granted blocks) (granted blocks') id.bytes id.bytes.length xa xaLen ya yaLen msg msg.length e = none := by
  have overflow : intSum (2 + id.bytes.length + 128 + 32 + 32) = none := if_neg (by omega)
  rw [sm3E, if_neg valid, overflow]
  rfl

end

/-- Both routines hash the padded string, `sm3_e` in front of the message. The coordinates are objects of just
their lengths, so that a read behind them is undefined, as is a store outside of the buffer. -/
def SameZ (sm3 : Bytes → Octets) (id : Identity) (xa ya : Coordinate) : Prop :=
  ∀ (blocks blocks' : (size : ℕ) → Vector UInt8 size) (z e : Octets) (msg : Bytes), msg.length + 32 < 2 ^ 31 →
    sm3Z sm3 (granted blocks) id.bytes id.bytes.length xa.bytes xa.bytes.length ya.bytes ya.bytes.length z =
      some (0, sm3 (paddedMessage id xa.bytes ya.bytes)) ∧
    sm3E sm3 (granted blocks) (granted blocks') id.bytes id.bytes.length xa.bytes xa.bytes.length ya.bytes ya.bytes.length
      msg msg.length e = some (true, sm3 ((sm3 (paddedMessage id xa.bytes ya.bytes)).toList ++ msg))

/-- Just for whole coordinates, and identities for which the size of the buffer is an `int`. -/
theorem sameZ_iff (sm3 : Bytes → Octets) (id : Identity) (xa ya : Coordinate) :
    SameZ sm3 id xa ya ↔ xa.bytes.length = 32 ∧ ya.bytes.length = 32 ∧ id.bytes.length + 194 < 2 ^ 31 := by
  have x_short := xa.short
  have y_short := ya.short
  have valid : ¬ ((32 : ℤ) < xa.bytes.length ∨ (32 : ℤ) < ya.bytes.length) := by omega
  constructor
  · intro same
    obtain ⟨hash, digest⟩ := same (fun size => .replicate size 0) (fun size => .replicate size 0) (.replicate 32 0)
      (.replicate 32 0) [] (by decide)
    refine ⟨?_, ?_, ?_⟩
    · by_contra less
      rw [sm3Z_reads sm3 _ id (.inl (by omega)) valid] at hash
      cases hash
    · by_contra less
      rw [sm3Z_reads sm3 _ id (.inr (by omega)) valid] at hash
      cases hash
    · by_contra long
      rw [sm3E_overflows sm3 _ _ (by omega) valid] at digest
      cases digest
  · rintro ⟨x_whole, y_whole, fits⟩ blocks blocks' z e msg msg_fits
    refine ⟨sm3Z_padded sm3 blocks fits x_whole y_whole z, ?_⟩
    rw [sm3E_padded sm3 blocks blocks' fits x_short y_short, if_pos msg_fits]

theorem not_sameZ :
    ¬ SameZ Sm3.sm3 ⟨[], by decide⟩ ⟨List.replicate 32 1, by decide⟩ ⟨List.replicate 31 1, by decide⟩ := by
  intro same
  obtain ⟨hash, -⟩ := same (fun size => .replicate size 0) (fun size => .replicate size 0) (.replicate 32 0)
    (.replicate 32 0) [] (by decide)
  rw [sm3Z_reads Sm3.sm3 _ _ (.inr (by decide)) (by decide)] at hash
  cases hash

end MyTools.Sm2
