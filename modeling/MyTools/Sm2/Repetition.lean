import MyTools.Sm2.Signature

/-! Two signatures whose last draws are the same give the private key away. -/
namespace MyTools.Sm2
open Library MyTools.Sm2.Miracl

/-- `(s' - s) / (r + s - r' - s')` modulo `n`, from what two signatures consist of. -/
def recovered (sig sig' : Signature) : ℕ :=
  let gap := sig.cr.value + sig.cs.value + (n - sig'.cr.value) + (n - sig'.cs.value)
  (sig'.cs.value + (n - sig.cs.value)) * Inverse.cofactor (gap % n) n % n

section
variable {d e e' multiple multiple' k : ℕ}

theorem cr_value : (signatureOf e d multiple k).cr.value = firstHalf e (multiple • base) :=
  octets_value ((firstHalf_lt e _).trans n_lt)

theorem cs_value : (signatureOf e d multiple k).cs.value = secondHalf d (firstHalf e (multiple • base)) k :=
  octets_value (secondHalf_lt.trans n_lt)

theorem repeated_equation (unit : Nat.Coprime (d + 1) n) (r r' k : ℕ) :
    (d * (r + secondHalf d r k - r' - secondHalf d r' k) : ZMod n) = secondHalf d r' k - secondHalf d r k := by
  have first := secondHalf_mul unit r k
  have second := secondHalf_mul unit r' k
  linear_combination first - second

theorem cast_opposite {x : ℕ} (below : x < n) : ((n - x : ℕ) : ZMod n) = -x := by
  rw [Nat.cast_sub below.le, ZMod.natCast_self, zero_sub]

theorem eq_of_cast {x y : ℕ} (x_lt : x < n) (y_lt : y < n) (same : (x : ZMod n) = y) : x = y := by
  rwa [ZMod.natCast_eq_natCast_iff', Nat.mod_eq_of_lt x_lt, Nat.mod_eq_of_lt y_lt] at same

theorem recovered_signatureOf (small : d + 1 < n) (apart : signatureOf e d multiple k ≠ signatureOf e' d multiple' k) :
    recovered (signatureOf e d multiple k) (signatureOf e' d multiple' k) = d := by
  have equation := repeated_equation (coprime_succ small) (firstHalf e (multiple • base))
    (firstHalf e' (multiple' • base)) k
  have r_lt := firstHalf_lt e (multiple • base)
  have r_lt' := firstHalf_lt e' (multiple' • base)
  have s_lt : secondHalf d (firstHalf e (multiple • base)) k < n := secondHalf_lt
  have s_lt' : secondHalf d (firstHalf e' (multiple' • base)) k < n := secondHalf_lt
  have differ : ¬(firstHalf e (multiple • base) = firstHalf e' (multiple' • base) ∧
      secondHalf d (firstHalf e (multiple • base)) k = secondHalf d (firstHalf e' (multiple' • base)) k) := by
    rintro ⟨same, same'⟩
    apply apart
    simp only [signatureOf, same]
  simp only [recovered, cr_value, cs_value]
  generalize secondHalf d (firstHalf e (multiple • base)) k = s at equation s_lt differ ⊢
  generalize secondHalf d (firstHalf e' (multiple' • base)) k = s' at equation s_lt' differ ⊢
  generalize firstHalf e (multiple • base) = r at equation r_lt differ ⊢
  generalize firstHalf e' (multiple' • base) = r' at equation r_lt' differ ⊢
  have gap : (((r + s + (n - r') + (n - s')) % n : ℕ) : ZMod n) = r + s - r' - s' := by
    rw [ZMod.natCast_mod, Nat.cast_add, Nat.cast_add, Nat.cast_add, cast_opposite r_lt', cast_opposite s_lt']
    ring
  have nonzero : (r + s - r' - s' : ZMod n) ≠ 0 := by
    intro zero
    rw [zero, mul_zero] at equation
    have same := eq_of_cast s_lt s_lt' (sub_eq_zero.mp equation.symm).symm
    refine differ ⟨eq_of_cast r_lt r_lt' ?_, same⟩
    rw [same] at zero
    linear_combination zero
  apply eq_of_cast (Nat.mod_lt _ n_pos) (Nat.lt_of_succ_lt small)
  rw [ZMod.natCast_mod, Nat.cast_mul, Nat.cast_add, cast_opposite s_lt, Inverse.cofactor_eq_inv n _ (by rwa [gap]), gap,
    ← sub_eq_add_neg, ← equation]
  field_simp

end

theorem sm2Sign_signatureOf {hash : Octets} {d multiple k : ℕ} (small : d < n) {draws : List ℕ} {out sig : Signature} {ret : ℤ}
    (signed : sm2Sign hash.toList 32 (octets d).toList 32 draws out = some (ret, sig))
    (last : lastAttempt hash.value d draws 1 = some (multiple, k)) : sig = signatureOf hash.value d multiple k := by
  rw [sm2Sign_run hash small, last, Option.map_some] at signed
  exact (Prod.mk.inj (Option.some.inj signed)).2.symm

/-- From two different signatures with the same last draw anyone computes the key. -/
theorem repeated_draw_reveals (key : SigningKey) {hash hash' : Octets} {draws draws' : List ℕ}
    {out out' sig sig' : Signature} {multiple multiple' k : ℕ}
    (signed : sm2Sign hash.toList 32 (octets key.d).toList 32 draws out = some (1, sig))
    (signed' : sm2Sign hash'.toList 32 (octets key.d).toList 32 draws' out' = some (1, sig'))
    (last : lastAttempt hash.value key.d draws 1 = some (multiple, k))
    (last' : lastAttempt hash'.value key.d draws' 1 = some (multiple', k)) (apart : sig ≠ sig') :
    recovered sig sig' = key.d := by
  have written := sm2Sign_signatureOf (Nat.lt_of_succ_lt key.small) signed last
  have written' := sm2Sign_signatureOf (Nat.lt_of_succ_lt key.small) signed' last'
  rw [written, written'] at apart ⊢
  exact recovered_signatureOf key.small apart

theorem repeated_draw_reveals_five :
    recovered (signatureOf (octets 0).value 5 1 1) (signatureOf (octets 1).value 5 1 1) = 5 := by
  have facts : (2 < n ∧ 5 ≤ n - 2) ∧ lastAttempt (octets 0).value 5 [1] 1 = some (1, 1) ∧
      lastAttempt (octets 1).value 5 [1] 1 = some (1, 1) ∧
      signatureOf (octets 0).value 5 1 1 ≠ signatureOf (octets 1).value 5 1 1 := by decide +kernel
  obtain ⟨⟨-, bounded⟩, last, last', apart⟩ := facts
  have below := Nat.lt_of_succ_lt (SigningKey.small ⟨5, by decide, bounded⟩)
  have signed (hash : Octets) (last : lastAttempt hash.value 5 [1] 1 = some (1, 1)) :
      sm2Sign hash.toList 32 (octets 5).toList 32 [1] ⟨octets 0, 0, octets 0, 0⟩ =
        some (1, signatureOf hash.value 5 1 1) := by
    rw [sm2Sign_run hash below, last]
    rfl
  exact repeated_draw_reveals ⟨5, by decide, bounded⟩ (signed _ last) (signed _ last') last last' apart

end MyTools.Sm2
