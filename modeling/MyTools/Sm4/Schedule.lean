import MyTools.Sm4.Cipher

/-! The key schedule of SM4 runs in both directions. -/
namespace MyTools.Sm4
open Library

theorem keyT_cancel {k0 k0' k1 k2 k3 c : UInt32} (same : keyT k0 k1 k2 k3 c = keyT k0' k1 k2 k3 c) : k0 = k0' :=
  (UInt32.xor_left_inj _).mp same

theorem schedule_of_window {userkey userkey' : Bytes} {p N : ℕ} (inside : p + 4 ≤ N)
    (window : ∀ j, p ≤ j → j < p + 4 → schedule userkey j = schedule userkey' j) :
    ∀ j, j < N → schedule userkey j = schedule userkey' j := by
  have next (key : Bytes) (i : ℕ) : schedule key (i + 4) = keyT (schedule key i) (schedule key (i + 1))
      (schedule key (i + 2)) (schedule key (i + 3)) (ck.getD i 0) := by
    rw [schedule, Recurrence.sequence_next]
  refine Recurrence.agree_of_window ?_ ?_ inside window
  · intro i _ same
    rw [next, next, same i (by omega) (by omega), same (i + 1) (by omega) (by omega), same (i + 2) (by omega) (by omega),
      same (i + 3) (by omega) (by omega)]
  · intro i _ same
    have last := same (i + 4) (by omega) (by omega)
    rw [next, next, same (i + 1) (by omega) (by omega), same (i + 2) (by omega) (by omega),
      same (i + 3) (by omega) (by omega)] at last
    exact keyT_cancel last

theorem userkey_of_schedule {userkey userkey' : Bytes} (size : userkey.length = 16) (size' : userkey'.length = 16)
    (same : ∀ i, i < 4 → schedule userkey i = schedule userkey' i) : userkey = userkey' := by
  have word (i : ℕ) (early : i < 4) : words userkey i = words userkey' i := by
    have masked := same i early
    rw [schedule, schedule, Recurrence.sequence_seed early, Recurrence.sequence_seed early] at masked
    exact (UInt32.xor_left_inj _).mp masked
  rw [← octets_words size, ← octets_words size', word 0 (by decide), word 1 (by decide), word 2 (by decide),
    word 3 (by decide)]

/-- Four round keys in a row determine the key that `sm4_set_key` was given. -/
theorem userkey_of_roundKeys {userkey userkey' : Vector UInt8 16} {roundKey roundKey' : List UInt32}
    (run : sm4SetKey userkey.toList = some roundKey) (run' : sm4SetKey userkey'.toList = some roundKey') {p : ℕ}
    (inside : p + 4 ≤ 32) (window : ∀ j, p ≤ j → j < p + 4 → roundKey[j]? = roundKey'[j]?) : userkey = userkey' := by
  rw [sm4SetKey_run Vector.length_toList, Option.some.injEq] at run run'
  have known (j : ℕ) (low : p + 4 ≤ j) (high : j < p + 4 + 4) :
      schedule userkey.toList j = schedule userkey'.toList j := by
    obtain ⟨i, rfl⟩ := Nat.exists_eq_add_of_le' (show 4 ≤ j by omega)
    have read := window i (by omega) (by omega)
    rwa [← run, ← run', List.getElem?_map, List.getElem?_map, List.getElem?_range (by omega), Option.map_some,
      Option.map_some, Option.some.injEq] at read
  have all := schedule_of_window (show p + 4 + 4 ≤ 36 by omega) known
  exact Vector.toList_inj.mp (userkey_of_schedule Vector.length_toList Vector.length_toList fun i early =>
    all i (by omega))

theorem userkey_of_roundKeys_distinct : (Vector.ofFn fun i => UInt8.ofNat (17 * i) : Vector UInt8 16) =
    #v[0x00, 0x11, 0x22, 0x33, 0x44, 0x55, 0x66, 0x77, 0x88, 0x99, 0xAA, 0xBB, 0xCC, 0xDD, 0xEE, 0xFF] :=
  userkey_of_roundKeys (sm4SetKey_run Vector.length_toList) (sm4SetKey_run Vector.length_toList)
    (show 28 + 4 ≤ 32 by decide) fun _ _ _ => rfl

end MyTools.Sm4
