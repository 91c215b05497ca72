import Mathlib.Order.Basic
import Mathlib.Tactic.Basic

/-! Block ciphers that alternate round keys with a substitution and a linear mixing, and the form of
their inverse that makes its steps in the same order. -/
namespace MyTools.Library.Rounds
variable {β : Type*} (add : β → β → β) (sub mix : β → β) (key : ℕ → β)

/-- The state after round `r`; round 0 only adds a key. -/
def state (x : β) : ℕ → β
  | 0 => add (key 0) x
  | r + 1 => add (key (r + 1)) (mix (sub (state x r)))

/-- The last round leaves the mixing out. -/
def cipher (rounds : ℕ) (x : β) : β := add (key rounds) (sub (state add sub mix key x (rounds - 1)))

variable {add sub mix key} {unsub unmix : β → β} {key' : ℕ → β} {rounds : ℕ}

/-- The inverse in the same order: a round leads from behind a substitution to behind the one before it. -/
theorem state_back (cancel : ∀ k x, add k (add k x) = x) (unsub_sub : ∀ x, unsub (sub x) = x)
    (unmix_mix : ∀ x, unmix (mix x) = x) (unmix_add : ∀ x y, unmix (add x y) = add (unmix x) (unmix y))
    (first : key' 0 = key rounds) (inner : ∀ r, 0 < r → r < rounds → key' r = unmix (key (rounds - r))) (x : β) {r : ℕ}
    (inside : r < rounds) :
    state add unsub unmix key' (cipher add sub mix key rounds x) r = sub (state add sub mix key x (rounds - 1 - r)) := by
  induction r with
  | zero => rw [state, cipher, first, cancel, Nat.sub_zero]
  | succ r ih =>
    have before : rounds - 1 - r = rounds - 1 - (r + 1) + 1 := by omega
    have same : rounds - (r + 1) = rounds - 1 - (r + 1) + 1 := by omega
    rw [state, ih (by omega), unsub_sub, inner (r + 1) (Nat.succ_pos r) inside, same, before, state, ← unmix_add, cancel,
      unmix_mix]

theorem cipher_back (cancel : ∀ k x, add k (add k x) = x) (unsub_sub : ∀ x, unsub (sub x) = x)
    (unmix_mix : ∀ x, unmix (mix x) = x) (unmix_add : ∀ x y, unmix (add x y) = add (unmix x) (unmix y))
    (some_ : 0 < rounds) (first : key' 0 = key rounds) (inner : ∀ r, 0 < r → r < rounds → key' r = unmix (key (rounds - r)))
    (last : key' rounds = key 0) (x : β) :
    cipher add unsub unmix key' rounds (cipher add sub mix key rounds x) = x := by
  have back := state_back cancel unsub_sub unmix_mix unmix_add first inner x (show rounds - 1 < rounds by omega)
  rw [cipher, back, unsub_sub, last, Nat.sub_self, state, cancel]

end MyTools.Library.Rounds
