import Mathlib.Order.Basic
import Mathlib.Tactic.Basic

/-! Runs of a transition system, with the states and the actions on their way. -/
namespace MyTools.Library
variable {σ α : Type*}

/-- From `start` the system takes the steps of `past`, each with the state it was taken in. -/
inductive Run (step : σ → α → σ → Prop) (start : σ) : List (σ × α) → σ → Prop
  | initial : Run step start [] start
  | next {past : List (σ × α)} {s s' : σ} {action : α} (run : Run step start past s) (taken : step s action s') :
    Run step start (past ++ [(s, action)]) s'

namespace Run
variable {step : σ → α → σ → Prop} {start s : σ} {past : List (σ × α)}

theorem keeps (invariant : σ → Prop) (allowed : σ → α → Prop) (run : Run step start past s) (initially : invariant start)
    (kept : ∀ s action s', invariant s → allowed s action → step s action s' → invariant s')
    (steps : ∀ s action, (s, action) ∈ past → allowed s action) : invariant s := by
  induction run with
  | initial => exact initially
  | next run taken ih =>
    apply kept _ _ _ (ih fun s action taken => steps s action (List.mem_append_left _ taken)) _ taken
    exact steps _ _ (List.mem_append_right _ (List.mem_singleton_self _))

theorem reached {t : σ} {action : α} (run : Run step start past s) (member : (t, action) ∈ past) :
    ∃ before, before <+: past ∧ Run step start before t := by
  induction run with
  | initial => cases member
  | next run taken ih =>
    rcases List.mem_append.mp member with earlier | last
    · obtain ⟨before, inside, shorter⟩ := ih earlier
      exact ⟨before, inside.trans (List.prefix_append _ _), shorter⟩
    · obtain ⟨rfl, rfl⟩ := Prod.mk.inj (List.mem_singleton.mp last)
      exact ⟨_, List.prefix_append _ _, run⟩

theorem successor {t : σ} {action : α} (run : Run step start past s) (member : (t, action) ∈ past) :
    ∃ t', step t action t' ∧ (t' = s ∨ ∃ action', (t', action') ∈ past) := by
  induction run with
  | initial => cases member
  | next run taken ih =>
    rcases List.mem_append.mp member with earlier | last
    · obtain ⟨t', taken', rfl | ⟨action', later⟩⟩ := ih earlier
      · exact ⟨_, taken', .inr ⟨_, List.mem_append_right _ (List.mem_singleton_self _)⟩⟩
      · exact ⟨t', taken', .inr ⟨action', List.mem_append_left _ later⟩⟩
    · obtain ⟨rfl, rfl⟩ := Prod.mk.inj (List.mem_singleton.mp last)
      exact ⟨_, taken, .inl rfl⟩

/-- The states and actions on the way when `actions` are taken from `s`. -/
def trace (act : σ → α → Option σ) (s : σ) : List α → List (σ × α)
  | [] => []
  | action :: actions => (s, action) :: (act s action).elim [] fun s' => trace act s' actions

theorem of_foldlM {act : σ → α → Option σ} {actions : List α} {t : σ}
    (run : Run (fun s action s' => act s action = some s') start past s) (taken : actions.foldlM act s = some t) :
    Run (fun s action s' => act s action = some s') start (past ++ trace act s actions) t := by
  induction actions generalizing past s with
  | nil =>
    obtain rfl := Option.some.inj taken
    rw [trace, List.append_nil]
    exact run
  | cons action actions ih =>
    rw [List.foldlM_cons] at taken
    obtain ⟨s', first, rest⟩ := Option.bind_eq_some_iff.mp taken
    have later := ih (run.next first) rest
    rw [List.append_assoc, List.singleton_append] at later
    rw [trace, first]
    exact later

end Run
end MyTools.Library
