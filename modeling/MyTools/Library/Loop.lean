import Mathlib.Order.Basic
import Mathlib.Tactic.Basic
import Mathlib.Tactic.SplitIfs

/-! Loops whose body may fail, with the rules that carry an invariant through them. -/
namespace MyTools.Library.Loop
variable {σ β : Type*}

/-- `for (i = 0; i < count; i++)` -/
def up (body : ℕ → σ → Option σ) : (count : ℕ) → σ → Option σ
  | 0, s => some s
  | count + 1, s => (up body count s).bind (body count)

/-- `for (i = count - 1; i >= 0; i--)` -/
def down (body : ℕ → σ → Option σ) : (count : ℕ) → σ → Option σ
  | 0, s => some s
  | count + 1, s => (body count s).bind (down body count)

/-- `for (i = count - 1; i >= 0; i--)` with a body that may return from the routine. -/
def scan (body : ℕ → Option (Option β)) (last : β) : (count : ℕ) → Option β
  | 0 => some last
  | count + 1 => (body count).bind fun
    | some result => some result
    | none => scan body last count

/-- `for (i = 0; i < count; i++)` with a body that may return from the routine, as it does with `.inr`. -/
def upUntil (body : ℕ → σ → Option (σ ⊕ β)) : (count : ℕ) → σ → Option (σ ⊕ β)
  | 0, s => some (.inl s)
  | count + 1, s => (upUntil body count s).bind fun
    | .inl s => body count s
    | .inr result => some (.inr result)

/-- `for (i = first; i < first + count; i++) if (test) ...` with a return at the first hit. -/
def find (test : ℕ → Option Bool) : (first count : ℕ) → Option Bool
  | _, 0 => some false
  | first, count + 1 => (test first).bind fun hit => if hit then some true else find test (first + 1) count

/-- `while (condition)`, undefined when it is not left within `fuel` passes. -/
def whileDo (condition : σ → Option Bool) (body : σ → Option σ) : (fuel : ℕ) → σ → Option σ
  | 0, _ => none
  | fuel + 1, s => (condition s).bind fun go => if go then (body s).bind (whileDo condition body fuel) else some s

/-- What the calls of a run find, one after the other. -/
abbrev Supply (β : Type*) := ℕ → β

def Supply.after (supply : Supply β) (count : ℕ) : Supply β := fun i => supply (i + count)

/-- A pass takes the first of the supply and leaves the others to the next one. -/
def supplied (body : β → σ → Option σ) (s : σ × Supply β) : Option (σ × Supply β) :=
  (body (s.2 0) s.1).map fun next => (next, s.2.after 1)

theorem seq_rule (middle : σ → Prop) {first : Option σ} {rest : σ → Option β} {post : β → Prop}
    (reached : ∃ s, first = some s ∧ middle s) (onward : ∀ s, middle s → ∃ r, rest s = some r ∧ post r) :
    ∃ r, first.bind rest = some r ∧ post r := by
  obtain ⟨s, run, holds⟩ := reached
  rw [run, Option.bind_some]
  exact onward s holds

theorem up_rule (invariant : ℕ → σ → Prop) {body : ℕ → σ → Option σ} {count : ℕ} {s : σ} (start : invariant 0 s)
    (step : ∀ i s, i < count → invariant i s → ∃ s', body i s = some s' ∧ invariant (i + 1) s') :
    ∃ s', up body count s = some s' ∧ invariant count s' := by
  induction count with
  | zero => exact ⟨s, rfl, start⟩
  | succ count ih =>
    obtain ⟨middle, run, holds⟩ := ih fun i s inside => step i s (Nat.lt_succ_of_lt inside)
    obtain ⟨s', last, holds'⟩ := step count middle (Nat.lt_succ_self count) holds
    exact ⟨s', by rw [up, run, Option.bind_some, last], holds'⟩

theorem up_merged {body : ℕ → σ → Option σ} {s t : σ} (first : body 0 s = body 0 t) (count : ℕ) :
    up body (count + 1) s = up body (count + 1) t := by
  induction count with
  | zero => exact first
  | succ count ih => rw [up, ih, ← up]

theorem down_rule (invariant : ℕ → σ → Prop) {body : ℕ → σ → Option σ} {count : ℕ} {s : σ} (start : invariant count s)
    (step : ∀ i s, i < count → invariant (i + 1) s → ∃ s', body i s = some s' ∧ invariant i s') :
    ∃ s', down body count s = some s' ∧ invariant 0 s' := by
  induction count generalizing s with
  | zero => exact ⟨s, rfl, start⟩
  | succ count ih =>
    obtain ⟨middle, first, holds⟩ := step count s (Nat.lt_succ_self count) start
    obtain ⟨s', run, holds'⟩ := ih holds fun i s inside => step i s (Nat.lt_succ_of_lt inside)
    exact ⟨s', by rw [down, first, Option.bind_some, run], holds'⟩

theorem down_congr {body body' : ℕ → σ → Option σ} {count : ℕ} (same : ∀ i, i < count → body i = body' i) (s : σ) :
    down body count s = down body' count s := by
  induction count generalizing s with
  | zero => rfl
  | succ count ih =>
    rw [down, down, same count (Nat.lt_succ_self count)]
    exact congrArg _ (funext fun s => ih (fun i inside => same i (Nat.lt_succ_of_lt inside)) s)

/-- A condition for going on and one for returning. -/
def Outcome (goes : σ → Prop) (returns : β → Prop) : σ ⊕ β → Prop
  | .inl s => goes s
  | .inr result => returns result

theorem upUntil_rule (invariant : ℕ → σ → Prop) (post : β → Prop) {body : ℕ → σ → Option (σ ⊕ β)} {count : ℕ} {s : σ}
    (start : invariant 0 s)
    (step : ∀ i s, i < count → invariant i s → ∃ o, body i s = some o ∧ Outcome (invariant (i + 1)) post o) :
    ∃ o, upUntil body count s = some o ∧ Outcome (invariant count) post o := by
  induction count with
  | zero => exact ⟨.inl s, rfl, start⟩
  | succ count ih =>
    obtain ⟨middle, run, holds⟩ := ih fun i s inside => step i s (Nat.lt_succ_of_lt inside)
    cases middle with
    | inl middle =>
      obtain ⟨o, last, holds'⟩ := step count middle (Nat.lt_succ_self count) holds
      exact ⟨o, by rw [upUntil, run, Option.bind_some]; exact last, holds'⟩
    | inr result => exact ⟨.inr result, by rw [upUntil, run, Option.bind_some], holds⟩

theorem scan_rule (post : β → Prop) {body : ℕ → Option (Option β)} {last : β} {count : ℕ}
    (defined : ∀ i, i < count → body i ≠ none)
    (found : ∀ i result, i < count → (∀ j, i < j → j < count → body j = some none) → body i = some (some result) →
      post result)
    (exhausted : (∀ i, i < count → body i = some none) → post last) :
    ∃ result, scan body last count = some result ∧ post result := by
  induction count with
  | zero => exact ⟨last, rfl, exhausted fun i inside => absurd inside (Nat.not_lt_zero i)⟩
  | succ count ih =>
    obtain ⟨answer, run⟩ := Option.ne_none_iff_exists'.mp (defined count (Nat.lt_succ_self count))
    rw [scan, run, Option.bind_some]
    cases answer with
    | some result =>
      refine ⟨result, rfl, found count result (Nat.lt_succ_self count) (fun j above below => ?_) run⟩
      exact absurd above (Nat.not_lt.mpr (Nat.lt_succ_iff.mp below))
    | none =>
      have passed (j : ℕ) (below : j < count + 1) (inside : j < count → body j = some none) : body j = some none := by
        rcases Nat.lt_succ_iff_lt_or_eq.mp below with smaller | rfl
        · exact inside smaller
        · exact run
      refine ih (fun i inside => defined i (Nat.lt_succ_of_lt inside)) (fun i result inside above returned => ?_)
        (fun none_returned => ?_)
      · exact found i result (Nat.lt_succ_of_lt inside) (fun j low high => passed j high (above j low)) returned
      · exact exhausted fun i below => passed i below (none_returned i)

theorem top_rule (digit : ℕ → ℕ) {body : ℕ → Option (Option ℕ)} {count : ℕ}
    (tested : ∀ i, i < count → body i = some (if digit i = 0 then none else some (i + 1))) :
    ∃ n, scan body 0 count = some n ∧ n ≤ count ∧ (∀ k, n ≤ k → k < count → digit k = 0) ∧
      ∀ i, n = i + 1 → digit i ≠ 0 := by
  have passed {i : ℕ} (inside : i < count) (none_ : body i = some none) : digit i = 0 := by
    rw [tested i inside, Option.some.injEq] at none_
    split_ifs at none_ with zero
    exact zero
  apply scan_rule fun n => n ≤ count ∧ (∀ k, n ≤ k → k < count → digit k = 0) ∧ ∀ i, n = i + 1 → digit i ≠ 0
  · intro i inside undefined
    rw [tested i inside] at undefined
    cases undefined
  · intro i n inside above returned
    rw [tested i inside, Option.some.injEq] at returned
    split_ifs at returned with zero
    obtain rfl := Option.some.inj returned
    refine ⟨inside, fun k low high => passed high (above k low high), fun i' same => ?_⟩
    obtain rfl := Nat.succ.inj same
    exact zero
  · intro all
    exact ⟨Nat.zero_le count, fun k _ high => passed high (all k high), fun i same => absurd same (Nat.succ_ne_zero i).symm⟩

theorem find_rule (hit : ℕ → Prop) [DecidablePred hit] {test : ℕ → Option Bool} {first count : ℕ}
    (tested : ∀ i, first ≤ i → i < first + count → test i = some (decide (hit i))) :
    ∃ found, find test first count = some found ∧ (found = true ↔ ∃ i, first ≤ i ∧ i < first + count ∧ hit i) := by
  induction count generalizing first with
  | zero =>
    refine ⟨false, rfl, iff_of_false Bool.false_ne_true ?_⟩
    rintro ⟨i, low, high, -⟩
    exact absurd high (Nat.not_lt.mpr low)
  | succ count ih =>
    rw [find, tested first (Nat.le_refl first) (by omega), Option.bind_some]
    by_cases here : hit first
    · rw [decide_eq_true here, if_pos rfl]
      exact ⟨true, rfl, iff_of_true rfl ⟨first, Nat.le_refl first, by omega, here⟩⟩
    · rw [decide_eq_false here, if_neg Bool.false_ne_true]
      obtain ⟨found, run, spec⟩ := @ih (first + 1) fun i low high => tested i (by omega) (by omega)
      refine ⟨found, run, spec.trans ⟨?_, ?_⟩⟩
      · rintro ⟨i, low, high, holds⟩
        exact ⟨i, by omega, by omega, holds⟩
      · rintro ⟨i, low, high, holds⟩
        rcases Nat.eq_or_lt_of_le low with rfl | above
        · exact absurd holds here
        · exact ⟨i, above, by omega, holds⟩

theorem whileDo_states (state : ℕ → σ) {condition : σ → Option Bool} {body : σ → Option σ} {count fuel : ℕ}
    (enough : count < fuel) (goes : ∀ k, k < count → condition (state k) = some true)
    (step : ∀ k, k < count → body (state k) = some (state (k + 1))) (stops : condition (state count) = some false) :
    whileDo condition body fuel (state 0) = some (state count) := by
  induction count generalizing state fuel with
  | zero =>
    obtain ⟨fuel, rfl⟩ := Nat.exists_eq_succ_of_ne_zero (Nat.ne_of_gt enough)
    rw [whileDo, stops, Option.bind_some, if_neg Bool.false_ne_true]
  | succ count ih =>
    obtain ⟨fuel, rfl⟩ := Nat.exists_eq_succ_of_ne_zero (Nat.ne_of_gt (Nat.lt_of_le_of_lt (Nat.zero_le _) enough))
    have rest := ih (fun k => state (k + 1)) (Nat.lt_of_succ_lt_succ enough)
      (fun k inside => goes (k + 1) (Nat.succ_lt_succ inside)) (fun k inside => step (k + 1) (Nat.succ_lt_succ inside)) stops
    rw [whileDo, goes 0 (Nat.succ_pos count), Option.bind_some, if_pos rfl, step 0 (Nat.succ_pos count),
      Option.bind_some]
    exact rest

/-- `P` holds of every state from which `whileDo` makes a pass. -/
def Along (P : σ → Prop) (condition : σ → Option Bool) (body : σ → Option σ) : (fuel : ℕ) → σ → Prop
  | 0, _ => True
  | fuel + 1, s => condition s = some true → P s ∧ ∀ s' ∈ body s, Along P condition body fuel s'

instance decidableAlong (P : σ → Prop) [DecidablePred P] (condition : σ → Option Bool) (body : σ → Option σ) :
    (fuel : ℕ) → DecidablePred (Along P condition body fuel)
  | 0, _ => isTrue trivial
  | fuel + 1, s =>
    have := decidableAlong P condition body fuel
    inferInstanceAs (Decidable (condition s = some true → P s ∧ ∀ s' ∈ body s, Along P condition body fuel s'))

theorem along_true (condition : σ → Option Bool) (body : σ → Option σ) (fuel : ℕ) (s : σ) :
    Along (fun _ => True) condition body fuel s := by
  induction fuel generalizing s with
  | zero => trivial
  | succ fuel ih => exact fun _ => ⟨trivial, fun s' _ => ih s'⟩

theorem whileDo_along_rule (invariant : σ → Prop) (measure : σ → ℕ) {P : σ → Prop} {condition : σ → Option Bool}
    {body : σ → Option σ} {fuel : ℕ} {s : σ} (start : invariant s) (enough : measure s < fuel)
    (along : Along P condition body fuel s)
    (step : ∀ s, invariant s → condition s = some false ∨ condition s = some true ∧
      (P s → ∃ s', body s = some s' ∧ invariant s' ∧ measure s' < measure s)) :
    ∃ s', whileDo condition body fuel s = some s' ∧ invariant s' ∧ condition s' = some false := by
  induction fuel generalizing s with
  | zero => exact absurd enough (Nat.not_lt_zero _)
  | succ fuel ih =>
    rcases step s start with left | ⟨go, next⟩
    · exact ⟨s, by rw [whileDo, left]; rfl, start, left⟩
    · obtain ⟨here, later⟩ := along go
      obtain ⟨s', run, holds, smaller⟩ := next here
      obtain ⟨result, rest, holds', left⟩ := ih holds (Nat.lt_of_lt_of_le smaller (Nat.lt_succ_iff.mp enough)) (later s' run)
      exact ⟨result, by rw [whileDo, go, Option.bind_some, if_pos rfl, run, Option.bind_some, rest], holds', left⟩

theorem whileDo_rule (invariant : σ → Prop) (measure : σ → ℕ) {condition : σ → Option Bool} {body : σ → Option σ}
    {fuel : ℕ} {s : σ} (start : invariant s) (enough : measure s < fuel)
    (step : ∀ s, invariant s → condition s = some false ∨
      condition s = some true ∧ ∃ s', body s = some s' ∧ invariant s' ∧ measure s' < measure s) :
    ∃ s', whileDo condition body fuel s = some s' ∧ invariant s' ∧ condition s' = some false :=
  whileDo_along_rule invariant measure start enough (along_true condition body fuel s) fun s holds =>
    (step s holds).imp_right fun ⟨go, next⟩ => ⟨go, fun _ => next⟩

/-- An invariant that does not speak of the supply. -/
theorem supplied_along_rule (condition : σ → Option Bool) (invariant : σ → Prop) (measure : σ → ℕ)
    {P : σ × Supply β → Prop} {body : β → σ → Option σ} {fuel : ℕ} {s : σ} {supply : Supply β} (start : invariant s)
    (enough : measure s < fuel) (along : Along P (fun t => condition t.1) (supplied body) fuel (s, supply))
    (step : ∀ s supply, invariant s → condition s = some false ∨ condition s = some true ∧
      (P (s, supply) → ∃ s', body (supply 0) s = some s' ∧ invariant s' ∧ measure s' < measure s)) :
    ∃ s' rest, whileDo (fun t => condition t.1) (supplied body) fuel (s, supply) = some (s', rest) ∧ invariant s' ∧
      condition s' = some false := by
  obtain ⟨⟨s', rest⟩, run, holds, left⟩ := whileDo_along_rule (fun t : σ × Supply β => invariant t.1)
    (fun t => measure t.1) start enough along fun ⟨s, supply⟩ holds => by
      refine (step s supply holds).imp_right fun ⟨go, next⟩ => ⟨go, fun sound => ?_⟩
      obtain ⟨s', run, holds', smaller⟩ := next sound
      exact ⟨(s', supply.after 1), by rw [supplied, run]; rfl, holds', smaller⟩
  exact ⟨s', rest, run, holds, left⟩

theorem supplied_rule (condition : σ → Option Bool) (invariant : σ → Prop) (measure : σ → ℕ) {body : β → σ → Option σ}
    {fuel : ℕ} {s : σ} {supply : Supply β} (start : invariant s) (enough : measure s < fuel)
    (step : ∀ s b, invariant s → condition s = some false ∨
      condition s = some true ∧ ∃ s', body b s = some s' ∧ invariant s' ∧ measure s' < measure s) :
    ∃ s' rest, whileDo (fun t => condition t.1) (supplied body) fuel (s, supply) = some (s', rest) ∧ invariant s' ∧
      condition s' = some false :=
  supplied_along_rule condition invariant measure start enough (along_true _ _ fuel (s, supply)) fun s supply holds =>
    (step s (supply 0) holds).imp_right fun ⟨go, next⟩ => ⟨go, fun _ => next⟩

/-! What a loop that is left tells about its end. -/

theorem whileDo_left {condition : σ → Option Bool} {body : σ → Option σ} {fuel : ℕ} {s t : σ}
    (run : whileDo condition body fuel s = some t) : condition t = some false := by
  induction fuel generalizing s with
  | zero => cases run
  | succ fuel ih =>
    obtain ⟨go, tested, rest⟩ := Option.bind_eq_some_iff.mp run
    cases go with
    | false => rwa [← Option.some.inj rest]
    | true =>
      obtain ⟨middle, -, later⟩ := Option.bind_eq_some_iff.mp rest
      exact ih later

theorem down_last {body : ℕ → σ → Option σ} {count : ℕ} {s t : σ} (run : down body (count + 1) s = some t) :
    ∃ middle, body 0 middle = some t := by
  induction count generalizing s with
  | zero =>
    obtain ⟨middle, first, rest⟩ := Option.bind_eq_some_iff.mp run
    exact ⟨s, first.trans rest⟩
  | succ count ih =>
    obtain ⟨middle, -, rest⟩ := Option.bind_eq_some_iff.mp run
    exact ih rest

/-- The states in which the condition of a loop is tested. -/
inductive Reached (condition : σ → Option Bool) (body : σ → Option σ) (s : σ) : σ → Prop
  | start : Reached condition body s s
  | pass {t t' : σ} (earlier : Reached condition body s t) (goes : condition t = some true) (taken : body t = some t') :
    Reached condition body s t'

theorem Reached.eq_start {condition : σ → Option Bool} {body : σ → Option σ} {s t : σ}
    (reached : Reached condition body s t) (stops : condition s = some false) : t = s := by
  induction reached with
  | start => rfl
  | pass earlier goes taken ih =>
    rw [ih, stops] at goes
    cases goes

end MyTools.Library.Loop
