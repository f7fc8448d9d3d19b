/-
# Loops that may abort

A loop takes turns until its state is done. A turn may abort the program, and a
loop may not end: its runs are bounded by a number of turns, and two facts are
told apart, that the loop reaches a state and that no run of it returns.

Key definitions: `run`, `Reaches`, `Ends`, `Aborts`.
Key theorems: `run_mono`, `run_of_reaches`, `run_reaches`, `run_inv`.
-/
import Mathlib.Data.Nat.Init
import Mathlib.Logic.Function.Iterate

namespace Loop

variable {σ : Type} (turn : σ → Option σ) (done : σ → Bool)

/-- The loop with at most `n` turns. -/
def run : ℕ → σ → Option σ
  | 0, _ => none
  | n + 1, s => if done s then some s else (turn s).bind (run n)

/-- The loop comes from one state to the other. -/
inductive Reaches : σ → σ → Prop where
  | refl (s : σ) : Reaches s s
  | turn {s s' s'' : σ} : done s = false → turn s = some s' → Reaches s' s'' → Reaches s s''

/-- The loop returns a state that has a property. -/
def Ends (P : σ → Prop) (s : σ) : Prop := ∃ n t, run turn done n s = some t ∧ P t

/-- The loop returns in no number of turns. -/
def Aborts (s : σ) : Prop := ∀ n, run turn done n s = none

variable {turn done}

theorem Reaches.trans {s s' s'' : σ} (h : Reaches turn done s s') (h' : Reaches turn done s' s'') :
    Reaches turn done s s'' := by
  induction h with
  | refl => exact h'
  | turn h1 h2 _ ih => exact .turn h1 h2 (ih h')

theorem Reaches.one {s s' : σ} (hd : done s = false) (ht : turn s = some s') :
    Reaches turn done s s' := .turn hd ht (.refl _)

/-- What the loop comes to, it is at or comes to after one turn. -/
theorem Reaches.head {s s' : σ} (h : Reaches turn done s s') :
    s' = s ∨ ∃ s1, done s = false ∧ turn s = some s1 ∧ Reaches turn done s1 s' := by
  cases h with
  | refl => exact .inl rfl
  | turn h1 h2 h3 => exact .inr ⟨_, h1, h2, h3⟩

theorem run_done {s : σ} (hd : done s = true) (n : ℕ) : run turn done (n + 1) s = some s := by
  rw [run, if_pos hd]

theorem run_turn {s s' : σ} (hd : done s = false) (ht : turn s = some s') (n : ℕ) :
    run turn done (n + 1) s = run turn done n s' := by
  rw [run, if_neg (by rw [hd]; decide), ht, Option.bind_some]

theorem run_mono {t : σ} : ∀ {n m : ℕ} {s : σ}, n ≤ m → run turn done n s = some t →
    run turn done m s = some t
  | 0, _, _, _, h => by cases h
  | n + 1, 0, _, hle, _ => absurd hle (Nat.not_succ_le_zero n)
  | n + 1, m + 1, s, hle, h => by
    rw [run] at h ⊢
    split
    · rename_i hd; rwa [if_pos hd] at h
    · rename_i hd
      rw [if_neg hd] at h
      obtain ⟨s', h1, h2⟩ := Option.bind_eq_some_iff.mp h
      rw [h1, Option.bind_some]
      exact run_mono (Nat.le_of_succ_le_succ hle) h2

/-- A run from a state that the loop comes to is the end of a run. -/
theorem run_of_reaches {s s' t : σ} (h : Reaches turn done s s') {n : ℕ}
    (hr : run turn done n s' = some t) : ∃ m, run turn done m s = some t := by
  induction h with
  | refl => exact ⟨n, hr⟩
  | turn h1 h2 _ ih =>
    obtain ⟨m, hm⟩ := ih hr
    exact ⟨m + 1, by rw [run_turn h1 h2, hm]⟩

/-- A run passes through the states that the loop comes to. -/
theorem run_reaches {s s' t : σ} (h : Reaches turn done s s') : ∀ {n : ℕ},
    run turn done n s = some t → ∃ m, run turn done m s' = some t := by
  induction h with
  | refl => exact fun {n} hr => ⟨n, hr⟩
  | turn h1 h2 _ ih =>
    intro n hr
    cases n with
    | zero => cases hr
    | succ n =>
      rw [run_turn h1 h2] at hr
      exact ih hr

theorem run_det {s t t' : σ} {n m : ℕ} (h : run turn done n s = some t)
    (h' : run turn done m s = some t') : t = t' := by
  have h1 := run_mono (Nat.le_max_left n m) h
  rw [run_mono (Nat.le_max_right n m) h'] at h1
  exact (Option.some_inj.mp h1).symm

theorem Aborts.of_reaches {s s' : σ} (h : Reaches turn done s s') (h' : Aborts turn done s') :
    Aborts turn done s := by
  intro n
  cases ht : run turn done n s with
  | none => rfl
  | some t =>
    obtain ⟨m, hm⟩ := run_reaches h ht
    rw [h' m] at hm
    cases hm

theorem aborts_of_none {s : σ} (hd : done s = false) (ht : turn s = none) : Aborts turn done s := by
  intro n
  cases n with
  | zero => rfl
  | succ n => rw [run, if_neg (by rw [hd]; decide), ht, Option.bind_none]

/-- A loop whose turns apply a function ends where the function first leads to a done state. -/
theorem run_iterate {g : σ → σ} (hg : ∀ s, turn s = some (g s)) : ∀ (j : ℕ) {n : ℕ} {s : σ}, j < n →
    done (g^[j] s) = true → ∃ i, run turn done n s = some (g^[i] s) ∧ done (g^[i] s) = true
  | j, 0, _, hj, _ => absurd hj (Nat.not_lt_zero j)
  | j, n + 1, s, hj, hd => by
    rw [run, hg, Option.bind_some]
    by_cases h0 : done s = true
    · exact ⟨0, if_pos h0, h0⟩
    rw [if_neg h0]
    cases j with
    | zero => exact absurd hd h0
    | succ j =>
      obtain ⟨i, h1, h2⟩ := run_iterate hg j (Nat.lt_of_succ_lt_succ hj) hd
      exact ⟨i + 1, h1, h2⟩

/-- What every turn keeps holds at the end of a run. -/
theorem run_inv {P : σ → Prop} (hp : ∀ s s', P s → turn s = some s' → P s') :
    ∀ {n : ℕ} {s t : σ}, P s → run turn done n s = some t → P t
  | 0, _, _, _, h => by cases h
  | n + 1, s, t, hs, h => by
    rw [run] at h
    split at h
    · cases h; exact hs
    · obtain ⟨s', h1, h2⟩ := Option.bind_eq_some_iff.mp h
      exact run_inv hp (hp s s' hs h1) h2

/-- What every turn keeps holds in every state the loop comes to. -/
theorem Reaches.inv {P : σ → Prop} {s s' : σ}
    (hp : ∀ s s', P s → done s = false → turn s = some s' → P s') (hs : P s)
    (h : Reaches turn done s s') : P s' := by
  induction h with
  | refl => exact hs
  | turn h1 h2 _ ih => exact ih (hp _ _ hs h1 h2)

theorem reaches_of_run : ∀ {n : ℕ} {s t : σ}, run turn done n s = some t → Reaches turn done s t
  | 0, _, _, h => by cases h
  | n + 1, s, t, h => by
    rw [run] at h
    split at h
    · cases h
      exact .refl s
    · rename_i hd
      obtain ⟨s', h1, h2⟩ := Option.bind_eq_some_iff.mp h
      exact .turn (Bool.eq_false_iff.mpr hd) h1 (reaches_of_run h2)

end Loop
