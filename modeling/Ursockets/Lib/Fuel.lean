/-
# Runs with their depth bounded

An evaluator that may go on without end is a function of a depth: within it the run ends,
or nothing is known yet. One that says more as the depth grows ends at one result at most,
and what it ends at follows from what its parts end at.

Key definitions: `Res`, `andThen`, `Below`, `Ends`, `Then`, `Gives`, `Settles`.
Key theorems: `below_andThen`, `ends_unique`, `Gives.then`, `Settles.all`.
-/
import Mathlib.Data.Nat.Init

namespace Fuel

variable {α β : Type}

/-- What a run ends at. -/
inductive Res (α : Type) where
  | done (x : α)
  | crash
  deriving DecidableEq

/-- What comes after a part: nothing, if the part has crashed or not ended. -/
def andThen (o : Option (Res α)) (k : α → Option (Res β)) : Option (Res β) :=
  match o with
  | some (.done x) => k x
  | some .crash => some .crash
  | none => none

/-- Where the one has ended, the other has ended at the same. -/
def Below (o o' : Option (Res α)) : Prop := ∀ r, o = some r → o' = some r

/-- A run that says no less with more depth. -/
def Steady (o : ℕ → Option (Res α)) : Prop := ∀ n m, n ≤ m → Below (o n) (o m)

/-- The run ends at a result. -/
def Ends (o : ℕ → Option (Res α)) (r : Res α) : Prop := ∃ n, o n = some r

/-- One part, and after it another: a crash of the first is one of both. -/
def Then (P : Res α → Prop) (K : α → Res β → Prop) (r : Res β) : Prop :=
  P .crash ∧ r = .crash ∨ ∃ x, P (.done x) ∧ K x r

theorem Below.rfl {o : Option (Res α)} : Below o o := fun _ h => h

theorem below_none {o : Option (Res α)} : Below none o := by
  intro r h
  cases h

theorem below_andThen {o o' : Option (Res α)} {k k' : α → Option (Res β)} (ho : Below o o')
    (hk : ∀ x, Below (k x) (k' x)) : Below (andThen o k) (andThen o' k') := by
  intro r h
  rcases o with _ | x | _
  · cases h
  · rw [ho _ rfl]
    exact hk x r h
  · rw [ho _ rfl]
    exact h

theorem andThen_eq_some {o : Option (Res α)} {k : α → Option (Res β)} {r : Res β} :
    andThen o k = some r ↔ Then (fun r => o = some r) (fun x r => k x = some r) r := by
  rcases o with _ | x | _
  · simp [andThen, Then]
  · simp [andThen, Then]
  · simp [andThen, Then, eq_comm]

/-- A run ends at one result at most. -/
theorem ends_unique {o : ℕ → Option (Res α)} (h : Steady o) {r r' : Res α} (he : Ends o r) (he' : Ends o r') :
    r = r' := by
  obtain ⟨n, hn⟩ := he
  obtain ⟨m, hm⟩ := he'
  have h1 := h n (max n m) (Nat.le_max_left n m) r hn
  have h2 := h m (max n m) (Nat.le_max_right n m) r' hm
  exact Option.some.inj (h1.symm.trans h2)

/-- A run that knows nothing at depth zero ends as it does from depth one on. -/
theorem ends_succ {o : ℕ → Option (Res α)} (h : o 0 = none) {r : Res α} :
    Ends o r ↔ Ends (fun n => o (n + 1)) r := by
  constructor
  · rintro ⟨n, hn⟩
    cases n with
    | zero =>
      rw [h] at hn
      cases hn
    | succ n => exact ⟨n, hn⟩
  · rintro ⟨n, hn⟩
    exact ⟨n + 1, hn⟩

/-- What a run ends at, of one that says no less with more depth. -/
structure Gives (o : ℕ → Option (Res α)) (P : Res α → Prop) : Prop where
  steady : Steady o
  iff (r : Res α) : Ends o r ↔ P r

theorem gives_ends {o : ℕ → Option (Res α)} (h : Steady o) : Gives o (Ends o) := ⟨h, fun _ => Iff.rfl⟩

theorem gives_const {o : Option (Res α)} : Gives (fun _ => o) fun r => o = some r :=
  ⟨fun _ _ _ => Below.rfl, fun _ => ⟨fun ⟨_, h⟩ => h, fun h => ⟨0, h⟩⟩⟩

theorem gives_res {r : Res α} : Gives (fun _ => some r) (· = r) :=
  ⟨fun _ _ _ => Below.rfl, fun _ => ⟨fun ⟨_, h⟩ => (Option.some.inj h).symm, fun h => ⟨0, by rw [h]⟩⟩⟩

/-- **A run of two parts ends at what the parts end at.** -/
theorem Gives.then {o : ℕ → Option (Res α)} {k : ℕ → α → Option (Res β)} {P : Res α → Prop} {K : α → Res β → Prop}
    (ho : Gives o P) (hk : ∀ x, Gives (fun n => k n x) (K x)) : Gives (fun n => andThen (o n) (k n)) (Then P K) where
  steady := fun n m hm => below_andThen (ho.steady n m hm) fun x => (hk x).steady n m hm
  iff := fun r => by
    simp only [Then, ← ho.iff, ← fun x => (hk x).iff]
    constructor
    · rintro ⟨n, hn⟩
      rcases andThen_eq_some.mp hn with ⟨h1, h2⟩ | ⟨x, h1, h2⟩
      · exact .inl ⟨⟨n, h1⟩, h2⟩
      · exact .inr ⟨x, ⟨n, h1⟩, n, h2⟩
    · rintro (⟨⟨n, h1⟩, h2⟩ | ⟨x, ⟨n, h1⟩, m, h2⟩)
      · exact ⟨n, andThen_eq_some.mpr (.inl ⟨h1, h2⟩)⟩
      · have h3 := ho.steady n (max n m) (Nat.le_max_left n m) _ h1
        have h4 := (hk x).steady m (max n m) (Nat.le_max_right n m) _ h2
        exact ⟨max n m, andThen_eq_some.mpr (.inr ⟨x, h3, h4⟩)⟩

theorem Gives.ite {c : Prop} [Decidable c] {o o' : ℕ → Option (Res α)} {P P' : Res α → Prop} (h : Gives o P)
    (h' : Gives o' P') : Gives (fun n => if c then o n else o' n) fun r => if c then P r else P' r := by
  split
  · exact h
  · exact h'

/-- What comes after a part that ends at one value. -/
theorem Then.of_done {P : Res α → Prop} {K : α → Res β → Prop} {x : α} (hP : ∀ r, P r ↔ r = .done x) (r : Res β) :
    Then P K r ↔ K x r := by
  simp [Then, hP]

/-! ### Recursion with fuel -/

/-- With fuel enough the answer is `x`. -/
def Settles (f : ℕ → Option α) (x : α) : Prop := ∃ N, ∀ n, N ≤ n → f n = some x

namespace Settles

variable {γ δ : Type} {f : ℕ → Option α} {g : ℕ → Option β} {h : ℕ → Option γ} {k : ℕ → Option δ} {x : α} {y : β}
  {z : γ} {w : δ}

theorem succ {k : ℕ → Option α} (h : Settles f x) (hk : ∀ n, k (n + 1) = f n) : Settles k x := by
  obtain ⟨N, h⟩ := h
  refine ⟨N + 1, fun n hn => ?_⟩
  obtain ⟨n, rfl⟩ : ∃ n', n = n' + 1 := ⟨n - 1, by omega⟩
  exact (hk n).trans (h n (by omega))

theorem now (h : ∀ n, f (n + 1) = some x) : Settles f x :=
  succ (f := fun _ => some x) ⟨0, fun _ _ => rfl⟩ h

theorem all (hf : Settles f x) (hg : Settles g y) (hh : Settles h z)
    (hk : ∀ n, f n = some x → g n = some y → h n = some z → k n = some w) : Settles k w := by
  obtain ⟨N, hf⟩ := hf
  obtain ⟨M, hg⟩ := hg
  obtain ⟨L, hh⟩ := hh
  exact ⟨max N (max M L), fun n hn => hk n (hf n (by omega)) (hg n (by omega)) (hh n (by omega))⟩

/-- A call settles after those that it makes. -/
theorem call (hf : Settles f x) (hg : Settles g y) (hh : Settles h z)
    (hk : ∀ n, f n = some x → g n = some y → h n = some z → k (n + 1) = some w) : Settles k w :=
  (hf.all hg hh hk).succ fun _ => rfl

end Settles

end Fuel
