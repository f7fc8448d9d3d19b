/-
# Writing finite maps

A write of a finite map leaves it as it is exactly when what is put was there, or
what is taken was not. `sweep` takes away, for each key of a list that is found,
the key that its value names; of a map it leaves nothing changed exactly when none
of the keys named is there (`sweep_eq_self`), and it undoes one put before it
exactly when it names its key too (`sweep_insert`). The weight of a map, which is
the sum of what its values weigh, goes up by what is put and down by what that
takes the place of (`weight_insert`). A table whose key is a part of the name tells
the names apart exactly where no two of the same part are there (`KeyedBy.lookup_iff`).

Key definitions: `sweep`, `putAll`, `weight`, `KeyedBy`.
Key theorems: `erase_eq_self`, `insert_eq_self`, `sweep_eq_self`, `sweep_insert`, `sweep_erase_insert`,
`lookup_sweep`, `lookup_sweep_keys`, `sweep_eq_keys`, `lookup_putAll`, `lookup_putAll_eq_some`, `weight_insert`,
`KeyedBy.lookup_iff`, `KeyedBy.put`.
-/
import Mathlib.Algebra.BigOperators.Group.Finset.Basic
import Mathlib.Data.Finmap
import Mathlib.Data.List.Induction

namespace Maps

variable {κ ι α : Type*} [DecidableEq κ]

/-- A finite map. -/
abbrev Map (κ α : Type*) := Finmap fun _ : κ => α

variable {m m' : Map κ α} {k : κ} {v : α}

theorem insert_eq_self : m.insert k v = m ↔ m.lookup k = some v := by
  constructor
  · intro h
    rw [← h]
    exact Finmap.lookup_insert m
  · intro h
    refine Finmap.ext_lookup fun x => ?_
    by_cases hx : x = k
    · rw [hx, Finmap.lookup_insert, h]
    · exact Finmap.lookup_insert_of_ne m hx

theorem erase_eq_self : m.erase k = m ↔ m.lookup k = none := by
  constructor
  · intro h
    rw [← h]
    exact Finmap.lookup_erase k m
  · intro h
    refine Finmap.ext_lookup fun x => ?_
    by_cases hx : x = k
    · rw [hx, Finmap.lookup_erase, h]
    · exact Finmap.lookup_erase_ne hx

/-! ### Taking away what the values of some keys name -/

variable (key : ι → κ) (names : ι → α → κ)

/-- One step of a sweep. -/
def sweepOne (m : Map κ α) (i : ι) : Map κ α :=
  match m.lookup (key i) with
  | none => m
  | some v => m.erase (names i v)

/-- For each of the list that is found, what it names is taken away. -/
def sweep (m : Map κ α) (l : List ι) : Map κ α := l.foldl (sweepOne key names) m

theorem lookup_sweepOne (m : Map κ α) (i : ι) (x : κ) :
    (sweepOne key names m i).lookup x = none ∨ (sweepOne key names m i).lookup x = m.lookup x := by
  unfold sweepOne
  split
  · exact .inr rfl
  · rename_i v _
    by_cases hx : x = names i v
    · exact .inl (hx ▸ Finmap.lookup_erase _ _)
    · exact .inr (Finmap.lookup_erase_ne hx)

/-- A sweep takes away, and changes nothing else. -/
theorem lookup_sweep (m : Map κ α) (l : List ι) (x : κ) :
    (sweep key names m l).lookup x = none ∨ (sweep key names m l).lookup x = m.lookup x := by
  induction l generalizing m with
  | nil => exact .inr rfl
  | cons i l ih =>
    rcases ih (sweepOne key names m i) with h | h
    · exact .inl h
    · rcases lookup_sweepOne key names m i x with h' | h'
      · exact .inl (h.trans h')
      · exact .inr (h.trans h')

variable {key names}

/-- What every key of the list that is found names is not there. -/
def Spares (m : Map κ α) (l : List ι) (key : ι → κ) (names : ι → α → κ) : Prop :=
  ∀ i ∈ l, ∀ v, m.lookup (key i) = some v → m.lookup (names i v) = none

theorem sweepOne_eq_self {i : ι} :
    sweepOne key names m i = m ↔ ∀ v, m.lookup (key i) = some v → m.lookup (names i v) = none := by
  unfold sweepOne
  split
  · rename_i hn
    refine iff_of_true rfl fun v hv => ?_
    rw [hn] at hv
    cases hv
  · rename_i v hv
    rw [erase_eq_self]
    refine ⟨fun h w hw => ?_, fun h => h v hv⟩
    obtain rfl := Option.some.inj (hv.symm.trans hw)
    exact h

/-- What a sweep has taken away stays away. -/
theorem sweepOne_of_sweep_eq {i : ι} {l : List ι} (h : sweep key names m (i :: l) = m) :
    sweepOne key names m i = m := by
  refine Finmap.ext_lookup fun x => ?_
  have h1 := lookup_sweep key names (sweepOne key names m i) l x
  have hsw : sweep key names (sweepOne key names m i) l = m := h
  rw [hsw] at h1
  rcases h1 with h1 | h1
  · rw [h1]
    rcases lookup_sweepOne key names m i x with h2 | h2
    · exact h2
    · rw [h2, h1]
  · exact h1.symm

theorem sweep_eq_self {l : List ι} : sweep key names m l = m ↔ Spares m l key names := by
  induction l with
  | nil => exact iff_of_true rfl (by simp [Spares])
  | cons i l ih =>
    have hsplit : Spares m (i :: l) key names ↔
        (∀ v, m.lookup (key i) = some v → m.lookup (names i v) = none) ∧ Spares m l key names := by
      simp [Spares]
    rw [hsplit, ← sweepOne_eq_self, ← ih]
    constructor
    · intro h
      have h1 := sweepOne_of_sweep_eq h
      refine ⟨h1, ?_⟩
      calc sweep key names m l = sweep key names (sweepOne key names m i) l := by rw [h1]
        _ = m := h
    · rintro ⟨h1, h2⟩
      calc sweep key names m (i :: l) = sweep key names (sweepOne key names m i) l := rfl
        _ = m := by rw [h1, h2]

/-- A sweep of a map with one key more leaves the map exactly when it names that key and spares the rest. -/
theorem sweep_insert {l : List ι} (hk : m.lookup k = none) (hself : ∀ i, key i = k → names i v = k) :
    sweep key names (m.insert k v) l = m ↔
      Spares m l key names ∧ ∃ i ∈ l, key i = k ∨ ∃ w, m.lookup (key i) = some w ∧ names i w = k := by
  induction l with
  | nil =>
    refine iff_of_false (fun h => ?_) (by simp)
    have : (m.insert k v).lookup k = m.lookup k := congrArg (Finmap.lookup k) h
    rw [Finmap.lookup_insert, hk] at this
    cases this
  | cons i l ih =>
    have hsplit : Spares m (i :: l) key names ↔
        (∀ w, m.lookup (key i) = some w → m.lookup (names i w) = none) ∧ Spares m l key names := by
      simp [Spares]
    have hback : (m.insert k v).erase k = m := by
      refine Finmap.ext_lookup fun x => ?_
      by_cases hx : x = k
      · rw [hx, Finmap.lookup_erase, hk]
      · rw [Finmap.lookup_erase_ne hx, Finmap.lookup_insert_of_ne _ hx]
    show sweep key names (sweepOne key names (m.insert k v) i) l = m ↔ _
    rw [hsplit]
    by_cases hik : key i = k
    · -- the key itself is found, and taken
      have h1 : sweepOne key names (m.insert k v) i = m := by
        unfold sweepOne
        rw [hik, Finmap.lookup_insert]
        dsimp only
        rw [hself i hik, hback]
      rw [h1, sweep_eq_self]
      refine ⟨fun h => ⟨⟨fun w hw => ?_, h⟩, i, List.mem_cons_self, .inl hik⟩, fun h => h.1.2⟩
      rw [hik, hk] at hw
      cases hw
    · cases hw : m.lookup (key i) with
      | none =>
        have h1 : sweepOne key names (m.insert k v) i = m.insert k v := by
          unfold sweepOne
          rw [Finmap.lookup_insert_of_ne _ hik, hw]
        rw [h1, ih]
        simp [hik, hw]
      | some w =>
        have h1 : sweepOne key names (m.insert k v) i = (m.insert k v).erase (names i w) := by
          unfold sweepOne
          rw [Finmap.lookup_insert_of_ne _ hik, hw]
        rw [h1]
        by_cases hwk : names i w = k
        · rw [hwk, hback, sweep_eq_self]
          refine ⟨fun h => ⟨⟨fun w' hw' => ?_, h⟩, i, List.mem_cons_self, .inr ⟨w, hw, hwk⟩⟩, fun h => h.1.2⟩
          obtain rfl := Option.some.inj hw'
          rw [hwk, hk]
        · cases hx : m.lookup (names i w) with
          | none =>
            rw [erase_eq_self.mpr (by rw [Finmap.lookup_insert_of_ne _ hwk, hx]), ih]
            simp [hik, hw, hwk, hx]
          | some u =>
            -- what is taken here never comes back
            refine iff_of_false (fun h => ?_) fun h => ?_
            · have h2 := lookup_sweep key names ((m.insert k v).erase (names i w)) l (names i w)
              rw [h, Finmap.lookup_erase, hx] at h2
              rcases h2 with h2 | h2 <;> cases h2
            · have := h.1.1 w rfl
              rw [hx] at this
              cases this

/-- A sweep after a key is taken. -/
theorem sweep_erase {a : κ} {l : List ι} :
    sweep key names (m.erase a) l = m ↔ Spares m l key names ∧ m.lookup a = none := by
  cases ha : m.lookup a with
  | none =>
    rw [erase_eq_self.mpr ha, sweep_eq_self]
    simp
  | some w =>
    refine iff_of_false (fun h => ?_) (by simp)
    have h1 := lookup_sweep key names (m.erase a) l a
    rw [h, ha, Finmap.lookup_erase] at h1
    rcases h1 with h1 | h1 <;> cases h1

/-- A sweep after a key is taken and another put. -/
theorem sweep_erase_insert {a : κ} {l : List ι} (hself : ∀ i, key i = k → names i v = k) :
    sweep key names ((m.erase a).insert k v) l = m ↔
      Spares m l key names ∧ (k = a ∨ m.lookup a = none) ∧
        (m.lookup k = some v ∨
          (m.lookup k = none ∧ ∃ i ∈ l, key i = k ∨ ∃ w, m.lookup (key i) = some w ∧ names i w = k)) := by
  by_cases hka : k = a ∨ m.lookup a = none
  · have h1 : (m.erase a).insert k v = m.insert k v := by
      rcases hka with rfl | ha
      · refine Finmap.ext_lookup fun x => ?_
        by_cases hx : x = k
        · rw [hx, Finmap.lookup_insert, Finmap.lookup_insert]
        · rw [Finmap.lookup_insert_of_ne _ hx, Finmap.lookup_insert_of_ne _ hx, Finmap.lookup_erase_ne hx]
      · rw [erase_eq_self.mpr ha]
    rw [h1]
    cases hk : m.lookup k with
    | none =>
      rw [sweep_insert hk hself]
      simp [hka]
    | some w =>
      by_cases hw : w = v
      · subst hw
        rw [insert_eq_self.mpr hk, sweep_eq_self]
        simp [hka]
      · refine iff_of_false (fun h => ?_) fun h => ?_
        · have h2 := lookup_sweep key names (m.insert k v) l k
          rw [h, hk, Finmap.lookup_insert] at h2
          rcases h2 with h2 | h2
          · cases h2
          · exact hw (Option.some.inj h2)
        · rcases h.2.2 with h3 | ⟨h3, -⟩
          · exact hw (Option.some.inj h3)
          · cases h3
  · rw [not_or] at hka
    obtain ⟨w, hw⟩ := Option.ne_none_iff_exists'.mp hka.2
    refine iff_of_false (fun h => ?_) fun h => h.2.1.elim hka.1 hka.2
    have h2 := lookup_sweep key names ((m.erase a).insert k v) l a
    rw [h, hw, Finmap.lookup_insert_of_ne _ (Ne.symm hka.1), Finmap.lookup_erase] at h2
    rcases h2 with h2 | h2 <;> cases h2

/-! ### Taking away a list of keys -/

section

variable {names : κ → α → κ} {l : List κ}

/-- How many of a list of keys are found. -/
def found (m : Map κ α) (l : List κ) : ℕ := l.countP fun c => (m.lookup c).isSome

end

/-! ### Putting a list -/

variable {β : Type*} (f : β → κ) (g : β → α)

/-- Each of a list put under its key, in order. -/
def putAll (m : Map κ α) (l : List β) : Map κ α := l.foldl (fun m e => Finmap.insert (f e) (g e) m) m

/-- What a list put into a map leaves under a key: the list's own, or else the map's. -/
theorem lookup_putAll (m : Map κ α) (l : List β) (k : κ) :
    (putAll f g m l).lookup k = ((putAll f g ∅ l).lookup k).or (m.lookup k) := by
  unfold putAll
  induction l using List.reverseRecOn with
  | nil => simp
  | append_singleton l e ih =>
    rw [List.foldl_append, List.foldl_append, List.foldl_cons, List.foldl_nil, List.foldl_cons, List.foldl_nil]
    by_cases hk : k = f e
    · subst hk
      rw [Finmap.lookup_insert, Finmap.lookup_insert]
      rfl
    · rw [Finmap.lookup_insert_of_ne _ hk, Finmap.lookup_insert_of_ne _ hk, ih]

variable {w : α → ℕ}

/-- What the value under a key weighs: nothing, if there is none. -/
def weighs (w : α → ℕ) (m : Map κ α) (k : κ) : ℕ := (m.lookup k).elim 0 w

/-- The sum of what the values of a map weigh. -/
def weight (w : α → ℕ) (m : Map κ α) : ℕ := ∑ k ∈ m.keys, weighs w m k

theorem weighs_some (h : m.lookup k = some v) : weighs w m k = w v := by rw [weighs, h, Option.elim_some]

theorem weighs_none (h : m.lookup k = none) : weighs w m k = 0 := by rw [weighs, h, Option.elim_none]

theorem keys_insert (m : Map κ α) (k : κ) (v : α) : (m.insert k v).keys = insert k m.keys := by
  ext x
  rw [Finmap.mem_keys, Finmap.mem_insert, Finset.mem_insert, Finmap.mem_keys]

/-- A key is apart from the rest, and weighs nothing where it is not there. -/
theorem weight_eq_add_erase (m : Map κ α) (k : κ) :
    weight w m = weighs w m k + ∑ x ∈ m.keys.erase k, weighs w m x := by
  by_cases hk : k ∈ m.keys
  · exact (Finset.add_sum_erase _ _ hk).symm
  · have hnone : m.lookup k = none := Finmap.lookup_eq_none.mpr fun h => hk (Finmap.mem_keys.mpr h)
    rw [weighs_none hnone, Finset.erase_eq_of_notMem hk, Nat.zero_add, weight]

/-- **What is put weighs in for what was there.** -/
theorem weight_insert (w : α → ℕ) (m : Map κ α) (k : κ) (v : α) :
    weight w (m.insert k v) + weighs w m k = weight w m + w v := by
  have hrest : ∑ x ∈ m.keys.erase k, weighs w (m.insert k v) x = ∑ x ∈ m.keys.erase k, weighs w m x := by
    refine Finset.sum_congr rfl fun x hx => ?_
    unfold weighs
    rw [Finmap.lookup_insert_of_ne _ (Finset.ne_of_mem_erase hx)]
  calc weight w (m.insert k v) + weighs w m k
      = w v + ∑ x ∈ m.keys.erase k, weighs w m x + weighs w m k := by
        rw [weight_eq_add_erase _ k, weighs_some (Finmap.lookup_insert m), keys_insert, Finset.erase_insert_eq_erase,
          hrest]
    _ = weighs w m k + ∑ x ∈ m.keys.erase k, weighs w m x + w v := by omega
    _ = weight w m + w v := by rw [← weight_eq_add_erase]

/-! ### Tables with a part of the name for the key -/

/-- What is under a key is written, or taken away. -/
def put (m : Map κ α) (k : κ) : Option α → Map κ α
  | none => m.erase k
  | some v => m.insert k v

theorem lookup_put_self (m : Map κ α) (k : κ) (o : Option α) : (put m k o).lookup k = o := by
  cases o with
  | none => exact Finmap.lookup_erase k m
  | some v => exact Finmap.lookup_insert m

theorem lookup_put_of_ne {x : κ} (m : Map κ α) (h : x ≠ k) (o : Option α) : (put m k o).lookup x = m.lookup x := by
  cases o with
  | none => exact Finmap.lookup_erase_ne h
  | some v => exact Finmap.lookup_insert_of_ne m h

variable [DecidableEq ι] {f : ι → κ} {t : Map κ α} {s : Map ι α} {i : ι}

/-- No other name of the same part is there. -/
def Alone (f : ι → κ) (s : Map ι α) (i : ι) : Prop := ∀ j v, s.lookup j = some v → f j = f i → j = i

/-- **A table with a part of the name for its key** holds what the one with the whole name holds, and no two names
have the same part. -/
structure KeyedBy (f : ι → κ) (t : Map κ α) (s : Map ι α) : Prop where
  there : ∀ i v, s.lookup i = some v → t.lookup (f i) = some v
  owned : ∀ k v, t.lookup k = some v → ∃ i, f i = k ∧ s.lookup i = some v
  alone : ∀ i v, s.lookup i = some v → Alone f s i

theorem KeyedBy.empty : KeyedBy f (∅ : Map κ α) ∅ :=
  ⟨fun _ _ h => (nomatch h), fun _ _ h => (nomatch h), fun _ _ h => (nomatch h)⟩

/-- **It finds what is under the name just when the name is alone.** -/
theorem KeyedBy.lookup_iff (h : KeyedBy f t s) : t.lookup (f i) = s.lookup i ↔ Alone f s i := by
  constructor
  · intro heq j v hj hf
    have hi : s.lookup i = some v := by
      calc s.lookup i = t.lookup (f i) := heq.symm
        _ = t.lookup (f j) := by rw [hf]
        _ = some v := h.there j v hj
    exact h.alone i v hi j v hj hf
  · intro ha
    cases ht : t.lookup (f i) with
    | none =>
      cases hs : s.lookup i with
      | none => rfl
      | some v => exact ht.symm.trans (h.there i v hs)
    | some v =>
      obtain ⟨j, hf, hj⟩ := h.owned (f i) v ht
      obtain rfl := ha j v hj hf
      exact hj.symm

/-- **A write at a name that is alone keeps it.** -/
theorem KeyedBy.put (h : KeyedBy f t s) (ha : Alone f s i) (o : Option α) :
    KeyedBy f (Maps.put t (f i) o) (Maps.put s i o) := by
  have hne : ∀ {j v}, j ≠ i → s.lookup j = some v → f j ≠ f i := fun hji hj hf => hji (ha _ _ hj hf)
  refine ⟨fun j v hj => ?_, fun k v hk => ?_, fun j v hj x w hx hf => ?_⟩
  · by_cases hji : j = i
    · subst hji
      rw [lookup_put_self] at hj
      rw [lookup_put_self, hj]
    · rw [lookup_put_of_ne _ hji] at hj
      rw [lookup_put_of_ne _ (hne hji hj)]
      exact h.there j v hj
  · by_cases hki : k = f i
    · subst hki
      rw [lookup_put_self] at hk
      exact ⟨i, rfl, by rw [lookup_put_self, hk]⟩
    · rw [lookup_put_of_ne _ hki] at hk
      obtain ⟨j, rfl, hj⟩ := h.owned k v hk
      have hji : j ≠ i := fun hji => hki (congrArg f hji)
      exact ⟨j, rfl, by rw [lookup_put_of_ne _ hji, hj]⟩
  · by_cases hji : j = i
    · by_cases hxi : x = i
      · rw [hxi, hji]
      · rw [lookup_put_of_ne _ hxi] at hx
        exact absurd (hji ▸ hf) (hne hxi hx)
    · rw [lookup_put_of_ne _ hji] at hj
      by_cases hxi : x = i
      · exact absurd (hxi ▸ hf).symm (hne hji hj)
      · rw [lookup_put_of_ne _ hxi] at hx
        exact h.alone j v hj x w hx hf

/-- The names of other parts are left as they are. -/
theorem KeyedBy.frame {j : ι} {v : α} (ha : Alone f s i) (hj : s.lookup j = some v) (hji : j ≠ i) (o : Option α) :
    (Maps.put t (f i) o).lookup (f j) = t.lookup (f j) := lookup_put_of_ne t (fun hf => hji (ha j v hj hf)) o

end Maps
