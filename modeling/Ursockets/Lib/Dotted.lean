/-
# Numerals with dots

A number spelled in a base, with a dot before each group of digits counted from the right, and
the texts that are such a spelling. A text is a list of symbols, the most significant first; a
dot is `none`.

Key definitions: `places`, `dot`, `spell`, `value`, `Canonical`.
Key theorems: `canonical_spell`, `value_spell`, `spell_value`, `spell_block`, `length_spell`.
-/
import Mathlib.Data.List.ReduceOption
import Mathlib.Data.Nat.Digits.Lemmas

namespace Dotted

variable {α : Type*}

/-- The `k` low digits of a number, least significant first. -/
def places (b : ℕ) : ℕ → ℕ → List ℕ
  | 0, _ => []
  | k + 1, a => a % b :: places b k (a / b)

/-- Digits with a dot after every `g` of them that more follow; `k` come before the first dot. -/
def dotFrom (g : ℕ) : ℕ → List α → List (Option α)
  | _, [] => []
  | 0, d :: l => none :: some d :: dotFrom g (g - 1) l
  | k + 1, d :: l => some d :: dotFrom g k l

/-- Digits with a dot after every `g` of them that more follow. -/
def dot (g : ℕ) (l : List α) : List (Option α) := dotFrom g g l

/-- The text of a number. -/
def spell (b g a : ℕ) : List (Option ℕ) := if a = 0 then [some 0] else (dot g (Nat.digits b a)).reverse

/-- The number that the digits of a text make. -/
def value (b : ℕ) (t : List (Option ℕ)) : ℕ := Nat.ofDigits b (t.reverse.reduceOption)

/-- A text in base `b`, with its dots after every `g` digits from the right on and at no other
place, which starts with a zero only when it is all of the text. -/
structure Canonical (b g : ℕ) (t : List (Option ℕ)) : Prop where
  digit : ∀ d, some d ∈ t → d < b
  dots : ∀ i s, t.reverse[i]? = some s → (s = none ↔ i % (g + 1) = g)
  lead : t = [some 0] ∨ ∃ d l, t = some d :: l ∧ d ≠ 0

variable {b g : ℕ}

/-! ### Low digits -/

theorem length_places (b k a : ℕ) : (places b k a).length = k := by
  induction k generalizing a with
  | zero => rfl
  | succ k ih => rw [places, List.length_cons, ih]

/-- The low digits one by one. -/
theorem places_eq_map (b k a : ℕ) : places b k a = (List.range k).map fun j => a / b ^ j % b := by
  induction k generalizing a with
  | zero => rfl
  | succ k ih =>
    have hshift : ∀ j, a / b / b ^ j % b = a / b ^ (j + 1) % b := fun j => by
      rw [Nat.div_div_eq_div_mul, ← Nat.pow_succ']
    rw [places, ih, List.range_succ_eq_map, List.map_cons, List.map_map, Nat.pow_zero, Nat.div_one]
    simp only [hshift]
    rfl

/-- A number's digits are its `k` low ones and those of the rest. -/
theorem digits_places (hb : 1 < b) {k a : ℕ} (h : b ^ k ≤ a) :
    Nat.digits b a = places b k a ++ Nat.digits b (a / b ^ k) := by
  induction k generalizing a with
  | zero => rw [places, List.nil_append, Nat.pow_zero, Nat.div_one]
  | succ k ih =>
    have hpos : 0 < a := (Nat.pow_pos (by omega)).trans_le h
    have hrest : b ^ k ≤ a / b := by
      apply (Nat.le_div_iff_mul_le (by omega)).mpr
      rwa [← Nat.pow_succ]
    rw [Nat.digits_def' hb hpos, ih hrest, places, List.cons_append, Nat.div_div_eq_div_mul, ← Nat.pow_succ']

/-- The low digits of a number that has no more, with zeros above them. -/
theorem places_pad (hb : 1 < b) {k a : ℕ} (h : a < b ^ k) :
    places b k a = Nat.digits b a ++ List.replicate (k - (Nat.digits b a).length) 0 := by
  induction k generalizing a with
  | zero =>
    obtain rfl : a = 0 := Nat.lt_one_iff.mp h
    rw [Nat.digits_zero]
    rfl
  | succ k ih =>
    have hrest : a / b < b ^ k := by
      apply (Nat.div_lt_iff_lt_mul (by omega)).mpr
      rwa [← Nat.pow_succ]
    by_cases h0 : a = 0
    · subst h0
      rw [places, Nat.zero_div, Nat.zero_mod, ih (Nat.pow_pos (by omega)), Nat.digits_zero]
      rfl
    · rw [Nat.digits_def' hb (Nat.pos_of_ne_zero h0), places, ih hrest, List.cons_append, List.length_cons,
        Nat.succ_sub_succ]

/-- The low digits are those of the number cut to them. -/
theorem places_mod (b k a : ℕ) : places b k (a % b ^ k) = places b k a := by
  induction k generalizing a with
  | zero => rfl
  | succ k ih =>
    rw [places, places, Nat.pow_succ', Nat.mod_mul_right_mod, Nat.mod_mul_right_div_self, ih]

/-! ### Dots -/

theorem reduceOption_dotFrom (g k : ℕ) (l : List α) : (dotFrom g k l).reduceOption = l := by
  induction l generalizing k with
  | nil => cases k <;> rfl
  | cons d l ih =>
    cases k with
    | zero => rw [dotFrom, List.reduceOption_cons_of_none, List.reduceOption_cons_of_some, ih]
    | succ k => rw [dotFrom, List.reduceOption_cons_of_some, ih]

/-- No dot stands among the first `k` digits. -/
theorem dotFrom_short {k : ℕ} {l : List α} (h : l.length ≤ k) : dotFrom g k l = l.map some := by
  induction l generalizing k with
  | nil => cases k <;> rfl
  | cons d l ih =>
    obtain ⟨k, rfl⟩ : ∃ m, k = m + 1 := Nat.exists_eq_succ_of_ne_zero (by rw [List.length_cons] at h; omega)
    rw [dotFrom, ih (Nat.le_of_succ_le_succ h), List.map_cons]

theorem dotFrom_zero (hg : 0 < g) {l : List α} (h : l ≠ []) : dotFrom g 0 l = none :: dot g l := by
  obtain ⟨g, rfl⟩ := Nat.exists_eq_succ_of_ne_zero hg.ne'
  cases l with
  | nil => exact absurd rfl h
  | cons d l => rfl

theorem dotFrom_append (hg : 0 < g) {m : List α} (hm : m ≠ []) (l : List α) :
    dotFrom g l.length (l ++ m) = l.map some ++ none :: dot g m := by
  induction l with
  | nil => exact dotFrom_zero hg hm
  | cons d l ih => rw [List.length_cons, List.cons_append, dotFrom, ih, List.map_cons, List.cons_append]

/-- A group that more follow is its digits and a dot. -/
theorem dot_append (hg : 0 < g) {l m : List α} (hl : l.length = g) (hm : m ≠ []) :
    dot g (l ++ m) = l.map some ++ none :: dot g m := by
  have h := dotFrom_append hg hm l
  rwa [hl] at h

/-- The last symbol is a digit. -/
theorem dotFrom_concat (g k : ℕ) (l : List α) (d : α) : ∃ m, dotFrom g k (l ++ [d]) = m ++ [some d] := by
  induction l generalizing k with
  | nil =>
    cases k with
    | zero => exact ⟨[none], rfl⟩
    | succ k => exact ⟨[], rfl⟩
  | cons e l ih =>
    cases k with
    | zero =>
      obtain ⟨m, hm⟩ := ih (g - 1)
      exact ⟨none :: some e :: m, by rw [List.cons_append, dotFrom, hm]; rfl⟩
    | succ k =>
      obtain ⟨m, hm⟩ := ih k
      exact ⟨some e :: m, by rw [List.cons_append, dotFrom, hm]; rfl⟩

theorem length_dotFrom (hg : 0 < g) {k : ℕ} (hk : k ≤ g) (l : List α) :
    (dotFrom g k l).length = l.length + (l.length + (g - k) - 1) / g := by
  induction l generalizing k with
  | nil =>
    have hnone : (0 + (g - k) - 1) / g = 0 := Nat.div_eq_of_lt (by omega)
    rw [dotFrom, List.length_nil, List.length_nil, hnone]
  | cons d l ih =>
    cases k with
    | zero =>
      have hmore : (l.length + 1 + g - 1) / g = l.length / g + 1 := by
        rw [Nat.add_right_comm, Nat.add_sub_cancel, Nat.add_div_right _ hg]
      have hrest : l.length + (g - (g - 1)) - 1 = l.length := by omega
      rw [dotFrom, List.length_cons, List.length_cons, ih (by omega), List.length_cons, Nat.sub_zero, hmore, hrest]
      omega
    | succ k =>
      have hsame : l.length + 1 + (g - (k + 1)) - 1 = l.length + (g - k) - 1 := by omega
      rw [dotFrom, List.length_cons, ih (by omega), List.length_cons, hsame]
      omega

/-- **Where the dots stand.** -/
theorem dotFrom_at (hg : 0 < g) {k : ℕ} (hk : k ≤ g) {l : List α} {i : ℕ} {s : Option α}
    (h : (dotFrom g k l)[i]? = some s) : s = none ↔ (i + (g - k)) % (g + 1) = g := by
  induction l generalizing k i with
  | nil => cases k <;> exact absurd h (by simp [dotFrom])
  | cons d l ih =>
    cases k with
    | zero =>
      match i with
      | 0 =>
        obtain rfl : none = s := Option.some.inj h
        rw [Nat.zero_add, Nat.sub_zero, Nat.mod_eq_of_lt (Nat.lt_succ_self g)]
        exact ⟨fun _ => rfl, fun _ => rfl⟩
      | 1 =>
        obtain rfl : some d = s := Option.some.inj h
        rw [Nat.sub_zero, Nat.add_comm, Nat.mod_self]
        exact ⟨fun h => absurd h (Option.some_ne_none d), fun h => absurd h hg.ne⟩
      | i + 2 =>
        have hturn : (i + 2 + (g - 0)) % (g + 1) = (i + (g - (g - 1))) % (g + 1) := by
          rw [show i + 2 + (g - 0) = i + (g - (g - 1)) + (g + 1) by omega, Nat.add_mod_right]
        rw [hturn]
        exact ih (Nat.sub_le g 1) h
    | succ k =>
      match i with
      | 0 =>
        obtain rfl : some d = s := Option.some.inj h
        rw [Nat.zero_add, Nat.mod_eq_of_lt (by omega)]
        exact ⟨fun h => absurd h (Option.some_ne_none d), fun h => by omega⟩
      | i + 1 =>
        rw [show i + 1 + (g - (k + 1)) = i + (g - k) by omega]
        exact ih (by omega) h

/-- Digits whose dots stand where they should are got back from the digits alone. -/
theorem dotFrom_reduceOption (hg : 0 < g) : ∀ {k : ℕ}, k ≤ g → ∀ r : List (Option α),
    (∀ i s, r[i]? = some s → (s = none ↔ (i + (g - k)) % (g + 1) = g)) → r.getLast? ≠ some none →
      dotFrom g k r.reduceOption = r
  | k, _, [], _, _ => by cases k <;> rfl
  | _, _, [none], _, hlast => absurd rfl hlast
  | k, hk, none :: none :: r, hat, _ => by
    have h0 := (hat 0 none rfl).mp rfl
    have h1 := (hat 1 none rfl).mp rfl
    rw [Nat.zero_add, Nat.mod_eq_of_lt (by omega)] at h0
    rw [show 1 + (g - k) = g + 1 by omega, Nat.mod_self] at h1
    omega
  | k, hk, none :: some d :: r, hat, hlast => by
    have h0 := (hat 0 none rfl).mp rfl
    rw [Nat.zero_add, Nat.mod_eq_of_lt (by omega)] at h0
    obtain rfl : k = 0 := by omega
    have hrest : dotFrom g (g - 1) r.reduceOption = r := by
      apply dotFrom_reduceOption hg (Nat.sub_le g 1) r
      · intro i s his
        rw [hat (i + 2) s his, show i + 2 + (g - 0) = i + (g - (g - 1)) + (g + 1) by omega, Nat.add_mod_right]
      · cases r with
        | nil => exact nofun
        | cons x r => exact hlast
    rw [List.reduceOption_cons_of_none, List.reduceOption_cons_of_some, dotFrom, hrest]
  | k, hk, some d :: r, hat, hlast => by
    have h0 : k ≠ 0 := by
      rintro rfl
      refine Option.some_ne_none d ((hat 0 (some d) rfl).mpr ?_)
      rw [Nat.zero_add, Nat.sub_zero, Nat.mod_eq_of_lt (Nat.lt_succ_self g)]
    obtain ⟨k, rfl⟩ := Nat.exists_eq_succ_of_ne_zero h0
    have hrest : dotFrom g k r.reduceOption = r := by
      apply dotFrom_reduceOption hg (Nat.le_of_succ_le hk) r
      · intro i s his
        rw [hat (i + 1) s his, show i + 1 + (g - (k + 1)) = i + (g - k) by omega]
      · cases r with
        | nil => exact nofun
        | cons x r => exact hlast
    rw [List.reduceOption_cons_of_some, dotFrom, hrest]

/-! ### Spelling -/

theorem value_spell (b g a : ℕ) : value b (spell b g a) = a := by
  rw [spell, value]
  by_cases ha : a = 0
  · rw [if_pos ha, ha]
    rfl
  · rw [if_neg ha, List.reverse_reverse, dot, reduceOption_dotFrom, Nat.ofDigits_digits]

/-- **A number's text is canonical.** -/
theorem canonical_spell (hb : 1 < b) (hg : 0 < g) (a : ℕ) : Canonical b g (spell b g a) := by
  by_cases ha : a = 0
  · rw [spell, if_pos ha]
    refine ⟨fun d hd => ?_, fun i s his => ?_, Or.inl rfl⟩
    · obtain rfl : d = 0 := Option.some.inj (List.mem_singleton.mp hd)
      omega
    · obtain rfl : i = 0 := by
        have := (List.getElem?_eq_some_iff.mp his).1
        simpa using this
      obtain rfl : some 0 = s := Option.some.inj his
      rw [Nat.zero_mod]
      exact ⟨fun h => absurd h (Option.some_ne_none 0), fun h => absurd h hg.ne⟩
  · rw [spell, if_neg ha]
    refine ⟨fun d hd => ?_, fun i s his => ?_, Or.inr ?_⟩
    · have hmem : d ∈ (dotFrom g g (Nat.digits b a)).reduceOption :=
        List.reduceOption_mem_iff.mpr (List.mem_reverse.mp hd)
      rw [reduceOption_dotFrom] at hmem
      exact Nat.digits_lt_base hb hmem
    · rw [List.reverse_reverse] at his
      simpa using dotFrom_at hg (Nat.le_refl g) his
    · have hne : Nat.digits b a ≠ [] := Nat.digits_ne_nil_iff_ne_zero.mpr ha
      obtain ⟨m, hm⟩ := dotFrom_concat g g (Nat.digits b a).dropLast ((Nat.digits b a).getLast hne)
      rw [List.dropLast_append_getLast hne] at hm
      exact ⟨_, m.reverse, by rw [dot, hm, List.reverse_append]; rfl, Nat.getLast_digit_ne_zero b ha⟩

/-- **A canonical text is that of its number.** -/
theorem spell_value (hb : 1 < b) (hg : 0 < g) {t : List (Option ℕ)} (h : Canonical b g t) :
    spell b g (value b t) = t := by
  obtain rfl | ⟨d, l, rfl, hd⟩ := h.lead
  · rfl
  have hlast : (some d :: l).reverse.getLast? = some (some d) := by
    rw [List.getLast?_reverse, List.head?_cons]
  have hdots : dot g ((some d :: l).reverse.reduceOption) = (some d :: l).reverse := by
    apply dotFrom_reduceOption hg (Nat.le_refl g)
    · simpa using h.dots
    · rw [hlast]
      exact fun he => Option.some_ne_none d (Option.some.inj he)
  have hsplit : (some d :: l).reverse.reduceOption = l.reverse.reduceOption ++ [d] := by
    rw [List.reverse_cons, List.reduceOption_append]
    rfl
  have hdigits : Nat.digits b (value b (some d :: l)) = (some d :: l).reverse.reduceOption := by
    apply Nat.digits_ofDigits b hb
    · intro e he
      exact h.digit e (List.mem_reverse.mp (List.reduceOption_mem_iff.mp he))
    · simp only [hsplit, List.getLast_append_singleton]
      exact fun _ => hd
  have hvalue : value b (some d :: l) ≠ 0 := by
    have hne : Nat.digits b (value b (some d :: l)) ≠ [] := by
      rw [hdigits, hsplit]
      exact List.concat_ne_nil d _
    exact Nat.digits_ne_nil_iff_ne_zero.mp hne
  rw [spell, if_neg hvalue, hdigits, hdots, List.reverse_reverse]

/-- A number of one group. -/
theorem spell_short (hb : 1 < b) {a : ℕ} (ha : a ≠ 0) (h : a < b ^ g) :
    spell b g a = ((Nat.digits b a).map some).reverse := by
  rw [spell, if_neg ha, dot, dotFrom_short ((Nat.digits_length_le_iff hb a).mpr h)]

/-- A number of more groups: the text of the number above the last group, a dot and the last group. -/
theorem spell_block (hb : 1 < b) (hg : 0 < g) {a : ℕ} (h : b ^ g ≤ a) :
    spell b g a = spell b g (a / b ^ g) ++ none :: ((places b g a).map some).reverse := by
  have hpow : 0 < b ^ g := Nat.pow_pos (by omega)
  have ha : a ≠ 0 := by omega
  have hrest : a / b ^ g ≠ 0 := (Nat.div_pos h hpow).ne'
  rw [spell, if_neg ha, digits_places hb h, dot_append hg (length_places b g a)
    (Nat.digits_ne_nil_iff_ne_zero.mpr hrest), spell, if_neg hrest, List.reverse_append, List.reverse_cons,
    List.append_assoc]
  rfl

/-- How long a number's text is. -/
theorem length_spell (hg : 0 < g) {a : ℕ} (ha : a ≠ 0) :
    (spell b g a).length = (Nat.digits b a).length + ((Nat.digits b a).length - 1) / g := by
  rw [spell, if_neg ha, List.length_reverse, dot, length_dotFrom hg (Nat.le_refl g), Nat.sub_self, Nat.add_zero]

/-! ### Reading from the left -/

theorem reduceOption_map_some (l : List α) : (l.map some).reduceOption = l := by
  induction l with
  | nil => rfl
  | cons d l ih => rw [List.map_cons, List.reduceOption_cons_of_some, ih]

theorem value_map_some (b : ℕ) (l : List ℕ) : value b (l.map some) = Nat.ofDigits b l.reverse := by
  rw [value, ← List.map_reverse, reduceOption_map_some]

/-- A group more to the right. -/
theorem value_block (b : ℕ) (t : List (Option ℕ)) (l : List ℕ) :
    value b (t ++ none :: l.map some) = value b t * b ^ l.length + Nat.ofDigits b l.reverse := by
  have hl : (l.map some).reverse.reduceOption = l.reverse := by
    rw [← List.map_reverse, reduceOption_map_some]
  rw [value, List.reverse_append, List.reverse_cons, List.reduceOption_append, List.reduceOption_append, hl,
    List.reduceOption_cons_of_none, List.reduceOption_nil, List.append_nil, Nat.ofDigits_append,
    List.length_reverse, value]
  ring

/-- One group of digits, of which the first is not zero. -/
theorem canonical_group {d : ℕ} {l : List ℕ} (hd : d ≠ 0) (hl : l.length < g) (hlt : ∀ e ∈ d :: l, e < b) :
    Canonical b g ((d :: l).map some) := by
  refine ⟨fun e he => ?_, fun i s his => ?_, Or.inr ⟨d, l.map some, rfl, hd⟩⟩
  · obtain ⟨e', he', heq⟩ := List.mem_map.mp he
    rw [← Option.some.inj heq]
    exact hlt e' he'
  · obtain ⟨hi, hs⟩ := List.getElem?_eq_some_iff.mp his
    rw [List.length_reverse, List.length_map, List.length_cons] at hi
    have hmem : s ∈ ((d :: l).map some).reverse := List.mem_of_getElem? his
    obtain ⟨e, _, rfl⟩ := List.mem_map.mp (List.mem_reverse.mp hmem)
    rw [Nat.mod_eq_of_lt (by omega)]
    exact ⟨fun h => absurd h (Option.some_ne_none e), fun h => by omega⟩

/-- A group put behind a canonical text. -/
theorem Canonical.block {t : List (Option ℕ)} (h : Canonical b g t) (ht : t ≠ [some 0]) {l : List ℕ}
    (hl : l.length = g) (hlt : ∀ e ∈ l, e < b) : Canonical b g (t ++ none :: l.map some) := by
  obtain h0 | ⟨d, l', rfl, hd⟩ := h.lead
  · exact absurd h0 ht
  refine ⟨fun e he => ?_, fun i s his => ?_, Or.inr ⟨d, _, rfl, hd⟩⟩
  · rcases List.mem_append.mp he with he | he
    · exact h.digit e he
    · obtain ⟨e', he', heq⟩ := List.mem_map.mp ((List.mem_cons.mp he).resolve_left (Option.some_ne_none e))
      rw [← Option.some.inj heq]
      exact hlt e' he'
  · rw [List.reverse_append, List.reverse_cons, List.append_assoc, List.singleton_append] at his
    rcases Nat.lt_trichotomy i g with hi | rfl | hi
    · rw [List.getElem?_append_left (by simpa [hl] using hi)] at his
      obtain ⟨e, _, rfl⟩ := List.mem_map.mp (List.mem_reverse.mp (List.mem_of_getElem? his))
      rw [Nat.mod_eq_of_lt (by omega)]
      exact ⟨fun h => absurd h (Option.some_ne_none e), fun h => by omega⟩
    · rw [List.getElem?_append_right (by simp [hl])] at his
      simp only [List.length_reverse, List.length_map, hl, Nat.sub_self, List.getElem?_cons_zero,
        Option.some.injEq] at his
      rw [← his, Nat.mod_eq_of_lt (Nat.lt_succ_self i)]
      exact ⟨fun _ => rfl, fun _ => rfl⟩
    · obtain ⟨j, rfl⟩ := Nat.exists_eq_add_of_lt hi
      rw [List.getElem?_append_right (by simp [hl]; omega)] at his
      simp only [List.length_reverse, List.length_map, hl] at his
      rw [show g + j + 1 - g = j + 1 by omega, List.getElem?_cons_succ] at his
      rw [h.dots j s his, show g + j + 1 = j + (g + 1) by omega, Nat.add_mod_right]

/-- A symbol is a dot just when whole groups but for its dot stand behind it. -/
theorem Canonical.symbol {t r : List (Option ℕ)} {s : Option ℕ} (h : Canonical b g (t ++ s :: r)) :
    s = none ↔ r.length % (g + 1) = g := by
  refine h.dots r.length s ?_
  rw [List.reverse_append, List.reverse_cons, List.append_assoc, List.getElem?_append_right (by simp),
    List.length_reverse, Nat.sub_self]
  rfl

theorem map_some_reduceOption {r : List (Option α)} (h : none ∉ r) : r.reduceOption.map some = r := by
  induction r with
  | nil => rfl
  | cons s r ih =>
    cases s with
    | none => exact absurd List.mem_cons_self h
    | some d => rw [List.reduceOption_cons_of_some, List.map_cons, ih fun hr => h (List.mem_cons_of_mem _ hr)]

/-- A canonical text starts with the digits that are no whole group. -/
theorem Canonical.head {t : List (Option ℕ)} (h : Canonical b g t) :
    ∃ (l : List ℕ) (r : List (Option ℕ)), t = l.map some ++ r ∧ l.length = t.length % (g + 1) ∧
      r.length % (g + 1) = 0 := by
  have hle : t.length % (g + 1) ≤ t.length := Nat.mod_le _ _
  have hlen : (t.take (t.length % (g + 1))).length = t.length % (g + 1) := List.length_take_of_le hle
  have hrest : (t.length - t.length % (g + 1)) % (g + 1) = 0 :=
    Nat.sub_mod_eq_zero_of_mod_eq (Nat.mod_mod _ _).symm
  have hdigits : none ∉ t.take (t.length % (g + 1)) := by
    intro hmem
    obtain ⟨u, w, huw⟩ := List.append_of_mem hmem
    have hsplit : t = u ++ none :: (w ++ t.drop (t.length % (g + 1))) := by
      rw [← List.cons_append, ← List.append_assoc, ← huw, List.take_append_drop]
    have hw : u.length + (w.length + 1) = t.length % (g + 1) := by
      rw [← hlen, huw, List.length_append, List.length_cons]
    have hlt : t.length % (g + 1) < g + 1 := Nat.mod_lt _ (Nat.succ_pos g)
    rw [hsplit] at h
    have hdot := h.symbol.mp rfl
    rw [List.length_append, List.length_drop, Nat.add_mod, hrest, Nat.add_zero, Nat.mod_mod,
      Nat.mod_eq_of_lt (by omega)] at hdot
    omega
  refine ⟨(t.take (t.length % (g + 1))).reduceOption, t.drop (t.length % (g + 1)), ?_, ?_, ?_⟩
  · rw [map_some_reduceOption hdigits, List.take_append_drop]
  · have hmap := congrArg List.length (map_some_reduceOption hdigits)
    rwa [List.length_map, hlen] at hmap
  · rw [List.length_drop, hrest]

end Dotted
