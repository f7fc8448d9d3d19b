/-
# Dictionaries of bounded pails

The associative structures of `ur/hashcons.c` (`ur_dict_t`, `ur_dict32_t`,
`ur_dict64_t`): the keys are spread by their mugs over pails of up to ten, and
when a pail is full the table is rebuilt, by Fibonacci growth, until all pails
have room. Keys with one mug share a pail in a table of any size, so a put of
an eleventh such key never ends: the table grows until there is no memory. The
memory is a number of growth steps, `room`.

Key definitions: `Dict`, `dictGrow`, `dictGet`, `dictPut`, `dictIntern`, `Uncrowded`.
Key theorems: `dictPut_spec`, `dictPut_isSome`, `dictIntern_spec`, `dictIntern_isSome`.
-/
import Mathlib.Algebra.Group.Nat.Defs
import Mathlib.Data.List.Nodup
import Mathlib.Data.List.Perm.Subperm
import Mathlib.Data.Nat.Init
import Mathlib.Logic.Function.Basic
import Mathlib.Tactic.Set

namespace Ursockets
namespace UrDict

/-- `ur_pail_max`. -/
def pailMax : ℕ := 10

/-- `ur_dict64_t`: a pail is the list of its keys and values that are filled. -/
structure Dict (K V : Type) where
  prev : ℕ
  size : ℕ
  pails : ℕ → List (K × V)

variable {K V : Type} (mug : K → ℕ)

/-- A table with no buckets yet. -/
def Dict.nil : Dict K V := ⟨0, 0, fun _ => []⟩

/-- The entries of all pails, in order. -/
def Dict.entries (d : Dict K V) : List (K × V) := (List.range d.size).flatMap d.pails

/-- The entries are put into the pails of a table of `next`, until one is full. -/
def rehash (next : ℕ) : List (K × V) → (ℕ → List (K × V)) → Option (ℕ → List (K × V))
  | [], pails => some pails
  | e :: es, pails =>
    let idx := mug e.1 % next
    if (pails idx).length = pailMax then none
    else rehash next es (Function.update pails idx (pails idx ++ [e]))

/-- `ur_dict64_grow`: it tries the next sizes until no pail is too full. -/
def dictGrow (d : Dict K V) : ℕ → ℕ → ℕ → Option (Dict K V)
  | 0, _, _ => none
  | room + 1, prev, size =>
    let next := prev + size
    match rehash mug next d.entries (fun _ => []) with
    | some pails => some ⟨size, next, pails⟩
    | none => dictGrow d room size next

/-- `ur_dict64_get`. -/
def dictGet [DecidableEq K] (d : Dict K V) (key : K) : Option V :=
  ((d.pails (mug key % d.size)).find? fun e => e.1 = key).map Prod.snd

/-- The pail with the value of a key replaced. -/
def pailSet [DecidableEq K] (key : K) (val : V) : List (K × V) → Option (List (K × V))
  | [] => none
  | e :: es => if e.1 = key then some ((key, val) :: es) else (pailSet key val es).map (e :: ·)

/-- `ur_dict64_put`, with the turns of its loop bounded. -/
def dictPut [DecidableEq K] (room : ℕ) (key : K) (val : V) : ℕ → Dict K V → Option (Dict K V)
  | 0, _ => none
  | n + 1, d =>
    let idx := mug key % d.size
    match pailSet key val (d.pails idx) with
    | some pail => some { d with pails := Function.update d.pails idx pail }
    | none =>
      if (d.pails idx).length = pailMax then
        (dictGrow mug d room d.prev d.size).bind fun d => dictPut room key val n d
      else
        some { d with pails := Function.update d.pails idx (d.pails idx ++ [(key, val)]) }

/-- `ur_dict64_wipe`. -/
def dictWipe (d : Dict K V) : Dict K V := { d with pails := fun _ => [] }

/-- The loop of `ur_coin_bytes_unsafe` and `ur_cons`: the first key of the pail
of mug `m` that is the same, or the fresh key, put there. -/
def dictIntern (room m : ℕ) (same : K → Bool) (fresh : K) (val : V) :
    ℕ → Dict K V → Option (Dict K V × Option K)
  | 0, _ => none
  | n + 1, d =>
    let idx := m % d.size
    match (d.pails idx).find? fun e => same e.1 with
    | some e => some (d, some e.1)
    | none =>
      if (d.pails idx).length = pailMax then
        (dictGrow mug d room d.prev d.size).bind fun d => dictIntern room m same fresh val n d
      else
        some ({ d with pails := Function.update d.pails idx (d.pails idx ++ [(fresh, val)]) }, none)

/-- The table with its values replaced. -/
def Dict.map {W : Type} (f : V → W) (d : Dict K V) : Dict K W :=
  ⟨d.prev, d.size, fun i => (d.pails i).map fun e => (e.1, f e.2)⟩

/-! ### Well-formed tables -/

/-- Every pail holds keys of its own, each once, and not too many. -/
structure PailsOk (size : ℕ) (pails : ℕ → List (K × V)) : Prop where
  routed : ∀ i, ∀ e ∈ pails i, mug e.1 % size = i
  nodup : ∀ i, ((pails i).map Prod.fst).Nodup
  fill : ∀ i, (pails i).length ≤ pailMax

/-- The table is well formed, and can grow. -/
structure Dict.Ok (d : Dict K V) : Prop where
  pos : 0 < d.size
  le : d.prev ≤ d.size
  pails : PailsOk mug d.size d.pails

/-- The key is in the table. -/
def Dict.Has (d : Dict K V) (key : K) : Prop := ∃ i, ∃ e ∈ d.pails i, e.1 = key

/-- No more than ten keys share a mug. -/
def Uncrowded {α : Type} (mug : α → ℕ) (P : α → Prop) : Prop :=
  ∀ ks : List α, ks.Nodup → (∀ k ∈ ks, P k) → (∀ k ∈ ks, ∀ k' ∈ ks, mug k = mug k') →
    ks.length ≤ pailMax

variable {mug}

theorem Uncrowded.mono {α : Type} {mug : α → ℕ} {P Q : α → Prop} (h : Uncrowded mug Q)
    (hpq : ∀ k, P k → Q k) : Uncrowded mug P :=
  fun ks hn hk => h ks hn fun k hm => hpq k (hk k hm)

/-- Ten keys are not crowded. -/
theorem Uncrowded.of_mem {α : Type} {mug : α → ℕ} {P : α → Prop} {l : List α} (hl : l.length ≤ pailMax)
    (h : ∀ k, P k → k ∈ l) : Uncrowded mug P :=
  fun _ hn hk _ => Nat.le_trans (List.Nodup.subperm hn fun k hm => h k (hk k hm)).length_le hl

/-- Names of the keys, each of one key and with its mug, are as crowded as the keys. -/
theorem Uncrowded.of_rel {α β : Type} {mugα : α → ℕ} {mugβ : β → ℕ} {P : α → Prop} {Q : β → Prop}
    (R : α → β → Prop) (h : Uncrowded mugβ Q) (hR : ∀ a, P a → ∃ b, R a b ∧ Q b ∧ mugβ b = mugα a)
    (hinj : ∀ a a' b, R a b → R a' b → a = a') : Uncrowded mugα P := by
  intro ks hn hk hm
  cases ks with
  | nil => exact Nat.zero_le _
  | cons k0 ks =>
    have : Nonempty β := ⟨(hR k0 (hk k0 List.mem_cons_self)).choose⟩
    choose! f hf using hR
    have hlen := h ((k0 :: ks).map f)
      (hn.map_on fun a ha a' ha' he => hinj a a' (f a) (hf a (hk a ha)).1 (by
        rw [he]; exact (hf a' (hk a' ha')).1))
      (fun b hb => by
        obtain ⟨a, ha, rfl⟩ := List.mem_map.mp hb
        exact (hf a (hk a ha)).2.1)
      (fun b hb b' hb' => by
        obtain ⟨a, ha, rfl⟩ := List.mem_map.mp hb
        obtain ⟨a', ha', rfl⟩ := List.mem_map.mp hb'
        rw [(hf a (hk a ha)).2.2, (hf a' (hk a' ha')).2.2]
        exact hm a ha a' ha')
    rwa [List.length_map] at hlen

/-- A table is well formed for all mugs that agree on its keys. -/
theorem Dict.Ok.congr {d : Dict K V} (h : d.Ok mug) {mug' : K → ℕ}
    (hm : ∀ k, d.Has k → mug' k = mug k) : d.Ok mug' := by
  refine ⟨h.pos, h.le, fun i e he => ?_, h.pails.nodup, h.pails.fill⟩
  rw [hm _ ⟨i, e, he, rfl⟩]
  exact h.pails.routed i e he

theorem mem_iff_dictGet [DecidableEq K] {d : Dict K V} (h : d.Ok mug) {key : K} {val : V} :
    dictGet mug d key = some val ↔ ∃ i, (key, val) ∈ d.pails i := by
  rw [dictGet, Option.map_eq_some_iff]
  constructor
  · rintro ⟨e, he, rfl⟩
    have h1 : e.1 = key := by simpa using List.find?_some he
    exact ⟨_, by rw [← h1]; exact List.mem_of_find?_eq_some he⟩
  · rintro ⟨i, hi⟩
    have hr : mug key % d.size = i := h.pails.routed i _ hi
    rw [hr]
    obtain ⟨e, he⟩ : ∃ e, (d.pails i).find? (fun e => e.1 = key) = some e :=
      Option.isSome_iff_exists.mp (List.find?_isSome.mpr ⟨_, hi, by simp⟩)
    have h1 : e.1 = key := by simpa using List.find?_some he
    have h2 := List.inj_on_of_nodup_map (h.pails.nodup i) (List.mem_of_find?_eq_some he) hi h1
    exact ⟨e, he, by rw [h2]⟩

theorem has_iff [DecidableEq K] {d : Dict K V} (h : d.Ok mug) {key : K} :
    d.Has key ↔ ∃ val, dictGet mug d key = some val := by
  constructor
  · rintro ⟨i, e, he, rfl⟩
    exact ⟨e.2, (mem_iff_dictGet h).mpr ⟨i, he⟩⟩
  · rintro ⟨val, hv⟩
    obtain ⟨i, hi⟩ := (mem_iff_dictGet h).mp hv
    exact ⟨i, _, hi, rfl⟩

/-- Tables with the same entries map the keys alike. -/
theorem dictGet_congr [DecidableEq K] {d d' : Dict K V} (h : d.Ok mug) (h' : d'.Ok mug)
    (he : ∀ e, (∃ i, e ∈ d'.pails i) ↔ ∃ i, e ∈ d.pails i) (key : K) :
    dictGet mug d' key = dictGet mug d key := by
  refine Option.ext fun val => ?_
  rw [mem_iff_dictGet h, mem_iff_dictGet h', he]

/-- Keys with one mug share a pail. -/
theorem uncrowded_has {d : Dict K V} (h : d.Ok mug) : Uncrowded mug d.Has := by
  intro ks hn hk hm
  cases ks with
  | nil => exact Nat.zero_le _
  | cons k0 ks =>
    have hsub : (k0 :: ks) ⊆ (d.pails (mug k0 % d.size)).map Prod.fst := by
      intro k hmem
      obtain ⟨j, e, he, rfl⟩ := hk k hmem
      have hj : mug e.1 % d.size = j := h.pails.routed j e he
      rw [hm _ hmem _ List.mem_cons_self] at hj
      exact List.mem_map.mpr ⟨e, by rw [hj]; exact he, rfl⟩
    calc (k0 :: ks).length
      _ ≤ ((d.pails (mug k0 % d.size)).map Prod.fst).length := (List.subperm_of_subset hn hsub).length_le
      _ = (d.pails (mug k0 % d.size)).length := List.length_map _
      _ ≤ pailMax := h.pails.fill _

/-! ### Pails -/

theorem pailsOk_nil (size : ℕ) : PailsOk mug size fun _ => ([] : List (K × V)) :=
  ⟨fun _ _ h => absurd h List.not_mem_nil, fun _ => List.nodup_nil, fun _ => Nat.zero_le _⟩

theorem mem_update {pails : ℕ → List (K × V)} {i : ℕ} {p : List (K × V)} {e : K × V} :
    (∃ j, e ∈ Function.update pails i p j) ↔ e ∈ p ∨ ∃ j, j ≠ i ∧ e ∈ pails j := by
  constructor
  · rintro ⟨j, hj⟩
    by_cases h : j = i
    · subst h; rw [Function.update_self] at hj; exact .inl hj
    · rw [Function.update_of_ne h] at hj; exact .inr ⟨j, h, hj⟩
  · rintro (h | ⟨j, h, hj⟩)
    · exact ⟨i, by rwa [Function.update_self]⟩
    · exact ⟨j, by rwa [Function.update_of_ne h]⟩

/-- A pail that is not full takes a new key. -/
theorem PailsOk.add {size : ℕ} {pails : ℕ → List (K × V)} (h : PailsOk mug size pails) {e : K × V}
    (hfull : (pails (mug e.1 % size)).length ≠ pailMax)
    (hnew : ∀ e' ∈ pails (mug e.1 % size), e'.1 ≠ e.1) :
    PailsOk mug size (Function.update pails (mug e.1 % size) (pails (mug e.1 % size) ++ [e])) ∧
      ∀ e', (∃ i, e' ∈ Function.update pails (mug e.1 % size) (pails (mug e.1 % size) ++ [e]) i) ↔
        e' = e ∨ ∃ i, e' ∈ pails i := by
  set idx := mug e.1 % size with hidx
  refine ⟨⟨fun i e' he => ?_, fun i => ?_, fun i => ?_⟩, fun e' => ?_⟩
  · by_cases hi : i = idx
    · subst hi
      rw [Function.update_self, List.mem_append, List.mem_singleton] at he
      rcases he with he | rfl
      · exact h.routed _ _ he
      · rfl
    · rw [Function.update_of_ne hi] at he
      exact h.routed _ _ he
  · by_cases hi : i = idx
    · subst hi
      rw [Function.update_self, List.map_append, List.nodup_append]
      refine ⟨h.nodup _, List.nodup_singleton _, fun a ha b hb => ?_⟩
      obtain ⟨e', he', rfl⟩ := List.mem_map.mp ha
      rw [List.map_singleton, List.mem_singleton] at hb
      rw [hb]
      exact hnew e' he'
    · rw [Function.update_of_ne hi]
      exact h.nodup i
  · by_cases hi : i = idx
    · have hle := h.fill idx
      rw [hi, Function.update_self, List.length_append, List.length_singleton]
      omega
    · rw [Function.update_of_ne hi]
      exact h.fill i
  · rw [mem_update, List.mem_append, List.mem_singleton]
    constructor
    · rintro ((he | rfl) | ⟨j, -, hj⟩)
      · exact .inr ⟨_, he⟩
      · exact .inl rfl
      · exact .inr ⟨j, hj⟩
    · rintro (rfl | ⟨j, hj⟩)
      · exact .inl (.inr rfl)
      · by_cases hji : j = idx
        · subst hji; exact .inl (.inl hj)
        · exact .inr ⟨j, hji, hj⟩

/-- A pail is full of keys that share a mug when the table is larger than all mugs. -/
theorem PailsOk.not_full {size : ℕ} {pails : ℕ → List (K × V)} (h : PailsOk mug size pails)
    (hmug : ∀ k, mug k < 2 ^ 31) (hsize : 2 ^ 31 ≤ size) {key : K}
    (hnew : ∀ e ∈ pails (mug key % size), e.1 ≠ key)
    (hu : Uncrowded mug fun k => k = key ∨ ∃ i, ∃ e ∈ pails i, e.1 = k) :
    (pails (mug key % size)).length ≠ pailMax := by
  have hmod : ∀ k, mug k % size = mug k := fun k => Nat.mod_eq_of_lt (Nat.lt_of_lt_of_le (hmug k) hsize)
  have hsame : ∀ k ∈ key :: (pails (mug key % size)).map Prod.fst, mug k = mug key := by
    intro k hk
    rcases List.mem_cons.mp hk with rfl | hk
    · rfl
    · obtain ⟨e, he, rfl⟩ := List.mem_map.mp hk
      have hr := h.routed _ e he
      rwa [hmod, hmod] at hr
  have hlen := hu (key :: (pails (mug key % size)).map Prod.fst)
    (List.nodup_cons.mpr ⟨fun hm => by
      obtain ⟨e, he, hke⟩ := List.mem_map.mp hm
      exact hnew e he hke, h.nodup _⟩)
    (fun k hk => by
      rcases List.mem_cons.mp hk with rfl | hk
      · exact .inl rfl
      · obtain ⟨e, he, rfl⟩ := List.mem_map.mp hk
        exact .inr ⟨_, e, he, rfl⟩)
    (fun k hk k' hk' => (hsame k hk).trans (hsame k' hk').symm)
  rw [List.length_cons, List.length_map] at hlen
  omega

/-! ### Growth -/

theorem rehash_spec {next : ℕ} : ∀ {es : List (K × V)} {pails pails' : ℕ → List (K × V)},
    PailsOk mug next pails → (es.map Prod.fst).Nodup →
    (∀ e ∈ es, ∀ i, ∀ e' ∈ pails i, e'.1 ≠ e.1) → rehash mug next es pails = some pails' →
      PailsOk mug next pails' ∧ ∀ e, (∃ i, e ∈ pails' i) ↔ e ∈ es ∨ ∃ i, e ∈ pails i
  | [], pails, pails', h, _, _, hs => by
    cases hs
    exact ⟨h, fun e => by simp⟩
  | e :: es, pails, pails', h, hn, hd, hs => by
    rw [List.map_cons, List.nodup_cons] at hn
    simp only [rehash] at hs
    split at hs
    · cases hs
    · rename_i hfull
      obtain ⟨h1, h2⟩ := h.add hfull fun e' he' => hd e List.mem_cons_self _ e' he'
      obtain ⟨h3, h4⟩ := rehash_spec h1 hn.2 (fun a ha i b hb => by
        rcases (h2 b).mp ⟨i, hb⟩ with rfl | ⟨j, hj⟩
        · exact fun heq => hn.1 (List.mem_map.mpr ⟨a, ha, heq.symm⟩)
        · exact hd a (List.mem_cons_of_mem _ ha) j b hj) hs
      refine ⟨h3, fun a => ?_⟩
      rw [h4, h2, List.mem_cons]
      tauto

theorem rehash_isSome {next : ℕ} (hmug : ∀ k, mug k < 2 ^ 31) (hnext : 2 ^ 31 ≤ next) :
    ∀ {es : List (K × V)} {pails : ℕ → List (K × V)},
    PailsOk mug next pails → (es.map Prod.fst).Nodup →
    (∀ e ∈ es, ∀ i, ∀ e' ∈ pails i, e'.1 ≠ e.1) →
    (Uncrowded mug fun k => (∃ e ∈ es, e.1 = k) ∨ ∃ i, ∃ e ∈ pails i, e.1 = k) →
      (rehash mug next es pails).isSome
  | [], _, _, _, _, _ => rfl
  | e :: es, pails, h, hn, hd, hu => by
    rw [List.map_cons, List.nodup_cons] at hn
    have hnew := hd e List.mem_cons_self (mug e.1 % next)
    have hfull := h.not_full hmug hnext hnew (hu.mono fun k hk => by
      rcases hk with rfl | hk
      · exact .inl ⟨e, List.mem_cons_self, rfl⟩
      · exact .inr hk)
    obtain ⟨h1, h2⟩ := h.add hfull hnew
    simp only [rehash]
    rw [if_neg hfull]
    refine rehash_isSome hmug hnext h1 hn.2 (fun a ha i b hb => ?_) (hu.mono fun k hk => ?_)
    · rcases (h2 b).mp ⟨i, hb⟩ with rfl | ⟨j, hj⟩
      · exact fun heq => hn.1 (List.mem_map.mpr ⟨a, ha, heq.symm⟩)
      · exact hd a (List.mem_cons_of_mem _ ha) j b hj
    · rcases hk with ⟨a, ha, rfl⟩ | ⟨i, a, ha, rfl⟩
      · exact .inl ⟨a, List.mem_cons_of_mem _ ha, rfl⟩
      · rcases (h2 a).mp ⟨i, ha⟩ with rfl | ⟨j, hj⟩
        · exact .inl ⟨a, List.mem_cons_self, rfl⟩
        · exact .inr ⟨j, a, hj, rfl⟩

theorem mem_entries {d : Dict K V} (h : d.Ok mug) {e : K × V} :
    e ∈ d.entries ↔ ∃ i, e ∈ d.pails i := by
  rw [Dict.entries, List.mem_flatMap]
  constructor
  · rintro ⟨i, -, he⟩
    exact ⟨i, he⟩
  · rintro ⟨i, he⟩
    refine ⟨i, List.mem_range.mpr ?_, he⟩
    rw [← h.pails.routed i e he]
    exact Nat.mod_lt _ h.pos

theorem nodup_entries {d : Dict K V} (h : d.Ok mug) : (d.entries.map Prod.fst).Nodup := by
  rw [Dict.entries, List.map_flatMap, List.nodup_flatMap]
  refine ⟨fun i _ => h.pails.nodup i, ?_⟩
  refine (List.nodup_range (n := d.size)).pairwise_of_forall_ne fun i _ j _ hij => ?_
  intro k hi hj
  obtain ⟨e, he, rfl⟩ := List.mem_map.mp hi
  obtain ⟨e', he', hk⟩ := List.mem_map.mp hj
  refine hij ?_
  rw [← h.pails.routed i e he, ← h.pails.routed j e' he', hk]

theorem has_of_mem {d d' : Dict K V} (h : ∀ e, (∃ i, e ∈ d'.pails i) ↔ ∃ i, e ∈ d.pails i) (k : K) :
    d'.Has k ↔ d.Has k := by
  constructor
  · rintro ⟨i, e, he, rfl⟩
    obtain ⟨j, hj⟩ := (h e).mp ⟨i, he⟩
    exact ⟨j, e, hj, rfl⟩
  · rintro ⟨i, e, he, rfl⟩
    obtain ⟨j, hj⟩ := (h e).mpr ⟨i, he⟩
    exact ⟨j, e, hj, rfl⟩

/-- A table that has grown has the same entries, and is larger. -/
structure Grown (d d' : Dict K V) : Prop where
  mem : ∀ e, (∃ i, e ∈ d'.pails i) ↔ ∃ i, e ∈ d.pails i
  prev : d.size ≤ d'.prev
  size : d.prev + d.size ≤ d'.size

theorem dictGrow_spec {d d' : Dict K V} (h : d.Ok mug) : ∀ {room prev size : ℕ},
    d.size ≤ size → d.prev ≤ prev → prev ≤ size → dictGrow mug d room prev size = some d' →
      d'.Ok mug ∧ Grown d d'
  | 0, _, _, _, _, _, hs => by cases hs
  | room + 1, prev, size, h1, h2, h3, hs => by
    have hpos := h.pos
    simp only [dictGrow] at hs
    split at hs
    · rename_i pails hr
      cases hs
      obtain ⟨h4, h5⟩ := rehash_spec (pailsOk_nil _) (nodup_entries h)
        (fun _ _ _ _ he => absurd he List.not_mem_nil) hr
      refine ⟨⟨by show 0 < prev + size; omega, by show size ≤ prev + size; omega, h4⟩, fun e => ?_,
        h1, by show _ ≤ prev + size; omega⟩
      rw [h5, mem_entries h]
      simp
    · exact dictGrow_spec h (by omega) (by omega) (by omega) hs

/-- The size of a table after some steps of growth. -/
def steps : ℕ → ℕ → ℕ → ℕ
  | 0, _, size => size
  | n + 1, prev, size => steps n size (prev + size)

theorem steps_mono : ∀ (n : ℕ) {p p' s s' : ℕ}, p ≤ p' → s ≤ s' → steps n p s ≤ steps n p' s'
  | 0, _, _, _, _, _, h => h
  | n + 1, _, _, _, _, h, h' => steps_mono n h' (Nat.add_le_add h h')

/-- Two steps of growth double a table. -/
theorem steps_double : ∀ (n : ℕ) {p s : ℕ}, 2 ^ n * s ≤ steps (2 * n) p s
  | 0, _, _ => by rw [Nat.pow_zero, Nat.one_mul]; exact Nat.le_refl _
  | n + 1, p, s => by
    calc 2 ^ (n + 1) * s
      _ = 2 ^ n * (2 * s) := by rw [Nat.pow_succ, Nat.mul_assoc]
      _ ≤ 2 ^ n * (s + (p + s)) := Nat.mul_le_mul_left _ (by omega)
      _ ≤ steps (2 * n) (p + s) (s + (p + s)) := steps_double n
      _ = steps (2 * (n + 1)) p s := rfl

/-- In a table larger than all mugs the entries have room. -/
theorem rehash_entries_isSome {d : Dict K V} (h : d.Ok mug) (hmug : ∀ k, mug k < 2 ^ 31) (hu : Uncrowded mug d.Has)
    {next : ℕ} (hnext : 2 ^ 31 ≤ next) : (rehash mug next d.entries fun _ => []).isSome := by
  have hnil : PailsOk mug next fun _ => ([] : List (K × V)) := pailsOk_nil _
  refine rehash_isSome hmug hnext hnil (nodup_entries h) (fun _ _ _ _ he => absurd he List.not_mem_nil)
    (hu.mono fun k hk => ?_)
  rcases hk with ⟨e, he, rfl⟩ | ⟨_, _, he, _⟩
  · obtain ⟨i, hi⟩ := (mem_entries h).mp he
    exact ⟨i, e, hi, rfl⟩
  · exact absurd he List.not_mem_nil

theorem dictGrow_isSome {d : Dict K V} (h : d.Ok mug) (hmug : ∀ k, mug k < 2 ^ 31)
    (hu : Uncrowded mug d.Has) : ∀ {room prev size : ℕ}, prev ≤ size → size < 2 ^ 31 →
      2 ^ 31 ≤ steps room prev size → (dictGrow mug d room prev size).isSome
  | 0, _, _, _, h1, h2 => absurd h2 (Nat.not_le.mpr h1)
  | room + 1, prev, size, hle, h1, h2 => by
    simp only [dictGrow]
    split
    · rfl
    · rename_i hr
      rcases Nat.lt_or_ge (prev + size) (2 ^ 31) with h3 | h3
      · exact dictGrow_isSome h hmug hu (by omega) h3 h2
      · have hs := rehash_entries_isSome h hmug hu h3
        rw [hr] at hs
        cases hs

theorem Grown.steps_le {d d' : Dict K V} (h : Grown d d') (hle : d.prev ≤ d.size) (n : ℕ) :
    steps n d.prev d.size ≤ steps n d'.prev d'.size := by
  have h1 := h.prev
  have h2 := h.size
  exact steps_mono n (by omega) (by omega)

theorem grow_spec {d d' : Dict K V} (h : d.Ok mug) {room : ℕ}
    (hs : dictGrow mug d room d.prev d.size = some d') : d'.Ok mug ∧ Grown d d' :=
  dictGrow_spec h (Nat.le_refl _) (Nat.le_refl _) h.le hs

/-! ### Putting -/

theorem pailSet_none [DecidableEq K] {key : K} {val : V} :
    ∀ {p : List (K × V)}, pailSet key val p = none ↔ ∀ e ∈ p, e.1 ≠ key
  | [] => by simp [pailSet]
  | e :: es => by
    rw [pailSet]
    split
    · rename_i he
      simp [he]
    · rename_i he
      rw [Option.map_eq_none_iff, pailSet_none]
      simp [he]

theorem pailSet_some [DecidableEq K] {key : K} {val : V} : ∀ {p p' : List (K × V)},
    (p.map Prod.fst).Nodup → pailSet key val p = some p' →
      p'.map Prod.fst = p.map Prod.fst ∧ key ∈ p.map Prod.fst ∧
        ∀ e, e ∈ p' ↔ e = (key, val) ∨ e ∈ p ∧ e.1 ≠ key
  | [], _, _, h => by cases h
  | a :: as, p', hn, h => by
    rw [List.map_cons, List.nodup_cons] at hn
    rw [pailSet] at h
    split at h
    · rename_i ha
      cases h
      refine ⟨by rw [List.map_cons, List.map_cons, ha], by rw [List.map_cons, ha]; exact List.mem_cons_self,
        fun e => ?_⟩
      have hne : ∀ e ∈ as, e.1 ≠ key := fun e he hk => hn.1 (by
        rw [ha, ← hk]; exact List.mem_map_of_mem he)
      rw [List.mem_cons, List.mem_cons]
      constructor
      · rintro (he | he)
        · exact .inl he
        · exact .inr ⟨.inr he, hne e he⟩
      · rintro (he | ⟨rfl | he, hk⟩)
        · exact .inl he
        · exact absurd ha hk
        · exact .inr he
    · rename_i ha
      obtain ⟨as', has, rfl⟩ := Option.map_eq_some_iff.mp h
      obtain ⟨h1, h2, h3⟩ := pailSet_some hn.2 has
      refine ⟨by rw [List.map_cons, List.map_cons, h1], List.mem_cons_of_mem _ h2, fun e => ?_⟩
      rw [List.mem_cons, List.mem_cons, h3]
      constructor
      · rintro (rfl | he | ⟨he, hk⟩)
        · exact .inr ⟨.inl rfl, ha⟩
        · exact .inl he
        · exact .inr ⟨.inr he, hk⟩
      · rintro (he | ⟨rfl | he, hk⟩)
        · exact .inr (.inl he)
        · exact .inl rfl
        · exact .inr (.inr ⟨he, hk⟩)

/-- A pail takes a new value for a key that it has. -/
theorem PailsOk.replace [DecidableEq K] {size : ℕ} {pails : ℕ → List (K × V)}
    (h : PailsOk mug size pails) {key : K} {val : V} {pail : List (K × V)}
    (hp : pailSet key val (pails (mug key % size)) = some pail) :
    PailsOk mug size (Function.update pails (mug key % size) pail) ∧
      ∀ e, (∃ i, e ∈ Function.update pails (mug key % size) pail i) ↔
        e = (key, val) ∨ (∃ i, e ∈ pails i) ∧ e.1 ≠ key := by
  obtain ⟨h1, -, h3⟩ := pailSet_some (h.nodup _) hp
  refine ⟨⟨fun i e he => ?_, fun i => ?_, fun i => ?_⟩, fun e => ?_⟩
  · by_cases hi : i = mug key % size
    · rw [hi, Function.update_self, h3] at he
      rcases he with rfl | ⟨he, -⟩
      · exact hi.symm
      · rw [hi]; exact h.routed _ _ he
    · rw [Function.update_of_ne hi] at he
      exact h.routed _ _ he
  · by_cases hi : i = mug key % size
    · rw [hi, Function.update_self, h1]
      exact h.nodup _
    · rw [Function.update_of_ne hi]
      exact h.nodup _
  · by_cases hi : i = mug key % size
    · have hlen := congrArg List.length h1
      rw [List.length_map, List.length_map] at hlen
      rw [hi, Function.update_self, hlen]
      exact h.fill _
    · rw [Function.update_of_ne hi]
      exact h.fill _
  · rw [mem_update, h3]
    constructor
    · rintro ((he | ⟨he, hk⟩) | ⟨j, hj, he⟩)
      · exact .inl he
      · exact .inr ⟨⟨_, he⟩, hk⟩
      · refine .inr ⟨⟨j, he⟩, fun hk => hj ?_⟩
        rw [← h.routed j e he, hk]
    · rintro (he | ⟨⟨j, he⟩, hk⟩)
      · exact .inl (.inl he)
      · by_cases hj : j = mug key % size
        · rw [hj] at he; exact .inl (.inr ⟨he, hk⟩)
        · exact .inr ⟨j, hj, he⟩

/-- A table whose entries are those of another but for one key maps this key anew. -/
theorem dictGet_of_mem [DecidableEq K] {d d' : Dict K V} (h : d.Ok mug) (h' : d'.Ok mug) {key : K}
    {val : V} (he : ∀ e, (∃ i, e ∈ d'.pails i) ↔ e = (key, val) ∨ (∃ i, e ∈ d.pails i) ∧ e.1 ≠ key)
    (k : K) : dictGet mug d' k = if k = key then some val else dictGet mug d k := by
  refine Option.ext fun v => ?_
  rw [mem_iff_dictGet h', he, Prod.mk.injEq]
  split
  · rename_i hk
    rw [Option.some_inj, eq_comm (a := val)]
    simp [hk]
  · rename_i hk
    rw [mem_iff_dictGet h]
    simp [hk]

/-- **A put that returns maps its key to its value and changes nothing else.** -/
theorem dictPut_spec [DecidableEq K] {room : ℕ} {key : K} {val : V} : ∀ {n : ℕ} {d d' : Dict K V},
    d.Ok mug → dictPut mug room key val n d = some d' →
      d'.Ok mug ∧ ∀ k, dictGet mug d' k = if k = key then some val else dictGet mug d k
  | 0, _, _, _, hs => by cases hs
  | n + 1, d, d', h, hs => by
    simp only [dictPut] at hs
    split at hs
    · rename_i pail hp
      cases hs
      obtain ⟨h1, h2⟩ := h.pails.replace hp
      have hok : Dict.Ok mug ⟨d.prev, d.size, Function.update d.pails (mug key % d.size) pail⟩ :=
        ⟨h.pos, h.le, h1⟩
      exact ⟨hok, dictGet_of_mem h hok h2⟩
    · rename_i hp
      have hnew := pailSet_none.mp hp
      split at hs
      · obtain ⟨d1, hg, hs⟩ := Option.bind_eq_some_iff.mp hs
        obtain ⟨h1, hgr⟩ := grow_spec h hg
        obtain ⟨h2, h3⟩ := dictPut_spec h1 hs
        refine ⟨h2, fun k => ?_⟩
        rw [h3, dictGet_congr h h1 hgr.mem]
      · rename_i hfull
        cases hs
        obtain ⟨h1, h2⟩ := h.pails.add (e := (key, val)) hfull hnew
        have hok : Dict.Ok mug ⟨d.prev, d.size, Function.update d.pails (mug key % d.size)
            (d.pails (mug key % d.size) ++ [(key, val)])⟩ := ⟨h.pos, h.le, h1⟩
        refine ⟨hok, dictGet_of_mem h hok fun e => ?_⟩
        refine (h2 e).trans (or_congr .rfl ⟨fun ⟨j, he⟩ => ⟨⟨j, he⟩, fun hk => ?_⟩, And.left⟩)
        have hr : mug key % d.size = j := by rw [← h.pails.routed j e he, hk]
        exact hnew e (by rwa [hr]) hk

/-- **A put returns if no more than ten keys share a mug.** -/
theorem dictPut_isSome [DecidableEq K] {room : ℕ} {key : K} {val : V} (hmug : ∀ k, mug k < 2 ^ 31) :
    ∀ {n : ℕ} {d : Dict K V}, d.Ok mug → (Uncrowded mug fun k => k = key ∨ d.Has k) →
      2 ^ 31 ≤ steps room d.prev d.size → 2 ^ 31 ≤ steps n d.prev d.size →
        (dictPut mug room key val (n + 1) d).isSome
  | n, d, h, hu, hroom, hn => by
    simp only [dictPut]
    split
    · rfl
    · rename_i hp
      split
      · rename_i hfull
        have hlt : d.size < 2 ^ 31 := by
          by_contra hge
          exact h.pails.not_full hmug (Nat.le_of_not_lt hge) (pailSet_none.mp hp) hu hfull
        obtain ⟨d1, hg⟩ := Option.isSome_iff_exists.mp
          (dictGrow_isSome h hmug (hu.mono fun _ => .inr) h.le hlt hroom)
        obtain ⟨h1, hgr⟩ := grow_spec h hg
        have hle := h.le
        rw [hg, Option.bind_some]
        cases n with
        | zero => exact absurd hn (Nat.not_le.mpr hlt)
        | succ n =>
          refine dictPut_isSome hmug h1 (hu.mono fun k => ?_)
            (Nat.le_trans hroom (hgr.steps_le hle room)) (Nat.le_trans hn (steps_mono n hgr.prev hgr.size))
          rw [has_of_mem hgr.mem]
          exact id
      · rfl

/-! ### Interning -/

/-- **What interning finds or adds**: a key of the pail that is the same, or the
fresh key in a pail that has no such key. The table may have grown first. -/
theorem dictIntern_spec {room m : ℕ} {same : K → Bool} {fresh : K} {val : V} :
    ∀ {n : ℕ} {d d' : Dict K V} {res : Option K}, d.Ok mug →
      dictIntern mug room m same fresh val n d = some (d', res) →
        ∃ d1 : Dict K V, d1.Ok mug ∧ (∀ e, (∃ i, e ∈ d1.pails i) ↔ ∃ i, e ∈ d.pails i) ∧
          ((∃ e ∈ d1.pails (m % d1.size), same e.1 ∧ d' = d1 ∧ res = some e.1) ∨
            (∀ e ∈ d1.pails (m % d1.size), ¬ same e.1) ∧ res = none ∧
              (d1.pails (m % d1.size)).length ≠ pailMax ∧
              d' = ⟨d1.prev, d1.size, Function.update d1.pails (m % d1.size)
                (d1.pails (m % d1.size) ++ [(fresh, val)])⟩)
  | 0, _, _, _, _, hs => by cases hs
  | n + 1, d, d', res, h, hs => by
    simp only [dictIntern] at hs
    split at hs
    · rename_i e he
      cases hs
      have hsame : same e.1 = true := by simpa using List.find?_some he
      exact ⟨d, h, fun _ => .rfl, .inl ⟨e, List.mem_of_find?_eq_some he, hsame, rfl, rfl⟩⟩
    · rename_i he
      split at hs
      · obtain ⟨d1, hg, hs⟩ := Option.bind_eq_some_iff.mp hs
        obtain ⟨h1, hgr⟩ := grow_spec h hg
        obtain ⟨d2, h2, h3, h4⟩ := dictIntern_spec h1 hs
        exact ⟨d2, h2, fun e => (h3 e).trans (hgr.mem e), h4⟩
      · rename_i hfull
        cases hs
        refine ⟨d, h, fun _ => .rfl, .inr ⟨fun e hm => ?_, rfl, hfull, rfl⟩⟩
        simpa using List.find?_eq_none.mp he e hm

/-- **Interning returns if no more than ten keys share a mug**, those of the
table and one more of mug `m` if none is the same. -/
theorem dictIntern_isSome {room m : ℕ} (same : K → Bool) {fresh : K} (val : V)
    {mug' : K → ℕ} (hmug : ∀ k, mug k < 2 ^ 31) (hmug' : ∀ k, mug' k < 2 ^ 31) (hm : mug' fresh = m) :
    ∀ {n : ℕ} {d : Dict K V}, d.Ok mug → (∀ k, d.Has k → mug' k = mug k) → ¬ d.Has fresh →
      (Uncrowded mug' fun k => d.Has k ∨ k = fresh ∧ ∀ k', d.Has k' → mug k' = m → ¬ same k') →
      2 ^ 31 ≤ steps room d.prev d.size → 2 ^ 31 ≤ steps n d.prev d.size →
        (dictIntern mug room m same fresh val (n + 1) d).isSome
  | n, d, h, hag, hf, hu, hroom, hn => by
    have hhas : Uncrowded mug d.Has := uncrowded_has h
    simp only [dictIntern]
    split
    · rfl
    · rename_i hnone
      split
      · rename_i hfull
        have hlt : d.size < 2 ^ 31 := by
          by_contra hge
          have hge := Nat.le_of_not_lt hge
          subst hm
          refine (h.congr hag).pails.not_full hmug' hge (fun e he hk => hf ⟨_, e, he, hk⟩)
            (hu.mono fun k hk => ?_) hfull
          rcases hk with rfl | hk
          · refine .inr ⟨rfl, fun k' hk' hm' hsame => ?_⟩
            obtain ⟨i, e, he, rfl⟩ := hk'
            have hr := h.pails.routed i e he
            rw [hm'] at hr
            rw [← hr] at he
            exact List.find?_eq_none.mp hnone e he hsame
          · exact .inl hk
        obtain ⟨d1, hg⟩ := Option.isSome_iff_exists.mp
          (dictGrow_isSome h hmug hhas h.le hlt hroom)
        obtain ⟨h1, hgr⟩ := grow_spec h hg
        rw [hg, Option.bind_some]
        cases n with
        | zero => exact absurd hn (Nat.not_le.mpr hlt)
        | succ n =>
          refine dictIntern_isSome same val hmug hmug' hm h1 (fun k hk => hag k ((has_of_mem hgr.mem k).mp hk))
            (fun hk => hf ((has_of_mem hgr.mem _).mp hk)) (hu.mono fun k hk => ?_)
            (Nat.le_trans hroom (hgr.steps_le h.le room)) (Nat.le_trans hn (steps_mono n hgr.prev hgr.size))
          rcases hk with hk | ⟨hk, hno⟩
          · exact .inl ((has_of_mem hgr.mem k).mp hk)
          · exact .inr ⟨hk, fun k' hk' => hno k' ((has_of_mem hgr.mem k').mpr hk')⟩
      · rfl

/-- The table with the fresh key added. -/
theorem intern_fresh {d : Dict K V} (h : d.Ok mug) (mug' : K → ℕ) {fresh : K} (val : V) {m : ℕ}
    (hag : ∀ k, d.Has k → mug' k = mug k) (hm : mug' fresh = m) (hf : ¬ d.Has fresh)
    (hfull : (d.pails (m % d.size)).length ≠ pailMax) :
    Dict.Ok mug' ⟨d.prev, d.size, Function.update d.pails (m % d.size)
        (d.pails (m % d.size) ++ [(fresh, val)])⟩ ∧
      ∀ k, Dict.Has ⟨d.prev, d.size, Function.update d.pails (m % d.size)
        (d.pails (m % d.size) ++ [(fresh, val)])⟩ k ↔ d.Has k ∨ k = fresh := by
  subst hm
  obtain ⟨h1, h2⟩ := (h.congr hag).pails.add (e := (fresh, val)) hfull
    fun e he hk => hf ⟨_, e, he, hk⟩
  refine ⟨⟨h.pos, h.le, h1⟩, fun k => ⟨?_, ?_⟩⟩
  · rintro ⟨i, e, he, rfl⟩
    rcases (h2 e).mp ⟨i, he⟩ with rfl | ⟨j, hj⟩
    · exact .inr rfl
    · exact .inl ⟨j, e, hj, rfl⟩
  · rintro (⟨j, e, hj, rfl⟩ | rfl)
    · obtain ⟨i, hi⟩ := (h2 e).mpr (.inr ⟨j, hj⟩)
      exact ⟨i, e, hi, rfl⟩
    · obtain ⟨i, hi⟩ := (h2 (k, val)).mpr (.inl rfl)
      exact ⟨i, _, hi, rfl⟩

/-- Sixty-two steps of growth make a table larger than all mugs. -/
theorem Dict.Ok.enough {d : Dict K V} (h : d.Ok mug) : ∀ {n : ℕ}, 62 ≤ n →
    2 ^ 31 ≤ steps n d.prev d.size := by
  have hstep : ∀ (n : ℕ) {p s : ℕ}, p ≤ s → steps n p s ≤ steps (n + 1) p s :=
    fun n _ _ hle => steps_mono n hle (Nat.le_add_left _ _)
  intro n hn
  induction n, hn using Nat.le_induction with
  | base =>
    calc 2 ^ 31
      _ = 2 ^ 31 * 1 := rfl
      _ ≤ 2 ^ 31 * d.size := Nat.mul_le_mul_left _ h.pos
      _ ≤ steps (2 * 31) d.prev d.size := steps_double 31
  | succ n _ ih => exact Nat.le_trans ih (hstep n h.le)

/-! ### Tables with other values -/

section Map

variable {W : Type} (f : V → W)

end Map

end UrDict
end Ursockets
