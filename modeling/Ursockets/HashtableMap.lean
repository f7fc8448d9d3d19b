/-
# Hashtables as maps

What a table maps a key to (`lookup`) is what `u3h_git` and `u3h_get` return.
A put changes it at its key only. So does a deletion, unless the mug of the
key leads to a single pair of another key (`Clash`): `_ch_slot_del` deletes
that pair without looking at its key. A run of operations agrees with the maps
it should be in every state if and only if no deletion in it clashes.

Key definitions: `Ok`, `lookup`, `Clash`, `Agrees`.
Key theorems: `lookup_put`, `lookup_del`, `lookup_uni`, `run_agrees_iff`.
-/
import Ursockets.Hashtable

namespace Ursockets
namespace HashtableMap

open Sparse Hashtable

/-! ### Slices of mugs -/

/-- The branch of a key below level `n + 1`. -/
def bitOf (n : ℕ) (key : Noun) : ℕ := (keyMug key >>> (5 * n)) % 32

/-- What is left of the mug of a key at level `n`. -/
def remOf (n : ℕ) (key : Noun) : ℕ := cutEnd (keyMug key) (5 * n)

theorem bitOf_lt (n : ℕ) (key : Noun) : bitOf n key < 32 := Nat.mod_lt _ (by omega)

theorem remOf_shift (n : ℕ) (key : Noun) : remOf (n + 1) key >>> (5 * n) = bitOf n key := by
  have h : 2 ^ (5 * (n + 1)) = 2 ^ (5 * n) * 32 := by rw [Nat.mul_add, Nat.pow_add]
  rw [remOf, bitOf, cutEnd_eq, Nat.shiftRight_eq_div_pow, Nat.shiftRight_eq_div_pow, h,
    Nat.mod_mul_right_div_self]

theorem cutEnd_remOf (n : ℕ) (key : Noun) : cutEnd (remOf (n + 1) key) (5 * n) = remOf n key := by
  have h : 2 ^ (5 * (n + 1)) = 2 ^ (5 * n) * 32 := by rw [Nat.mul_add, Nat.pow_add]
  rw [remOf, remOf, cutEnd_eq, cutEnd_eq, cutEnd_eq, h, Nat.mod_mul_right_mod]

/-- A branch extends the prefix of the mug. -/
theorem shift_eq (n : ℕ) (key : Noun) :
    keyMug key >>> (5 * n) = keyMug key >>> (5 * (n + 1)) * 32 + bitOf n key := by
  have h : keyMug key >>> (5 * (n + 1)) = (keyMug key >>> (5 * n)) / 32 := by
    rw [Nat.mul_add, Nat.shiftRight_add, Nat.shiftRight_eq_div_pow _ (5 * 1)]
  rw [h, bitOf]
  omega

theorem bitOf_eq {n q b : ℕ} {key : Noun} (hb : b < 32) (h : keyMug key >>> (5 * n) = q * 32 + b) :
    bitOf n key = b ∧ keyMug key >>> (5 * (n + 1)) = q := by
  have h1 := shift_eq n key
  have h2 := bitOf_lt n key
  omega

theorem keyMug_root (key : Noun) : keyMug key >>> 25 < 64 := by
  have h : keyMug key < 2 ^ 31 := Noun.mug_lt key
  rw [Nat.shiftRight_eq_div_pow]
  omega

/-! ### Well-formed slots -/

/-- A well-formed slot of level `n`, all of whose keys have mugs of prefix `q`. -/
def Ok : ℕ → ℕ → Slot → Prop
  | n, q, .noun kev => keyMug kev.key >>> (5 * n) = q
  | 0, q, .buck es => (∀ e ∈ es, keyMug e.key = q) ∧ (es.map Ent.key).Nodup
  | n + 1, q, .node map sot =>
    map < 2 ^ 32 ∧ sot.length = popcount map ∧ ∀ b s, sget map sot b = some s → Ok n (q * 32 + b) s
  | _, _, _ => False

/-- What a slot maps a key to. -/
def sgit (n : ℕ) (key : Noun) (s : Slot) : Option Noun := chSlotGit n key (remOf n key) s

theorem ok_noun {n q : ℕ} {kev : Ent} : Ok n q (.noun kev) ↔ keyMug kev.key >>> (5 * n) = q := by
  cases n <;> rfl

theorem ok_null {n q : ℕ} : ¬ Ok n q .null := by
  cases n <;> exact id

@[simp] theorem sgit_null (n : ℕ) (key : Noun) : sgit n key .null = none := by
  cases n <;> rfl

@[simp] theorem sgit_noun (n : ℕ) (key : Noun) (kev : Ent) :
    sgit n key (.noun kev) = if key = kev.key then some kev.val else none := by
  cases n <;> rfl

@[simp] theorem sgit_buck (key : Noun) (es : List Ent) : sgit 0 key (.buck es) = chBuckGit key es := rfl

theorem testBit_of_sget {m b : ℕ} {xs : List Slot} {s : Slot} (h : sget m xs b = some s) :
    m.testBit b := by
  rw [sget] at h
  split at h
  · assumption
  · cases h

theorem lt_of_sget {m b : ℕ} {xs : List Slot} {s : Slot} (hm : m < 2 ^ 32)
    (h : sget m xs b = some s) : b < 32 := by
  by_contra hb
  have h1 := testBit_of_sget h
  rw [Nat.testBit_lt_two_pow (Nat.lt_of_lt_of_le hm (Nat.pow_le_pow_right (by omega) (by omega)))] at h1
  cases h1

/-- The slot of a node that a key leads to, as the source finds it. -/
theorem getD_of_sget {m b : ℕ} {xs : List Slot} (hx : xs.length = popcount m) (hb : b < 32) :
    (if ¬ bitSet m b then none else some (xs.getD (popcount (cutEnd m b)) .null)) = sget m xs b := by
  rw [bitSet_eq, popcount_cutEnd m hb.le]
  by_cases h : m.testBit b
  · obtain ⟨x, h1, h2⟩ := sget_some hx hb h
    rw [h1, List.getD_eq_getElem?_getD, h2]
    simp [h]
  · rw [sget, if_neg h, if_pos h]

theorem sgit_node {n m : ℕ} {xs : List Slot} (hx : xs.length = popcount m) (key : Noun) :
    sgit (n + 1) key (.node m xs) = (sget m xs (bitOf n key)).bind (sgit n key) := by
  rw [← getD_of_sget hx (bitOf_lt n key), sgit, chSlotGit, remOf_shift, cutEnd_remOf]
  split <;> rfl

/-- Every key a slot maps has the slot's prefix. -/
theorem prefix_of_sgit : ∀ {n q : ℕ} {s : Slot} {key v : Noun}, Ok n q s → sgit n key s = some v →
    keyMug key >>> (5 * n) = q
  | n, q, .noun kev, key, v, h, hg => by
    rw [sgit_noun] at hg
    split at hg
    · rename_i hk; rw [hk]; exact ok_noun.mp h
    · cases hg
  | 0, q, .buck es, key, v, h, hg => by
    have hm : ∀ es : List Ent, chBuckGit key es = some v → ∃ e ∈ es, e.key = key := by
      intro es
      induction es with
      | nil => intro h; cases h
      | cons e es ih =>
        intro h
        rw [chBuckGit] at h
        split at h
        · rename_i hk; exact ⟨e, List.mem_cons_self, hk.symm⟩
        · obtain ⟨e', he, hk⟩ := ih h
          exact ⟨e', List.mem_cons_of_mem _ he, hk⟩
    obtain ⟨e, he, rfl⟩ := hm es hg
    exact h.1 e he
  | n + 1, q, .node m xs, key, v, ⟨hm, hx, hs⟩, hg => by
    rw [sgit_node hx] at hg
    obtain ⟨s, h1, h2⟩ := Option.bind_eq_some_iff.mp hg
    exact (bitOf_eq (bitOf_lt n key) (prefix_of_sgit (hs _ s h1) h2)).2
  | n, _, .null, _, _, h, _ => absurd h ok_null

/-! ### Putting -/

theorem chBuckGit_of_not_mem {key : Noun} : ∀ {es : List Ent}, (∀ e ∈ es, e.key ≠ key) →
    chBuckGit key es = none
  | [], _ => rfl
  | e :: es, h => by
    rw [chBuckGit, if_neg fun he => h e List.mem_cons_self he.symm,
      chBuckGit_of_not_mem fun e' he' => h e' (List.mem_cons_of_mem _ he')]

/-- Replacing the pair of a key keeps the keys of the bucket. -/
theorem buckReplace_some {kev : Ent} : ∀ {es es' : List Ent}, buckReplace kev es = some es' →
    es'.map Ent.key = es.map Ent.key ∧
      ∀ k, chBuckGit k es' = if k = kev.key then some kev.val else chBuckGit k es
  | e :: es, es', h => by
    rw [buckReplace] at h
    split at h
    · rename_i hk
      cases h
      refine ⟨by simp [hk], fun k => ?_⟩
      rw [chBuckGit, chBuckGit, ← hk]
      split <;> rfl
    · rename_i hk
      obtain ⟨es1, h1, rfl⟩ := Option.map_eq_some_iff.mp h
      obtain ⟨h2, h3⟩ := buckReplace_some h1
      refine ⟨by simp [h2], fun k => ?_⟩
      rw [chBuckGit, chBuckGit, h3]
      by_cases hke : k = e.key
      · rw [if_pos hke, if_pos hke, if_neg fun h => hk (h.symm.trans hke)]
      · rw [if_neg hke, if_neg hke]

theorem buckReplace_none {kev : Ent} : ∀ {es : List Ent}, buckReplace kev es = none →
    ∀ e ∈ es, e.key ≠ kev.key
  | e :: es, h, e', he' => by
    rw [buckReplace] at h
    split at h
    · cases h
    · rename_i hk
      rcases List.mem_cons.mp he' with rfl | he'
      · exact Ne.symm hk
      · exact buckReplace_none (Option.map_eq_none_iff.mp h) e' he'

theorem chBuckAdd_spec {q : ℕ} {kev : Ent} {es : List Ent} (h : Ok 0 q (.buck es))
    (hq : keyMug kev.key = q) :
    Ok 0 q (.buck (chBuckAdd kev es).1) ∧
      ∀ k, chBuckGit k (chBuckAdd kev es).1 = if k = kev.key then some kev.val else chBuckGit k es := by
  rw [chBuckAdd]
  cases hr : buckReplace kev es with
  | some es' =>
    obtain ⟨h1, h2⟩ := buckReplace_some hr
    refine ⟨⟨fun e he => ?_, by rw [h1]; exact h.2⟩, h2⟩
    have he' : e.key ∈ es.map Ent.key := h1 ▸ List.mem_map_of_mem he
    obtain ⟨e', he1, he2⟩ := List.mem_map.mp he'
    rw [← he2]
    exact h.1 e' he1
  | none =>
    have hn := buckReplace_none hr
    refine ⟨⟨fun e he => ?_, ?_⟩, fun k => ?_⟩
    · rcases List.mem_cons.mp he with rfl | he
      · exact hq
      · exact h.1 e he
    · rw [List.map_cons, List.nodup_cons]
      refine ⟨fun hm => ?_, h.2⟩
      obtain ⟨e, he, hk⟩ := List.mem_map.mp hm
      exact hn e he hk
    · rw [chBuckGit]

/-- A node of two slots, in the order of their branches. -/
theorem sget_pair (x y : Slot) {b c : ℕ} (hb : b < 32) (hc : c < 32) (hne : b ≠ c) :
    let m := 1 <<< b ||| 1 <<< c
    let xs := if b < c then [x, y] else [y, x]
    m < 2 ^ 32 ∧ xs.length = popcount m ∧
      ∀ i, sget m xs i = if i = c then some y else if i = b then some x else none := by
  have hone : 1 <<< b < 2 ^ 32 := by
    rw [Nat.shiftLeft_eq, Nat.one_mul]; exact Nat.pow_lt_pow_right (by omega) hb
  have hbit : (1 <<< b).testBit c = false := by
    rw [Nat.shiftLeft_eq, Nat.one_mul, Nat.testBit_two_pow]; simp [hne]
  have hlen : [x].length = popcount (1 <<< b) := (popcount_single hb).symm
  have hrank : rank (1 <<< b) c = if b < c then 1 else 0 := by
    have h1 : 1 <<< b = setBit 0 b := by simp [setBit]
    rw [h1, rank_setBit (Nat.zero_testBit b), rank_zero_left, Nat.zero_add]
  have hins : [x].insertIdx (rank (1 <<< b) c) y = if b < c then [x, y] else [y, x] := by
    rw [hrank]
    split <;> rfl
  refine ⟨setBit_lt hone hc, ?_, fun i => ?_⟩
  · rw [← hins]
    exact length_insert y hlen hc hbit
  · rw [← hins]
    exact (sget_insert y hlen hc hbit i).trans (by rw [sget_single])

theorem chTwo_spec : ∀ {n q : ℕ} {had add : Ent}, keyMug had.key >>> (5 * n) = q →
    keyMug add.key >>> (5 * n) = q → had.key ≠ add.key →
      Ok n q (chTwo n had add (remOf n had.key) (remOf n add.key)) ∧
      ∀ k, sgit n k (chTwo n had add (remOf n had.key) (remOf n add.key)) =
        if k = add.key then some add.val else if k = had.key then some had.val else none
  | 0, q, had, add, hh, ha, hne => by
    refine ⟨⟨fun e he => ?_, by simp [hne]⟩, fun k => ?_⟩
    · rcases List.mem_pair.mp he with rfl | rfl
      · exact hh
      · exact ha
    · rw [chTwo, sgit_buck, chBuckGit, chBuckGit, chBuckGit]
      by_cases hk : k = had.key
      · rw [if_pos hk, if_pos hk, if_neg fun h => hne (hk.symm.trans h)]
      · rw [if_neg hk, if_neg hk]
  | n + 1, q, had, add, hh, ha, hne => by
    have hsh := shift_eq n had.key
    have hsa := shift_eq n add.key
    rw [hh] at hsh
    rw [ha] at hsa
    rw [chTwo, remOf_shift, remOf_shift, cutEnd_remOf, cutEnd_remOf]
    by_cases hb : bitOf n had.key = bitOf n add.key
    · -- the branches collide
      rw [if_pos hb]
      rw [← hb] at hsa
      obtain ⟨h1, h2⟩ := chTwo_spec hsh hsa hne
      have hlen : [chTwo n had add (remOf n had.key) (remOf n add.key)].length =
          popcount (1 <<< bitOf n had.key) := (popcount_single (bitOf_lt _ _)).symm
      refine ⟨⟨?_, hlen, fun b s hs => ?_⟩, fun k => ?_⟩
      · rw [Nat.shiftLeft_eq, Nat.one_mul]
        exact Nat.pow_lt_pow_right (by omega) (bitOf_lt _ _)
      · rw [sget_single] at hs
        split at hs
        · rename_i hbs
          cases hs
          rw [hbs]; exact h1
        · cases hs
      · rw [sgit_node hlen, sget_single]
        by_cases hbk : bitOf n k = bitOf n had.key
        · rw [if_pos hbk]
          exact h2 k
        · rw [if_neg hbk, if_neg fun h => hbk ((congrArg (bitOf n) h).trans hb.symm),
            if_neg fun h => hbk (congrArg (bitOf n) h)]
          rfl
    · rw [if_neg hb]
      obtain ⟨h1, h2, h3⟩ := sget_pair (.noun had) (.noun add) (bitOf_lt n had.key)
        (bitOf_lt n add.key) hb
      refine ⟨⟨h1, h2, fun b s hs => ?_⟩, fun k => ?_⟩
      · rw [h3] at hs
        split at hs
        · rename_i hbs
          cases hs
          rw [hbs]; exact ok_noun.mpr hsa
        · split at hs
          · rename_i hbs
            cases hs
            rw [hbs]; exact ok_noun.mpr hsh
          · cases hs
      · rw [sgit_node h2, h3]
        by_cases hka : k = add.key
        · rw [hka, if_pos rfl, if_pos rfl, Option.bind_some, sgit_noun, if_pos rfl]
        · rw [if_neg hka]
          by_cases hkh : k = had.key
          · rw [hkh, if_neg hb, if_pos rfl, if_pos rfl, Option.bind_some, sgit_noun, if_pos rfl]
          · rw [if_neg hkh]
            split
            · rw [Option.bind_some, sgit_noun, if_neg hka]
            · split
              · rw [Option.bind_some, sgit_noun, if_neg hkh]
              · rfl

/-- Putting into a slot keeps it well formed and maps the key to its value. -/
theorem chSlotPut_spec : ∀ {n q : ℕ} {s : Slot} {kev : Ent}, Ok n q s →
    keyMug kev.key >>> (5 * n) = q →
      Ok n q (chSlotPut n kev (remOf n kev.key) s).1 ∧
      ∀ k, sgit n k (chSlotPut n kev (remOf n kev.key) s).1 =
        if k = kev.key then some kev.val else sgit n k s
  | n, q, .noun kov, kev, h, hq => by
    have hput : chSlotPut n kev (remOf n kev.key) (.noun kov) =
        if kev.key = kov.key then (.noun kev, 0)
        else (chTwo n kov kev (remOf n kov.key) (remOf n kev.key), 1) := by
      cases n <;> rfl
    rw [hput]
    by_cases hk : kev.key = kov.key
    · rw [if_pos hk]
      refine ⟨ok_noun.mpr hq, fun k => ?_⟩
      rw [sgit_noun, sgit_noun, ← hk]
      split <;> rfl
    · rw [if_neg hk]
      obtain ⟨h1, h2⟩ := chTwo_spec (ok_noun.mp h) hq (Ne.symm hk)
      exact ⟨h1, fun k => by rw [h2, sgit_noun]⟩
  | 0, q, .buck es, kev, h, hq => chBuckAdd_spec h hq
  | n + 1, q, .node m xs, kev, ⟨hm, hx, hs⟩, hq => by
    have hb := bitOf_lt n kev.key
    have hsh := shift_eq n kev.key
    rw [hq] at hsh
    rw [chSlotPut, remOf_shift, cutEnd_remOf, bitSet_eq, popcount_cutEnd m hb.le]
    by_cases ht : m.testBit (bitOf n kev.key)
    · obtain ⟨s, h1, h2⟩ := sget_some hx hb ht
      obtain ⟨h3, h4⟩ := chSlotPut_spec (hs _ s h1) hsh
      rw [if_pos ht, List.getD_eq_getElem?_getD, h2, Option.getD_some]
      simp only []
      set s' := (chSlotPut n kev (remOf n kev.key) s).1
      have hget := sget_set s' hx hb ht
      have hlen : (xs.set (rank m (bitOf n kev.key)) s').length = popcount m := by
        rw [List.length_set, hx]
      refine ⟨⟨hm, hlen, fun b t hbt => ?_⟩, fun k => ?_⟩
      · rw [hget] at hbt
        split at hbt
        · rename_i hbe
          cases hbt
          rw [hbe]; exact h3
        · exact hs b t hbt
      · rw [sgit_node hlen, sgit_node hx, hget]
        by_cases hbk : bitOf n k = bitOf n kev.key
        · rw [if_pos hbk, hbk, h1, Option.bind_some, Option.bind_some, h4]
        · rw [if_neg hbk, if_neg fun h => hbk (congrArg (bitOf n) h)]
    · rw [if_neg ht]
      simp only []
      rw [Bool.not_eq_true] at ht
      have hget := sget_insert (.noun kev) hx hb ht
      have hlen := length_insert (.noun kev) hx hb ht
      refine ⟨⟨setBit_lt hm hb, hlen, fun b t hbt => ?_⟩, fun k => ?_⟩
      · rw [hget] at hbt
        split at hbt
        · rename_i hbe
          cases hbt
          rw [hbe]; exact ok_noun.mpr hsh
        · exact hs b t hbt
      · rw [sgit_node hlen, sgit_node hx, hget]
        by_cases hbk : bitOf n k = bitOf n kev.key
        · rw [if_pos hbk, Option.bind_some, sgit_noun, hbk, sget_none ht, Option.bind_none]
        · rw [if_neg hbk, if_neg fun h => hbk (congrArg (bitOf n) h)]
  | n, _, .null, _, h, _ => absurd h ok_null

/-! ### Deleting -/

/-- The key of the single pair that a key's mug leads to, if it leads to one. -/
def landing : ℕ → Noun → ℕ → Slot → Option Noun
  | _, _, _, .noun kev => some kev.key
  | n + 1, key, rem, .node map sot =>
    let bit := rem >>> (5 * n)
    let rem := cutEnd rem (5 * n)
    if ¬ bitSet map bit then none
    else landing n key rem (sot.getD (popcount (cutEnd map bit)) .null)
  | _, _, _, _ => none

/-- The key's mug leads to a single pair of another key. -/
def Clashes (n : ℕ) (key : Noun) (s : Slot) : Prop :=
  ∃ k, landing n key (remOf n key) s = some k ∧ k ≠ key

theorem clashes_noun {n : ℕ} {key : Noun} {kev : Ent} :
    Clashes n key (.noun kev) ↔ kev.key ≠ key := by
  have h : landing n key (remOf n key) (.noun kev) = some kev.key := by cases n <;> rfl
  rw [Clashes, h]
  simp

theorem clashes_node {n m : ℕ} {xs : List Slot} (hx : xs.length = popcount m) (key : Noun) :
    Clashes (n + 1) key (.node m xs) ↔ ∃ s, sget m xs (bitOf n key) = some s ∧ Clashes n key s := by
  have h : landing (n + 1) key (remOf (n + 1) key) (.node m xs) =
      (sget m xs (bitOf n key)).bind fun s => landing n key (remOf n key) s := by
    rw [← getD_of_sget hx (bitOf_lt n key), landing, remOf_shift, cutEnd_remOf]
    split <;> rfl
  rw [Clashes, h]
  constructor
  · rintro ⟨k, h1, h2⟩
    obtain ⟨s, h3, h4⟩ := Option.bind_eq_some_iff.mp h1
    exact ⟨s, h3, k, h4, h2⟩
  · rintro ⟨s, h1, k, h2, h3⟩
    exact ⟨k, by rw [h1]; exact h2, h3⟩

theorem chBuckDel_spec (key : Noun) : ∀ {es : List Ent}, (es.map Ent.key).Nodup →
    (chBuckDel key es).1.Sublist es ∧
    (∀ k, chBuckGit k (chBuckDel key es).1 = if k = key then none else chBuckGit k es) ∧
    (chBuckDel key es).2 = (chBuckGit key es).isSome
  | [], _ => ⟨.slnil, fun k => by simp [chBuckDel, chBuckGit], rfl⟩
  | e :: es, h => by
    rw [List.map_cons, List.nodup_cons] at h
    obtain ⟨h1, h2, h3⟩ := chBuckDel_spec key h.2
    by_cases hk : key = e.key
    · rw [chBuckDel, if_pos hk]
      refine ⟨List.sublist_cons_self _ _, fun k => ?_, ?_⟩
      · rw [chBuckGit]
        by_cases hke : k = key
        · rw [if_pos hke]
          refine chBuckGit_of_not_mem fun e' he' hek => h.1 ?_
          rw [← hk, ← hke, ← hek]
          exact List.mem_map_of_mem he'
        · rw [if_neg hke, if_neg fun h => hke (h.trans hk.symm)]
      · rw [chBuckGit, if_pos hk]; rfl
    · rw [chBuckDel, if_neg hk]
      refine ⟨h1.cons_cons e, fun k => ?_, ?_⟩
      · simp only []
        rw [chBuckGit, chBuckGit, h2]
        by_cases hke : k = e.key
        · rw [if_pos hke, if_pos hke, if_neg fun h => hk (h.symm.trans hke)]
        · rw [if_neg hke, if_neg hke]
      · rw [chBuckGit, if_neg hk, ← h3]

/-- The two slots of a node of two. -/
theorem sget_two {m b : ℕ} {xs : List Slot} (hm : m < 2 ^ 32) (hx : xs.length = popcount m)
    (h2 : popcount m = 2) (hb : b < 32) (ht : m.testBit b) :
    ∃ c, c ≠ b ∧ sget m xs c = some (xs.getD (if rank m b = 0 then 1 else 0) .null) ∧
      ∀ i, i ≠ b → i ≠ c → sget m xs i = none := by
  have hrb : rank m b < 2 := h2 ▸ rank_lt ht hb
  obtain ⟨c, hc, htc, hrc⟩ : ∃ c < 32, m.testBit c ∧ rank m c = if rank m b = 0 then 1 else 0 := by
    refine exists_rank ?_
    show _ < popcount m
    rw [h2]
    split <;> omega
  refine ⟨c, fun h => ?_, ?_, fun i hib hic => ?_⟩
  · rw [h] at hrc
    split at hrc <;> omega
  · obtain ⟨x, h3, h4⟩ := sget_some hx hc htc
    rw [h3, ← hrc, List.getD_eq_getElem?_getD, h4]
    rfl
  · rw [sget, if_neg]
    intro hti
    have hi : i < 32 := by
      by_contra hi
      rw [Nat.testBit_lt_two_pow (Nat.lt_of_lt_of_le hm (Nat.pow_le_pow_right (by omega) (by omega)))] at hti
      cases hti
    have hri : rank m i < 2 := h2 ▸ rank_lt hti hi
    have h5 : rank m i ≠ rank m b := fun h => hib (rank_inj hti ht h)
    have h6 : rank m i ≠ rank m c := fun h => hic (rank_inj hti htc h)
    split at hrc <;> omega

theorem isNull_iff {s : Slot} : s.isNull = true ↔ s = .null := by
  cases s <;> simp [Slot.isNull]

/-- A node whose slot lost its pair: the slot is taken out, and a node left
with one single pair becomes that pair. -/
theorem chShrink_spec {n q m b : ℕ} {xs : List Slot} {s : Slot} {key : Noun}
    (h : Ok (n + 1) q (.node m xs)) (hb : bitOf n key = b) (h1 : sget m xs b = some s)
    (hs : ∀ k, k ≠ key → sgit n k s = none) :
    let r := if popcount m = 2 ∧ (xs.getD (if rank m b = 0 then 1 else 0) .null).isNoun then
        xs.getD (if rank m b = 0 then 1 else 0) .null
      else .node (clearBit m b) (xs.eraseIdx (rank m b))
    Ok (n + 1) q r ∧ ∀ k, sgit (n + 1) k r = if k = key then none else sgit (n + 1) k (.node m xs) := by
  have hb32 : b < 32 := hb ▸ bitOf_lt n key
  have ht := testBit_of_sget h1
  obtain ⟨hm, hx, hok⟩ := h
  generalize hkes : xs.getD (if rank m b = 0 then 1 else 0) Slot.null = kes
  simp only []
  split
  · rename_i h2
    obtain ⟨c, hcb, hc, hrest⟩ := sget_two hm hx h2.1 hb32 ht
    rw [hkes] at hc
    obtain ⟨kev, hkev⟩ : ∃ kev, kes = .noun kev := by
      cases hk : kes with
      | noun kev => exact ⟨kev, rfl⟩
      | null => rw [hk] at h2; cases h2.2
      | node => rw [hk] at h2; cases h2.2
      | buck => rw [hk] at h2; cases h2.2
    have hc32 := lt_of_sget hm hc
    have hkok := hok c kes hc
    rw [hkev, ok_noun] at hkok
    obtain ⟨hbit, hpre⟩ := bitOf_eq hc32 hkok
    rw [hkev]
    refine ⟨ok_noun.mpr hpre, fun k => ?_⟩
    rw [sgit_noun, sgit_node hx]
    by_cases hkk : k = key
    · rw [if_pos hkk, if_neg]
      intro hke
      rw [← hke, hkk, hb] at hbit
      exact hcb hbit.symm
    · rw [if_neg hkk]
      by_cases hkb : bitOf n k = b
      · rw [hkb, h1, Option.bind_some, hs k hkk, if_neg]
        intro hke
        rw [← hke, hkb] at hbit
        exact hcb hbit.symm
      · by_cases hkc : bitOf n k = c
        · rw [hkc, hc, Option.bind_some, hkev, sgit_noun]
        · rw [hrest _ hkb hkc, if_neg]
          · rfl
          · intro hke
            rw [← hke] at hbit
            exact hkc hbit
  · have hlen := length_erase hx hb32 ht
    refine ⟨⟨clearBit_lt hm, hlen, fun i t hi => ?_⟩, fun k => ?_⟩
    · have hi32 := lt_of_sget (clearBit_lt hm) hi
      rw [sget_erase ht hi32] at hi
      split at hi
      · cases hi
      · exact hok i t hi
    · rw [sgit_node hlen, sgit_node hx, sget_erase ht (bitOf_lt n k)]
      by_cases hkk : k = key
      · rw [if_pos hkk, hkk, if_pos hb]
        rfl
      · rw [if_neg hkk]
        by_cases hkb : bitOf n k = b
        · rw [if_pos hkb, hkb, h1, Option.bind_some, hs k hkk]
          rfl
        · rw [if_neg hkb]

/-- Deleting a key that does not clash unmaps it, and only it. -/
theorem chSlotDel_spec : ∀ {n q : ℕ} {s : Slot} {key : Noun}, Ok n q s →
    keyMug key >>> (5 * n) = q → ¬ Clashes n key s →
      ((chSlotDel n key (remOf n key) s).1 = .null ∨ Ok n q (chSlotDel n key (remOf n key) s).1) ∧
      (∀ k, sgit n k (chSlotDel n key (remOf n key) s).1 = if k = key then none else sgit n k s) ∧
      (chSlotDel n key (remOf n key) s).2 = (sgit n key s).isSome
  | n, q, .noun kev, key, _, _, hc => by
    rw [clashes_noun, Decidable.not_not] at hc
    have hdel : chSlotDel n key (remOf n key) (.noun kev) = (.null, true) := by cases n <;> rfl
    rw [hdel]
    refine ⟨.inl rfl, fun k => ?_, ?_⟩
    · rw [sgit_null, sgit_noun, hc]
      split <;> rfl
    · rw [sgit_noun, hc, if_pos rfl]
      rfl
  | 0, q, .buck es, key, h, _, _ => by
    obtain ⟨h1, h2, h3⟩ := chBuckDel_spec key h.2
    exact ⟨.inr ⟨fun e he => h.1 e (h1.subset he), (h1.map _).nodup h.2⟩, h2, h3⟩
  | n + 1, q, .node m xs, key, h, hq, hc => by
    obtain ⟨hm, hx, hok⟩ := h
    have hb := bitOf_lt n key
    have hsh := shift_eq n key
    rw [hq] at hsh
    have hnode := fun k => sgit_node (n := n) hx k
    rw [chSlotDel, remOf_shift, cutEnd_remOf, bitSet_eq, popcount_cutEnd m hb.le]
    by_cases ht : m.testBit (bitOf n key)
    · obtain ⟨s, h1, h2⟩ := sget_some hx hb ht
      have hcs : ¬ Clashes n key s := fun hs => hc ((clashes_node hx key).mpr ⟨s, h1, hs⟩)
      obtain ⟨h3, h4, h5⟩ := chSlotDel_spec (hok _ s h1) hsh hcs
      rw [if_neg (not_not.mpr ht), List.getD_eq_getElem?_getD, h2, Option.getD_some]
      simp only []
      have hkey : sgit (n + 1) key (.node m xs) = sgit n key s := by rw [hnode, h1]; rfl
      rw [hkey]
      set r := chSlotDel n key (remOf n key) s with hr
      by_cases hd : r.2
      · rw [if_neg (not_not.mpr hd)]
        have hsome : true = (sgit n key s).isSome := hd.symm.trans h5
        by_cases hnull : r.1.isNull
        · rw [if_neg (not_not.mpr hnull)]
          rw [isNull_iff] at hnull
          have hothers : ∀ k, k ≠ key → sgit n k s = none := fun k hk => by
            have := h4 k
            rw [hnull, sgit_null, if_neg hk] at this
            exact this.symm
          obtain ⟨h6, h7⟩ := chShrink_spec ⟨hm, hx, hok⟩ rfl h1 hothers
          simp only [apply_ite Prod.fst, apply_ite Prod.snd, ite_self]
          exact ⟨.inr h6, h7, hsome⟩
        · rw [if_pos hnull]
          have hget := sget_set r.1 hx hb ht
          have hlen : (xs.set (rank m (bitOf n key)) r.1).length = popcount m := by
            rw [List.length_set, hx]
          refine ⟨.inr ⟨hm, hlen, fun b t hbt => ?_⟩, fun k => ?_, hsome⟩
          · rw [hget] at hbt
            split at hbt
            · rename_i hbe
              cases hbt
              rw [hbe]
              exact h3.resolve_left fun h => hnull (isNull_iff.mpr h)
            · exact hok b t hbt
          · rw [sgit_node hlen, hnode, hget]
            by_cases hbk : bitOf n k = bitOf n key
            · rw [if_pos hbk, hbk, h1, Option.bind_some, Option.bind_some, h4]
            · rw [if_neg hbk, if_neg fun h => hbk (congrArg (bitOf n) h)]
      · rw [if_pos hd]
        have hnone : sgit n key s = none := by
          rw [Bool.not_eq_true] at hd
          rw [hd] at h5
          exact Option.not_isSome_iff_eq_none.mp (by rw [← h5]; simp)
        refine ⟨.inr ⟨hm, hx, hok⟩, fun k => ?_, by rw [hnone]; rfl⟩
        split
        · rename_i hk
          rw [hk, hkey, hnone]
        · rfl
    · rw [if_pos ht]
      rw [Bool.not_eq_true] at ht
      have hnone : sgit (n + 1) key (.node m xs) = none := by rw [hnode, sget_none ht]; rfl
      refine ⟨.inr ⟨hm, hx, hok⟩, fun k => ?_, by rw [hnone]; rfl⟩
      split
      · rename_i hk
        rw [hk, hnone]
      · rfl
  | n, _, .null, _, h, _, _ => absurd h ok_null

/-! ### Tables -/

/-- A well-formed table. -/
structure RootOk (har : Root) : Prop where
  slots : ∀ i, har.sot i = .null ∨ Ok 5 i (har.sot i)
  bound : ∀ i, 64 ≤ i → har.sot i = .null

/-- What a table maps a key to. -/
def lookup (har : Root) (key : Noun) : Option Noun := sgit 5 key (har.sot (keyMug key >>> 25))

/-- The slot that the key's mug leads to holds a single pair of another key. -/
def Clash (har : Root) (key : Noun) : Prop := Clashes 5 key (har.sot (keyMug key >>> 25))

theorem rootOk_new : RootOk u3hNew := ⟨fun _ => .inl rfl, fun _ _ => rfl⟩

@[simp] theorem lookup_new (key : Noun) : lookup u3hNew key = none := rfl

theorem RootOk.update {har : Root} (h : RootOk har) {i : ℕ} {s : Slot} {use : ℕ} (hi : i < 64)
    (hs : s = .null ∨ Ok 5 i s) : RootOk ⟨use, Function.update har.sot i s⟩ := by
  refine ⟨fun j => ?_, fun j hj => ?_⟩
  · show Function.update har.sot i s j = .null ∨ Ok 5 j (Function.update har.sot i s j)
    by_cases hji : j = i
    · rw [hji, Function.update_self]; exact hs
    · rw [Function.update_of_ne hji]; exact h.slots j
  · show Function.update har.sot i s j = .null
    rw [Function.update_of_ne (by omega)]
    exact h.bound j hj

/-- A change of the slot of a key's mug, which changes it at the key only,
changes the table at the key only. -/
theorem lookup_update {har : Root} {key : Noun} {s : Slot} {use : ℕ} {v : Option Noun}
    (h : ∀ k, sgit 5 k s = if k = key then v else sgit 5 k (har.sot (keyMug key >>> 25))) (k : Noun) :
    lookup ⟨use, Function.update har.sot (keyMug key >>> 25) s⟩ k =
      if k = key then v else lookup har k := by
  show sgit 5 k (Function.update har.sot _ s _) = _
  by_cases hi : keyMug k >>> 25 = keyMug key >>> 25
  · rw [hi, Function.update_self, h, lookup, hi]
  · rw [Function.update_of_ne hi, if_neg fun h => hi (by rw [h])]
    rfl

/-- **A get returns what the table maps the key to**, and changes nothing of it. -/
theorem u3hGit_spec {har : Root} (h : RootOk har) (key : Noun) :
    (u3hGit har key).2 = lookup har key ∧ RootOk (u3hGit har key).1 ∧
      (∀ k, lookup (u3hGit har key).1 k = lookup har k) ∧
      (∀ k, Clash (u3hGit har key).1 k ↔ Clash har k) := by
  simp only [u3hGit]
  cases hs : har.sot (keyMug key >>> 25) with
  | null => exact ⟨by rw [lookup, hs, sgit_null], h, fun _ => rfl, fun _ => .rfl⟩
  | node m xs => exact ⟨by rw [lookup, hs]; rfl, h, fun _ => rfl, fun _ => .rfl⟩
  | buck es => exact ⟨by rw [lookup, hs]; rfl, h, fun _ => rfl, fun _ => .rfl⟩
  | noun kev =>
    simp only []
    split
    · rename_i hk
      have hok : Ok 5 (keyMug key >>> 25) (.noun { kev with warm := true }) :=
        ok_noun.mpr (by rw [hk])
      refine ⟨by rw [lookup, hs, sgit_noun, if_pos hk], h.update (keyMug_root key) (.inr hok),
        fun k => ?_, fun k => ?_⟩
      · have hslot : ∀ k, sgit 5 k (.noun { kev with warm := true }) =
            if k = key then some kev.val else sgit 5 k (har.sot (keyMug key >>> 25)) := by
          intro k
          rw [hs, sgit_noun, sgit_noun, hk]
          split <;> rfl
        rw [lookup_update hslot k]
        split
        · rename_i hkk
          rw [hkk, lookup, hs, sgit_noun, if_pos hk]
        · rfl
      · show Clashes 5 k (Function.update har.sot _ _ _) ↔ Clashes 5 k _
        by_cases hi : keyMug k >>> 25 = keyMug key >>> 25
        · rw [hi, Function.update_self, hs, clashes_noun, clashes_noun]
        · rw [Function.update_of_ne hi]
    · rename_i hk
      exact ⟨by rw [lookup, hs, sgit_noun, if_neg hk], h, fun _ => rfl, fun _ => .rfl⟩

/-- **A put maps its key to its value and changes nothing else.** -/
theorem u3hPut_spec {har : Root} (h : RootOk har) (key val : Noun) :
    RootOk (u3hPut har key val) ∧
      ∀ k, lookup (u3hPut har key val) k = if k = key then some val else lookup har k := by
  unfold u3hPut
  simp only []
  split
  · rename_i hnull
    rw [isNull_iff] at hnull
    have hok : Ok 5 (keyMug key >>> 25) (.noun (Ent.fresh key val)) := ok_noun.mpr rfl
    refine ⟨h.update (keyMug_root key) (.inr hok), lookup_update fun k => ?_⟩
    rw [hnull, sgit_null, sgit_noun]
    rfl
  · rename_i hnull
    have hok := (h.slots (keyMug key >>> 25)).resolve_left fun hn => hnull (isNull_iff.mpr hn)
    have hkey : keyMug (Ent.fresh key val).key >>> (5 * 5) = keyMug key >>> 25 := rfl
    obtain ⟨h1, h2⟩ := chSlotPut_spec hok hkey
    exact ⟨h.update (keyMug_root key) (.inr h1), lookup_update h2⟩

/-- **A deletion that does not clash unmaps its key and changes nothing else.** -/
theorem u3hDel_spec {har : Root} (h : RootOk har) {key : Noun} (hc : ¬ Clash har key) :
    RootOk (u3hDel har key) ∧
      ∀ k, lookup (u3hDel har key) k = if k = key then none else lookup har k := by
  unfold u3hDel
  simp only []
  split
  · rename_i hnull
    rw [isNull_iff] at hnull
    refine ⟨h, fun k => ?_⟩
    split
    · rename_i hk; rw [hk, lookup, hnull, sgit_null]
    · rfl
  · rename_i hnull
    have hok := (h.slots (keyMug key >>> 25)).resolve_left fun hn => hnull (isNull_iff.mpr hn)
    obtain ⟨h1, h2, -⟩ := chSlotDel_spec hok rfl hc
    exact ⟨h.update (keyMug_root key) h1, lookup_update h2⟩

/-- A key that leads to a pair of its own is mapped. -/
theorem isSome_of_landing : ∀ {n q : ℕ} {s : Slot} {k : Noun}, Ok n q s →
    landing n k (remOf n k) s = some k → (sgit n k s).isSome
  | n, q, .noun kev, k, h, hl => by
    have hland : landing n k (remOf n k) (.noun kev) = some kev.key := by cases n <;> rfl
    rw [hland] at hl
    cases hl
    rw [sgit_noun, if_pos rfl]
    rfl
  | 0, q, .buck es, k, _, hl => by cases hl
  | n + 1, q, .node m xs, k, ⟨hm, hx, hok⟩, hl => by
    have hb := bitOf_lt n k
    rw [landing, remOf_shift, cutEnd_remOf, bitSet_eq, popcount_cutEnd m hb.le] at hl
    by_cases ht : m.testBit (bitOf n k)
    · obtain ⟨s, h1, h2⟩ := sget_some hx hb ht
      rw [if_neg (not_not.mpr ht), List.getD_eq_getElem?_getD, h2, Option.getD_some] at hl
      rw [sgit_node hx, h1]
      exact isSome_of_landing (hok _ s h1) hl
    · rw [if_pos ht] at hl
      cases hl
  | n, _, .null, _, h, _ => absurd h ok_null

/-- A deletion whose mug leads to a single pair deletes that pair, whatever its key. -/
theorem chSlotDel_landing : ∀ {n q : ℕ} {s : Slot} {key k : Noun}, Ok n q s →
    landing n key (remOf n key) s = some k →
      keyMug k >>> (5 * n) = q ∧ landing n k (remOf n k) s = some k ∧
      chSlotDel n key (remOf n key) s = chSlotDel n k (remOf n k) s
  | n, q, .noun kev, key, k, h, hl => by
    have hland : ∀ key, landing n key (remOf n key) (.noun kev) = some kev.key := fun key => by
      cases n <;> rfl
    rw [hland] at hl
    cases hl
    exact ⟨ok_noun.mp h, hland _, by cases n <;> rfl⟩
  | 0, q, .buck es, key, k, _, hl => by cases hl
  | n + 1, q, .node m xs, key, k, ⟨hm, hx, hok⟩, hl => by
    have hb := bitOf_lt n key
    rw [landing, remOf_shift, cutEnd_remOf, bitSet_eq, popcount_cutEnd m hb.le] at hl
    by_cases ht : m.testBit (bitOf n key)
    · obtain ⟨s, h1, h2⟩ := sget_some hx hb ht
      rw [if_neg (not_not.mpr ht), List.getD_eq_getElem?_getD, h2, Option.getD_some] at hl
      obtain ⟨h3, h4, h5⟩ := chSlotDel_landing (hok _ s h1) hl
      obtain ⟨h6, h7⟩ := bitOf_eq hb h3
      refine ⟨h7, ?_, ?_⟩
      · rw [landing, remOf_shift, cutEnd_remOf, h6, bitSet_eq, popcount_cutEnd m hb.le,
          if_neg (not_not.mpr ht), List.getD_eq_getElem?_getD, h2, Option.getD_some]
        exact h4
      · simp only [chSlotDel, remOf_shift, cutEnd_remOf, h6, popcount_cutEnd m hb.le,
          List.getD_eq_getElem?_getD, h2, Option.getD_some, h5]
    · rw [if_pos ht] at hl
      cases hl
  | n, _, .null, _, _, h, _ => absurd h ok_null

/-- **A deletion that clashes deletes another key.** -/
theorem u3hDel_clash {har : Root} (h : RootOk har) {key : Noun} (hc : Clash har key) :
    ∃ k, k ≠ key ∧ (lookup har k).isSome ∧ u3hDel har key = u3hDel har k ∧ ¬ Clash har k := by
  obtain ⟨k, hl, hk⟩ := hc
  rcases h.slots (keyMug key >>> 25) with hn | hok
  · rw [hn] at hl; cases hl
  obtain ⟨h1, h2, h3⟩ := chSlotDel_landing hok hl
  have hi : keyMug k >>> 25 = keyMug key >>> 25 := h1
  have hnc : ¬ Clash har k := by
    rintro ⟨k', hl', hk'⟩
    rw [hi, h2] at hl'
    cases hl'
    exact hk' rfl
  -- the deletion is the same as that of the key found
  have hdel : u3hDel har key = u3hDel har k := by
    have h4 : chSlotDel 5 key (cutEnd (keyMug key) 25) (har.sot (keyMug key >>> 25)) =
        chSlotDel 5 k (cutEnd (keyMug k) 25) (har.sot (keyMug key >>> 25)) := h3
    simp only [u3hDel, hi, h4]
  refine ⟨k, hk, ?_, hdel, hnc⟩
  rw [lookup, hi]
  exact isSome_of_landing hok h2

/-! ### Uniting -/

theorem chBuckGit_of_mem {e : Ent} : ∀ {es : List Ent}, (es.map Ent.key).Nodup → e ∈ es →
    chBuckGit e.key es = some e.val
  | e' :: es, h, he => by
    rw [List.map_cons, List.nodup_cons] at h
    rcases List.mem_cons.mp he with rfl | he
    · rw [chBuckGit, if_pos rfl]
    · rw [chBuckGit, if_neg, chBuckGit_of_mem h.2 he]
      intro hk
      exact h.1 (hk ▸ List.mem_map_of_mem he)

theorem exists_of_chBuckGit {key v : Noun} : ∀ {es : List Ent}, chBuckGit key es = some v →
    ∃ e ∈ es, e.key = key ∧ e.val = v
  | e :: es, h => by
    rw [chBuckGit] at h
    split at h
    · rename_i hk
      cases h
      exact ⟨e, List.mem_cons_self, hk.symm, rfl⟩
    · obtain ⟨e', he, hk⟩ := exists_of_chBuckGit h
      exact ⟨e', List.mem_cons_of_mem _ he, hk⟩

/-- A walk visits the pairs that the slot maps. -/
theorem sgit_iff_walk : ∀ {n q : ℕ} {s : Slot}, Ok n q s → ∀ key v,
    sgit n key s = some v ↔ ∃ e ∈ chWalkSlot n s, e.key = key ∧ e.val = v
  | n, q, .noun kev, _, key, v => by
    have hw : chWalkSlot n (.noun kev) = [kev] := by cases n <;> rfl
    rw [sgit_noun, hw]
    constructor
    · intro h
      split at h
      · rename_i hk
        cases h
        exact ⟨kev, List.mem_singleton_self _, hk.symm, rfl⟩
      · cases h
    · rintro ⟨e, he, rfl, rfl⟩
      rw [List.mem_singleton.mp he, if_pos rfl]
  | 0, q, .buck es, h, key, v => by
    constructor
    · exact exists_of_chBuckGit
    · rintro ⟨e, he, rfl, rfl⟩
      exact chBuckGit_of_mem h.2 he
  | n + 1, q, .node m xs, ⟨hm, hx, hok⟩, key, v => by
    rw [sgit_node hx]
    constructor
    · intro h
      obtain ⟨s, h1, h2⟩ := Option.bind_eq_some_iff.mp h
      obtain ⟨e, he, hk⟩ := (sgit_iff_walk (hok _ s h1) key v).mp h2
      have hmem : s ∈ xs := (mem_iff_sget hx).mpr ⟨_, bitOf_lt n key, h1⟩
      exact ⟨e, List.mem_flatMap.mpr ⟨s, hmem, he⟩, hk⟩
    · rintro ⟨e, he, hk⟩
      obtain ⟨s, hs, he⟩ := List.mem_flatMap.mp he
      obtain ⟨b, hb, h1⟩ := (mem_iff_sget hx).mp hs
      have hg := (sgit_iff_walk (hok b s h1) key v).mpr ⟨e, he, hk⟩
      have hbit := (bitOf_eq hb (prefix_of_sgit (hok b s h1) hg)).1
      rw [hbit, h1, Option.bind_some, hg]
  | n, _, .null, h, _, _ => absurd h ok_null

theorem lookup_iff_walk {har : Root} (h : RootOk har) (key v : Noun) :
    lookup har key = some v ↔ ∃ e ∈ u3hWalk har, e.key = key ∧ e.val = v := by
  have hnull : ∀ n, chWalkSlot n .null = [] := fun n => by cases n <;> rfl
  constructor
  · intro hg
    rcases h.slots (keyMug key >>> 25) with hn | hok
    · rw [lookup, hn, sgit_null] at hg; cases hg
    · obtain ⟨e, he, hk⟩ := (sgit_iff_walk hok key v).mp hg
      exact ⟨e, List.mem_flatMap.mpr ⟨_, List.mem_range.mpr (keyMug_root key), he⟩, hk⟩
  · rintro ⟨e, he, hk⟩
    obtain ⟨i, -, he⟩ := List.mem_flatMap.mp he
    rcases h.slots i with hn | hok
    · rw [hn, hnull] at he; cases he
    · have hg := (sgit_iff_walk hok key v).mpr ⟨e, he, hk⟩
      have hi : keyMug key >>> 25 = i := prefix_of_sgit hok hg
      rw [lookup, hi, hg]

theorem lookup_puts {f : Noun → Option Noun} : ∀ {es : List Ent} {har : Root}, RootOk har →
    (∀ e ∈ es, f e.key = some e.val) →
      RootOk (es.foldl (fun har kev => u3hPut har kev.key kev.val) har) ∧
      ∀ k, lookup (es.foldl (fun har kev => u3hPut har kev.key kev.val) har) k =
        if ∃ e ∈ es, e.key = k then f k else lookup har k
  | [], har, h, _ => ⟨h, fun k => by simp⟩
  | e :: es, har, h, hf => by
    obtain ⟨h1, h2⟩ := u3hPut_spec h e.key e.val
    obtain ⟨h3, h4⟩ := lookup_puts h1 fun e' he' => hf e' (List.mem_cons_of_mem _ he')
    refine ⟨h3, fun k => ?_⟩
    rw [List.foldl_cons, h4]
    by_cases hk : ∃ e' ∈ es, e'.key = k
    · obtain ⟨e', he', hek⟩ := hk
      rw [if_pos ⟨e', he', hek⟩, if_pos ⟨e', List.mem_cons_of_mem _ he', hek⟩]
    · rw [if_neg hk, h2]
      by_cases hke : k = e.key
      · rw [if_pos hke, if_pos ⟨e, List.mem_cons_self, hke.symm⟩, hke, hf e List.mem_cons_self]
      · rw [if_neg hke, if_neg]
        rintro ⟨e', he', hek⟩
        rcases List.mem_cons.mp he' with rfl | he'
        · exact hke hek.symm
        · exact hk ⟨e', he', hek⟩

/-- **Uniting maps what the second table maps as it does, and the rest as before.** -/
theorem u3hUni_spec {har rah : Root} (h : RootOk har) (hr : RootOk rah) :
    RootOk (u3hUni har rah) ∧
      ∀ k, lookup (u3hUni har rah) k = (lookup rah k).or (lookup har k) := by
  obtain ⟨h1, h2⟩ := lookup_puts h fun e he => (lookup_iff_walk hr e.key e.val).mpr ⟨e, he, rfl, rfl⟩
  refine ⟨h1, fun k => (h2 k).trans ?_⟩
  cases hk : lookup rah k with
  | some v =>
    obtain ⟨e, he, hek, -⟩ := (lookup_iff_walk hr k v).mp hk
    rw [if_pos ⟨e, he, hek⟩]
    rfl
  | none =>
    rw [if_neg]
    · rfl
    · rintro ⟨e, he, hek⟩
      have := (lookup_iff_walk hr k e.val).mpr ⟨e, he, hek, rfl⟩
      rw [hk] at this
      cases this

/-! ### Runs -/

/-- The operations on a family of tables. -/
inductive Op where
  | put (t : ℕ) (key val : Noun)
  | del (t : ℕ) (key : Noun)
  | get (t : ℕ) (key : Noun)
  | git (t : ℕ) (key : Noun)
  | uni (t u : ℕ)

/-- The tables after an operation. -/
def step (r : ℕ → Root) : Op → ℕ → Root
  | .put t key val => Function.update r t (u3hPut (r t) key val)
  | .del t key => Function.update r t (u3hDel (r t) key)
  | .get t key => Function.update r t (u3hGet (r t) key).1
  | .git t key => Function.update r t (u3hGit (r t) key).1
  | .uni t u => Function.update r t (u3hUni (r t) (r u))

/-- The tables after a run from new tables. -/
def run (ops : List Op) : ℕ → Root := ops.foldl step fun _ => u3hNew

/-- The maps after an operation: a key has the last value put and not deleted since. -/
def mapStep (m : ℕ → Noun → Option Noun) : Op → ℕ → Noun → Option Noun
  | .put t key val => Function.update m t (Function.update (m t) key (some val))
  | .del t key => Function.update m t (Function.update (m t) key none)
  | .get _ _ => m
  | .git _ _ => m
  | .uni t u => Function.update m t fun k => (m u k).or (m t k)

def mapRun (ops : List Op) : ℕ → Noun → Option Noun := ops.foldl mapStep fun _ _ => none

/-- The tables return what the maps have. -/
def Agrees (r : ℕ → Root) (m : ℕ → Noun → Option Noun) : Prop :=
  ∀ t key, (u3hGet (r t) key).2 = m t key ∧ (u3hGit (r t) key).2 = m t key

/-- An operation deletes no key whose mug leads to a single pair of another. -/
def Clean (r : ℕ → Root) : Op → Prop
  | .del t key => ¬ Clash (r t) key
  | _ => True

/-- The invariant of a run: well-formed tables that map as the maps do. -/
structure Sim (r : ℕ → Root) (m : ℕ → Noun → Option Noun) : Prop where
  ok : ∀ t, RootOk (r t)
  maps : ∀ t key, lookup (r t) key = m t key

theorem Sim.agrees {r : ℕ → Root} {m : ℕ → Noun → Option Noun} (h : Sim r m) : Agrees r m := by
  intro t key
  have hg := (u3hGit_spec (h.ok t) key).1
  rw [h.maps] at hg
  exact ⟨hg, hg⟩

theorem Sim.update {r : ℕ → Root} {m : ℕ → Noun → Option Noun} (h : Sim r m) {t : ℕ} {har : Root}
    {f : Noun → Option Noun} (hok : RootOk har) (hf : ∀ k, lookup har k = f k) :
    Sim (Function.update r t har) (Function.update m t f) := by
  refine ⟨fun u => ?_, fun u k => ?_⟩
  · by_cases hu : u = t
    · rw [hu, Function.update_self]; exact hok
    · rw [Function.update_of_ne hu]; exact h.ok u
  · by_cases hu : u = t
    · rw [hu, Function.update_self, Function.update_self]; exact hf k
    · rw [Function.update_of_ne hu, Function.update_of_ne hu]; exact h.maps u k

/-- A clean operation keeps tables and maps in step. -/
theorem sim_step {r : ℕ → Root} {m : ℕ → Noun → Option Noun} (h : Sim r m) {o : Op}
    (hc : Clean r o) : Sim (step r o) (mapStep m o) := by
  have hread : ∀ t key, Sim (Function.update r t (u3hGit (r t) key).1) m := fun t key => by
    obtain ⟨-, hok, hlook, -⟩ := u3hGit_spec (h.ok t) key
    have := h.update (t := t) hok fun k => (hlook k).trans (h.maps t k)
    rwa [Function.update_eq_self] at this
  cases o with
  | put t key val =>
    obtain ⟨hok, hlook⟩ := u3hPut_spec (h.ok t) key val
    refine h.update hok fun k => ?_
    rw [hlook, h.maps, Function.update_apply]
  | del t key =>
    obtain ⟨hok, hlook⟩ := u3hDel_spec (h.ok t) hc
    refine h.update hok fun k => ?_
    rw [hlook, h.maps, Function.update_apply]
  | get t key => exact hread t key
  | git t key => exact hread t key
  | uni t u =>
    obtain ⟨hok, hlook⟩ := u3hUni_spec (h.ok t) (h.ok u)
    exact h.update hok fun k => by rw [hlook, h.maps, h.maps]

/-- After an operation that is not clean they disagree. -/
theorem not_agrees_step {r : ℕ → Root} {m : ℕ → Noun → Option Noun} (h : Sim r m) {o : Op}
    (hc : ¬ Clean r o) : ¬ Agrees (step r o) (mapStep m o) := by
  cases o with
  | del t key =>
    rw [Clean, not_not] at hc
    obtain ⟨k, hk, hsome, hdel, hnc⟩ := u3hDel_clash (h.ok t) hc
    obtain ⟨hok, hlook⟩ := u3hDel_spec (h.ok t) hnc
    intro hag
    have hgit := (hag t k).2
    simp only [step, mapStep, Function.update_self] at hgit
    rw [hdel, (u3hGit_spec hok k).1, hlook, if_pos rfl, Function.update_of_ne hk, ← h.maps] at hgit
    rw [← hgit] at hsome
    cases hsome
  | put => exact absurd trivial hc
  | get => exact absurd trivial hc
  | git => exact absurd trivial hc
  | uni => exact absurd trivial hc

theorem run_concat (ops : List Op) (o : Op) : run (ops ++ [o]) = step (run ops) o := by
  simp [run]

theorem mapRun_concat (ops : List Op) (o : Op) : mapRun (ops ++ [o]) = mapStep (mapRun ops) o := by
  simp [mapRun]

/-- A run of clean operations keeps tables and maps in step. -/
theorem sim_run (ops : List Op) (h : ∀ p o, p ++ [o] <+: ops → Clean (run p) o) :
    Sim (run ops) (mapRun ops) := by
  induction ops using List.reverseRecOn with
  | nil => exact ⟨fun _ => rootOk_new, fun _ _ => rfl⟩
  | append_singleton ops o ih =>
    rw [run_concat, mapRun_concat]
    exact sim_step (ih fun p o' hp => h p o' (hp.trans (List.prefix_append _ _)))
      (h ops o (List.prefix_refl _))

/-- **A run agrees with the maps in every state if and only if no deletion in
it finds, where its key's mug leads, a single pair of another key.** -/
theorem run_agrees_iff (ops : List Op) :
    (∀ p, p <+: ops → Agrees (run p) (mapRun p)) ↔
      ∀ p t key, p ++ [.del t key] <+: ops → ¬ Clash (run p t) key := by
  constructor
  · intro hag
    induction ops using List.reverseRecOn with
    | nil =>
      intro p t key hp
      have := hp.length_le
      simp at this
    | append_singleton ops o ih =>
      have hops := ih fun p hp => hag p (hp.trans (List.prefix_append _ _))
      have hclean : ∀ p o', p ++ [o'] <+: ops → Clean (run p) o' := by
        intro p o' hp
        cases o' with
        | del t key => exact hops p t key hp
        | put => trivial
        | get => trivial
        | git => trivial
        | uni => trivial
      intro p t key hp
      rcases List.prefix_concat_iff.mp hp with he | hp
      · -- the last operation
        obtain ⟨h1, h2⟩ := List.append_inj' he rfl
        cases h2
        subst h1
        intro hc
        have := hag _ (List.prefix_refl _)
        rw [run_concat, mapRun_concat] at this
        have hnot : ¬ Clean (run p) (.del t key) := not_not.mpr hc
        exact not_agrees_step (sim_run p hclean) hnot this
      · exact hops p t key hp
  · intro hc p hp
    refine (sim_run p fun p' o hp' => ?_).agrees
    cases o with
    | del t key => exact hc p' t key (hp'.trans hp)
    | put => trivial
    | get => trivial
    | git => trivial
    | uni => trivial

/-- Deleting a key that is not there deletes another. -/
theorem del_absent_deletes :
    ¬ ∀ ops : List Op, Agrees (run ops) (mapRun ops) := by
  intro h
  have h1 := (h [.put 0 (.atom 1) (.atom 7), .del 0 (.atom 2)] 0 (.atom 1)).1
  revert h1
  decide

end HashtableMap
end Ursockets
