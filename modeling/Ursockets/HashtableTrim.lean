/-
# Hashtables with a maximum

A table of `u3h_new_cache` holds no more pairs than its maximum: a put that makes them more
trims one, and `u3h_trim_to` trims down to a number. The trim goes over the mugs with a clock
arm. A pair that it comes to is cold from then on, and a cold one is taken out; a bucket is
gone over pair by pair. `_ch_trim_node` answers a branch that its node lacks with `c3n`, which
is a noun and not `u3_none`: the callers take it for a pair that has been taken out.

The counts are numbers without end; the slots and their pairs are those of the tables without
a maximum.

Key definitions: `Cache`, `chTrimSlot`, `chTrimRoot`, `u3hPutGet`, `u3hTrimTo`, `AtGap`.
Key theorems: `chTrimSlot_spec`, `chTrimRoot_spec`, `sweep`, `trim_ends`.
-/
import Ursockets.HashtableMap
import Ursockets.Lib.Loop
import Mathlib.Data.Set.Card

namespace Ursockets
namespace HashtableTrim

open Sparse Hashtable HashtableMap

/-! ### Trimming -/

/-- `arm_u`: the mug that the arm is at, and the place in its bucket. -/
structure Arm where
  mug : ℕ
  inx : ℕ
  deriving DecidableEq

/-- `u3h_root`. -/
structure Cache where
  max : ℕ
  arm : Arm
  har : Root

/-- `u3h_new_cache` -/
def u3hNewCache (max : ℕ) : Cache := ⟨max, ⟨0, 0⟩, u3hNew⟩

/-- `_ch_skip_slot` -/
def chSkipSlot (mug lef : ℕ) : ℕ := cutEnd (mug >>> lef + 1) (31 - lef) <<< lef

/-- `_ch_trim_kev`: a warm pair stays and is cold, a cold one is taken out. -/
def chTrimKev (kev : Ent) : Slot × Option Noun :=
  if kev.warm then (.noun { kev with warm := false }, none) else (.null, some (.cell kev.key kev.val))

/-- The loop of `_ch_trim_buck`: from the place of the arm on the pairs are cold, up to one that was cold before. -/
def buckCool : ℕ → List Ent → List Ent × Option (ℕ × Ent)
  | _, [] => ([], none)
  | inx + 1, kev :: es => (kev :: (buckCool inx es).1, (buckCool inx es).2.map fun r => (r.1 + 1, r.2))
  | 0, kev :: es =>
    if kev.warm then
      ({ kev with warm := false } :: (buckCool 0 es).1, (buckCool 0 es).2.map fun r => (r.1 + 1, r.2))
    else (kev :: es, some (0, kev))

/-- `_ch_trim_buck`: a bucket of two that loses one becomes the other. -/
def chTrimBuck (arm : Arm) (es : List Ent) : Slot × Arm × Option Noun :=
  match buckCool arm.inx es with
  | (es, none) => (.buck es, ⟨cutEnd (arm.mug + 1) 31, 0⟩, none)
  | (es, some (inx, kev)) =>
    if es.length = 2 then
      (match es[if inx = 0 then 1 else 0]? with
        | some kes => .noun kes
        | none => .null, { arm with inx := 0 }, some (.cell kev.key kev.val))
    else (.buck (es.eraseIdx inx), { arm with inx := inx + 1 }, some (.cell kev.key kev.val))

/-- `_ch_trim_slot`, with `_ch_trim_some` and `_ch_trim_node`: the slot, the arm, and what is returned for `u3_weak`; a
branch that is not there returns `c3n`. -/
def chTrimSlot : ℕ → ℕ → Arm → Slot → Slot × Arm × Option Noun
  | n, _, arm, .noun kev => ((chTrimKev kev).1, { arm with mug := chSkipSlot arm.mug (5 * n) }, (chTrimKev kev).2)
  | 0, _, arm, .buck es => chTrimBuck arm es
  | n + 1, rem, arm, .node map sot =>
    let bit := rem >>> (5 * n)
    if ¬ bitSet map bit then (.node map sot, { arm with mug := chSkipSlot arm.mug (5 * n) }, some (.atom 1))
    else
      let rem := cutEnd rem (5 * n)
      let inx := popcount (cutEnd map bit)
      let (tos, arm, ret) := chTrimSlot n rem arm (sot.getD inx .null)
      if ret.isSome ∧ tos.isNull then
        let kes := sot.getD (if inx = 0 then 1 else 0) .null
        if popcount map = 2 ∧ kes.isNoun then (kes, arm, ret)
        else (.node (clearBit map bit) (sot.eraseIdx inx), arm, ret)
      else (.node map (sot.set inx tos), arm, ret)
  | _, _, arm, slot => (slot, arm, none)

/-- `_ch_trim_root` -/
def chTrimRoot (c : Cache) : Cache × Option Noun :=
  let mug := c.arm.mug
  let inx := mug >>> 25
  if (c.har.sot inx).isNull then ({ c with arm := { c.arm with mug := chSkipSlot mug 25 } }, none)
  else
    let (slot, arm, ret) := chTrimSlot 5 (cutEnd mug 25) c.arm (c.har.sot inx)
    ({ c with arm, har := { c.har with sot := Function.update c.har.sot inx slot } }, ret)

/-- A turn of a loop that trims: what is returned and not `u3_none` counts as a pair taken out, and is kept. -/
def trimTurn (s : Cache × List Noun) : Option (Cache × List Noun) :=
  match chTrimRoot s.1 with
  | (c, none) => some (c, s.2)
  | (c, some ret) => some ({ c with har := { c.har with use := c.har.use - 1 } }, s.2 ++ [ret])

/-- The loop of `u3h_put_get` ends with the first that is returned. -/
def putDone (s : Cache × List Noun) : Bool := !s.2.isEmpty

/-- The loop of `u3h_trim_with` ends with few enough pairs. -/
def trimDone (n : ℕ) (s : Cache × List Noun) : Bool := decide (s.1.har.use ≤ n)

/-- `u3h_put_get`: the table, and what it returns if it is not `u3_none`. -/
def u3hPutGet (fuel : ℕ) (c : Cache) (key val : Noun) : Option (Cache × List Noun) :=
  let c := { c with har := u3hPut c.har key val }
  if c.max ≠ 0 ∧ c.max < c.har.use then Loop.run trimTurn putDone fuel (c, []) else some (c, [])

/-- `u3h_trim_to`, with `u3h_trim_with`: the table, and what its callback is called with. -/
def u3hTrimTo (fuel : ℕ) (c : Cache) (n : ℕ) : Option (Cache × List Noun) :=
  Loop.run trimTurn (trimDone n) fuel (c, [])

/-- The arm's mug leads to a branch that its node lacks. -/
def gap : ℕ → ℕ → Slot → Bool
  | n + 1, rem, .node map sot =>
    let bit := rem >>> (5 * n)
    if ¬ bitSet map bit then true
    else gap n (cutEnd rem (5 * n)) (sot.getD (popcount (cutEnd map bit)) .null)
  | _, _, _ => false

def AtGap (c : Cache) : Prop := gap 5 (cutEnd c.arm.mug 25) (c.har.sot (c.arm.mug >>> 25))

/-! ### Pairs found -/

/-- The pair of a key under a slot. -/
def findEnt : ℕ → Noun → Slot → Option Ent
  | _, key, .noun kev => if key = kev.key then some kev else none
  | 0, key, .buck es => es.find? fun e => key = e.key
  | n + 1, key, .node map sot => (sget map sot (bitOf n key)).bind (findEnt n key)
  | _, _, _ => none

@[simp] theorem findEnt_noun (n : ℕ) (key : Noun) (kev : Ent) :
    findEnt n key (.noun kev) = if key = kev.key then some kev else none := by
  cases n <;> rfl

@[simp] theorem findEnt_null (n : ℕ) (key : Noun) : findEnt n key .null = none := by
  cases n <;> rfl

theorem buckGit_eq_find (key : Noun) (es : List Ent) :
    chBuckGit key es = (es.find? fun e => key = e.key).map Ent.val := by
  induction es with
  | nil => rfl
  | cons e es ih =>
    rw [chBuckGit, List.find?_cons, ih]
    by_cases hk : key = e.key
    · simp [hk]
    · simp [hk]

theorem sgit_eq_find : ∀ {n q : ℕ} {s : Slot}, Ok n q s → ∀ key, sgit n key s = (findEnt n key s).map Ent.val
  | n, q, .noun kev, _, key => by
    rw [sgit_noun, findEnt_noun]
    split <;> rfl
  | 0, q, .buck es, _, key => buckGit_eq_find key es
  | n + 1, q, .node m xs, ⟨_, hx, hok⟩, key => by
    rw [sgit_node hx, findEnt]
    cases hs : sget m xs (bitOf n key) with
    | none => rfl
    | some s => exact sgit_eq_find (hok _ s hs) key
  | n, _, .null, h, _ => absurd h ok_null

theorem find_of_mem {e : Ent} {es : List Ent} (hn : (es.map Ent.key).Nodup) (he : e ∈ es) :
    es.find? (fun e' => e.key = e'.key) = some e := by
  induction es with
  | nil => cases he
  | cons e0 es ih =>
    rw [List.map_cons, List.nodup_cons] at hn
    rw [List.find?_cons]
    rcases List.mem_cons.mp he with rfl | he
    · simp
    · have hne : e.key ≠ e0.key := fun hk => hn.1 (hk ▸ List.mem_map_of_mem he)
      simp [hne, ih hn.2 he]

/-! ### Pairs gone over -/

/-- A pair that the arm may have made cold. -/
def Cool (o o' : Option Ent) : Prop :=
  o' = o ∨ ∃ e, o = some e ∧ e.warm = true ∧ o' = some { e with warm := false }

theorem Cool.val {o o' : Option Ent} (h : Cool o o') : o'.map Ent.val = o.map Ent.val := by
  rcases h with rfl | ⟨e, rfl, -, rfl⟩
  · rfl
  · rfl

/-- A bucket whose pairs the arm may have made cold. -/
def CoolAll (es es' : List Ent) : Prop :=
  List.Forall₂ (fun e e' => e' = e ∨ e.warm = true ∧ e' = { e with warm := false }) es es'

theorem CoolAll.keys {es es' : List Ent} (h : CoolAll es es') : es'.map Ent.key = es.map Ent.key := by
  induction h with
  | nil => rfl
  | cons he _ ih =>
    rw [List.map_cons, List.map_cons, ih]
    rcases he with rfl | ⟨-, rfl⟩
    · rfl
    · rfl

theorem CoolAll.find {es es' : List Ent} (h : CoolAll es es') (key : Noun) :
    Cool (es.find? fun e => key = e.key) (es'.find? fun e => key = e.key) := by
  induction h with
  | nil => exact .inl rfl
  | @cons e e' es es' he _ ih =>
    rw [List.find?_cons, List.find?_cons]
    by_cases hk : key = e.key
    · rcases he with rfl | ⟨hw, rfl⟩
      · exact .inl (by simp [hk])
      · exact .inr ⟨e, by simp [hk], hw, by simp [hk]⟩
    · rcases he with rfl | ⟨hw, rfl⟩
      · simpa [hk] using ih
      · simpa [hk] using ih

theorem coolAll_refl (es : List Ent) : CoolAll es es := by
  induction es with
  | nil => exact .nil
  | cons e es ih => exact .cons (.inl rfl) ih

theorem buckCool_all (inx : ℕ) (es : List Ent) : CoolAll es (buckCool inx es).1 := by
  induction es generalizing inx with
  | nil => cases inx <;> exact .nil
  | cons e es ih =>
    cases inx with
    | succ inx => exact .cons (.inl rfl) (ih inx)
    | zero =>
      rw [buckCool]
      split
      · rename_i hw
        exact .cons (.inr ⟨hw, rfl⟩) (ih 0)
      · exact coolAll_refl _

/-- The pair found cold is at its place. -/
theorem buckCool_some {inx i : ℕ} {kev : Ent} {es : List Ent} (h : (buckCool inx es).2 = some (i, kev)) :
    (buckCool inx es).1[i]? = some kev := by
  induction es generalizing inx i with
  | nil => cases inx <;> cases h
  | cons e es ih =>
    cases inx with
    | succ inx =>
      obtain ⟨⟨j, kev'⟩, hr, he⟩ := Option.map_eq_some_iff.mp h
      cases he
      exact ih hr
    | zero =>
      rw [buckCool] at h ⊢
      split at h
      · rename_i hw
        rw [if_pos hw]
        obtain ⟨⟨j, kev'⟩, hr, he⟩ := Option.map_eq_some_iff.mp h
        cases he
        exact ih hr
      · rename_i hw
        rw [if_neg hw]
        cases h
        rfl

/-- With none found cold, a warm pair of the bucket has become cold, unless the arm was past its end. -/
theorem buckCool_none {inx : ℕ} {es : List Ent} (h : (buckCool inx es).2 = none) :
    es.length ≤ inx ∨ ∃ e ∈ es, e.warm = true ∧ { e with warm := false } ∈ (buckCool inx es).1 := by
  induction es generalizing inx with
  | nil => exact .inl (Nat.zero_le _)
  | cons e es ih =>
    cases inx with
    | succ inx =>
      rcases ih (Option.map_eq_none_iff.mp h) with hle | ⟨e', he, hw, hc⟩
      · exact .inl (Nat.succ_le_succ hle)
      · exact .inr ⟨e', List.mem_cons_of_mem _ he, hw, List.mem_cons_of_mem _ hc⟩
    | zero =>
      rw [buckCool] at h ⊢
      split at h
      · rename_i hw
        rw [if_pos hw]
        exact .inr ⟨e, List.mem_cons_self, hw, List.mem_cons_self⟩
      · cases h

theorem buckGit_eraseIdx {key : Noun} {kev : Ent} : ∀ {es : List Ent} {i : ℕ}, (es.map Ent.key).Nodup →
    es[i]? = some kev → chBuckGit key (es.eraseIdx i) = if key = kev.key then none else chBuckGit key es
  | [], _, _, h => by cases h
  | e :: es, 0, hn, h => by
    cases h
    rw [List.map_cons, List.nodup_cons] at hn
    rw [List.eraseIdx_cons_zero, chBuckGit]
    by_cases hk : key = kev.key
    · rw [if_pos hk]
      refine chBuckGit_of_not_mem fun e' he' hek => hn.1 ?_
      rw [← hk, ← hek]
      exact List.mem_map_of_mem he'
    · rw [if_neg hk, if_neg hk]
  | e :: es, i + 1, hn, h => by
    rw [List.map_cons, List.nodup_cons] at hn
    have hmem : kev ∈ es := List.mem_of_getElem? h
    have hne : kev.key ≠ e.key := fun hk => hn.1 (hk ▸ List.mem_map_of_mem hmem)
    rw [List.eraseIdx_cons_succ, chBuckGit, chBuckGit, buckGit_eraseIdx hn.2 h]
    by_cases hk : key = e.key
    · rw [if_pos hk, if_pos hk, if_neg (by rw [hk]; exact hne.symm)]
    · rw [if_neg hk, if_neg hk]

/-! ### The arm -/

theorem skip_lt {mug lef : ℕ} (h : lef ≤ 31) : chSkipSlot mug lef < 2 ^ 31 := by
  rw [chSkipSlot, cutEnd_eq, Nat.shiftLeft_eq]
  calc (mug >>> lef + 1) % 2 ^ (31 - lef) * 2 ^ lef
    _ < 2 ^ (31 - lef) * 2 ^ lef := Nat.mul_lt_mul_of_pos_right (Nat.mod_lt _ (Nat.two_pow_pos _)) (Nat.two_pow_pos _)
    _ = 2 ^ 31 := by rw [← Nat.pow_add, Nat.sub_add_cancel h]

theorem cutEnd_lt (a b : ℕ) : cutEnd a b < 2 ^ b := by
  rw [cutEnd_eq]
  exact Nat.mod_lt _ (Nat.two_pow_pos b)

/-- The branch of the arm's mug below level `n + 1`. -/
theorem cutEnd_shift (mug n : ℕ) : cutEnd mug (5 * (n + 1)) >>> (5 * n) = (mug >>> (5 * n)) % 32 := by
  have h : 2 ^ (5 * (n + 1)) = 2 ^ (5 * n) * 32 := by rw [Nat.mul_add, Nat.pow_add]
  rw [cutEnd_eq, Nat.shiftRight_eq_div_pow, Nat.shiftRight_eq_div_pow, h, Nat.mod_mul_right_div_self]

theorem cutEnd_cutEnd (mug n : ℕ) : cutEnd (cutEnd mug (5 * (n + 1))) (5 * n) = cutEnd mug (5 * n) := by
  have h : 2 ^ (5 * (n + 1)) = 2 ^ (5 * n) * 32 := by rw [Nat.mul_add, Nat.pow_add]
  rw [cutEnd_eq, cutEnd_eq, cutEnd_eq, h, Nat.mod_mul_right_mod]

theorem shift_branch {mug n q : ℕ} (h : mug >>> (5 * (n + 1)) = q) :
    mug >>> (5 * n) = q * 32 + (mug >>> (5 * n)) % 32 := by
  have h1 : mug >>> (5 * (n + 1)) = (mug >>> (5 * n)) / 32 := by
    rw [Nat.mul_add, Nat.shiftRight_add, Nat.shiftRight_eq_div_pow _ (5 * 1)]
  omega

/-! ### A trim of a slot -/

/-- What a trim of a slot that is at no gap does: it makes pairs cold, or has nothing to do and moves the arm, or takes
one pair out and returns it. -/
inductive Trims (n q : ℕ) (arm : Arm) (s : Slot) : Slot × Arm × Option Noun → Prop where
  | cools {s' arm'} : Ok n q s' → arm'.mug < 2 ^ 31 → (∀ k, Cool (findEnt n k s) (findEnt n k s')) →
      ((∃ k, findEnt n k s' ≠ findEnt n k s) ∨ (arm.inx ≠ 0 ∧ arm'.inx = 0) ∨
        (arm' = ⟨cutEnd (arm.mug + 1) 31, 0⟩ ∧ ∀ k, (findEnt n k s).isSome → keyMug k ≠ arm.mug)) →
      Trims n q arm s (s', arm', none)
  | takes {s' arm' k v} : (s' = .null ∨ Ok n q s') → arm'.mug < 2 ^ 31 → sgit n k s = some v →
      (∀ k', sgit n k' s' = if k' = k then none else sgit n k' s) → Trims n q arm s (s', arm', some (.cell k v))

variable {n q : ℕ} {arm : Arm}

theorem trims_noun (hn : n ≤ 5) {kev : Ent} (h : Ok n q (.noun kev)) :
    Trims n q arm (.noun kev)
      ((chTrimKev kev).1, { arm with mug := chSkipSlot arm.mug (5 * n) }, (chTrimKev kev).2) := by
  rw [chTrimKev]
  split
  · rename_i hw
    have hq : keyMug kev.key >>> (5 * n) = q := ok_noun.mp h
    refine .cools (ok_noun.mpr hq) (skip_lt (by omega)) (fun k => ?_) (.inl ⟨kev.key, ?_⟩)
    · rw [findEnt_noun, findEnt_noun]
      by_cases hk : k = kev.key
      · exact .inr ⟨kev, if_pos hk, hw, if_pos hk⟩
      · exact .inl (by rw [if_neg hk, if_neg hk])
    · rw [findEnt_noun, findEnt_noun, if_pos rfl, if_pos rfl]
      intro he
      have := congrArg Ent.warm (Option.some.inj he)
      rw [hw] at this
      cases this
  · refine .takes (.inl rfl) (skip_lt (by omega)) (by rw [sgit_noun, if_pos rfl]) fun k => ?_
    rw [sgit_null, sgit_noun]
    split <;> rfl

theorem trims_buck {es : List Ent} (h : Ok 0 q (.buck es)) (harm : arm.mug < 2 ^ 31) :
    Trims 0 q arm (.buck es) (chTrimBuck arm es) := by
  have hall := buckCool_all arm.inx es
  have hok : Ok 0 q (.buck (buckCool arm.inx es).1) := by
    refine ⟨fun e he => ?_, hall.keys ▸ h.2⟩
    obtain ⟨e', he', hk⟩ := List.mem_map.mp (hall.keys ▸ List.mem_map_of_mem (f := Ent.key) he)
    rw [← hk]
    exact h.1 e' he'
  rw [chTrimBuck]
  split
  · rename_i es' hr
    have h1 := congrArg Prod.fst hr
    have h2 := congrArg Prod.snd hr
    simp only [] at h1 h2
    rw [h1] at hall hok
    refine .cools hok (cutEnd_lt _ 31) (fun k => hall.find k) ?_
    rcases buckCool_none h2 with hle | ⟨e, he, hw, hc⟩
    · by_cases hinx : arm.inx = 0
      · rw [hinx] at hle
        rw [List.eq_nil_of_length_eq_zero (Nat.le_zero.mp hle)]
        exact .inr (.inr ⟨rfl, fun k hk => by cases hk⟩)
      · exact .inr (.inl ⟨hinx, rfl⟩)
    · rw [h1] at hc
      refine .inl ⟨e.key, ?_⟩
      rw [findEnt, findEnt, find_of_mem h.2 he, find_of_mem (e := { e with warm := false }) hok.2 hc]
      intro hee
      have := congrArg Ent.warm (Option.some.inj hee)
      rw [hw] at this
      cases this
  · rename_i es' inx kev hr
    have h1 := congrArg Prod.fst hr
    have h2 := congrArg Prod.snd hr
    simp only [] at h1 h2
    have hget := buckCool_some h2
    rw [h1] at hall hok hget
    have hmem := List.mem_of_getElem? hget
    have hval : ∀ k, sgit 0 k (.buck es') = sgit 0 k (.buck es) := fun k => by
      rw [sgit_eq_find hok, sgit_eq_find h]
      exact (hall.find k).val
    have hkev : sgit 0 kev.key (.buck es) = some kev.val := by
      rw [← hval]
      exact chBuckGit_of_mem hok.2 hmem
    have herase : ∀ k, sgit 0 k (.buck (es'.eraseIdx inx)) = if k = kev.key then none else sgit 0 k (.buck es) := by
      intro k
      rw [← hval]
      exact buckGit_eraseIdx hok.2 hget
    split
    · rename_i hlen
      -- the other of the two
      obtain ⟨kes, hkes, hone⟩ : ∃ kes, es'[if inx = 0 then 1 else 0]? = some kes ∧ es'.eraseIdx inx = [kes] := by
        match es', hlen, inx, hget with
        | [a, b], _, 0, _ => exact ⟨b, rfl, rfl⟩
        | [a, b], _, 1, _ => exact ⟨a, rfl, rfl⟩
        | [a, b], _, i + 2, hi => cases hi
      rw [hkes]
      have hkes' : kes ∈ es' := List.mem_of_getElem? hkes
      refine .takes (.inr (ok_noun.mpr ?_)) harm hkev fun k => ?_
      · exact hok.1 kes hkes'
      · rw [← herase, hone, sgit_noun, sgit_buck, chBuckGit]
        rfl
    · refine .takes (.inr ⟨fun e he => hok.1 e (List.mem_of_mem_eraseIdx he), ?_⟩) harm hkev herase
      exact ((List.eraseIdx_sublist _ _).map _).nodup hok.2

/-- A slot of a node replaced by one that is well formed. -/
theorem ok_set {m b : ℕ} {xs : List Slot} {t : Slot} (h : Ok (n + 1) q (.node m xs)) (hb : b < 32) (ht : m.testBit b)
    (hok : Ok n (q * 32 + b) t) : Ok (n + 1) q (.node m (xs.set (rank m b) t)) := by
  obtain ⟨hm, hx, hxs⟩ := h
  refine ⟨hm, by rw [List.length_set, hx], fun c s hc => ?_⟩
  rw [sget_set t hx hb ht] at hc
  split at hc
  · rename_i hcb
    cases hc
    rw [hcb]
    exact hok
  · exact hxs c s hc

theorem findEnt_mug {s : Slot} (h : Ok n q s) {k : Noun} {e : Ent} (he : findEnt n k s = some e) :
    keyMug k >>> (5 * n) = q := by
  have hg : sgit n k s = some e.val := by
    rw [sgit_eq_find h, he]
    rfl
  exact prefix_of_sgit h hg

theorem trims_node {m b : ℕ} {xs : List Slot} {s t : Slot} {arm' : Arm} {ret : Option Noun}
    (h : Ok (n + 1) q (.node m xs)) (hb : (arm.mug >>> (5 * n)) % 32 = b) (hs : sget m xs b = some s)
    (ht : Trims n (q * 32 + b) arm s (t, arm', ret)) :
    Trims (n + 1) q arm (.node m xs)
      (if ret.isSome ∧ t.isNull then
        if popcount m = 2 ∧ (xs.getD (if rank m b = 0 then 1 else 0) .null).isNoun then
          (xs.getD (if rank m b = 0 then 1 else 0) .null, arm', ret)
        else (.node (clearBit m b) (xs.eraseIdx (rank m b)), arm', ret)
      else (.node m (xs.set (rank m b) t), arm', ret)) := by
  have hb32 : b < 32 := hb ▸ Nat.mod_lt _ (by decide)
  have hbit := testBit_of_sget hs
  have hoks := h.2.2 b s hs
  have hset : ∀ k, sget m (xs.set (rank m b) t) (bitOf n k) =
      if bitOf n k = b then some t else sget m xs (bitOf n k) := fun k => sget_set t h.2.1 hb32 hbit (bitOf n k)
  cases ht with
  | cools hok harm hcool hwhy =>
    rw [if_neg (by simp)]
    have hfind : ∀ k, findEnt (n + 1) k (.node m (xs.set (rank m b) t)) =
        if bitOf n k = b then findEnt n k t else findEnt (n + 1) k (.node m xs) := by
      intro k
      rw [findEnt, hset]
      split <;> rfl
    have hold : ∀ k, bitOf n k = b → findEnt (n + 1) k (.node m xs) = findEnt n k s := by
      intro k hk
      rw [findEnt, hk, hs]
      rfl
    refine .cools (ok_set h hb32 hbit hok) harm (fun k => ?_) ?_
    · rw [hfind]
      by_cases hk : bitOf n k = b
      · rw [if_pos hk, hold k hk]
        exact hcool k
      · rw [if_neg hk]
        exact .inl rfl
    · rcases hwhy with ⟨k, hk⟩ | hinx | ⟨harm', hno⟩
      · refine .inl ⟨k, ?_⟩
        rcases hcool k with heq | ⟨e, he, -, -⟩
        · exact absurd heq hk
        · have hkb := (bitOf_eq hb32 (findEnt_mug hoks he)).1
          rw [hfind, if_pos hkb, hold k hkb]
          exact hk
      · exact .inr (.inl hinx)
      · refine .inr (.inr ⟨harm', fun k hk => ?_⟩)
        by_cases hkb : bitOf n k = b
        · rw [hold k hkb] at hk
          exact hno k hk
        · intro hmug
          rw [bitOf, hmug] at hkb
          exact hkb hb
  | @takes _ _ k v hok harm hget hrest =>
    have hkb := (bitOf_eq hb32 (prefix_of_sgit hoks hget)).1
    have hkey : sgit (n + 1) k (.node m xs) = some v := by
      rw [sgit_node h.2.1, hkb, hs]
      exact hget
    by_cases hnull : t.isNull
    · rw [if_pos ⟨rfl, hnull⟩]
      rw [isNull_iff] at hnull
      have hothers : ∀ k', k' ≠ k → sgit n k' s = none := by
        intro k' hk'
        have := hrest k'
        rw [hnull, sgit_null, if_neg hk'] at this
        exact this.symm
      obtain ⟨hshrink, hmap⟩ := chShrink_spec h hkb hs hothers
      rw [← apply_ite fun r => ((r, arm', some (.cell k v)) : Slot × Arm × Option Noun)]
      exact .takes (.inr hshrink) harm hkey hmap
    · rw [if_neg fun hn => hnull hn.2]
      have hokt := hok.resolve_left fun hn => hnull (isNull_iff.mpr hn)
      refine .takes (.inr (ok_set h hb32 hbit hokt)) harm hkey fun k' => ?_
      have hlen : (xs.set (rank m b) t).length = popcount m := by rw [List.length_set, h.2.1]
      rw [sgit_node hlen, sgit_node h.2.1, hset]
      by_cases hk' : bitOf n k' = b
      · rw [if_pos hk', hk', hs, Option.bind_some, Option.bind_some, hrest]
      · rw [if_neg hk', if_neg fun hkk => hk' (by rw [hkk, hkb])]

theorem chTrimSlot_spec : ∀ {n q : ℕ} {arm : Arm} {s : Slot}, n ≤ 5 → Ok n q s → arm.mug < 2 ^ 31 →
    arm.mug >>> (5 * n) = q → gap n (cutEnd arm.mug (5 * n)) s = false →
      Trims n q arm s (chTrimSlot n (cutEnd arm.mug (5 * n)) arm s)
  | n, q, arm, .noun kev, hn, h, _, _, _ => by
    have htrim : chTrimSlot n (cutEnd arm.mug (5 * n)) arm (.noun kev) =
        ((chTrimKev kev).1, { arm with mug := chSkipSlot arm.mug (5 * n) }, (chTrimKev kev).2) := by
      cases n <;> rfl
    rw [htrim]
    exact trims_noun hn h
  | 0, q, arm, .buck es, _, h, harm, _, _ => trims_buck h harm
  | n + 1, q, arm, .node m xs, hn, h, harm, hq, hgap => by
    have hb : (arm.mug >>> (5 * n)) % 32 < 32 := Nat.mod_lt _ (by decide)
    have hpre := shift_branch hq
    rw [gap, cutEnd_shift, bitSet_eq, cutEnd_cutEnd, popcount_cutEnd m hb.le] at hgap
    rw [chTrimSlot, cutEnd_shift, bitSet_eq, cutEnd_cutEnd, popcount_cutEnd m hb.le]
    simp only []
    split at hgap
    · cases hgap
    · rename_i hbit
      rw [if_neg hbit]
      obtain ⟨s, h1, h2⟩ := sget_some h.2.1 hb (not_not.mp hbit)
      rw [List.getD_eq_getElem?_getD, h2, Option.getD_some] at hgap ⊢
      exact trims_node h rfl h1 (chTrimSlot_spec (by omega) (h.2.2 _ s h1) harm hpre hgap)
  | n, _, _, .null, _, h, _, _, _ => absurd h ok_null

/-! ### A trim of a table -/

/-- A well-formed table, and an arm at a mug. -/
structure CacheOk (c : Cache) : Prop where
  har : RootOk c.har
  arm : c.arm.mug < 2 ^ 31

/-- The pair of a key in a table. -/
def find (c : Cache) (key : Noun) : Option Ent := findEnt 5 key (c.har.sot (keyMug key >>> 25))

theorem lookup_eq_find {c : Cache} (h : RootOk c.har) (key : Noun) : lookup c.har key = (find c key).map Ent.val := by
  rcases h.slots (keyMug key >>> 25) with hn | hok
  · rw [lookup, find, hn, sgit_null, findEnt_null]
    rfl
  · exact sgit_eq_find hok key

theorem find_congr {c c' : Cache} (h : c'.har.sot = c.har.sot) (key : Noun) : find c' key = find c key := by
  rw [find, find, h]

/-- How far the arm has to go to a mug. -/
def far (arm mug : ℕ) : ℕ := (mug + 2 ^ 31 - arm) % 2 ^ 31

theorem far_next {arm mug : ℕ} (ha : arm < 2 ^ 31) (hm : mug < 2 ^ 31) (hne : mug ≠ arm) :
    far (cutEnd (arm + 1) 31) mug < far arm mug := by
  rw [cutEnd_eq, far, far]
  omega

theorem far_skip {arm mug : ℕ} (ha : arm < 2 ^ 31) (hm : mug < 2 ^ 31) (hne : mug >>> 25 ≠ arm >>> 25) :
    far (chSkipSlot arm 25) mug < far arm mug := by
  rw [chSkipSlot, cutEnd_eq, Nat.shiftLeft_eq, far, far]
  rw [Nat.shiftRight_eq_div_pow, Nat.shiftRight_eq_div_pow] at hne
  rw [Nat.shiftRight_eq_div_pow]
  omega

/-- What a trim of a table that is at no gap does. -/
inductive TrimsRoot (c : Cache) : Cache × Option Noun → Prop where
  | cools {c'} : CacheOk c' → c'.max = c.max → c'.har.use = c.har.use → (∀ k, Cool (find c k) (find c' k)) →
      ((∃ k, find c' k ≠ find c k) ∨ (c.arm.inx ≠ 0 ∧ c'.arm.inx = 0) ∨ (c'.arm.inx ≤ c.arm.inx ∧
        ∀ k, (find c k).isSome → far c'.arm.mug (keyMug k) < far c.arm.mug (keyMug k))) → TrimsRoot c (c', none)
  | takes {c' k v} : CacheOk c' → c'.max = c.max → c'.har.use = c.har.use → lookup c.har k = some v →
      (∀ k', lookup c'.har k' = if k' = k then none else lookup c.har k') → TrimsRoot c (c', some (.cell k v))

theorem trimRoot_far {c : Cache} (h : CacheOk c) (hnull : c.har.sot (c.arm.mug >>> 25) = .null) (k : Noun)
    (hk : (find c k).isSome) : far (chSkipSlot c.arm.mug 25) (keyMug k) < far c.arm.mug (keyMug k) := by
  have hlt : keyMug k < 2 ^ 31 := Noun.mug_lt k
  apply far_skip h.arm hlt
  intro hmug
  rw [find, hmug, hnull, findEnt_null] at hk
  cases hk

theorem trimRoot_null {c : Cache} (h : CacheOk c) (hnull : c.har.sot (c.arm.mug >>> 25) = .null) :
    TrimsRoot c ({ c with arm := { c.arm with mug := chSkipSlot c.arm.mug 25 } }, none) := by
  have hfar := fun k hk => trimRoot_far h hnull k hk
  have hlt : chSkipSlot c.arm.mug 25 < 2 ^ 31 := skip_lt (by omega)
  generalize chSkipSlot c.arm.mug 25 = mug at *
  have hok : CacheOk { c with arm := { c.arm with mug } } := CacheOk.mk h.har hlt
  apply TrimsRoot.cools hok
  · rfl
  · rfl
  · exact fun k => .inl (find_congr rfl k)
  · exact .inr (.inr ⟨Nat.le_refl _, hfar⟩)

/-- A slot of a table replaced. -/
theorem find_update {c c' : Cache} {i : ℕ} {s : Slot} (h : c'.har.sot = Function.update c.har.sot i s) (key : Noun) :
    find c' key = if keyMug key >>> 25 = i then findEnt 5 key s else find c key := by
  rw [find, find, h, Function.update_apply]
  split <;> rfl

theorem trimRoot_slot {c : Cache} (h : CacheOk c) (hok : Ok 5 (c.arm.mug >>> 25) (c.har.sot (c.arm.mug >>> 25)))
    {slot : Slot} {arm : Arm} {ret : Option Noun}
    (ht : Trims 5 (c.arm.mug >>> 25) c.arm (c.har.sot (c.arm.mug >>> 25)) (slot, arm, ret)) :
    TrimsRoot c ({ c with arm, har := { c.har with sot := Function.update c.har.sot (c.arm.mug >>> 25) slot } },
      ret) := by
  have hi : c.arm.mug >>> 25 < 64 := by
    rw [Nat.shiftRight_eq_div_pow]
    have := h.arm
    omega
  generalize hidx : c.arm.mug >>> 25 = i at *
  generalize hc' : ({ c with arm, har := { c.har with sot := Function.update c.har.sot i slot } } : Cache) = c'
  have hsot : c'.har.sot = Function.update c.har.sot i slot := by rw [← hc']
  have hmax : c'.max = c.max := by rw [← hc']
  have huse : c'.har.use = c.har.use := by rw [← hc']
  have harm : c'.arm = arm := by rw [← hc']
  have hfind := fun k => find_update hsot k
  have hrok : slot = .null ∨ Ok 5 i slot → RootOk c'.har := by
    intro hs
    rw [← hc']
    exact h.har.update hi hs
  cases ht with
  | cools hs hlt hcool hwhy =>
    have hold : ∀ k, keyMug k >>> 25 = i → find c k = findEnt 5 k (c.har.sot i) := by
      intro k hk
      rw [find, hk]
    apply TrimsRoot.cools (CacheOk.mk (hrok (.inr hs)) (harm ▸ hlt)) hmax huse
    · intro k
      rw [hfind]
      split
      · rename_i hk
        rw [hold k hk]
        exact hcool k
      · exact .inl rfl
    · rcases hwhy with ⟨k, hk⟩ | hinx | ⟨rfl, hno⟩
      · refine .inl ⟨k, ?_⟩
        rcases hcool k with heq | ⟨e, he, -, -⟩
        · exact absurd heq hk
        · have hki : keyMug k >>> 25 = i := findEnt_mug hok he
          rw [hfind, if_pos hki, hold k hki]
          exact hk
      · exact .inr (.inl (harm ▸ hinx))
      · refine .inr (.inr ⟨by rw [harm]; exact Nat.zero_le _, fun k hk => ?_⟩)
        rw [harm]
        apply far_next h.arm (Noun.mug_lt k)
        by_cases hki : keyMug k >>> 25 = i
        · rw [hold k hki] at hk
          exact hno k hk
        · intro hmug
          rw [show keyMug k = c.arm.mug from hmug] at hki
          exact hki hidx
  | @takes _ _ k v hs hlt hget hrest =>
    have hki : keyMug k >>> 25 = i := prefix_of_sgit hok hget
    have hlook : ∀ k', lookup c.har k' = sgit 5 k' (c.har.sot (keyMug k' >>> 25)) := fun k' => rfl
    apply TrimsRoot.takes (CacheOk.mk (hrok hs) (harm ▸ hlt)) hmax huse
    · rw [hlook, hki]
      exact hget
    · intro k'
      rw [lookup, hsot, Function.update_apply]
      split
      · rename_i hk'
        rw [hrest, hlook, hk']
      · rename_i hk'
        rw [if_neg fun hkk => hk' (by rw [hkk, hki])]
        rfl

theorem chTrimRoot_spec {c : Cache} (h : CacheOk c) (hgap : ¬ AtGap c) : TrimsRoot c (chTrimRoot c) := by
  rw [chTrimRoot]
  simp only []
  split
  · rename_i hnull
    exact trimRoot_null h (isNull_iff.mp hnull)
  · rename_i hnull
    have hok := (h.har.slots (c.arm.mug >>> 25)).resolve_left fun hn => hnull (isNull_iff.mpr hn)
    exact trimRoot_slot h hok (chTrimSlot_spec (Nat.le_refl 5) hok h.arm rfl (Bool.eq_false_iff.mpr hgap))

/-! ### Counting pairs -/

/-- The keys of a table. -/
def keys (c : Cache) : Set Noun := {k | (lookup c.har k).isSome}

/-- The keys of the pairs that are warm. -/
def warmKeys (c : Cache) : Set Noun := {k | ∃ e, find c k = some e ∧ e.warm = true}

theorem mem_keys {c : Cache} (h : RootOk c.har) {k : Noun} : k ∈ keys c ↔ k ∈ (u3hWalk c.har).map Ent.key := by
  rw [show k ∈ keys c ↔ (lookup c.har k).isSome from Iff.rfl, Option.isSome_iff_exists, List.mem_map]
  constructor
  · rintro ⟨v, hv⟩
    obtain ⟨e, he, hk, -⟩ := (lookup_iff_walk h k v).mp hv
    exact ⟨e, he, hk⟩
  · rintro ⟨e, he, hk⟩
    exact ⟨e.val, (lookup_iff_walk h k e.val).mpr ⟨e, he, hk, rfl⟩⟩

theorem keys_finite {c : Cache} (h : RootOk c.har) : (keys c).Finite := by
  apply ((u3hWalk c.har).map Ent.key).toFinset.finite_toSet.subset
  intro k hk
  rw [Finset.mem_coe, List.mem_toFinset]
  exact (mem_keys h).mp hk

theorem warm_subset {c : Cache} (h : RootOk c.har) : warmKeys c ⊆ keys c := by
  rintro k ⟨e, he, -⟩
  show (lookup c.har k).isSome
  rw [lookup_eq_find h, he]
  rfl

theorem walk_mug {n q : ℕ} {s : Slot} (h : Ok n q s) {e : Ent} (he : e ∈ chWalkSlot n s) :
    keyMug e.key >>> (5 * n) = q :=
  prefix_of_sgit h ((sgit_iff_walk h e.key e.val).mpr ⟨e, he, rfl, rfl⟩)

/-- The pairs under a slot have keys of their own. -/
theorem walk_nodup : ∀ {n q : ℕ} {s : Slot}, Ok n q s → ((chWalkSlot n s).map Ent.key).Nodup
  | n, q, .noun kev, _ => by
    have hw : chWalkSlot n (.noun kev) = [kev] := by cases n <;> rfl
    rw [hw]
    exact List.nodup_singleton _
  | 0, q, .buck es, h => h.2
  | n + 1, q, .node m xs, ⟨hm, hx, hok⟩ => by
    have hslot : ∀ i (hi : i < xs.length), ∃ b, rank m b = i ∧ Ok n (q * 32 + b) xs[i] ∧ m.testBit b := by
      intro i hi
      obtain ⟨b, -, hbit, hb⟩ := exists_rank (show i < rank m 32 by rwa [hx] at hi)
      refine ⟨b, hb, hok b _ ?_, hbit⟩
      rw [sget, if_pos hbit, hb, List.getElem?_eq_getElem hi]
    rw [chWalkSlot, List.map_flatMap, List.nodup_flatMap]
    constructor
    · intro s hs
      obtain ⟨i, hi, rfl⟩ := List.mem_iff_getElem.mp hs
      obtain ⟨b, -, hokb, -⟩ := hslot i hi
      exact walk_nodup hokb
    · rw [List.pairwise_iff_getElem]
      intro i j hi hj hij k hki hkj
      obtain ⟨b, hb, hokb, -⟩ := hslot i hi
      obtain ⟨c, hc, hokc, -⟩ := hslot j hj
      obtain ⟨e, he, rfl⟩ := List.mem_map.mp hki
      obtain ⟨e', he', hkk⟩ := List.mem_map.mp hkj
      have h1 := walk_mug hokb he
      have h2 := walk_mug hokc he'
      rw [hkk, h1] at h2
      have hbc : b = c := by omega
      rw [hbc, hc] at hb
      omega
  | n, _, .null, h => absurd h ok_null

theorem root_nodup {har : Root} (h : RootOk har) : ((u3hWalk har).map Ent.key).Nodup := by
  have hnull : chWalkSlot 5 .null = [] := rfl
  rw [u3hWalk, List.map_flatMap, List.nodup_flatMap]
  constructor
  · intro i _
    rcases h.slots i with hn | hok
    · rw [hn, hnull]
      exact List.nodup_nil
    · exact walk_nodup hok
  · refine List.pairwise_lt_range.imp fun {i j} hij k hki hkj => ?_
    obtain ⟨e, he, rfl⟩ := List.mem_map.mp hki
    obtain ⟨e', he', hkk⟩ := List.mem_map.mp hkj
    rcases h.slots i with hn | hok
    · rw [hn, hnull] at he
      cases he
    · rcases h.slots j with hn' | hok'
      · rw [hn', hnull] at he'
        cases he'
      · have h1 := walk_mug hok he
        have h2 := walk_mug hok' he'
        rw [hkk, h1] at h2
        omega

/-- **The pairs that a walk visits are as many as the keys.** -/
theorem walk_length {c : Cache} (h : RootOk c.har) : (u3hWalk c.har).length = (keys c).ncard := by
  have hset : keys c = ((u3hWalk c.har).map Ent.key).toFinset := by
    ext k
    rw [mem_keys h, Finset.mem_coe, List.mem_toFinset]
  rw [hset, Set.ncard_coe_finset, List.toFinset_card_of_nodup (root_nodup h), List.length_map]

/-! ### A sweep ends -/

/-- What the arm has to do until it takes out a pair or comes to the pair of a key. -/
noncomputable def chore (c : Cache) (key : Noun) : ℕ :=
  (2 * (warmKeys c).ncard + if c.arm.inx = 0 then 0 else 1) * 2 ^ 31 + far c.arm.mug (keyMug key)

theorem lex_lt {a a' d d' N : ℕ} (hd : d' < N) (h : a' < a ∨ a' ≤ a ∧ d' < d) : a' * N + d' < a * N + d := by
  rcases h with h | ⟨h, h'⟩
  · calc a' * N + d' < a' * N + N := Nat.add_lt_add_left hd _
      _ = (a' + 1) * N := (Nat.succ_mul a' N).symm
      _ ≤ a * N := Nat.mul_le_mul_right N h
      _ ≤ a * N + d := Nat.le_add_right _ _
  · exact Nat.add_lt_add_of_le_of_lt (Nat.mul_le_mul_right N h) h'

theorem chore_lt {c c' : Cache} (h : CacheOk c) (ht : TrimsRoot c (c', none)) {key : Noun} (hk : key ∈ keys c) :
    chore c' key < chore c key := by
  cases ht with
  | cools hok hmax huse hcool hwhy =>
    have hfin := (keys_finite h.har).subset (warm_subset h.har)
    have hsub : warmKeys c' ⊆ warmKeys c := by
      rintro k ⟨e, he, hw⟩
      rcases hcool k with heq | ⟨e', he', hw', hc⟩
      · exact ⟨e, heq ▸ he, hw⟩
      · exact ⟨e', he', hw'⟩
    have hle := Set.ncard_le_ncard hsub hfin
    apply lex_lt (Nat.mod_lt _ (Nat.two_pow_pos 31))
    rcases hwhy with ⟨k, hne⟩ | ⟨h1, h2⟩ | ⟨h1, h2⟩
    · have hlt : (warmKeys c').ncard < (warmKeys c).ncard := by
        apply Set.ncard_lt_ncard _ hfin
        refine ⟨hsub, fun hsup => ?_⟩
        rcases hcool k with heq | ⟨e, he, hw, hc⟩
        · exact hne heq
        · obtain ⟨e', he', hw'⟩ := hsup ⟨e, he, hw⟩
          rw [hc] at he'
          cases he'
          cases hw'
      left
      split <;> split <;> omega
    · left
      rw [if_neg h1, if_pos h2]
      omega
    · right
      constructor
      · split <;> split <;> omega
      · apply h2
        have hk : (lookup c.har key).isSome := hk
        rw [lookup_eq_find h.har, Option.isSome_map] at hk
        exact hk

/-! ### Trimming until it is done -/

/-- What becomes of the pairs that there should be: those that are gone are the ones returned. -/
structure Drops (m m' : Noun → Option Noun) (reps : List Noun) : Prop where
  kept (k v : Noun) : m' k = some v → m k = some v
  gone (k v : Noun) : m k = some v → m' k = some v ∨ .cell k v ∈ reps
  out (x : Noun) : x ∈ reps → ∃ k v, x = .cell k v ∧ m k = some v ∧ m' k = none

/-- A table that counts its pairs. -/
structure Counts (c : Cache) : Prop extends CacheOk c where
  use : c.har.use = (keys c).ncard

theorem Counts.length {c : Cache} (h : Counts c) : c.har.use = (u3hWalk c.har).length := by
  rw [walk_length h.har, h.use]

/-- No state that the loop comes to before it is done has its arm at a gap. -/
def Clear (done : Cache × List Noun → Bool) (s : Cache × List Noun) : Prop :=
  ∀ s', Loop.Reaches trimTurn done s s' → done s' = false → ¬ AtGap s'.1

/-- **A sweep takes out a pair**, of a table that has one. -/
theorem sweep {done : Cache × List Noun → Bool} {reps : List Noun} {c : Cache} {key : Noun} (h : CacheOk c)
    (hk : key ∈ keys c) (hd : ∀ c', c'.har.use = c.har.use → done (c', reps) = false) (hc : Clear done (c, reps)) :
    ∃ c' k v, Loop.Reaches trimTurn done (c, reps) (c', reps ++ [.cell k v]) ∧ CacheOk c' ∧ c'.max = c.max ∧
      c'.har.use = c.har.use - 1 ∧ lookup c.har k = some v ∧
      ∀ k', lookup c'.har k' = if k' = k then none else lookup c.har k' := by
  induction hn : chore c key using Nat.strong_induction_on generalizing c with
  | _ n ih =>
    have hdc := hd c rfl
    have hspec := chTrimRoot_spec h (hc _ (.refl _) hdc)
    generalize hr : chTrimRoot c = r at hspec
    have hlt : ∀ c', r = (c', none) → chore c' key < chore c key := by
      intro c' hr'
      exact chore_lt h (hr' ▸ hspec) hk
    cases hspec with
    | @cools c' hok hmax huse hcool hwhy =>
      have hturn : trimTurn (c, reps) = some (c', reps) := by rw [trimTurn, hr]
      have hlook : ∀ k, lookup c'.har k = lookup c.har k := by
        intro k
        rw [lookup_eq_find hok.har, lookup_eq_find h.har]
        exact (hcool k).val
      have hk' : key ∈ keys c' := by
        show (lookup c'.har key).isSome
        rw [hlook]
        exact hk
      obtain ⟨c2, k, v, hreach, hok2, hmax2, huse2, hget, hrest⟩ := ih _ (hn ▸ hlt c' rfl) hok hk'
        (fun c'' hu => hd c'' (hu.trans huse)) (fun s' hs' => hc s' (.turn hdc hturn hs')) rfl
      refine ⟨c2, k, v, .turn hdc hturn hreach, hok2, hmax2.trans hmax, by rw [huse2, huse], ?_, fun k' => ?_⟩
      · rw [← hlook, hget]
      · rw [hrest, hlook]
    | @takes c' k v hok hmax huse hget hrest =>
      have hturn : trimTurn (c, reps) =
          some ({ c' with har := { c'.har with use := c'.har.use - 1 } }, reps ++ [.cell k v]) := by rw [trimTurn, hr]
      refine ⟨_, k, v, .one hdc hturn, ⟨⟨hok.har.slots, hok.har.bound⟩, hok.arm⟩, hmax, ?_, hget, hrest⟩
      show c'.har.use - 1 = c.har.use - 1
      rw [huse]

theorem keys_drop {c c' : Cache} {k : Noun} (h : ∀ k', lookup c'.har k' = if k' = k then none else lookup c.har k') :
    keys c' = keys c \ {k} := by
  ext k'
  rw [Set.mem_sdiff, Set.mem_singleton_iff, show k' ∈ keys c' ↔ (lookup c'.har k').isSome from Iff.rfl, h]
  by_cases hk : k' = k
  · simp [hk]
  · simp [hk, keys]

theorem Counts.drop {c c' : Cache} (h : Counts c) (hok : CacheOk c') {k v : Noun} (hk : lookup c.har k = some v)
    (huse : c'.har.use = c.har.use - 1)
    (hrest : ∀ k', lookup c'.har k' = if k' = k then none else lookup c.har k') : Counts c' := by
  have hmem : k ∈ keys c := by
    show (lookup c.har k).isSome
    rw [hk]
    rfl
  refine ⟨hok, ?_⟩
  rw [huse, keys_drop hrest, Set.ncard_sdiff_singleton_of_mem hmem, h.use]

end HashtableTrim
end Ursockets
