/-
# What the builder builds

The builder joins two subtrees of a height whenever both are complete, and at the
end it joins those that the last leaf leaves. The right one of two subtrees of height `h`
that are joined to begin with leaf 0 goes to the proof, at `h + 1`; other two, joined
to subtree `j`, go to the pairs, `2 ^ h` before the leaf they begin with.

Key definitions: `Known`, `Keeps`, `Shape`.
Key theorems: `merge_spec`, `ingest_spec`, `finalize_spec`, `build_spec`.
-/
import Ursockets.Lib.Merkle
import Ursockets.Lss

namespace Ursockets
namespace Lss

open Bits Merkle

variable {H : Type} (X : Hasher H) (g : ℕ → H) (n : ℕ)

/-- The builder has the two subtrees of height `h` that subtree `j` of height `h + 1` joins. -/
def Known (b : Builder H) (h j : ℕ) : Prop :=
  if j = 0 then b.proof[h + 1]? = some (node X.parentHash g n h 1) ∧ (h = 0 → b.proof[0]? = some (g 0))
  else b.pairs[j * 2 ^ (h + 1) - 2 ^ h]? =
    some (node X.parentHash g n h (2 * j), node X.parentHash g n h (2 * j + 1))

/-- What one builder has the other has too. -/
def Keeps (b b' : Builder H) : Prop := ∀ h j, h < 32 → Known X g n b h j → Known X g n b' h j

/-- A builder of `n` leaves that has taken `c`. -/
structure Shape (b : Builder H) (c : ℕ) : Prop where
  trees : b.trees.length = 32
  leaves : b.leaves = n
  counter : b.counter = c
  proof : b.proof.length = proofSize n
  pairs : b.pairs.length = n

variable {X g n}

theorem Keeps.refl (b : Builder H) : Keeps X g n b b := fun _ _ _ h => h

theorem Keeps.trans {b b' b'' : Builder H} (h : Keeps X g n b b') (h' : Keeps X g n b' b'') : Keeps X g n b b'' :=
  fun t j ht hk => h' t j ht (h t j ht hk)

/-! ### Joining two subtrees -/

/-- Where a pair is kept. -/
theorem pair_place {j h : ℕ} (hj : j ≠ 0) : j * 2 ^ (h + 1) - 2 ^ h = (2 * (j - 1) + 1) * 2 ^ h := by
  obtain ⟨m, rfl⟩ := Nat.exists_eq_succ_of_ne_zero hj
  have h1 : (m + 1) * 2 ^ (h + 1) = (2 * m + 1) * 2 ^ h + 2 ^ h := by ring
  rw [Nat.succ_eq_add_one, h1, Nat.add_sub_cancel, Nat.add_sub_cancel]

theorem pair_place_lt {j h : ℕ} (hj : j ≠ 0) (hn : (2 * j + 1) * 2 ^ h < n) : j * 2 ^ (h + 1) - 2 ^ h < n := by
  rw [pair_place hj]
  refine Nat.lt_of_le_of_lt (Nat.mul_le_mul_right _ ?_) hn
  omega

theorem lt_proofSize {h : ℕ} (hh : 2 ^ h < n) (hn : n < 2 ^ 32) : h + 1 < proofSize n := by
  have hpos := Nat.two_pow_pos h
  rw [proofSize, pred_eq (by omega) hn, bitsWord]
  have hbits : ¬ met0 (n - 1) ≤ h := by
    rw [met0_le_iff]
    omega
  omega

/-- A store keeps what is at a place, unless it puts something else there. -/
theorem getElem?_set_keep {α : Type} {l : List α} {i j : ℕ} {a b : α} (h : l[i]? = some a) (hab : j = i → b = a) :
    (l.set j b)[i]? = some a := by
  by_cases hij : j = i
  · subst hij
    obtain ⟨hlt, -⟩ := List.getElem?_eq_some_iff.mp h
    rw [List.getElem?_set_self hlt, hab rfl]
  · rw [List.getElem?_set_ne hij, h]

/-- **`_lss_builder_merge` keeps the two subtrees that it is given**, and what was known. -/
theorem merge_spec {b : Builder H} {c t j : ℕ} (hs : Shape n b c) (hc : c < 2 ^ 32) (hn : n < 2 ^ 32) (ht : t < 31)
    (hj : c / 2 ^ (t + 1) = j) (hfit : (2 * j + 1) * 2 ^ t < n) :
    ∃ b', builderMerge b t (node X.parentHash g n t (2 * j)) (node X.parentHash g n t (2 * j + 1)) = some b' ∧
      Shape n b' c ∧ b'.trees = b.trees ∧ Known X g n b' t j ∧ Keeps X g n b b' := by
  obtain rfl := hs.counter
  by_cases h0 : j = 0
  · subst h0
    rw [Nat.mul_zero, Nat.zero_add, Nat.one_mul] at hfit
    have hlt : t + 1 < b.proof.length := by
      rw [hs.proof]
      exact lt_proofSize hfit hn
    have hmerge : ∀ l r, builderMerge b t l r =
        some { b with proof := (if t = 0 then b.proof.set 0 l else b.proof).set (t + 1) r } := by
      intro l r
      unfold builderMerge
      rw [shr_of_lt (by omega), hj]
      simp only [Option.bind_eq_bind, Option.bind_some, ne_eq, not_true, if_false]
      split
      · rw [write_of_lt (by omega), Option.bind_some, write_of_lt (by rw [List.length_set]; exact hlt),
          Option.bind_some]
      · rw [write_of_lt hlt, Option.bind_some]
    have hlen : ∀ l, (if t = 0 then b.proof.set 0 l else b.proof).length = b.proof.length := by
      intro l
      split
      · exact List.length_set
      · rfl
    rw [hmerge]
    refine ⟨_, rfl, ⟨hs.trees, hs.leaves, hs.counter, ?_, hs.pairs⟩, rfl, ?_, fun h' j' _ hk => ?_⟩
    · rw [List.length_set, hlen, hs.proof]
    · rw [Known, if_pos rfl]
      refine ⟨List.getElem?_set_self (by rw [hlen]; exact hlt), fun ht0 => ?_⟩
      subst ht0
      rw [List.getElem?_set_ne (by omega), if_pos rfl, List.getElem?_set_self (by omega), node_zero]
    · unfold Known at hk ⊢
      split
      · rename_i hj'
        rw [if_pos hj'] at hk
        refine ⟨getElem?_set_keep ?_ fun heq => ?_, fun hh' => getElem?_set_keep ?_ fun heq => absurd heq (by omega)⟩
        · split
          · rw [List.getElem?_set_ne (by omega)]
            exact hk.1
          · exact hk.1
        · rw [Nat.succ.inj heq]
        · split
          · rename_i ht0
            refine getElem?_set_keep (hk.2 hh') fun _ => ?_
            rw [ht0, node_zero]
          · exact hk.2 hh'
      · rename_i hj'
        rw [if_neg hj'] at hk
        exact hk
  · have hplace : ((b.counter &&& inv (2 ^ (t + 1) - 1)) + 2 ^ 32 - 2 ^ t) % 2 ^ 32 = j * 2 ^ (t + 1) - 2 ^ t := by
      have hle : j * 2 ^ (t + 1) ≤ b.counter := by
        rw [← hj]
        exact Nat.div_mul_le_self b.counter _
      have hpow : 2 ^ t ≤ j * 2 ^ (t + 1) :=
        (Nat.pow_le_pow_right (by decide) (Nat.le_succ t)).trans (Nat.le_mul_of_pos_left _ (by omega))
      have hpos := Nat.two_pow_pos t
      rw [and_inv hc, hj]
      generalize j * 2 ^ (t + 1) = s at hle hpow
      generalize 2 ^ t = p at hpow hpos
      omega
    have hlt : j * 2 ^ (t + 1) - 2 ^ t < b.pairs.length := by
      rw [hs.pairs]
      exact pair_place_lt h0 hfit
    have hmerge : ∀ l r, builderMerge b t l r =
        some { b with pairs := b.pairs.set (j * 2 ^ (t + 1) - 2 ^ t) (l, r) } := by
      intro l r
      unfold builderMerge
      rw [shr_of_lt (by omega), hj]
      simp only [Option.bind_eq_bind, Option.bind_some]
      rw [if_pos h0, shl1_of_lt (by omega), Option.bind_some, shl1_of_lt (by omega), Option.bind_some, hplace,
        write_of_lt hlt, Option.bind_some]
    rw [hmerge]
    refine ⟨_, rfl, ⟨hs.trees, hs.leaves, hs.counter, hs.proof, ?_⟩, rfl, ?_, fun h' j' hh' hk => ?_⟩
    · rw [List.length_set, hs.pairs]
    · rw [Known, if_neg h0]
      exact List.getElem?_set_self hlt
    · unfold Known at hk ⊢
      split
      · rename_i hj'
        rw [if_pos hj'] at hk
        exact hk
      · rename_i hj'
        rw [if_neg hj'] at hk
        refine getElem?_set_keep hk fun heq => ?_
        rw [pair_place h0, pair_place hj'] at heq
        obtain ⟨h1, rfl⟩ := odd_mul_inj heq (by omega) hh'
        have h2 : j = j' := by omega
        rw [h2]

/-! ### Taking a leaf -/

/-- A builder that has taken `c` leaves: it has the roots of the full subtrees that
make up the `c` leaves, and all that it has joined. -/
structure Built (X : Hasher H) (g : ℕ → H) (n : ℕ) (b : Builder H) (c : ℕ) : Prop extends Shape n b c where
  root : ∀ h j, h < 32 → c / 2 ^ h = 2 * j + 1 → b.trees[h]? = some (node X.parentHash g n h (2 * j))
  known : ∀ h j, h < 32 → (2 * j + 2) * 2 ^ h ≤ c → Known X g n b h j

theorem div_of_succ {c q t : ℕ} (h : c + 1 = (q + 1) * 2 ^ t) : c / 2 ^ t = q := by
  have h1 : (q + 1) * 2 ^ t = q * 2 ^ t + 2 ^ t := by ring
  have := Nat.two_pow_pos t
  exact Nat.div_eq_of_lt_le (by omega) (by omega)

theorem height_le {c q t : ℕ} (h : c + 1 = (q + 1) * 2 ^ t) (hc : c < 2 ^ 31) : t ≤ 31 := by
  have h1 : 2 ^ t ≤ 2 ^ 31 := by
    have := Nat.le_mul_of_pos_left (2 ^ t) (show 0 < q + 1 by omega)
    omega
  exact (Nat.pow_le_pow_iff_right (by decide)).mp h1

/-- The loop of `lss_builder_ingest` joins the subtrees that end with the leaf. -/
theorem ingestLoop_spec {c : ℕ} (hn : n ≤ 2 ^ 31) (hcn : c < n) : ∀ {f t q : ℕ} {b : Builder H}, 33 ≤ t + f →
    c + 1 = (q + 1) * 2 ^ t → Shape n b c →
    (∀ h j, h < 32 → c / 2 ^ h = 2 * j + 1 → b.trees[h]? = some (node X.parentHash g n h (2 * j))) →
    (∀ h j, h < 32 → (2 * j + 2) * 2 ^ h ≤ c ∨ (2 * j + 2) * 2 ^ h = c + 1 ∧ h < t → Known X g n b h j) →
    ∃ b' t' m, ingestLoop X f b (node X.parentHash g n t q) t = some (b', node X.parentHash g n t' (2 * m), t') ∧
      c + 1 = (2 * m + 1) * 2 ^ t' ∧ Shape n b' c ∧ b'.trees = b.trees ∧ Keeps X g n b b' ∧
        ∀ h j, h < 32 → (2 * j + 2) * 2 ^ h ≤ c ∨ (2 * j + 2) * 2 ^ h = c + 1 ∧ h < t' → Known X g n b' h j
  | 0, t, q, b, hf, hq, _, _, _ => by
    have := height_le hq (by omega)
    omega
  | f + 1, t, q, b, hf, hq, hs, hroot, hknown => by
    have ht := height_le hq (by omega)
    have hdiv := div_of_succ hq
    unfold ingestLoop
    rw [shl1_of_lt (by omega), hs.counter]
    simp only [Option.bind_eq_bind, Option.bind_some]
    rcases Nat.even_or_odd' q with ⟨j, rfl | rfl⟩
    · rw [if_pos ((and_bit c t).mpr (by omega))]
      exact ⟨b, t, j, rfl, hq, hs, rfl, Keeps.refl b, hknown⟩
    · rw [if_neg (fun h => by rw [and_bit] at h; omega), hroot t j (by omega) hdiv, Option.bind_some]
      have hnext : c + 1 = (j + 1) * 2 ^ (t + 1) := by rw [hq]; ring
      have ht' := height_le hnext (by omega)
      have hfit : (2 * j + 1) * 2 ^ t < n := by
        have h1 : (2 * j + 1 + 1) * 2 ^ t = (2 * j + 1) * 2 ^ t + 2 ^ t := by ring
        have := Nat.two_pow_pos t
        omega
      obtain ⟨b', hmerge, hs', htrees, hnew, hkeep⟩ :=
        merge_spec (X := X) (g := g) hs (by omega) (by omega) (by omega) (div_of_succ hnext) hfit
      have hjoin : node X.parentHash g n (t + 1) j =
          X.parentHash (node X.parentHash g n t (2 * j)) (node X.parentHash g n t (2 * j + 1)) := node_pair hfit
      rw [hmerge, Option.bind_some, ← hjoin]
      have hknown' : ∀ h j, h < 32 → (2 * j + 2) * 2 ^ h ≤ c ∨ (2 * j + 2) * 2 ^ h = c + 1 ∧ h < t + 1 →
          Known X g n b' h j := by
        intro h j' hh hor
        rcases hor with hle | ⟨heq, hlt⟩
        · exact hkeep h j' hh (hknown h j' hh (.inl hle))
        rcases Nat.lt_or_eq_of_le (Nat.le_of_lt_succ hlt) with hlt | rfl
        · exact hkeep h j' hh (hknown h j' hh (.inr ⟨heq, hlt⟩))
        · rw [hq] at heq
          have h1 := Nat.eq_of_mul_eq_mul_right (Nat.two_pow_pos h) heq
          have h2 : j' = j := by omega
          rw [h2]
          exact hnew
      obtain ⟨b'', t', m, h1, h2, h3, h4, h5, h6⟩ := ingestLoop_spec (f := f) hn hcn (by omega) hnext hs'
        (fun h j hh hd => by rw [htrees]; exact hroot h j hh hd) hknown'
      exact ⟨b'', t', m, h1, h2, h3, h4.trans htrees, hkeep.trans h5, h6⟩

/-- **`lss_builder_ingest` takes a leaf.** -/
theorem ingest_spec {b : Builder H} {c : ℕ} (leaf : List UInt8) (hb : Built X g n b c) (hn : n ≤ 2 ^ 31)
    (hcn : c < n) (hlf : g c = X.leafHash leaf c) :
    ∃ b', builderIngest X b leaf = some b' ∧ Built X g n b' (c + 1) ∧ Keeps X g n b b' := by
  obtain ⟨b', t, m, hloop, hc, hs, htrees, hkeep, hknown⟩ := ingestLoop_spec (f := 33) (t := 0) (q := c) hn hcn
    (by omega) (by ring) hb.toShape hb.root fun h j hh hor => by
      rcases hor with hle | ⟨-, hlt⟩
      · exact hb.known h j hh hle
      · exact absurd hlt (Nat.not_lt_zero h)
  have ht := height_le hc (by omega)
  have hlt : t < b'.trees.length := by
    rw [hs.trees]
    omega
  rw [node_zero] at hloop
  unfold builderIngest
  rw [hb.counter, ← hlf, hloop]
  simp only [Option.bind_eq_bind, Option.bind_some]
  rw [write_of_lt hlt, Option.bind_some, hs.counter, Nat.mod_eq_of_lt (by omega)]
  refine ⟨_, rfl, ⟨⟨?_, hs.leaves, rfl, hs.proof, hs.pairs⟩, fun h j hh hd => ?_, fun h j hh hle => ?_⟩, hkeep⟩
  · rw [List.length_set, hs.trees]
  · rw [hc] at hd
    show (b'.trees.set t _)[h]? = _
    rcases Nat.lt_trichotomy h t with hlt' | rfl | hgt
    · -- below the place of the carry all bits are clear
      obtain ⟨k, rfl⟩ := Nat.exists_eq_add_of_lt hlt'
      have h1 : (2 * m + 1) * 2 ^ (h + k + 1) = (2 * m + 1) * 2 ^ k * 2 * 2 ^ h := by ring
      rw [h1, Nat.mul_div_cancel _ (Nat.two_pow_pos h)] at hd
      omega
    · rw [Nat.mul_div_cancel _ (Nat.two_pow_pos h)] at hd
      have h1 : m = j := by omega
      rw [List.getElem?_set_self hlt, h1]
    · -- above it the bits are those of the number before
      obtain ⟨k, rfl⟩ := Nat.exists_eq_add_of_lt hgt
      have h1 : c / 2 ^ (t + k + 1) = 2 * j + 1 := by
        have h2 := div_of_succ hc
        have h3 : t + k + 1 = t + (k + 1) := rfl
        rw [h3, Nat.pow_add, ← Nat.div_div_eq_div_mul] at hd ⊢
        rw [Nat.mul_div_cancel _ (Nat.two_pow_pos t)] at hd
        rw [h2, ← hd, Nat.pow_succ', ← Nat.div_div_eq_div_mul, ← Nat.div_div_eq_div_mul]
        congr 1
        omega
      rw [List.getElem?_set_ne (by omega), htrees]
      exact hb.root _ _ hh h1
  · refine hknown h j hh ?_
    rcases Nat.lt_or_eq_of_le hle with hlt' | heq
    · exact .inl (by omega)
    · refine .inr ⟨heq, ?_⟩
      by_contra hge
      obtain ⟨k, rfl⟩ := Nat.exists_eq_add_of_le (Nat.le_of_not_lt hge)
      have h1 : (2 * j + 2) * 2 ^ (t + k) = (j + 1) * 2 ^ k * 2 * 2 ^ t := by ring
      rw [h1, hc] at heq
      have := Nat.eq_of_mul_eq_mul_right (Nat.two_pow_pos t) heq
      omega

/-! ### The end -/

/-- A builder that has joined all there is to join. -/
structure Finished (X : Hasher H) (g : ℕ → H) (n : ℕ) (b : Builder H) : Prop extends Shape n b n where
  known : ∀ h j, h < 32 → (2 * j + 1) * 2 ^ h < n → Known X g n b h j

/-- The loop of `lss_builder_finalize` joins the subtrees that end with the last leaf. -/
theorem finalizeLoop_spec {m z : ℕ} (hn : n ≤ 2 ^ 31) (hz : n = (2 * m + 1) * 2 ^ z) :
    ∀ {f t : ℕ} {b : Builder H}, t + f = 32 → z < t → Shape n b n →
    (∀ h j, h < 32 → n / 2 ^ h = 2 * j + 1 → b.trees[h]? = some (node X.parentHash g n h (2 * j))) →
    (∀ h j, h < 32 → (2 * j + 2) * 2 ^ h ≤ n ∨ (2 * j + 1) * 2 ^ h < n ∧ h < t → Known X g n b h j) →
    ∃ b', finalizeLoop X f b (node X.parentHash g n t ((n - 1) / 2 ^ t)) t = some b' ∧ Finished X g n b'
  | 0, t, b, hf, _, hs, _, hknown =>
    ⟨b, rfl, hs, fun h j hh hlt => hknown h j hh (.inr ⟨hlt, by omega⟩)⟩
  | f + 1, t, b, hf, hzt, hs, hroot, hknown => by
    have hpos := Nat.two_pow_pos z
    have hn0 : 0 < n := by
      rw [hz]
      exact Nat.mul_pos (Nat.succ_pos _) hpos
    -- the last subtree of this height is not full
    have hdiv : n / 2 ^ t = (n - 1) / 2 ^ t := by
      obtain ⟨k, rfl⟩ := Nat.exists_eq_add_of_lt hzt
      have h1 : ∀ w, w / 2 ^ (z + k + 1) = w / 2 ^ z / 2 / 2 ^ k := fun w => by
        rw [Nat.div_div_eq_div_mul, Nat.div_div_eq_div_mul]
        congr 1
        ring
      have h2 : (n - 1) / 2 ^ z = 2 * m := div_of_succ (by rw [Nat.sub_add_cancel hn0, hz])
      have h3 : n / 2 ^ z = 2 * m + 1 := by rw [hz, Nat.mul_div_cancel _ hpos]
      rw [h1, h1, h2, h3]
      congr 1
      omega
    have hlow : (n - 1) / 2 ^ t * 2 ^ t ≤ n - 1 := Nat.div_mul_le_self _ _
    have hhigh : n - 1 < ((n - 1) / 2 ^ t + 1) * 2 ^ t := by
      rw [Nat.mul_comm]
      exact Nat.lt_mul_div_succ _ (Nat.two_pow_pos t)
    unfold finalizeLoop
    rw [shl1_of_lt (by omega), hs.counter]
    simp only [Option.bind_eq_bind, Option.bind_some]
    have hknown' : ∀ {b' : Builder H} {j : ℕ}, (n - 1) / 2 ^ t = 2 * j ∨ (n - 1) / 2 ^ t = 2 * j + 1 →
        Keeps X g n b b' →
        ((n - 1) / 2 ^ t = 2 * j + 1 → Known X g n b' t j) →
        ∀ h j, h < 32 → (2 * j + 2) * 2 ^ h ≤ n ∨ (2 * j + 1) * 2 ^ h < n ∧ h < t + 1 → Known X g n b' h j := by
      intro b' j hj hkeep hnew h j' hh hor
      rcases hor with hle | ⟨hlt, hht⟩
      · exact hkeep h j' hh (hknown h j' hh (.inl hle))
      rcases Nat.lt_or_eq_of_le (Nat.le_of_lt_succ hht) with hht | rfl
      · exact hkeep h j' hh (hknown h j' hh (.inr ⟨hlt, hht⟩))
      have h1 : 2 * j' + 1 ≤ (n - 1) / 2 ^ h := (Nat.le_div_iff_mul_le (Nat.two_pow_pos h)).mpr (by omega)
      by_cases h2 : 2 * j' + 2 ≤ (n - 1) / 2 ^ h
      · exact hkeep h j' hh (hknown h j' hh (.inl
          ((Nat.mul_le_mul_right _ h2).trans (hlow.trans (Nat.sub_le n 1)))))
      · have h3 : j' = j := by omega
        rw [h3]
        exact hnew (by omega)
    rcases Nat.even_or_odd' ((n - 1) / 2 ^ t) with ⟨j, hq | hq⟩
    · have hnext : (n - 1) / 2 ^ (t + 1) = j := by
        rw [Nat.pow_succ, ← Nat.div_div_eq_div_mul]
        omega
      have halone : n ≤ (2 * j + 1) * 2 ^ t := by
        rw [hq] at hhigh
        omega
      have hsame : node X.parentHash g n (t + 1) j = node X.parentHash g n t (2 * j) := node_alone halone
      rw [if_pos ((and_bit n t).mpr (by omega)), hq, ← hsame, ← hnext]
      exact finalizeLoop_spec hn hz (by omega) (by omega) hs hroot
        (hknown' (.inl hq) (Keeps.refl b) fun h => by omega)
    · have hnext : (n - 1) / 2 ^ (t + 1) = j := by
        rw [Nat.pow_succ, ← Nat.div_div_eq_div_mul]
        omega
      have hfit : (2 * j + 1) * 2 ^ t < n := by
        rw [hq] at hlow
        omega
      have ht : t < 31 := by
        have h1 : 2 ^ t ≤ (2 * j + 1) * 2 ^ t := Nat.le_mul_of_pos_left _ (by omega)
        exact (Nat.pow_lt_pow_iff_right (a := 2) (by decide)).mp (show 2 ^ t < 2 ^ 31 by omega)
      have hj : n / 2 ^ (t + 1) = j := by
        rw [Nat.pow_succ, ← Nat.div_div_eq_div_mul, hdiv]
        omega
      obtain ⟨b', hmerge, hs', htrees, hnew, hkeep⟩ :=
        merge_spec (X := X) (g := g) hs (by omega) (by omega) ht hj hfit
      have hjoin : node X.parentHash g n (t + 1) j =
          X.parentHash (node X.parentHash g n t (2 * j)) (node X.parentHash g n t (2 * j + 1)) := node_pair hfit
      rw [if_neg (fun h => by rw [and_bit] at h; omega), hroot t j (by omega) (hdiv.trans hq), Option.bind_some, hq,
        hmerge, Option.bind_some, ← hjoin, ← hnext]
      exact finalizeLoop_spec hn hz (by omega) (by omega) hs'
        (fun h j hh hd => by rw [htrees]; exact hroot h j hh hd)
        (hknown' (.inr hq) hkeep fun _ => hnew)

/-- **`lss_builder_finalize` joins all there is to join.** -/
theorem finalize_spec {b : Builder H} (hb : Built X g n b n) (h0 : 0 < n) (hn : n ≤ 2 ^ 31) :
    ∃ b', builderFinalize X b = some b' ∧ Finished X g n b' := by
  obtain ⟨m, z, hz, hnz⟩ := exists_odd_mul (i := n) (by omega) (by omega)
  have hdiv : n / 2 ^ z = 2 * m + 1 := by rw [hnz, Nat.mul_div_cancel _ (Nat.two_pow_pos z)]
  have htz : tzWord n = some z := by
    rw [hnz]
    exact tzWord_odd m hz
  have hlast : (n - 1) / 2 ^ (z + 1) = m := by
    have h1 : (n - 1) / 2 ^ z = 2 * m := div_of_succ (by omega)
    rw [Nat.pow_succ, ← Nat.div_div_eq_div_mul, h1]
    omega
  unfold builderFinalize
  rw [hb.counter, if_pos (by omega)]
  simp only [htz, Option.bind_eq_bind, Option.bind_some]
  have hsame : node X.parentHash g n (z + 1) m = node X.parentHash g n z (2 * m) := node_alone hnz.le
  rw [hb.root z m hz hdiv, Option.bind_some, ← hsame, ← hlast]
  refine finalizeLoop_spec hn hnz (by omega) (Nat.lt_succ_self z) hb.toShape hb.root fun h j hh hor => ?_
  rcases hor with hle | ⟨hlt, hhz⟩
  · exact hb.known h j hh hle
  · -- a subtree below the last full one is full
    obtain ⟨k, rfl⟩ := Nat.exists_eq_add_of_le (Nat.le_of_lt_succ hhz)
    have h1 : n = (2 * m + 1) * 2 ^ k * 2 ^ h := by rw [hnz]; ring
    have h2 : 2 * j + 1 < (2 * m + 1) * 2 ^ k := by
      rw [h1] at hlt
      exact Nat.lt_of_mul_lt_mul_right hlt
    refine hb.known h j hh ?_
    rw [h1]
    exact Nat.mul_le_mul_right _ h2

/-! ### The whole message -/

theorem init_built (zero : H) (trees : Vector H 32) : Built X g n (builderInit zero trees n) 0 := by
  refine ⟨⟨?_, rfl, rfl, ?_, ?_⟩, ?_, ?_⟩
  · show trees.toList.length = 32
    rw [Vector.length_toList]
  · simp only [builderInit, List.length_replicate]
  · simp only [builderInit, List.length_replicate]
  · intro h j hh hd
    rw [Nat.zero_div] at hd
    omega
  · intro h j hh hle
    have := Nat.mul_pos (show 0 < 2 * j + 2 by omega) (Nat.two_pow_pos h)
    omega

theorem builderRun_spec (hn : n ≤ 2 ^ 31) : ∀ (leaves : List (List UInt8)) {b : Builder H} {c : ℕ}, Built X g n b c →
    c + leaves.length ≤ n → (∀ i (hi : i < leaves.length), g (c + i) = X.leafHash leaves[i] (c + i)) →
    ∃ b', builderRun X b leaves = some b' ∧ Built X g n b' (c + leaves.length) ∧ Keeps X g n b b'
  | [], b, c, hb, _, _ => ⟨b, rfl, hb, Keeps.refl b⟩
  | leaf :: leaves, b, c, hb, hlen, hlf => by
    rw [List.length_cons] at hlen
    obtain ⟨b', hingest, hb', hkeep⟩ := ingest_spec leaf hb hn (by omega) (hlf 0 (Nat.succ_pos _))
    obtain ⟨b'', hrun, hb'', hkeep'⟩ := builderRun_spec hn leaves hb' (by omega) fun i hi => by
      have h1 := hlf (i + 1) (Nat.succ_lt_succ hi)
      have h2 : c + (i + 1) = c + 1 + i := by omega
      rw [h2] at h1
      exact h1
    have h3 : c + (leaf :: leaves).length = c + 1 + leaves.length := by
      rw [List.length_cons]
      omega
    refine ⟨b'', ?_, h3 ▸ hb'', hkeep.trans hkeep'⟩
    rw [builderRun, List.foldlM_cons, hingest]
    exact hrun

/-- **The builder joins the whole tree of a message.** -/
theorem build_spec (zero : H) (trees : Vector H 32) {leaves : List (List UInt8)} (hlen : leaves.length = n)
    (h0 : 0 < n) (hn : n ≤ 2 ^ 31) (hlf : ∀ i (hi : i < leaves.length), g i = X.leafHash leaves[i] i) :
    ∃ b, (builderRun X (builderInit zero trees n) leaves).bind (builderFinalize X) = some b ∧
      Finished X g n b := by
  obtain ⟨b, hrun, hb, -⟩ := builderRun_spec hn leaves (init_built (X := X) (g := g) zero trees) (by omega)
    (fun i hi => by rw [Nat.zero_add]; exact hlf i hi)
  rw [Nat.zero_add, hlen] at hb
  rw [hrun, Option.bind_some]
  exact finalize_spec hb h0 hn

end Lss
end Ursockets
