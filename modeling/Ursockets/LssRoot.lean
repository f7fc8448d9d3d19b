/-
# The root of a message

`lss_root` folds a proof into one hash. For the proof of a builder it is the root that
`_subtree_root` gives by recursion: the proof is the spine of the tree, and the recursion
splits where the tree does. The builder of one leaf is an exception, for it leaves its proof
cleared; and for more than `2 ^ 31` leaves `_lss_builder_merge` shifts a word by 32.

Key definitions: `leavesRoot`, `leavesOf`, `RootRight`.
Key theorems: `leavesRootIn_span`, `subtreeRootIn_leaves`, `finalizeLoop_undefined`, `rootRight_iff`.
-/
import Ursockets.LssRun

namespace Ursockets
namespace Lss

open Bits Merkle

variable {H : Type} (X : Hasher H)

/-- `_subtree_root` of a list of leaves, whose recursion is at most `n` deep. -/
def leavesRootIn : ℕ → List (List UInt8) → ℕ → Option H
  | 0, _, _ => none
  | n + 1, leaves, counter =>
    if leaves.length ≤ 1 then leaves.head?.map fun leaf => X.leafHash leaf counter
    else do
      let mid ← shl1 (bitsWord (pred leaves.length) - 1)
      let l ← leavesRootIn n (leaves.take mid) counter
      let r ← leavesRootIn n (leaves.drop mid) ((counter + mid) % 2 ^ 64)
      some (X.parentHash l r)

/-- The root of a list of leaves: less than `2 ^ 32` have 33 levels. -/
def leavesRoot (leaves : List (List UInt8)) : Option H := leavesRootIn X 33 leaves 0

/-- The leaves of a message, of 1024 bytes each but for the last. -/
def leavesOf (msg : List UInt8) : List (List UInt8) :=
  (List.range ((msg.length + 1023) / 1024)).map fun i => (msg.drop (1024 * i)).take 1024

/-- A message is built: the builder at the end. -/
def built (zero : H) (trees : Vector H 32) (leaves : List (List UInt8)) : Option (Builder H) :=
  (builderRun X (builderInit zero trees leaves.length) leaves).bind (builderFinalize X)

/-- **The proof of the message gives its root**: it has `lss_proof_size` hashes, and what `lss_root` makes
of them is what `_subtree_root` makes of the leaves, and of a message that they are the leaves of. -/
structure RootRight (zero : H) (trees : Vector H 32) (leaves : List (List UInt8)) (b : Builder H) (root : H) :
    Prop where
  build : built X zero trees leaves = some b
  size : b.proof.length = proofSize leaves.length
  fold : lssRoot X b.proof = some root
  tree : leavesRoot X leaves = some root
  message : ∀ msg, leavesOf msg = leaves → msg.length + 1023 < 2 ^ 32 → subtreeRoot X msg 0 = some root

variable {X}

/-! ### The recursion and the tree -/

/-- Where `_subtree_root` splits. -/
theorem mid_eq {n : ℕ} (h1 : 1 < n) (hn : n < 2 ^ 32) : shl1 (bitsWord (pred n) - 1) = some (half n) := by
  have hbits : bitsWord (n - 1) = (n - 1).log2 + 1 := by
    have hle : bitsWord (n - 1) ≤ (n - 1).log2 + 1 := met0_le_iff.mpr Nat.lt_log2_self
    have hlt : ¬ bitsWord (n - 1) ≤ (n - 1).log2 := by
      rw [bitsWord, met0_le_iff, Nat.not_lt]
      exact Nat.log2_self_le (by omega)
    omega
  have h32 : (n - 1).log2 < 32 := (Nat.log2_lt (by omega)).mpr (by omega)
  rw [pred_eq (by omega) hn, hbits, Nat.add_sub_cancel, shl1_of_lt h32, half]

/-- The halves of a list of leaves have one level less. -/
theorem half_levels {n f : ℕ} (h1 : 1 < n) (hf : n ≤ 2 ^ f) :
    ∃ f', f = f' + 1 ∧ half n ≤ 2 ^ f' ∧ n - half n ≤ 2 ^ f' := by
  cases f with
  | zero => omega
  | succ f =>
    have hlow := Nat.log2_self_le (show n - 1 ≠ 0 by omega)
    have hhigh : n - 1 < 2 ^ ((n - 1).log2 + 1) := Nat.lt_log2_self
    have hlog : (n - 1).log2 ≤ f := by
      have hlt : 2 ^ (n - 1).log2 < 2 ^ (f + 1) := by omega
      exact Nat.le_of_lt_succ ((Nat.pow_lt_pow_iff_right (by decide)).mp hlt)
    have hpow : 2 ^ (n - 1).log2 ≤ 2 ^ f := Nat.pow_le_pow_right (by decide) hlog
    refine ⟨f, rfl, hpow, ?_⟩
    rw [half]
    rw [Nat.pow_succ] at hhigh
    omega

theorem leavesRootIn_one (f : ℕ) (leaf : List UInt8) (c : ℕ) :
    leavesRootIn X (f + 1) [leaf] c = some (X.leafHash leaf c) := by
  rw [leavesRootIn, if_pos (Nat.le_of_eq List.length_singleton)]
  rfl

theorem leavesRootIn_alone {g : ℕ → H} {f : ℕ} {leaves : List (List UInt8)} {c : ℕ} (h1 : leaves.length = 1)
    (hg : ∀ i (hi : i < leaves.length), g (c + i) = X.leafHash leaves[i] (c + i)) :
    leavesRootIn X (f + 1) leaves c = some (spanRoot X.parentHash g c leaves.length) := by
  obtain ⟨leaf, rfl⟩ := List.length_eq_one_iff.mp h1
  have hleaf : g c = X.leafHash leaf c := hg 0 Nat.one_pos
  rw [leavesRootIn_one, spanRoot_one (Nat.le_of_eq h1), hleaf]

/-- **The recursion of `_subtree_root` splits as the tree does.** -/
theorem leavesRootIn_span {g : ℕ → H} : ∀ {f : ℕ} {leaves : List (List UInt8)} {c : ℕ}, 0 < leaves.length →
    leaves.length ≤ 2 ^ f → leaves.length < 2 ^ 32 → c + leaves.length ≤ 2 ^ 64 →
    (∀ i (hi : i < leaves.length), g (c + i) = X.leafHash leaves[i] (c + i)) →
    leavesRootIn X (f + 1) leaves c = some (spanRoot X.parentHash g c leaves.length) := by
  intro f
  induction f with
  | zero =>
    intro leaves c h0 hf _ _ hg
    exact leavesRootIn_alone (by omega) hg
  | succ f ih =>
    intro leaves c h0 hf h32 h64 hg
    rcases Nat.lt_or_ge 1 leaves.length with h1 | h1
    swap
    · exact leavesRootIn_alone (by omega) hg
    obtain ⟨f', hf', hl, hr⟩ := half_levels h1 hf
    obtain rfl := Nat.succ.inj hf'
    have hpos := half_pos leaves.length
    have hlt := half_lt h1
    have htake : (leaves.take (half leaves.length)).length = half leaves.length := by
      rw [List.length_take]
      omega
    have hdrop : (leaves.drop (half leaves.length)).length = leaves.length - half leaves.length := List.length_drop
    have hleft := @ih (leaves.take (half leaves.length)) c (by omega) (by omega) (by omega) (by omega)
      fun i hi => by
        rw [List.getElem_take]
        exact hg i (by omega)
    have hright := @ih (leaves.drop (half leaves.length)) (c + half leaves.length) (by omega) (by omega)
      (by omega) (by omega) fun i hi => by
        rw [List.getElem_drop, Nat.add_assoc]
        exact hg (half leaves.length + i) (by omega)
    rw [leavesRootIn, if_neg (by omega), mid_eq h1 h32]
    simp only [Option.bind_eq_bind, Option.bind_some]
    rw [Nat.mod_eq_of_lt (by omega), hleft, Option.bind_some, hright, Option.bind_some, htake, hdrop, spanRoot_pair h1]

/-! ### Messages -/

theorem length_leavesOf (msg : List UInt8) : (leavesOf msg).length = (msg.length + 1023) / 1024 := by
  rw [leavesOf, List.length_map, List.length_range]

theorem getElem_leavesOf {msg : List UInt8} {i : ℕ} (hi : i < (leavesOf msg).length) :
    (leavesOf msg)[i] = (msg.drop (1024 * i)).take 1024 := by
  simp only [leavesOf, List.getElem_map, List.getElem_range]

theorem leavesOf_small {msg : List UInt8} (h0 : 0 < msg.length) (h : msg.length ≤ 1024) : leavesOf msg = [msg] := by
  have hone : (msg.length + 1023) / 1024 = 1 := by omega
  rw [leavesOf, hone, List.range_one, List.map_singleton, Nat.mul_zero, List.drop_zero, List.take_of_length_le h]

/-- The leaves of the first bytes of a message. -/
theorem leavesOf_take {msg : List UInt8} {mid : ℕ} (h : mid * 1024 ≤ msg.length) :
    leavesOf (msg.take (mid * 1024)) = (leavesOf msg).take mid := by
  have hlen : (msg.take (mid * 1024)).length = mid * 1024 := List.length_take_of_le h
  refine List.ext_getElem (by simp only [length_leavesOf, List.length_take, hlen]; omega) fun i h1 h2 => ?_
  rw [length_leavesOf, hlen] at h1
  rw [List.getElem_take, getElem_leavesOf, getElem_leavesOf, List.drop_take, List.take_take,
    Nat.min_eq_left (by omega)]

/-- The leaves of the bytes behind them. -/
theorem leavesOf_drop {msg : List UInt8} {mid : ℕ} (h : mid * 1024 ≤ msg.length) :
    leavesOf (msg.drop (mid * 1024)) = (leavesOf msg).drop mid := by
  have hlen : (msg.drop (mid * 1024)).length = msg.length - mid * 1024 := List.length_drop
  refine List.ext_getElem (by simp only [length_leavesOf, List.length_drop]; omega) fun i h1 h2 => ?_
  rw [List.getElem_drop, getElem_leavesOf, getElem_leavesOf, List.drop_drop]
  congr 2
  ring

/-- **`_subtree_root` of a message is that of its leaves.** -/
theorem subtreeRootIn_leaves : ∀ {f : ℕ} {msg : List UInt8} {c : ℕ}, 0 < msg.length → msg.length + 1023 < 2 ^ 32 →
    subtreeRootIn X f msg c = leavesRootIn X f (leavesOf msg) c := by
  intro f
  induction f with
  | zero => exact fun _ _ => rfl
  | succ f ih =>
    intro msg c h0 h32
    rcases Nat.lt_or_ge 1024 msg.length with hbig | hsmall
    swap
    · rw [leavesOf_small h0 hsmall, leavesRootIn_one, subtreeRootIn, if_pos hsmall]
    have hn := length_leavesOf msg
    have h1 : 1 < (leavesOf msg).length := by omega
    have hlt := half_lt h1
    have hpos := half_pos (leavesOf msg).length
    have hmid : half (leavesOf msg).length * 1024 < msg.length := by omega
    have htake : (msg.take (half (leavesOf msg).length * 1024)).length = half (leavesOf msg).length * 1024 :=
      List.length_take_of_le hmid.le
    have hdrop : (msg.drop (half (leavesOf msg).length * 1024)).length =
        msg.length - half (leavesOf msg).length * 1024 := List.length_drop
    rw [subtreeRootIn, if_neg (by omega), leavesRootIn, if_neg (by omega)]
    simp only [Option.bind_eq_bind]
    rw [Nat.mod_eq_of_lt h32, ← hn, mid_eq h1 (by omega), Option.bind_some, Option.bind_some,
      Nat.mod_eq_of_lt (show half (leavesOf msg).length * 1024 < 2 ^ 32 by omega),
      ih (by omega) (by omega), ih (by omega) (by omega), leavesOf_take hmid.le, leavesOf_drop hmid.le]

/-! ### Too many leaves -/

theorem builderMerge_counter {b b' : Builder H} {height : ℕ} {l r : H} (h : builderMerge b height l r = some b') :
    b'.counter = b.counter ∧ height < 31 := by
  have hh : height < 31 := by
    by_contra hge
    unfold builderMerge shr at h
    rw [if_neg (by omega)] at h
    cases h
  refine ⟨?_, hh⟩
  unfold builderMerge at h
  simp only [Option.bind_eq_bind, Option.bind_eq_some_iff] at h
  obtain ⟨up, -, h⟩ := h
  split at h
  · simp only [Option.bind_eq_some_iff] at h
    obtain ⟨top, -, low, -, pairs, -, h⟩ := h
    cases h
    rfl
  · split at h <;>
      simp only [Option.bind_eq_some_iff] at h <;>
      obtain ⟨proof, -, proof', -, h⟩ := h <;>
      cases h <;>
      rfl

theorem ingestLoop_counter : ∀ {f : ℕ} {b : Builder H} {h : H} {height : ℕ} {r : Builder H × H × ℕ},
    ingestLoop X f b h height = some r → r.1.counter = b.counter
  | 0, _, _, _, _, h => by cases h
  | f + 1, b, h, height, r, hrun => by
    unfold ingestLoop at hrun
    simp only [Option.bind_eq_bind, Option.bind_eq_some_iff] at hrun
    obtain ⟨bit, -, hrun⟩ := hrun
    split at hrun
    · cases hrun
      rfl
    · simp only [Option.bind_eq_some_iff] at hrun
      obtain ⟨t, -, b', hmerge, hrun⟩ := hrun
      exact (ingestLoop_counter hrun).trans (builderMerge_counter hmerge).1

theorem builderIngest_counter {b b' : Builder H} {leaf : List UInt8} (h : builderIngest X b leaf = some b') :
    b'.counter = (b.counter + 1) % 2 ^ 32 := by
  unfold builderIngest at h
  simp only [Option.bind_eq_bind, Option.bind_eq_some_iff] at h
  obtain ⟨⟨c, t, height⟩, hloop, trees, -, h⟩ := h
  cases h
  rw [← ingestLoop_counter hloop]

theorem builderRun_counter : ∀ {leaves : List (List UInt8)} {b b' : Builder H}, builderRun X b leaves = some b' →
    b.counter + leaves.length < 2 ^ 32 → b'.counter = b.counter + leaves.length
  | [], _, _, h, _ => by
    cases h
    rfl
  | leaf :: leaves, b, b', h, hlt => by
    rw [builderRun, List.foldlM_cons] at h
    obtain ⟨c, hc, h⟩ := Option.bind_eq_some_iff.mp h
    rw [List.length_cons] at hlt ⊢
    have hcount := builderIngest_counter hc
    rw [Nat.mod_eq_of_lt (by omega)] at hcount
    rw [builderRun_counter h (by omega), hcount]
    omega

/-- **With a bit above the others the loop of `lss_builder_finalize` comes to a shift by 32.** -/
theorem finalizeLoop_undefined {n : ℕ} (hn : 2 ^ 31 ≤ n) (hn' : n < 2 ^ 32) : ∀ {f t : ℕ} {b : Builder H} (h : H),
    t ≤ 31 → t + f = 32 → b.counter = n → finalizeLoop X f b h t = none
  | 0, t, _, _, ht, hf, _ => by omega
  | f + 1, t, b, h, ht, hf, hb => by
    unfold finalizeLoop
    rw [shl1_of_lt (by omega), hb]
    simp only [Option.bind_eq_bind, Option.bind_some]
    rcases Nat.lt_or_eq_of_le ht with hlt | rfl
    · split
      · exact finalizeLoop_undefined hn hn' h hlt (by omega) hb
      · cases ht : b.trees[t]? with
        | none => rfl
        | some tree =>
          rw [Option.bind_some]
          cases hm : builderMerge b t tree h with
          | none => rfl
          | some b' =>
            rw [Option.bind_some]
            exact finalizeLoop_undefined hn hn' _ hlt (by omega) ((builderMerge_counter hm).1.trans hb)
    · have hdiv : n / 2 ^ 31 = 1 := Nat.div_eq_of_lt_le (by omega) (by omega)
      rw [if_neg (fun h0 => by rw [and_bit, hdiv] at h0; omega)]
      cases b.trees[31]? with
      | none => rfl
      | some tree =>
        rw [Option.bind_some]
        cases hm : builderMerge b 31 tree h with
        | none => rfl
        | some b' => exact absurd (builderMerge_counter hm).2 (Nat.lt_irrefl 31)

theorem finalize_undefined {b : Builder H} (hn : 2 ^ 31 < b.counter) (hn' : b.counter < 2 ^ 32) :
    builderFinalize X b = none := by
  obtain ⟨m, z, hz, hb⟩ := exists_odd_mul (i := b.counter) (by omega) hn'
  have hz31 : z < 31 := by
    by_contra hge
    have hz' : z = 31 := by omega
    rw [hz'] at hb
    omega
  have htz : tzWord b.counter = some z := by
    rw [hb]
    exact tzWord_odd m hz
  unfold builderFinalize
  rw [if_pos (by omega)]
  simp only [htz, Option.bind_eq_bind, Option.bind_some]
  cases b.trees[z]? with
  | none => rfl
  | some h => exact finalizeLoop_undefined hn.le hn' h (by omega) (by omega) rfl

/-! ### The root -/

theorem leavesRoot_eq {leaves : List (List UInt8)} (h0 : 0 < leaves.length) (hn : leaves.length < 2 ^ 32) :
    leavesRoot X leaves =
      some (spanRoot X.parentHash (fun i => X.leafHash (leaves.getD i []) i) 0 leaves.length) := by
  refine leavesRootIn_span (f := 32) h0 hn.le hn (by omega) fun i hi => ?_
  rw [Nat.zero_add, List.getD_eq_getElem _ _ hi]

/-- A message is the leaves that it is made of. -/
theorem message_root {leaves : List (List UInt8)} {root : H} (h0 : leaves ≠ [])
    (hroot : leavesRoot X leaves = some root)
    {msg : List UInt8} (hmsg : leavesOf msg = leaves) (hlen : msg.length + 1023 < 2 ^ 32) :
    subtreeRoot X msg 0 = some root := by
  have hpos : 0 < msg.length := by
    by_contra hz
    have hnil : (msg.length + 1023) / 1024 = 0 := by omega
    rw [← length_leavesOf, hmsg, List.length_eq_zero_iff] at hnil
    exact h0 hnil
  have hcount : leaves.length ≤ 2 ^ 31 := by
    rw [← hmsg, length_leavesOf]
    omega
  have hspan (f : ℕ) (hf : 31 ≤ f) : leavesRootIn X (f + 1) leaves 0 =
      some (spanRoot X.parentHash (fun i => X.leafHash (leaves.getD i []) i) 0 leaves.length) := by
    have hpow : 2 ^ 31 ≤ 2 ^ f := Nat.pow_le_pow_right (by decide) hf
    refine leavesRootIn_span (List.length_pos_iff.mpr h0) (by omega) (by omega) (by omega) fun i hi => ?_
    rw [Nat.zero_add, List.getD_eq_getElem _ _ hi]
  rw [subtreeRoot, subtreeRootIn_leaves hpos hlen, hmsg, hspan 31 (Nat.le_refl 31), ← hspan 32 (by decide)]
  exact hroot

/-- What a builder of two leaves or more gives. -/
theorem rootRight_two (zero : H) (trees : Vector H 32) {leaves : List (List UInt8)} (h1 : 1 < leaves.length)
    (hn : leaves.length ≤ 2 ^ 31) : ∃ b root, RootRight X zero trees leaves b root := by
  have hlf : ∀ i (hi : i < leaves.length), X.leafHash (leaves.getD i []) i = X.leafHash leaves[i] i := by
    intro i hi
    rw [List.getD_eq_getElem _ _ hi]
  obtain ⟨b, hbuild, hb⟩ := build_spec (X := X) (g := fun i => X.leafHash (leaves.getD i []) i) zero trees rfl
    (by omega) hn hlf
  have hroot : leavesRoot X leaves = some (spanRoot X.parentHash (fun i => X.leafHash (leaves.getD i []) i) 0
    leaves.length) := leavesRoot_eq (by omega) (by omega)
  refine ⟨b, _, hbuild, hb.proof, ?_, hroot, fun msg hmsg hlen =>
    message_root (List.ne_nil_of_length_pos (by omega)) hroot hmsg hlen⟩
  -- the proof is the spine, which gives the root
  have hbelow : ∀ h < bitsWord (leaves.length - 1), 2 ^ h < leaves.length := by
    intro h hh
    by_contra hge
    have := met0_le_iff.mpr (show leaves.length - 1 < 2 ^ h by omega)
    rw [bitsWord] at hh
    omega
  have htop : leaves.length ≤ 2 ^ bitsWord (leaves.length - 1) := by
    have := lt_two_pow_met0 (leaves.length - 1)
    rw [bitsWord]
    omega
  rw [proof_eq_spine hb h1 hn, spine, lssRoot, ← node_root htop]
  exact congrArg some (@foldl_spine _ X.parentHash (fun i => X.leafHash (leaves.getD i []) i) _ _ hbelow)

/-- The proof of one leaf is the cleared hash. -/
theorem rootRight_one {zero : H} {trees : Vector H 32} {leaf : List UInt8} :
    (∃ b root, RootRight X zero trees [leaf] b root) ↔ X.leafHash leaf 0 = zero := by
  obtain ⟨b, hbuild, -, hproof⟩ := build_one (X := X) zero trees leaf
  have hroot : leavesRoot X [leaf] = some (X.leafHash leaf 0) := leavesRootIn_one 32 leaf 0
  constructor
  · rintro ⟨b', root, h⟩
    obtain rfl := Option.some.inj (hbuild.symm.trans h.build)
    have hfold := h.fold
    rw [hproof] at hfold
    have htree := h.tree
    rw [hroot] at htree
    exact (Option.some.inj htree).trans (Option.some.inj hfold).symm
  · intro hz
    refine ⟨b, zero, hbuild, ?_, ?_, ?_, fun msg hmsg hlen => ?_⟩
    · rw [hproof, List.length_singleton, List.length_singleton, proofSize_one]
    · rw [hproof]
      rfl
    · rw [hroot, hz]
    · exact message_root (List.cons_ne_nil _ _) (by rw [hroot, hz]) hmsg hlen

/-- **The finalized proof of a message gives the root of its leaves** if there are `2 ^ 31` of them at
most; and if there is one, its hash has to be the cleared one. -/
theorem rootRight_iff (X : Hasher H) (zero : H) (trees : Vector H 32) (leaves : List (List UInt8)) (h0 : leaves ≠ [])
    (hn : leaves.length < 2 ^ 32) :
    (∃ b root, RootRight X zero trees leaves b root) ↔
      leaves.length ≤ 2 ^ 31 ∧ (leaves.length = 1 → X.leafHash (leaves.headD []) 0 = zero) := by
  rcases Nat.lt_or_ge 1 leaves.length with h1 | h1
  · constructor
    · rintro ⟨b, root, h⟩
      refine ⟨Nat.le_of_not_lt fun hbig => ?_, fun h2 => by omega⟩
      obtain ⟨b0, hrun, hfin⟩ := Option.bind_eq_some_iff.mp h.build
      have hcount := builderRun_counter hrun (show 0 + leaves.length < 2 ^ 32 by omega)
      rw [show (builderInit zero trees leaves.length).counter = 0 from rfl, Nat.zero_add] at hcount
      rw [finalize_undefined (by omega) (by omega)] at hfin
      cases hfin
    · exact fun h => rootRight_two zero trees h1 h.1
  · obtain ⟨leaf, rfl⟩ : ∃ leaf, leaves = [leaf] := by
      rw [← List.length_eq_one_iff]
      have := List.length_pos_iff.mpr h0
      omega
    rw [rootRight_one]
    simp only [List.length_singleton, List.headD_cons, true_imp_iff]
    exact ⟨fun h => ⟨by omega, h⟩, fun h => h.2⟩

theorem rootRight_three : ∃ b root,
    RootRight termHasher .zero (Vector.replicate 32 .zero) [[1, 2], [3], [4]] b root :=
  (rootRight_iff termHasher .zero _ [[1, 2], [3], [4]] (by decide) (by decide)).mpr ⟨by decide, fun h => by cases h⟩

/-- A proof of one leaf does not give its root. -/
theorem one_leaf_no_root : ¬ ∃ b root, RootRight termHasher .zero (Vector.replicate 32 .zero) [[1, 2]] b root := by
  rw [rootRight_one]
  decide

end Lss
end Ursockets
