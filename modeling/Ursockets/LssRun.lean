/-
# A message and its verifier

A verifier that has the builder's proof and is given the builder's pairs accepts
all the leaves of the message, if they are two at least: the builder of a message of
one leaf leaves its proof as it was cleared. And a verifier that has the proof of a
message accepts nothing but the leaves of that message, in order, each with
its pair.

Key definitions: `buildAndVerify`, `CollisionFreeHasher`, `Committed`, `Term`.
Key theorems: `buildAndVerify_iff`, `accepted_prefix`.
-/
import Ursockets.LssVerify

namespace Ursockets
namespace Lss

open Bits Merkle

variable {H : Type} [DecidableEq H] (X : Hasher H)

/-- A message is built, and its verifier is given each leaf with the builder's
pair for it: whether it accepts them all. -/
def buildAndVerify (zero : H) (trees : Vector H 32) (mem : ℕ → H × H) (leaves : List (List UInt8)) : Option Bool := do
  let b ← builderRun X (builderInit zero trees leaves.length) leaves
  let b ← builderFinalize X b
  let v ← verifierInit mem 0 leaves.length b.proof
  let ins ← leaves.zipIdx.mapM fun (leaf, i) => (builderPair b i).map fun pair => (leaf, pair)
  let (ok, _) ← verifierRun X v ins
  some ok

/-- Hashes made up of what they are hashes of. -/
inductive Term where
  | zero
  | leaf (l : List UInt8) (i : ℕ)
  | parent (l r : Term)
  deriving DecidableEq

/-- The hashes that are terms. -/
def termHasher : Hasher Term := ⟨.leaf, .parent⟩

variable {X}

theorem mapM_some {α β : Type} {f : α → Option β} {g : α → β} : ∀ {l : List α}, (∀ a ∈ l, f a = some (g a)) →
    l.mapM f = some (l.map g)
  | [], _ => rfl
  | a :: l, h => by
    rw [List.mapM_cons, h a List.mem_cons_self, mapM_some fun b hb => h b (List.mem_cons_of_mem a hb)]
    rfl

omit [DecidableEq H] in
theorem subtreeRoot_leaf {leaf : List UInt8} {i : ℕ} (h : leaf.length ≤ 1024) :
    subtreeRoot X leaf i = some (X.leafHash leaf i) := by
  rw [subtreeRoot, subtreeRootIn, if_pos h]

/-- The verifier accepts what is left of the message. -/
theorem verifierRun_committed {g : ℕ → H} {n : ℕ} (h1 : 1 < n) (hn : n ≤ 2 ^ 31) :
    ∀ (leaves : List (List UInt8)) {v : Verifier H} {c : ℕ}, Slots X g n v c → v.steps = 0 → c + leaves.length ≤ n →
      (∀ i (hi : i < leaves.length), leaves[i].length ≤ 1024 ∧ g (c + i) = X.leafHash leaves[i] (c + i)) →
      ∃ v', verifierRun X v ((leaves.zipIdx c).map fun p => (p.1, committedPair X g n p.2)) = some (true, v')
  | [], v, c, _, _, _, _ => ⟨v, rfl⟩
  | leaf :: leaves, v, c, hs, hsteps, hlen, hlf => by
    rw [List.length_cons] at hlen
    obtain ⟨hshort, hleaf⟩ := hlf 0 (Nat.succ_pos _)
    have hshort : leaf.length ≤ 1024 := hshort
    have hroot : subtreeRoot X leaf (c <<< v.steps % 2 ^ 32) = some (g c) := by
      rw [hsteps, Nat.shiftLeft_zero, Nat.mod_eq_of_lt (by omega), subtreeRoot_leaf hshort]
      exact congrArg some hleaf.symm
    obtain ⟨v', hingest, hsteps', hs'⟩ := accept_committed hs (by omega) h1 hn (by omega) hroot
    obtain ⟨v'', hrun⟩ := verifierRun_committed h1 hn leaves hs' (hsteps'.trans hsteps) (by omega)
      fun i hi => by
        have h2 := hlf (i + 1) (Nat.succ_lt_succ hi)
        have h3 : c + (i + 1) = c + 1 + i := by omega
        rw [h3] at h2
        exact h2
    refine ⟨v'', ?_⟩
    rw [List.zipIdx_cons, List.map_cons, verifierRun, hingest]
    exact hrun

omit [DecidableEq H] in
/-- The builder's proof is the spine of the tree. -/
theorem proof_eq_spine {g : ℕ → H} {n : ℕ} {b : Builder H} (hb : Finished X g n b) (h1 : 1 < n) (hn : n ≤ 2 ^ 31) :
    b.proof = spine X.parentHash g n (bitsWord (n - 1)) := by
  have hlen : b.proof.length = bitsWord (n - 1) + 1 := by
    rw [hb.proof, proofSize, pred_eq (by omega) (by omega), Nat.add_comm]
  refine List.ext_getElem? fun i => ?_
  rcases Nat.lt_or_ge i (bitsWord (n - 1) + 1) with hi | hi
  swap
  · rw [List.getElem?_eq_none (by omega), List.getElem?_eq_none (by rw [length_spine]; omega)]
  cases i with
  | zero =>
    have hknown := hb.known 0 0 (by decide) (by omega)
    rw [Known, if_pos rfl] at hknown
    exact hknown.2 rfl
  | succ h =>
    have hh : 2 ^ h < n := by
      by_contra hge
      have : met0 (n - 1) ≤ h := met0_le_iff.mpr (by omega)
      rw [bitsWord] at hi
      omega
    have h32 : h < 32 := by
      have := (Nat.pow_lt_pow_iff_right (a := 2) (by decide)).mp (show 2 ^ h < 2 ^ 31 by omega)
      omega
    have hknown := hb.known h 0 h32 (by omega)
    rw [Known, if_pos rfl] at hknown
    rw [hknown.1, spine, List.getElem?_cons_succ, List.getElem?_map, List.getElem?_range (by omega)]
    rfl

theorem buildAndVerify_two {zero : H} {trees : Vector H 32} {mem : ℕ → H × H} {leaves : List (List UInt8)}
    (hshort : ∀ l ∈ leaves, l.length ≤ 1024) (h1 : 1 < leaves.length) (hn : leaves.length ≤ 2 ^ 31) :
    buildAndVerify X zero trees mem leaves = some true := by
  have hlf : ∀ i (hi : i < leaves.length), X.leafHash (leaves.getD i []) i = X.leafHash leaves[i] i := by
    intro i hi
    rw [List.getD_eq_getElem _ _ hi]
  obtain ⟨b, hbuild, hb⟩ := build_spec (X := X) (g := fun i => X.leafHash (leaves.getD i []) i) zero
    trees rfl (by omega) hn hlf
  obtain ⟨b0, hrun, hfin⟩ := Option.bind_eq_some_iff.mp hbuild
  obtain ⟨v, hinit, hsteps, hs⟩ := init_slots mem 0 h1 hn (proof_eq_spine hb h1 hn)
  have hpairs : leaves.zipIdx.mapM (fun (leaf, i) => (builderPair b i).map fun pair => (leaf, pair)) =
      some (leaves.zipIdx.map fun p =>
        (p.1, committedPair X (fun i => X.leafHash (leaves.getD i []) i) leaves.length p.2)) := by
    refine mapM_some fun ⟨leaf, i⟩ hp => ?_
    have hi : i < leaves.length := List.snd_lt_of_mem_zipIdx hp
    show (builderPair b i).map _ = _
    rw [builderPair_spec hb hi hn]
    rfl
  obtain ⟨v', hverify⟩ := verifierRun_committed h1 hn leaves hs hsteps (by omega) fun i hi =>
    ⟨hshort _ (List.getElem_mem hi), by rw [Nat.zero_add]; exact hlf i hi⟩
  unfold buildAndVerify
  rw [hrun]
  simp only [Option.bind_eq_bind, Option.bind_some, hfin, hinit]
  rw [hpairs, Option.bind_some, hverify]
  rfl

/-! ### One leaf, and too many -/

theorem proofSize_one : proofSize 1 = 1 := by
  rw [proofSize, pred_eq (by omega) (by omega), Nat.sub_self, bitsWord, met0, if_pos rfl]

omit [DecidableEq H] in
/-- A counter of one has no bit above the lowest. -/
theorem finalizeLoop_one {b : Builder H} (hb : b.counter = 1) (h : H) : ∀ {f t : ℕ}, 0 < t → t + f = 32 →
    finalizeLoop X f b h t = some b
  | 0, _, _, _ => rfl
  | f + 1, t, ht, hf => by
    have hbit : 1 &&& 2 ^ t = 0 := by
      rw [and_bit, Nat.div_eq_of_lt (Nat.one_lt_two_pow (by omega))]
    unfold finalizeLoop
    rw [shl1_of_lt (by omega), hb]
    simp only [Option.bind_eq_bind, Option.bind_some, hbit, if_true]
    exact finalizeLoop_one hb h (by omega) (by omega)

omit [DecidableEq H] in
theorem finalize_one {b : Builder H} (hc : b.counter = 1) {h : H} (ht : b.trees[0]? = some h) :
    builderFinalize X b = some b := by
  have htz : tzWord 1 = some 0 := tzWord_odd 0 (z := 0) (by omega)
  unfold builderFinalize
  simp only [hc, ne_eq, Nat.one_ne_zero, not_false_eq_true, if_true, htz, Option.bind_eq_bind, Option.bind_some, ht]
  exact finalizeLoop_one hc _ (by omega) (by omega)

omit [DecidableEq H] in
/-- The first leaf is put away as it is. -/
theorem ingest_first {b : Builder H} (hc : b.counter = 0) (hlen : 0 < b.trees.length) (leaf : List UInt8) :
    builderIngest X b leaf = some { b with trees := b.trees.set 0 (X.leafHash leaf 0), counter := 1 } := by
  have hmod : (0 + 1) % 2 ^ 32 = 1 := by omega
  unfold builderIngest ingestLoop
  simp only [hc, shl1_of_lt (show 0 < 32 by omega), Option.bind_eq_bind, Option.bind_some, Nat.zero_and, if_true,
    write_of_lt hlen, hmod]

omit [DecidableEq H] in
/-- A message of one leaf leaves its proof as it was cleared. -/
theorem build_one (zero : H) (trees : Vector H 32) (leaf : List UInt8) :
    ∃ b, (builderRun X (builderInit zero trees 1) [leaf]).bind (builderFinalize X) = some b ∧ b.leaves = 1 ∧
      b.proof = [zero] := by
  have hlen : 0 < trees.toList.length := by
    rw [Vector.length_toList]
    omega
  have hproof : (builderInit zero trees 1).proof = [zero] := by
    rw [builderInit, proofSize_one, List.replicate_one]
  refine ⟨{ builderInit zero trees 1 with trees := trees.toList.set 0 (X.leafHash leaf 0), counter := 1 }, ?_, rfl,
    hproof⟩
  rw [builderRun, List.foldlM_cons, ingest_first rfl hlen]
  exact finalize_one rfl (List.getElem?_set_self hlen)

omit [DecidableEq H] in
/-- A verifier of one leaf has one pair, and its right hash is what was in the arena. -/
theorem init_one (mem : ℕ → H × H) (steps : ℕ) (root : H) :
    verifierInit mem steps 1 [root] = some ⟨steps, 1, 0, [(root, (mem 0).2)]⟩ := by
  have hbits : bitsWord 1 = 1 := by
    have h1 : met0 1 ≤ 1 := met0_le_iff.mpr (by omega)
    have h2 : 0 < met0 1 := met0_pos Nat.one_ne_zero
    exact Nat.le_antisymm h1 h2
  unfold verifierInit
  rw [hbits, proofSize_one]
  rfl
/-- What a verifier of one leaf compares with. -/
theorem check_one {mem : H} {steps : ℕ} {root h : H} {c : ℕ} (hc : c ≤ 1) :
    checkHash ⟨steps, 1, c, [(root, mem)]⟩ c 0 h = some (decide ((if c = 0 then root else mem) = h)) := by
  have hpred : pred 1 = 0 := by rw [pred_eq (by omega) (by omega)]
  have htop : shl1 (bitsWord 0) = some 1 := rfl
  have hodd : (1 + 2 ^ 32 - 1) % 2 ^ 32 = 0 := by omega
  have hbits : bitsWord (c ^^^ 0) < 32 := by
    rw [Nat.xor_zero]
    exact Nat.lt_succ_of_le (met0_le_iff.mpr (by omega))
  have htz : tzWord (inv 0) = some 0 := by
    refine tzWord_eq (by omega) ?_ fun j hj => absurd hj (Nat.not_lt_zero j)
    rw [testBit_inv _ (by omega), Nat.zero_testBit, Bool.not_false]
  have hshr : ∀ w, shr w 0 = some w := fun w => by rw [shr_of_lt (by omega), Nat.pow_zero, Nat.div_one]
  unfold checkHash
  simp only [Option.bind_eq_bind]
  rw [hpred, htop, Option.bind_some, hodd, shl1_of_lt hbits, Option.bind_some, Nat.zero_and, hshr,
    Option.bind_some, htz,
    Option.bind_some, Nat.add_zero, hshr, Option.bind_some, Nat.and_one_is_mod, Nat.mod_eq_of_lt (show c < 2 by omega)]
  rfl
/-- A verifier of one leaf does not accept another hash. -/
theorem ingest_one_other {mem : H} {steps : ℕ} {root h : H} {c : ℕ} {leaf : List UInt8} {pair : Option (H × H)}
    (hsteps : steps < 32) (hc : c ≤ 1) (hroot : subtreeRoot X leaf (c <<< steps % 2 ^ 32) = some h)
    (hne : (if c = 0 then root else mem) ≠ h) :
    verifierIngest X ⟨steps, 1, c, [(root, mem)]⟩ leaf pair = some (false, ⟨steps, 1, c, [(root, mem)]⟩) := by
  unfold verifierIngest
  rw [shl1_of_lt hsteps]
  simp only [Option.bind_eq_bind]
  rw [Option.bind_some, hroot, Option.bind_some, check_one hc, Option.bind_some, decide_eq_false hne]
  rfl

/-- A verifier of one leaf accepts its leaf, alone. -/
theorem ingest_one_root {mem : H} {steps : ℕ} {root : H} {leaf : List UInt8} (pair : Option (H × H))
    (hsteps : steps < 32) (hroot : subtreeRoot X leaf 0 = some root) :
    verifierIngest X ⟨steps, 1, 0, [(root, mem)]⟩ leaf pair =
      if pair = none then some (true, ⟨steps, 1, 1, [(root, mem)]⟩)
      else some (false, ⟨steps, 1, 0, [(root, mem)]⟩) := by
  have hmod : (0 + 1) % 2 ^ 32 = 1 := by omega
  unfold verifierIngest
  rw [shl1_of_lt hsteps]
  simp only [Option.bind_eq_bind]
  rw [Option.bind_some, Nat.zero_shiftLeft, Nat.zero_mod, hroot, Option.bind_some, check_one (Nat.zero_le 1),
    Option.bind_some, if_pos rfl, decide_eq_true rfl, expectPair, if_pos rfl, Option.bind_some, hmod]
  cases pair with
  | none => rfl
  | some p => rfl

/-- The proof of a message of one leaf is the cleared hash. -/
theorem buildAndVerify_one {zero : H} {trees : Vector H 32} {mem : ℕ → H × H} {leaf : List UInt8}
    (hshort : leaf.length ≤ 1024) :
    buildAndVerify X zero trees mem [leaf] = some true ↔ zero = X.leafHash leaf 0 := by
  obtain ⟨b, hbuild, hleaves, hproof⟩ := build_one (X := X) zero trees leaf
  obtain ⟨b0, hrun, hfin⟩ := Option.bind_eq_some_iff.mp hbuild
  have hpair : builderPair b 0 = some none := by
    unfold builderPair
    rw [hleaves]
    rfl
  have hins : [leaf].zipIdx.mapM (fun (leaf, i) => (builderPair b i).map fun pair => (leaf, pair)) =
      some [(leaf, none)] := by
    rw [List.zipIdx_cons, List.zipIdx_nil, List.mapM_cons, List.mapM_nil]
    show ((builderPair b 0).map _).bind _ = _
    rw [hpair]
    rfl
  unfold buildAndVerify
  rw [List.length_singleton, hrun]
  simp only [Option.bind_eq_bind]
  rw [Option.bind_some, hfin, Option.bind_some, hproof, init_one, Option.bind_some, hins, Option.bind_some, verifierRun]
  by_cases heq : zero = X.leafHash leaf 0
  · rw [ingest_one_root none (by omega) (by rw [subtreeRoot_leaf hshort, heq])]
    exact iff_of_true rfl heq
  · rw [ingest_one_other (by omega) (Nat.zero_le 1) (subtreeRoot_leaf hshort) (by simpa using heq)]
    refine iff_of_false (fun h => ?_) heq
    cases h

/-- A shift of the check is undefined for more than `2 ^ 31` leaves. -/
theorem check_undefined {v : Verifier H} (hn : 2 ^ 31 < v.leaves) (hn' : v.leaves < 2 ^ 32) (i height : ℕ) (h : H) :
    checkHash v i height h = none := by
  have hbits : ¬ bitsWord (pred v.leaves) < 32 := by
    rw [pred_eq (by omega) hn', bitsWord, Nat.not_lt]
    by_contra hlt
    have := met0_le_iff.mp (show met0 (v.leaves - 1) ≤ 31 by omega)
    omega
  unfold checkHash
  rw [shl1, if_neg hbits]
  rfl

theorem ingest_undefined {v : Verifier H} (hn : 2 ^ 31 < v.leaves) (hn' : v.leaves < 2 ^ 32) (leaf : List UInt8)
    (pair : Option (H × H)) : verifierIngest X v leaf pair = none := by
  unfold verifierIngest
  simp only [check_undefined hn hn', Option.bind_eq_bind, Option.bind_none, Option.bind_fun_none]

omit [DecidableEq H] in
theorem init_leaves {mem : ℕ → H × H} {steps n : ℕ} {proof : List H} {v : Verifier H}
    (h : verifierInit mem steps n proof = some v) : v.steps = steps ∧ v.leaves = n ∧ v.counter = 0 := by
  unfold verifierInit at h
  simp only [Option.bind_eq_bind, Option.bind_eq_some_iff, Option.some.injEq] at h
  obtain ⟨-, -, -, -, -, -, -, -, rfl⟩ := h
  exact ⟨rfl, rfl, rfl⟩

/-- **A message passes its own verifier if it has two leaves at least**, and `2 ^ 31` at
most; a message of one leaf does if its leaf's hash is the cleared one. -/
theorem buildAndVerify_iff (X : Hasher H) (zero : H) (trees : Vector H 32) (mem : ℕ → H × H)
    (leaves : List (List UInt8)) (h0 : leaves ≠ []) (hn : leaves.length < 2 ^ 32)
    (hshort : ∀ l ∈ leaves, l.length ≤ 1024) :
    buildAndVerify X zero trees mem leaves = some true ↔
      leaves.length ≤ 2 ^ 31 ∧ (leaves.length = 1 → X.leafHash (leaves.headD []) 0 = zero) := by
  rcases Nat.lt_or_ge 1 leaves.length with h1 | h1
  · constructor
    · intro h
      refine ⟨Nat.le_of_not_lt fun hbig => ?_, fun h2 => by omega⟩
      unfold buildAndVerify at h
      simp only [Option.bind_eq_bind, Option.bind_eq_some_iff] at h
      obtain ⟨b0, -, b, -, v, hinit, ins, hins, ⟨ok, v'⟩, hrun, hok⟩ := h
      obtain ⟨-, hleaves, -⟩ := init_leaves hinit
      cases hleaves' : leaves with
      | nil => exact h0 hleaves'
      | cons leaf rest =>
        rw [hleaves', List.zipIdx_cons, List.mapM_cons] at hins
        simp only [Option.bind_eq_bind, Option.bind_eq_some_iff, Option.pure_def, Option.some.injEq] at hins
        obtain ⟨⟨l, pair⟩, -, ins', -, rfl⟩ := hins
        rw [verifierRun, ingest_undefined (by omega) (by omega)] at hrun
        cases hrun
    · exact fun h => buildAndVerify_two hshort h1 h.1
  · obtain ⟨leaf, rfl⟩ : ∃ leaf, leaves = [leaf] := by
      rw [← List.length_eq_one_iff]
      have := List.length_pos_iff.mpr h0
      omega
    rw [buildAndVerify_one (hshort leaf List.mem_cons_self)]
    simp only [List.length_singleton, List.headD_cons, true_imp_iff]
    exact ⟨fun h => ⟨by omega, h.symm⟩, fun h => h.2.symm⟩

theorem buildAndVerify_three :
    buildAndVerify termHasher .zero (Vector.replicate 32 .zero) (fun _ => (.zero, .zero)) [[1, 2], [3], []] =
      some true :=
  (buildAndVerify_iff termHasher .zero _ _ [[1, 2], [3], []] (by decide) (by decide) (by decide)).mpr
    ⟨by decide, fun h => by cases h⟩

/-- A message of one leaf does not pass its own verifier. -/
theorem one_leaf_fails :
    buildAndVerify termHasher .zero (Vector.replicate 32 .zero) (fun _ => (.zero, .zero)) [[1, 2]] ≠ some true := by
  rw [ne_eq, buildAndVerify_one (by decide)]
  decide

/-! ### An adversary -/

/-- The hashes of leaves and of pairs have no collisions, and none is both. -/
structure CollisionFreeHasher (X : Hasher H) : Prop where
  leaf : ∀ {l l' : List UInt8} {i i' : ℕ}, l.length ≤ 1024 → l'.length ≤ 1024 → i < 2 ^ 64 → i' < 2 ^ 64 →
    X.leafHash l i = X.leafHash l' i' → l = l' ∧ i = i'
  parent : CollisionFree X.parentHash
  separate : ∀ {l : List UInt8} {i : ℕ} {a b : H}, l.length ≤ 1024 → X.leafHash l i ≠ X.parentHash a b

omit [DecidableEq H] in
/-- **A root is that of one run of bytes, at one place.** -/
theorem subtreeRootIn_inj (hx : CollisionFreeHasher X) : ∀ {f f' : ℕ} {l l' : List UInt8} {i i' : ℕ} {h : H},
    i < 2 ^ 64 → i' < 2 ^ 64 → subtreeRootIn X f l i = some h → subtreeRootIn X f' l' i' = some h → l = l' ∧ i = i'
  | 0, _, _, _, _, _, _, _, _, h1, _ => by cases h1
  | _ + 1, 0, _, _, _, _, _, _, _, _, h2 => by cases h2
  | f + 1, f' + 1, l, l', i, i', h, hi, hi', h1, h2 => by
    unfold subtreeRootIn at h1 h2
    simp only [Option.bind_eq_bind] at h1 h2
    split at h1
    · rename_i hl
      cases h1
      split at h2
      · rename_i hl'
        exact hx.leaf hl hl' hi hi' (Option.some.inj h2).symm
      · simp only [Option.bind_eq_some_iff, Option.some.injEq] at h2
        obtain ⟨mid, -, a, -, b, -, heq⟩ := h2
        exact absurd heq.symm (hx.separate hl)
    · simp only [Option.bind_eq_some_iff, Option.some.injEq] at h1
      obtain ⟨mid, -, a, ha, b, hb, rfl⟩ := h1
      split at h2
      · rename_i hl'
        exact absurd (Option.some.inj h2) (hx.separate hl')
      · simp only [Option.bind_eq_some_iff, Option.some.injEq] at h2
        obtain ⟨mid', -, a', ha', b', hb', heq⟩ := h2
        obtain ⟨rfl, rfl⟩ := hx.parent _ _ _ _ heq
        obtain ⟨hleft, rfl⟩ := subtreeRootIn_inj hx hi hi' ha ha'
        obtain ⟨hright, -⟩ := subtreeRootIn_inj hx (Nat.mod_lt _ (by decide)) (Nat.mod_lt _ (by decide)) hb hb'
        refine ⟨?_, rfl⟩
        rw [← List.take_append_drop (mid * 1024 % 2 ^ 32) l, hleft, hright, List.take_append_drop]

omit [DecidableEq H] in
theorem subtreeRoot_inj (hx : CollisionFreeHasher X) {l l' : List UInt8} {i i' : ℕ} {h : H} (hi : i < 2 ^ 64)
    (hi' : i' < 2 ^ 64) (h1 : subtreeRoot X l i = some h) (h2 : subtreeRoot X l' i' = some h) : l = l' ∧ i = i' :=
  subtreeRootIn_inj hx hi hi' h1 h2

/-- The leaves of a message, of `2 ^ steps` leaves of the builder each, and their hashes. -/
structure Committed (X : Hasher H) (steps : ℕ) (leaves : List (List UInt8)) (g : ℕ → H) : Prop where
  root : ∀ i (hi : i < leaves.length), subtreeRoot X leaves[i] (i * 2 ^ steps) = some (g i)
  small : leaves.length * 2 ^ steps < 2 ^ 32

/-- Each input that is accepted is the committed leaf with its pair. -/
def Follows (X : Hasher H) (leaves : List (List UInt8)) (g : ℕ → H) (c : ℕ)
    (ins : List (List UInt8 × Option (H × H))) : Prop :=
  ins.map Prod.fst <+: leaves.drop c ∧
    ∀ k (hk : k < ins.length), ins[k].2 = committedPair X g leaves.length (c + k)

omit [DecidableEq H] in
theorem Follows.cons {leaves : List (List UInt8)} {g : ℕ → H} {c : ℕ} {ins : List (List UInt8 × Option (H × H))}
    (h : Follows X leaves g (c + 1) ins) (hc : c < leaves.length) :
    Follows X leaves g c ((leaves[c], committedPair X g leaves.length c) :: ins) := by
  refine ⟨?_, fun k hk => ?_⟩
  · rw [List.map_cons, List.drop_eq_getElem_cons hc]
    exact List.cons_prefix_cons.mpr ⟨rfl, h.1⟩
  · cases k with
    | zero => rfl
    | succ k =>
      have h1 : c + (k + 1) = c + 1 + k := by omega
      rw [h1]
      exact h.2 k (Nat.lt_of_succ_lt_succ hk)

omit [DecidableEq H] in
theorem Follows.nil (leaves : List (List UInt8)) (g : ℕ → H) (c : ℕ) : Follows X leaves g c [] :=
  ⟨List.nil_prefix, fun k hk => absurd hk (Nat.not_lt_zero k)⟩

/-- What a verifier of two leaves or more accepts. -/
theorem verifierRun_follows (hx : CollisionFreeHasher X) {steps : ℕ} {leaves : List (List UInt8)} {g : ℕ → H}
    (hl : Committed X steps leaves g) (h1 : 1 < leaves.length) (hn : leaves.length ≤ 2 ^ 31) (hsteps : steps < 32) :
    ∀ {ins : List (List UInt8 × Option (H × H))} {v v' : Verifier H} {c : ℕ}, c ≤ leaves.length →
      Slots X g leaves.length v c → v.steps = steps → verifierRun X v ins = some (true, v') →
      Follows X leaves g c ins
  | [], _, _, c, _, _, _, _ => Follows.nil leaves g c
  | (leaf, pair) :: ins, v, v', c, hc, hs, hst, hrun => by
    have hshift : ∀ i ≤ leaves.length, i <<< steps % 2 ^ 32 = i * 2 ^ steps := by
      intro i hi
      rw [Nat.shiftLeft_eq]
      exact Nat.mod_eq_of_lt ((Nat.mul_le_mul_right _ hi).trans_lt hl.small)
    have hsmall : ∀ i ≤ leaves.length, i * 2 ^ steps < 2 ^ 64 := fun i hi =>
      ((Nat.mul_le_mul_right _ hi).trans_lt hl.small).trans (by omega)
    rw [verifierRun] at hrun
    obtain ⟨⟨ok, w⟩, hingest, hrest⟩ := Option.bind_eq_some_iff.mp hrun
    cases ok with
    | false => cases hrest
    | true =>
      have hrest : verifierRun X w ins = some (true, v') := hrest
      rcases Nat.lt_or_eq_of_le hc with hlt | heq
      · obtain ⟨hroot, rfl, hst', hs'⟩ := committed_of_accept hx.parent hs (by omega) h1 hn hlt hingest
        rw [hst, hshift c hc] at hroot
        obtain ⟨rfl, -⟩ := subtreeRoot_inj hx (hsmall c hc) (hsmall c hc) hroot (hl.root c hlt)
        exact Follows.cons (verifierRun_follows hx hl h1 hn hsteps hlt hs' (hst'.trans hst) hrest) hlt
      · -- past the end the hash would be that of an earlier leaf
        exfalso
        unfold verifierIngest at hingest
        simp only [Option.bind_eq_bind, Option.bind_eq_some_iff] at hingest
        obtain ⟨-, -, h, hroot, b, hcheck, hout⟩ := hingest
        cases b with
        | false => cases hout
        | true =>
          rw [hs.counter, heq] at hcheck hroot
          rw [heq] at hs
          obtain ⟨x, hxlt, rfl⟩ := check_past hs h1 hn hcheck
          rw [hst, hshift _ (Nat.le_refl _)] at hroot
          obtain ⟨-, h2⟩ := subtreeRoot_inj hx (hsmall _ (Nat.le_refl _)) (hsmall x hxlt.le) hroot (hl.root x hxlt)
          exact absurd (Nat.eq_of_mul_eq_mul_right (Nat.two_pow_pos steps) h2) hxlt.ne'

/-- What is accepted has been hashed. -/
theorem hashed_of_accept {v v' : Verifier H} {leaf : List UInt8} {pair : Option (H × H)}
    (h : verifierIngest X v leaf pair = some (true, v')) :
    ∃ r, subtreeRoot X leaf (v.counter <<< v.steps % 2 ^ 32) = some r := by
  unfold verifierIngest at h
  simp only [Option.bind_eq_bind, Option.bind_eq_some_iff] at h
  obtain ⟨-, -, r, hr, -⟩ := h
  exact ⟨r, hr⟩

/-- What a verifier of one leaf accepts. -/
theorem verifierRun_one (hx : CollisionFreeHasher X) {steps : ℕ} {leaf : List UInt8} {g : ℕ → H} {mem : H}
    (hleaf : subtreeRoot X leaf 0 = some (g 0)) (hsteps : steps < 32)
    (hmem : ∀ leaf, subtreeRoot X leaf (1 <<< steps % 2 ^ 32) ≠ some mem)
    {ins : List (List UInt8 × Option (H × H))} {v' : Verifier H}
    (hrun : verifierRun X ⟨steps, 1, 0, [(g 0, mem)]⟩ ins = some (true, v')) : Follows X [leaf] g 0 ins := by
  cases ins with
  | nil => exact Follows.nil _ _ _
  | cons input rest =>
    obtain ⟨l, pair⟩ := input
    rw [verifierRun] at hrun
    obtain ⟨⟨ok, w⟩, hingest, hrest⟩ := Option.bind_eq_some_iff.mp hrun
    cases ok with
    | false => cases hrest
    | true =>
      have hrest : verifierRun X w rest = some (true, v') := hrest
      obtain ⟨r, hr⟩ := hashed_of_accept hingest
      have hr0 : subtreeRoot X l 0 = some r := by
        rw [← hr, Nat.zero_shiftLeft, Nat.zero_mod]
      by_cases heq : g 0 = r
      swap
      · rw [ingest_one_other hsteps (Nat.zero_le 1) hr (by simpa using heq)] at hingest
        cases hingest
      subst heq
      obtain ⟨rfl, -⟩ := subtreeRoot_inj hx (by omega) (by omega) hr0 hleaf
      rw [ingest_one_root pair hsteps hleaf] at hingest
      split at hingest
      swap
      · cases hingest
      rename_i hpair
      cases hingest
      cases rest with
      | nil =>
        have hfirst : pair = committedPair X g [l].length 0 := by rw [committedPair_zero, hpair]
        rw [hfirst]
        exact Follows.cons (Follows.nil [l] g 1) Nat.zero_lt_one
      | cons input' rest' =>
        exfalso
        obtain ⟨l', pair'⟩ := input'
        rw [verifierRun] at hrest
        obtain ⟨⟨ok, w⟩, hingest', hrest'⟩ := Option.bind_eq_some_iff.mp hrest
        cases ok with
        | false => cases hrest'
        | true =>
          obtain ⟨r', hr'⟩ := hashed_of_accept hingest'
          have hne : mem ≠ r' := by
            rintro rfl
            exact hmem l' hr'
          rw [ingest_one_other hsteps (Nat.le_refl 1) hr' (by simpa using hne)] at hingest'
          cases hingest'

omit [DecidableEq H] in
/-- **One root has one proof.** -/
theorem eq_spine (hx : CollisionFree X.parentHash) {g : ℕ → H} {n : ℕ} {proof : List H} (h1 : 1 < n) (hn : n < 2 ^ 32)
    (hlen : proof.length = proofSize n) (hroot : lssRoot X proof = some (spanRoot X.parentHash g 0 n)) :
    proof = spine X.parentHash g n (bitsWord (n - 1)) := by
  rw [proofSize, pred_eq (by omega) hn] at hlen
  have hbelow : ∀ h < bitsWord (n - 1), 2 ^ h < n := by
    intro h hh
    by_contra hge
    have : met0 (n - 1) ≤ h := met0_le_iff.mpr (by omega)
    rw [bitsWord] at hh
    omega
  have htop : n ≤ 2 ^ bitsWord (n - 1) := by
    have := lt_two_pow_met0 (n - 1)
    rw [bitsWord]
    omega
  cases proof with
  | nil =>
    rw [List.length_nil] at hlen
    omega
  | cons h proof =>
    rw [lssRoot, Option.some_inj, ← node_root htop, ← foldl_spine hbelow] at hroot
    obtain ⟨rfl, rfl⟩ := foldl_parent_inj hx (by
      rw [List.length_map, List.length_range]
      rw [List.length_cons] at hlen
      omega) hroot
    rfl

/-- **A verifier that has the proof of a message accepts a prefix of its leaves**,
each with its pair. -/
theorem accepted_prefix (X : Hasher H) (hx : CollisionFreeHasher X) (mem : ℕ → H × H) (steps : ℕ)
    (leaves : List (List UInt8)) (g : ℕ → H) (hl : Committed X steps leaves g) (proof : List H)
    (hlen : proof.length = proofSize leaves.length)
    (hroot : lssRoot X proof = some (spanRoot X.parentHash g 0 leaves.length))
    (hmem : leaves.length = 1 → ∀ leaf, subtreeRoot X leaf (1 <<< steps % 2 ^ 32) ≠ some (mem 0).2)
    (ins : List (List UInt8 × Option (H × H))) (v v' : Verifier H)
    (hinit : verifierInit mem steps leaves.length proof = some v) (hrun : verifierRun X v ins = some (true, v')) :
    Follows X leaves g 0 ins := by
  obtain ⟨hst, hvl, -⟩ := init_leaves hinit
  have hpow := Nat.two_pow_pos steps
  have hn32 : leaves.length < 2 ^ 32 := (Nat.le_mul_of_pos_right _ hpow).trans_lt hl.small
  cases hins : ins with
  | nil => exact Follows.nil leaves g 0
  | cons input rest =>
    rw [← hins]
    rcases Nat.lt_or_ge (2 ^ 31) leaves.length with hbig | hn
    · rw [hins, verifierRun, ingest_undefined (by omega) (by omega)] at hrun
      cases hrun
    by_cases h0 : leaves.length = 0
    · -- a verifier of no leaves has no pair to put the proof in
      rw [h0] at hinit
      unfold verifierInit at hinit
      simp only [Option.bind_eq_bind, Option.bind_eq_some_iff] at hinit
      obtain ⟨h, -, p, hp, -⟩ := hinit
      cases hp
    have hsteps : steps < 32 := by
      have h1 : 2 ^ steps < 2 ^ 32 := (Nat.le_mul_of_pos_left _ (Nat.pos_of_ne_zero h0)).trans_lt hl.small
      exact (Nat.pow_lt_pow_iff_right (a := 2) (by omega)).mp h1
    rcases Nat.lt_or_ge 1 leaves.length with h1 | h1
    · obtain ⟨w, hw, hwst, hs⟩ := init_slots mem steps h1 hn (eq_spine hx.parent h1 hn32 hlen hroot)
      rw [hw] at hinit
      cases hinit
      exact verifierRun_follows hx hl h1 hn hsteps (Nat.zero_le _) hs hwst hrun
    · obtain ⟨leaf, rfl⟩ : ∃ leaf, leaves = [leaf] := by
        rw [← List.length_eq_one_iff]
        omega
      obtain ⟨r, rfl⟩ : ∃ r, proof = [r] := by
        rw [← List.length_eq_one_iff, hlen]
        exact proofSize_one
      have hr : r = g 0 := by
        rw [lssRoot, List.foldl_nil, List.length_singleton, spanRoot_one (Nat.le_refl 1)] at hroot
        exact Option.some.inj hroot
      have hleaf := hl.root 0 Nat.zero_lt_one
      rw [Nat.zero_mul] at hleaf
      rw [List.length_singleton, init_one] at hinit
      cases hinit
      subst hr
      exact verifierRun_one hx hleaf hsteps (hmem rfl) hrun

theorem termHasher_free : CollisionFreeHasher termHasher where
  leaf := fun _ _ _ _ h => Term.leaf.inj h
  parent := fun _ _ _ _ h => Term.parent.inj h
  separate := fun _ h => Term.noConfusion h

/-- The hashes of the two leaves `[1]` and `[2]`. -/
def twoLeaves : ℕ → Term := fun i => .leaf [UInt8.ofNat (i + 1)] i

theorem accepted_prefix_two : ∃ v v', verifierInit (fun _ => (.zero, .zero)) 0 2 [twoLeaves 0, twoLeaves 1] = some v ∧
    verifierRun termHasher v [([1], none), ([2], none)] = some (true, v') ∧
      Follows termHasher [[1], [2]] twoLeaves 0 [([1], none), ([2], none)] := by
  have hl : Committed termHasher 0 [[1], [2]] twoLeaves := by
    refine ⟨fun i hi => ?_, by decide⟩
    have hi : i < 2 := hi
    obtain rfl | rfl : i = 0 ∨ i = 1 := by omega
    · exact subtreeRoot_leaf (show [(1 : UInt8)].length ≤ 1024 by decide)
    · exact subtreeRoot_leaf (show [(2 : UInt8)].length ≤ 1024 by decide)
  have hsize : proofSize 2 = 2 := by decide +kernel
  have hroot : lssRoot termHasher [twoLeaves 0, twoLeaves 1] =
      some (spanRoot termHasher.parentHash twoLeaves 0 2) := by
    rw [spanRoot_pair (by omega), spanRoot_one (by decide +kernel), spanRoot_one (by decide +kernel)]
    rfl
  have hlen : [twoLeaves 0, twoLeaves 1].length = proofSize 2 := hsize.symm
  have hspine := eq_spine (n := 2) termHasher_free.parent (by omega) (by omega) hlen hroot
  obtain ⟨v, hinit, hsteps, hs⟩ := init_slots (n := 2) (fun _ => (.zero, .zero)) 0 (by omega) (by omega) hspine
  have hcommitted : committedPair termHasher twoLeaves 2 1 = none :=
    (committedPair_odd (m := 0) (h := 0) (by omega)).trans (if_neg (by omega))
  obtain ⟨v', hrun⟩ := verifierRun_committed (by omega) (by omega) [[1], [2]] hs hsteps (by decide)
    fun i hi => by
      have hi : i < 2 := hi
      obtain rfl | rfl : i = 0 ∨ i = 1 := by omega
      · exact ⟨show [(1 : UInt8)].length ≤ 1024 by decide, rfl⟩
      · exact ⟨show [(2 : UInt8)].length ≤ 1024 by decide, rfl⟩
  simp only [List.zipIdx_cons, List.zipIdx_nil, List.map_cons, List.map_nil, Nat.zero_add, committedPair_zero,
    hcommitted] at hrun
  exact ⟨v, v', hinit, hrun, accepted_prefix termHasher termHasher_free (fun _ => (.zero, .zero)) 0
    [[1], [2]] twoLeaves hl
    [twoLeaves 0, twoLeaves 1] hlen hroot (fun h => by cases h) _ v v' hinit hrun⟩

/-- A verifier of one leaf compares a second one with what was in the arena, and
one of two leaves of `2 ^ 31` leaves each takes its first leaf again as its third. -/
theorem more_than_committed :
    ((verifierInit (fun _ => (Term.zero, Term.leaf [7] 1)) 0 1 [.leaf [1] 0]).bind fun v =>
        (verifierRun termHasher v [([1], none), ([7], none)]).map Prod.fst) = some true ∧
      lssRoot termHasher [.leaf [1] 0] = subtreeRoot termHasher [1] 0 ∧
    ((verifierInit (fun _ => (Term.zero, Term.zero)) 31 2 [.leaf [1] 0, .leaf [2] (2 ^ 31)]).bind fun v =>
        (verifierRun termHasher v [([1], none), ([2], none), ([1], none)]).map Prod.fst) = some true ∧
      ¬ [[1], [7]] <+: [[(1 : UInt8)]] ∧ ¬ [[1], [2], [1]] <+: [[1], [(2 : UInt8)]] := by
  refine ⟨?_, ?_, ?_, ?_, ?_⟩
  · decide +kernel
  · decide +kernel
  · decide +kernel
  · decide
  · decide

end Lss
end Ursockets
