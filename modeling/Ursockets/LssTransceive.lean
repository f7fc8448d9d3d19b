/-
# Leaves out of jumbo leaves

A builder may be given the leaves of a message in groups of `2 ^ steps`, each with its pair:
`lss_builder_transceive` puts the pair away, takes the leaves of the group and says how many
pairs are ready. The pairs of the groups are those of greater height; the builder itself joins
the others, and in the end all of them.

A pair of height `h` is joined three subtrees behind the leaf that it goes with, so the last
half of a group has pairs that wait for the next one: unless the group has fewer leaves than
the others, this is what is not ready.

Key definitions: `builderTransceive`, `transceiveRun`, `Handed`.
Key theorems: `transceive_spec`, `transceiveRun_spec`, `jumbo_pairs`, `ready_pair`.
-/
import Ursockets.LssJumbo

namespace Ursockets
namespace Lss

open Bits Merkle

variable {H : Type} (X : Hasher H)

/-- `(1<<steps)/2` as a word; `1<<31` is negative. -/
def halfGroup (steps : ℕ) : Option ℕ :=
  if steps < 31 then some (2 ^ steps / 2) else if steps = 31 then some (2 ^ 32 - 2 ^ 30) else none

/-- The pair that a group comes with is put at the counter. -/
def storePair (b : Builder H) : Option (H × H) → Option (Builder H)
  | none => some b
  | some pair => (write b.pairs b.counter pair).map fun pairs => { b with pairs }

/-- The loop of `lss_builder_transceive`: `n` more leaves at most. -/
def transceiveLoop : ℕ → Builder H → List UInt8 → Option (Builder H)
  | 0, b, _ => some b
  | n + 1, b, jumbo =>
    if 0 < jumbo.length then (builderIngest X b (jumbo.take 1024)).bind fun b => transceiveLoop n b (jumbo.drop 1024)
    else some b

/-- `lss_builder_transceive`: how many pairs are ready, and the builder. -/
def builderTransceive (b : Builder H) (steps : ℕ) (jumbo : List UInt8) (pair : Option (H × H)) :
    Option (ℕ × Builder H) := do
  let b ← storePair b pair
  let count ← shl1 steps
  let b ← transceiveLoop X count b jumbo
  let half ← halfGroup steps
  some (min ((b.counter + 2 ^ 32 - half) % 2 ^ 32) b.leaves, b)

/-- Groups and their pairs, in order. -/
def transceiveRun (steps : ℕ) (b : Builder H) (ins : List (List UInt8 × Option (H × H))) : Option (Builder H) :=
  ins.foldlM (fun b p => (builderTransceive X b steps p.1 p.2).map Prod.snd) b

variable {X} {g : ℕ → H} {n : ℕ} {pairs : ℕ → Option (H × H)} {s : ℕ}

/-! ### The leaves of a group -/

theorem leavesOf_cons {msg : List UInt8} (h0 : 0 < msg.length) :
    leavesOf msg = msg.take 1024 :: leavesOf (msg.drop 1024) := by
  have hdrop : (msg.drop 1024).length = msg.length - 1024 := List.length_drop
  refine List.ext_getElem (by rw [List.length_cons, length_leavesOf, length_leavesOf, hdrop]; omega) fun i h1 h2 => ?_
  cases i with
  | zero => rw [getElem_leavesOf, Nat.mul_zero, List.drop_zero, List.getElem_cons_zero]
  | succ i =>
    rw [List.getElem_cons_succ, getElem_leavesOf, getElem_leavesOf, List.drop_drop]
    congr 2
    ring

theorem leavesOf_nil : leavesOf [] = [] := rfl

/-- The loop of `lss_builder_transceive` takes the leaves of the group. -/
theorem transceiveLoop_eq : ∀ (k : ℕ) (b : Builder H) (jumbo : List UInt8),
    transceiveLoop X k b jumbo = builderRun X b ((leavesOf jumbo).take k)
  | 0, _, _ => rfl
  | k + 1, b, jumbo => by
    rw [transceiveLoop]
    split
    · rename_i h0
      rw [leavesOf_cons h0, List.take_succ_cons, builderRun, List.foldlM_cons]
      exact congrArg _ (funext fun b' => transceiveLoop_eq k b' _)
    · rename_i h0
      obtain rfl := List.length_eq_zero_iff.mp (Nat.eq_zero_of_not_pos h0)
      rw [leavesOf_nil]
      rfl

/-! ### One group -/

theorem known_succ {b : Builder H} {h m : ℕ} : Known X g n b h (m + 1) ↔ b.pairs[(2 * m + 1) * 2 ^ h]? =
    some (node X.parentHash g n h (2 * (m + 1)), node X.parentHash g n h (2 * (m + 1) + 1)) := by
  rw [Known, if_neg (Nat.succ_ne_zero m), pair_place (Nat.succ_ne_zero m), Nat.succ_sub_one]

/-- A pair at the counter is not in the way of those that the builder has joined. -/
theorem storePair_spec {b : Builder H} {c : ℕ} (hb : Built X g n b c) (hc : c < n) (pair : Option (H × H)) :
    ∃ b', storePair b pair = some b' ∧ Built X g n b' c ∧ b'.proof = b.proof ∧
      (∀ h m, (2 * m + 1) * 2 ^ h ≠ c → Known X g n b h (m + 1) → Known X g n b' h (m + 1)) ∧
      ∀ p, pair = some p → b'.pairs[c]? = some p := by
  cases pair with
  | none => exact ⟨b, rfl, hb, rfl, fun _ _ _ h => h, fun p hp => nomatch hp⟩
  | some pair =>
    have hlt : b.counter < b.pairs.length := by
      rw [hb.pairs, hb.counter]
      exact hc
    have hkeep : ∀ h m, (2 * m + 1) * 2 ^ h ≠ c → Known X g n b h (m + 1) →
        Known X g n { b with pairs := b.pairs.set b.counter pair } h (m + 1) := by
      intro h m hne hk
      rw [known_succ] at hk ⊢
      rw [List.getElem?_set_ne (by rw [hb.counter]; exact hne.symm)]
      exact hk
    refine ⟨{ b with pairs := b.pairs.set b.counter pair }, ?_,
      ⟨⟨hb.trees, hb.leaves, hb.counter, hb.proof, by rw [List.length_set, hb.pairs]⟩, hb.root,
        fun h j hh hle => ?_⟩, rfl, hkeep, fun p hp => ?_⟩
    · rw [storePair, write_of_lt hlt, Option.map_some]
    · have hk := hb.known h j hh hle
      cases j with
      | zero => exact hk
      | succ m =>
        refine hkeep h m (fun heq => ?_) hk
        have hpow := Nat.two_pow_pos h
        have hplace : (2 * (m + 1) + 2) * 2 ^ h = (2 * m + 1) * 2 ^ h + 3 * 2 ^ h := by ring
        omega
    · obtain rfl := Option.some.inj hp
      rw [← hb.counter]
      exact List.getElem?_set_self hlt

/-- **`lss_builder_transceive` takes the leaves of a group.** -/
theorem transceive_spec {msg : List UInt8} {b : Builder H} {i : ℕ} (hi : i < (groupsOf s msg).length) (hs : s < 32)
    (hn : (leavesOf msg).length ≤ 2 ^ 31)
    (hlf : ∀ c (hc : c < (leavesOf msg).length), g c = X.leafHash (leavesOf msg)[c] c)
    (hb : Built X g (leavesOf msg).length b (i * 2 ^ s)) (pair : Option (H × H)) : ∃ half b',
      halfGroup s = some half ∧ builderTransceive X b s (groupsOf s msg)[i] pair =
        some (min ((b'.counter + 2 ^ 32 - half) % 2 ^ 32) b'.leaves, b') ∧
      Built X g (leavesOf msg).length b' (min ((i + 1) * 2 ^ s) (leavesOf msg).length) ∧
      ((leavesOf msg).length = 1 → b'.proof = b.proof) ∧
      (∀ h m, h < 32 → (2 * m + 1) * 2 ^ h ≠ i * 2 ^ s → Known X g (leavesOf msg).length b h (m + 1) →
        Known X g (leavesOf msg).length b' h (m + 1)) ∧
      ∀ h m, h < 32 → (2 * m + 1) * 2 ^ h = i * 2 ^ s →
        pair = some (node X.parentHash g (leavesOf msg).length h (2 * (m + 1)),
          node X.parentHash g (leavesOf msg).length h (2 * (m + 1) + 1)) →
        Known X g (leavesOf msg).length b' h (m + 1) := by
  have hin := (grouped_groupsOf s msg i).mp hi
  have hpow := Nat.two_pow_pos s
  have hnext : (i + 1) * 2 ^ s = i * 2 ^ s + 2 ^ s := by ring
  obtain ⟨half, hhalf⟩ : ∃ half, halfGroup s = some half := by
    rw [halfGroup]
    split
    · exact ⟨_, rfl⟩
    · exact ⟨_, if_pos (by omega)⟩
  obtain ⟨b₁, hstore, hb₁, hproof, hkept, hgiven⟩ := storePair_spec hb hin pair
  have hlen : (((leavesOf msg).drop (i * 2 ^ s)).take (2 ^ s)).length =
      min (2 ^ s) ((leavesOf msg).length - i * 2 ^ s) := by
    rw [List.length_take, List.length_drop]
  obtain ⟨b', hrun, hb', hkeep⟩ := builderRun_spec hn (((leavesOf msg).drop (i * 2 ^ s)).take (2 ^ s)) hb₁ (by omega)
    fun k hk => by
      rw [List.getElem_take, List.getElem_drop]
      exact hlf _ (by omega)
  have hcount : i * 2 ^ s + (((leavesOf msg).drop (i * 2 ^ s)).take (2 ^ s)).length =
      min ((i + 1) * 2 ^ s) (leavesOf msg).length := by omega
  rw [hcount] at hb'
  refine ⟨half, b', hhalf, ?_, hb', fun h1 => ?_, fun h m hh hne hk => ?_, fun h m hh heq hp => ?_⟩
  · unfold builderTransceive
    rw [hstore]
    simp only [Option.bind_eq_bind, Option.bind_some]
    rw [shl1_of_lt hs, Option.bind_some, transceiveLoop_eq, leavesOf_group, List.take_take, Nat.min_self, hrun,
      Option.bind_some, hhalf, Option.bind_some]
  · -- a leaf alone is joined with nothing
    obtain ⟨leaf, hleaf⟩ := List.length_eq_one_iff.mp h1
    have hzero : i * 2 ^ s = 0 := by omega
    have htake : [leaf].take (2 ^ s) = [leaf] := List.take_of_length_le hpow
    rw [hleaf, hzero, List.drop_zero, htake, builderRun, List.foldlM_cons,
      ingest_first (hb₁.counter.trans hzero) (by rw [hb₁.trees]; decide)] at hrun
    obtain rfl := Option.some.inj hrun
    exact hproof
  · exact hkeep h (m + 1) hh (hkept h m hne hk)
  · refine hkeep h (m + 1) hh ?_
    rw [known_succ, heq]
    exact hgiven _ hp

/-! ### The whole message -/

theorem inputs_take_succ {leaves : List (List UInt8)} {k : ℕ} (hk : k < leaves.length) :
    inputs pairs 0 (leaves.take (k + 1)) = inputs pairs 0 (leaves.take k) ++ [(leaves[k], pairs k)] := by
  rw [inputs, List.take_succ_eq_append_getElem hk, List.zipIdx_append, List.map_append, List.length_take_of_le hk.le,
    Nat.zero_add]
  rfl

/-- The builder has the pairs of the groups it has taken. -/
def Handed (X : Hasher H) (g : ℕ → H) (n s : ℕ) (b : Builder H) (k : ℕ) : Prop :=
  ∀ h m, s ≤ h → (2 * m + 1) * 2 ^ h < k * 2 ^ s → (2 * (m + 1) + 1) * 2 ^ h < n → Known X g n b h (m + 1)

/-- **A builder takes the groups of a message**, with any pairs; and if they are those that go with the groups,
it has them. -/
theorem transceiveRun_spec (pairs : ℕ → Option (H × H)) (zero : H) (trees : Vector H 32) {msg : List UInt8}
    (hs : s < 32) (hn : (leavesOf msg).length ≤ 2 ^ 31)
    (hlf : ∀ c (hc : c < (leavesOf msg).length), g c = X.leafHash (leavesOf msg)[c] c) :
    ∀ {k : ℕ}, k ≤ (groupsOf s msg).length → ∃ b,
      transceiveRun X s (builderInit zero trees (leavesOf msg).length) (inputs pairs 0 ((groupsOf s msg).take k)) =
        some b ∧
      Built X g (leavesOf msg).length b (min (k * 2 ^ s) (leavesOf msg).length) ∧
      ((leavesOf msg).length = 1 → b.proof = [zero]) ∧
      ((∀ i < k, pairs i = committedPair X g (leavesOf msg).length (i * 2 ^ s)) →
        Handed X g (leavesOf msg).length s b k)
  | 0, _ => by
    refine ⟨_, rfl, ?_, fun h1 => ?_, fun _ h m _ hlt => ?_⟩
    · rw [Nat.zero_mul, Nat.zero_min]
      exact init_built zero trees
    · rw [h1, builderInit, proofSize_one, List.replicate_one]
    · rw [Nat.zero_mul] at hlt
      exact absurd hlt (Nat.not_lt_zero _)
  | k + 1, hk => by
    obtain ⟨b, hrun, hb, hone, hhanded⟩ := transceiveRun_spec pairs zero trees hs hn hlf (k := k)
      (by omega)
    have hkn := (grouped_groupsOf s msg k).mp hk
    rw [Nat.min_eq_left hkn.le] at hb
    obtain ⟨half, b', -, htrans, hb', hone', hkeep, hgiven⟩ := transceive_spec hk hs hn hlf hb (pairs k)
    refine ⟨b', ?_, hb', fun h1 => (hone' h1).trans (hone h1), fun hpairs h m hle hlt hfit => ?_⟩
    · rw [inputs_take_succ hk, transceiveRun, List.foldlM_append]
      rw [transceiveRun] at hrun
      rw [hrun, Option.bind_eq_bind, Option.bind_some, List.foldlM_cons, htrans]
      rfl
    · have hh : h < 31 := height_lt hfit hn
      by_cases heq : (2 * m + 1) * 2 ^ h = k * 2 ^ s
      · refine hgiven h m (by omega) heq ?_
        rw [hpairs k (Nat.lt_succ_self k), ← heq, committedPair_odd (by omega), if_pos hfit]
      · refine hkeep h m (by omega) heq (hhanded (fun i hi => hpairs i (Nat.lt_succ_of_lt hi)) h m hle ?_ hfit)
        -- the place is the start of a group
        have hplace : (2 * m + 1) * 2 ^ h = (2 * m + 1) * 2 ^ (h - s) * 2 ^ s := by
          rw [Nat.mul_assoc, ← Nat.pow_add, Nat.sub_add_cancel hle]
        rw [hplace] at hlt heq ⊢
        have h1 := Nat.lt_of_mul_lt_mul_right hlt
        have h2 : (2 * m + 1) * 2 ^ (h - s) ≠ k := fun h3 => heq (by rw [h3])
        exact Nat.mul_lt_mul_of_pos_right (by omega) (Nat.two_pow_pos s)

/-! ### What is ready -/

variable [DecidableEq H]

/-- **The pairs that the jumbo verifier accepts** are those that go with the groups. -/
theorem jumbo_pairs {mem : ℕ → H × H} {msg : List UInt8} {proof : List H} (hs : s < 32)
    (hn : (leavesOf msg).length ≤ 2 ^ 31) (hlen : proof.length = proofSize (groupsOf s msg).length)
    (hsmall : ∀ i (hi : i < (groupsOf s msg).length), (groupsOf s msg)[i].length + 1023 < 2 ^ 32)
    (hlf : ∀ c (hc : c < (leavesOf msg).length), g c = X.leafHash (leavesOf msg)[c] c)
    (haccept : Accepts X mem s (groupsOf s msg).length proof (inputs pairs 0 (groupsOf s msg))) {i : ℕ}
    (hi : i < (groupsOf s msg).length) : pairs i = committedPair X g (leavesOf msg).length (i * 2 ^ s) := by
  have hm := grouped_groupsOf s msg
  have hle := hm.le
  have hm0 := haccept.pos
  obtain ⟨V, hV⟩ := exists_values (X := X) pairs hm0 (by omega) hlen
  have hall := (accepts_iff hV hm0 (by omega) mem hs (Nat.le_refl _)).mp haccept
  have hnode : ∀ h q, q * 2 ^ h < (groupsOf s msg).length →
      node X.parentHash g (leavesOf msg).length (h + s) q = V h q := fun h q hq =>
    ((rooted_node (X := X) (g := g)).groups hm).value hV (by omega) (k := (groupsOf s msg).length)
      (fun c hc => by
        have hroot := subtreeRoot_group (X := X) hc hn (hsmall c hc) fun c hc _ _ => hlf c hc
        rw [Nat.zero_add]
        exact Option.some.inj (hroot.symm.trans (hall c hc).1))
      (fun c hc => (hall c hc).2) hq (Nat.min_le_right _ _)
  have hin := (hm i).mp hi
  rcases Nat.eq_zero_or_pos i with rfl | hpos
  · rw [Nat.zero_mul, committedPair_zero]
    exact joined_zero.mp (hall 0 hi).2
  obtain ⟨x, h, -, rfl⟩ := exists_odd_mul hpos.ne' (by omega)
  have hodd : (2 * x + 1) * 2 ^ h * 2 ^ s = (2 * x + 1) * 2 ^ (h + s) := by rw [Nat.mul_assoc, ← Nat.pow_add]
  have hh : h + s < 31 := height_lt (hodd ▸ hin) hn
  rw [hodd, committedPair_odd (by omega)]
  obtain ⟨hnone, hno⟩ | ⟨y, t, l, r, hp, heq, hfit, -⟩ := (hall _ hi).2
  · rw [committedPair_odd (by omega)] at hno
    rw [hnone, if_neg]
    intro hlt
    rw [if_pos ((hm.at _ _).mpr hlt)] at hno
    exact nomatch hno
  · have hy : (2 * y + 1) * 2 ^ t < (groupsOf s msg).length := heq ▸ hi
    obtain ⟨rfl, rfl⟩ := odd_mul_inj heq (by omega) (by have := height_lt hy (by omega); omega)
    obtain ⟨hl, hr⟩ := hV.reads x h l r hp hfit
    have hbefore : 2 * (x + 1) * 2 ^ h < (groupsOf s msg).length :=
      (Nat.mul_le_mul_right _ (Nat.le_succ _)).trans_lt hfit
    rw [hp, if_pos ((hm.at _ _).mp hfit), hnode h _ hbefore, hnode h _ hfit, hl, hr]

omit [DecidableEq H] in
/-- What is ready after `c` groups of `2 ^ s` leaves; a group of `2 ^ 31` is the whole message. -/
theorem ready_bound {c k half : ℕ} (hhalf : halfGroup s = some half) (hle : c * 2 ^ s ≤ n) (h0 : 0 < c)
    (hn : n ≤ 2 ^ 31) (hk : k < (c * 2 ^ s + 2 ^ 32 - half) % 2 ^ 32) :
    k + 2 ^ s / 2 < c * 2 ^ s ∨ c * 2 ^ s = n := by
  have hone : 2 ^ s ≤ c * 2 ^ s := Nat.le_mul_of_pos_left _ h0
  rcases Nat.lt_or_ge s 31 with hlt | hge
  · rw [halfGroup, if_pos hlt, Option.some_inj] at hhalf
    subst hhalf
    left
    omega
  · have hpow : 2 ^ 31 ≤ 2 ^ s := Nat.pow_le_pow_right (by decide) hge
    right
    omega

omit [DecidableEq H] in
/-- **A pair that is ready is the final one.** -/
theorem ready_pair {b : Builder H} {c k i : ℕ} (hb : Built X g n b c) (hhanded : Handed X g n s b i)
    (hc : c = i * 2 ^ s) (hn : n ≤ 2 ^ 31) (hkn : k < n) (hk : k + 2 ^ s / 2 < c ∨ c = n) :
    builderPair b k = some (committedPair X g n k) := by
  have hexpect := expectPair_spec (X := X) (g := g) hkn hn
  unfold builderPair
  rw [hb.leaves, hexpect]
  simp only [Option.bind_eq_bind, Option.bind_some]
  cases hpair : committedPair X g n k with
  | none => rfl
  | some p =>
    have h0 : k ≠ 0 := by
      rintro rfl
      rw [committedPair_zero] at hpair
      exact nomatch hpair
    obtain ⟨m, h, hh, rfl⟩ := exists_odd_mul h0 (by omega)
    rw [committedPair_odd hh] at hpair
    split at hpair
    swap
    · exact nomatch hpair
    rename_i hfit
    have hpos := Nat.two_pow_pos h
    have hgroup := Nat.two_pow_pos s
    have hright : (2 * (m + 1) + 1) * 2 ^ h = (2 * m + 1) * 2 ^ h + 2 * 2 ^ h := by ring
    have hknown : Known X g n b h (m + 1) := by
      rcases Nat.lt_or_ge h s with hlow | hhigh
      · refine hb.known h (m + 1) hh ?_
        -- `c` is a multiple of `2 ^ (h + 1)` behind the left one of the two subtrees
        obtain ⟨e, rfl⟩ := Nat.exists_eq_add_of_lt hlow
        have hsplit : i * 2 ^ (h + e + 1) = i * 2 ^ e * 2 * 2 ^ h := by ring
        have hhalf : 2 ^ (h + e + 1) / 2 = 2 ^ e * 2 ^ h := by
          rw [Nat.pow_succ, Nat.mul_div_cancel _ (by decide), Nat.pow_add, Nat.mul_comm]
        have hone : 2 ^ h ≤ 2 ^ e * 2 ^ h := Nat.le_mul_of_pos_left _ (Nat.two_pow_pos e)
        have hnext : (2 * m + 2) * 2 ^ h = (2 * m + 1) * 2 ^ h + 2 ^ h := by ring
        have hbehind : (2 * m + 2) * 2 ^ h < i * 2 ^ e * 2 * 2 ^ h := by
          rw [← hsplit, ← hc]
          omega
        have hcount := Nat.lt_of_mul_lt_mul_right hbehind
        rw [hc, hsplit]
        exact Nat.mul_le_mul_right _ (by omega)
      · exact hhanded h m hhigh (by omega) hfit
    rw [known_succ] at hknown
    simp only [Option.isSome_some, if_true, hknown, Option.bind_some]
    exact congrArg some hpair

/-! ### Builders and verifiers of groups -/

/-- What the groups of a message do: to a verifier, to a builder in the end, and to one on the way. -/
structure JumboRight (X : Hasher H) (zero : H) (trees : Vector H 32) (s : ℕ) (msg : List UInt8) : Prop where
  /-- A verifier of the groups accepts the first of them if that of the leaves accepts theirs. -/
  accepts : ∀ (mem mem' : ℕ → H × H) (proof : List H) (pairs : ℕ → Option (H × H)) (k : ℕ),
    proof.length = proofSize (leavesOf msg).length → (s = 0 ∨ 2 ^ (s - 1) < (leavesOf msg).length) →
    min (1024 * 2 ^ s) msg.length + 1023 < 2 ^ 32 →
    Accepts X mem 0 (leavesOf msg).length proof (inputs pairs 0 ((leavesOf msg).take (k * 2 ^ s))) →
    ∃ proof', transceiveProof X proof s = some proof' ∧
      Accepts X mem' s (groupsOf s msg).length proof'
        (inputs (fun i => pairs (i * 2 ^ s)) 0 ((groupsOf s msg).take k))
  /-- A builder of the groups ends up with the proof and the pairs of one of the leaves. -/
  same : ∀ pairs : ℕ → Option (H × H), ∃ b b',
    (transceiveRun X s (builderInit zero trees (leavesOf msg).length) (inputs pairs 0 (groupsOf s msg))).bind
      (builderFinalize X) = some b ∧
    built X zero trees (leavesOf msg) = some b' ∧ b.proof = b'.proof ∧ ∀ i, builderPair b i = builderPair b' i
  /-- After a group of `2 ^ s` leaves, of a stream that a verifier accepts, what is ready is as it is in the end. -/
  ready : ∀ (mem : ℕ → H × H) (proof : List H) (pairs : ℕ → Option (H × H)),
    proof.length = proofSize (groupsOf s msg).length → min (1024 * 2 ^ s) msg.length + 1023 < 2 ^ 32 →
    Accepts X mem s (groupsOf s msg).length proof (inputs pairs 0 (groupsOf s msg)) →
    ∀ i (hi : i < (groupsOf s msg).length), (i + 1) * 2 ^ s ≤ (leavesOf msg).length → ∃ b r b' b'',
      transceiveRun X s (builderInit zero trees (leavesOf msg).length) (inputs pairs 0 ((groupsOf s msg).take i)) =
        some b ∧
      builderTransceive X b s (groupsOf s msg)[i] (pairs i) = some (r, b') ∧
      (transceiveRun X s (builderInit zero trees (leavesOf msg).length) (inputs pairs 0 (groupsOf s msg))).bind
        (builderFinalize X) = some b'' ∧
      ∀ k < r, builderPair b' k = builderPair b'' k

omit [DecidableEq H] in
/-- Builders that have joined the same leaves give the same pairs. -/
theorem Finished.pair_eq {b b' : Builder H} (hb : Finished X g n b) (hb' : Finished X g n b') (hn : n ≤ 2 ^ 31)
    (i : ℕ) : builderPair b i = builderPair b' i := by
  rcases Nat.lt_or_ge i n with hi | hi
  · rw [builderPair_spec hb hi hn, builderPair_spec hb' hi hn]
  · have hout : b.pairs[i]? = none := List.getElem?_eq_none (by rw [hb.pairs]; exact hi)
    have hout' : b'.pairs[i]? = none := List.getElem?_eq_none (by rw [hb'.pairs]; exact hi)
    unfold builderPair
    rw [hb.leaves, hb'.leaves, hout, hout']

theorem length_group_le {msg : List UInt8} (hsmall : min (1024 * 2 ^ s) msg.length + 1023 < 2 ^ 32) (i : ℕ)
    (hi : i < (groupsOf s msg).length) : (groupsOf s msg)[i].length + 1023 < 2 ^ 32 := by
  rw [getElem_groupsOf, List.length_take, List.length_drop]
  omega

omit [DecidableEq H] in
theorem finalize_none {b : Builder H} (hc : b.counter = 0) : builderFinalize X b = some b := by
  rw [builderFinalize, if_neg (not_not.mpr hc)]

omit [DecidableEq H] in
/-- The builder of the groups in the end. -/
theorem transceiveRun_finalize (zero : H) (trees : Vector H 32) {msg : List UInt8} (hs : s < 32)
    (h0 : 0 < (leavesOf msg).length) (hn : (leavesOf msg).length ≤ 2 ^ 31)
    (hlf : ∀ c (hc : c < (leavesOf msg).length), g c = X.leafHash (leavesOf msg)[c] c)
    (pairs : ℕ → Option (H × H)) : ∃ b,
      (transceiveRun X s (builderInit zero trees (leavesOf msg).length) (inputs pairs 0 (groupsOf s msg))).bind
        (builderFinalize X) = some b ∧
      Finished X g (leavesOf msg).length b ∧ ((leavesOf msg).length = 1 → b.proof = [zero]) := by
  obtain ⟨b, hrun, hb, hone, -⟩ := transceiveRun_spec pairs zero trees hs hn hlf (Nat.le_refl _)
  have hall : (leavesOf msg).length ≤ (groupsOf s msg).length * 2 ^ s :=
    Nat.le_of_not_lt fun hlt => Nat.lt_irrefl _ ((grouped_groupsOf s msg _).mpr hlt)
  rw [List.take_length] at hrun
  rw [Nat.min_eq_right hall] at hb
  obtain ⟨b', hfin, hb'⟩ := finalize_spec hb h0 hn
  refine ⟨b', by rw [hrun, Option.bind_some, hfin], hb', fun h1 => ?_⟩
  -- a leaf alone is joined with nothing
  have hroot := hb.root 0 0 (by decide) (by rw [h1]; rfl)
  rw [finalize_one (hb.counter.trans h1) hroot] at hfin
  obtain rfl := Option.some.inj hfin
  exact hone h1

/-- **Groups of `2 ^ s` leaves do what the leaves do**: a verifier of them accepts what that of the leaves accepts,
a builder that takes them ends up with the same proof and pairs, and after a whole group it says that no pair is
ready but what is final. -/
theorem jumbo_right (X : Hasher H) (zero : H) (trees : Vector H 32) (s : ℕ) (msg : List UInt8) (hs : s < 32)
    (hn : (leavesOf msg).length ≤ 2 ^ 31) : JumboRight X zero trees s msg := by
  have hlf : ∀ c (hc : c < (leavesOf msg).length),
      X.leafHash ((leavesOf msg).getD c []) c = X.leafHash (leavesOf msg)[c] c := by
    intro c hc
    rw [List.getD_eq_getElem _ _ hc]
  refine ⟨fun mem mem' proof pairs k hlen hfar hsmall hplain =>
    jumbo_accepts mem mem' hn hlen hfar (length_group_le hsmall) hplain, fun pairs => ?_,
    fun mem proof pairs hlen hsmall haccept i hi hwhole => ?_⟩
  · rcases Nat.eq_zero_or_pos (leavesOf msg).length with h0 | h0
    · have hgroups : groupsOf s msg = [] := by
        have := (grouped_groupsOf s msg).le
        exact List.length_eq_zero_iff.mp (by omega)
      have hfin := finalize_none (X := X) (b := builderInit zero trees (leavesOf msg).length) rfl
      refine ⟨builderInit zero trees (leavesOf msg).length, builderInit zero trees (leavesOf msg).length, ?_, ?_, rfl,
        fun _ => rfl⟩
      · rw [hgroups]
        exact hfin
      · rw [built, List.length_eq_zero_iff.mp h0] at *
        exact hfin
    obtain ⟨b, hfin, hb, hone⟩ := transceiveRun_finalize zero trees hs h0 hn hlf pairs
    obtain ⟨b', hbuild, hb'⟩ := build_spec (X := X) zero trees rfl h0 hn hlf
    refine ⟨b, b', hfin, hbuild, ?_, hb.pair_eq hb' hn⟩
    rcases Nat.lt_or_ge 1 (leavesOf msg).length with h1 | h1
    · rw [proof_eq_spine hb h1 hn, proof_eq_spine hb' h1 hn]
    · obtain ⟨leaf, hleaf⟩ := List.length_eq_one_iff.mp (show (leavesOf msg).length = 1 by omega)
      obtain ⟨b₁, hbuild', -, hproof⟩ := build_one (X := X) zero trees leaf
      rw [hleaf] at hbuild
      obtain rfl := Option.some.inj (hbuild'.symm.trans hbuild)
      rw [hproof, hone (by omega)]
  · have hpow := Nat.two_pow_pos s
    have hnext : (i + 1) * 2 ^ s = i * 2 ^ s + 2 ^ s := by ring
    obtain ⟨b'', hfin, hb'', -⟩ := transceiveRun_finalize zero trees hs (by omega) hn hlf pairs
    obtain ⟨b, hrun, hb, -⟩ := transceiveRun_spec pairs zero trees hs hn hlf hi.le
    obtain ⟨b₁, hrun₁, hb₁, -, hhanded⟩ := transceiveRun_spec pairs zero trees hs hn hlf (k := i + 1) hi
    rw [Nat.min_eq_left (by omega)] at hb hb₁
    obtain ⟨half, b', hhalf, htrans, -⟩ := transceive_spec hi hs hn hlf hb (pairs i)
    -- the builder after the group
    have hb' : b' = b₁ := by
      rw [inputs_take_succ hi, transceiveRun, List.foldlM_append] at hrun₁
      rw [transceiveRun] at hrun
      rw [hrun, Option.bind_eq_bind, Option.bind_some, List.foldlM_cons, htrans] at hrun₁
      exact Option.some.inj hrun₁
    subst hb'
    refine ⟨b, _, b', b'', hrun, htrans, hfin, fun k hk => ?_⟩
    rw [hb₁.counter, hb₁.leaves] at hk
    have hkn := (Nat.lt_min.mp hk).2
    rw [builderPair_spec hb'' hkn hn]
    refine ready_pair hb₁ (hhanded fun j hj => ?_) rfl hn hkn ?_
    · exact jumbo_pairs hs hn hlen (length_group_le hsmall) hlf haccept (by omega)
    · exact ready_bound hhalf hwhole (Nat.succ_pos i) hn (Nat.lt_min.mp hk).1

theorem jumbo_right_three : JumboRight termHasher .zero (Vector.replicate 32 .zero) 1 (List.replicate 2049 7) :=
  jumbo_right termHasher .zero _ 1 (List.replicate 2049 7) (by decide) (by
    rw [length_leavesOf, List.length_replicate]
    decide)

/-- The proof of two leaves ends below groups of four; and of seven leaves in one group of eight the pair of leaf
2 is said to be ready, though its right subtree is the last leaf, which is joined in the end. -/
theorem jumbo_not_right :
    (((verifierInit (fun _ => (Term.zero, Term.zero)) 0 2 [.leaf (List.replicate 1024 7) 0, .leaf [7] 1]).bind fun v =>
        (verifierRun termHasher v (inputs (fun _ => none) 0 (leavesOf (List.replicate 1025 7)))).map Prod.fst) =
          some true ∧
      transceiveProof termHasher [.leaf (List.replicate 1024 7) 0, .leaf [7] 1] 2 = none) ∧
    ((built termHasher .zero (Vector.replicate 32 .zero) (leavesOf (List.replicate 6145 7))).bind fun b =>
        (transceiveProof termHasher b.proof 3).bind fun proof =>
        (verifierInit (fun _ => (Term.zero, Term.zero)) 3 1 proof).bind fun v =>
        (verifierRun termHasher v [(List.replicate 6145 7, none)]).map Prod.fst) = some true ∧
      ((builderTransceive termHasher (builderInit .zero (Vector.replicate 32 .zero) 7) 3 (List.replicate 6145 7)
        none).bind fun (r, b) => (builderFinalize termHasher b).map fun b' =>
          (r, decide (builderPair b 2 = builderPair b' 2))) = some (3, false) := by
  refine ⟨⟨?_, ?_⟩, ?_, ?_⟩
  · decide +kernel
  · decide +kernel
  · decide +kernel
  · decide +kernel

end Lss
end Ursockets
