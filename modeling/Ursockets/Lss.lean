/-
# Lockstep signatures

`io/lss.c`: the leaves of a message, of 1024 bytes at most, are the leaves of a
Merkle tree. A builder takes the leaves in order and gives an initial proof and
a pair of hashes for some of the leaves; a verifier that has the proof checks each
leaf when it comes, with the pair that comes with it.

Words are numbers below `2 ^ 32`, and their arithmetic wraps around. A result is
`none` where C leaves it undefined: a shift by 32 or more, the trailing zeros of
zero, an access outside an array; `1 << 31` is `2 ^ 31`. The two hashes, which
`urcrypt` computes, are parameters, and so are the cleared hash and the memory
that nobody has written yet.

Key definitions: `Hasher`, `subtreeRoot`, `Builder`, `builderIngest`, `builderFinalize`,
`builderPair`, `Verifier`, `verifierInit`, `checkHash`, `verifierIngest`, `lssRoot`.
-/
import Mathlib.Data.Nat.Factorization.Basic
import Ursockets.Lib.Bits

namespace Ursockets
namespace Lss

open Bits

/-! ### Words -/

/-- `1 << n`. -/
def shl1 (n : ℕ) : Option ℕ := if n < 32 then some (2 ^ n) else none

/-- `w >> n`. -/
def shr (w n : ℕ) : Option ℕ := if n < 32 then some (w >>> n) else none

/-- `~w`. -/
def inv (w : ℕ) : ℕ := (2 ^ 32 - 1) ^^^ w

/-- `c3_bits_word`. -/
def bitsWord (w : ℕ) : ℕ := met0 w

/-- `c3_tz_w`. -/
def tzWord (w : ℕ) : Option ℕ := (List.range 32).find? w.testBit

/-- The word before `w`. -/
def pred (w : ℕ) : ℕ := (w + 2 ^ 32 - 1) % 2 ^ 32

/-- A store into an array. -/
def write {α : Type} (l : List α) (i : ℕ) (a : α) : Option (List α) :=
  if i < l.length then some (l.set i a) else none

/-! ### Hashes -/

/-- `_leaf_hash` and `_parent_hash`. -/
structure Hasher (H : Type) where
  leafHash : List UInt8 → ℕ → H
  parentHash : H → H → H

variable {H : Type}

/-- `_subtree_root`, whose recursion is at most `n` deep. -/
def subtreeRootIn (X : Hasher H) : ℕ → List UInt8 → ℕ → Option H
  | 0, _, _ => none
  | n + 1, leaf, counter =>
    if leaf.length ≤ 1024 then some (X.leafHash leaf counter)
    else do
      let leaves := (leaf.length + 1023) % 2 ^ 32 / 1024
      let mid ← shl1 (bitsWord (pred leaves) - 1)
      let len := mid * 1024 % 2 ^ 32
      let l ← subtreeRootIn X n (leaf.take len) counter
      let r ← subtreeRootIn X n (leaf.drop len) ((counter + mid) % 2 ^ 64)
      some (X.parentHash l r)

/-- `_subtree_root`: less than `2 ^ 32` bytes have 22 levels. -/
def subtreeRoot (X : Hasher H) (leaf : List UInt8) (counter : ℕ) : Option H := subtreeRootIn X 32 leaf counter

/-- `lss_proof_size`. -/
def proofSize (leaves : ℕ) : ℕ := 1 + bitsWord (pred leaves)

/-- `_lss_expect_pair`. -/
def expectPair (leaves i : ℕ) : Option Bool :=
  if i = 0 then some false
  else do
    let tz ← tzWord i
    let n ← shl1 (1 + tz)
    some ((i + n) % 2 ^ 32 < leaves)

/-! ### The builder -/

/-- `lss_builder`. -/
structure Builder (H : Type) where
  trees : List H
  leaves : ℕ
  counter : ℕ
  proof : List H
  pairs : List (H × H)

/-- `lss_builder_init`. -/
def builderInit (zero : H) (trees : Vector H 32) (leaves : ℕ) : Builder H :=
  ⟨trees.toList, leaves, 0, List.replicate (proofSize leaves) zero, List.replicate leaves (zero, zero)⟩

/-- `_lss_builder_merge`. -/
def builderMerge (b : Builder H) (height : ℕ) (l r : H) : Option (Builder H) := do
  let up ← shr b.counter (height + 1)
  if up ≠ 0 then
    let top ← shl1 (height + 1)
    let low ← shl1 height
    let i := ((b.counter &&& inv (top - 1)) + 2 ^ 32 - low) % 2 ^ 32
    let pairs ← write b.pairs i (l, r)
    some { b with pairs }
  else
    -- proof always begins with [0, 1)
    let proof ← if height = 0 then write b.proof 0 l else some b.proof
    let proof ← write proof (height + 1) r
    some { b with proof }

/-- The loop of `lss_builder_ingest`; it stops with a hash and the height it belongs at. -/
def ingestLoop (X : Hasher H) : ℕ → Builder H → H → ℕ → Option (Builder H × H × ℕ)
  | 0, _, _, _ => none
  | n + 1, b, h, height => do
    let bit ← shl1 height
    if b.counter &&& bit = 0 then some (b, h, height)
    else
      let t ← b.trees[height]?
      let b ← builderMerge b height t h
      ingestLoop X n b (X.parentHash t h) (height + 1)

/-- `lss_builder_ingest`. -/
def builderIngest (X : Hasher H) (b : Builder H) (leaf : List UInt8) : Option (Builder H) := do
  let (b, h, height) ← ingestLoop X 33 b (X.leafHash leaf b.counter) 0
  let trees ← write b.trees height h
  some { b with trees, counter := (b.counter + 1) % 2 ^ 32 }

/-- The loop of `lss_builder_finalize`: `n` more heights. -/
def finalizeLoop (X : Hasher H) : ℕ → Builder H → H → ℕ → Option (Builder H)
  | 0, b, _, _ => some b
  | n + 1, b, h, height => do
    let bit ← shl1 height
    if b.counter &&& bit = 0 then finalizeLoop X n b h (height + 1)
    else
      let t ← b.trees[height]?
      let b ← builderMerge b height t h
      finalizeLoop X n b (X.parentHash t h) (height + 1)

/-- `lss_builder_finalize`. -/
def builderFinalize (X : Hasher H) (b : Builder H) : Option (Builder H) :=
  if b.counter ≠ 0 then do
    let height ← tzWord b.counter
    let h ← b.trees[height]?
    finalizeLoop X (32 - (height + 1)) b h (height + 1)
  else some b

/-- `lss_builder_pair`. -/
def builderPair (b : Builder H) (i : ℕ) : Option (Option (H × H)) := do
  if ← expectPair b.leaves i then
    let pair ← b.pairs[i]?
    some (some pair)
  else some none

/-! ### The verifier -/

/-- `lss_verifier`. -/
structure Verifier (H : Type) where
  steps : ℕ
  leaves : ℕ
  counter : ℕ
  pairs : List (H × H)

/-- The loop of `lss_verifier_init`: the proof's hashes go to the right of the pairs. -/
def initLoop (proof : List H) (pairs : List (H × H)) : ℕ → Option (List (H × H))
  | 0 => some pairs
  | n + 1 => do
    let pairs ← initLoop proof pairs n
    let h ← proof[n + 1]?
    let pair ← pairs[n]?
    write pairs n (pair.1, h)

/-- `lss_verifier_init`; `mem` is what is in the arena. -/
def verifierInit (mem : ℕ → H × H) (steps leaves : ℕ) (proof : List H) : Option (Verifier H) := do
  let pairs := (List.range (bitsWord leaves)).map mem
  let h ← proof[0]?
  let pair ← pairs[0]?
  let pairs ← write pairs 0 (h, pair.2)
  let pairs ← initLoop proof pairs (proofSize leaves - 1)
  some ⟨steps, leaves, 0, pairs⟩

variable [DecidableEq H]

/-- `_lss_verifier_check_hash`. -/
def checkHash (v : Verifier H) (i height : ℕ) (h : H) : Option Bool := do
  let top ← shl1 (bitsWord (pred v.leaves))
  let odd := (top + 2 ^ 32 - v.leaves) % 2 ^ 32
  let bit ← shl1 (bitsWord (i ^^^ pred v.leaves))
  let mask := bit - 1
  let up ← shr (odd &&& inv mask) height
  let tz ← tzWord (inv up)
  let height := height + tz
  let par ← shr i height
  let pair ← v.pairs[height]?
  some ((if par &&& 1 = 0 then pair.1 else pair.2) = h)

/-- `lss_verifier_ingest`: whether it accepts, and the verifier. -/
def verifierIngest (X : Hasher H) (v : Verifier H) (leaf : List UInt8) (pair : Option (H × H)) :
    Option (Bool × Verifier H) := do
  let _ ← shl1 v.steps
  let h ← subtreeRoot X leaf (v.counter <<< v.steps % 2 ^ 32)
  if !(← checkHash v v.counter 0 h) then some (false, v)
  else if pair.isSome ≠ (← expectPair v.leaves v.counter) then some (false, v)
  else
    match pair with
    | none => some (true, { v with counter := (v.counter + 1) % 2 ^ 32 })
    | some (l, r) =>
      let height ← tzWord v.counter
      let low ← shl1 height
      let start := (v.counter + low) % 2 ^ 32
      if !(← checkHash v start (height + 1) (X.parentHash l r)) then some (false, v)
      else
        let pairs ← write v.pairs height (l, r)
        some (true, { v with pairs, counter := (v.counter + 1) % 2 ^ 32 })

/-- `lss_root`. -/
def lssRoot (X : Hasher H) : List H → Option H
  | [] => none
  | h :: proof => some (proof.foldl X.parentHash h)

/-! ### Runs -/

/-- The leaves of a message, in order. -/
def builderRun (X : Hasher H) (b : Builder H) (leaves : List (List UInt8)) : Option (Builder H) :=
  leaves.foldlM (builderIngest X) b

/-- Leaves and pairs, until one is not accepted. -/
def verifierRun (X : Hasher H) : Verifier H → List (List UInt8 × Option (H × H)) → Option (Bool × Verifier H)
  | v, [] => some (true, v)
  | v, (leaf, pair) :: rest => do
    let (ok, v) ← verifierIngest X v leaf pair
    if ok then verifierRun X v rest else some (false, v)

/-! ### Facts about words -/

omit [DecidableEq H]

theorem shl1_of_lt {n : ℕ} (h : n < 32) : shl1 n = some (2 ^ n) := if_pos h

theorem shr_of_lt {w n : ℕ} (h : n < 32) : shr w n = some (w / 2 ^ n) := by
  rw [shr, if_pos h, Nat.shiftRight_eq_div_pow]

theorem write_of_lt {α : Type} {l : List α} {i : ℕ} (h : i < l.length) (a : α) :
    write l i a = some (l.set i a) := if_pos h

theorem pred_eq {n : ℕ} (h0 : 0 < n) (h : n < 2 ^ 32) : pred n = n - 1 := by
  rw [pred]
  omega

theorem testBit_inv (w : ℕ) {r : ℕ} (h : r < 32) : (inv w).testBit r = !w.testBit r := by
  rw [inv, Nat.testBit_xor, Nat.testBit_two_pow_sub_one, decide_eq_true h, Bool.true_xor]

theorem tzWord_eq {w z : ℕ} (hz : z < 32) (h1 : w.testBit z = true) (h0 : ∀ j < z, w.testBit j = false) :
    tzWord w = some z := by
  rw [tzWord, List.find?_range_eq_some]
  refine ⟨h1, List.mem_range.mpr hz, fun j hj => ?_⟩
  rw [h0 j hj]
  rfl

/-- The trailing zeros of an odd multiple of a power of two. -/
theorem tzWord_odd (m : ℕ) {z : ℕ} (hz : z < 32) : tzWord ((2 * m + 1) * 2 ^ z) = some z := by
  refine tzWord_eq hz ?_ fun j hj => ?_
  · rw [Nat.testBit_mul_two_pow, decide_eq_true (Nat.le_refl z), Nat.sub_self, Nat.testBit_zero, Bool.true_and,
      decide_eq_true (by omega)]
  · rw [Nat.testBit_mul_two_pow, decide_eq_false (by omega), Bool.false_and]

theorem and_bit (c h : ℕ) : c &&& 2 ^ h = 0 ↔ c / 2 ^ h % 2 = 0 := by
  rw [Nat.and_two_pow, Nat.testBit_eq_decide_div_mod_eq, Nat.mul_eq_zero, or_iff_left (Nat.two_pow_pos h).ne',
    Bool.toNat_eq_zero, decide_eq_false_iff_not]
  omega

/-- A word without its `h` low bits. -/
theorem and_inv {c h : ℕ} (hc : c < 2 ^ 32) : c &&& inv (2 ^ h - 1) = c / 2 ^ h * 2 ^ h := by
  refine Nat.eq_of_testBit_eq fun r => ?_
  rw [Nat.testBit_and, Nat.testBit_mul_two_pow, Nat.testBit_div_two_pow]
  rcases Nat.lt_or_ge r 32 with hr | hr
  · rw [testBit_inv _ hr, Nat.testBit_two_pow_sub_one]
    by_cases hle : h ≤ r
    · rw [decide_eq_true hle, decide_eq_false (by omega), Bool.true_and, Nat.sub_add_cancel hle, Bool.not_false,
        Bool.and_true]
    · rw [decide_eq_false hle, decide_eq_true (by omega), Bool.not_true, Bool.and_false, Bool.false_and]
  · have hhigh : ∀ k, 32 ≤ k → c.testBit k = false := fun k hk =>
      Nat.testBit_lt_two_pow (hc.trans_le (Nat.pow_le_pow_right (by decide) hk))
    rw [hhigh r hr, Bool.false_and]
    by_cases hle : h ≤ r
    · rw [Nat.sub_add_cancel hle, hhigh r hr, Bool.and_false]
    · rw [decide_eq_false hle, Bool.false_and]

/-- Two odd multiples of powers of two are equal only if they are the same ones. -/
theorem odd_mul_inj {a b h k : ℕ} (heq : (2 * a + 1) * 2 ^ h = (2 * b + 1) * 2 ^ k) (hh : h < 32) (hk : k < 32) :
    a = b ∧ h = k := by
  have htz := tzWord_odd a hh
  rw [heq, tzWord_odd b hk] at htz
  obtain rfl := Option.some.inj htz
  have := Nat.eq_of_mul_eq_mul_right (Nat.two_pow_pos k) heq
  omega

/-- Every number but zero is an odd multiple of a power of two. -/
theorem exists_odd_mul {i : ℕ} (h0 : i ≠ 0) (hi : i < 2 ^ 32) : ∃ m z, z < 32 ∧ i = (2 * m + 1) * 2 ^ z := by
  obtain ⟨z, m, hm, rfl⟩ := Nat.exists_eq_two_pow_mul_odd h0
  obtain ⟨m, rfl⟩ := hm
  refine ⟨m, z, ?_, Nat.mul_comm _ _⟩
  by_contra hz
  have hpow : 2 ^ 32 ≤ 2 ^ z := Nat.pow_le_pow_right (by decide) (by omega)
  have := Nat.le_mul_of_pos_right (2 ^ z) (show 0 < 2 * m + 1 by omega)
  omega

end Lss
end Ursockets
