/-
# Jumbo leaves

A verifier may take the leaves of a message in groups of `2 ^ steps`. The groups are the leaves
of a tree of their own, whose subtrees are those of the leaves, `steps` higher up:
`lss_transceive_proof` joins the first hashes of the proof to that of the first group, and the
pairs are those of the leaves at multiples of `2 ^ steps`.

A proof and pairs give a value to every subtree, whatever they are. What a verifier accepts says
that each leaf has its value and each pair joins to that of the subtree above; so the root of a
group whose leaves are all accepted is its value.

Key definitions: `transceiveProof`, `groupsOf`, `given`, `Joined`.
Key theorems: `run_iff`, `node_value`, `subtreeRoot_group`, `jumbo_accepts`.
-/
import Ursockets.LssRoot

namespace Ursockets
namespace Lss

open Bits Merkle

variable {H : Type} (X : Hasher H)

/-- The loop of `lss_transceive_proof`, in place. -/
def transceiveProofLoop (proof : List H) : ℕ → Option (List H)
  | 0 => some proof
  | i + 1 => do
    let proof ← transceiveProofLoop proof i
    let l ← proof[i]?
    let r ← proof[i + 1]?
    write proof (i + 1) (X.parentHash l r)

/-- `lss_transceive_proof`: what stands from `proof[steps]` on. -/
def transceiveProof (proof : List H) (steps : ℕ) : Option (List H) :=
  (transceiveProofLoop X proof steps).map fun proof => proof.drop steps

/-- A message in groups of `2 ^ steps` leaves. -/
def groupsOf (steps : ℕ) (msg : List UInt8) : List (List UInt8) :=
  (List.range ((msg.length + 1024 * 2 ^ steps - 1) / (1024 * 2 ^ steps))).map fun i =>
    (msg.drop (1024 * 2 ^ steps * i)).take (1024 * 2 ^ steps)

/-- Leaves from leaf `c` on, with their pairs. -/
def inputs (pairs : ℕ → Option (H × H)) (c : ℕ) (leaves : List (List UInt8)) : List (List UInt8 × Option (H × H)) :=
  (leaves.zipIdx c).map fun p => (p.1, pairs p.2)

/-! ### Values -/

/-- What a proof gives for the subtree of height `h` that begins with leaf 0. -/
def front (d : H) (proof : List H) (h : ℕ) : H := (proof.tail.take h).foldl X.parentHash (proof.headD d)

/-- **What a proof and pairs give** for subtree `q` of height `h`: one with a neighbour is in the proof or
in the pair of a leaf, and another is the left half of the one above. -/
def given (d : H) (n : ℕ) (proof : List H) (pairs : ℕ → Option (H × H)) (h q : ℕ) : H :=
  if q = 0 then front X d proof h
  else if q % 2 = 1 ∨ (q + 1) * 2 ^ h < n then
    if q = 1 then proof.getD (h + 1) d
    else
      match pairs (q / 2 * 2 ^ (h + 1) - 2 ^ h) with
      | some p => if q % 2 = 0 then p.1 else p.2
      | none => d
  else given d n proof pairs (h + 1) (q / 2)
termination_by q

/-- The values of the subtrees that a pair is of. -/
def Reads (V : ℕ → ℕ → H) (n : ℕ) (pairs : ℕ → Option (H × H)) : Prop :=
  ∀ m h l r, pairs ((2 * m + 1) * 2 ^ h) = some (l, r) → (2 * (m + 1) + 1) * 2 ^ h < n →
    V h (2 * (m + 1)) = l ∧ V h (2 * (m + 1) + 1) = r

/-- Leaf `c` has no pair and should not have one, or its pair joins to the value of the subtree above. -/
def Joined (V : ℕ → ℕ → H) (n : ℕ) (pairs : ℕ → Option (H × H)) (c : ℕ) : Prop :=
  pairs c = none ∧ committedPair X (V 0) n c = none ∨
    ∃ m h l r, pairs c = some (l, r) ∧ c = (2 * m + 1) * 2 ^ h ∧ (2 * (m + 1) + 1) * 2 ^ h < n ∧
      V (h + 1) (m + 1) = X.parentHash l r

/-- **Values that go with a proof and pairs** of `n` leaves: the proof has those of the subtrees along the front. -/
structure Values (n : ℕ) (proof : List H) (pairs : ℕ → Option (H × H)) (V : ℕ → ℕ → H) : Prop where
  length : proof.length = bitsWord (n - 1) + 1
  lone : Lone n V
  reads : Reads V n pairs
  head : proof[0]? = some (V 0 0)
  tail : ∀ h < bitsWord (n - 1), proof[h + 1]? = some (V h 1)
  front : ∀ h < bitsWord (n - 1), V (h + 1) 0 = X.parentHash (V h 0) (V h 1)

/-- Values of subtrees, each of which joins those of its halves. -/
structure Rooted (n : ℕ) (U : ℕ → ℕ → H) : Prop where
  pair : ∀ h j, (2 * j + 1) * 2 ^ h < n → U (h + 1) j = X.parentHash (U h (2 * j)) (U h (2 * j + 1))
  alone : Lone n U

variable {X} {n : ℕ} {V : ℕ → ℕ → H} {pairs : ℕ → Option (H × H)} {d : H} {proof : List H}

theorem given_front (h : ℕ) : given X d n proof pairs h 0 = front X d proof h := by
  rw [given, if_pos rfl]

theorem given_one (h : ℕ) : given X d n proof pairs h 1 = proof.getD (h + 1) d := by
  rw [given, if_neg Nat.one_ne_zero, if_pos (.inl rfl), if_pos rfl]

/-- A value with a neighbour is what the pair says. -/
theorem reads_given : Reads (given X d n proof pairs) n pairs := by
  intro m h l r hpair hfit
  have hplace : (m + 1) * 2 ^ (h + 1) - 2 ^ h = (2 * m + 1) * 2 ^ h := pair_place (Nat.succ_ne_zero m)
  constructor
  · rw [given, if_neg (by omega), if_pos (.inr hfit), if_neg (by omega),
      Nat.mul_div_cancel_left _ (by decide : 0 < 2), hplace, hpair]
    exact if_pos (Nat.mul_mod_right 2 _)
  · have hhalf : (2 * (m + 1) + 1) / 2 = m + 1 := by omega
    rw [given, if_neg (by omega), if_pos (.inl (by omega)), if_neg (by omega), hhalf, hplace, hpair]
    exact if_neg (by omega)

theorem proofSize_eq (h0 : 0 < n) (hn : n < 2 ^ 32) : proofSize n = bitsWord (n - 1) + 1 := by
  rw [proofSize, pred_eq h0 hn, Nat.add_comm]

theorem lt_bitsWord_pred {h : ℕ} : h < bitsWord (n - 1) ↔ 2 ^ h < n := by
  have hpos := Nat.two_pow_pos h
  rw [← not_iff_not, Nat.not_lt, Nat.not_lt, bitsWord, met0_le_iff]
  omega

/-- A value without a right half is that of the left half. -/
theorem lone_given (hlen : proof.length = bitsWord (n - 1) + 1) : Lone n (given X d n proof pairs) := by
  intro h j hle
  by_cases hj : j = 0
  · subst hj
    have htop : proof.tail.length ≤ h := by
      rw [List.length_tail, hlen, Nat.add_sub_cancel]
      exact Nat.le_of_not_lt fun hlt => absurd (lt_bitsWord_pred.mp hlt) (by omega)
    rw [Nat.mul_zero, given_front, given_front, front, front, List.take_of_length_le htop,
      List.take_of_length_le (htop.trans (Nat.le_succ h))]
  · have hside : ¬ (2 * j % 2 = 1 ∨ (2 * j + 1) * 2 ^ h < n) := by
      rintro (hodd | hlt)
      · omega
      · exact Nat.not_lt.mpr hle hlt
    have hdef := given.eq_def X d n proof pairs h (2 * j)
    rw [if_neg (by omega), if_neg hside, Nat.mul_div_cancel_left _ (by decide : 0 < 2)] at hdef
    exact hdef.symm

theorem front_step {h : ℕ} (hh : h + 1 < proof.length) :
    front X d proof (h + 1) = X.parentHash (front X d proof h) (proof.getD (h + 1) d) := by
  have htail : h < proof.tail.length := by
    rw [List.length_tail]
    omega
  have hget : proof.tail[h] = proof.getD (h + 1) d := by rw [List.getElem_tail, List.getD_eq_getElem _ _ hh]
  rw [front, front, List.take_succ_eq_append_getElem htail, List.foldl_append, hget]
  rfl

/-- **A proof and pairs give values.** -/
theorem values_given (pairs : ℕ → Option (H × H)) (d : H) (hlen : proof.length = bitsWord (n - 1) + 1) :
    Values X n proof pairs (given X d n proof pairs) where
  length := hlen
  lone := lone_given hlen
  reads := reads_given
  head := by
    obtain ⟨h, tail, rfl⟩ := List.exists_cons_of_length_pos (show 0 < proof.length by omega)
    rw [given_front]
    rfl
  tail h hh := by
    have hin : h + 1 < proof.length := by omega
    rw [given_one, List.getElem?_eq_getElem hin, List.getD_eq_getElem _ _ hin]
  front h hh := by
    rw [given_front, given_front, given_one]
    exact front_step (by omega)

/-- Any proof of `lss_proof_size` hashes has values, with any pairs. -/
theorem exists_values (pairs : ℕ → Option (H × H)) (h0 : 0 < n) (hn : n < 2 ^ 32) (hlen : proof.length = proofSize n) :
    ∃ V, Values X n proof pairs V := by
  rw [proofSize_eq h0 hn] at hlen
  obtain ⟨d, -⟩ := List.exists_cons_of_length_pos (show 0 < proof.length by omega)
  exact ⟨given X d n proof pairs, values_given pairs d hlen⟩

/-- The first leaf has no pair. -/
theorem joined_zero : Joined X V n pairs 0 ↔ pairs 0 = none := by
  constructor
  · rintro (⟨hp, -⟩ | ⟨m, h, l, r, -, hzero, -⟩)
    · exact hp
    · have := Nat.mul_pos (show 0 < 2 * m + 1 by omega) (Nat.two_pow_pos h)
      omega
  · exact fun hp => .inl ⟨hp, committedPair_zero⟩

theorem rooted_node {g : ℕ → H} : Rooted X n (node X.parentHash g n) := ⟨fun _ _ => node_pair, lone_node⟩

/-! ### Runs -/

variable [DecidableEq H]

/-- A verifier that is started with a proof accepts leaves. -/
def Accepts (X : Hasher H) (mem : ℕ → H × H) (steps leaves : ℕ) (proof : List H)
    (ins : List (List UInt8 × Option (H × H))) : Prop :=
  ∃ v w, verifierInit mem steps leaves proof = some v ∧ verifierRun X v ins = some (true, w)

/-- **A verifier accepts leaves just when they have their values** and their pairs join to those of the
subtrees above. -/
theorem run_iff (hV : Lone n V) (hreads : Reads V n pairs) (h1 : 1 < n) (hn : n ≤ 2 ^ 31) :
    ∀ (leaves : List (List UInt8)) {v : Verifier H} {c : ℕ}, Holds V n v c → v.steps < 32 → c + leaves.length ≤ n →
      ((∃ w, verifierRun X v (inputs pairs c leaves) = some (true, w)) ↔
        ∀ i (hi : i < leaves.length), subtreeRoot X leaves[i] ((c + i) <<< v.steps % 2 ^ 32) = some (V 0 (c + i)) ∧
          Joined X V n pairs (c + i))
  | [], v, c, _, _, _ => ⟨fun _ i hi => absurd hi (Nat.not_lt_zero i), fun _ => ⟨v, rfl⟩⟩
  | leaf :: leaves, v, c, hs, hsteps, hlen => by
    rw [List.length_cons] at hlen
    have hc : c < n := by omega
    have hcons : inputs pairs c (leaf :: leaves) = (leaf, pairs c) :: inputs pairs (c + 1) leaves := by
      rw [inputs, List.zipIdx_cons, List.map_cons]
      rfl
    -- the verifier after the leaf
    have hstep : ∀ v', verifierIngest X v leaf (pairs c) = some (true, v') →
        v'.steps = v.steps ∧ Holds V n v' (c + 1) ∧
          subtreeRoot X leaf (c <<< v.steps % 2 ^ 32) = some (V 0 c) ∧ Joined X V n pairs c := by
      intro v' h
      obtain ⟨hroot, ⟨hp, hnone, rfl⟩ | ⟨m, t, l, r, hp, rfl, hfit, hjoin, rfl⟩⟩ :=
        (hs.ingest_iff (X := X) (g := V 0) hV hsteps h1 hn hc).mp h
      · exact ⟨rfl, hs.alone (by omega) hnone, hroot, .inl ⟨hp, hnone⟩⟩
      · obtain ⟨hl, hr⟩ := hreads m t l r hp hfit
        refine ⟨rfl, ?_, hroot, .inr ⟨m, t, l, r, hp, rfl, hfit, hjoin⟩⟩
        rw [← hl, ← hr]
        exact hs.paired hn hfit
    have hingest : (∃ v', verifierIngest X v leaf (pairs c) = some (true, v')) ↔
        subtreeRoot X leaf (c <<< v.steps % 2 ^ 32) = some (V 0 c) ∧ Joined X V n pairs c := by
      constructor
      · rintro ⟨v', h⟩
        exact (hstep v' h).2.2
      · rintro ⟨hroot, ⟨hp, hnone⟩ | ⟨m, t, l, r, hp, hc', hfit, hjoin⟩⟩
        · exact ⟨_, (hs.ingest_iff hV hsteps h1 hn hc).mpr ⟨hroot, .inl ⟨hp, hnone, rfl⟩⟩⟩
        · exact ⟨_, (hs.ingest_iff (g := V 0) hV hsteps h1 hn hc).mpr
            ⟨hroot, .inr ⟨m, t, l, r, hp, hc', hfit, hjoin, rfl⟩⟩⟩
    have hshift : ∀ i, c + (i + 1) = c + 1 + i := fun i => by omega
    constructor
    · rintro ⟨w, hrun⟩
      rw [hcons, verifierRun] at hrun
      obtain ⟨⟨ok, v'⟩, hv', hrest⟩ := Option.bind_eq_some_iff.mp hrun
      cases ok with
      | false => cases hrest
      | true =>
        obtain ⟨hst, hs', hfirst⟩ := hstep v' hv'
        have hrest : verifierRun X v' (inputs pairs (c + 1) leaves) = some (true, w) := hrest
        have hmore := (run_iff hV hreads h1 hn leaves hs' (hst ▸ hsteps) (by omega)).mp ⟨w, hrest⟩
        intro i hi
        cases i with
        | zero => exact hfirst
        | succ i =>
          have h := hmore i (Nat.lt_of_succ_lt_succ hi)
          rw [hst] at h
          rw [hshift]
          exact h
    · intro h
      obtain ⟨v', hv'⟩ := hingest.mpr (h 0 (Nat.succ_pos _))
      obtain ⟨hst, hs', -⟩ := hstep v' hv'
      obtain ⟨w, hrun⟩ := (run_iff hV hreads h1 hn leaves hs' (hst ▸ hsteps) (by omega)).mpr fun i hi => by
        have h2 := h (i + 1) (Nat.succ_lt_succ hi)
        rw [hshift] at h2
        rw [hst]
        exact h2
      refine ⟨w, ?_⟩
      rw [hcons, verifierRun, hv']
      exact hrun

omit [DecidableEq H] in
/-- **The root of a subtree is its value** if all its leaves are accepted. -/
theorem Rooted.value {U : ℕ → ℕ → H} (hU : Rooted X n U) (hV : Values X n proof pairs V) (hn : n ≤ 2 ^ 31) {k : ℕ}
    (hleaf : ∀ c < k, U 0 c = V 0 c) (hjoined : ∀ c < k, Joined X V n pairs c) {h q : ℕ} (hq : q * 2 ^ h < n)
    (hk : min ((q + 1) * 2 ^ h) n ≤ k) : U h q = V h q := by
  induction h generalizing q with
  | zero => exact hleaf q (by omega)
  | succ h ih =>
    have hleft : 2 * q * 2 ^ h = q * 2 ^ (h + 1) := by ring
    have hend : (2 * q + 1 + 1) * 2 ^ h = (q + 1) * 2 ^ (h + 1) := by ring
    have hmid : (2 * q + 1) * 2 ^ h ≤ (q + 1) * 2 ^ (h + 1) := by
      rw [← hend]
      exact Nat.mul_le_mul_right _ (Nat.le_succ _)
    rcases Nat.lt_or_ge ((2 * q + 1) * 2 ^ h) n with hfit | halone
    · rw [hU.pair h q hfit, ih (by omega) (by omega), ih hfit (by rw [hend]; exact hk)]
      by_cases hq0 : q = 0
      · subst hq0
        rw [Nat.mul_zero, Nat.zero_add]
        exact (hV.front h (lt_bitsWord_pred.mpr (by omega))).symm
      · obtain ⟨m, rfl⟩ := Nat.exists_eq_succ_of_ne_zero hq0
        have hstart : (2 * m + 1) * 2 ^ h + 2 ^ h = (m + 1) * 2 ^ (h + 1) := by ring
        have hnext : (2 * (m + 1) + 1) * 2 ^ h = (m + 1) * 2 ^ (h + 1) + 2 ^ h := by ring
        have hpos := Nat.two_pow_pos h
        have hh := height_lt hfit hn
        obtain ⟨-, hnone⟩ | ⟨m', t, l, r, hp, heq, -, hjoin⟩ := hjoined ((2 * m + 1) * 2 ^ h) (by
          simp only [Nat.succ_eq_add_one] at hfit hk hmid
          omega)
        · rw [committedPair_odd (by omega), if_pos hfit] at hnone
          exact nomatch hnone
        · obtain ⟨rfl, rfl⟩ := odd_mul_inj heq (by omega) (by
            have hlt : (2 * m' + 1) * 2 ^ t < n := by
              simp only [Nat.succ_eq_add_one] at hfit
              omega
            have := height_lt hlt hn
            omega)
          obtain ⟨hl, hr⟩ := hV.reads m h l r hp hfit
          rw [Nat.succ_eq_add_one, hl, hr, hjoin]
    · rw [hU.alone h q halone, hV.lone h q halone]
      exact ih (by omega) (by
        have : min ((2 * q + 1) * 2 ^ h) n ≤ min ((q + 1) * 2 ^ (h + 1)) n := min_le_min_right n hmid
        exact this.trans hk)

/-- What a verifier of one leaf accepts. -/
theorem accepts_one_iff (mem : ℕ → H × H) {steps : ℕ} (hsteps : steps < 32) {root : H} {leaf : List UInt8} :
    Accepts X mem steps 1 [root] (inputs pairs 0 [leaf]) ↔ subtreeRoot X leaf 0 = some root ∧ pairs 0 = none := by
  have hin : inputs pairs 0 [leaf] = [(leaf, pairs 0)] := rfl
  constructor
  · rintro ⟨v, w, hinit, hrun⟩
    rw [init_one] at hinit
    cases hinit
    rw [hin, verifierRun] at hrun
    obtain ⟨⟨ok, v'⟩, hv', hrest⟩ := Option.bind_eq_some_iff.mp hrun
    obtain rfl : ok = true := by
      cases ok with
      | true => rfl
      | false => cases hrest
    obtain ⟨r, hr⟩ := hashed_of_accept hv'
    have heq : root = r := by
      by_contra hne
      rw [ingest_one_other hsteps (Nat.zero_le 1) hr (by simpa using hne)] at hv'
      cases hv'
    subst heq
    rw [Nat.zero_shiftLeft, Nat.zero_mod] at hr
    refine ⟨hr, ?_⟩
    rw [ingest_one_root (pairs 0) hsteps hr] at hv'
    by_contra hp
    rw [if_neg hp] at hv'
    cases hv'
  · rintro ⟨hroot, hp⟩
    refine ⟨⟨steps, 1, 0, [(root, (mem 0).2)]⟩, ⟨steps, 1, 1, [(root, (mem 0).2)]⟩, init_one mem steps root, ?_⟩
    rw [hin, verifierRun, ingest_one_root (pairs 0) hsteps hroot, if_pos hp]
    rfl

/-- **A verifier that has the values for its proof accepts leaves** just when they have their values and
their pairs join to those of the subtrees above. -/
theorem accepts_iff (hV : Values X n proof pairs V) (h0 : 0 < n) (hn : n ≤ 2 ^ 31) (mem : ℕ → H × H) {steps : ℕ}
    (hsteps : steps < 32) {leaves : List (List UInt8)} (hle : leaves.length ≤ n) :
    Accepts X mem steps n proof (inputs pairs 0 leaves) ↔
      ∀ i (hi : i < leaves.length), subtreeRoot X leaves[i] (i <<< steps % 2 ^ 32) = some (V 0 i) ∧
        Joined X V n pairs i := by
  rcases Nat.lt_or_ge 1 n with h1 | h1
  · obtain ⟨v, hinit, hst, hv⟩ := init_holds mem steps h1 hn (hV.length.trans (proofSize_eq h0 (by omega)).symm)
      hV.head hV.tail
    have hrun := run_iff (X := X) hV.lone hV.reads h1 hn leaves hv (hst ▸ hsteps) (by omega)
    rw [hst] at hrun
    simp only [Nat.zero_add] at hrun
    rw [← hrun]
    constructor
    · rintro ⟨v', w, hinit', hw⟩
      obtain rfl := Option.some.inj (hinit.symm.trans hinit')
      exact ⟨w, hw⟩
    · rintro ⟨w, hw⟩
      exact ⟨v, w, hinit, hw⟩
  · -- one leaf, whose proof is its value
    obtain rfl : n = 1 := by omega
    obtain ⟨root, rfl⟩ := List.length_eq_one_iff.mp hV.length
    obtain rfl := Option.some.inj (show some root = some (V 0 0) from hV.head)
    match leaves, hle with
    | [], _ => exact ⟨fun _ i hi => absurd hi (Nat.not_lt_zero i), fun _ => ⟨_, _, init_one mem steps _, rfl⟩⟩
    | [leaf], _ =>
      have hzero : 0 <<< steps % 2 ^ 32 = 0 := by rw [Nat.zero_shiftLeft, Nat.zero_mod]
      rw [accepts_one_iff mem hsteps, ← joined_zero (X := X) (V := V) (n := 1)]
      constructor
      · intro h i hi
        obtain rfl : i = 0 := Nat.lt_one_iff.mp hi
        rw [hzero]
        exact h
      · intro h
        have h1 := h 0 Nat.one_pos
        rw [hzero] at h1
        exact h1

/-! ### The tree of the groups -/

/-- There are `m` groups of `2 ^ s` in `n` leaves. -/
def Grouped (s n m : ℕ) : Prop := ∀ y, y < m ↔ y * 2 ^ s < n

variable {s m : ℕ}

theorem Grouped.at (hm : Grouped s n m) (x h : ℕ) : x * 2 ^ h < m ↔ x * 2 ^ (h + s) < n := by
  rw [hm, Nat.mul_assoc, ← Nat.pow_add]

theorem Grouped.le (hm : Grouped s n m) : m ≤ n := by
  by_contra hgt
  have hlt := (hm n).mp (by omega)
  have := Nat.le_mul_of_pos_right n (Nat.two_pow_pos s)
  omega

theorem Grouped.bits (hm : Grouped s n m) (h0 : 0 < n) : bitsWord (m - 1) = bitsWord (n - 1) - s := by
  have hm0 : 0 < m := (hm 0).mpr (by rw [Nat.zero_mul]; exact h0)
  refine eq_of_forall_ge_iff fun k => ?_
  have h1 := hm.at 1 k
  rw [Nat.one_mul, Nat.one_mul] at h1
  rw [bitsWord, bitsWord, Nat.sub_le_iff_le_add, met0_le_iff, met0_le_iff]
  omega

omit [DecidableEq H] in
theorem Lone.groups (hV : Lone n V) (hm : Grouped s n m) : Lone m fun h q => V (h + s) q := by
  intro h j hle
  have halone := hV (h + s) j (Nat.le_of_not_lt fun hlt => Nat.not_lt.mpr hle ((hm.at _ _).mpr hlt))
  rw [Nat.add_right_comm] at halone
  exact halone

omit [DecidableEq H] in
theorem Reads.groups (hV : Reads V n pairs) (hm : Grouped s n m) :
    Reads (fun h q => V (h + s) q) m fun i => pairs (i * 2 ^ s) := by
  intro x h l r hpair hfit
  have hpair : pairs ((2 * x + 1) * 2 ^ h * 2 ^ s) = some (l, r) := hpair
  rw [Nat.mul_assoc, ← Nat.pow_add] at hpair
  exact hV x (h + s) l r hpair ((hm.at _ _).mp hfit)

omit [DecidableEq H] in
/-- The pair of a group is that of its first leaf. -/
theorem Joined.groups {i : ℕ} (hm : Grouped s n m) (hn : n ≤ 2 ^ 31) (hi : i < m)
    (hj : Joined X V n pairs (i * 2 ^ s)) : Joined X (fun h q => V (h + s) q) m (fun i => pairs (i * 2 ^ s)) i := by
  have hin := (hm i).mp hi
  rcases Nat.eq_zero_or_pos i with rfl | hpos
  · rw [Nat.zero_mul] at hj
    rw [joined_zero, Nat.zero_mul]
    exact joined_zero.mp hj
  have hpow := Nat.two_pow_pos s
  have hi32 : i < 2 ^ 32 := by
    have := Nat.le_mul_of_pos_right i hpow
    omega
  obtain ⟨x, h, -, rfl⟩ := exists_odd_mul hpos.ne' hi32
  have hodd : (2 * x + 1) * 2 ^ h * 2 ^ s = (2 * x + 1) * 2 ^ (h + s) := by rw [Nat.mul_assoc, ← Nat.pow_add]
  have hh : h + s < 31 := height_lt (hodd ▸ hin) hn
  obtain ⟨hnone, hno⟩ | ⟨y, t, l, r, hp, heq, hfit, hjoin⟩ := hj
  · refine .inl ⟨hnone, ?_⟩
    rw [hodd, committedPair_odd (by omega)] at hno
    rw [committedPair_odd (by omega), if_neg]
    intro hlt
    rw [if_pos ((hm.at _ _).mp hlt)] at hno
    exact nomatch hno
  · have ht : t < 31 := height_lt (show (2 * y + 1) * 2 ^ t < n from heq ▸ hin) hn
    obtain ⟨rfl, rfl⟩ := odd_mul_inj (hodd.symm.trans heq) (by omega) (by omega)
    refine .inr ⟨x, h, l, r, hp, rfl, (hm.at _ _).mpr hfit, ?_⟩
    rw [Nat.add_right_comm] at hjoin
    exact hjoin

/-! ### The proof of the groups -/

omit [DecidableEq H] in
/-- The loop of `lss_transceive_proof` leaves the value of the first subtree at the last place it writes. -/
theorem transceiveProofLoop_spec (hV : Values X n proof pairs V) : ∀ {k : ℕ}, k ≤ bitsWord (n - 1) →
    ∃ proof', transceiveProofLoop X proof k = some proof' ∧ proof'.length = proof.length ∧
      proof'[k]? = some (V k 0) ∧ ∀ i, k < i → proof'[i]? = proof[i]?
  | 0, _ => ⟨proof, rfl, rfl, hV.head, fun _ _ => rfl⟩
  | k + 1, hk => by
    obtain ⟨proof', hloop, hlen, hlast, hrest⟩ := transceiveProofLoop_spec hV (k := k) (by omega)
    have hlong := hV.length
    have hnext : proof'[k + 1]? = some (V k 1) := by
      rw [hrest _ (Nat.lt_succ_self k)]
      exact hV.tail k hk
    refine ⟨proof'.set (k + 1) (V (k + 1) 0), ?_, ?_, ?_, fun i hi => ?_⟩
    · rw [transceiveProofLoop, hloop]
      simp only [Option.bind_eq_bind, Option.bind_some, hlast, hnext]
      rw [write_of_lt (by omega), ← hV.front k hk]
    · rw [List.length_set, hlen]
    · rw [List.getElem?_set_self (by omega)]
    · rw [List.getElem?_set_ne (by omega)]
      exact hrest i (by omega)

omit [DecidableEq H] in
/-- **`lss_transceive_proof` leaves a proof of the groups**, and their values are those of their subtrees. -/
theorem Values.transceive (hV : Values X n proof pairs V) (hm : Grouped s n m) (h0 : 0 < n)
    (hs : s ≤ bitsWord (n - 1)) : ∃ proof', transceiveProof X proof s = some proof' ∧
      Values X m proof' (fun i => pairs (i * 2 ^ s)) fun h q => V (h + s) q := by
  obtain ⟨proof', hloop, hlen, hlast, hrest⟩ := transceiveProofLoop_spec hV hs
  have hbits := hm.bits h0
  have hlong := hV.length
  refine ⟨proof'.drop s, ?_, ?_, hV.lone.groups hm, hV.reads.groups hm, ?_, fun h hh => ?_, fun h hh => ?_⟩
  · rw [transceiveProof, hloop, Option.map_some]
  · rw [List.length_drop, hlen, hbits]
    omega
  · rw [List.getElem?_drop, Nat.add_zero, hlast, Nat.zero_add]
  · have hplace : s + (h + 1) = h + s + 1 := by omega
    rw [List.getElem?_drop, hplace, hrest _ (by omega)]
    exact hV.tail (h + s) (by omega)
  · rw [Nat.add_right_comm]
    exact hV.front (h + s) (by omega)

/-! ### The groups of a message -/

theorem length_groupsOf (s : ℕ) (msg : List UInt8) :
    (groupsOf s msg).length = (msg.length + 1024 * 2 ^ s - 1) / (1024 * 2 ^ s) := by
  rw [groupsOf, List.length_map, List.length_range]

theorem getElem_groupsOf {msg : List UInt8} {i : ℕ} (hi : i < (groupsOf s msg).length) :
    (groupsOf s msg)[i] = (msg.drop (1024 * 2 ^ s * i)).take (1024 * 2 ^ s) := by
  simp only [groupsOf, List.getElem_map, List.getElem_range]

theorem lt_leavesOf {msg : List UInt8} {i : ℕ} : i < (leavesOf msg).length ↔ i * 1024 < msg.length := by
  rw [length_leavesOf]
  omega

theorem grouped_groupsOf (s : ℕ) (msg : List UInt8) : Grouped s (leavesOf msg).length (groupsOf s msg).length := by
  intro y
  have hpow := Nat.two_pow_pos s
  have hmul : y * 2 ^ s * 1024 = y * (1024 * 2 ^ s) := by ring
  rw [length_groupsOf, lt_leavesOf, hmul, Nat.lt_iff_add_one_le, Nat.le_div_iff_mul_le (by omega), Nat.add_mul]
  generalize y * (1024 * 2 ^ s) = start
  omega

/-- The leaves of a group. -/
theorem leavesOf_group {msg : List UInt8} {i : ℕ} (hi : i < (groupsOf s msg).length) :
    leavesOf (groupsOf s msg)[i] = ((leavesOf msg).drop (i * 2 ^ s)).take (2 ^ s) := by
  have hstart : i * 2 ^ s * 1024 < msg.length := lt_leavesOf.mp ((grouped_groupsOf s msg i).mp hi)
  have hplace : 1024 * 2 ^ s * i = i * 2 ^ s * 1024 := by ring
  rw [getElem_groupsOf, hplace, ← leavesOf_drop hstart.le, Nat.mul_comm 1024]
  rcases Nat.lt_or_ge (msg.drop (i * 2 ^ s * 1024)).length (2 ^ s * 1024) with hlt | hle
  · have hfew : (leavesOf (msg.drop (i * 2 ^ s * 1024))).length ≤ 2 ^ s := by
      rw [length_leavesOf]
      omega
    rw [List.take_of_length_le hlt.le, List.take_of_length_le hfew]
  · exact leavesOf_take hle

omit [DecidableEq H] in
/-- **The root of a group** is that of the subtree over its leaves. -/
theorem subtreeRoot_group {g : ℕ → H} {msg : List UInt8} {i : ℕ} (hi : i < (groupsOf s msg).length)
    (hn : (leavesOf msg).length ≤ 2 ^ 31) (hsmall : (groupsOf s msg)[i].length + 1023 < 2 ^ 32)
    (hg : ∀ c (hc : c < (leavesOf msg).length), i * 2 ^ s ≤ c → c < (i + 1) * 2 ^ s →
      g c = X.leafHash (leavesOf msg)[c] c) :
    subtreeRoot X (groupsOf s msg)[i] (i <<< s % 2 ^ 32) =
      some (node X.parentHash g (leavesOf msg).length s i) := by
  have hstart := (grouped_groupsOf s msg i).mp hi
  have hpow := Nat.two_pow_pos s
  have hnext : (i + 1) * 2 ^ s = i * 2 ^ s + 2 ^ s := by ring
  have hlen : (leavesOf (groupsOf s msg)[i]).length = min (2 ^ s) ((leavesOf msg).length - i * 2 ^ s) := by
    rw [leavesOf_group, List.length_take, List.length_drop]
  have hbytes : 0 < (groupsOf s msg)[i].length := by
    have h1 : 0 < (leavesOf (groupsOf s msg)[i]).length := by
      rw [hlen]
      omega
    have h2 := lt_leavesOf.mp h1
    omega
  have hspan : leavesRootIn X (31 + 1) (leavesOf (groupsOf s msg)[i]) (i * 2 ^ s) =
      some (spanRoot X.parentHash g (i * 2 ^ s) (leavesOf (groupsOf s msg)[i]).length) := by
    refine leavesRootIn_span (by omega) (by omega) (by omega) (by omega) fun k hk => ?_
    have hget : (leavesOf (groupsOf s msg)[i])[k] = (leavesOf msg)[i * 2 ^ s + k] := by
      simp only [leavesOf_group hi, List.getElem_take, List.getElem_drop]
    rw [hget]
    exact hg _ (by omega) (Nat.le_add_right _ _) (by omega)
  rw [Nat.shiftLeft_eq, Nat.mod_eq_of_lt (by omega), subtreeRoot, subtreeRootIn_leaves hbytes hsmall, node, ← hlen]
  exact hspan

omit [DecidableEq H] in
theorem Rooted.groups {U : ℕ → ℕ → H} (hU : Rooted X n U) (hm : Grouped s n m) : Rooted X m fun h q => U (h + s) q := by
  refine ⟨fun h j hfit => ?_, hU.alone.groups hm⟩
  have hpair := hU.pair (h + s) j ((hm.at _ _).mp hfit)
  rw [Nat.add_right_comm] at hpair
  exact hpair

/-! ### Two verifiers -/

/-- A verifier of no leaves has no pair to put the proof in. -/
theorem Accepts.pos {mem : ℕ → H × H} {steps : ℕ} {ins : List (List UInt8 × Option (H × H))}
    (h : Accepts X mem steps n proof ins) : 0 < n := by
  refine Nat.pos_of_ne_zero fun h0 => ?_
  subst h0
  obtain ⟨v, w, hinit, -⟩ := h
  unfold verifierInit at hinit
  simp only [Option.bind_eq_bind, Option.bind_eq_some_iff] at hinit
  obtain ⟨h, -, p, hp, -⟩ := hinit
  exact nomatch hp

/-- What the plain verifier accepts. -/
theorem plain_accepts {k : ℕ} {msg : List UInt8} (hV : Values X (leavesOf msg).length proof pairs V)
    (h0 : 0 < (leavesOf msg).length) (hn : (leavesOf msg).length ≤ 2 ^ 31) {mem : ℕ → H × H}
    (h : Accepts X mem 0 (leavesOf msg).length proof (inputs pairs 0 ((leavesOf msg).take k))) {c : ℕ}
    (hc : c < (leavesOf msg).length) (hck : c < k) :
    V 0 c = X.leafHash (leavesOf msg)[c] c ∧ Joined X V (leavesOf msg).length pairs c := by
  have htake : ((leavesOf msg).take k).length = min k (leavesOf msg).length := List.length_take
  obtain ⟨hroot, hj⟩ := (accepts_iff hV h0 hn mem (by decide) (by omega)).mp h c (by omega)
  have hshort : (leavesOf msg)[c].length ≤ 1024 := by
    rw [getElem_leavesOf, List.length_take]
    exact Nat.min_le_left _ _
  rw [List.getElem_take, Nat.shiftLeft_zero, Nat.mod_eq_of_lt (by omega), subtreeRoot_leaf hshort] at hroot
  exact ⟨(Option.some.inj hroot).symm, hj⟩

/-- How far a proof goes up. -/
theorem steps_le (hs : s = 0 ∨ 2 ^ (s - 1) < n) : s ≤ bitsWord (n - 1) := by
  rcases hs with rfl | hs
  · exact Nat.zero_le _
  · have := lt_bitsWord_pred.mpr hs
    omega

/-- **The jumbo verifier accepts what the plain one accepts**, if the proof goes up to the groups. -/
theorem jumbo_accepts (mem mem' : ℕ → H × H) {k : ℕ} {msg : List UInt8}
    (hn : (leavesOf msg).length ≤ 2 ^ 31) (hlen : proof.length = proofSize (leavesOf msg).length)
    (hs : s = 0 ∨ 2 ^ (s - 1) < (leavesOf msg).length)
    (hsmall : ∀ i (hi : i < (groupsOf s msg).length), (groupsOf s msg)[i].length + 1023 < 2 ^ 32)
    (hplain : Accepts X mem 0 (leavesOf msg).length proof (inputs pairs 0 ((leavesOf msg).take (k * 2 ^ s)))) :
    ∃ proof', transceiveProof X proof s = some proof' ∧
      Accepts X mem' s (groupsOf s msg).length proof'
        (inputs (fun i => pairs (i * 2 ^ s)) 0 ((groupsOf s msg).take k)) := by
  have hm := grouped_groupsOf s msg
  have h0 := hplain.pos
  obtain ⟨V, hV⟩ := exists_values (X := X) pairs h0 (by omega) hlen
  have hs32 : s < 32 := by
    have hle := steps_le hs
    have hbits : bitsWord ((leavesOf msg).length - 1) ≤ 31 := met0_le_iff.mpr (by omega)
    omega
  have hm0 : 0 < (groupsOf s msg).length := (hm 0).mpr (by omega)
  have hmn := hm.le
  obtain ⟨proof', htrans, hV'⟩ := hV.transceive hm h0 (steps_le hs)
  refine ⟨proof', htrans, (accepts_iff hV' hm0 (by omega) mem' hs32 (by rw [List.length_take]; omega)).mpr
    fun i hi => ?_⟩
  rw [List.length_take] at hi
  have him : i < (groupsOf s msg).length := by omega
  have hin := (hm i).mp him
  -- the leaves of the group are among those that the plain verifier takes
  have hend : (i + 1) * 2 ^ s ≤ k * 2 ^ s := Nat.mul_le_mul_right _ (by omega)
  have hnext : (i + 1) * 2 ^ s = i * 2 ^ s + 2 ^ s := by ring
  have hpow := Nat.two_pow_pos s
  refine ⟨?_, Joined.groups hm hn him (plain_accepts hV h0 hn hplain hin (by omega)).2⟩
  have hroot := subtreeRoot_group (X := X) (g := V 0) him hn (hsmall i him) fun c hc _ hlt =>
    (plain_accepts hV h0 hn hplain hc (by omega)).1
  have hvalue := (rooted_node (X := X) (g := V 0)).value hV hn (k := min (k * 2 ^ s) (leavesOf msg).length)
    (fun c _ => node_zero) (fun c hc => (plain_accepts hV h0 hn hplain (by omega) (by omega)).2) hin (by omega)
  rw [List.getElem_take, hroot, hvalue, Nat.zero_add]

end Lss
end Ursockets
