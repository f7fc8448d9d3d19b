/-
# The jammers of the loom

`u3s_jam_fib` and `u3s_jam_xeno` of `noun/serial.c`: both walk over a noun of the
loom with `u3a_walk_fore` and keep the place of each noun written in a table of
`hashtable.c`. The first writes into a slab of words that grows by Fibonacci
steps and counts bits in 32 bits, the second into the bitstream of `ur`. Both
write what is planned for the noun, the same bytes that `ur_jam` writes.

A result is `none` when the jammer bails, or when a loop takes more turns than it
may. The buffers of the loom are the words in them; running out of memory is not
modelled.

Key definitions: `walkTurn`, `Fib`, `u3sJamFib`, `Xeno`, `u3sJamXeno`, `JamsAgree`.
Key theorems: `jamFib_iff`, `jamXeno_eq`, `jams_agree_iff`.
-/
import Ursockets.Chop
import Ursockets.HashtableMap
import Ursockets.SerialRoundTrip
import Mathlib.Data.ZMod.Basic
import Mathlib.Dynamics.PeriodicPts.Lemmas

namespace Ursockets
namespace LoomJam

open Bits Words Chop Hashtable HashtableMap Jam Loop

/-! ### The walk -/

/-- The state of `u3a_walk_fore`: the nouns to visit, the current one first, and
the state of its callbacks. -/
structure Walk (σ : Type) where
  top : List Noun
  v : σ

/-- One turn of the loop of `u3a_walk_fore`. -/
def walkTurn {σ : Type} (pat : ℕ → σ → Option σ) (cel : Noun → σ → Option (Bool × σ)) (w : Walk σ) :
    Option (Walk σ) :=
  match w.top with
  | [] => some w
  | .atom a :: rest => (pat a w.v).map fun v => ⟨rest, v⟩
  | .cell h t :: rest =>
    (cel (.cell h t) w.v).map fun
    | (false, v) => ⟨rest, v⟩
    -- the tail takes the place of the cell, and the head comes on top
    | (true, v) => ⟨h :: t :: rest, v⟩

def Walk.done {σ : Type} (w : Walk σ) : Bool := w.top.isEmpty

/-! ### Bumping the Fibonacci slab -/

/-- `_cs_jam_fib`: the words of the slab, the table, the two sizes and the cursor. -/
structure Fib where
  sab : List UInt32
  har : Root
  a : ℕ
  b : ℕ
  bit : ℕ

/-- A turn of the loop of `_cs_jam_fib_grow`, on `c_w`, `a_w` and `b_w`. -/
def growTurn (s : ℕ × ℕ × ℕ) : Option (ℕ × ℕ × ℕ) :=
  let c := (s.2.1 + s.2.2) % 2 ^ 32
  some (c, c, s.2.1)

/-- `_cs_jam_fib_grow`. -/
def fibGrow (room : ℕ) (fib : Fib) (mor : ℕ) : Option Fib :=
  let wan := (fib.bit + mor) % 2 ^ 32
  -- the cursor overflows
  if wan < mor then none
  else if fib.a < wan then
    (run growTurn (fun s => wan ≤ s.1) room (0, fib.a, fib.b)).map fun s =>
      { fib with sab := slabGrow fib.sab s.1, a := s.2.1, b := s.2.2 }
  else some fib

/-- `_cs_jam_fib_chop`. -/
def fibChop (room : ℕ) (fib : Fib) (met a : ℕ) : Option Fib :=
  (fibGrow room fib met).map fun fib =>
    { fib with bit := (fib.bit + met) % 2 ^ 32, sab := u3rChop 0 met fib.bit fib.sab a }

/-- `_cs_jam_fib_mat`. -/
def fibMat (room : ℕ) (fib : Fib) (a : ℕ) : Option Fib :=
  if a = 0 then fibChop room fib 1 1
  else
    (u3rMet a).bind fun aw =>
      let bw := met0 aw
      let met := (aw + 2 * bw) % 2 ^ 32
      if 2 ^ 32 - 1 - 64 < aw then none
      else
        (fibGrow room fib met).map fun fib =>
          let bit := fib.bit
          let dat := 1 <<< bw
          let sab := u3rChopWords 0 (bw + 1) bit fib.sab [UInt32.ofNat dat, UInt32.ofNat (dat >>> 32)]
          let bit := bit + (bw + 1)
          let sab := u3rChopWords 0 (bw - 1) bit sab [UInt32.ofNat aw]
          let bit := bit + (bw - 1)
          let sab := u3rChop 0 aw bit sab a
          { fib with bit := (fib.bit + met) % 2 ^ 32, sab }

/-- The back-reference to place `b`. -/
def fibBack (room : ℕ) (fib : Fib) (b : ℕ) : Option Fib :=
  (fibChop room fib 2 3).bind fun fib => fibMat room fib b

/-- `_cs_jam_fib_atom_cb`; the values of the table are atoms. -/
def fibAtomCb (room : ℕ) (a : ℕ) (fib : Fib) : Option Fib :=
  let (har, b) := u3hGit fib.har (.atom a)
  let fib := { fib with har }
  match b with
  | none =>
    let fib := { fib with har := u3hPut fib.har (.atom a) (.atom fib.bit) }
    (fibChop room fib 1 0).bind fun fib => fibMat room fib a
  | some (.atom b) =>
    (u3rMet a).bind fun aw =>
      (u3rMet b).bind fun bw =>
        if aw ≤ bw then (fibChop room fib 1 0).bind fun fib => fibMat room fib a
        else fibBack room fib b
  | some (.cell _ _) => none

/-- `_cs_jam_fib_cell_cb`. -/
def fibCellCb (room : ℕ) (a : Noun) (fib : Fib) : Option (Bool × Fib) :=
  let (har, b) := u3hGit fib.har a
  let fib := { fib with har }
  match b with
  | none =>
    let fib := { fib with har := u3hPut fib.har a (.atom fib.bit) }
    (fibChop room fib 2 1).map fun fib => (true, fib)
  | some (.atom b) => (fibBack room fib b).map fun fib => (false, fib)
  | some (.cell _ _) => none

/-- `u3s_jam_fib`: the length in bits, and the words of the slab. -/
def u3sJamFib (room fuel : ℕ) (a : Noun) : Option (ℕ × List UInt32) :=
  let fib : Fib := ⟨slabInit Hashcons.fib12, u3hNew, Hashcons.fib12, Hashcons.fib11, 0⟩
  (run (walkTurn (fibAtomCb room) (fibCellCb room)) Walk.done fuel ⟨[a], fib⟩).map fun w =>
    (w.v.bit, w.v.sab)

/-! ### Writing to a bitstream -/

/-- `_jam_xeno_t`. -/
structure Xeno where
  har : Root
  rit : Bitstream.Bsw

/-- `_cs_jam_bsw_atom`. -/
def jamBswAtom (rit : Bitstream.Bsw) (met a : ℕ) : Bitstream.Bsw :=
  if isCat a then Bitstream.bswAtom64 rit (met % 2 ^ 8) a
  else Bitstream.bswAtomBytes rit met (toBytes (wordsOf a))

/-- `_cs_jam_bsw_back`. -/
def jamBswBack (rit : Bitstream.Bsw) (met a : ℕ) : Bitstream.Bsw :=
  Bitstream.bswBack64 rit (met % 2 ^ 8) (if isCat a then a else a % 2 ^ 64)

/-- `_cs_jam_xeno_atom`. -/
def xenoAtom (a : ℕ) (jam : Xeno) : Option Xeno :=
  let (har, bak) := u3hGit jam.har (.atom a)
  (u3rMet a).bind fun met =>
    match bak with
    | none => some ⟨u3hPut har (.atom a) (.atom jam.rit.bits), jamBswAtom jam.rit met a⟩
    | some (.atom bak) =>
      (u3rMet bak).map fun bw =>
        if met ≤ bw then ⟨har, jamBswAtom jam.rit met a⟩ else ⟨har, jamBswBack jam.rit bw bak⟩
    | some (.cell _ _) => none

/-- `_cs_jam_xeno_cell`. -/
def xenoCell (a : Noun) (jam : Xeno) : Option (Bool × Xeno) :=
  let (har, bak) := u3hGit jam.har a
  match bak with
  | none => some (true, ⟨u3hPut har a (.atom jam.rit.bits), Bitstream.bswCell jam.rit⟩)
  | some (.atom bak) => (u3rMet bak).map fun bw => (false, ⟨har, jamBswBack jam.rit bw bak⟩)
  | some (.cell _ _) => none

/-- `u3s_jam_xeno`: the length in bits, and the bytes. -/
def u3sJamXeno (fuel : ℕ) (a : Noun) : Option (ℕ × List UInt8) :=
  let jam : Xeno := ⟨u3hNew, Bitstream.bswInit Hashcons.fib11 Hashcons.fib12⟩
  (run (walkTurn xenoAtom xenoCell) Walk.done fuel ⟨[a], jam⟩).map fun w =>
    (w.v.rit.bits, Bitstream.bswDone w.v.rit)


/-! ### The growth of the slab -/

/-- A step of the Fibonacci numbers in 32 bits, and the same in the ring. -/
def fibStep (s : ℕ × ℕ) : ℕ × ℕ := ((s.1 + s.2) % 2 ^ 32, s.1)

def ringStep (s : ZMod (2 ^ 32) × ZMod (2 ^ 32)) : ZMod (2 ^ 32) × ZMod (2 ^ 32) := (s.1 + s.2, s.1)

/-- The sizes come from the first ones. -/
def Sizes (a b : ℕ) : Prop := ∃ n, fibStep^[n] (Hashcons.fib12, Hashcons.fib11) = (a, b)

theorem Sizes.iterate {a b : ℕ} (h : Sizes a b) (i : ℕ) :
    Sizes (fibStep^[i] (a, b)).1 (fibStep^[i] (a, b)).2 := by
  obtain ⟨n, hn⟩ := h
  exact ⟨i + n, by rw [Function.iterate_add_apply, hn]⟩

theorem Sizes.lt {a b : ℕ} (h : Sizes a b) : a < 2 ^ 32 := by
  obtain ⟨n, hn⟩ := h
  cases n with
  | zero =>
    cases hn
    decide
  | succ n =>
    rw [Function.iterate_succ_apply'] at hn
    obtain rfl := (Prod.ext_iff.mp hn).1
    exact Nat.mod_lt _ (by decide)

theorem ringStep_injective : Function.Injective ringStep := by
  intro s t h
  obtain ⟨h1, h2⟩ := Prod.ext_iff.mp h
  have h3 : s.1 = t.1 := h2
  have h4 : s.1 + s.2 = t.1 + t.2 := h1
  rw [h3] at h4
  exact Prod.ext h3 (add_left_cancel h4)

/-- The Fibonacci numbers in 32 bits come back to the largest number, so that the
growth reaches any size: they are a power of an injective map of a finite set,
and the largest number is the one two places before zero. -/
theorem exists_largest : ∃ N, ∀ a b, Sizes a b → ∃ j, j < N ∧ (fibStep^[j + 1] (a, b)).1 = 2 ^ 32 - 1 := by
  have hcast : Function.Semiconj (fun s : ℕ × ℕ => ((s.1 : ZMod (2 ^ 32)), (s.2 : ZMod (2 ^ 32))))
      fibStep ringStep := by
    intro s
    refine Prod.ext ?_ rfl
    show (((s.1 + s.2) % 2 ^ 32 : ℕ) : ZMod (2 ^ 32)) = _
    rw [ZMod.natCast_mod, Nat.cast_add]
    rfl
  obtain ⟨P, hP, hper⟩ := ringStep_injective.mem_periodicPts (-1, 2)
  have hstart : (((Hashcons.fib12 : ℕ) : ZMod (2 ^ 32)), ((Hashcons.fib11 : ℕ) : ZMod (2 ^ 32))) =
      ringStep^[14] (-1, 2) := by decide +kernel
  refine ⟨P + 1, fun a b ⟨n, hn⟩ => ⟨P - 1 - (n + 14) % P, by omega, ?_⟩⟩
  have hlt := Nat.mod_lt (n + 14) hP
  have hmul : (P - 1 - (n + 14) % P + 1 + n + 14) % P = 0 := by
    have h1 := Nat.div_add_mod (n + 14) P
    have h2 : P - 1 - (n + 14) % P + 1 + n + 14 = P * ((n + 14) / P) + P := by omega
    rw [h2, Nat.add_mod_right, Nat.mul_mod_right]
  have hlast := (hcast.iterate_right (P - 1 - (n + 14) % P + 1 + n)) (Hashcons.fib12, Hashcons.fib11)
  simp only [hstart] at hlast
  rw [← Function.iterate_add_apply, ← hper.iterate_mod_apply, hmul, Function.iterate_add_apply, hn] at hlast
  have hfirst := (Prod.ext_iff.mp hlast).1
  have hsize : Sizes (fibStep^[P - 1 - (n + 14) % P + 1] (a, b)).1 _ := Sizes.iterate ⟨n, hn⟩ _
  have hmax : ((fibStep^[P - 1 - (n + 14) % P + 1] (a, b)).1 : ZMod (2 ^ 32)) = ((2 ^ 32 - 1 : ℕ) : ZMod (2 ^ 32)) := by
    rw [show (((2 ^ 32 - 1 : ℕ) : ZMod (2 ^ 32)) = -1) by decide +kernel]
    exact hfirst
  rw [ZMod.natCast_eq_natCast_iff', Nat.mod_eq_of_lt hsize.lt] at hmax
  exact hmax


/-- The slab's sizes, and its length. -/
structure Fib.Ok (fib : Fib) : Prop where
  sizes : Sizes fib.a fib.b
  length : fib.sab.length = (fib.a + 31) / 32
  fill : fib.bit ≤ fib.a

/-- What the slab holds up to the cursor are the bits `bs`; past it there are zeros. -/
structure Fib.Holds (fib : Fib) (bs : List Bool) : Prop where
  ok : fib.Ok
  bit : fib.bit = bs.length
  out : ∀ i, wordBit fib.sab i = bs.getD i false

/-- A number of turns that suffices for every growth. -/
def Roomy (room : ℕ) : Prop :=
  ∀ a b, Sizes a b → ∃ j, j + 1 < room ∧ (fibStep^[j + 1] (a, b)).1 = 2 ^ 32 - 1

theorem exists_roomy : ∃ room, Roomy room := by
  obtain ⟨N, hN⟩ := exists_largest
  refine ⟨N + 1, fun a b h => ?_⟩
  obtain ⟨j, hj, he⟩ := hN a b h
  exact ⟨j, by omega, he⟩

theorem length_slabGrow {sab : List UInt32} {len : ℕ} (h : sab.length ≤ (len + 31) / 32) :
    (slabGrow sab len).length = (len + 31) / 32 ∧ ∀ i, wordBit (slabGrow sab len) i = wordBit sab i := by
  unfold slabGrow
  simp only [shiftRight_five]
  by_cases hle : (len + 31) / 32 ≤ sab.length
  · rw [if_pos hle, List.take_of_length_le h]
    exact ⟨by omega, fun i => rfl⟩
  · rw [if_neg hle]
    refine ⟨?_, fun i => wordBit_append_replicate _ _ _⟩
    rw [List.length_append, List.length_replicate]
    omega

/-- The loop of the growth, from sizes that are too small. -/
theorem grow_run {room a b wan : ℕ} (hroom : Roomy room) (hs : Sizes a b) (ha : a < wan) (hw : wan < 2 ^ 32) :
    ∃ a' b', run growTurn (fun s => wan ≤ s.1) room (0, a, b) = some (a', a', b') ∧ wan ≤ a' ∧ Sizes a' b' := by
  let g : ℕ × ℕ × ℕ → ℕ × ℕ × ℕ := fun s => ((s.2.1 + s.2.2) % 2 ^ 32, (s.2.1 + s.2.2) % 2 ^ 32, s.2.1)
  have hg : ∀ i, g^[i + 1] (0, a, b) =
      ((fibStep^[i + 1] (a, b)).1, (fibStep^[i + 1] (a, b)).1, (fibStep^[i + 1] (a, b)).2) := by
    intro i
    induction i with
    | zero => rfl
    | succ i ih =>
      rw [Function.iterate_succ_apply', ih, Function.iterate_succ_apply' fibStep (i + 1)]
      rfl
  obtain ⟨j, hj, hmax⟩ := hroom a b hs
  have hdone : decide (wan ≤ (g^[j + 1] (0, a, b)).1) = true := by
    rw [decide_eq_true_eq, hg, hmax]
    omega
  obtain ⟨i, hrun, hle⟩ : ∃ i, run growTurn (fun s => wan ≤ s.1) room (0, a, b) = some (g^[i] (0, a, b)) ∧
      decide (wan ≤ (g^[i] (0, a, b)).1) = true := run_iterate (fun _ => rfl) (j + 1) hj hdone
  rw [decide_eq_true_eq] at hle
  cases i with
  | zero =>
    have h0 : wan ≤ 0 := hle
    omega
  | succ i =>
    rw [hg] at hrun hle
    exact ⟨_, _, hrun, hle, hs.iterate (i + 1)⟩

/-- **The slab grows to hold what is wanted**, and keeps what it holds. -/
theorem fibGrow_spec {room mor : ℕ} {fib : Fib} {bs : List Bool} (hroom : Roomy room) (h : fib.Holds bs)
    (hlt : bs.length + mor < 2 ^ 32) :
    ∃ fib', fibGrow room fib mor = some fib' ∧ fib'.Holds bs ∧ bs.length + mor ≤ fib'.a ∧
      fib'.har = fib.har := by
  have hwan : (fib.bit + mor) % 2 ^ 32 = bs.length + mor := by rw [h.bit, Nat.mod_eq_of_lt hlt]
  unfold fibGrow
  simp only [hwan]
  rw [if_neg (by omega)]
  by_cases ha : fib.a < bs.length + mor
  · rw [if_pos ha]
    obtain ⟨a', b', hrun, hle, hs⟩ := grow_run hroom h.ok.sizes ha hlt
    rw [hrun, Option.map_some]
    have hfill := h.ok.fill
    have hlen : fib.sab.length ≤ (a' + 31) / 32 := by
      rw [h.ok.length]
      omega
    obtain ⟨h1, h2⟩ := length_slabGrow hlen
    exact ⟨_, rfl, ⟨⟨hs, h1, by show fib.bit ≤ a'; omega⟩, h.bit, fun i => (h2 i).trans (h.out i)⟩, hle, rfl⟩
  · rw [if_neg ha]
    exact ⟨fib, rfl, h, by omega, rfl⟩

/-! ### Writing into the slab -/

/-- Bits exclusive-ored in past the cursor are appended. -/
theorem getD_of_xored {sab sab' : List UInt32} {bs : List Bool} {n : ℕ} {f : ℕ → Bool}
    (h : ∀ i, wordBit sab i = bs.getD i false) (hx : Xored sab sab' bs.length n f) (i : ℕ) :
    wordBit sab' i = (bs ++ bitsOf n f).getD i false := by
  rw [hx.bit, h]
  by_cases hi : i < bs.length
  · rw [List.getD_append _ _ _ _ hi, decide_eq_false (by omega), Bool.false_and, Bool.xor_false]
  · have h1 : (bs.length ≤ i ∧ i < bs.length + n) ↔ i - bs.length < n := by omega
    rw [List.getD_append_right _ _ _ _ (by omega), List.getD_eq_default _ _ (by omega), getD_bitsOf,
      Bool.false_xor, decide_eq_decide.mpr h1]

/-- The slab written to, and the cursor moved on. -/
theorem Fib.Holds.write {fib : Fib} {bs bs' : List Bool} {sab : List UInt32} (h : fib.Holds bs)
    (ha : bs.length + bs'.length ≤ fib.a) (hl : sab.length = fib.sab.length)
    (hb : ∀ i, wordBit sab i = (bs ++ bs').getD i false) :
    Fib.Holds { fib with bit := (fib.bit + bs'.length) % 2 ^ 32, sab } (bs ++ bs') := by
  have hlt := h.ok.sizes.lt
  have hbit : (fib.bit + bs'.length) % 2 ^ 32 = bs.length + bs'.length := by
    rw [h.bit, Nat.mod_eq_of_lt (by omega)]
  refine ⟨⟨h.ok.sizes, hl.trans h.ok.length, ?_⟩, ?_, hb⟩
  · show (fib.bit + bs'.length) % 2 ^ 32 ≤ fib.a
    rw [hbit]
    exact ha
  · show (fib.bit + bs'.length) % 2 ^ 32 = _
    rw [hbit, List.length_append]

theorem fibChop_spec {room : ℕ} {fib : Fib} {bs : List Bool} (hroom : Roomy room) (h : fib.Holds bs)
    (met a : ℕ) (hlt : bs.length + met < 2 ^ 32) :
    ∃ fib', fibChop room fib met a = some fib' ∧ fib'.Holds (bs ++ ofNat met a) ∧ fib'.har = fib.har := by
  obtain ⟨g, hg, hh, ha, hhar⟩ := fibGrow_spec hroom h hlt
  have hx : Xored g.sab (u3rChop 0 met g.bit g.sab a) bs.length met a.testBit := by
    rw [hh.bit]
    refine (u3rChop_spec ?_).congr rfl rfl fun i _ => by rw [Nat.zero_add]
    rw [hh.ok.length]
    omega
  rw [fibChop, hg, Option.map_some]
  refine ⟨_, rfl, ?_, hhar⟩
  have hfit : bs.length + (ofNat met a).length ≤ g.a := by
    rw [length_ofNat]
    exact ha
  have hw := hh.write hfit hx.length (getD_of_xored hh.out hx)
  rw [length_ofNat] at hw
  exact hw

theorem wordBit_two {v i : ℕ} (hi : i < 64) :
    wordBit [UInt32.ofNat v, UInt32.ofNat (v >>> 32)] i = v.testBit i := by
  rcases Nat.lt_or_ge i 32 with h | h
  · have h1 : i / 32 = 0 := by omega
    have h2 : i % 32 = i := by omega
    rw [wordBit, h1, h2, List.getD_cons_zero, testBit_ofNat32, decide_eq_true h, Bool.true_and]
  · have h1 : i / 32 = 1 := by omega
    have h2 : 32 + i % 32 = i := by omega
    rw [wordBit, h1, List.getD_cons_succ, List.getD_cons_zero, testBit_ofNat32,
      decide_eq_true (Nat.mod_lt i (by decide)), Bool.true_and, Nat.testBit_shiftRight, h2]

/-- **A run-length encoded atom goes into the slab.** -/
theorem fibMat_spec {room : ℕ} {fib : Fib} {bs : List Bool} (hroom : Roomy room) (h : fib.Holds bs)
    (a : ℕ) (hlt : bs.length + (rub a).length < 2 ^ 32) :
    ∃ fib', fibMat room fib a = some fib' ∧ fib'.Holds (bs ++ rub a) ∧ fib'.har = fib.har := by
  unfold fibMat
  by_cases h0 : a = 0
  · subst h0
    exact fibChop_spec hroom h 1 1 hlt
  rw [if_neg h0]
  have hpos := met0_pos h0
  have hne : ofNat (met0 a) a ≠ [] := fun he => by
    have := congrArg List.length he
    rw [length_ofNat, List.length_nil] at this
    omega
  have hrub : rub a = bitsOf (met0 (met0 a) + 1) (fun i => decide (i = met0 (met0 a))) ++
      ofNat (met0 (met0 a) - 1) (met0 a) ++ ofNat (met0 a) a := by
    rw [rub, mat, if_neg hne, length_ofNat]
  have hpos2 := met0_pos (Nat.ne_of_gt hpos)
  have hlen : (rub a).length = met0 a + 2 * met0 (met0 a) := by
    rw [hrub, List.length_append, List.length_append, length_bitsOf, length_ofNat, length_ofNat]
    omega
  -- the length fits in 32 bits with all that goes with it
  have hmet2 : met0 (met0 a) ≤ 32 := met0_le_iff.mpr (by omega)
  have hsmall : met0 a ≤ 2 ^ 32 - 1 - 64 := by
    by_contra hc
    have : ¬ met0 (met0 a) ≤ 31 := fun hle => by
      have := met0_le_iff.mp hle
      omega
    omega
  have hmod : (met0 a + 2 * met0 (met0 a)) % 2 ^ 32 = (rub a).length := by
    rw [hlen, Nat.mod_eq_of_lt (by omega)]
  rw [u3rMet_eq, if_pos (by omega), Option.bind_some]
  simp only [hmod]
  rw [if_neg (by omega)]
  obtain ⟨g, hg, hh, ha, hhar⟩ := fibGrow_spec hroom h hlt
  rw [hg, Option.map_some]
  have hcap : bs.length + (rub a).length ≤ 32 * g.sab.length := by
    rw [hh.ok.length]
    omega
  rw [hlen] at hcap
  -- the length of the length in unary, the length without its highest bit, and the atom
  have h1 : Xored g.sab (u3rChopWords 0 (met0 (met0 a) + 1) g.bit g.sab
      [UInt32.ofNat (1 <<< met0 (met0 a)), UInt32.ofNat ((1 <<< met0 (met0 a)) >>> 32)]) bs.length
      (met0 (met0 a) + 1) fun i => decide (i = met0 (met0 a)) := by
    rw [hh.bit]
    refine (u3rChopWords_spec (by omega)).congr rfl rfl fun i hi => ?_
    rw [Nat.zero_add, wordBit_two (by omega), Nat.one_shiftLeft, Nat.testBit_two_pow]
    exact decide_eq_decide.mpr eq_comm
  generalize u3rChopWords 0 (met0 (met0 a) + 1) g.bit g.sab _ = s1 at h1
  have hs1 := getD_of_xored hh.out h1
  have h2 : Xored s1 (u3rChopWords 0 (met0 (met0 a) - 1) (g.bit + (met0 (met0 a) + 1)) s1
      [UInt32.ofNat (met0 a)]) (bs ++ bitsOf (met0 (met0 a) + 1) fun i => decide (i = met0 (met0 a))).length
      (met0 (met0 a) - 1) (met0 a).testBit := by
    rw [hh.bit, List.length_append, length_bitsOf]
    refine (u3rChopWords_spec (by rw [h1.length]; omega)).congr rfl rfl fun i hi => ?_
    rw [Nat.zero_add, wordBit_one (by omega)]
  generalize u3rChopWords 0 (met0 (met0 a) - 1) (g.bit + (met0 (met0 a) + 1)) s1 _ = s2 at h2
  have hs2 := getD_of_xored hs1 h2
  have h3 : Xored s2 (u3rChop 0 (met0 a) (g.bit + (met0 (met0 a) + 1) + (met0 (met0 a) - 1)) s2 a)
      (bs ++ (bitsOf (met0 (met0 a) + 1) fun i => decide (i = met0 (met0 a))) ++
        bitsOf (met0 (met0 a) - 1) (met0 a).testBit).length (met0 a) a.testBit := by
    rw [hh.bit, List.length_append, List.length_append, length_bitsOf, length_bitsOf]
    refine (u3rChop_spec (by rw [h2.length, h1.length]; omega)).congr rfl rfl fun i hi => ?_
    rw [Nat.zero_add]
  have hs3 := getD_of_xored hs2 h3
  refine ⟨_, rfl, hh.write ha (h3.length.trans (h2.length.trans h1.length)) fun i => ?_, hhar⟩
  rw [hs3, hrub, List.append_assoc bs, List.append_assoc bs]
  rfl


/-! ### The table -/

/-- The table holds the places of the nouns written, which are at most `n`, and
the atoms among them were not longer than that. -/
structure Known (har : Root) (m : Marks) (n : ℕ) : Prop where
  ok : RootOk har
  get : ∀ x, lookup har x = (find m x).map Noun.atom
  le : ∀ p y, (p, y) ∈ m → p ≤ n
  atom : ∀ p a, (p, .atom a) ∈ m → (rub a).length ≤ n

variable {har : Root} {m : Marks} {n : ℕ}

theorem known_new : Known u3hNew [] 0 :=
  ⟨rootOk_new, fun x => lookup_new x, fun _ _ h => absurd h List.not_mem_nil,
    fun _ _ h => absurd h List.not_mem_nil⟩

theorem Known.mono (h : Known har m n) (k : ℕ) : Known har m (n + k) :=
  ⟨h.ok, h.get, fun p y hp => Nat.le_add_right_of_le (h.le p y hp),
    fun p a hp => Nat.le_add_right_of_le (h.atom p a hp)⟩

theorem Known.git (h : Known har m n) (x : Noun) :
    ∃ har', u3hGit har x = (har', (find m x).map Noun.atom) ∧ Known har' m n := by
  obtain ⟨h1, h2, h3, -⟩ := u3hGit_spec h.ok x
  exact ⟨_, Prod.ext rfl (h1.trans (h.get x)), h2, fun y => (h3 y).trans (h.get y), h.le, h.atom⟩

theorem mem_push {x y : Noun} {p c : ℕ} (h : (p, y) ∈ m ++ [(c, x)]) : (p, y) ∈ m ∨ p = c ∧ y = x := by
  rcases List.mem_append.mp h with h | h
  · exact .inl h
  · rw [List.mem_singleton] at h
    exact .inr (Prod.ext_iff.mp h)

/-- A noun is written for the first time. -/
theorem Known.put (h : Known har m n) {x : Noun} (hx : find m x = none) (k : ℕ)
    (hk : ∀ a, x = .atom a → (rub a).length ≤ n + k) :
    Known (u3hPut har x (.atom n)) (m ++ [(n, x)]) (n + k) := by
  obtain ⟨h1, h2⟩ := u3hPut_spec h.ok x (.atom n)
  refine ⟨h1, fun y => ?_, fun p y hp => ?_, fun p a hp => ?_⟩
  · rw [h2, find_push]
    by_cases hy : y = x
    · rw [if_pos hy, hy, hx, if_pos rfl]
      rfl
    · rw [if_neg hy, if_neg fun he => hy he.symm, h.get]
      cases find m y <;> rfl
  · rcases mem_push hp with hp | ⟨rfl, -⟩
    · exact Nat.le_add_right_of_le (h.le p y hp)
    · exact Nat.le_add_right _ _
  · rcases mem_push hp with hp | ⟨-, he⟩
    · exact Nat.le_add_right_of_le (h.atom p a hp)
    · exact hk a he.symm

/-- An atom is written again. -/
theorem Known.again (h : Known har m n) {a p : ℕ} (ha : find m (.atom a) = some p) (k : ℕ) :
    Known har (m ++ [(n, .atom a)]) (n + k) := by
  refine ⟨h.ok, fun y => ?_, Serial.marks_push h.le, fun q b hq => ?_⟩
  · rw [Serial.find_again ha, h.get]
  · rcases mem_push hq with hq | ⟨-, he⟩
    · exact Nat.le_add_right_of_le (h.atom q b hq)
    · cases he
      exact Nat.le_add_right_of_le (h.atom p a (mem_of_find ha))

/-! ### What the callbacks must do -/

/-- The callbacks write what is planned for a noun as long as that is less than
`lim` bits: `At v m bs` says that the bits `bs` were written and the places of
the marks `m` are known. -/
structure Writes {σ : Type} (pat : ℕ → σ → Option σ) (cel : Noun → σ → Option (Bool × σ))
    (At : σ → Marks → List Bool → Prop) (lim : ℕ) : Prop where
  atom : ∀ {a v m bs}, At v m bs → bs.length + (plan m bs.length (.atom a)).1.bits.length < lim →
    ∃ v', pat a v = some v' ∧
      At v' (plan m bs.length (.atom a)).2 (bs ++ (plan m bs.length (.atom a)).1.bits)
  back : ∀ {h t v m bs p}, At v m bs → find m (.cell h t) = some p →
    bs.length + (Item.back p).bits.length < lim →
    ∃ v', cel (.cell h t) v = some (false, v') ∧ At v' m (bs ++ (Item.back p).bits)
  cell : ∀ {h t v m bs}, At v m bs → find m (.cell h t) = none → bs.length + 2 < lim →
    ∃ v', cel (.cell h t) v = some (true, v') ∧
      At v' (m ++ [(bs.length, .cell h t)]) (bs ++ [true, false])

/-- **A walk with such callbacks writes what is planned for a noun.** -/
theorem walk_writes {σ : Type} {pat : ℕ → σ → Option σ} {cel : Noun → σ → Option (Bool × σ)}
    {At : σ → Marks → List Bool → Prop} {lim : ℕ} (hw : Writes pat cel At lim) :
    ∀ (x : Noun) {v : σ} {m : Marks} {bs : List Bool} (rest : List Noun), At v m bs →
      bs.length + (plan m bs.length x).1.bits.length < lim →
      ∃ v', Reaches (walkTurn pat cel) Walk.done ⟨x :: rest, v⟩ ⟨rest, v'⟩ ∧
        At v' (plan m bs.length x).2 (bs ++ (plan m bs.length x).1.bits)
  | .atom a, v, m, bs, rest, h, hlt => by
    obtain ⟨v', h1, h2⟩ := hw.atom h hlt
    exact ⟨v', Reaches.one rfl (by simp only [walkTurn, h1]; rfl), h2⟩
  | .cell x y, v, m, bs, rest, h, hlt => by
    cases hf : find m (.cell x y) with
    | some p =>
      have hplan : plan m bs.length (.cell x y) = (.back p, m) := by rw [plan, hf]
      rw [hplan] at hlt ⊢
      obtain ⟨v', h1, h2⟩ := hw.back h hf hlt
      exact ⟨v', Reaches.one rfl (by simp only [walkTurn, h1]; rfl), h2⟩
    | none =>
      have hplan : plan m bs.length (.cell x y) =
          (.cell (plan (m ++ [(bs.length, .cell x y)]) (bs.length + 2) x).1
            (plan (plan (m ++ [(bs.length, .cell x y)]) (bs.length + 2) x).2
              (bs.length + 2 + (plan (m ++ [(bs.length, .cell x y)]) (bs.length + 2) x).1.bits.length) y).1,
            (plan (plan (m ++ [(bs.length, .cell x y)]) (bs.length + 2) x).2
              (bs.length + 2 + (plan (m ++ [(bs.length, .cell x y)]) (bs.length + 2) x).1.bits.length) y).2) := by
        rw [plan, hf]
      rw [hplan] at hlt ⊢
      simp only [Item.bits, List.length_cons, List.length_append] at hlt
      obtain ⟨v1, h1, h2⟩ := hw.cell h hf (by omega)
      have hlen1 : (bs ++ [true, false]).length = bs.length + 2 := List.length_append
      have hx := walk_writes hw x (y :: rest) h2 (by rw [hlen1]; omega)
      rw [hlen1] at hx
      obtain ⟨v2, h3, h4⟩ := hx
      have hlen2 : (bs ++ [true, false] ++
          (plan (m ++ [(bs.length, .cell x y)]) (bs.length + 2) x).1.bits).length =
          bs.length + 2 + (plan (m ++ [(bs.length, .cell x y)]) (bs.length + 2) x).1.bits.length := by
        rw [List.length_append, hlen1]
      have hy := walk_writes hw y rest h4 (by rw [hlen2]; omega)
      rw [hlen2] at hy
      obtain ⟨v3, h5, h6⟩ := hy
      refine ⟨v3, ((Reaches.one rfl (by simp only [walkTurn, h1]; rfl)).trans h3).trans h5, ?_⟩
      simp only [Item.bits]
      rw [List.append_assoc, List.append_assoc] at h6
      exact h6

/-- The jammer of such callbacks writes a noun from its start. -/
theorem run_writes {σ : Type} {pat : ℕ → σ → Option σ} {cel : Noun → σ → Option (Bool × σ)}
    {At : σ → Marks → List Bool → Prop} {lim : ℕ} (hw : Writes pat cel At lim) {v : σ} (h : At v [] [])
    {x : Noun} (hlt : (jam x).bits.length < lim) :
    ∃ fuel v', run (walkTurn pat cel) Walk.done fuel ⟨[x], v⟩ = some ⟨[], v'⟩ ∧ At v' (marks x) (jam x).bits := by
  have h0 : ([] : List Bool).length + (plan [] ([] : List Bool).length x).1.bits.length < lim := by
    rw [List.length_nil, Nat.zero_add]
    exact hlt
  obtain ⟨v', hreach, hat⟩ := walk_writes hw x [] h h0
  obtain ⟨fuel, hrun⟩ := run_of_reaches hreach (run_done rfl 0)
  exact ⟨fuel, v', hrun, hat⟩

/-! ### Both jammers do it -/

theorem u3rMet_of_rub {a : ℕ} (h : (rub a).length < 2 ^ 32) : u3rMet a = some (met0 a) := by
  rw [u3rMet_eq, if_pos]
  by_contra hc
  have hpos : met0 a ≠ 0 := by omega
  have h1 : ¬ met0 (met0 a) ≤ 31 := fun hle => by
    have := met0_le_iff.mp hle
    omega
  rw [rub, Bitstream.length_mat, length_ofNat, Bitstream.matLen, if_neg hpos] at h
  omega

theorem u3rMet_of_lt {a : ℕ} (h : a < 2 ^ 32) : u3rMet a = some (met0 a) := by
  have := met0_le_iff.mpr h
  rw [u3rMet_eq, if_pos (by omega)]

/-- The state of `u3s_jam_fib`. -/
structure FibAt (fib : Fib) (m : Marks) (bs : List Bool) : Prop where
  holds : fib.Holds bs
  known : Known fib.har m bs.length

theorem Fib.Holds.setHar {fib : Fib} {bs : List Bool} (h : fib.Holds bs) (har : Root) :
    Fib.Holds { fib with har } bs := ⟨⟨h.ok.sizes, h.ok.length, h.ok.fill⟩, h.bit, h.out⟩

/-- A tag and a run-length encoded atom. -/
theorem fibTag_spec {room : ℕ} {fib : Fib} {bs : List Bool} (hroom : Roomy room) (h : fib.Holds bs)
    (met tag a : ℕ) (hlt : bs.length + (met + (rub a).length) < 2 ^ 32) :
    ∃ fib', ((fibChop room fib met tag).bind fun fib => fibMat room fib a) = some fib' ∧
      fib'.Holds (bs ++ (ofNat met tag ++ rub a)) ∧ fib'.har = fib.har := by
  obtain ⟨f1, h1, h2, h3⟩ := fibChop_spec hroom h met tag (by omega)
  obtain ⟨f2, h4, h5, h6⟩ := fibMat_spec hroom h2 a (by
    rw [List.length_append, length_ofNat]
    omega)
  rw [List.append_assoc] at h5
  exact ⟨f2, by rw [h1, Option.bind_some, h4], h5, h6.trans h3⟩

theorem length_atom (a : ℕ) : (Item.atom a).bits.length = 1 + (rub a).length := by
  rw [Item.bits, List.length_cons, Nat.add_comm]

theorem length_back (p : ℕ) : (Item.back p).bits.length = 2 + (rub p).length := by
  rw [Item.bits, List.length_cons, List.length_cons]
  omega

theorem fib_writes {room : ℕ} (hroom : Roomy room) :
    Writes (fibAtomCb room) (fibCellCb room) FibAt (2 ^ 32) := by
  refine ⟨fun {a v m bs} h hlt => ?_, fun {x y v m bs p} h hf hlt => ?_, fun {x y v m bs} h hf hlt => ?_⟩
  · obtain ⟨har, hgit, hkn⟩ := h.known.git (.atom a)
    have hbit := h.holds.bit
    cases hf : find m (.atom a) with
    | none =>
      have hplan : plan m bs.length (.atom a) = (.atom a, m ++ [(bs.length, .atom a)]) := by rw [plan, hf]
      rw [hf, Option.map_none] at hgit
      simp only [hplan, length_atom] at hlt ⊢
      obtain ⟨f', h1, h2, h3⟩ := fibTag_spec hroom
        (h.holds.setHar (u3hPut har (.atom a) (.atom bs.length))) 1 0 a hlt
      refine ⟨f', ?_, h2, ?_⟩
      · simp only [fibAtomCb, hgit, hbit]
        rw [hbit] at h1
        exact h1
      · rw [h3, List.length_append]
        refine hkn.put hf _ fun b hb => ?_
        cases hb
        rw [length_atom]
        omega
    | some p =>
      rw [hf, Option.map_some] at hgit
      have hmem := mem_of_find hf
      have hp := hkn.le p _ hmem
      have hrub := hkn.atom p a hmem
      have hmeta := u3rMet_of_rub (a := a) (by omega)
      have hmetp := u3rMet_of_lt (a := p) (by omega)
      by_cases hle : met0 a ≤ met0 p
      · have hplan : plan m bs.length (.atom a) = (.atom a, m ++ [(bs.length, .atom a)]) := by
          simp only [plan, hf, if_pos hle]
        simp only [hplan, length_atom] at hlt ⊢
        obtain ⟨f', h1, h2, h3⟩ := fibTag_spec hroom (h.holds.setHar har) 1 0 a hlt
        refine ⟨f', ?_, h2, ?_⟩
        · simp only [fibAtomCb, hgit, hmeta, hmetp, Option.bind_some, if_pos hle]
          exact h1
        · rw [h3, List.length_append]
          exact hkn.again hf _
      · have hplan : plan m bs.length (.atom a) = (.back p, m) := by
          simp only [plan, hf, if_neg hle]
        simp only [hplan, length_back] at hlt ⊢
        obtain ⟨f', h1, h2, h3⟩ := fibTag_spec hroom (h.holds.setHar har) 2 3 p hlt
        refine ⟨f', ?_, h2, ?_⟩
        · simp only [fibAtomCb, hgit, hmeta, hmetp, Option.bind_some, if_neg hle]
          exact h1
        · rw [h3, List.length_append]
          exact hkn.mono _
  · obtain ⟨har, hgit, hkn⟩ := h.known.git (.cell x y)
    rw [hf, Option.map_some] at hgit
    rw [length_back] at hlt
    obtain ⟨f', h1, h2, h3⟩ := fibTag_spec hroom (h.holds.setHar har) 2 3 p hlt
    refine ⟨f', ?_, h2, ?_⟩
    · simp only [fibCellCb, hgit, fibBack]
      rw [h1]
      rfl
    · rw [h3, List.length_append]
      exact hkn.mono _
  · obtain ⟨har, hgit, hkn⟩ := h.known.git (.cell x y)
    have hbit := h.holds.bit
    rw [hf, Option.map_none] at hgit
    obtain ⟨f', h1, h2, h3⟩ := fibChop_spec hroom
      (h.holds.setHar (u3hPut har (.cell x y) (.atom bs.length))) 2 1 hlt
    refine ⟨f', ?_, h2, ?_⟩
    · simp only [fibCellCb, hgit, hbit]
      rw [hbit] at h1
      rw [h1]
      rfl
    · rw [h3, List.length_append]
      exact hkn.put hf _ (by intro p hp; cases hp)

/-- The state of `u3s_jam_xeno`. -/
structure XenoAt (jam : Xeno) (m : Marks) (bs : List Bool) : Prop where
  out : Bitstream.Appends (Bitstream.bswInit Hashcons.fib11 Hashcons.fib12) jam.rit bs
  known : Known jam.har m bs.length

theorem jamBswAtom_spec {rit : Bitstream.Bsw} (h : rit.Ok) (a : ℕ) :
    Bitstream.Appends rit (jamBswAtom rit (met0 a) a) (Item.atom a).bits := by
  unfold jamBswAtom
  by_cases hc : isCat a = true
  · have hle : met0 a ≤ 31 := met0_le_iff.mpr (isCat_iff.mp hc)
    rw [if_pos hc, Nat.mod_eq_of_lt (by omega)]
    exact Bitstream.bswAtom64_spec h a (by omega)
  · rw [if_neg hc]
    have hbits : bitsOf (met0 a) (bitAt (toBytes (wordsOf a))) = ofNat (met0 a) a :=
      bitsOf_congr fun i _ => by rw [bitAt_toBytes, wordBit_wordsOf]
    have happ := Bitstream.bswAtomBytes_spec h (met0 a) (toBytes (wordsOf a))
    rw [hbits] at happ
    exact happ

theorem jamBswBack_spec {rit : Bitstream.Bsw} (h : rit.Ok) {p : ℕ} (hp : p < 2 ^ 64) :
    Bitstream.Appends rit (jamBswBack rit (met0 p) p) (Item.back p).bits := by
  have hle := met0_le_iff.mpr hp
  unfold jamBswBack
  rw [Nat.mod_eq_of_lt (by omega), Nat.mod_eq_of_lt hp, ite_self]
  exact Bitstream.bswBack64_spec h p hle

theorem xeno_writes : Writes xenoAtom xenoCell XenoAt (2 ^ 32) := by
  refine ⟨fun {a v m bs} h hlt => ?_, fun {x y v m bs p} h hf hlt => ?_, fun {x y v m bs} h hf hlt => ?_⟩
  · obtain ⟨har, hgit, hkn⟩ := h.known.git (.atom a)
    have hbit : v.rit.bits = bs.length := h.out.bits.trans (Nat.zero_add _)
    have hatom := jamBswAtom_spec h.out.ok a
    cases hf : find m (.atom a) with
    | none =>
      have hplan : plan m bs.length (.atom a) = (.atom a, m ++ [(bs.length, .atom a)]) := by rw [plan, hf]
      rw [hf, Option.map_none] at hgit
      simp only [hplan, length_atom] at hlt ⊢
      have hmeta := u3rMet_of_rub (a := a) (by omega)
      refine ⟨⟨u3hPut har (.atom a) (.atom v.rit.bits), jamBswAtom v.rit (met0 a) a⟩,
        by simp only [xenoAtom, hgit, hmeta, Option.bind_some], h.out.trans hatom, ?_⟩
      rw [List.length_append, hbit]
      refine hkn.put hf _ fun b hb => ?_
      cases hb
      rw [length_atom]
      omega
    | some p =>
      rw [hf, Option.map_some] at hgit
      have hmem := mem_of_find hf
      have hp := hkn.le p _ hmem
      have hrub := hkn.atom p a hmem
      have hmeta := u3rMet_of_rub (a := a) (by omega)
      have hmetp := u3rMet_of_lt (a := p) (by omega)
      by_cases hle : met0 a ≤ met0 p
      · have hplan : plan m bs.length (.atom a) = (.atom a, m ++ [(bs.length, .atom a)]) := by
          simp only [plan, hf, if_pos hle]
        simp only [hplan, length_atom] at hlt ⊢
        refine ⟨⟨har, jamBswAtom v.rit (met0 a) a⟩,
          by simp only [xenoAtom, hgit, hmeta, hmetp, Option.bind_some, Option.map_some, if_pos hle],
          h.out.trans hatom, ?_⟩
        rw [List.length_append]
        exact hkn.again hf _
      · have hplan : plan m bs.length (.atom a) = (.back p, m) := by
          simp only [plan, hf, if_neg hle]
        simp only [hplan, length_back] at hlt ⊢
        refine ⟨⟨har, jamBswBack v.rit (met0 p) p⟩,
          by simp only [xenoAtom, hgit, hmeta, hmetp, Option.bind_some, Option.map_some, if_neg hle],
          h.out.trans (jamBswBack_spec h.out.ok (by omega)), ?_⟩
        rw [List.length_append]
        exact hkn.mono _
  · obtain ⟨har, hgit, hkn⟩ := h.known.git (.cell x y)
    rw [hf, Option.map_some] at hgit
    have hp := hkn.le p _ (mem_of_find hf)
    have hmetp := u3rMet_of_lt (a := p) (by omega)
    refine ⟨⟨har, jamBswBack v.rit (met0 p) p⟩, by simp only [xenoCell, hgit, hmetp, Option.map_some],
      h.out.trans (jamBswBack_spec h.out.ok (by omega)), ?_⟩
    rw [List.length_append]
    exact hkn.mono _
  · obtain ⟨har, hgit, hkn⟩ := h.known.git (.cell x y)
    have hbit : v.rit.bits = bs.length := h.out.bits.trans (Nat.zero_add _)
    rw [hf, Option.map_none] at hgit
    refine ⟨⟨u3hPut har (.cell x y) (.atom v.rit.bits), Bitstream.bswCell v.rit⟩,
      by simp only [xenoCell, hgit], h.out.trans (Bitstream.bswCell_spec h.out.ok), ?_⟩
    rw [List.length_append, hbit]
    exact hkn.put hf _ (by intro p hp; cases hp)


/-! ### The three jammers -/

/-- **`u3s_jam_fib` writes the noun**, if that takes less than `2 ^ 32` bits. -/
theorem jamFib_writes {x : Noun} (hlt : (jam x).bits.length < 2 ^ 32) :
    ∃ room fuel sab, u3sJamFib room fuel x = some ((jam x).bits.length, sab) ∧
      (∀ i, wordBit sab i = (jam x).bits.getD i false) ∧ (jam x).bits.length ≤ 32 * sab.length := by
  obtain ⟨room, hroom⟩ := exists_roomy
  have hinit : FibAt ⟨slabInit Hashcons.fib12, u3hNew, Hashcons.fib12, Hashcons.fib11, 0⟩ [] [] :=
    ⟨⟨⟨⟨0, rfl⟩, rfl, Nat.zero_le _⟩, rfl, fun i => wordBit_replicate _ i⟩, known_new⟩
  obtain ⟨fuel, fib, hrun, hat⟩ := run_writes (fib_writes hroom) hinit hlt
  refine ⟨room, fuel, fib.sab, ?_, hat.holds.out, ?_⟩
  · unfold u3sJamFib
    simp only [hrun, Option.map_some, hat.holds.bit]
  · have h1 := hat.holds.ok.fill
    rw [hat.holds.bit] at h1
    rw [hat.holds.ok.length]
    omega

/-- The bytes of a writer are the bits appended, and zeros up to a whole byte. -/
theorem bitAt_bswDone {prev size : ℕ} {w : Bitstream.Bsw} {bs : List Bool}
    (h : Bitstream.Appends (Bitstream.bswInit prev size) w bs) (i : ℕ) :
    bitAt (Bitstream.bswDone w) i = bs.getD i false := by
  rw [(Bitstream.bswDone_spec h.ok).2, h.out]
  exact if_neg (Nat.not_lt_zero i)

/-- **`u3s_jam_xeno` writes the noun**, if that takes less than `2 ^ 32` bits. -/
theorem jamXeno_writes {x : Noun} (hlt : (jam x).bits.length < 2 ^ 32) :
    ∃ fuel byt, u3sJamXeno fuel x = some ((jam x).bits.length, byt) ∧
      byt.length = ((jam x).bits.length + 7) / 8 ∧ ∀ i, bitAt byt i = (jam x).bits.getD i false := by
  have hinit : XenoAt ⟨u3hNew, Bitstream.bswInit Hashcons.fib11 Hashcons.fib12⟩ [] [] :=
    ⟨Bitstream.appends_nil (Bitstream.bswInit_ok _ (by decide)), known_new⟩
  obtain ⟨fuel, xeno, hrun, hat⟩ := run_writes xeno_writes hinit hlt
  have hbits : xeno.rit.bits = (jam x).bits.length := hat.out.bits.trans (Nat.zero_add _)
  refine ⟨fuel, Bitstream.bswDone xeno.rit, ?_, (Bitstream.standsAt_bswDone hat.out).2, bitAt_bswDone hat.out⟩
  unfold u3sJamXeno
  simp only [hrun, Option.map_some, hbits]

/-- The cursor of the slab is a number of 32 bits. -/
theorem bit_fibChop {room met a : ℕ} {fib fib' : Fib} (h : fibChop room fib met a = some fib') :
    fib'.bit < 2 ^ 32 := by
  obtain ⟨g, -, rfl⟩ := Option.map_eq_some_iff.mp h
  exact Nat.mod_lt _ (by decide)

theorem bit_fibMat {room a : ℕ} {fib fib' : Fib} (h : fibMat room fib a = some fib') : fib'.bit < 2 ^ 32 := by
  unfold fibMat at h
  split at h
  · exact bit_fibChop h
  · obtain ⟨aw, -, h⟩ := Option.bind_eq_some_iff.mp h
    simp only at h
    split at h
    · cases h
    · obtain ⟨g, -, rfl⟩ := Option.map_eq_some_iff.mp h
      exact Nat.mod_lt _ (by decide)

theorem bit_fibTag {room met tag a : ℕ} {fib fib' : Fib}
    (h : ((fibChop room fib met tag).bind fun fib => fibMat room fib a) = some fib') : fib'.bit < 2 ^ 32 := by
  obtain ⟨g, -, h⟩ := Option.bind_eq_some_iff.mp h
  exact bit_fibMat h

theorem bit_fibAtomCb {room a : ℕ} {fib fib' : Fib} (h : fibAtomCb room a fib = some fib') :
    fib'.bit < 2 ^ 32 := by
  unfold fibAtomCb at h
  simp only at h
  split at h
  · exact bit_fibTag h
  · obtain ⟨aw, -, h⟩ := Option.bind_eq_some_iff.mp h
    obtain ⟨bw, -, h⟩ := Option.bind_eq_some_iff.mp h
    split at h
    · exact bit_fibTag h
    · exact bit_fibTag h
  · cases h

theorem bit_fibCellCb {room : ℕ} {a : Noun} {b : Bool} {fib fib' : Fib}
    (h : fibCellCb room a fib = some (b, fib')) : fib'.bit < 2 ^ 32 := by
  unfold fibCellCb at h
  simp only at h
  split at h
  · obtain ⟨g, h1, h2⟩ := Option.map_eq_some_iff.mp h
    cases h2
    exact bit_fibChop h1
  · obtain ⟨g, h1, h2⟩ := Option.map_eq_some_iff.mp h
    cases h2
    exact bit_fibTag h1
  · cases h

theorem jamFib_lt {room fuel : ℕ} {x : Noun} {bits : ℕ} {sab : List UInt32}
    (h : u3sJamFib room fuel x = some (bits, sab)) : bits < 2 ^ 32 := by
  obtain ⟨w, hrun, he⟩ := Option.map_eq_some_iff.mp h
  cases he
  refine run_inv (P := fun w => w.v.bit < 2 ^ 32) (fun w w' hw ht => ?_) (Nat.two_pow_pos 32) hrun
  unfold walkTurn at ht
  split at ht
  · cases ht
    exact hw
  · obtain ⟨v, hv, rfl⟩ := Option.map_eq_some_iff.mp ht
    exact bit_fibAtomCb hv
  · obtain ⟨⟨b, v⟩, hv, he⟩ := Option.map_eq_some_iff.mp ht
    have := bit_fibCellCb hv
    cases b <;> (cases he; exact this)

/-- Cells nested in heads take two bits each. -/
theorem two_heads_lt : ∀ i : Item, 2 * i.heads < i.bits.length
  | .atom a => bits_pos _
  | .back p => bits_pos _
  | .cell h t => by
    have h1 := two_heads_lt h
    have h2 := two_heads_lt t
    simp only [Item.heads, Item.bits, List.length_cons, List.length_append]
    omega

/-- The three jammers write a noun, and the same bits: `u3s_jam_fib` into a slab
that is zero past them, the other two into as many bytes as they take. -/
def JamsAgree (r : Hashcons.Root) (ref : Hashcons.Nref) (x : Noun) : Prop :=
  ∃ bits byt,
    (∃ room fuel sab, u3sJamFib room fuel x = some (bits, sab) ∧
      (toBytes sab).take ((bits + 7) / 8) = byt ∧ ∀ i, bits ≤ i → wordBit sab i = false) ∧
    (∃ fuel, u3sJamXeno fuel x = some (bits, byt)) ∧
    ∃ room fuel, Serial.urJam room fuel r ref = some (bits, byt)

/-- Buffers with the same bits have the same bytes. -/
theorem take_toBytes {sab : List UInt32} {byt : List UInt8} {bs : List Bool}
    (hs : ∀ i, wordBit sab i = bs.getD i false) (hb : ∀ i, bitAt byt i = bs.getD i false)
    (hl : byt.length = (bs.length + 7) / 8) (hfit : bs.length ≤ 32 * sab.length) :
    (toBytes sab).take ((bs.length + 7) / 8) = byt := by
  refine ext_bitAt ?_ fun i hi => ?_
  · rw [List.length_take, length_toBytes, hl]
    omega
  · rw [List.length_take] at hi
    rw [bitAt_take (by omega), bitAt_toBytes, hs, hb]

variable {r : Hashcons.Root} {ref : Hashcons.Nref} {x : Noun}

/-- What `ur_jam` has written of a noun. -/
theorem bitAt_jamRun {room : ℕ} {w : Hashcons.Walk Serial.Jammer} (h : Serial.JamRun room r ref x w) (i : ℕ) :
    bitAt (Bitstream.bswDone w.v.bsw) i = (jam x).bits.getD i false := by
  obtain ⟨w0, h0, -, hj⟩ := h
  have hout := hj.out
  rw [(Serial.jamInit_at h0).2.2] at hout
  exact bitAt_bswDone hout i

/-- **The three jammers write the same** if and only if the noun takes less than
`2 ^ 32` bits, which `u3s_jam_fib` counts in a word, and no more than ten of its
nouns share a mug, so that the dictionary of `ur_jam` takes them. -/
theorem jams_agree_iff (hr : r.Ok) (hx : Hashcons.Den r ref x) :
    JamsAgree r ref x ↔ (jam x).bits.length < 2 ^ 32 ∧ UrDict.Uncrowded Hashcons.nounMug fun y => y ∈ subs x := by
  constructor
  · rintro ⟨bits, byt, ⟨room, fuel, sab, hfib, -, -⟩, -, room', fuel', hjam⟩
    have hlt := jamFib_lt hfib
    rcases Serial.urJam_runs hr hx room' with ⟨w, hw⟩ | ⟨-, hlong⟩ | ⟨hab, -⟩
    · obtain ⟨-, hres, -, -⟩ := hw.result
      cases hres fuel' _ hjam
      exact ⟨hlt, (hw.fits hx hr).2⟩
    · have h1 := (hlong fuel' bits byt hjam).1
      rw [Serial.jamMax] at h1
      omega
    · rw [hab fuel'] at hjam
      cases hjam
  · rintro ⟨hlt, hu⟩
    have hheads := two_heads_lt (jam x)
    rcases Serial.urJam_runs hr hx 63 with ⟨w, hw⟩ | ⟨hlong, -⟩ | ⟨-, hno⟩
    · obtain ⟨⟨fuel, hjam⟩, -, hstands, hlen⟩ := hw.result
      obtain ⟨room1, fuel1, sab, hfib, hsab, hfit⟩ := jamFib_writes hlt
      obtain ⟨fuel2, byt, hxeno, hlen2, hbyt⟩ := jamXeno_writes hlt
      have hsame : Bitstream.bswDone w.v.bsw = byt :=
        ext_bitAt (hlen.trans hlen2.symm) fun i _ => (bitAt_jamRun hw i).trans (hbyt i).symm
      rw [hsame] at hjam
      refine ⟨_, byt, ⟨room1, fuel1, sab, hfib, take_toBytes hsab hbyt hlen2 hfit, fun i hi => ?_⟩,
        ⟨fuel2, hxeno⟩, 63, fuel, hjam⟩
      rw [hsab, List.getD_eq_default _ _ hi]
    · rw [Serial.jamMax] at hlong
      omega
    · refine absurd ⟨Nat.le_refl _, hu.mono fun y hy => ?_, ?_⟩ hno
      · exact hy.resolve_left fun h => by cases h
      · rw [Serial.stackMax]
        omega

theorem jams_agree_iff_five : ∃ r, Hashcons.rootInit 1 = some r ∧ JamsAgree r (.direct 5) (.atom 5) := by
  obtain ⟨r, h⟩ : ∃ r, Hashcons.rootInit 1 = some r := ⟨_, rfl⟩
  obtain ⟨hr, -, -⟩ := Hashcons.rootInit_ok h
  refine ⟨r, h, (jams_agree_iff hr (.direct (by decide))).mpr ⟨by decide, ?_⟩⟩
  exact UrDict.Uncrowded.of_mem (l := [.atom 5]) (by decide) fun y hy => hy

/-- The list of eleven atoms of one mug: `ur_jam` does not write it. -/
theorem crowd_differs : ∃ r ref, r.Ok ∧ Hashcons.Den r ref (Serial.listOf Serial.crowd 1981475980824281131) ∧
    ¬ JamsAgree r ref (Serial.listOf Serial.crowd 1981475980824281131) := by
  obtain ⟨r, ref, -, hr, -, -, hden⟩ := Serial.den_listOf (a := 1981475980824281131) (by decide) Serial.crowd
    (by decide) (by decide)
  exact ⟨r, ref, hr, hden, fun h => Serial.crowd_crowded ((jams_agree_iff hr hden).mp h).2⟩

end LoomJam
end Ursockets
