/-
# References are canonical

Coins, conses and cues are called on one root, in any order. If no atom that
has a direct reference is given another one, and the direct atoms made of bytes
fit in the `int` in which their bytes are shifted, then each reference returned
denotes the noun that was asked for, and two references are equal if and only
if they denote the same noun.

Key definitions: `coinBytes`, `coin64`, `Store`, `Op.run`, `Op.Meets`, `Runs`,
`Store.IsCanonical`.
Key theorems: `coinBytes_iff`, `urCue_kept`, `canonical_of_runs`.
-/
import Ursockets.BitstreamScan
import Ursockets.SerialRoundTrip

namespace Ursockets
namespace Canonical

open Bits UrDict Hashcons Noun Serial Bitstream Loop

/-! ### The other constructors -/

/-- A byte shifted left as an `int`, and widened to 64 bits: the count of the
shift is taken modulo 32, and bit 31 is the sign. -/
def shiftInt (byt : UInt8) (n : ℕ) : ℕ :=
  let val := (byt.toNat <<< (n % 32)) % 2 ^ 32
  if val < 2 ^ 31 then val else val + (2 ^ 64 - 2 ^ 32)

/-- The loop of `ur_coin_bytes` over `len` bytes. -/
def directOf (byt : List UInt8) : ℕ → ℕ
  | 0 => 0
  | len + 1 => directOf byt len ||| shiftInt (byt.getD len 0) (8 * len)

/-- `ur_met0_bytes_unsafe`, of no bytes too: then it reads the byte before them. -/
def met0BytesAt (prior : UInt8) (byt : List UInt8) : ℕ :=
  if byt.length = 0 then ((2 ^ 64 - 1) <<< 3 + met0 prior.toNat) % 2 ^ 64
  else met0Bytes byt.length byt

/-- `ur_coin_bytes`, of bytes that stand after `prior` in memory. A direct atom
that has more than 62 bits is no reference. -/
def coinBytes (room : ℕ) (r : Root) (prior : UInt8) (byt : List UInt8) : Option (Nref × Root) :=
  let byt := stripZeros byt
  if met0BytesAt prior byt ≤ 62 then some (.direct (directOf byt byt.length), r)
  else coinBytesUnsafe room r byt

/-- `ur_coin64`. -/
def coin64 (room : ℕ) (r : Root) (n : UInt64) : Option (Nref × Root) :=
  if n.toNat >>> 62 = 0 then some (.direct n.toNat, r)
  else coinBytesUnsafe room r ((List.range 8).map fun i => UInt8.ofNat (n.toNat >>> (8 * i)))

/-! ### The noun that a reference stands for -/

/-- The atom of some bytes. -/
def value (byt : List UInt8) : ℕ := loadBytes byt byt.length

/-- What a reference denotes in an arena that may keep any bytes. -/
inductive Denotes (r : Root) : Nref → Noun → Prop where
  | direct {n : ℕ} : n < 2 ^ 62 → Denotes r (.direct n) (.atom n)
  | iatom {i : ℕ} {t : Tom} : r.atoms[i]? = some t → Denotes r (.iatom i) (.atom (value t.bytes))
  | icell {i : ℕ} {c : Cel} {x y : Noun} : r.cells[i]? = some c → Denotes r c.head x →
      Denotes r c.tail y → Denotes r (.icell i) (.cell x y)

/-! ### Runs of operations -/

/-- The root and the references that it has returned, each with the noun that
was asked for; a cue asks for none. -/
structure Store where
  r : Root
  refs : List (Nref × Option Noun)

/-- An operation on a root; a cons is of references returned before. -/
inductive Op where
  | coinBytes (prior : UInt8) (byt : List UInt8)
  | coin64 (n : UInt64)
  | cons (hed tal : ℕ)
  | cue (byt : List UInt8)

def Store.push (s : Store) (x : Option Noun) : Nref × Root → Store
  | (ref, r) => ⟨r, s.refs ++ [(ref, x)]⟩

/-- What an operation returns and leaves. -/
def Op.run (room fuel : ℕ) (s : Store) : Op → Option Store
  | .coinBytes prior byt =>
    (Canonical.coinBytes room s.r prior byt).map (s.push (some (.atom (value byt))))
  | .coin64 n => (Canonical.coin64 room s.r n).map (s.push (some (.atom n.toNat)))
  | .cons hed tal =>
    (s.refs[hed]?).bind fun h => (s.refs[tal]?).bind fun t =>
      (Hashcons.cons room s.r h.1 t.1).map (s.push (h.2.bind fun x => t.2.map (.cell x)))
  | .cue byt =>
    (urCue room fuel s.r byt).map fun
      | (.good ref, c) => s.push none (ref, c.r)
      | (_, c) => { s with r := c.r }

/-- The cue is at an atom whose length is given as more than 62 bits and that
has no more. -/
def Slack (c : Cue) : Prop :=
  (bsrTag c.bsr).1 = .ok .atom ∧ ∃ len, (bsrRubLen (bsrTag c.bsr).2).1 = .ok len ∧ 62 < len ∧
    value (bsrBytesAny (bsrRubLen (bsrTag c.bsr).2).2 len (List.replicate ((len + 7) / 8) 0)).1 < 2 ^ 62

/-- The cue of some bytes comes to a state in which it reads on. -/
def ReadsAt (room : ℕ) (r : Root) (byt : List UInt8) (c : Cue) : Prop :=
  ∃ bsr c0, bsrInit byt = .ok bsr ∧ cueInit room r bsr = some c0 ∧
    Reaches (cueTurn room) cueDone (.next, c0) (.next, c)

/-- `ur_coin_bytes` keeps the atom: zero has a large byte before it, and a
direct atom fits in an `int`. -/
def CoinFits (prior : UInt8) (a : ℕ) : Prop := (a = 0 → 0x80 ≤ prior) ∧ (a < 2 ^ 31 ∨ 2 ^ 62 ≤ a)

/-- The condition under which an operation keeps references canonical. -/
def Op.Meets (room : ℕ) (s : Store) : Op → Prop
  | .coinBytes prior byt => CoinFits prior (value byt)
  | .coin64 _ => True
  | .cons _ _ => True
  | .cue byt => ∀ c, ReadsAt room s.r byt c → ¬ Slack c

/-- A run from a new root whose operations meet the condition. -/
inductive Runs (room : ℕ) : Store → Prop where
  | init {r : Root} : rootInit room = some r → Runs room ⟨r, []⟩
  | op {s s' : Store} {o : Op} {fuel : ℕ} : Runs room s → o.Meets room s → o.run room fuel s = some s' →
      Runs room s'

/-- Each reference returned denotes the noun that was asked for, and two of
them are equal if and only if they denote the same noun. -/
def Store.IsCanonical (s : Store) : Prop :=
  (∀ e ∈ s.refs, ∃ x, Denotes s.r e.1 x ∧ ∀ y ∈ e.2, x = y) ∧
    ∀ e ∈ s.refs, ∀ e' ∈ s.refs, ∀ x x', Denotes s.r e.1 x → Denotes s.r e'.1 x' →
      (e.1 = e'.1 ↔ x = x')

variable {room : ℕ} {r r' : Root}

/-! ### Denotation -/

theorem Denotes.func {k : Nref} {x : Noun} (h : Denotes r k x) : ∀ {y}, Denotes r k y → x = y := by
  induction h with
  | direct _ =>
    intro y hy
    cases hy with
    | direct _ => rfl
  | iatom h =>
    intro y hy
    cases hy with
    | iatom h' => rw [Option.some_inj.mp (h.symm.trans h')]
  | icell h _ _ ihx ihy =>
    intro y hy
    cases hy with
    | icell h' hx' hy' =>
      cases Option.some_inj.mp (h.symm.trans h')
      rw [ihx hx', ihy hy']

theorem testBit_value (byt : List UInt8) (i : ℕ) : (value byt).testBit i = bitAt byt i := by
  rw [value, testBit_loadBytes]
  by_cases h : i < 8 * byt.length
  · rw [decide_eq_true h, Bool.true_and]
  · rw [decide_eq_false h, Bool.false_and, bitAt_of_le (by omega)]

theorem value_atomBytes (a : ℕ) : value (atomBytes a) = a :=
  Nat.eq_of_testBit_eq fun i => by rw [testBit_value, bitAt_atomBytes]

theorem denotes_of_den {k : Nref} {x : Noun} (h : Den r k x) : Denotes r k x := by
  induction h with
  | direct h => exact .direct (met0_le_iff.mp h)
  | iatom h hb _ =>
    have hval := value_atomBytes _ ▸ hb ▸ Denotes.iatom h
    exact hval
  | icell h _ _ ihx ihy => exact .icell h ihx ihy

/-! ### Bytes without zeros at the end -/

theorem stripZeros_append (l : List UInt8) (n : ℕ) : stripZeros (l ++ List.replicate n 0) = stripZeros l := by
  induction n with
  | zero => rw [List.replicate_zero, List.append_nil]
  | succ n ih =>
    rw [List.replicate_succ', ← List.append_assoc, stripZeros, List.rdropWhile_concat_pos _ _ _ (by rfl),
      ← stripZeros, ih]

/-- Bytes without the zeros at their end are those of their atom. -/
theorem stripZeros_eq (byt : List UInt8) : stripZeros byt = atomBytes (value byt) := by
  have hlt : value byt < 2 ^ (8 * byt.length) := Nat.lt_pow_two_of_testBit _ fun i hi => by
    rw [testBit_value, bitAt_of_le hi]
  have hmet := met0_le_iff.mpr hlt
  have hlen := length_atomBytes (value byt)
  have hbyt : byt = atomBytes (value byt) ++ List.replicate (byt.length - (atomBytes (value byt)).length) 0 := by
    refine ext_bitAt ?_ fun i _ => ?_
    · rw [List.length_append, List.length_replicate]
      omega
    · rw [bitAt_append_replicate, bitAt_atomBytes, testBit_value]
  calc stripZeros byt
    _ = stripZeros (atomBytes (value byt)) := by
      conv_lhs => rw [hbyt]
      exact stripZeros_append _ _
    _ = atomBytes (value byt) := stripZeros_atomBytes _

theorem met0BytesAt_strip (prior : UInt8) (byt : List UInt8) (h : value byt ≠ 0) :
    met0BytesAt prior (stripZeros byt) = met0 (value byt) := by
  have hlen := length_atomBytes (value byt)
  have hpos := met0_pos h
  rw [stripZeros_eq, met0BytesAt, if_neg (by omega), met0Bytes_atomBytes h]

/-- Of no bytes, the byte before them decides. -/
theorem met0BytesAt_nil (prior : UInt8) : met0BytesAt prior [] ≤ 62 ↔ 0x80 ≤ prior := by
  have hlt : prior.toNat < 2 ^ 8 := prior.toNat_lt
  have hle : met0 prior.toNat ≤ 8 := met0_le_iff.mpr hlt
  have hmet : met0 prior.toNat ≤ 7 ↔ prior.toNat < 2 ^ 7 := met0_le_iff
  rw [met0BytesAt, if_pos List.length_nil, UInt8.le_iff_toNat_le]
  show _ ↔ 128 ≤ prior.toNat
  omega

/-! ### Direct atoms of bytes -/

theorem shiftInt_range (byt : UInt8) (n : ℕ) :
    shiftInt byt n < 2 ^ 31 ∨ 2 ^ 64 - 2 ^ 31 ≤ shiftInt byt n ∧ shiftInt byt n < 2 ^ 64 := by
  have hlt := Nat.mod_lt (byt.toNat <<< (n % 32)) (show 2 ^ 32 > 0 by decide)
  rw [shiftInt]
  split
  · exact .inl ‹_›
  · exact .inr ⟨by omega, by omega⟩

/-- The bytes shifted are small, or have all the high bits. -/
theorem directOf_range (byt : List UInt8) : ∀ n, directOf byt n < 2 ^ 31 ∨
    2 ^ 64 - 2 ^ 31 ≤ directOf byt n ∧ directOf byt n < 2 ^ 64
  | 0 => .inl (by rw [directOf]; decide)
  | n + 1 => by
    rw [directOf]
    have h1 := directOf_range byt n
    have h2 := shiftInt_range (byt.getD n 0) (8 * n)
    have h3 : directOf byt n ||| shiftInt (byt.getD n 0) (8 * n) < 2 ^ 64 :=
      Nat.or_lt_two_pow (by omega) (by omega)
    have h4 := Nat.left_le_or (n := directOf byt n) (m := shiftInt (byt.getD n 0) (8 * n))
    have h5 := Nat.right_le_or (n := directOf byt n) (m := shiftInt (byt.getD n 0) (8 * n))
    rcases h1 with h1 | h1
    · rcases h2 with h2 | h2
      · exact .inl (Nat.or_lt_two_pow h1 h2)
      · exact .inr ⟨by omega, h3⟩
    · exact .inr ⟨by omega, h3⟩

/-- The bytes of an atom that fits in an `int` are put where they belong. -/
theorem directOf_atomBytes {a : ℕ} (ha : a < 2 ^ 31) : ∀ n, directOf (atomBytes a) n = a % 2 ^ (8 * n)
  | 0 => by rw [directOf, Nat.mul_zero, Nat.pow_zero, Nat.mod_one]
  | n + 1 => by
    have hbyte : ∀ k, ((atomBytes a).getD n 0).toNat.testBit k = (decide (k < 8) && a.testBit (8 * n + k)) := by
      intro k
      by_cases hk : k < 8
      · rw [testBit_getD _ hk, bitAt_atomBytes, decide_eq_true hk, Bool.true_and]
      · rw [Bits.testBit_byte (by omega), decide_eq_false hk, Bool.false_and]
    have hshift : shiftInt ((atomBytes a).getD n 0) (8 * n) = ((atomBytes a).getD n 0).toNat <<< (8 * n) := by
      by_cases hn : n < 4
      · have hlt : ((atomBytes a).getD n 0).toNat <<< (8 * n) < 2 ^ 31 := by
          refine Nat.lt_pow_two_of_testBit _ fun i hi => ?_
          rw [Nat.testBit_shiftLeft, hbyte]
          by_cases h8 : 8 * n ≤ i
          · rw [Nat.add_sub_cancel' h8, Nat.testBit_lt_two_pow (ha.trans_le (Nat.pow_le_pow_right (by decide) hi))]
            simp
          · simp [h8]
        rw [shiftInt, Nat.mod_eq_of_lt (show 8 * n < 32 by omega), Nat.mod_eq_of_lt (by omega), if_pos hlt]
      · have hzero : ((atomBytes a).getD n 0).toNat = 0 := Nat.eq_of_testBit_eq fun k => by
          rw [hbyte, Nat.zero_testBit, Nat.testBit_lt_two_pow (ha.trans_le
            (Nat.pow_le_pow_right (by decide) (by omega))), Bool.and_false]
        rw [shiftInt, hzero, Nat.zero_shiftLeft, Nat.zero_shiftLeft]
        rfl
    rw [directOf, directOf_atomBytes ha n, hshift]
    refine Nat.eq_of_testBit_eq fun i => ?_
    rw [Nat.testBit_or, Nat.testBit_mod_two_pow, Nat.testBit_mod_two_pow, Nat.testBit_shiftLeft, hbyte]
    by_cases h8 : i < 8 * n
    · simp [h8, show i < 8 * (n + 1) by omega, show ¬ 8 * n ≤ i by omega]
    · rw [decide_eq_false h8, Bool.false_and, Bool.false_or, decide_eq_true (Nat.le_of_not_lt h8),
        Bool.true_and, Nat.add_sub_cancel' (Nat.le_of_not_lt h8)]
      congr 1
      exact decide_eq_decide.mpr (by omega)

theorem directOf_strip (byt : List UInt8) :
    directOf (stripZeros byt) (stripZeros byt).length = value byt ∧ value byt < 2 ^ 62 ↔ value byt < 2 ^ 31 := by
  rw [stripZeros_eq]
  constructor
  · rintro ⟨h1, h2⟩
    have h3 := directOf_range (atomBytes (value byt)) (atomBytes (value byt)).length
    omega
  · intro h
    refine ⟨?_, by omega⟩
    rw [directOf_atomBytes h, length_atomBytes]
    refine Nat.mod_eq_of_lt ((lt_two_pow_met0 _).trans_le (Nat.pow_le_pow_right (by decide) ?_))
    omega

/-! ### Coins -/

/-- A coin that is not direct is an indirect atom. -/
theorem coinBytesUnsafe_iatom (hr : r.Ok) {byt : List UInt8} {k : Nref}
    (h : coinBytesUnsafe room r byt = some (k, r')) : ∃ i, k = .iatom i := by
  simp only [coinBytesUnsafe, Option.map_eq_some_iff] at h
  obtain ⟨⟨dict, res⟩, hi, h⟩ := h
  obtain ⟨d1, -, h2, h3⟩ := dictIntern_spec hr.toms hi
  rcases h3 with ⟨e, he, -, rfl, rfl⟩ | ⟨-, rfl, -, rfl⟩
  · cases h
    obtain ⟨i, -, hei⟩ := (hr.has_tom e.1).mp ((has_of_mem h2 e.1).mp ⟨_, e, he, rfl⟩)
    exact ⟨i, hei⟩
  · cases h
    exact ⟨_, rfl⟩

theorem adds_direct (hr : r.Ok) {n : ℕ} (hn : met0 n ≤ 62) : Adds r r (.direct n) (.atom n) :=
  ⟨hr, .direct hn, Root.Le.refl r⟩

/-- **`ur_coin_bytes` returns the reference of its atom** if and only if the
atom is not zero or the byte before it is large, and a direct atom has no more than 31 bits. -/
theorem coinBytes_iff (hr : r.Ok) {prior : UInt8} {byt : List UInt8} {k : Nref}
    (h : coinBytes room r prior byt = some (k, r')) :
    (Den r' k (.atom (value byt)) ↔ CoinFits prior (value byt)) ∧
      (CoinFits prior (value byt) → Adds r r' k (.atom (value byt))) := by
  have hmet : met0 (value byt) ≤ 62 ↔ value byt < 2 ^ 62 := met0_le_iff
  have hdirect := directOf_strip byt
  rw [coinBytes] at h
  split at h
  · rename_i h62
    cases h
    have hiff : Den r (.direct (directOf (stripZeros byt) (stripZeros byt).length)) (.atom (value byt)) ↔
        directOf (stripZeros byt) (stripZeros byt).length = value byt ∧ value byt < 2 ^ 62 := by
      constructor
      · intro hden
        generalize directOf (stripZeros byt) (stripZeros byt).length = n at hden
        generalize value byt = a at hden
        cases hden with
        | direct hn => exact ⟨rfl, met0_le_iff.mp hn⟩
      · rintro ⟨h1, h2⟩
        rw [h1]
        exact .direct (hmet.mpr h2)
    have hcond : CoinFits prior (value byt) ↔ value byt < 2 ^ 31 := by
      by_cases h0 : value byt = 0
      · rw [stripZeros_eq, h0, show atomBytes 0 = [] from rfl, met0BytesAt_nil] at h62
        exact ⟨fun _ => by omega, fun h1 => ⟨fun _ => h62, .inl h1⟩⟩
      · rw [met0BytesAt_strip prior byt h0, hmet] at h62
        exact ⟨fun hc => by have := hc.2; omega, fun h1 => ⟨fun h2 => absurd h2 h0, .inl h1⟩⟩
    refine ⟨hiff.trans (hdirect.trans hcond.symm), fun hc => ?_⟩
    obtain ⟨h1, h2⟩ := hdirect.mpr (hcond.mp hc)
    rw [h1]
    exact adds_direct hr (hmet.mpr h2)
  · rename_i h62
    by_cases h0 : value byt = 0
    · obtain ⟨i, rfl⟩ := coinBytesUnsafe_iatom hr h
      rw [stripZeros_eq, h0, show atomBytes 0 = [] from rfl, met0BytesAt_nil] at h62
      have hno : ¬ CoinFits prior (value byt) := fun hc => h62 (hc.1 h0)
      refine ⟨⟨fun hden => ?_, fun hc => absurd hc hno⟩, fun hc => absurd hc hno⟩
      rw [h0] at hden
      cases hden with
      | iatom _ _ h3 => exact absurd h3 (by decide)
    · rw [met0BytesAt_strip prior byt h0] at h62
      rw [stripZeros_eq] at h
      have hadds := (coinBytesUnsafe_spec hr (by omega) h).1
      have hc : CoinFits prior (value byt) := ⟨fun h1 => absurd h1 h0, .inr (by omega)⟩
      exact ⟨⟨fun _ => hc, fun _ => hadds.den⟩, fun _ => hadds⟩

/-- **`ur_coin64` returns the reference of its atom.** -/
theorem coin64_spec (hr : r.Ok) {n : UInt64} {k : Nref} (h : coin64 room r n = some (k, r')) :
    Adds r r' k (.atom n.toNat) := by
  have hlt : n.toNat < 2 ^ 64 := n.toNat_lt
  have hmet : met0 n.toNat ≤ 62 ↔ n.toNat < 2 ^ 62 := met0_le_iff
  rw [coin64, Nat.shiftRight_eq_div_pow] at h
  split at h
  · rename_i h0
    cases h
    exact adds_direct hr (hmet.mpr (by omega))
  · rename_i h0
    have hmet3 : met3 n.toNat = 8 := by
      have hle : met0 n.toNat ≤ 64 := met0_le_iff.mpr hlt
      have hpos : n.toNat ≠ 0 := by omega
      rw [met0, if_neg hpos] at hmet hle
      rw [met3, if_neg hpos]
      omega
    have hbytes : ((List.range 8).map fun i => UInt8.ofNat (n.toNat >>> (8 * i))) = atomBytes n.toNat := by
      rw [atomBytes, hmet3]
    rw [hbytes] at h
    exact (coinBytesUnsafe_spec hr (by omega) h).1

/-! ### Cues -/

/-- What a turn of `_cue_next` does. -/
theorem cueNext_cases {c : Cue} {s : Mode × Cue} (h : cueNextTurn room c = some s) :
    (∃ res bsr, s = (.fail res, { c with bsr })) ∨
    ((bsrTag c.bsr).1 = .ok .cell ∧
      ∃ c', cuePush ⟨none, c.bsr.bits⟩ { c with bsr := (bsrTag c.bsr).2 } = some c' ∧ s = (.next, c')) ∨
    ((bsrTag c.bsr).1 = .ok .back ∧ ∃ len bak val, (bsrRubLen (bsrTag c.bsr).2).1 = .ok len ∧ len ≤ 62 ∧
      dictGet cursorMug c.dict bak = some val ∧
        s = (.good val, { c with bsr := (bsr64Any (bsrRubLen (bsrTag c.bsr).2).2 len).2 })) ∨
    ((bsrTag c.bsr).1 = .ok .atom ∧ ∃ len, (bsrRubLen (bsrTag c.bsr).2).1 = .ok len ∧
      let bsr := (bsrRubLen (bsrTag c.bsr).2).2
      let out := bsrBytesAny bsr len (List.replicate ((len + 7) / 8) 0)
      (len ≤ 62 ∧ cuePut room c.bsr.bits (.direct (bsr64Any bsr len).1)
          { c with bsr := (bsr64Any bsr len).2 } = some s ∨
        62 < len ∧ ∃ k r, coinBytesUnsafe room c.r (stripZeros out.1) = some (k, r) ∧
          cuePut room c.bsr.bits k { c with r, bsr := out.2 } = some s)) := by
  cases htag : (bsrTag c.bsr).1 with
  | error res =>
    have h3 : bsrTag c.bsr = (.error res, (bsrTag c.bsr).2) := Prod.ext htag rfl
    rw [cueNextTurn, h3] at h
    exact .inl ⟨res, _, (Option.some_inj.mp h).symm⟩
  | ok tag =>
    cases tag with
    | cell =>
      rw [nextTurn_cell htag] at h
      obtain ⟨c', hc', rfl⟩ := Option.map_eq_some_iff.mp h
      exact .inr (.inl ⟨rfl, c', hc', rfl⟩)
    | back =>
      cases hlen : (bsrRubLen (bsrTag c.bsr).2).1 with
      | error res =>
        have h3 : bsrTag c.bsr = (.ok .back, (bsrTag c.bsr).2) := Prod.ext htag rfl
        have h4 : bsrRubLen (bsrTag c.bsr).2 = (.error res, (bsrRubLen (bsrTag c.bsr).2).2) := Prod.ext hlen rfl
        rw [cueNextTurn, h3] at h
        simp only [] at h
        rw [h4] at h
        exact .inl ⟨res, _, (Option.some_inj.mp h).symm⟩
      | ok len =>
        rw [nextTurn_back htag hlen] at h
        simp only [] at h
        split at h
        · exact .inl ⟨_, _, (Option.some_inj.mp h).symm⟩
        · rename_i h62
          split at h
          · exact .inl ⟨_, _, (Option.some_inj.mp h).symm⟩
          · rename_i val hval
            exact .inr (.inr (.inl ⟨rfl, len, _, val, rfl, by omega, hval, (Option.some_inj.mp h).symm⟩))
    | atom =>
      cases hlen : (bsrRubLen (bsrTag c.bsr).2).1 with
      | error res =>
        have h3 : bsrTag c.bsr = (.ok .atom, (bsrTag c.bsr).2) := Prod.ext htag rfl
        have h4 : bsrRubLen (bsrTag c.bsr).2 = (.error res, (bsrRubLen (bsrTag c.bsr).2).2) := Prod.ext hlen rfl
        rw [cueNextTurn, h3] at h
        simp only [] at h
        rw [h4] at h
        exact .inl ⟨res, _, (Option.some_inj.mp h).symm⟩
      | ok len =>
        rw [nextTurn_atom htag hlen] at h
        simp only [shiftRight_three, and_seven, need_eq] at h
        refine .inr (.inr (.inr ⟨rfl, len, rfl, ?_⟩))
        split at h
        · rename_i h62
          exact .inl ⟨h62, h⟩
        · rename_i h62
          obtain ⟨⟨k, r⟩, hk, h⟩ := Option.bind_eq_some_iff.mp h
          exact .inr ⟨by omega, k, r, hk, h⟩

/-- What the cue keeps: an arena that is in order, and references that denote. -/
structure Kept (r0 : Root) (s : Mode × Cue) : Prop where
  root : s.2.r.Ok
  le : Root.Le r0 s.2.r
  sane : (∀ res, s.1 ≠ .fail res) → s.2.bsr.Sane
  dict : s.2.dict.Ok cursorMug
  place : ∀ q k, dictGet cursorMug s.2.dict q = some k → ∃ x, Den s.2.r k x
  frame : ∀ fr ∈ s.2.f, ∀ k ∈ fr.ref, ∃ x, Den s.2.r k x
  good : ∀ k, s.1 = .good k → ∃ x, Den s.2.r k x

/-- A reference is put at its place, in an arena that has grown to hold it. -/
theorem Kept.put {r0 : Root} {s s' : Mode × Cue} (h : Kept r0 s) {k : Nref} {x : Noun} (ha : Adds s.2.r r k x)
    {bsr : Bsr} (hb : bsr.Sane) {f : List Frame} (hf : ∀ fr ∈ f, fr ∈ s.2.f) {bits : ℕ}
    (hs : cuePut room bits k { s.2 with r, bsr, f } = some s') : Kept r0 s' := by
  obtain ⟨d, rfl, hd, hget⟩ := cuePut_spec (c := { s.2 with r, bsr, f }) h.dict hs
  refine ⟨ha.ok, h.le.trans ha.le, fun _ => hb, hd, fun q k' hq => ?_, fun fr hfr k' hk' => ?_,
    fun k' hk' => ?_⟩
  · rw [hget] at hq
    split at hq
    · cases hq
      exact ⟨x, ha.den⟩
    · obtain ⟨y, hy⟩ := h.place q k' hq
      exact ⟨y, hy.mono ha.le⟩
  · obtain ⟨y, hy⟩ := h.frame fr (hf fr hfr) k' hk'
    exact ⟨y, hy.mono ha.le⟩
  · cases hk'
    exact ⟨x, ha.den⟩

theorem cuePush_some {fr : Frame} {c c' : Cue} (h : cuePush fr c = some c') :
    ∃ prev size, c' = { c with prev, size, f := fr :: c.f } := by
  rw [cuePush] at h
  split at h
  · obtain ⟨⟨prev, size⟩, -, rfl⟩ := Option.map_eq_some_iff.mp h
    exact ⟨prev, size, rfl⟩
  · cases h
    exact ⟨c.prev, c.size, rfl⟩

/-- **A turn of `_cue_next` keeps the arena in order** unless it reads a slack atom. -/
theorem Kept.next {r0 : Root} {c : Cue} {s' : Mode × Cue} (h : Kept r0 (.next, c)) (hno : ¬ Slack c)
    (hs : cueNextTurn room c = some s') : Kept r0 s' := by
  have hsane : c.bsr.Sane := h.sane fun _ h1 => by cases h1
  rcases cueNext_cases hs with ⟨res, bsr, rfl⟩ | ⟨htag, c', hpush, rfl⟩ | ⟨htag, len, bak, val, hlen, h62, hval, rfl⟩ |
    ⟨htag, len, hlen, hput⟩
  · exact ⟨h.root, h.le, fun h1 => absurd rfl (h1 res), h.dict, h.place, h.frame, fun _ h1 => by cases h1⟩
  · obtain ⟨prev, size, rfl⟩ := cuePush_some hpush
    refine ⟨h.root, h.le, fun _ => sane_tag hsane htag, h.dict, h.place, fun fr hfr k hk => ?_,
      fun _ h1 => by cases h1⟩
    rcases List.mem_cons.mp hfr with rfl | hfr
    · cases hk
    · exact h.frame fr hfr k hk
  · obtain ⟨hsane2, -⟩ := sane_rubLen (sane_tag hsane htag) hlen
    refine ⟨h.root, h.le, fun _ => sane_word hsane2 (by omega), h.dict, h.place, h.frame, fun k hk => ?_⟩
    cases hk
    exact h.place _ _ hval
  · obtain ⟨hsane2, hlt⟩ := sane_rubLen (sane_tag hsane htag) hlen
    rcases hput with ⟨h62, hput⟩ | ⟨h62, k, r, hcoin, hput⟩
    · have hval := word_bound hsane2 (show len ≤ 64 by omega)
      have hmet : met0 (bsr64Any (bsrRubLen (bsrTag c.bsr).2).2 len).1 ≤ 62 :=
        met0_le_iff.mpr (hval.trans_le (Nat.pow_le_pow_right (by decide) h62))
      exact h.put (adds_direct h.root hmet) (sane_word hsane2 (by omega)) (fun _ => id) hput
    · have hbig : 62 < met0 (value (bsrBytesAny (bsrRubLen (bsrTag c.bsr).2).2 len
          (List.replicate ((len + 7) / 8) 0)).1) := by
        by_contra hle
        exact hno ⟨htag, len, hlen, h62, met0_le_iff.mp (Nat.le_of_not_lt hle)⟩
      rw [stripZeros_eq] at hcoin
      exact h.put (coinBytesUnsafe_spec h.root hbig hcoin).1 (sane_bytes hsane2 hlt) (fun _ => id) hput

/-- **A turn of `_cue` with a reference keeps the arena in order.** -/
theorem Kept.turn_good {r0 : Root} {k : Nref} {c : Cue} {s' : Mode × Cue} (h : Kept r0 (.good k, c))
    (hs : cueGoodTurn room k c = some s') : Kept r0 s' := by
  have hsane : c.bsr.Sane := h.sane fun _ h1 => by cases h1
  obtain ⟨x, hx⟩ := h.good k rfl
  rw [cueGoodTurn] at hs
  split at hs
  · cases hs
    exact h
  · rename_i fr f hf
    split at hs
    · cases hs
      refine ⟨h.root, h.le, fun _ => hsane, h.dict, h.place, fun fr' hfr k' hk' => ?_, fun _ h1 => by cases h1⟩
      rcases List.mem_cons.mp hfr with rfl | hfr
      · cases hk'
        exact ⟨x, hx⟩
      · exact h.frame fr' (hf ▸ List.mem_cons_of_mem _ hfr) k' hk'
    · rename_i hed hfr
      obtain ⟨⟨k', r'⟩, hcons, hs⟩ := Option.bind_eq_some_iff.mp hs
      obtain ⟨y, hy⟩ := h.frame fr (hf ▸ List.mem_cons_self) hed hfr
      exact h.put (cons_spec h.root hy hx hcons).1 hsane (fun fr' h1 => hf ▸ List.mem_cons_of_mem _ h1) hs

/-- **A cue that reads no slack atom keeps the arena in order**, and returns a
reference that denotes. -/
theorem urCue_kept (hr : r.Ok) {fuel : ℕ} {byt : List UInt8} (hno : ∀ c, ReadsAt room r byt c → ¬ Slack c)
    {s : Mode × Cue} (h : urCue room fuel r byt = some s) : Kept r s := by
  have hinit : ∀ {bsr : Bsr} {c : Cue} (m : Mode), cueInit room r bsr = some c →
      ((∀ res, m ≠ .fail res) → bsr.Sane) → (∀ k, m ≠ .good k) → Kept r (m, c) := by
    intro bsr c m hc hb hm
    cases room with
    | zero => cases hc
    | succ room =>
      rw [cueInit_eq] at hc
      cases hc
      refine ⟨hr, Root.Le.refl r, hb, dictOk_nil _, fun q k hq => ?_, fun fr hfr => absurd hfr List.not_mem_nil,
        fun k hk => absurd hk (hm k)⟩
      exact absurd ((has_iff (dictOk_nil cursorMug)).mpr ⟨k, hq⟩) (not_has_nil _ _ q)
  rw [urCue] at h
  split at h
  · rename_i res heq
    obtain ⟨c, hc, rfl⟩ := Option.map_eq_some_iff.mp h
    exact hinit (.fail res) hc (fun h1 => absurd rfl (h1 res)) fun _ h1 => by cases h1
  · rename_i bsr heq
    obtain ⟨c0, hc0, h⟩ := Option.bind_eq_some_iff.mp h
    have hsane := sane_init heq
    have h0 : Kept r (.next, c0) := hinit .next hc0 (fun _ => hsane) fun _ h1 => by cases h1
    split at h
    · cases h
      exact hinit (.fail .meme) hc0 (fun h1 => absurd rfl (h1 _)) fun _ h1 => by cases h1
    · have hreach := reaches_of_run h
      refine (Reaches.inv (P := fun s => Reaches (cueTurn room) cueDone (.next, c0) s ∧ Kept r s)
        (fun s1 s2 hs1 hd ht => ⟨hs1.1.trans (.one hd ht), ?_⟩) ⟨.refl _, h0⟩ hreach).2
      obtain ⟨m, c⟩ := s1
      cases m with
      | next => exact hs1.2.next (hno c ⟨bsr, c0, heq, hc0, hs1.1⟩) ht
      | good k => exact hs1.2.turn_good ht
      | fail res => cases hd

/-! ### Runs -/

/-- The root is in order, and each reference denotes what was asked for. -/
structure Store.Ok (s : Store) : Prop where
  root : s.r.Ok
  den : ∀ e ∈ s.refs, ∃ x, Den s.r e.1 x ∧ ∀ y ∈ e.2, x = y

theorem Store.Ok.push {s : Store} (h : s.Ok) {k : Nref} {x : Noun} (ha : Adds s.r r k x) {y : Option Noun}
    (hy : ∀ z ∈ y, x = z) : (s.push y (k, r)).Ok := by
  refine ⟨ha.ok, fun e he => ?_⟩
  rcases List.mem_append.mp he with he | he
  · obtain ⟨z, hz, hz'⟩ := h.den e he
    exact ⟨z, hz.mono ha.le, hz'⟩
  · rw [List.mem_singleton.mp he]
    exact ⟨x, ha.den, hy⟩

/-- An operation that meets the condition keeps the store in order. -/
theorem Store.Ok.run {s s' : Store} (h : s.Ok) {o : Op} {fuel : ℕ} (hm : o.Meets room s)
    (hs : o.run room fuel s = some s') : s'.Ok := by
  cases o with
  | coinBytes prior byt =>
    obtain ⟨⟨k, r⟩, hk, rfl⟩ := Option.map_eq_some_iff.mp hs
    exact h.push ((coinBytes_iff h.root hk).2 hm) fun z hz => Option.some_inj.mp hz
  | coin64 n =>
    obtain ⟨⟨k, r⟩, hk, rfl⟩ := Option.map_eq_some_iff.mp hs
    exact h.push (coin64_spec h.root hk) fun z hz => Option.some_inj.mp hz
  | cons hed tal =>
    obtain ⟨e, he, hs⟩ := Option.bind_eq_some_iff.mp hs
    obtain ⟨e', he', hs⟩ := Option.bind_eq_some_iff.mp hs
    obtain ⟨⟨k, r⟩, hk, rfl⟩ := Option.map_eq_some_iff.mp hs
    obtain ⟨x, hx, hx'⟩ := h.den e (List.mem_of_getElem? he)
    obtain ⟨y, hy, hy'⟩ := h.den e' (List.mem_of_getElem? he')
    refine h.push (cons_spec h.root hx hy hk).1 fun z hz => ?_
    obtain ⟨x', hxe, hz⟩ := Option.bind_eq_some_iff.mp hz
    obtain ⟨y', hye, rfl⟩ := Option.map_eq_some_iff.mp hz
    rw [hx' x' hxe, hy' y' hye]
  | cue byt =>
    obtain ⟨⟨m, c⟩, hc, hs⟩ := Option.map_eq_some_iff.mp hs
    have hkept := urCue_kept h.root hm hc
    cases m with
    | good k =>
      obtain ⟨x, hx⟩ := hkept.good k rfl
      exact hs ▸ h.push ⟨hkept.root, hx, hkept.le⟩ fun z hz => by cases hz
    | _ =>
      rw [← hs]
      refine ⟨hkept.root, fun e he => ?_⟩
      obtain ⟨x, hx, hx'⟩ := h.den e he
      exact ⟨x, hx.mono hkept.le, hx'⟩

theorem ok_of_runs {s : Store} (h : Runs room s) : s.Ok := by
  induction h with
  | init h => exact ⟨(rootInit_ok h).1, fun e he => absurd he List.not_mem_nil⟩
  | op _ hm hs ih => exact ih.run hm hs

/-- **References are canonical in every run** whose operations meet the condition. -/
theorem canonical_of_runs {s : Store} (h : Runs room s) : s.IsCanonical := by
  have hok := ok_of_runs h
  refine ⟨fun e he => ?_, fun e he e' he' x x' hx hx' => ?_⟩
  · obtain ⟨x, hx, hx'⟩ := hok.den e he
    exact ⟨x, denotes_of_den hx, hx'⟩
  · obtain ⟨y, hy, -⟩ := hok.den e he
    obtain ⟨y', hy', -⟩ := hok.den e' he'
    cases hx.func (denotes_of_den hy)
    cases hx'.func (denotes_of_den hy')
    constructor
    · intro heq
      exact hy.func (heq ▸ hy')
    · rintro rfl
      exact hy.inj hok.root hy'

theorem canonical_of_runs_cons : ∃ s, Runs 1 s ∧ s.refs.length = 3 ∧ s.IsCanonical := by
  obtain ⟨r, hr⟩ : ∃ r, rootInit 1 = some r := ⟨_, rfl⟩
  have h1 : Runs 1 ⟨r, [(.direct 5, some (.atom 5))]⟩ := .op (o := .coin64 5) (.init hr) trivial
    (show Op.run 1 0 _ _ = _ from rfl)
  have hfits : CoinFits 0 (value [5, 0]) := ⟨fun h => absurd h (by decide), .inl (by decide)⟩
  have hcoin : coinBytes 1 r 0 [5, 0] = some (.direct 5, r) := by
    rw [coinBytes, if_pos (by decide +kernel), show directOf _ _ = 5 by decide +kernel]
  have hrun2 : (Op.coinBytes 0 [5, 0]).run 1 0 ⟨r, [(.direct 5, some (.atom 5))]⟩ =
      some ⟨r, [(.direct 5, some (.atom 5)), (.direct 5, some (.atom 5))]⟩ := by
    rw [Op.run, hcoin]
    rfl
  have h2 : Runs 1 ⟨r, [(.direct 5, some (.atom 5)), (.direct 5, some (.atom 5))]⟩ :=
    .op (o := .coinBytes 0 [5, 0]) h1 hfits hrun2
  obtain ⟨⟨k, r'⟩, hcons⟩ : ∃ res, cons 1 r (.direct 5) (.direct 5) = some res := by
    cases hr
    exact Option.isSome_iff_exists.mp (by decide +kernel)
  have h3 : Runs 1 (Store.push ⟨r, [(.direct 5, some (.atom 5)), (.direct 5, some (.atom 5))]⟩
      (some (.cell (.atom 5) (.atom 5))) (k, r')) :=
    .op (o := .cons 0 1) h2 trivial (by
      show Op.run 1 0 _ (.cons 0 1) = _
      show (cons 1 r (.direct 5) (.direct 5)).map _ = _
      rw [hcons]
      rfl)
  exact ⟨_, h3, rfl, canonical_of_runs h3⟩

/-- The stream of the atom five, of which 63 bits are given. -/
def slackFive : List UInt8 := [0x80, 0xbf, 0, 0, 0, 0, 0, 0, 0, 0]

/-- A cue of five as an atom of 63 bits and a coin of five are two references. -/
theorem cue_slack : ∃ r s1 s2, rootInit 1 = some r ∧ (Op.cue slackFive).run 1 9 ⟨r, []⟩ = some s1 ∧
    (Op.coin64 5).run 1 9 s1 = some s2 ∧ ¬ s2.IsCanonical := by
  obtain ⟨r, hr⟩ : ∃ r, rootInit 1 = some r := ⟨_, rfl⟩
  have hrun : (((Op.cue slackFive).run 1 9 ⟨r, []⟩).map fun s => (s.refs, s.r.atoms.map Tom.bytes)) =
      some ([(.iatom 0, none)], [[5]]) := by
    cases hr
    decide +kernel
  obtain ⟨s1, hs1, hrun⟩ := Option.map_eq_some_iff.mp hrun
  obtain ⟨hrefs, hatoms⟩ := Prod.mk.inj hrun
  refine ⟨r, s1, _, hr, hs1, rfl, fun hcan => ?_⟩
  obtain ⟨t, ht⟩ : ∃ t, s1.r.atoms = [t] := by
    obtain ⟨t, l, h, -, hl⟩ := List.map_eq_cons_iff.mp hatoms
    exact ⟨t, h.trans (by rw [List.map_eq_nil_iff.mp hl])⟩
  have hbytes : t.bytes = [5] := by
    rw [ht] at hatoms
    exact (List.cons.inj hatoms).1
  have hcue : Denotes s1.r (.iatom 0) (.atom 5) := by
    have hden : Denotes s1.r (.iatom 0) (.atom (value t.bytes)) := .iatom (by rw [ht]; rfl)
    rwa [hbytes, show value [5] = 5 by decide] at hden
  have hcoin : Denotes s1.r (.direct 5) (.atom 5) := .direct (by decide)
  have heq := (hcan.2 (.iatom 0, none) (List.mem_append_left _ (by rw [hrefs]; exact List.mem_cons_self))
    (.direct 5, some (.atom 5)) (List.mem_append_right _ List.mem_cons_self) _ _ hcue hcoin).mpr rfl
  cases heq

end Canonical
end Ursockets
