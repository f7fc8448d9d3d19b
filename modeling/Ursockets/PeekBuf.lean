/-
# The buffer of a request's peeks

A request for a message of many fragments etches each of its peeks into a slot of one
buffer, which it allocates when it starts. `_mesa_peek_buf` says where the slot of a fragment
is: a number of more bytes makes a longer packet, so the slots widen at the thresholds of
`_mesa_make_chub_tag`. The buffer has as many bytes as the message, whatever the path.

The slots of fewer than `2 ^ 24` fragments are apart and each as long as its peek; from there
on they are four bytes too long. They lie inside the buffer when the last one does, and that
is a matter of the length of the path.

Key definitions: `mesaPeekBuf`, `PeeksLaidOut`, `PeeksFit`.
Key theorems: `mesaPeekBuf_slot`, `slot_next`, `peeksLaidOut_iff`.
-/
import Mathlib.Tactic.Ring
import Ursockets.PactSize

namespace Ursockets
namespace Mesa

open Bits

/-- `mesa_num_leaves`: how many leaves a message of so many bytes has. -/
def mesaNumLeaves (tob : UInt64) : UInt64 := (tob + 1023) / 1024

/-- `uv_buf_t`, its base counted from the start of the peek buffer. -/
structure Slot where
  base : UInt64
  len : UInt32
  deriving DecidableEq

/-- `_mesa_peek_buf`: where in the buffer the peek of a fragment is, if the first takes `pek` bytes. -/
def mesaPeekBuf (fra : UInt64) (pek : UInt32) : Slot :=
  if fra ≤ 0xff then ⟨fra * pek.toUInt64, pek⟩
  else if fra ≤ 0xffff then ⟨(0x100 * pek).toUInt64 + (fra - 0x100) * (pek + 1).toUInt64, pek + 1⟩
  else if fra ≤ 0xffffff then
    ⟨(0x100 * pek).toUInt64 + (fra - 0x100) * (pek + 1).toUInt64 + (fra - 0x10000) * (pek + 3).toUInt64, pek + 3⟩
  else
    ⟨(0xff * pek).toUInt64 + (fra - 0x100) * (pek + 1).toUInt64 + (fra - 0x10000) * (pek + 3).toUInt64 +
      (fra - 0x1000000) * (pek + 7).toUInt64, pek + 7⟩

/-- The peek for a fragment of the message `nam`, as `_mesa_req_pact_init` and
`_mesa_request_next_fragments` fill it in. -/
def peekOf (hed : Head) (nam : Name (List UInt8)) (fra : UInt64) : Pact (List UInt8) :=
  ⟨{ hed with pro := 1 }, .peek { nam with nit := false, aut := false, fra }⟩

/-- The `pek_w` of `_mesa_req_pact_init`: the size of the peek for the first fragment. -/
def peekWidth (hed : Head) (nam : Name (List UInt8)) : UInt32 := UInt32.ofNat (mesaSizePact (peekOf hed nam 0))

/-! ### Sizes -/

/-- How many more bytes than the first peek the one for fragment `i` takes. -/
def more (i : ℕ) : ℕ := if i < 2 ^ 8 then 0 else if i < 2 ^ 16 then 1 else if i < 2 ^ 32 then 3 else 7

theorem more_eq (fra : UInt64) : mesaBytesOfChubTag (mesaMakeChubTag fra) = more fra.toNat + 1 := by
  unfold mesaMakeChubTag more
  repeat' split
  all_goals first | rfl | omega

theorem mesaSizePact_peekOf (hed : Head) (nam : Name (List UInt8)) (fra : UInt64) :
    mesaSizePact (peekOf hed nam fra) = mesaSizePact (peekOf hed nam 0) + more fra.toNat := by
  have hfirst : more (UInt64.toNat 0) = 0 := by decide
  simp only [mesaSizePact, peekOf, mesaSizeName, more_eq, hfirst]
  simp only [Bool.false_eq_true, if_false]
  omega

/-- A buffer is filled by the peeks of its size, and by no others. -/
theorem peekOf_fills (hed : Head) (nam : Name (List UInt8)) (fra : UInt64) (len : UInt32) :
    (∃ r, mesaEtchPactToBuf len (peekOf hed nam fra) = .ok r ∧ r.1.length = len.toNat) ↔
      mesaSizePact (peekOf hed nam fra) = len.toNat := by
  have hsize := @mesaSizePact_counted (peekOf hed nam fra) trivial
  have htakes := mesaEtchPactToBuf_takes len (peekOf hed nam fra)
  rw [← hsize] at htakes
  constructor
  · rintro ⟨r, hr, hlen⟩
    exact (htakes.2 r hr).symm.trans hlen
  · intro h
    obtain ⟨r, hr⟩ := htakes.1 h.le
    exact ⟨r, hr, (htakes.2 r hr).trans h⟩

/-! ### Slots -/

theorem toNat_mul_of_lt {a b : UInt64} (h : a.toNat * b.toNat < 2 ^ 64) : (a * b).toNat = a.toNat * b.toNat := by
  rw [UInt64.toNat_mul, Nat.mod_eq_of_lt h]

theorem toNat_add_of_lt {a b : UInt64} (h : a.toNat + b.toNat < 2 ^ 64) : (a + b).toNat = a.toNat + b.toNat := by
  rw [UInt64.toNat_add, Nat.mod_eq_of_lt h]

/-- A number of fragments past a threshold, times a width. -/
theorem past_mul {fra b : UInt64} (m : UInt32) (hb : b ≤ fra) (hfra : fra.toNat < 2 ^ 24) :
    ((fra - b) * m.toUInt64).toNat = (fra.toNat - b.toNat) * m.toNat ∧
      (fra.toNat - b.toNat) * m.toNat < 2 ^ 56 := by
  have hsub : (fra - b).toNat = fra.toNat - b.toNat := UInt64.toNat_sub_of_le _ _ hb
  have hlt : (fra.toNat - b.toNat) * m.toNat < 2 ^ 24 * 2 ^ 32 :=
    Nat.mul_lt_mul'' (lt_of_le_of_lt (Nat.sub_le _ _) hfra) m.toNat_lt
  refine ⟨?_, hlt⟩
  rw [toNat_mul_of_lt, hsub, UInt32.toNat_toUInt64]
  rw [hsub, UInt32.toNat_toUInt64]
  exact lt_trans hlt (by decide)

/-- Where the slots of the first `2 ^ 24` fragments start. -/
def slotBase (k i : ℕ) : ℕ :=
  if i < 2 ^ 8 then i * k
  else if i < 2 ^ 16 then 256 * k % 2 ^ 32 + (i - 2 ^ 8) * (k + 1)
  else 256 * k % 2 ^ 32 + (i - 2 ^ 8) * (k + 1) + (i - 2 ^ 16) * (k + 3)

/-- The slots of the first `2 ^ 8` fragments. -/
theorem mesaPeekBuf_byte {fra : UInt64} (pek : UInt32) (hfra : fra.toNat < 2 ^ 8) :
    (mesaPeekBuf fra pek).base.toNat = fra.toNat * pek.toNat ∧ (mesaPeekBuf fra pek).len = pek := by
  have hle : fra ≤ 0xff := UInt64.le_iff_toNat_le.mpr (Nat.le_of_lt_succ hfra)
  have hmul := past_mul pek (@UInt64.zero_le fra) (lt_trans hfra (by decide))
  rw [UInt64.sub_zero] at hmul
  unfold mesaPeekBuf
  rw [if_pos hle]
  exact ⟨hmul.1, rfl⟩

/-- The slots of the first `2 ^ 24` fragments. -/
theorem mesaPeekBuf_slot {fra : UInt64} (pek : UInt32) (hfra : fra.toNat < 2 ^ 24) (hpek : pek.toNat + 3 < 2 ^ 32) :
    (mesaPeekBuf fra pek).base.toNat = slotBase pek.toNat fra.toNat ∧
      (mesaPeekBuf fra pek).len.toNat = pek.toNat + more fra.toNat := by
  have hmul : (0x100 * pek).toUInt64.toNat = 256 * pek.toNat % 2 ^ 32 := by
    rw [UInt32.toNat_toUInt64, UInt32.toNat_mul]
    rfl
  have hone : (pek + 1).toNat = pek.toNat + 1 := by
    rw [UInt32.toNat_add]
    exact Nat.mod_eq_of_lt (lt_of_le_of_lt (Nat.add_le_add_left (by decide : 1 ≤ 3) _) hpek)
  have hthree : (pek + 3).toNat = pek.toNat + 3 := by
    rw [UInt32.toNat_add]
    exact Nat.mod_eq_of_lt hpek
  have hmod : 256 * pek.toNat % 2 ^ 32 < 2 ^ 32 := Nat.mod_lt _ (by decide)
  unfold slotBase more
  by_cases h1 : fra.toNat < 2 ^ 8
  · obtain ⟨hbase, hlen⟩ := mesaPeekBuf_byte pek h1
    rw [if_pos h1, if_pos h1, hbase, hlen]
    exact ⟨rfl, rfl⟩
  unfold mesaPeekBuf
  have h1' : ¬ fra ≤ 0xff := fun h => h1 (Nat.lt_succ_of_le (UInt64.le_iff_toNat_le.mp h))
  obtain ⟨hsecond, hlt2⟩ := @past_mul fra 0x100 (pek + 1)
    (UInt64.le_iff_toNat_le.mpr (Nat.not_lt.mp h1)) hfra
  rw [hone] at hsecond hlt2
  rw [if_neg h1', if_neg h1, if_neg h1]
  by_cases h2 : fra.toNat < 2 ^ 16
  · have hle : fra ≤ 0xffff := UInt64.le_iff_toNat_le.mpr (Nat.le_of_lt_succ h2)
    rw [if_pos hle, if_pos h2, if_pos h2]
    refine ⟨?_, hone⟩
    show ((0x100 * pek).toUInt64 + (fra - 0x100) * (pek + 1).toUInt64).toNat = _
    rw [toNat_add_of_lt (by rw [hmul, hsecond]; omega), hmul, hsecond]
    rfl
  have h2' : ¬ fra ≤ 0xffff := fun h => h2 (Nat.lt_succ_of_le (UInt64.le_iff_toNat_le.mp h))
  have h3 : fra ≤ 0xffffff := UInt64.le_iff_toNat_le.mpr (Nat.le_of_lt_succ hfra)
  obtain ⟨hthird, hlt3⟩ := @past_mul fra 0x10000 (pek + 3)
    (UInt64.le_iff_toNat_le.mpr (Nat.not_lt.mp h2)) hfra
  rw [hthree] at hthird hlt3
  rw [if_neg h2', if_pos h3, if_neg h2, if_neg h2, if_pos (lt_trans hfra (by decide))]
  refine ⟨?_, hthree⟩
  show ((0x100 * pek).toUInt64 + (fra - 0x100) * (pek + 1).toUInt64 + (fra - 0x10000) * (pek + 3).toUInt64).toNat = _
  have hsum : ((0x100 * pek).toUInt64 + (fra - 0x100) * (pek + 1).toUInt64).toNat =
      256 * pek.toNat % 2 ^ 32 + (fra.toNat - UInt64.toNat 0x100) * (pek.toNat + 1) := by
    rw [toNat_add_of_lt (by rw [hmul, hsecond]; omega), hmul, hsecond]
  rw [toNat_add_of_lt (by rw [hsum, hthird]; omega), hsum, hthird]
  rfl

/-- **A slot ends where the next one starts, or before.** -/
theorem slot_next {k i : ℕ} (hk : k < 2 ^ 24) (hi : i + 1 < 2 ^ 24) :
    slotBase k i + (k + more i) ≤ slotBase k (i + 1) := by
  have hmod : 256 * k % 2 ^ 32 = 256 * k := Nat.mod_eq_of_lt (by omega)
  have hsucc (m w : ℕ) (h : m ≤ i) : (i + 1 - m) * w = (i - m) * w + w := by
    rw [Nat.sub_add_comm h, Nat.add_mul, Nat.one_mul]
  unfold slotBase more
  rw [hmod]
  by_cases h1 : i + 1 < 2 ^ 8
  · rw [if_pos (by omega), if_pos (by omega), if_pos h1, Nat.add_mul, Nat.one_mul, Nat.add_zero]
  by_cases h1' : i < 2 ^ 8
  · obtain rfl : i = 255 := by omega
    rw [if_pos (by decide), if_pos (by decide), if_neg (by decide), if_pos (by decide)]
    omega
  rw [if_neg h1', if_neg h1', if_neg h1]
  have hsecond := hsucc (2 ^ 8) (k + 1) (Nat.not_lt.mp h1')
  by_cases h2 : i + 1 < 2 ^ 16
  · rw [if_pos (by omega), if_pos (by omega), if_pos h2, hsecond]
    omega
  by_cases h2' : i < 2 ^ 16
  · obtain rfl : i = 65535 := by omega
    rw [if_pos (by decide), if_pos (by decide), if_neg (by decide)]
    omega
  rw [if_neg h2', if_neg h2', if_neg h2, if_pos (by omega), hsecond, hsucc (2 ^ 16) (k + 3) (Nat.not_lt.mp h2')]
  omega

/-- The slots follow one another. -/
theorem slot_before {k i : ℕ} (hk : k < 2 ^ 24) : ∀ {j : ℕ}, i < j → j < 2 ^ 24 →
    slotBase k i + (k + more i) ≤ slotBase k j
  | j + 1, hij, hj => by
    have hstep := slot_next hk hj
    rcases Nat.lt_succ_iff_lt_or_eq.mp hij with hlt | rfl
    · exact le_trans (slot_before hk hlt (Nat.lt_of_succ_lt hj)) (le_trans (Nat.le_add_right _ _) hstep)
    · exact hstep

/-- The end of the last of some slots, where the numbers are bytes. -/
theorem last_byte {k m : ℕ} (h : m < 2 ^ 8) : slotBase k m + (k + more m) = (m + 1) * k := by
  unfold slotBase more
  rw [if_pos h, if_pos h, Nat.add_mul, Nat.one_mul, Nat.add_zero]

/-- And where they are shorts. -/
theorem last_short {k m : ℕ} (hk : k < 2 ^ 24) (h : 2 ^ 8 ≤ m) (hm : m < 2 ^ 16) :
    slotBase k m + (k + more m) + 2 ^ 8 = (m + 1) * (k + 1) := by
  have hmod : 256 * k % 2 ^ 32 = 256 * k := Nat.mod_eq_of_lt (by omega)
  obtain ⟨j, rfl⟩ := Nat.exists_eq_add_of_le h
  unfold slotBase more
  rw [if_neg (by omega), if_pos hm, if_neg (by omega), if_pos hm, hmod, Nat.add_sub_cancel_left]
  ring

/-- And where they are words. -/
theorem last_word {k m : ℕ} (hk : k < 2 ^ 24) (h : 2 ^ 16 ≤ m) (hm : m < 2 ^ 24) :
    slotBase k m + (k + more m) + (2 ^ 8 + (k + 1)) = (m + 1) * (k + 1) + (m + 1 - 2 ^ 16) * (k + 3) := by
  have hmod : 256 * k % 2 ^ 32 = 256 * k := Nat.mod_eq_of_lt (by omega)
  obtain ⟨j, rfl⟩ := Nat.exists_eq_add_of_le h
  have h1 : 2 ^ 16 + j - 2 ^ 8 = 65280 + j := by omega
  have h2 : 2 ^ 16 + j - 2 ^ 16 = j := Nat.add_sub_cancel_left _ _
  have h3 : 2 ^ 16 + j + 1 - 2 ^ 16 = j + 1 := by rw [Nat.add_assoc, Nat.add_sub_cancel_left]
  unfold slotBase more
  rw [if_neg (by omega), if_neg (by omega), if_neg (by omega), if_neg (by omega), if_pos (by omega), hmod, h1, h2, h3]
  ring

/-! ### The layout -/

/-- The place after the last byte of a slot. -/
def Slot.stop (s : Slot) : ℕ := s.base.toNat + s.len.toNat

/-- The slot of a fragment's peek, in the buffer of the request for `nam`. -/
def peekSlot (hed : Head) (nam : Name (List UInt8)) (fra : UInt64) : Slot := mesaPeekBuf fra (peekWidth hed nam)

/-- **The peeks for a message of `tob` bytes have their places in the buffer**: each fills its slot,
no two slots meet, and every one is inside the allocation. -/
structure PeeksLaidOut (hed : Head) (nam : Name (List UInt8)) (tob : UInt64) : Prop where
  sized : ∀ i < mesaNumLeaves tob, ∃ r, mesaEtchPactToBuf (peekSlot hed nam i).len (peekOf hed nam i) = .ok r ∧
    r.1.length = (peekSlot hed nam i).len.toNat
  apart : ∀ i < mesaNumLeaves tob, ∀ j < mesaNumLeaves tob, i ≠ j →
    (peekSlot hed nam i).stop ≤ (peekSlot hed nam j).base.toNat ∨
      (peekSlot hed nam j).stop ≤ (peekSlot hed nam i).base.toNat
  inside : ∀ i < mesaNumLeaves tob, (peekSlot hed nam i).stop ≤ tob.toNat

/-- There are no more than `2 ^ 24` fragments, and the first peek is short enough for the message. -/
structure PeeksFit (hed : Head) (nam : Name (List UInt8)) (tob : UInt64) : Prop where
  few : (mesaNumLeaves tob).toNat ≤ 2 ^ 24
  bytes : (mesaNumLeaves tob).toNat ≤ 2 ^ 8 →
    (mesaNumLeaves tob).toNat * mesaSizePact (peekOf hed nam 0) ≤ tob.toNat
  shorts : 2 ^ 8 < (mesaNumLeaves tob).toNat → (mesaNumLeaves tob).toNat ≤ 2 ^ 16 →
    (mesaNumLeaves tob).toNat * (mesaSizePact (peekOf hed nam 0) + 1) ≤ tob.toNat + 2 ^ 8
  words : 2 ^ 16 < (mesaNumLeaves tob).toNat →
    (mesaNumLeaves tob).toNat * (mesaSizePact (peekOf hed nam 0) + 1) +
        ((mesaNumLeaves tob).toNat - 2 ^ 16) * (mesaSizePact (peekOf hed nam 0) + 3) ≤
      tob.toNat + (2 ^ 8 + (mesaSizePact (peekOf hed nam 0) + 1))

/-- A message has no more bytes than its leaves. -/
theorem tob_le {tob : UInt64} (h : 0 < (mesaNumLeaves tob).toNat) : tob.toNat ≤ 1024 * (mesaNumLeaves tob).toNat := by
  have hlt := tob.toNat_lt
  have hval : (mesaNumLeaves tob).toNat = (tob.toNat + 1023) % 2 ^ 64 / 1024 := by
    rw [mesaNumLeaves, UInt64.toNat_div, UInt64.toNat_add]
    rfl
  rw [hval] at h ⊢
  omega

variable {hed : Head} {nam : Name (List UInt8)} {tob : UInt64}

/-- The width of a first peek that is no longer than a word tells. -/
theorem peekWidth_eq (h : mesaSizePact (peekOf hed nam 0) < 2 ^ 32) :
    (peekWidth hed nam).toNat = mesaSizePact (peekOf hed nam 0) := UInt32.toNat_ofNat_of_lt' h

theorem peekSlot_eq {i : UInt64} (hk : mesaSizePact (peekOf hed nam 0) + 3 < 2 ^ 32) (hi : i.toNat < 2 ^ 24) :
    (peekSlot hed nam i).base.toNat = slotBase (mesaSizePact (peekOf hed nam 0)) i.toNat ∧
      (peekSlot hed nam i).stop =
        slotBase (mesaSizePact (peekOf hed nam 0)) i.toNat + (mesaSizePact (peekOf hed nam 0) + more i.toNat) := by
  have hwidth := peekWidth_eq (lt_of_le_of_lt (Nat.le_add_right _ 3) hk)
  obtain ⟨hbase, hlen⟩ := mesaPeekBuf_slot (peekWidth hed nam) hi (by rw [hwidth]; exact hk)
  rw [hwidth] at hbase hlen
  exact ⟨hbase, by rw [Slot.stop, peekSlot, hbase, hlen]⟩

/-! ### Peeks that fit are laid out -/

/-- Peeks that fit are short. -/
theorem PeeksFit.width (h : PeeksFit hed nam tob) (hpos : 0 < (mesaNumLeaves tob).toNat) :
    mesaSizePact (peekOf hed nam 0) < 2 ^ 16 := by
  have htob := tob_le hpos
  obtain ⟨-, hb, hs, hw⟩ := h
  generalize (mesaNumLeaves tob).toNat = n at *
  generalize mesaSizePact (peekOf hed nam 0) = k at *
  by_contra hk
  have hlong (m : ℕ) : m * 2 ^ 16 ≤ m * k := Nat.mul_le_mul_left m (Nat.not_lt.mp hk)
  rcases Nat.lt_or_ge (2 ^ 8) n with h8 | h8
  · have hn := hlong n
    have hsplit : n * (k + 1) = n * k + n := Nat.mul_succ n k
    rcases Nat.lt_or_ge (2 ^ 16) n with h16 | h16
    · have hlast := hw h16
      obtain ⟨m, rfl⟩ := Nat.exists_eq_add_of_lt h16
      have hm := hlong (2 ^ 16 + m)
      have hsplit' : (2 ^ 16 + m + 1) * k = (2 ^ 16 + m) * k + k := Nat.succ_mul _ k
      omega
    · have hlast := hs h8 h16
      omega
  · have hlast := hb h8
    have hn := hlong n
    omega

/-- The last slot of peeks that fit is inside. -/
theorem PeeksFit.last (h : PeeksFit hed nam tob) {m : ℕ} (hm : (mesaNumLeaves tob).toNat = m + 1) :
    slotBase (mesaSizePact (peekOf hed nam 0)) m + (mesaSizePact (peekOf hed nam 0) + more m) ≤ tob.toNat := by
  have hk : mesaSizePact (peekOf hed nam 0) < 2 ^ 24 := lt_trans (h.width (hm ▸ Nat.succ_pos m)) (by decide)
  obtain ⟨hfew, hb, hs, hw⟩ := h
  rw [hm] at hfew hb hs hw
  rcases Nat.lt_or_ge m (2 ^ 8) with h8 | h8
  · rw [last_byte h8]
    exact hb h8
  rcases Nat.lt_or_ge m (2 ^ 16) with h16 | h16
  · have hlast := last_short hk h8 h16
    have hroom := hs (Nat.lt_succ_of_le h8) h16
    omega
  · have hlast := last_word hk h16 hfew
    have hroom := hw (Nat.lt_succ_of_le h16)
    omega

theorem PeeksFit.laidOut (h : PeeksFit hed nam tob) : PeeksLaidOut hed nam tob := by
  have hpos {i : UInt64} (hi : i < mesaNumLeaves tob) : i.toNat < (mesaNumLeaves tob).toNat :=
    UInt64.lt_iff_toNat_lt.mp hi
  have hk {i : UInt64} (hi : i < mesaNumLeaves tob) : mesaSizePact (peekOf hed nam 0) < 2 ^ 16 :=
    h.width (Nat.zero_lt_of_lt (hpos hi))
  have hslot {i : UInt64} (hi : i < mesaNumLeaves tob) :=
    @peekSlot_eq hed nam i (lt_trans (Nat.add_lt_add_right (hk hi) 3) (by decide)) (lt_of_lt_of_le (hpos hi) h.few)
  have hbefore {i j : UInt64} (hi : i < mesaNumLeaves tob) (hj : j < mesaNumLeaves tob) (hij : i.toNat < j.toNat) :
      (peekSlot hed nam i).stop ≤ (peekSlot hed nam j).base.toNat := by
    rw [(hslot hi).2, (hslot hj).1]
    exact slot_before (lt_trans (hk hi) (by decide)) hij (lt_of_lt_of_le (hpos hj) h.few)
  constructor
  · intro i hi
    have hlt : mesaSizePact (peekOf hed nam 0) < 2 ^ 32 := lt_trans (hk hi) (by decide)
    refine (peekOf_fills hed nam i _).mpr ?_
    rw [mesaSizePact_peekOf, peekSlot, (mesaPeekBuf_slot _ (lt_of_lt_of_le (hpos hi) h.few) ?_).2, peekWidth_eq hlt]
    rw [peekWidth_eq hlt]
    exact lt_trans (Nat.add_lt_add_right (hk hi) 3) (by decide)
  · intro i hi j hj hij
    rcases Nat.lt_or_gt_of_ne (fun heq => hij (UInt64.toNat_inj.mp heq)) with hlt | hgt
    · exact .inl (hbefore hi hj hlt)
    · exact .inr (hbefore hj hi hgt)
  · intro i hi
    obtain ⟨m, hm⟩ := Nat.exists_eq_succ_of_ne_zero (Nat.ne_zero_of_lt (hpos hi))
    have hlast := h.last hm
    rw [(hslot hi).2]
    rcases Nat.lt_or_eq_of_le (Nat.le_of_lt_succ (hm ▸ hpos hi)) with hlt | heq
    · have hle := slot_before (lt_trans (hk hi) (by decide : 2 ^ 16 < 2 ^ 24)) hlt
        (lt_of_lt_of_le (Nat.lt_succ_self m) (hm ▸ h.few))
      omega
    · rw [heq]
      exact hlast

/-! ### Peeks that are laid out fit -/

/-- A fragment of the message by its number. -/
theorem fragment_of {m : ℕ} (h : m < (mesaNumLeaves tob).toNat) :
    (UInt64.ofNat m).toNat = m ∧ UInt64.ofNat m < mesaNumLeaves tob := by
  have hval : (UInt64.ofNat m).toNat = m := UInt64.toNat_ofNat_of_lt' (lt_trans h (UInt64.toNat_lt _))
  exact ⟨hval, UInt64.lt_iff_toNat_lt.mpr (hval.symm ▸ h)⟩

/-- The first peek has the width that is taken for it. -/
theorem PeeksLaidOut.first (h : PeeksLaidOut hed nam tob) (hpos : 0 < (mesaNumLeaves tob).toNat) :
    (peekWidth hed nam).toNat = mesaSizePact (peekOf hed nam 0) := by
  have hsize := (peekOf_fills hed nam 0 _).mp (h.sized 0 (UInt64.lt_iff_toNat_lt.mpr hpos))
  rw [peekSlot, (mesaPeekBuf_byte _ (by decide)).2] at hsize
  exact hsize.symm

/-- The slots from `2 ^ 24` on are too long. -/
theorem PeeksLaidOut.few (h : PeeksLaidOut hed nam tob) : (mesaNumLeaves tob).toNat ≤ 2 ^ 24 := by
  by_contra hmany
  have hlt : (2 ^ 24 : ℕ) < (mesaNumLeaves tob).toNat := Nat.not_le.mp hmany
  have hfirst := h.first (Nat.zero_lt_of_lt hlt)
  have hsize := (peekOf_fills hed nam 0x1000000 _).mp (h.sized 0x1000000 (UInt64.lt_iff_toNat_lt.mpr hlt))
  have hmore : more (UInt64.toNat 0x1000000) = 3 := by decide
  have hlen : (peekSlot hed nam 0x1000000).len.toNat = ((peekWidth hed nam).toNat + 7) % 2 ^ 32 :=
    UInt32.toNat_add _ _
  rw [mesaSizePact_peekOf, ← hfirst, hmore, hlen] at hsize
  have hword := (peekWidth hed nam).toNat_lt
  omega

/-- The first slots are inside, so the first peek is not long. -/
theorem PeeksLaidOut.width (h : PeeksLaidOut hed nam tob) (hpos : 0 < (mesaNumLeaves tob).toNat) :
    mesaSizePact (peekOf hed nam 0) < 2 ^ 24 := by
  have hfirst := h.first hpos
  have hfew := h.few
  have htob := tob_le hpos
  have hbyte {m : ℕ} (hm : m < (mesaNumLeaves tob).toNat) (h8 : m < 2 ^ 8) :
      (m + 1) * mesaSizePact (peekOf hed nam 0) ≤ tob.toNat := by
    obtain ⟨hval, hlt⟩ := fragment_of hm
    have hin := h.inside _ hlt
    obtain ⟨hbase, hlen⟩ := mesaPeekBuf_byte (peekWidth hed nam) (lt_of_eq_of_lt hval h8)
    rw [Slot.stop, peekSlot, hbase, hlen, hval, hfirst] at hin
    rw [Nat.add_mul, Nat.one_mul]
    exact hin
  rcases Nat.lt_or_ge (2 ^ 8) (mesaNumLeaves tob).toNat with h8 | h8
  · have h255 := hbyte (m := 255) (by omega) (by decide)
    rcases Nat.lt_or_ge (2 ^ 16) (mesaNumLeaves tob).toNat with h16 | h16
    · obtain ⟨hval, hlt⟩ := @fragment_of tob 65535 (by omega)
      have hin := h.inside _ hlt
      rw [(peekSlot_eq (by omega) (by rw [hval]; decide)).2, hval] at hin
      have hbase : slotBase (mesaSizePact (peekOf hed nam 0)) 65535 =
          256 * mesaSizePact (peekOf hed nam 0) % 2 ^ 32 + (65535 - 2 ^ 8) * (mesaSizePact (peekOf hed nam 0) + 1) := by
        unfold slotBase
        rw [if_neg (by decide), if_pos (by decide)]
      rw [hbase] at hin
      omega
    · omega
  · obtain ⟨m, hm⟩ := Nat.exists_eq_succ_of_ne_zero (Nat.ne_zero_of_lt hpos)
    have hlast := hbyte (m := m) (by omega) (by omega)
    rw [← Nat.succ_eq_add_one, ← hm] at hlast
    have hle := le_trans hlast htob
    rw [Nat.mul_comm] at hle
    exact lt_of_le_of_lt (Nat.le_of_mul_le_mul_right hle hpos) (by decide)

theorem PeeksLaidOut.fit (h : PeeksLaidOut hed nam tob) : PeeksFit hed nam tob := by
  have hlast {m : ℕ} (hm : (mesaNumLeaves tob).toNat = m + 1) :
      mesaSizePact (peekOf hed nam 0) < 2 ^ 24 ∧ m < 2 ^ 24 ∧
        slotBase (mesaSizePact (peekOf hed nam 0)) m + (mesaSizePact (peekOf hed nam 0) + more m) ≤ tob.toNat := by
    have hlt : m < (mesaNumLeaves tob).toNat := hm ▸ Nat.lt_succ_self m
    have hwidth := h.width (Nat.zero_lt_of_lt hlt)
    have hm24 : m < 2 ^ 24 := lt_of_lt_of_le hlt h.few
    obtain ⟨hval, hfra⟩ := fragment_of hlt
    have hin := h.inside _ hfra
    rw [(peekSlot_eq (by omega) (hval.symm ▸ hm24)).2, hval] at hin
    exact ⟨hwidth, hm24, hin⟩
  refine ⟨h.few, fun h8 => ?_, fun h8 h16 => ?_, fun h16 => ?_⟩
  · rcases Nat.eq_zero_or_pos (mesaNumLeaves tob).toNat with h0 | hpos
    · rw [h0, Nat.zero_mul]
      exact Nat.zero_le _
    obtain ⟨m, hm⟩ := Nat.exists_eq_succ_of_ne_zero (Nat.ne_zero_of_lt hpos)
    obtain ⟨-, -, hin⟩ := hlast hm
    rw [last_byte (by omega)] at hin
    rw [hm]
    exact hin
  · obtain ⟨m, hm⟩ := Nat.exists_eq_succ_of_ne_zero (Nat.ne_zero_of_lt h8)
    obtain ⟨hk, -, hin⟩ := hlast hm
    have hsum := last_short (m := m) hk (by omega) (by omega)
    rw [hm, Nat.succ_eq_add_one, ← hsum]
    exact Nat.add_le_add_right hin _
  · obtain ⟨m, hm⟩ := Nat.exists_eq_succ_of_ne_zero (Nat.ne_zero_of_lt h16)
    obtain ⟨hk, hm24, hin⟩ := hlast hm
    have hsum := last_word (m := m) hk (by omega) hm24
    rw [hm, Nat.succ_eq_add_one, ← hsum]
    exact Nat.add_le_add_right hin _

/-- **The peeks have their places in the buffer for just the messages of at most `2 ^ 24` fragments
whose path leaves the slots shorter than the message.** -/
theorem peeksLaidOut_iff (hed : Head) (nam : Name (List UInt8)) (tob : UInt64) :
    PeeksLaidOut hed nam tob ↔ PeeksFit hed nam tob := ⟨PeeksLaidOut.fit, PeeksFit.laidOut⟩

/-- The name of a message of two fragments with a long path. -/
def longName : Name (List UInt8) := ⟨⟨0, 0⟩, 0, 13, false, false, 0, List.replicate 1100 47, []⟩

/-- Its second peek does not fit the bytes of the message. -/
theorem longName_not_laidOut : ¬ PeeksLaidOut ⟨.none, 1, 0, 0⟩ longName 2048 := by
  intro h
  have hwidth : mesaSizePact (peekOf ⟨.none, 1, 0, 0⟩ longName 0) = 16 + 1100 := by
    simp only [mesaSizePact, peekOf, mesaSizeName, longName, List.length_replicate]
    decide
  have hroom := h.fit.bytes (by decide)
  rw [hwidth] at hroom
  exact absurd hroom (by decide)

end Mesa
end Ursockets
