/-
# Framed messages

The newt protocol (`vere/newt.c`): a message is sent behind a header of five
bytes, a version tag and the message's length, and the decoder puts messages
together from buffers that are cut anywhere. It is a resumable machine that
awaits a header or a body and keeps what it has of it.

The decoder copies as many bytes at a time as it can. It does what a machine
does that takes one byte at a time (`Moat.push`), so it does not matter where
the stream is cut.

Key definitions: `Mess`, `u3NewtDecode`, `u3NewtSend`, `Moat.push`.
Key theorems: `decodeTurn_eq`, `decode_of_pushes`, `pushes_send`, `decode_frames`.
-/
import Ursockets.Lib.Bits

namespace Ursockets
namespace Newt

open Bits

/-- `u3_mess`: what there is of a header, or of a body of `len` bytes. -/
inductive Mess where
  | head (hed : List UInt8) (lt : hed.length < 5)
  | tail (len : ℕ) (hun : List UInt8) (lt : hun.length < len)

/-- `u3_moat`: the message in process, and the queue of complete messages, its
exit first. -/
structure Moat where
  mes : Mess
  meats : List (List UInt8)

/-- `_newt_mess_head`. -/
def newtMessHead : Mess := .head [] (Nat.zero_lt_succ 4)

/-- `_newt_mess_tail`. -/
def newtMessTail (len : ℕ) (h : 0 < len) : Mess := .tail len [] h

/-- `_newt_meat_plan`. -/
def newtMeatPlan (m : Moat) (met : List UInt8) : Moat := { m with meats := m.meats ++ [met] }

/-- The length that a header gives. -/
def hedLen (hed : List UInt8) : ℕ :=
  (hed.getD 1 0).toNat <<< 0 ||| (hed.getD 2 0).toNat <<< 8 ||| (hed.getD 3 0).toNat <<< 16 |||
    (hed.getD 4 0).toNat <<< 24

/-- A complete header: its version tag and its length are checked, and the body
is awaited. -/
def headDone (m : Moat) (hed : List UInt8) : Option Moat :=
  if h : hed.getD 0 0 ≠ 0 ∨ hedLen hed = 0 then none
  else some { m with mes := newtMessTail (hedLen hed) (Nat.pos_of_ne_zero fun h0 => h (.inr h0)) }

/-- A complete body. -/
def tailDone (m : Moat) (hun : List UInt8) : Moat := { newtMeatPlan m hun with mes := newtMessHead }

/-- The bytes that the message in process still lacks. -/
def Mess.ned : Mess → ℕ
  | .head hed _ => 5 - hed.length
  | .tail len hun _ => len - hun.length

theorem Mess.ned_pos (mes : Mess) : 0 < mes.ned := by
  cases mes with
  | head hed lt => exact Nat.sub_pos_of_lt lt
  | tail len hun lt => exact Nat.sub_pos_of_lt lt

/-- One turn of the loop of `u3_newt_decode`, with what it leaves of the buffer. -/
def decodeTurn (m : Moat) (buf : List UInt8) : Option (Moat × List UInt8) :=
  let cop := min m.mes.ned buf.length
  match m.mes with
  | .head hed _ =>
    let hed := hed ++ buf.take cop
    if h : hed.length < 5 then some ({ m with mes := .head hed h }, buf.drop cop)
    else (headDone m hed).map fun m => (m, buf.drop cop)
  | .tail len hun _ =>
    let hun := hun ++ buf.take cop
    if h : hun.length < len then some ({ m with mes := .tail len hun h }, buf.drop cop)
    else some (tailDone m hun, buf.drop cop)

theorem decodeTurn_rest {m m' : Moat} {buf rest : List UInt8} (h : decodeTurn m buf = some (m', rest)) :
    rest = buf.drop (min m.mes.ned buf.length) := by
  simp only [decodeTurn] at h
  split at h
  · split at h
    · cases h; rfl
    · obtain ⟨_, -, h⟩ := Option.map_eq_some_iff.mp h
      cases h; rfl
  · split at h <;> (cases h; rfl)

/-- `u3_newt_decode`: whether the bytes are well formed so far. -/
def u3NewtDecode (m : Moat) (buf : List UInt8) : Bool × Moat :=
  if hb : buf = [] then (true, m)
  else
    match h : decodeTurn m buf with
    | none => (false, m)
    | some (m', rest) =>
      have : rest.length < buf.length := by
        have h1 := m.mes.ned_pos
        have h2 := List.length_pos_iff.mpr hb
        rw [decodeTurn_rest h, List.length_drop]
        omega
      u3NewtDecode m' rest
termination_by buf.length

/-- The buffers that are read, one after the other, up to the first that fails. -/
def decodeAll : Moat → List (List UInt8) → Bool × Moat
  | m, [] => (true, m)
  | m, buf :: bufs =>
    match u3NewtDecode m buf with
    | (false, m) => (false, m)
    | (true, m) => decodeAll m bufs

/-- The header of a message of `len` bytes. -/
def sendHead (len : ℕ) : List UInt8 :=
  [0, UInt8.ofNat (len &&& 0xff), UInt8.ofNat (len >>> 8 &&& 0xff), UInt8.ofNat (len >>> 16 &&& 0xff),
    UInt8.ofNat (len >>> 24 &&& 0xff)]

/-- `u3_newt_send`: the header and the message. -/
def u3NewtSend (byt : List UInt8) : List UInt8 := sendHead byt.length ++ byt

/-! ### One byte at a time -/

/-- The machine that takes one byte. -/
def Moat.push (m : Moat) (b : UInt8) : Option Moat :=
  match m.mes with
  | .head hed _ =>
    if h : (hed ++ [b]).length < 5 then some { m with mes := .head (hed ++ [b]) h } else headDone m (hed ++ [b])
  | .tail len hun _ =>
    if h : (hun ++ [b]).length < len then some { m with mes := .tail len (hun ++ [b]) h }
    else some (tailDone m (hun ++ [b]))

theorem push_head {hed : List UInt8} {lt : hed.length < 5} {q : List (List UInt8)} (b : UInt8) :
    Moat.push ⟨.head hed lt, q⟩ b =
      if h : (hed ++ [b]).length < 5 then some ⟨.head (hed ++ [b]) h, q⟩
      else headDone ⟨.head hed lt, q⟩ (hed ++ [b]) := rfl

theorem push_tail {len : ℕ} {hun : List UInt8} {lt : hun.length < len} {q : List (List UInt8)} (b : UInt8) :
    Moat.push ⟨.tail len hun lt, q⟩ b =
      if h : (hun ++ [b]).length < len then some ⟨.tail len (hun ++ [b]) h, q⟩
      else some (tailDone ⟨.tail len hun lt, q⟩ (hun ++ [b])) := rfl

/-- Bytes of a header. -/
theorem pushes_head {q : List (List UInt8)} : ∀ {l hed : List UInt8} {lt : hed.length < 5},
    l ≠ [] → (hed ++ l).length ≤ 5 → l.foldlM Moat.push ⟨.head hed lt, q⟩ =
      if h : (hed ++ l).length < 5 then some ⟨.head (hed ++ l) h, q⟩
      else headDone ⟨.head hed lt, q⟩ (hed ++ l)
  | [], _, _, h, _ => absurd rfl h
  | [b], hed, lt, _, _ => by
    rw [List.foldlM_cons, push_head]
    simp only [List.foldlM_nil, bind_pure]
  | b :: b' :: l, hed, lt, _, hle => by
    have hassoc : hed ++ [b] ++ (b' :: l) = hed ++ b :: b' :: l := by rw [List.append_assoc]; rfl
    have hlt : (hed ++ [b]).length < 5 := by
      simp only [List.length_append, List.length_cons, List.length_nil] at hle ⊢
      omega
    rw [List.foldlM_cons, push_head, dif_pos hlt]
    refine (pushes_head (List.cons_ne_nil b' l) (by rw [hassoc]; exact hle)).trans ?_
    simp only [hassoc]
    rfl

/-- Bytes of a body. -/
theorem pushes_tail {len : ℕ} {q : List (List UInt8)} : ∀ {l hun : List UInt8} {lt : hun.length < len},
    l ≠ [] → (hun ++ l).length ≤ len → l.foldlM Moat.push ⟨.tail len hun lt, q⟩ =
      if h : (hun ++ l).length < len then some ⟨.tail len (hun ++ l) h, q⟩
      else some (tailDone ⟨.tail len hun lt, q⟩ (hun ++ l))
  | [], _, _, h, _ => absurd rfl h
  | [b], hun, lt, _, _ => by
    rw [List.foldlM_cons, push_tail]
    simp only [List.foldlM_nil, bind_pure]
  | b :: b' :: l, hun, lt, _, hle => by
    have hassoc : hun ++ [b] ++ (b' :: l) = hun ++ b :: b' :: l := by rw [List.append_assoc]; rfl
    have hlt : (hun ++ [b]).length < len := by
      simp only [List.length_append, List.length_cons, List.length_nil] at hle ⊢
      omega
    rw [List.foldlM_cons, push_tail, dif_pos hlt]
    refine (pushes_tail (List.cons_ne_nil b' l) (by rw [hassoc]; exact hle)).trans ?_
    simp only [hassoc]
    rfl

/-- **A turn takes the bytes it copies one at a time.** -/
theorem decodeTurn_eq (m : Moat) {buf : List UInt8} (hb : buf ≠ []) :
    decodeTurn m buf = ((buf.take (min m.mes.ned buf.length)).foldlM Moat.push m).map
      fun m' => (m', buf.drop (min m.mes.ned buf.length)) := by
  have hpos := m.mes.ned_pos
  have hlen := List.length_pos_iff.mpr hb
  obtain ⟨mes, q⟩ := m
  have htake : buf.take (min mes.ned buf.length) ≠ [] := by
    rw [← List.length_pos_iff, List.length_take]
    simp only [] at hpos
    omega
  cases mes with
  | head hed lt =>
    have hle : (hed ++ buf.take (min (Mess.head hed lt).ned buf.length)).length ≤ 5 := by
      rw [List.length_append, List.length_take, Mess.ned]
      omega
    simp only []
    rw [pushes_head htake hle, decodeTurn]
    simp only []
    split <;> rfl
  | tail len hun lt =>
    have hle : (hun ++ buf.take (min (Mess.tail len hun lt).ned buf.length)).length ≤ len := by
      rw [List.length_append, List.length_take, Mess.ned]
      omega
    simp only []
    rw [pushes_tail htake hle, decodeTurn]
    simp only []
    split <;> rfl

/-- **The decoder takes a buffer one byte at a time.** -/
theorem decode_of_pushes : ∀ (n : ℕ) {m m' : Moat} {buf : List UInt8}, buf.length ≤ n →
    buf.foldlM Moat.push m = some m' → u3NewtDecode m buf = (true, m')
  | n, m, m', [], _, h => by
    rw [u3NewtDecode, dif_pos rfl]
    cases h
    rfl
  | 0, _, _, _ :: _, hn, _ => absurd hn (Nat.not_succ_le_zero _)
  | n + 1, m, m', b :: buf, hn, h => by
    set cop := min m.mes.ned (b :: buf).length with hcop
    have hpos := m.mes.ned_pos
    rw [← List.take_append_drop cop (b :: buf), List.foldlM_append] at h
    obtain ⟨m1, h1, h2⟩ := Option.bind_eq_some_iff.mp h
    have hturn : decodeTurn m (b :: buf) = some (m1, (b :: buf).drop cop) := by
      rw [decodeTurn_eq m (List.cons_ne_nil b buf), ← hcop, h1]
      rfl
    have hlt : ((b :: buf).drop cop).length ≤ n := by
      rw [List.length_drop]
      rw [List.length_cons] at hcop hn ⊢
      omega
    rw [u3NewtDecode, dif_neg (List.cons_ne_nil b buf)]
    split
    · rename_i hnone
      rw [hturn] at hnone
      cases hnone
    · rename_i m2 rest hsome
      rw [hturn] at hsome
      cases hsome
      exact decode_of_pushes n hlt h2

/-- Buffers that are read one after the other are one stream. -/
theorem decodeAll_of_pushes : ∀ (bufs : List (List UInt8)) {m m' : Moat},
    bufs.flatten.foldlM Moat.push m = some m' → decodeAll m bufs = (true, m')
  | [], _, _, h => by cases h; rfl
  | buf :: bufs, m, m', h => by
    rw [List.flatten_cons, List.foldlM_append] at h
    obtain ⟨m1, h1, h2⟩ := Option.bind_eq_some_iff.mp h
    rw [decodeAll, decode_of_pushes _ (Nat.le_refl _) h1]
    exact decodeAll_of_pushes bufs h2

/-! ### Frames -/

/-- The header gives the length of its message. -/
theorem hedLen_sendHead {len : ℕ} (h : len < 2 ^ 32) : hedLen (sendHead len) = len := by
  have hbyte : ∀ n k : ℕ, (UInt8.ofNat (n &&& 0xff)).toNat.testBit k = (decide (k < 8) && n.testBit k) := by
    intro n k
    have hmask : (0xff : ℕ) = 2 ^ 8 - 1 := rfl
    rw [testBit_ofNat, hmask, Nat.and_two_pow_sub_one_eq_mod, Nat.testBit_mod_two_pow, ← Bool.and_assoc,
      Bool.and_self]
  refine Nat.eq_of_testBit_eq fun i => ?_
  rw [hedLen, sendHead]
  simp only [List.getD_cons_succ, List.getD_cons_zero, Nat.testBit_or, Nat.testBit_shiftLeft, hbyte,
    Nat.testBit_shiftRight]
  rcases Nat.lt_or_ge i 32 with hi | hi
  · have h8 : i < 8 ∨ (8 ≤ i ∧ i < 16) ∨ (16 ≤ i ∧ i < 24) ∨ 24 ≤ i := by omega
    rcases h8 with h8 | h8 | h8 | h8
    · simp [h8, show ¬ 8 ≤ i by omega, show ¬ 16 ≤ i by omega, show ¬ 24 ≤ i by omega]
    · simp [h8, show ¬ i < 8 by omega, show i - 8 < 8 by omega, show 8 + (i - 8) = i by omega,
        show ¬ 16 ≤ i by omega, show ¬ 24 ≤ i by omega]
    · simp [h8, show ¬ i < 8 by omega, show ¬ i - 8 < 8 by omega, show i - 16 < 8 by omega,
        show 16 + (i - 16) = i by omega, show ¬ 24 ≤ i by omega]
    · simp [h8, show ¬ i < 8 by omega, show ¬ i - 8 < 8 by omega, show ¬ i - 16 < 8 by omega,
        show i - 24 < 8 by omega, show 24 + (i - 24) = i by omega]
  · rw [Nat.testBit_lt_two_pow (Nat.lt_of_lt_of_le h (Nat.pow_le_pow_right (by decide) hi))]
    simp [show ¬ i < 8 by omega, show ¬ i - 8 < 8 by omega, show ¬ i - 16 < 8 by omega,
      show ¬ i - 24 < 8 by omega]

/-- **A frame is taken as its message.** -/
theorem pushes_send {byt : List UInt8} (h0 : byt ≠ []) (h : byt.length < 2 ^ 32) (q : List (List UInt8)) :
    (u3NewtSend byt).foldlM Moat.push ⟨newtMessHead, q⟩ = some ⟨newtMessHead, q ++ [byt]⟩ := by
  have hpos := List.length_pos_iff.mpr h0
  have hlen := hedLen_sendHead h
  have hhead : (sendHead byt.length).foldlM Moat.push ⟨newtMessHead, q⟩ =
      some ⟨newtMessTail byt.length hpos, q⟩ := by
    have hne : sendHead byt.length ≠ [] := List.cons_ne_nil _ _
    have h5 : ([] ++ sendHead byt.length).length = 5 := rfl
    have hok : ¬ ((sendHead byt.length).getD 0 0 ≠ 0 ∨ hedLen (sendHead byt.length) = 0) := by
      rintro (hz | hz)
      · exact hz rfl
      · omega
    refine (pushes_head hne (Nat.le_of_eq h5)).trans ?_
    rw [dif_neg (by rw [h5]; decide), List.nil_append, headDone, dif_neg hok]
    simp only [hlen]
  rw [u3NewtSend, List.foldlM_append, hhead]
  have hend : ¬ ([] ++ byt).length < byt.length := Nat.lt_irrefl _
  have htail : byt.foldlM Moat.push ⟨newtMessTail byt.length hpos, q⟩ = _ :=
    (pushes_tail h0 (Nat.le_of_eq (by rw [List.nil_append]))).trans (dif_neg hend)
  exact htail

theorem pushes_frames : ∀ (msgs : List (List UInt8)) (q : List (List UInt8)),
    (∀ byt ∈ msgs, byt ≠ [] ∧ byt.length < 2 ^ 32) →
      (msgs.flatMap u3NewtSend).foldlM Moat.push ⟨newtMessHead, q⟩ = some ⟨newtMessHead, q ++ msgs⟩
  | [], q, _ => by rw [List.append_nil]; rfl
  | byt :: msgs, q, h => by
    obtain ⟨h0, hlt⟩ := h byt List.mem_cons_self
    rw [List.flatMap_cons, List.foldlM_append, pushes_send h0 hlt]
    have ih := pushes_frames msgs (q ++ [byt]) fun m hm => h m (List.mem_cons_of_mem _ hm)
    rw [List.append_assoc] at ih
    exact ih

/-- **Messages come through however their frames are cut**: whatever buffers
their stream is read in, every read succeeds, and the queue ends with the
messages, in order. -/
theorem decode_frames (msgs bufs q : List (List UInt8)) (hm : ∀ byt ∈ msgs, byt ≠ [] ∧ byt.length < 2 ^ 32)
    (hcut : bufs.flatten = msgs.flatMap u3NewtSend) :
    decodeAll ⟨newtMessHead, q⟩ bufs = (true, ⟨newtMessHead, q ++ msgs⟩) := by
  refine decodeAll_of_pushes bufs ?_
  rw [hcut]
  exact pushes_frames msgs q hm

/-- Two messages that are cut inside a header and inside a body. -/
theorem decode_frames_cut : decodeAll ⟨newtMessHead, []⟩ [[0, 1, 0, 0], [0, 7, 0], [2, 0, 0, 0, 8], [9]] =
    (true, ⟨newtMessHead, [[7], [8, 9]]⟩) :=
  decode_frames [[7], [8, 9]] _ [] (by decide) (by decide)

end Newt
end Ursockets
