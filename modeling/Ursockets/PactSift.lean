/-
# Sifting any bytes

What the sifter does to a buffer of a hostile sender. Its state is a place in the bits of the
buffer and the first error (`Sifter.at`), and the place may lie past the end: the readers of bits
take one byte more than there is, the path and the fragment are passed over unchecked, and the
reader of bytes notes that too few remain and reads them all the same. So all bytes read lie inside
the buffer in just the buffers whose parts end where they may.

Key definitions: `Sifter.at`, `Safe`, `Fits`.
Key theorems: `siftBits_at`, `mesaSiftName_at`, `mesaSiftData_at`, `safe_iff_fits`.
-/
import Ursockets.Pact

namespace Ursockets
namespace Mesa

open Bits

variable {buf : List UInt8} {k w o p len : ℕ} {e : Option String}

/-! ### Steps one after the other -/

section Run

variable {σ α β : Type} {m : StateT σ (Except Fault) α} {f : α → StateT σ (Except Fault) β} {s t : σ} {a : α}
  {x : Fault}

theorem run_bind (h : m s = .ok (a, t)) : (m >>= f) s = f a t := by
  show (m s >>= fun y => f y.1 y.2) = _
  rw [h]
  rfl

theorem run_bind_error (h : m s = .error x) : (m >>= f) s = .error x := by
  show (m s >>= fun y => f y.1 y.2) = _
  rw [h]
  rfl

theorem check_true {q : Prop} [Decidable q] (h : q) : check (σ := σ) q s = .ok ((), s) := if_pos h

theorem check_false {q : Prop} [Decidable q] (h : ¬ q) : check (σ := σ) q s = .error .assertion := if_neg h

end Run

/-! ### The state -/

/-- The sifter at bit `k` of the buffer, with the bytes up to `p` taken. -/
def Sifter.taken (buf : List UInt8) (k p : ℕ) (e : Option String) : Sifter :=
  ⟨p, UInt32.ofNat buf.length - UInt32.ofNat p, field buf k (8 * p - k), 8 * p - k, e⟩

/-- The sifter at bit `k` of the buffer. -/
def Sifter.at (buf : List UInt8) (k : ℕ) (e : Option String) : Sifter := .taken buf k ((k + 7) / 8) e

theorem Sifter.at_byte (buf : List UInt8) (o : ℕ) (e : Option String) :
    Sifter.at buf (8 * o) e = ⟨o, UInt32.ofNat buf.length - UInt32.ofNat o, 0, 0, e⟩ := by
  have h : (8 * o + 7) / 8 = o := by omega
  rw [Sifter.at, h, Sifter.taken, Nat.sub_self, field_zero]

theorem sifterInit_eq (buf : List UInt8) : sifterInit buf.length = .at buf 0 none := by
  rw [show (0 : ℕ) = 8 * 0 from rfl, Sifter.at_byte, sifterInit]
  simp

/-- The bytes that remain, as long as the place is not past the end. -/
theorem rem_toNat (hn : buf.length < 2 ^ 32) (h : p ≤ buf.length) :
    (UInt32.ofNat buf.length - UInt32.ofNat p).toNat = buf.length - p := by
  have hp : p < 2 ^ 32 := by omega
  rw [UInt32.toNat_sub, UInt32.toNat_ofNat_of_lt' hn, UInt32.toNat_ofNat_of_lt' hp]
  omega

theorem rem_ne_zero (h : buf.length < p) (hp : p < buf.length + 2 ^ 32) :
    UInt32.ofNat buf.length - UInt32.ofNat p ≠ 0 := by
  intro h0
  have h1 := congrArg UInt32.toNat h0
  rw [UInt32.toNat_sub, UInt32.toNat_ofNat', UInt32.toNat_ofNat', UInt32.toNat_zero] at h1
  omega

/-! ### Bytes read -/

theorem length_slice (h : o + len ≤ buf.length) : ((buf.drop o).take len).length = len := by
  rw [List.length_take, List.length_drop]
  omega

theorem fetch_inside {s : Sifter} (h : o + len ≤ buf.length) :
    fetch buf o len s = .ok (⟨(buf.drop o).take len, length_slice h⟩, s) :=
  dif_pos h

theorem fetch_outside {s : Sifter} (h : buf.length < o + len) (hl : 0 < len) :
    fetch buf o len s = .error .read :=
  (dif_neg (Nat.not_le.mpr h)).trans (dif_neg hl.ne')

/-! ### Bits -/

/-- A turn takes a byte, and one more than there is. -/
theorem siftTurn_taken (hn : buf.length < 2 ^ 32) (hk : k ≤ 8 * p) (hw : 8 * p - k ≤ 56) (h : p ≤ buf.length) :
    siftTurn buf (.taken buf k p e) = .ok ((), .taken buf k (p + 1) e) := by
  have hrem : UInt32.ofNat buf.length - UInt32.ofNat p - 1 = UInt32.ofNat buf.length - UInt32.ofNat (p + 1) := by
    rw [UInt32.ofNat_add, ← sub_sub]
    rfl
  have hbit : (field buf k (8 * p - k) ||| (buf.getD p 0).toNat <<< (8 * p - k)) % 2 ^ 64 =
      field buf k (8 * (p + 1) - k) := by
    have hsum : 8 * p - k + 8 = 8 * (p + 1) - k := by omega
    rw [field_byte buf (by omega), hsum, field_mod_of_le _ _ (by omega)]
  have hoff : 8 * p - k + 8 = 8 * (p + 1) - k := by omega
  have hbyt : siftTaken buf (.taken buf k p e) (.taken buf k p e) =
      .ok ((buf.getD p 0).toNat, .taken buf k p e) := by
    unfold siftTaken
    rcases Nat.lt_or_eq_of_le h with hlt | heq
    · have hpos : 0 < (Sifter.taken buf k p e).rem := by
        rw [UInt32.lt_iff_toNat_lt, Sifter.taken, rem_toNat hn h, UInt32.toNat_zero]
        omega
      rw [if_pos hpos, run_bind (fetch_inside hlt), ← field_eight]
      exact congrArg (fun v => Except.ok (v, _)) (loadBytes_slice buf p 1)
    · have hzero : ¬ 0 < (Sifter.taken buf k p e).rem := by
        rw [UInt32.lt_iff_toNat_lt, Sifter.taken, rem_toNat hn h, UInt32.toNat_zero]
        omega
      rw [if_neg hzero, List.getD_eq_default _ _ heq.ge]
      rfl
  unfold siftTurn
  rw [run_bind (a := .taken buf k p e) (t := .taken buf k p e) rfl, run_bind hbyt]
  show Except.ok ((), (⟨p + 1, _, _, _, e⟩ : Sifter)) = _
  simp only [Sifter.taken, hrem, hbit, hoff]

/-- Behind that byte a byte outside the buffer is read. -/
theorem siftTurn_outside (h : buf.length < p) (hp : p < buf.length + 2 ^ 32) :
    siftTurn buf (.taken buf k p e) = .error .read := by
  have hpos : 0 < (Sifter.taken buf k p e).rem := by
    have h0 := rem_ne_zero h hp
    rw [UInt32.lt_iff_toNat_lt, UInt32.toNat_zero]
    exact Nat.pos_of_ne_zero fun hz => h0 (UInt32.toNat_inj.mp (hz.trans UInt32.toNat_zero.symm))
  unfold siftTurn
  rw [run_bind (a := .taken buf k p e) (t := .taken buf k p e) rfl]
  refine run_bind_error ?_
  unfold siftTaken
  rw [if_pos hpos]
  exact run_bind_error (fetch_outside (Nat.lt_succ_of_lt h) Nat.zero_lt_one)

/-- The turns take bytes until there are enough bits. -/
theorem siftFill_taken (hn : buf.length < 2 ^ 32) (hw : w ≤ 57) :
    ∀ m p, k ≤ 8 * p → p ≤ (k + w + 7) / 8 → (k + w + 7) / 8 ≤ p + m → (k + w + 7) / 8 ≤ buf.length + 1 →
      siftFill buf w m (.taken buf k p e) = .ok ((), .taken buf k ((k + w + 7) / 8) e)
  | 0, p, _, h1, h2, _ => by
    rw [Nat.le_antisymm h1 h2]
    rfl
  | m + 1, p, hk, h1, h2, hle => by
    unfold siftFill
    rcases Nat.lt_or_eq_of_le h1 with hlt | heq
    · have hmore : (Sifter.taken buf k p e).off < w := by
        show 8 * p - k < w
        omega
      rw [if_pos hmore, run_bind (siftTurn_taken hn hk (by omega) (by omega))]
      exact siftFill_taken hn hw m (p + 1) (by omega) hlt (by omega) hle
    · have henough : ¬ (Sifter.taken buf k p e).off < w := by
        show ¬ 8 * p - k < w
        omega
      rw [if_neg henough, heq]

/-- **`_sift_bits` reads a field**, which may begin in the first byte past the end. -/
theorem siftBits_at (hn : buf.length < 2 ^ 32) (hw : w ≤ 57) (h : k + w ≤ 8 * (buf.length + 1)) :
    siftBits buf w (.at buf k e) = .ok (field buf k w, .at buf (k + w) e) := by
  have hfill := @siftFill_taken buf k w e hn hw w ((k + 7) / 8) (by omega) (by omega)
    (by omega) (by omega)
  unfold siftBits
  rw [run_bind (check_true (by omega)), Sifter.at, run_bind hfill,
    run_bind (a := .taken buf k ((k + w + 7) / 8) e) (t := .taken buf k ((k + w + 7) / 8) e) rfl]
  have hval : field buf k (8 * ((k + w + 7) / 8) - k) &&& (1 <<< w - 1) = field buf k w := by
    rw [Nat.one_shiftLeft, Nat.and_two_pow_sub_one_eq_mod, field_mod _ _ (by omega)]
  show Except.ok (field buf k (8 * ((k + w + 7) / 8) - k) &&& (1 <<< w - 1),
    (⟨_, _, field buf k (8 * ((k + w + 7) / 8) - k) >>> w, 8 * ((k + w + 7) / 8) - k - w, e⟩ : Sifter)) = _
  rw [hval, field_shiftRight, Nat.sub_sub]
  rfl

/-- The turns come to a byte outside the buffer. -/
theorem siftFill_outside (hn : buf.length < 2 ^ 32) (hw : w ≤ 57) (hle : buf.length + 1 < (k + w + 7) / 8) :
    ∀ m p, k ≤ 8 * p → p < (k + w + 7) / 8 → (k + w + 7) / 8 ≤ p + m → p < buf.length + 2 ^ 32 →
      siftFill buf w m (.taken buf k p e) = .error .read
  | 0, p, _, h1, h2, _ => absurd h1 (Nat.not_lt.mpr h2)
  | m + 1, p, hk, h1, h2, hp => by
    have hmore : (Sifter.taken buf k p e).off < w := by
      show 8 * p - k < w
      omega
    unfold siftFill
    rw [if_pos hmore]
    rcases Nat.lt_or_ge buf.length p with hout | hin
    · exact run_bind_error (siftTurn_outside hout hp)
    · rw [run_bind (siftTurn_taken hn hk (by omega) hin)]
      exact siftFill_outside hn hw hle m (p + 1) (by omega) (by omega) (by omega) (by omega)

/-- **A field that ends behind that byte is read outside the buffer.** -/
theorem siftBits_outside (hn : buf.length < 2 ^ 32) (hw' : w ≤ 57)
    (h : 8 * (buf.length + 1) < k + w) (hb : (k + 7) / 8 < (k + w + 7) / 8)
    (hk : k < 8 * (buf.length + 2 ^ 31)) : siftBits buf w (.at buf k e) = .error .read := by
  unfold siftBits
  rw [run_bind (check_true (by omega))]
  exact run_bind_error (siftFill_outside hn hw' (by omega) w _ (by omega) hb (by omega) (by omega))

/-! ### Whole bytes -/

/-- **`_sift_next` goes on**, whether the bytes are there or not. -/
theorem siftNext_at (o len : ℕ) : ∃ e, siftNext len (.at buf (8 * o) none) = .ok (some o, .at buf (8 * (o + len)) e) ∧
    (e = none ↔ len ≤ (UInt32.ofNat buf.length - UInt32.ofNat o).toNat) := by
  have hrem : UInt32.ofNat buf.length - UInt32.ofNat o - UInt32.ofNat len =
      UInt32.ofNat buf.length - UInt32.ofNat (o + len) := by
    rw [UInt32.ofNat_add, sub_sub]
  simp only [Sifter.at_byte, siftNext, ne_eq, not_true_eq_false, if_false]
  by_cases h : (UInt32.ofNat buf.length - UInt32.ofNat o).toNat < len
  · refine ⟨some "unexpected eof", ?_, iff_of_false (Option.some_ne_none _) (Nat.not_le.mpr h)⟩
    rw [if_pos h, Sifter.fail, if_pos rfl]
    simp only [hrem]
  · refine ⟨none, ?_, iff_of_true rfl (Nat.not_lt.mp h)⟩
    rw [if_neg h]
    simp only [hrem]

theorem siftNext_inside (hn : buf.length < 2 ^ 32) (h : o + len ≤ buf.length) :
    siftNext len (.at buf (8 * o) none) = .ok (some o, .at buf (8 * (o + len)) none) := by
  obtain ⟨e, hs, he⟩ := @siftNext_at buf o len
  rw [hs, he.mpr (by rw [rem_toNat hn (by omega)]; omega)]

/-- After an error it goes no further. -/
theorem siftNext_failed (msg : String) : siftNext len (.at buf (8 * o) (some msg)) = .ok
    (none, .at buf (8 * o) (some msg)) := by
  rw [Sifter.at_byte, siftNext, if_neg (not_not.mpr rfl), if_pos (Option.some_ne_none _)]

section With

variable {γ : Type} {z : γ} {g : Bytes len → γ}

theorem siftWith_inside (hn : buf.length < 2 ^ 32) (h : o + len ≤ buf.length) :
    siftWith buf len z g (.at buf (8 * o) none) =
      .ok (g ⟨(buf.drop o).take len, length_slice h⟩, .at buf (8 * (o + len)) none) := by
  unfold siftWith
  rw [run_bind (siftNext_inside hn h)]
  exact run_bind (fetch_inside h)

theorem siftWith_outside (hl : 0 < len) (h : buf.length < o + len) :
    siftWith buf len z g (.at buf (8 * o) none) = .error .read := by
  obtain ⟨e, hs, -⟩ := @siftNext_at buf o len
  unfold siftWith
  rw [run_bind hs]
  exact run_bind_error (fetch_outside h hl)

theorem siftWith_failed (msg : String) :
    siftWith buf len z g (.at buf (8 * o) (some msg)) = .ok (z, .at buf (8 * o) (some msg)) := by
  unfold siftWith
  rw [run_bind (siftNext_failed msg)]
  rfl

end With

/-! ### The readers of numbers -/

theorem siftByte_inside (hn : buf.length < 2 ^ 32) (h : o + 1 ≤ buf.length) :
    siftByte buf (.at buf (8 * o) none) = .ok (UInt8.ofNat (field buf (8 * o) 8), .at buf (8 * (o + 1)) none) :=
  (siftWith_inside hn h).trans (by rw [loadBytes_slice])

theorem siftShort_inside (hn : buf.length < 2 ^ 32) (h : o + 2 ≤ buf.length) :
    siftShort buf (.at buf (8 * o) none) =
      .ok (UInt16.ofNat (field buf (8 * o) 16), .at buf (8 * (o + 2)) none) :=
  (siftWith_inside hn h).trans (by rw [loadBytes_slice])

theorem siftWord_inside (hn : buf.length < 2 ^ 32) (h : o + 4 ≤ buf.length) :
    siftWord buf (.at buf (8 * o) none) =
      .ok (UInt32.ofNat (field buf (8 * o) 32), .at buf (8 * (o + 4)) none) :=
  (siftWith_inside hn h).trans (by rw [loadBytes_slice])

theorem siftVarWord_eq (h : len ≤ 4) {s : Sifter} :
    siftVarWord buf len s = siftWith buf len 0 (fun l => UInt32.ofNat (loadBytes l.val len)) s :=
  run_bind (check_true h)

theorem siftVarWord_inside (hn : buf.length < 2 ^ 32) (hl : len ≤ 4) (h : o + len ≤ buf.length) :
    siftVarWord buf len (.at buf (8 * o) none) =
      .ok (UInt32.ofNat (field buf (8 * o) (8 * len)), .at buf (8 * (o + len)) none) :=
  (siftVarWord_eq hl).trans ((siftWith_inside hn h).trans (by rw [loadBytes_slice]))

theorem siftVarChub_eq (h : len ≤ 8) {s : Sifter} :
    siftVarChub buf len s = siftWith buf len 0 (fun l => UInt64.ofNat (loadBytes l.val len)) s :=
  run_bind (check_true h)

theorem siftVarChub_inside (hn : buf.length < 2 ^ 32) (hl : len ≤ 8) (h : o + len ≤ buf.length) :
    siftVarChub buf len (.at buf (8 * o) none) =
      .ok (UInt64.ofNat (field buf (8 * o) (8 * len)), .at buf (8 * (o + len)) none) :=
  (siftVarChub_eq hl).trans ((siftWith_inside hn h).trans (by rw [loadBytes_slice]))

theorem siftShip_eq (h : len ≤ 16) {s : Sifter} :
    siftShip buf len s = siftWith buf len ⟨0, 0⟩ (fun l => shipOfBytes l.val) s :=
  run_bind (check_true h)

/-! ### The head -/

theorem siftExpect_true {q : Prop} [Decidable q] (h : q) (msg : String) (s : Sifter) :
    siftExpect q msg s = .ok ((), s) := by
  rw [siftExpect, if_pos h]
  rfl

theorem siftExpect_false {q : Prop} [Decidable q] (h : ¬ q) (msg : String) (s : Sifter) :
    siftExpect q msg s = .ok ((), s.fail msg) := by
  rw [siftExpect, if_neg h]
  rfl

theorem Sifter.fail_at_none (msg : String) : (Sifter.at buf k none).fail msg = .at buf k (some msg) := rfl

/-- The head that stands in the buffer. -/
def headOf (buf : List UInt8) : Head × Ptag :=
  (⟨HopType.ofCode (field buf 2 2), UInt8.ofNat (field buf 4 3), UInt8.ofNat (field buf 9 3),
    UInt32.ofNat (field buf 12 20)⟩, Ptag.ofCode (field buf 7 2))

/-- The rest of `mesa_sift_head`, behind its fields. -/
theorem mesaSiftHead_fields (hn : buf.length < 2 ^ 32) (h : 3 ≤ buf.length) :
    mesaSiftHead buf (.at buf 0 none) = (do
      siftExpect (field buf 4 3 = 1) "bad protocol"
      let cookie ← siftWord buf
      siftExpect (cookie = mesaCookie) "bad cookie"
      return headOf buf : Sift (Head × Ptag)) (.at buf 32 none) := by
  have hle (k w : ℕ) (hk : k + w ≤ 32) : k + w ≤ 8 * (buf.length + 1) := by omega
  unfold mesaSiftHead
  rw [run_bind (siftBits_at hn (by decide) (hle 0 2 (by decide))),
    run_bind (siftBits_at hn (by decide) (hle 2 2 (by decide))),
    run_bind (siftBits_at hn (by decide) (hle 4 3 (by decide))),
    run_bind (siftBits_at hn (by decide) (hle 7 2 (by decide))),
    run_bind (siftBits_at hn (by decide) (hle 9 3 (by decide))),
    run_bind (siftBits_at hn (by decide) (hle 12 20 (by decide)))]
  rfl

/-- A head of the right protocol is eight bytes, of which the last four are its cookie. -/
theorem mesaSiftHead_inside (hn : buf.length < 2 ^ 32) (h : 8 ≤ buf.length) (hpro : field buf 4 3 = 1) :
    mesaSiftHead buf (.at buf 0 none) = .ok (headOf buf, .at buf (8 * 8)
      (if UInt32.ofNat (field buf 32 32) = mesaCookie then none else some "bad cookie")) := by
  rw [mesaSiftHead_fields hn (by omega), run_bind (siftExpect_true hpro _ _),
    run_bind (siftWord_inside (o := 4) hn h)]
  by_cases hc : UInt32.ofNat (field buf 32 32) = mesaCookie
  · rw [if_pos hc, run_bind (siftExpect_true hc _ _)]
    rfl
  · rw [if_neg hc, run_bind (siftExpect_false hc _ _)]
    rfl

/-- A head of another protocol is four bytes. -/
theorem mesaSiftHead_protocol (hn : buf.length < 2 ^ 32) (h : 3 ≤ buf.length) (hpro : field buf 4 3 ≠ 1) :
    mesaSiftHead buf (.at buf 0 none) = .ok (headOf buf, .at buf (8 * 4) (some "bad protocol")) := by
  have hc : (0 : UInt32) ≠ mesaCookie := by decide
  have hword : siftWord buf (.at buf 32 (some "bad protocol")) = .ok (0, .at buf 32 (some "bad protocol")) :=
    siftWith_failed (o := 4) _
  rw [mesaSiftHead_fields hn h, run_bind (siftExpect_false hpro _ _), Sifter.fail_at_none, run_bind hword,
    run_bind (siftExpect_false hc _ _)]
  rfl

/-- A head that is not there is read all the same. -/
theorem mesaSiftHead_outside (hn : buf.length < 8) (h : buf.length < 3 ∨ field buf 4 3 = 1) :
    mesaSiftHead buf (.at buf 0 none) = .error .read := by
  have hn' : buf.length < 2 ^ 32 := by omega
  by_cases h3 : 3 ≤ buf.length
  · have hpro := h.resolve_left (Nat.not_lt.mpr h3)
    rw [mesaSiftHead_fields hn' h3, run_bind (siftExpect_true hpro _ _)]
    exact run_bind_error (siftWith_outside (o := 4) (by decide) hn)
  · unfold mesaSiftHead
    rw [run_bind (siftBits_at hn' (by decide) (by omega)), run_bind (siftBits_at hn' (by decide) (by omega)),
      run_bind (siftBits_at hn' (by decide) (by omega))]
    by_cases h0 : buf.length = 0
    · exact run_bind_error (siftBits_outside hn' (by decide) (by omega) (by decide) (by omega))
    · rw [run_bind (siftBits_at hn' (by decide) (by omega)), run_bind (siftBits_at hn' (by decide) (by omega))]
      exact run_bind_error (siftBits_outside hn' (by decide) (by omega) (by decide) (by omega))

/-! ### Names -/

/-- An init name has neither of the other flags. -/
def Plain (buf : List UInt8) (o : ℕ) : Prop :=
  field buf (8 * o + 4) 1 ≠ 0 → field buf (8 * o + 5) 1 = 0 ∧ field buf (8 * o + 6) 2 = 0

instance : Decidable (Plain buf o) := inferInstanceAs (Decidable (_ → _))

/-- Where the rift of the name at `o` stands, behind its ship. -/
def riftAt (buf : List UInt8) (o : ℕ) : ℕ := o + 1 + 2 <<< field buf (8 * o) 2

/-- Where the bloq stands. -/
def boqAt (buf : List UInt8) (o : ℕ) : ℕ := riftAt buf o + (field buf (8 * o + 2) 2 + 1)

/-- Where the length of the path stands, behind the number of the fragment. -/
def pathAt (buf : List UInt8) (o : ℕ) : ℕ :=
  boqAt buf o + 1 + if field buf (8 * o + 4) 1 ≠ 0 then 0 else 1 <<< field buf (8 * o + 6) 2

/-- Where the name ends. -/
def nameEnd (buf : List UInt8) (o : ℕ) : ℕ := pathAt buf o + 2 + field buf (8 * pathAt buf o) 16

/-- The number of the fragment in the name at `o`. -/
def fraOf (buf : List UInt8) (o : ℕ) : UInt64 :=
  if field buf (8 * o + 4) 1 ≠ 0 then 0
  else UInt64.ofNat (field buf (8 * (boqAt buf o + 1)) (8 * 1 <<< field buf (8 * o + 6) 2))

/-- The name that stands at `o`. -/
def nameOf (buf : List UInt8) (o : ℕ) : Name Slice where
  her := shipOfBytes ((buf.drop (o + 1)).take (2 <<< field buf (8 * o) 2))
  rif := UInt32.ofNat (field buf (8 * riftAt buf o) (8 * (field buf (8 * o + 2) 2 + 1)))
  boq := UInt8.ofNat (field buf (8 * boqAt buf o) 8)
  nit := field buf (8 * o + 4) 1 = 1
  aut := field buf (8 * o + 5) 1 = 1
  fra := fraOf buf o
  pat := ⟨some (pathAt buf o + 2), field buf (8 * pathAt buf o) 16⟩
  str := ⟨some o, nameEnd buf o - o⟩

theorem two_shiftLeft_le (buf : List UInt8) (k : ℕ) : 2 <<< field buf k 2 ≤ 16 :=
  (by decide : ∀ r < 4, 2 <<< r ≤ 16) _ (field_lt buf k 2)

theorem one_shiftLeft_le (buf : List UInt8) (k : ℕ) : 1 <<< field buf k 2 ≤ 8 :=
  (by decide : ∀ r < 4, 1 <<< r ≤ 8) _ (field_lt buf k 2)

theorem one_shiftLeft_pos (r : ℕ) : 0 < 1 <<< r := by
  rw [Nat.one_shiftLeft]
  exact Nat.two_pow_pos r

theorem pathAt_le (buf : List UInt8) (o : ℕ) : pathAt buf o ≤ o + 30 := by
  have h1 := two_shiftLeft_le buf (8 * o)
  have h2 := one_shiftLeft_le buf (8 * o + 6)
  have h3 := field_lt buf (8 * o + 2) 2
  unfold pathAt boqAt riftAt
  split <;> omega

theorem nameEnd_le (buf : List UInt8) (o : ℕ) : nameEnd buf o < o + 2 ^ 17 := by
  have h1 := pathAt_le buf o
  have h2 := field_lt buf (8 * pathAt buf o) 16
  unfold nameEnd
  omega

/-- The rest of `_mesa_sift_name`, behind its head. -/
theorem mesaSiftName_head (hn : buf.length < 2 ^ 32) (h : o ≤ buf.length) :
    mesaSiftName buf (.at buf (8 * o) e) = (do
      let her ← siftShip buf (2 <<< field buf (8 * o) 2)
      let rift ← siftVarWord buf (field buf (8 * o + 2) 2 + 1)
      let boq ← siftByte buf
      let fra ← siftFra buf (field buf (8 * o + 4) 1) (field buf (8 * o + 5) 1) (field buf (8 * o + 6) 2)
      let len ← siftShort buf
      let pat ← siftPath len
      let ended ← get
      return ⟨her, rift, boq, field buf (8 * o + 4) 1 = 1, field buf (8 * o + 5) 1 = 1, fra, pat,
        ⟨some (Sifter.at buf (8 * o) e).pos, ((Sifter.at buf (8 * o) e).rem - ended.rem).toNat⟩⟩ :
          Sift (Name Slice)) (.at buf (8 * (o + 1)) e) := by
  have hle (k w : ℕ) (hk : k + w ≤ 8 * o + 8) : k + w ≤ 8 * (buf.length + 1) := by omega
  unfold mesaSiftName
  rw [run_bind (a := .at buf (8 * o) e) (t := .at buf (8 * o) e) rfl,
    run_bind (siftBits_at hn (by decide) (hle (8 * o) 2 (by omega))),
    run_bind (siftBits_at hn (by decide) (hle (8 * o + 2) 2 (by omega))),
    run_bind (siftBits_at hn (by decide) (hle (8 * o + 4) 1 (by omega))),
    run_bind (siftBits_at hn (by decide) (hle (8 * o + 5) 1 (by omega))),
    run_bind (siftBits_at hn (by decide) (hle (8 * o + 6) 2 (by omega)))]
  rfl

theorem siftPath_at (o : ℕ) (len : UInt16) (e : Option String) :
    siftPath len (.at buf (8 * o) e) = .ok (⟨some o, len.toNat⟩, .at buf (8 * (o + len.toNat)) e) := by
  rw [Sifter.at_byte, Sifter.at_byte, siftPath, UInt32.ofNat_add, ← sub_sub]

/-! The parts of a name, one after the other. -/

theorem nameShip_inside (hn : buf.length < 2 ^ 32) (h : riftAt buf o ≤ buf.length) :
    siftShip buf (2 <<< field buf (8 * o) 2) (.at buf (8 * (o + 1)) none) =
      .ok ((nameOf buf o).her, .at buf (8 * riftAt buf o) none) :=
  (siftShip_eq (two_shiftLeft_le buf _)).trans (siftWith_inside hn h)

theorem nameShip_outside (h : buf.length < riftAt buf o) :
    siftShip buf (2 <<< field buf (8 * o) 2) (.at buf (8 * (o + 1)) none) = .error .read := by
  have hpos : 0 < 2 <<< field buf (8 * o) 2 := by
    rw [Nat.shiftLeft_eq]
    exact Nat.mul_pos (by decide) (Nat.two_pow_pos _)
  exact (siftShip_eq (two_shiftLeft_le buf _)).trans (siftWith_outside hpos h)

theorem nameRift_inside (hn : buf.length < 2 ^ 32) (h : boqAt buf o ≤ buf.length) :
    siftVarWord buf (field buf (8 * o + 2) 2 + 1) (.at buf (8 * riftAt buf o) none) =
      .ok ((nameOf buf o).rif, .at buf (8 * boqAt buf o) none) :=
  siftVarWord_inside hn (field_lt buf _ 2) h

theorem nameRift_outside (h : buf.length < boqAt buf o) :
    siftVarWord buf (field buf (8 * o + 2) 2 + 1) (.at buf (8 * riftAt buf o) none) = .error .read :=
  (siftVarWord_eq (field_lt buf _ 2)).trans (siftWith_outside (Nat.zero_lt_succ _) h)

theorem nameFra_inside (hn : buf.length < 2 ^ 32) (hp : Plain buf o) (h : pathAt buf o ≤ buf.length) :
    siftFra buf (field buf (8 * o + 4) 1) (field buf (8 * o + 5) 1) (field buf (8 * o + 6) 2)
      (.at buf (8 * (boqAt buf o + 1)) none) = .ok (fraOf buf o, .at buf (8 * pathAt buf o) none) := by
  unfold siftFra fraOf
  unfold pathAt at h ⊢
  by_cases hnit : field buf (8 * o + 4) 1 ≠ 0
  · rw [if_pos hnit, if_pos hnit, if_pos hnit, run_bind (check_true (hp hnit).1),
      run_bind (check_true (hp hnit).2)]
    rfl
  · rw [if_neg hnit, if_neg hnit, if_neg hnit]
    rw [if_neg hnit] at h
    exact siftVarChub_inside hn (one_shiftLeft_le buf _) h

theorem nameFra_outside (hb : boqAt buf o + 1 ≤ buf.length) (h : buf.length < pathAt buf o) :
    siftFra buf (field buf (8 * o + 4) 1) (field buf (8 * o + 5) 1) (field buf (8 * o + 6) 2)
      (.at buf (8 * (boqAt buf o + 1)) none) = .error .read := by
  unfold siftFra
  unfold pathAt at h
  by_cases hnit : field buf (8 * o + 4) 1 ≠ 0
  · rw [if_pos hnit] at h
    exact absurd hb (Nat.not_le.mpr h)
  · rw [if_neg hnit] at h ⊢
    exact (siftVarChub_eq (one_shiftLeft_le buf _)).trans (siftWith_outside (one_shiftLeft_pos _) h)

/-- An assertion fails where the flags do not fit, whatever came before. -/
theorem nameFra_assertion (h : ¬ Plain buf o) (s : Sifter) :
    siftFra buf (field buf (8 * o + 4) 1) (field buf (8 * o + 5) 1) (field buf (8 * o + 6) 2) s =
      .error .assertion := by
  obtain ⟨hnit, h⟩ := Classical.not_imp.mp h
  unfold siftFra
  rw [if_pos hnit]
  by_cases htau : field buf (8 * o + 5) 1 = 0
  · rw [run_bind (check_true htau)]
    exact run_bind_error (check_false fun hgaf => h ⟨htau, hgaf⟩)
  · exact run_bind_error (check_false htau)

theorem nameFra_failed (hp : Plain buf o) (p : ℕ) (msg : String) :
    siftFra buf (field buf (8 * o + 4) 1) (field buf (8 * o + 5) 1) (field buf (8 * o + 6) 2)
      (.at buf (8 * p) (some msg)) = .ok (0, .at buf (8 * p) (some msg)) := by
  unfold siftFra
  by_cases hnit : field buf (8 * o + 4) 1 ≠ 0
  · rw [if_pos hnit, run_bind (check_true (hp hnit).1), run_bind (check_true (hp hnit).2)]
    rfl
  · rw [if_neg hnit]
    exact (siftVarChub_eq (one_shiftLeft_le buf _)).trans (siftWith_failed msg)

theorem riftAt_le (buf : List UInt8) (o : ℕ) : o + 1 ≤ riftAt buf o := Nat.le_add_right _ _

theorem boqAt_le (buf : List UInt8) (o : ℕ) : riftAt buf o ≤ boqAt buf o := Nat.le_add_right _ _

theorem boqAt_lt (buf : List UInt8) (o : ℕ) : boqAt buf o + 1 ≤ pathAt buf o := Nat.le_add_right _ _

theorem le_nameEnd (buf : List UInt8) (o : ℕ) : pathAt buf o + 2 ≤ nameEnd buf o := Nat.le_add_right _ _

/-- The bytes that were passed over between two places. -/
theorem rem_sub (buf : List UInt8) {o p : ℕ} (h : o ≤ p) (hp : p < o + 2 ^ 32) :
    (UInt32.ofNat buf.length - UInt32.ofNat o - (UInt32.ofNat buf.length - UInt32.ofNat p)).toNat = p - o := by
  have hlt : p - o < 2 ^ 32 := by omega
  rw [sub_sub_sub_cancel_left, ← UInt32.ofNat_sub h, UInt32.toNat_ofNat_of_lt' hlt]

/-- **A name whose path's length is inside the buffer is sifted**, wherever its path ends. -/
theorem mesaSiftName_inside (hn : buf.length < 2 ^ 32) (hp : Plain buf o) (h : pathAt buf o + 2 ≤ buf.length) :
    mesaSiftName buf (.at buf (8 * o) none) = .ok (nameOf buf o, .at buf (8 * nameEnd buf o) none) := by
  have h1 := riftAt_le buf o
  have h2 := boqAt_le buf o
  have h3 := boqAt_lt buf o
  have h4 := le_nameEnd buf o
  have hlen : (UInt16.ofNat (field buf (8 * pathAt buf o) 16)).toNat = field buf (8 * pathAt buf o) 16 :=
    UInt16.toNat_ofNat_of_lt' (field_lt buf _ 16)
  have hend := nameEnd_le buf o
  have hstr := rem_sub buf (o := o) (p := nameEnd buf o) (by omega) (by omega)
  rw [mesaSiftName_head hn (by omega), run_bind (nameShip_inside hn (by omega)),
    run_bind (nameRift_inside hn (by omega)), run_bind (siftByte_inside hn (by omega)),
    run_bind (nameFra_inside hn hp (by omega)), run_bind (siftShort_inside hn h),
    run_bind (siftPath_at _ _ _), hlen,
    run_bind (a := .at buf (8 * nameEnd buf o) none) (t := .at buf (8 * nameEnd buf o) none) rfl,
    Sifter.at_byte, Sifter.at_byte]
  show Except.ok _ = _
  simp only [hstr]
  rfl

/-- A name whose path's length is not inside, or whose flags do not fit, fails. -/
theorem mesaSiftName_outside (hn : buf.length < 2 ^ 32) (ho : o ≤ buf.length)
    (h : ¬ (Plain buf o ∧ pathAt buf o + 2 ≤ buf.length)) :
    ∃ x, mesaSiftName buf (.at buf (8 * o) none) = .error x := by
  rw [mesaSiftName_head hn ho]
  rcases Nat.lt_or_ge buf.length (riftAt buf o) with h1 | h1
  · exact ⟨_, run_bind_error (nameShip_outside h1)⟩
  rw [run_bind (nameShip_inside hn h1)]
  rcases Nat.lt_or_ge buf.length (boqAt buf o) with h2 | h2
  · exact ⟨_, run_bind_error (nameRift_outside h2)⟩
  rw [run_bind (nameRift_inside hn h2)]
  rcases Nat.lt_or_ge buf.length (boqAt buf o + 1) with h3 | h3
  · exact ⟨_, run_bind_error (siftWith_outside Nat.zero_lt_one h3)⟩
  rw [run_bind (siftByte_inside hn h3)]
  by_cases hp : Plain buf o
  swap
  · exact ⟨_, run_bind_error (nameFra_assertion hp _)⟩
  rcases Nat.lt_or_ge buf.length (pathAt buf o) with h4 | h4
  · exact ⟨_, run_bind_error (nameFra_outside h3 h4)⟩
  rw [run_bind (nameFra_inside hn hp h4)]
  exact ⟨_, run_bind_error (siftWith_outside (by decide) (Nat.not_le.mp fun h5 => h ⟨hp, h5⟩))⟩

/-- After an error a name is a byte. -/
theorem mesaSiftName_failed (hn : buf.length < 2 ^ 32) (ho : o ≤ buf.length) (hp : Plain buf o) (msg : String) :
    ∃ nam, mesaSiftName buf (.at buf (8 * o) (some msg)) = .ok (nam, .at buf (8 * (o + 1)) (some msg)) := by
  rw [mesaSiftName_head hn ho, run_bind ((siftShip_eq (two_shiftLeft_le buf _)).trans (siftWith_failed msg)),
    run_bind ((siftVarWord_eq (field_lt buf _ 2)).trans (siftWith_failed msg)),
    run_bind (show siftByte buf (.at buf (8 * (o + 1)) (some msg)) = _ from siftWith_failed msg),
    run_bind (nameFra_failed hp _ msg),
    run_bind (show siftShort buf (.at buf (8 * (o + 1)) (some msg)) = _ from siftWith_failed msg),
    run_bind (siftPath_at _ _ _)]
  exact ⟨_, rfl⟩

/-- That byte is checked all the same. -/
theorem mesaSiftName_assertion (hn : buf.length < 2 ^ 32) (ho : o ≤ buf.length) (hp : ¬ Plain buf o) (msg : String) :
    mesaSiftName buf (.at buf (8 * o) (some msg)) = .error .assertion := by
  rw [mesaSiftName_head hn ho, run_bind ((siftShip_eq (two_shiftLeft_le buf _)).trans (siftWith_failed msg)),
    run_bind ((siftVarWord_eq (field_lt buf _ 2)).trans (siftWith_failed msg)),
    run_bind (show siftByte buf (.at buf (8 * (o + 1)) (some msg)) = _ from siftWith_failed msg)]
  exact run_bind_error (nameFra_assertion hp _)

/-- Past the end a byte outside the buffer is read at once. -/
theorem mesaSiftName_lost (hn : buf.length < 2 ^ 32) (h : buf.length < o) (ho : o < buf.length + 2 ^ 31) :
    mesaSiftName buf (.at buf (8 * o) e) = .error .read := by
  unfold mesaSiftName
  rw [run_bind (a := .at buf (8 * o) e) (t := .at buf (8 * o) e) rfl]
  exact run_bind_error (siftBits_outside hn (by decide) (by omega) (by omega) (by omega))

/-! ### Data -/

/-- The bytes that an authentication takes. -/
def authLen (aut auv : ℕ) : ℕ := if aut = 0 then if auv = 0 then 64 else 16 else if auv = 0 then 0 else 64

/-- Where the authentication of the data at `o` stands. -/
def authAt (buf : List UInt8) (o : ℕ) : ℕ := o + 1 + 1 <<< field buf (8 * o) 2

/-- Where it ends. -/
def authEnd (buf : List UInt8) (o : ℕ) : ℕ :=
  authAt buf o + authLen (field buf (8 * o + 2) 1) (field buf (8 * o + 3) 1)

/-- The length of the fragment's length. -/
def nelOf (buf : List UInt8) (o : ℕ) : ℕ :=
  if field buf (8 * o + 6) 2 = 3 then field buf (8 * authEnd buf o) 8 else field buf (8 * o + 6) 2

/-- Where the fragment's length stands. -/
def lenAt (buf : List UInt8) (o : ℕ) : ℕ := authEnd buf o + if field buf (8 * o + 6) 2 = 3 then 1 else 0

/-- Where the fragment stands. -/
def fragAt (buf : List UInt8) (o : ℕ) : ℕ := lenAt buf o + nelOf buf o

/-- The fragment's length. -/
def fragLen (buf : List UInt8) (o : ℕ) : ℕ := field buf (8 * lenAt buf o) (8 * nelOf buf o)

/-- All of the data at `o` but the fragment is inside the buffer, and the fragment's length is a word. -/
def DataFits (buf : List UInt8) (o : ℕ) : Prop := nelOf buf o ≤ 4 ∧ fragAt buf o ≤ buf.length

instance : Decidable (DataFits buf o) := inferInstanceAs (Decidable (_ ∧ _))

theorem length_zeros : (List.replicate len (0 : UInt8)).length = len := List.length_replicate

/-- Some bytes of the buffer. -/
def bytesAt (buf : List UInt8) (p len : ℕ) : Bytes len :=
  if h : p + len ≤ buf.length then ⟨(buf.drop p).take len, length_slice h⟩
  else ⟨List.replicate len 0, length_zeros⟩

/-- The authentication that stands at `p`. -/
def authOf (buf : List UInt8) (p aut auv : ℕ) : Auth :=
  if aut = 0 then if auv = 0 then .sign (bytesAt buf p 64) else .hmac (bytesAt buf p 16)
  else if auv = 0 then .none else .pair (bytesAt buf p 32) (bytesAt buf (p + 32) 32)

/-- The data that stands at `o`. -/
def dataOf (buf : List UInt8) (o : ℕ) : Data Slice where
  tob := UInt64.ofNat (field buf (8 * (o + 1)) (8 * 1 <<< field buf (8 * o) 2))
  aut := authOf buf (authAt buf o) (field buf (8 * o + 2) 1) (field buf (8 * o + 3) 1)
  fra := ⟨some (fragAt buf o), fragLen buf o⟩

theorem siftBytes_inside (hn : buf.length < 2 ^ 32) (h : p + len ≤ buf.length) :
    siftBytes buf len (.at buf (8 * p) none) = .ok (bytesAt buf p len, .at buf (8 * (p + len)) none) := by
  rw [bytesAt, dif_pos h]
  exact siftWith_inside hn h

/-- The rest of `_mesa_sift_data`, behind its head. -/
theorem mesaSiftData_head (hn : buf.length < 2 ^ 32) (h : o ≤ buf.length) :
    mesaSiftData buf (.at buf (8 * o) e) = (do
      let tob ← siftVarChub buf (1 <<< field buf (8 * o) 2)
      let auth ← siftAuth buf (field buf (8 * o + 2) 1) (field buf (8 * o + 3) 1)
      let nel ← siftNel buf (field buf (8 * o + 6) 2)
      let len ← siftVarWord buf nel
      let fra ← siftNext len.toNat
      return ⟨tob, auth, ⟨fra, len.toNat⟩⟩ : Sift (Data Slice)) (.at buf (8 * (o + 1)) e) := by
  have hle (k w : ℕ) (hk : k + w ≤ 8 * o + 8) : k + w ≤ 8 * (buf.length + 1) := by omega
  unfold mesaSiftData
  rw [run_bind (siftBits_at hn (by decide) (hle (8 * o) 2 (by omega))),
    run_bind (siftBits_at hn (by decide) (hle (8 * o + 2) 1 (by omega))),
    run_bind (siftBits_at hn (by decide) (hle (8 * o + 3) 1 (by omega))),
    run_bind (siftBits_at hn (by decide) (hle (8 * o + 4) 2 (by omega))),
    run_bind (siftBits_at hn (by decide) (hle (8 * o + 6) 2 (by omega)))]
  rfl

/-! The parts of the data, one after the other. -/

theorem siftAuth_inside {aut auv : ℕ} (hn : buf.length < 2 ^ 32) (h : p + authLen aut auv ≤ buf.length) :
    siftAuth buf aut auv (.at buf (8 * p) none) =
      .ok (authOf buf p aut auv, .at buf (8 * (p + authLen aut auv)) none) := by
  unfold siftAuth authOf
  unfold authLen at h ⊢
  by_cases haut : aut = 0
  · rw [if_pos haut] at h
    rw [if_pos haut, if_pos haut, if_pos haut]
    by_cases hauv : auv = 0
    · rw [if_pos hauv] at h
      rw [if_pos hauv, if_pos hauv, if_pos hauv, run_bind (siftBytes_inside hn h)]
      rfl
    · rw [if_neg hauv] at h
      rw [if_neg hauv, if_neg hauv, if_neg hauv, run_bind (siftBytes_inside hn h)]
      rfl
  · rw [if_neg haut] at h
    rw [if_neg haut, if_neg haut, if_neg haut]
    by_cases hauv : auv = 0
    · rw [if_pos hauv, if_pos hauv, if_pos hauv]
      rfl
    · rw [if_neg hauv] at h
      rw [if_neg hauv, if_neg hauv, if_neg hauv, run_bind (siftBytes_inside hn (by omega)),
        run_bind (siftBytes_inside hn (by omega))]
      rfl

theorem siftAuth_outside {aut auv : ℕ} (hn : buf.length < 2 ^ 32) (hp : p ≤ buf.length)
    (h : buf.length < p + authLen aut auv) :
    siftAuth buf aut auv (.at buf (8 * p) none) = .error .read := by
  unfold siftAuth
  unfold authLen at h
  by_cases haut : aut = 0
  · rw [if_pos haut] at h
    rw [if_pos haut]
    by_cases hauv : auv = 0
    · rw [if_pos hauv] at h
      rw [if_pos hauv]
      exact run_bind_error (siftWith_outside (by decide) h)
    · rw [if_neg hauv] at h
      rw [if_neg hauv]
      exact run_bind_error (siftWith_outside (by decide) h)
  · rw [if_neg haut] at h
    rw [if_neg haut]
    by_cases hauv : auv = 0
    · rw [if_pos hauv] at h
      omega
    · rw [if_neg hauv] at h
      rw [if_neg hauv]
      rcases Nat.lt_or_ge buf.length (p + 32) with h1 | h1
      · exact run_bind_error (siftWith_outside (by decide) h1)
      · rw [run_bind (siftBytes_inside hn h1)]
        exact run_bind_error (siftWith_outside (by decide) (by omega))

theorem siftAuth_failed (aut auv : ℕ) (msg : String) :
    ∃ auth, siftAuth buf aut auv (.at buf (8 * p) (some msg)) = .ok (auth, .at buf (8 * p) (some msg)) := by
  have hbytes (len : ℕ) : siftBytes buf len (.at buf (8 * p) (some msg)) = _ := siftWith_failed msg
  unfold siftAuth
  by_cases haut : aut = 0
  · rw [if_pos haut]
    by_cases hauv : auv = 0
    · rw [if_pos hauv, run_bind (hbytes 64)]
      exact ⟨_, rfl⟩
    · rw [if_neg hauv, run_bind (hbytes 16)]
      exact ⟨_, rfl⟩
  · rw [if_neg haut]
    by_cases hauv : auv = 0
    · rw [if_pos hauv]
      exact ⟨_, rfl⟩
    · rw [if_neg hauv, run_bind (hbytes 32), run_bind (hbytes 32)]
      exact ⟨_, rfl⟩

theorem siftNel_inside (hn : buf.length < 2 ^ 32) (h : lenAt buf o ≤ buf.length) :
    siftNel buf (field buf (8 * o + 6) 2) (.at buf (8 * authEnd buf o) none) =
      .ok (nelOf buf o, .at buf (8 * lenAt buf o) none) := by
  unfold siftNel nelOf
  unfold lenAt at h ⊢
  by_cases h3 : field buf (8 * o + 6) 2 = 3
  · rw [if_pos h3] at h
    have hbyte : (UInt8.ofNat (field buf (8 * authEnd buf o) 8)).toNat = field buf (8 * authEnd buf o) 8 :=
      UInt8.toNat_ofNat_of_lt' (field_lt buf _ 8)
    rw [if_pos h3, if_pos h3, if_pos h3]
    refine (run_bind (siftByte_inside hn h)).trans ?_
    exact congrArg (fun v => Except.ok (v, _)) hbyte
  · rw [if_neg h3, if_neg h3, if_neg h3]
    rfl

theorem siftNel_outside (hp : authEnd buf o ≤ buf.length) (h : buf.length < lenAt buf o) :
    siftNel buf (field buf (8 * o + 6) 2) (.at buf (8 * authEnd buf o) none) = .error .read := by
  unfold siftNel
  unfold lenAt at h
  by_cases h3 : field buf (8 * o + 6) 2 = 3
  · rw [if_pos h3] at h
    rw [if_pos h3]
    exact run_bind_error (siftWith_outside (by decide) h)
  · rw [if_neg h3] at h
    omega

theorem siftNel_failed (men : ℕ) (hm : men < 4) (msg : String) :
    ∃ nel ≤ 4, siftNel buf men (.at buf (8 * p) (some msg)) = .ok (nel, .at buf (8 * p) (some msg)) := by
  unfold siftNel
  by_cases h3 : men = 3
  · rw [if_pos h3]
    exact ⟨0, Nat.zero_le _, run_bind (siftWith_failed msg)⟩
  · rw [if_neg h3]
    exact ⟨men, hm.le, rfl⟩

theorem authAt_le (buf : List UInt8) (o : ℕ) : o + 1 ≤ authAt buf o := Nat.le_add_right _ _

theorem authEnd_le (buf : List UInt8) (o : ℕ) : authAt buf o ≤ authEnd buf o := Nat.le_add_right _ _

theorem lenAt_le (buf : List UInt8) (o : ℕ) : authEnd buf o ≤ lenAt buf o := Nat.le_add_right _ _

theorem fragAt_le (buf : List UInt8) (o : ℕ) : lenAt buf o ≤ fragAt buf o := Nat.le_add_right _ _

/-- **Data that is inside the buffer up to its fragment is sifted**, wherever the fragment ends; an
error is noted when that is outside. -/
theorem mesaSiftData_inside (hn : buf.length < 2 ^ 32) (h : DataFits buf o) :
    ∃ e, mesaSiftData buf (.at buf (8 * o) none) =
      .ok (dataOf buf o, .at buf (8 * (fragAt buf o + fragLen buf o)) e) ∧
        (e = none ↔ fragAt buf o + fragLen buf o ≤ buf.length) := by
  obtain ⟨hnel, hfrag⟩ := h
  have h1 := authAt_le buf o
  have h2 := authEnd_le buf o
  have h3 := lenAt_le buf o
  have h4 := fragAt_le buf o
  have hlen : (UInt32.ofNat (fragLen buf o)).toNat = fragLen buf o :=
    UInt32.toNat_ofNat_of_lt' (Nat.lt_of_lt_of_le (field_lt buf _ _)
      (Nat.pow_le_pow_right (by decide) (show 8 * nelOf buf o ≤ 32 by omega)))
  have htob : siftVarChub buf (1 <<< field buf (8 * o) 2) (.at buf (8 * (o + 1)) none) =
      .ok ((dataOf buf o).tob, .at buf (8 * authAt buf o) none) :=
    siftVarChub_inside hn (one_shiftLeft_le buf _) (show authAt buf o ≤ buf.length by omega)
  have hauth : siftAuth buf (field buf (8 * o + 2) 1) (field buf (8 * o + 3) 1) (.at buf (8 * authAt buf o) none) =
      .ok ((dataOf buf o).aut, .at buf (8 * authEnd buf o) none) :=
    siftAuth_inside hn (show authEnd buf o ≤ buf.length by omega)
  have hword : siftVarWord buf (nelOf buf o) (.at buf (8 * lenAt buf o) none) =
      .ok (UInt32.ofNat (fragLen buf o), .at buf (8 * fragAt buf o) none) :=
    siftVarWord_inside hn hnel hfrag
  obtain ⟨e, hnext, he⟩ := @siftNext_at buf (fragAt buf o) (fragLen buf o)
  rw [rem_toNat hn hfrag] at he
  refine ⟨e, ?_, he.trans ⟨fun h => by omega, fun h => by omega⟩⟩
  rw [mesaSiftData_head hn (by omega), run_bind htob, run_bind hauth, run_bind (siftNel_inside hn (by omega)),
    run_bind hword, hlen, run_bind hnext]
  rfl

/-- Other data fails. -/
theorem mesaSiftData_outside (hn : buf.length < 2 ^ 32) (ho : o ≤ buf.length) (h : ¬ DataFits buf o) :
    ∃ x, mesaSiftData buf (.at buf (8 * o) none) = .error x := by
  rw [mesaSiftData_head hn ho]
  rcases Nat.lt_or_ge buf.length (authAt buf o) with h1 | h1
  · exact ⟨_, run_bind_error ((siftVarChub_eq (one_shiftLeft_le buf _)).trans
      (siftWith_outside (one_shiftLeft_pos _) h1))⟩
  have htob : siftVarChub buf (1 <<< field buf (8 * o) 2) (.at buf (8 * (o + 1)) none) =
      .ok ((dataOf buf o).tob, .at buf (8 * authAt buf o) none) :=
    siftVarChub_inside hn (one_shiftLeft_le buf _) h1
  rw [run_bind htob]
  rcases Nat.lt_or_ge buf.length (authEnd buf o) with h2 | h2
  · exact ⟨_, run_bind_error (siftAuth_outside hn h1 h2)⟩
  have hauth : siftAuth buf (field buf (8 * o + 2) 1) (field buf (8 * o + 3) 1) (.at buf (8 * authAt buf o) none) =
      .ok ((dataOf buf o).aut, .at buf (8 * authEnd buf o) none) := siftAuth_inside hn h2
  rw [run_bind hauth]
  rcases Nat.lt_or_ge buf.length (lenAt buf o) with h3 | h3
  · exact ⟨_, run_bind_error (siftNel_outside h2 h3)⟩
  rw [run_bind (siftNel_inside hn h3)]
  by_cases hnel : nelOf buf o ≤ 4
  · have h4 : buf.length < lenAt buf o + nelOf buf o := Nat.not_le.mp fun h4 => h ⟨hnel, h4⟩
    exact ⟨_, run_bind_error ((siftVarWord_eq hnel).trans (siftWith_outside (by omega) h4))⟩
  · exact ⟨_, run_bind_error (run_bind_error (check_false hnel))⟩

/-- After an error data is a byte. -/
theorem mesaSiftData_failed (hn : buf.length < 2 ^ 32) (ho : o ≤ buf.length) (msg : String) :
    ∃ dat, mesaSiftData buf (.at buf (8 * o) (some msg)) = .ok (dat, .at buf (8 * (o + 1)) (some msg)) := by
  obtain ⟨auth, hauth⟩ := @siftAuth_failed buf (o + 1) (field buf (8 * o + 2) 1)
    (field buf (8 * o + 3) 1) msg
  obtain ⟨nel, hle, hnel⟩ := @siftNel_failed buf (o + 1) (field buf (8 * o + 6) 2)
    (field_lt buf _ 2) msg
  rw [mesaSiftData_head hn ho, run_bind ((siftVarChub_eq (one_shiftLeft_le buf _)).trans (siftWith_failed msg)),
    run_bind hauth, run_bind hnel, run_bind ((siftVarWord_eq hle).trans (siftWith_failed msg)),
    run_bind (siftNext_failed msg)]
  exact ⟨_, rfl⟩

/-- Past the end a byte outside the buffer is read at once. -/
theorem mesaSiftData_lost (hn : buf.length < 2 ^ 32) (h : buf.length < o) (ho : o < buf.length + 2 ^ 31) :
    mesaSiftData buf (.at buf (8 * o) e) = .error .read := by
  unfold mesaSiftData
  exact run_bind_error (siftBits_outside hn (by decide) (by omega) (by omega) (by omega))

/-! ### Where a packet's parts may end -/

/-- The slice lies in a buffer of `n` bytes. -/
def Slice.Inside (n : ℕ) (s : Slice) : Prop := ∃ p, s.start = some p ∧ p + s.len ≤ n

def Name.Inside (n : ℕ) (nam : Name Slice) : Prop := nam.pat.Inside n ∧ nam.str.Inside n

def Data.Inside (n : ℕ) (dat : Data Slice) : Prop := dat.fra.Inside n

/-- All slices of a packet lie in the buffer. -/
def Body.Inside (n : ℕ) : Body Slice → Prop
  | resv => True
  | page nam dat _ => nam.Inside n ∧ dat.Inside n
  | peek nam => nam.Inside n
  | poke nam pay dat => nam.Inside n ∧ pay.Inside n ∧ dat.Inside n

/-- **What sifting any bytes should come to**: no byte outside the buffer is read and no assertion
fails, and there is an error or a packet that lies in the buffer. -/
def Safe (buf : List UInt8) : Prop :=
  ∃ p e, mesaSiftPactFromBuf buf = .ok (p, e) ∧ (e = none → p.body.Inside buf.length)

/-- The name at `o` ends inside the buffer. -/
def NameFits (buf : List UInt8) (o : ℕ) : Prop := Plain buf o ∧ nameEnd buf o ≤ buf.length

/-- The fragment of the data at `o` and some bytes more are inside the buffer; or it ends outside,
and so many bytes on that a word which counts them is small again. -/
def FragFits (buf : List UInt8) (o more : ℕ) : Prop :=
  fragAt buf o + fragLen buf o + more ≤ buf.length ∨
    buf.length < fragAt buf o + fragLen buf o ∧
      8 + (fragAt buf o + fragLen buf o - 8) % 2 ^ 32 ≤ buf.length

/-- The bytes of the hops that are read. -/
def hopLen (nex : HopType) : ℕ := if nex = .short then 6 else 0

/-- The parts of a packet behind a good head, each where the one before ends. -/
def BodyFits (buf : List UInt8) (nex : HopType) : Ptag → Prop
  | .resv => True
  | .peek => NameFits buf 8
  | .page => NameFits buf 8 ∧ DataFits buf (nameEnd buf 8) ∧
      FragFits buf (nameEnd buf 8) (hopLen nex)
  | .poke => NameFits buf 8 ∧ NameFits buf (nameEnd buf 8) ∧ DataFits buf (nameEnd buf (nameEnd buf 8)) ∧
      FragFits buf (nameEnd buf (nameEnd buf 8)) 0

/-- What is taken of a packet behind a bad head: the head of each part. -/
def HeadsFit (buf : List UInt8) (o : ℕ) : Ptag → Prop
  | .resv => True
  | .peek => o + 1 ≤ buf.length ∧ Plain buf o
  | .page => o + 2 ≤ buf.length ∧ Plain buf o
  | .poke => o + 3 ≤ buf.length ∧ Plain buf o ∧ Plain buf (o + 1)

/-- **The head is there, and every part that it announces ends where it may.** A head of another
protocol is left after four bytes. -/
def Fits (buf : List UInt8) : Prop :=
  if field buf 4 3 = 1 then
    8 ≤ buf.length ∧
      if UInt32.ofNat (field buf 32 32) = mesaCookie then BodyFits buf (headOf buf).1.nex (headOf buf).2
      else HeadsFit buf 8 (headOf buf).2
  else 3 ≤ buf.length ∧ HeadsFit buf 4 (headOf buf).2

/-! ### The body -/

variable {b q : ℕ}

/-- The body is sifted, and the bytes passed over since its begin are inside the buffer. -/
def Lands (buf : List UInt8) (b : ℕ) (r : Except Fault (Body Slice × Sifter)) : Prop :=
  ∃ body q e, r = .ok (body, .at buf (8 * q) e) ∧ (e = none → body.Inside buf.length) ∧ b ≤ q ∧
    (b + (q - b) % 2 ^ 32 ≤ buf.length ∨ (q - b) % 2 ^ 32 = 0)

/-- Sifting the body fails, or bytes outside the buffer were passed over. -/
def Strays (buf : List UInt8) (b : ℕ) (r : Except Fault (Body Slice × Sifter)) : Prop :=
  (∃ x, r = .error x) ∨ ∃ body q e, r = .ok (body, .at buf (8 * q) e) ∧ b ≤ q ∧
    buf.length < b + (q - b) % 2 ^ 32 ∧ (q - b) % 2 ^ 32 ≠ 0

theorem Strays.error {r : Except Fault (Body Slice × Sifter)} {x : Fault} (h : r = .error x) : Strays buf b r :=
  .inl ⟨x, h⟩

theorem nameOf_inside (h : nameEnd buf o ≤ buf.length) : (nameOf buf o).Inside buf.length := by
  have h1 := riftAt_le buf o
  have h2 := boqAt_le buf o
  have h3 := boqAt_lt buf o
  have h4 := le_nameEnd buf o
  exact ⟨⟨_, rfl, h⟩, ⟨_, rfl, show o + (nameEnd buf o - o) ≤ buf.length by omega⟩⟩

theorem siftHops_failed (nex : HopType) (msg : String) :
    ∃ hop, siftHops buf nex (.at buf (8 * o) (some msg)) = .ok (hop, .at buf (8 * o) (some msg)) := by
  cases nex with
  | none | long | many => exact ⟨_, rfl⟩
  | short => exact ⟨_, run_bind (siftWith_failed msg)⟩

/-- A name where there is no room for it. -/
theorem name_strays (hn : buf.length < 2 ^ 32) (ho : o ≤ buf.length) (h : ¬ NameFits buf o) :
    (∃ x, mesaSiftName buf (.at buf (8 * o) none) = .error x) ∨
      mesaSiftName buf (.at buf (8 * o) none) = .ok (nameOf buf o, .at buf (8 * nameEnd buf o) none) ∧
        buf.length < nameEnd buf o ∧ nameEnd buf o < buf.length + 2 ^ 31 := by
  by_cases hp : Plain buf o ∧ pathAt buf o + 2 ≤ buf.length
  · have hend := nameEnd_le buf o
    have hlt : buf.length < nameEnd buf o := Nat.not_le.mp fun hle => h ⟨hp.1, hle⟩
    exact .inr ⟨mesaSiftName_inside hn hp.1 hp.2, hlt, by omega⟩
  · exact .inl (mesaSiftName_outside hn ho hp)

theorem name_lands (hn : buf.length < 2 ^ 32) (h : NameFits buf o) :
    mesaSiftName buf (.at buf (8 * o) none) = .ok (nameOf buf o, .at buf (8 * nameEnd buf o) none) :=
  mesaSiftName_inside hn h.1 ((le_nameEnd buf o).trans h.2)

theorem lt_nameEnd (buf : List UInt8) (o : ℕ) : o < nameEnd buf o := by
  have h1 := riftAt_le buf o
  have h2 := boqAt_le buf o
  have h3 := boqAt_lt buf o
  have h4 := le_nameEnd buf o
  omega

theorem lt_fragAt (buf : List UInt8) (o : ℕ) : o < fragAt buf o := by
  have h1 := authAt_le buf o
  have h2 := authEnd_le buf o
  have h3 := lenAt_le buf o
  have h4 := fragAt_le buf o
  omega

theorem failedName_error (hn : buf.length < 2 ^ 32) (ho : o < buf.length + 2 ^ 31)
    (h : ¬ (o ≤ buf.length ∧ Plain buf o)) (msg : String) :
    ∃ x, mesaSiftName buf (.at buf (8 * o) (some msg)) = .error x := by
  rcases Nat.lt_or_ge buf.length o with hout | hin
  · exact ⟨_, mesaSiftName_lost hn hout ho⟩
  · exact ⟨_, mesaSiftName_assertion hn hin (fun hp => h ⟨hin, hp⟩) msg⟩

/-- What was passed over after `j` bytes of heads. -/
theorem Lands.heads {r : Except Fault (Body Slice × Sifter)} {body : Body Slice} {msg : String} {j : ℕ}
    (hj : j < 4) (hr : r = .ok (body, .at buf (8 * (b + j)) (some msg))) (h : b + j ≤ buf.length) : Lands buf b r :=
  ⟨body, b + j, some msg, hr, fun he => absurd he (Option.some_ne_none _), Nat.le_add_right _ _, .inl (by omega)⟩

theorem Strays.heads {r : Except Fault (Body Slice × Sifter)} {body : Body Slice} {msg : String} {j : ℕ}
    (hj : j < 4) (hj0 : j ≠ 0) (hr : r = .ok (body, .at buf (8 * (b + j)) (some msg))) (h : buf.length < b + j) :
    Strays buf b r :=
  .inr ⟨body, b + j, some msg, hr, Nat.le_add_right _ _, by omega, by omega⟩

/-- **After an error the heads of the parts are taken.** -/
theorem body_failed (hn : buf.length < 2 ^ 32) (hb : b ≤ buf.length + 1) (nex : HopType) (typ : Ptag) (msg : String) :
    (HeadsFit buf b typ → Lands buf b (mesaSiftBody buf nex typ (.at buf (8 * b) (some msg)))) ∧
      (¬ HeadsFit buf b typ → Strays buf b (mesaSiftBody buf nex typ (.at buf (8 * b) (some msg)))) := by
  by_cases hname : b ≤ buf.length ∧ Plain buf b
  swap
  · obtain ⟨x, hx⟩ := failedName_error hn (by omega) hname msg
    cases typ with
    | resv =>
      exact ⟨fun _ => ⟨.resv, b, some msg, rfl, fun he => absurd he (Option.some_ne_none _), le_refl _,
        .inr (by rw [Nat.sub_self]; rfl)⟩, fun h => absurd trivial h⟩
    | peek =>
      exact ⟨fun h => absurd ⟨by have := h.1; omega, h.2⟩ hname, fun _ => .error (run_bind_error hx)⟩
    | page =>
      exact ⟨fun h => absurd ⟨by have := h.1; omega, h.2⟩ hname, fun _ => .error (run_bind_error hx)⟩
    | poke =>
      exact ⟨fun h => absurd ⟨by have := h.1; omega, h.2.1⟩ hname, fun _ => .error (run_bind_error hx)⟩
  obtain ⟨nam, hnam⟩ := mesaSiftName_failed hn hname.1 hname.2 msg
  cases typ with
  | resv =>
    exact ⟨fun _ => ⟨.resv, b, some msg, rfl, fun he => absurd he (Option.some_ne_none _), le_refl _,
      .inr (by rw [Nat.sub_self]; rfl)⟩, fun h => absurd trivial h⟩
  | peek =>
    have hpeek : mesaSiftBody buf nex .peek (.at buf (8 * b) (some msg)) =
        .ok (.peek nam, .at buf (8 * (b + 1)) (some msg)) := run_bind hnam
    exact ⟨fun h => .heads (by decide) hpeek h.1, fun h => .heads (by decide) (by decide) hpeek
      (Nat.not_le.mp fun hle => h ⟨hle, hname.2⟩)⟩
  | page =>
    show (_ → Lands buf b (mesaSiftPagePact buf nex _)) ∧ (_ → Strays buf b (mesaSiftPagePact buf nex _))
    unfold mesaSiftPagePact
    rw [run_bind hnam]
    rcases Nat.lt_or_ge buf.length (b + 1) with hout | hin
    · exact ⟨fun h => absurd h.1 (by omega), fun _ => .error (run_bind_error (mesaSiftData_lost hn hout (by omega)))⟩
    · obtain ⟨dat, hdat⟩ := mesaSiftData_failed hn hin msg
      obtain ⟨hop, hhop⟩ := @siftHops_failed buf (b + 2) nex msg
      rw [run_bind hdat, run_bind hhop]
      exact ⟨fun h => .heads (by decide) rfl h.1, fun h => .heads (by decide) (by decide) rfl
        (Nat.not_le.mp fun hle => h ⟨hle, hname.2⟩)⟩
  | poke =>
    show (_ → Lands buf b (mesaSiftPokePact buf _)) ∧ (_ → Strays buf b (mesaSiftPokePact buf _))
    unfold mesaSiftPokePact
    rw [run_bind hnam]
    by_cases hpay : b + 1 ≤ buf.length ∧ Plain buf (b + 1)
    swap
    · obtain ⟨x, hx⟩ := failedName_error hn (by omega) hpay msg
      exact ⟨fun h => absurd ⟨by have := h.1; omega, h.2.2⟩ hpay, fun _ => .error (run_bind_error hx)⟩
    obtain ⟨pay, hpay'⟩ := mesaSiftName_failed hn hpay.1 hpay.2 msg
    rw [run_bind hpay']
    rcases Nat.lt_or_ge buf.length (b + 2) with hout | hin
    · exact ⟨fun h => absurd h.1 (by omega), fun _ => .error (run_bind_error (mesaSiftData_lost hn hout (by omega)))⟩
    · obtain ⟨dat, hdat⟩ := mesaSiftData_failed (o := b + 2) hn hin msg
      rw [run_bind hdat]
      exact ⟨fun h => .heads (by decide) rfl h.1, fun h => .heads (by decide) (by decide) rfl
        (Nat.not_le.mp fun hle => h ⟨hle, hname.2, hpay.2⟩)⟩

theorem siftHops_inside (hn : buf.length < 2 ^ 32) {nex : HopType} (h : o + hopLen nex ≤ buf.length) :
    ∃ hop e, siftHops buf nex (.at buf (8 * o) none) = .ok (hop, .at buf (8 * (o + hopLen nex)) e) := by
  cases nex with
  | none | long | many => exact ⟨_, _, rfl⟩
  | short => exact ⟨_, _, run_bind (siftBytes_inside hn h)⟩

theorem siftHops_outside {nex : HopType} (ho : o ≤ buf.length) (h : buf.length < o + hopLen nex) :
    siftHops buf nex (.at buf (8 * o) none) = .error .read := by
  cases nex with
  | none | long | many => exact absurd h (Nat.not_lt.mpr ho)
  | short => exact run_bind_error (siftWith_outside (by decide) h)

/-- **Data and hops land where there is room for them.** -/
theorem data_hops (hn : buf.length < 2 ^ 32) (h8 : 8 ≤ buf.length) (ho8 : 8 ≤ o) (ho : o ≤ buf.length)
    (nex : HopType) (g : Data Slice → Hops → Body Slice)
    (hg : ∀ dat hop, dat.Inside buf.length → (g dat hop).Inside buf.length) :
    let r := (do
      let dat ← mesaSiftData buf
      let hop ← siftHops buf nex
      return g dat hop : Sift (Body Slice)) (.at buf (8 * o) none)
    (DataFits buf o ∧ FragFits buf o (hopLen nex) → Lands buf 8 r) ∧
      (¬ (DataFits buf o ∧ FragFits buf o (hopLen nex)) → Strays buf 8 r) := by
  intro r
  by_cases hd : DataFits buf o
  swap
  · obtain ⟨x, hx⟩ := mesaSiftData_outside hn ho hd
    exact ⟨fun h => absurd h.1 hd, fun _ => .error (run_bind_error hx)⟩
  obtain ⟨e, hr, he⟩ := mesaSiftData_inside hn hd
  have hlt := lt_fragAt buf o
  have hdat (h : fragAt buf o + fragLen buf o ≤ buf.length) : (dataOf buf o).Inside buf.length := ⟨_, rfl, h⟩
  have hrun : r = (do
      let hop ← siftHops buf nex
      return g (dataOf buf o) hop : Sift (Body Slice)) (.at buf (8 * (fragAt buf o + fragLen buf o)) e) :=
    run_bind hr
  rw [hrun]
  unfold FragFits
  rcases Nat.lt_or_ge buf.length (fragAt buf o + fragLen buf o) with hout | hin
  · cases e with
    | none => exact absurd (he.mp rfl) (Nat.not_le.mpr hout)
    | some msg =>
      obtain ⟨hop, hhop⟩ := @siftHops_failed buf (fragAt buf o + fragLen buf o) nex msg
      rw [run_bind hhop]
      refine ⟨fun h => ⟨_, _, some msg, rfl, fun h0 => absurd h0 (Option.some_ne_none _), by omega, .inl ?_⟩,
        fun h => .inr ⟨_, _, _, rfl, by omega, ?_, ?_⟩⟩
      · rcases h.2 with h1 | h1
        · omega
        · exact h1.2
      · exact Nat.not_le.mp fun hle => h ⟨hd, .inr ⟨hout, hle⟩⟩
      · intro h0
        exact h ⟨hd, .inr ⟨hout, by rw [h0]; exact h8⟩⟩
  · rw [he.mpr hin]
    rcases Nat.lt_or_ge buf.length (fragAt buf o + fragLen buf o + hopLen nex) with hno | hyes
    · refine ⟨fun h => ?_, fun _ => .error (run_bind_error (siftHops_outside hin hno))⟩
      rcases h.2 with h1 | h1
      · omega
      · exact absurd h1.1 (Nat.not_lt.mpr hin)
    · obtain ⟨hop, e', hhop⟩ := siftHops_inside hn hyes
      rw [run_bind hhop]
      exact ⟨fun _ => ⟨_, _, e', rfl, fun _ => hg _ _ (hdat hin), by omega, .inl (by omega)⟩,
        fun h => absurd ⟨hd, .inl hyes⟩ h⟩

/-- **Behind a good head the parts are taken whole.** -/
theorem body_inside (hn : buf.length < 2 ^ 32) (h8 : 8 ≤ buf.length) (nex : HopType) (typ : Ptag) :
    (BodyFits buf nex typ → Lands buf 8 (mesaSiftBody buf nex typ (.at buf (8 * 8) none))) ∧
      (¬ BodyFits buf nex typ → Strays buf 8 (mesaSiftBody buf nex typ (.at buf (8 * 8) none))) := by
  have hlt := lt_nameEnd buf 8
  have hend := nameEnd_le buf 8
  cases typ with
  | resv =>
    exact ⟨fun _ => ⟨.resv, 8, none, rfl, fun _ => trivial, le_refl _, .inl h8⟩, fun h => absurd trivial h⟩
  | peek =>
    refine ⟨fun h => ⟨_, _, _, run_bind (name_lands hn h), fun _ => nameOf_inside h.2, by omega, .inl ?_⟩,
      fun h => ?_⟩
    · have := h.2
      omega
    · rcases name_strays hn h8 h with ⟨x, hx⟩ | ⟨hr, hout, -⟩
      · exact .error (run_bind_error hx)
      · exact .inr ⟨_, _, _, run_bind hr, by omega, by omega, by omega⟩
  | page =>
    show (_ → Lands buf 8 (mesaSiftPagePact buf nex _)) ∧ (_ → Strays buf 8 (mesaSiftPagePact buf nex _))
    unfold mesaSiftPagePact
    by_cases hname : NameFits buf 8
    swap
    · refine ⟨fun h => absurd h.1 hname, fun _ => ?_⟩
      rcases name_strays hn h8 hname with ⟨x, hx⟩ | ⟨hr, hout, hfar⟩
      · exact .error (run_bind_error hx)
      · rw [run_bind hr]
        exact .error (run_bind_error (mesaSiftData_lost hn hout hfar))
    have hnext := data_hops hn h8 hlt.le hname.2 nex (fun dat hop => .page (nameOf buf 8) dat hop)
      (fun _ _ hd => ⟨nameOf_inside hname.2, hd⟩)
    rw [run_bind (name_lands hn hname)]
    exact ⟨fun h => hnext.1 h.2, fun h => hnext.2 fun h' => h ⟨hname, h'⟩⟩
  | poke =>
    show (_ → Lands buf 8 (mesaSiftPokePact buf _)) ∧ (_ → Strays buf 8 (mesaSiftPokePact buf _))
    unfold mesaSiftPokePact
    by_cases hname : NameFits buf 8
    swap
    · refine ⟨fun h => absurd h.1 hname, fun _ => ?_⟩
      rcases name_strays hn h8 hname with ⟨x, hx⟩ | ⟨hr, hout, hfar⟩
      · exact .error (run_bind_error hx)
      · rw [run_bind hr]
        exact .error (run_bind_error (mesaSiftName_lost hn hout hfar))
    rw [run_bind (name_lands hn hname)]
    by_cases hpay : NameFits buf (nameEnd buf 8)
    swap
    · refine ⟨fun h => absurd h.2.1 hpay, fun _ => ?_⟩
      rcases name_strays hn hname.2 hpay with ⟨x, hx⟩ | ⟨hr, hout, hfar⟩
      · exact .error (run_bind_error hx)
      · rw [run_bind hr]
        exact .error (run_bind_error (mesaSiftData_lost hn hout hfar))
    have hlt' := lt_nameEnd buf (nameEnd buf 8)
    have hnext := data_hops hn h8 (by omega) hpay.2 .none
      (fun dat _ => .poke (nameOf buf 8) (nameOf buf (nameEnd buf 8)) dat)
      (fun _ _ hd => ⟨nameOf_inside hname.2, nameOf_inside hpay.2, hd⟩)
    rw [run_bind (name_lands hn hpay)]
    exact ⟨fun h => hnext.1 h.2.2, fun h => hnext.2 fun h' => h ⟨hname, hpay, h'⟩⟩

/-! ### The checksum -/

/-- What follows the body: its checksum. -/
def summed (buf : List UInt8) (headed : Sifter) (hed : Head) (body : Body Slice) : Sift (Pact Slice) := do
  let s ← get
  let l ← fetch buf headed.pos (headed.rem - s.rem).toNat
  siftExpect (Noun.mugBytes l.val &&& 0xfffff = hed.mug) "bad mug"
  return ⟨hed, body⟩

/-- The bytes passed over since the head. -/
theorem passed (buf : List UInt8) {e0 e : Option String} (h : b ≤ q) :
    ((Sifter.at buf (8 * b) e0).rem - (Sifter.at buf (8 * q) e).rem).toNat = (q - b) % 2 ^ 32 := by
  rw [Sifter.at_byte, Sifter.at_byte]
  show (UInt32.ofNat buf.length - UInt32.ofNat b - (UInt32.ofNat buf.length - UInt32.ofNat q)).toNat = _
  rw [sub_sub_sub_cancel_left, ← UInt32.ofNat_sub h, UInt32.toNat_ofNat']

/-- A packet that lands is sifted. -/
theorem summed_lands {r : Except Fault (Body Slice × Sifter)} {e0 : Option String} (hed : Head) (h : Lands buf b r) :
    ∃ p s, (r >>= fun x => summed buf (.at buf (8 * b) e0) hed x.1 x.2) = .ok (p, s) ∧
      (s.err = none → p.body.Inside buf.length) := by
  obtain ⟨body, q, e, rfl, hin, hbq, hpass⟩ := h
  have hpos : (Sifter.at buf (8 * b) e0).pos = b := by rw [Sifter.at_byte]
  have hfetch : ∃ l, fetch buf (Sifter.at buf (8 * b) e0).pos
      ((Sifter.at buf (8 * b) e0).rem - (Sifter.at buf (8 * q) e).rem).toNat (.at buf (8 * q) e) =
        .ok (l, .at buf (8 * q) e) := by
    rw [passed buf hbq, hpos]
    rcases hpass with h1 | h1
    · exact ⟨_, fetch_inside h1⟩
    · by_cases hfit : b + (q - b) % 2 ^ 32 ≤ buf.length
      · exact ⟨_, fetch_inside hfit⟩
      · exact ⟨_, (dif_neg hfit).trans (dif_pos h1)⟩
  obtain ⟨l, hl⟩ := hfetch
  show ∃ p s, summed buf _ hed body (.at buf (8 * q) e) = .ok (p, s) ∧ _
  unfold summed
  rw [run_bind (a := .at buf (8 * q) e) (t := .at buf (8 * q) e) rfl, run_bind hl]
  by_cases hmug : Noun.mugBytes l.val &&& 0xfffff = hed.mug
  · rw [run_bind (siftExpect_true hmug _ _)]
    exact ⟨_, _, rfl, hin⟩
  · rw [run_bind (siftExpect_false hmug _ _)]
    refine ⟨_, _, rfl, fun he => ?_⟩
    cases e with
    | none => exact hin rfl
    | some msg => exact absurd he (Option.some_ne_none _)

/-- One that strays is not. -/
theorem summed_strays {r : Except Fault (Body Slice × Sifter)} {e0 : Option String} (hed : Head) (h : Strays buf b r) :
    ∃ x, (r >>= fun x => summed buf (.at buf (8 * b) e0) hed x.1 x.2) = .error x := by
  rcases h with ⟨x, rfl⟩ | ⟨body, q, e, rfl, hbq, hout, hne⟩
  · exact ⟨x, rfl⟩
  · have hpos : (Sifter.at buf (8 * b) e0).pos = b := by rw [Sifter.at_byte]
    refine ⟨.read, ?_⟩
    show summed buf _ hed body (.at buf (8 * q) e) = _
    unfold summed
    rw [run_bind (a := .at buf (8 * q) e) (t := .at buf (8 * q) e) rfl, passed buf hbq, hpos]
    exact run_bind_error (fetch_outside hout (Nat.pos_of_ne_zero hne))

/-- Behind the head. -/
theorem mesaSiftPact_head {e0 : Option String}
    (h : mesaSiftHead buf (.at buf 0 none) = .ok (headOf buf, .at buf (8 * b) e0)) :
    mesaSiftPact buf (.at buf 0 none) =
      (mesaSiftBody buf (headOf buf).1.nex (headOf buf).2 (.at buf (8 * b) e0) >>= fun x =>
        summed buf (.at buf (8 * b) e0) (headOf buf).1 x.1 x.2) := by
  unfold mesaSiftPact
  rw [run_bind h]
  rfl

theorem safe_of_sifted {p : Pact Slice} {s : Sifter} (h : mesaSiftPact buf (.at buf 0 none) = .ok (p, s))
    (hp : s.err = none → p.body.Inside buf.length) : Safe buf := by
  unfold Safe mesaSiftPactFromBuf
  rw [sifterInit_eq, h]
  refine ⟨p, _, rfl, fun he => hp ?_⟩
  by_cases hs : s.rem ≠ 0 ∧ s.err = none
  · exact hs.2
  · rwa [if_neg hs] at he

theorem not_safe_of_error {x : Fault} (h : mesaSiftPact buf (.at buf 0 none) = .error x) : ¬ Safe buf := by
  rintro ⟨p, e, hr, -⟩
  unfold mesaSiftPactFromBuf at hr
  rw [sifterInit_eq, h] at hr
  cases hr

/-- From a head on the parts land, or they stray. -/
theorem outcome_of_head {e0 : Option String} {fits : Prop}
    (hhead : mesaSiftHead buf (.at buf 0 none) = .ok (headOf buf, .at buf (8 * b) e0))
    (hbody : (fits → Lands buf b (mesaSiftBody buf (headOf buf).1.nex (headOf buf).2 (.at buf (8 * b) e0))) ∧
      (¬ fits → Strays buf b (mesaSiftBody buf (headOf buf).1.nex (headOf buf).2 (.at buf (8 * b) e0)))) :
    (fits → Safe buf) ∧ (¬ fits → ∃ x, mesaSiftPact buf (.at buf 0 none) = .error x) := by
  have hrest := mesaSiftPact_head hhead
  constructor
  · intro hq
    obtain ⟨p, s, hr, hp⟩ := summed_lands (headOf buf).1 (hbody.1 hq)
    exact safe_of_sifted (hrest.trans hr) hp
  · intro hq
    obtain ⟨x, hx⟩ := summed_strays (headOf buf).1 (hbody.2 hq)
    exact ⟨x, hrest.trans hx⟩

theorem outcome (hn : buf.length < 2 ^ 32) :
    (Fits buf → Safe buf) ∧ (¬ Fits buf → ∃ x, mesaSiftPact buf (.at buf 0 none) = .error x) := by
  unfold Fits
  by_cases hpro : field buf 4 3 = 1
  · rw [if_pos hpro]
    rcases Nat.lt_or_ge buf.length 8 with h8 | h8
    · exact ⟨fun h => absurd h.1 (Nat.not_le.mpr h8),
        fun _ => ⟨_, run_bind_error (mesaSiftHead_outside h8 (.inr hpro))⟩⟩
    rw [and_iff_right h8]
    have hhead := mesaSiftHead_inside hn h8 hpro
    by_cases hc : UInt32.ofNat (field buf 32 32) = mesaCookie
    · rw [if_pos hc] at hhead ⊢
      exact outcome_of_head hhead (body_inside hn h8 _ _)
    · rw [if_neg hc] at hhead ⊢
      exact outcome_of_head hhead (body_failed (b := 8) hn (by omega) _ _ _)
  · rw [if_neg hpro]
    rcases Nat.lt_or_ge buf.length 3 with h3 | h3
    · exact ⟨fun h => absurd h.1 (Nat.not_le.mpr h3),
        fun _ => ⟨_, run_bind_error (mesaSiftHead_outside (by omega) (.inl h3))⟩⟩
    rw [and_iff_right h3]
    exact outcome_of_head (mesaSiftHead_protocol hn h3 hpro) (body_failed (b := 4) hn (by omega) _ _ _)

/-- **Sifting is safe in just the buffers whose parts end where they may.** -/
theorem safe_iff_fits (hn : buf.length < 2 ^ 32) : Safe buf ↔ Fits buf := by
  constructor
  · intro hs
    by_contra hf
    obtain ⟨x, hx⟩ := (outcome hn).2 hf
    exact not_safe_of_error hx hs
  · exact (outcome hn).1

instance (typ : Ptag) : Decidable (HeadsFit buf o typ) :=
  match typ with
  | .resv => .isTrue trivial
  | .peek => inferInstanceAs (Decidable (_ ∧ _))
  | .page => inferInstanceAs (Decidable (_ ∧ _))
  | .poke => inferInstanceAs (Decidable (_ ∧ _ ∧ _))

instance : Decidable (NameFits buf o) := inferInstanceAs (Decidable (_ ∧ _))

instance (more : ℕ) : Decidable (FragFits buf o more) := inferInstanceAs (Decidable (_ ∨ _ ∧ _))

instance (nex : HopType) (typ : Ptag) : Decidable (BodyFits buf nex typ) :=
  match typ with
  | .resv => .isTrue trivial
  | .peek => inferInstanceAs (Decidable (NameFits buf 8))
  | .page => inferInstanceAs (Decidable (_ ∧ _ ∧ _))
  | .poke => inferInstanceAs (Decidable (_ ∧ _ ∧ _ ∧ _))

instance : Decidable (Fits buf) :=
  inferInstanceAs (Decidable (if field buf 4 3 = 1 then
      8 ≤ buf.length ∧
        if UInt32.ofNat (field buf 32 32) = mesaCookie then BodyFits buf (headOf buf).1.nex (headOf buf).2
        else HeadsFit buf 8 (headOf buf).2
    else 3 ≤ buf.length ∧ HeadsFit buf 4 (headOf buf).2))

/-- A head of a peek and its cookie, and no byte more. -/
def bareHead : List UInt8 := [0x10, 0x01, 0, 0, 0x00, 0x02, 0xe0, 0x67]

/-- The name that this head announces is read behind the end of the buffer. -/
theorem bareHead_not_safe : ¬ ∀ buf : List UInt8, buf.length < 2 ^ 32 → Safe buf := by
  intro h
  obtain ⟨x, hx⟩ := (@outcome bareHead (by decide)).2 (by decide)
  exact not_safe_of_error hx (h bareHead (by decide))

/-- A head of the reserved type, with nothing behind it. -/
theorem safe_iff_fits_resv : ([0x10, 0, 0, 0, 0x00, 0x02, 0xe0, 0x67] : List UInt8).length < 2 ^ 32 ∧
    Safe [0x10, 0, 0, 0, 0x00, 0x02, 0xe0, 0x67] :=
  ⟨by decide, (safe_iff_fits (by decide)).mpr (by decide)⟩

end Mesa
end Ursockets
