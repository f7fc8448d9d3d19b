/-
# Octs agree with byte lists

Each jet on octs gives what the same operation gives on the bytes that they stand for, and makes no atom that ends in
a word of zeros, just when no sum of its has wrapped, no slab that is not trimmed ends in such a word,
the last of the octs put together has not more bytes than its length, and the nouns that are compared are the
numbers they are taken for.

Key theorems: `cat_iff`, `can_iff`, `read_iff`, `chunk_iff`, `extract_iff`, `agrees_iff`.
-/
import Ursockets.Bytestream

namespace Ursockets
namespace Bytestream

open Octets

theorem bind_gives {α β : Type} (x : α) (f : α → Ret β) : (Ret.gives x).bind f = f x := rfl

theorem Ret.Agrees.cases {α β : Type} {R : α → β → Prop} {a : Ret α} {b : Ret β} (h : a.Agrees R b) :
    (a = .exit ∧ b = .exit) ∨ ∃ x y, a = .gives x ∧ b = .gives y ∧ R x y := by
  cases a <;> cases b <;> first | exact .inl ⟨rfl, rfl⟩ | exact .inr ⟨_, _, rfl, rfl, h⟩ | cases h

/-! ### Atoms made of bytes -/

/-- **An atom is as it should be** just when its last word is not zero. -/
theorem canonical_moot (buf : List UInt8) : (u3iSlabMoot buf).Canonical ↔ Full buf := by
  have hlt := num_lt buf
  rw [u3iSlabMoot]
  split
  · rename_i hw
    exact ⟨fun _ => .inl (by omega), fun _ => rfl⟩
  · rename_i hw
    have hle : words (num buf) ≤ (buf.length + 3) / 4 :=
      words_le_iff.mpr (hlt.trans_le (Nat.pow_le_pow_right (by decide) (by omega)))
    have hfull : Full buf ↔ 256 ^ (4 * ((buf.length + 3) / 4 - 1)) ≤ num buf := by
      rw [pow_le_num_iff (by omega), Full]
      exact or_iff_right (by omega)
    rw [hfull, Made.Canonical, ← Nat.not_lt, ← words_le_iff]
    dsimp only
    omega

theorem val_moot (buf : List UInt8) : (u3iSlabMoot buf).val = num buf := by
  rw [u3iSlabMoot]
  split <;> rfl

theorem canonical_of (n : ℕ) : (Made.of n).Canonical := rfl

/-- Octs made of bytes, with zeros up to a length. -/
theorem stands_moot {n : ℕ} {buf bs : List UInt8} (h : buf ++ List.replicate (n - buf.length) 0 = bs)
    (hle : buf.length ≤ n) :
    Stands (n, u3iSlabMoot buf) bs ↔ Full buf := by
  rw [Stands, canonical_moot, val_moot, ofNum_num_pad hle, h]
  exact and_iff_right rfl

theorem Stands.length {x : Piece} {bs : List UInt8} (h : Stands x bs) : x.1 = bs.length := by
  rw [← h.1, length_ofNum]

theorem stands_of {n a : ℕ} {bs : List UInt8} (h : ofNum n a = bs) : Stands (n, .of a) bs := ⟨h, canonical_of a⟩

/-! ### The bytes of octs -/

theorem length_bytes (o : Octs) : o.bytes.length = o.p := length_ofNum _ _

theorem length_held (o : Octs) : o.held.length = min (size o.q) o.p := length_ofNum _ _

theorem held_le (o : Octs) : o.held.length ≤ o.p := (length_held o).trans_le (Nat.min_le_right _ _)

/-- Octs are the bytes of the atom and zeros. -/
theorem bytes_eq (o : Octs) : o.bytes = o.held ++ List.replicate (o.p - o.held.length) 0 := by
  rw [length_held, Octs.bytes, Octs.held]
  rcases Nat.le_total (size o.q) o.p with h | h
  · obtain ⟨m, hm⟩ := Nat.exists_eq_add_of_le h
    rw [Nat.min_eq_left h, hm, ofNum_pad (size_le_iff.mp (Nat.le_refl _)), Nat.add_sub_cancel_left]
  · rw [Nat.min_eq_right h, Nat.sub_self, List.replicate_zero, List.append_nil]

theorem drop_ofNum (n k v : ℕ) : (ofNum n v).drop k = ofNum (n - k) (v / 256 ^ k) := by
  rcases Nat.le_total k n with h | h
  · obtain ⟨m, rfl⟩ := Nat.exists_eq_add_of_le h
    rw [ofNum_add, List.drop_left' (length_ofNum k v), Nat.add_sub_cancel_left]
  · rw [List.drop_eq_nil_of_le ((length_ofNum n v).trans_le h), Nat.sub_eq_zero_of_le h, ofNum]

/-- Past the bytes of the atom there are zeros. -/
theorem zeros_bytes {o : Octs} {pos n : ℕ} (hpos : o.held.length ≤ pos) (h : pos + n ≤ o.p) :
    ofNum n 0 = (o.bytes.drop pos).take n := by
  rw [bytes_eq, List.drop_append, List.drop_eq_nil_of_le hpos, List.nil_append, List.drop_replicate,
    List.take_replicate,
    ofNum_zero]
  congr 1
  omega

theorem take_held (o : Octs) (pos n : ℕ) :
    (o.held.drop pos).take (min n (o.held.length - pos)) = (o.held.drop pos).take n := by
  rw [← List.length_drop, ← List.take_take, List.take_length]

/-- A slice of the bytes of octs is one of the bytes of the atom, and zeros. -/
theorem slice_bytes {o : Octs} {pos n : ℕ} (hpos : pos ≤ o.held.length) (h : pos + n ≤ o.p) :
    (o.held.drop pos).take (min n (o.held.length - pos)) ++ List.replicate (n - min n (o.held.length - pos)) 0 =
      (o.bytes.drop pos).take n := by
  have hdrop : o.bytes.drop pos = o.held.drop pos ++ List.replicate (o.p - o.held.length) 0 := by
    rw [bytes_eq, List.drop_append_of_le_length hpos]
  rw [hdrop, List.take_append, take_held, List.take_replicate, List.length_drop]
  congr 2
  omega

/-- Bytes of an atom are copied from within it. -/
theorem copy_held {o : Octs} {pos n : ℕ} (h : pos + n ≤ o.held.length) :
    copy o.q pos n = .gives ((o.held.drop pos).take n) := by
  have hle := (length_held o).symm.trans_ge h
  have hsize : pos + n ≤ 4 * max 1 (words o.q) := by
    have hw := size_le_words o.q
    have hmin := Nat.min_le_left (size o.q) o.p
    omega
  rw [copy, if_neg (Nat.not_lt_of_le hsize), Octs.held, drop_ofNum, take_ofNum (by omega)]

theorem copy_all (o : Octs) : copy o.q 0 o.held.length = .gives o.held := by
  rw [copy_held (Nat.zero_add _).le, List.drop_zero, List.take_length]

theorem xOctsBuffer_accepted {o : Octs} (h : o.Accepted) :
    xOctsBuffer o = .gives (o.held.length, o.p - o.held.length) := by
  have hmet : u3rMet3 o.q = some (size o.q) := by
    rw [u3rMet3, if_neg]
    have hw := h.2
    omega
  rw [xOctsBuffer, if_neg (Nat.not_le_of_lt h.1), hmet, length_held]
  dsimp only
  split
  · rename_i hlt
    rw [Nat.min_eq_left hlt.le]
  · rename_i hge
    rw [Nat.min_eq_right (Nat.le_of_not_lt hge), Nat.sub_self]

theorem size_eq_zero {v : ℕ} : size v = 0 ↔ v = 0 := by
  rw [← Nat.le_zero, size_le_iff, Nat.pow_zero, Nat.lt_one_iff]

theorem ciSlabSize_fits {n : ℕ} (h : n ≤ 17179869180) : ciSlabSize n = some ((n * 8 + 31) / 32) := by
  have hbit : n * 8 % 18446744073709551616 = n * 8 := Nat.mod_eq_of_lt (by omega)
  have hwor : (n * 8 + 31) % 18446744073709551616 = n * 8 + 31 := Nat.mod_eq_of_lt (by omega)
  rw [ciSlabSize, hbit, hwor, if_neg]
  omega

theorem size_lt_of_accepted {o : Octs} (h : o.Accepted) : size o.q < 4294967296 := by
  have hw := size_le_words o.q
  have hacc := h.2
  omega

/-! ### cat-octs -/

/-- **Two octs put together agree** just when their lengths do not wrap and their bytes do not end
in a word of zeros. -/
theorem cat_iff {a b : Octs} (ha : a.Accepted) (hb : b.Accepted) : (Op.cat a b).Agrees ↔ (Op.cat a b).Meets := by
  have hlena := held_le a
  have hlenb := held_le b
  rw [Op.Agrees, Op.Meets, catOcts, xOctsBuffer_accepted ha, xOctsBuffer_accepted hb]
  dsimp only [Ret.bind]
  by_cases ha0 : a.p = 0
  · have hnil : a.bytes = [] := List.eq_nil_of_length_eq_zero ((length_bytes a).trans ha0)
    rw [if_pos ha0, hnil]
    exact iff_of_true (stands_of rfl) (.inl ha0)
  by_cases hb0 : b.p = 0
  · have hnil : b.bytes = [] := List.eq_nil_of_length_eq_zero ((length_bytes b).trans hb0)
    rw [if_neg ha0, if_pos hb0, hnil, List.append_nil]
    exact iff_of_true (stands_of rfl) (.inr (.inl hb0))
  rw [if_neg ha0, if_neg hb0, or_iff_right ha0, or_iff_right hb0]
  have hzero : (a.held.length = 0 ∧ b.held.length = 0) ↔ (a.q = 0 ∧ b.q = 0) := by
    rw [length_held, length_held, ← @size_eq_zero a.q, ← @size_eq_zero b.q]
    omega
  have hwrap : ∀ {m : Made}, Stands ((a.p + b.p) % 4294967296, m) (a.bytes ++ b.bytes) → a.p + b.p < 4294967296 := by
    intro m h
    have hlen := h.length
    rw [List.length_append, length_bytes, length_bytes] at hlen
    exact hlen ▸ Nat.mod_lt _ (by decide)
  by_cases hq : a.q = 0 ∧ b.q = 0
  · rw [if_pos (hzero.mpr hq)]
    refine ⟨fun h => ⟨hwrap h, .inl hq⟩, fun h => ?_⟩
    rw [Nat.mod_eq_of_lt h.1]
    refine stands_of ?_
    rw [Octs.bytes, Octs.bytes, hq.1, hq.2, ofNum_zero, ofNum_zero, ofNum_zero, List.replicate_append_replicate]
  · have hslab : a.p + b.held.length ≤ 17179869180 := by
      have h1 := ha.1
      have h2 := hb.1
      omega
    rw [if_neg (mt hzero.mp hq), ciSlabSize_fits hslab, copy_all, copy_all]
    dsimp only
    rw [← bytes_eq]
    have hbuf : (a.bytes ++ b.held).length = a.p + b.held.length := by rw [List.length_append, length_bytes]
    have hpad : a.bytes ++ b.held ++ List.replicate (a.p + b.p - (a.bytes ++ b.held).length) 0 = a.bytes ++
      b.bytes := by
      rw [hbuf, Nat.add_sub_add_left, List.append_assoc, ← bytes_eq]
    have hfull := stands_moot hpad (hbuf.trans_le (Nat.add_le_add_left hlenb _))
    refine ⟨fun h => ⟨hwrap h, .inr (hfull.mp ?_)⟩, fun h => ?_⟩
    · rwa [Ret.Agrees, Nat.mod_eq_of_lt (hwrap h)] at h
    · rw [Ret.Agrees, Nat.mod_eq_of_lt h.1]
      exact hfull.mpr (h.2.resolve_left hq)

/-! ### read-octs -/

/-- **Octs read agree** just when the cursor after them does not wrap, or it is past the end even
so, and they do not end in a word of zeros. -/
theorem read_iff {n pos : ℕ} {o : Octs} (hn : n < 4294967296) (hp : pos < 4294967296) (ho : o.Accepted) :
    (Op.read n pos o).Agrees ↔ (Op.read n pos o).Meets := by
  have hlen := held_le o
  have hop := ho.1
  rw [Op.Agrees, Op.Meets, readOcts, if_neg (by omega), readBytes]
  by_cases hn0 : n = 0
  · rw [if_pos hn0, if_pos hn0]
    exact iff_of_true ⟨stands_of rfl, rfl⟩ (.inl hn0)
  rw [if_neg hn0, if_neg hn0, or_iff_right hn0, xOctsBuffer_accepted ho, length_bytes, bind_gives]
  dsimp only
  by_cases htill : o.p < (pos + n) % 4294967296
  · rw [if_pos htill, if_pos (htill.trans_le (Nat.mod_le _ _))]
    exact iff_of_true trivial (.inl htill)
  rw [if_neg htill, or_iff_right htill]
  by_cases hpast : o.p < pos + n
  · -- the sum has wrapped, and what is read is not there
    rw [if_pos hpast]
    refine iff_of_false (fun h => ?_) fun h => absurd h.1 (Nat.not_le_of_lt hpast)
    generalize
      (if o.held.length <
        (pos + n) % 4294967296 then if pos < o.held.length then o.held.length - pos else 0 else n) = red at h
    split at h
    · exact h
    · rw [copy] at h
      split at h <;> exact h
  · have hmod : (pos + n) % 4294967296 = pos + n := Nat.mod_eq_of_lt (by omega)
    rw [if_neg hpast, hmod]
    by_cases hpos : o.held.length ≤ pos
    · have hred : (if o.held.length < pos + n then if pos < o.held.length then o.held.length - pos else 0 else n) =
        0 := by
        rw [if_pos (by omega), if_neg (Nat.not_lt_of_le hpos)]
      have hzeros : ofNum n 0 = (o.bytes.drop pos).take n := zeros_bytes hpos (Nat.le_of_not_lt hpast)
      rw [hred, if_pos rfl]
      exact iff_of_true ⟨stands_of hzeros, rfl⟩ ⟨Nat.le_of_not_lt hpast, .inl hpos⟩
    · have hred : (if o.held.length < pos + n then if pos < o.held.length then o.held.length - pos else 0 else n) =
          min n (o.held.length - pos) := by
        split
        · rw [if_pos (Nat.lt_of_not_le hpos)]
          omega
        · omega
      have hslice : (o.held.drop pos).take (min n (o.held.length - pos)) ++
          List.replicate (n - min n (o.held.length - pos)) 0 = (o.bytes.drop pos).take n := slice_bytes (by omega)
            (by omega)
      have hbuf : ((o.bytes.drop pos).take n).length = n := by
        rw [List.length_take, List.length_drop, length_bytes]
        omega
      rw [hred, if_neg (by omega), copy_held (by omega), bind_gives, hslice, Ret.Agrees, and_iff_left rfl,
        stands_moot (by rw [hbuf, Nat.sub_self, List.replicate_zero, List.append_nil]) hbuf.le]
      exact ⟨fun h => ⟨Nat.le_of_not_lt hpast, .inr h⟩, fun h => h.2.resolve_left hpos⟩

/-! ### chunk -/

theorem slices_nil {α : Type} (n : ℕ) : slices n ([] : List α) = [] := by
  rw [slices, if_pos (.inl rfl)]

theorem slices_cons {α : Type} {n : ℕ} (hn : n ≠ 0) {l : List α} (hl : l ≠ []) :
    slices n l = l.take n :: slices n (l.drop n) := by
  rw [slices, if_neg (not_or.mpr ⟨hl, hn⟩)]

/-- **The slices of a list are put together to the list.** -/
theorem slices_flatten {α : Type} {n : ℕ} (hn : n ≠ 0) (l : List α) : (slices n l).flatten = l := by
  by_cases hl : l = []
  · rw [hl, slices_nil, List.flatten_nil]
  · rw [slices_cons hn hl, List.flatten_cons, slices_flatten hn (l.drop n), List.take_append_drop]
termination_by l.length
decreasing_by
  have hpos := List.length_pos_of_ne_nil hl
  rw [List.length_drop]
  omega

theorem full_nil : Full [] := .inl (Nat.zero_le _)

theorem slices_full {n : ℕ} (hn : n ≠ 0) (l : List UInt8) :
    (∀ bs ∈ slices n l, Full bs) ↔ Full (l.take n) ∧ ∀ bs ∈ slices n (l.drop n), Full bs := by
  by_cases hl : l = []
  · rw [hl, slices_nil, List.take_nil, List.drop_nil, slices_nil]
    exact ⟨fun h => ⟨full_nil, h⟩, And.right⟩
  · rw [slices_cons hn hl, List.forall_mem_cons]

/-- Octs looked at within the end. -/
theorem peek_within {n pos : ℕ} {o : Octs} (ho : o.Accepted) (h : pos + n ≤ o.p) :
    ∃ m, peekOcts n pos o o.held.length = .gives (n, m) ∧
      (Stands (n, m) ((o.bytes.drop pos).take n) ↔ Full ((o.held.drop pos).take n)) := by
  have hop := ho.1
  have hlen := held_le o
  rw [peekOcts]
  by_cases hn : n = 0
  · subst hn
    rw [if_pos rfl, List.take_zero, List.take_zero]
    exact ⟨_, rfl, iff_of_true (stands_of rfl) full_nil⟩
  have hmod : (pos + n) % 4294967296 = pos + n := Nat.mod_eq_of_lt (by omega)
  rw [if_neg hn, hmod, if_neg (Nat.not_lt_of_le h)]
  by_cases hpos : o.held.length ≤ pos
  · have hzeros : ofNum n 0 = (o.bytes.drop pos).take n := zeros_bytes hpos h
    rw [if_pos hpos, List.drop_eq_nil_of_le hpos, List.take_nil]
    exact ⟨_, rfl, iff_of_true (stands_of hzeros) full_nil⟩
  · have hslice := slice_bytes (Nat.le_of_not_le hpos) h
    have hcopy : (o.held.drop pos).take (min n (o.held.length - pos)) = (o.held.drop pos).take n := take_held o pos n
    have hbuf : ((o.held.drop pos).take n).length = min n (o.held.length - pos) := by rw [List.length_take,
      List.length_drop]
    rw [hcopy, ← hbuf] at hslice
    rw [if_neg hpos, copy_held (by omega), bind_gives, hcopy]
    exact ⟨_, rfl, stands_moot hslice (hbuf.trans_le (Nat.min_le_left _ _))⟩

theorem peek_past {n pos : ℕ} {o : Octs} (hn : n ≠ 0) (h : o.p < pos + n) (hw : pos + n < 4294967296) (len : ℕ) :
    peekOcts n pos o len = .exit := by
  rw [peekOcts, if_neg hn, Nat.mod_eq_of_lt hw, if_pos h]

section Chunk

variable {size p : ℕ} {o : Octs}

/-- A turn of the loop before an end that is not past that of the octs. -/
theorem take_drop_turn {α : Type} (l : List α) (size p pos : ℕ) :
    ((l.take p).drop pos).take size = (l.drop pos).take (min (p - pos) size) ∧
      ((l.take p).drop pos).drop size = (l.take p).drop (pos + min (p - pos) size) := by
  refine ⟨by rw [List.drop_take, List.take_take, Nat.min_comm], ?_⟩
  rw [List.drop_drop]
  rcases Nat.le_total (p - pos) size with h | h
  · rw [Nat.min_eq_left h, List.drop_eq_nil_of_le, List.drop_eq_nil_of_le]
    · rw [List.length_take]
      omega
    · rw [List.length_take]
      omega
  · rw [Nat.min_eq_right h]

/-- **The loop makes the slices up to an end**, in their lengths, and their bytes if none of them
ends in a word of zeros. -/
theorem chunkLoop_within (hs : size ≠ 0) (ho : o.Accepted) (hp : p ≤ o.p) : ∀ (turns pos : ℕ), p - pos ≤ turns →
    ∃ xs, chunkLoop size p o o.held.length turns pos = .gives xs ∧
      xs.map Prod.fst = (slices size ((o.bytes.take p).drop pos)).map List.length ∧
      (List.Forall₂ Stands xs (slices size ((o.bytes.take p).drop pos)) ↔
        ∀ bs ∈ slices size ((o.held.take p).drop pos), Full bs) := by
  intro turns
  have hlen := length_bytes o
  have hheld := held_le o
  have hop := ho.1
  have hend : ∀ pos, p ≤ pos → (o.bytes.take p).drop pos = [] ∧ (o.held.take p).drop pos = [] := by
    intro pos h
    exact ⟨List.drop_eq_nil_of_le ((List.length_take_le _ _).trans h), List.drop_eq_nil_of_le
      ((List.length_take_le _ _).trans h)⟩
  induction turns with
  | zero =>
    intro pos h
    obtain ⟨hb, hh⟩ := hend pos (by omega)
    rw [hb, hh, slices_nil]
    exact ⟨[], rfl, rfl, iff_of_true .nil fun _ h => absurd h List.not_mem_nil⟩
  | succ turns ih =>
    intro pos h
    rw [chunkLoop]
    by_cases hpos : pos < p
    · have hn : pos + min (p - pos) size ≤ o.p := by omega
      obtain ⟨m, hpeek, hstands⟩ := peek_within ho hn
      obtain ⟨xs, hxs, hfst, hall⟩ := ih (pos + min (p - pos) size) (by omega)
      obtain ⟨htb, hdb⟩ := take_drop_turn o.bytes size p pos
      obtain ⟨hth, hdh⟩ := take_drop_turn o.held size p pos
      have hne : (o.bytes.take p).drop pos ≠ [] := by
        refine List.ne_nil_of_length_pos ?_
        rw [List.length_drop, List.length_take]
        omega
      have hlenn : ((o.bytes.drop pos).take (min (p - pos) size)).length = min (p - pos) size := by
        rw [List.length_take, List.length_drop]
        omega
      rw [if_pos hpos]
      dsimp only
      rw [hpeek, bind_gives, Nat.mod_eq_of_lt (by omega), hxs, bind_gives]
      refine ⟨_, rfl, ?_, ?_⟩
      · rw [slices_cons hs hne, List.map_cons, List.map_cons, htb, hdb, hfst, hlenn]
      · rw [slices_cons hs hne, List.forall₂_cons, slices_full hs, htb, hdb, hth, hdh, hstands, hall]
    · obtain ⟨hb, hh⟩ := hend pos (Nat.le_of_not_lt hpos)
      rw [if_neg hpos, hb, hh, slices_nil]
      exact ⟨[], rfl, rfl, iff_of_true .nil fun _ h => absurd h List.not_mem_nil⟩

theorem chunkLoop_end {len pos : ℕ} (h : p ≤ pos) (turns : ℕ) : chunkLoop size p o len turns pos = .gives [] := by
  cases turns with
  | zero => rfl
  | succ turns => rw [chunkLoop, if_neg (Nat.not_lt_of_le h)]

/-- Before an end past that of the octs the loop crashes. -/
theorem chunkLoop_past (hs : size ≠ 0) (ho : o.Accepted) (hp : o.p < p) (hw : p < 4294967296) :
    ∀ (turns pos : ℕ), pos < p →
    p - pos ≤ turns → chunkLoop size p o o.held.length turns pos = .exit := by
  intro turns
  induction turns with
  | zero =>
    intro pos hpos h
    omega
  | succ turns ih =>
    intro pos hpos h
    rw [chunkLoop, if_pos hpos]
    dsimp only
    rcases Nat.lt_or_ge o.p (pos + min (p - pos) size) with hpast | hle
    · rw [peek_past (by omega) hpast (by omega)]
      rfl
    · obtain ⟨m, hpeek, -⟩ := peek_within ho hle
      rw [hpeek, bind_gives, Nat.mod_eq_of_lt (by omega), ih _ (by omega) (by omega)]
      rfl

end Chunk

theorem isRef_lt {a w : ℕ} (h : IsRef a w) : w < 4294967296 := by
  rw [IsRef] at h
  split at h <;> omega

theorem isRef_pos {a w : ℕ} (h : IsRef a w) (ha : a ≠ 0) : w ≠ 0 := by
  rw [IsRef] at h
  split at h <;> omega

/-- A list that is not longer than either size has the same slices. -/
theorem slices_all {α : Type} {n : ℕ} (hn : n ≠ 0) {l : List α} (h : l.length ≤ n) :
    slices n l = if l = [] then [] else [l] := by
  split
  · rename_i hl
    rw [hl, slices_nil]
  · rename_i hl
    rw [slices_cons hn hl, List.take_of_length_le h, List.drop_eq_nil_of_le h, slices_nil]

theorem slices_same {α : Type} {m n : ℕ} (hm : m ≠ 0) (hn : n ≠ 0) {l : List α}
    (h : m = n ∨ (l.length ≤ m ∧ l.length ≤ n)) :
    slices m l = slices n l := by
  rcases h with rfl | ⟨h1, h2⟩
  · rfl
  · rw [slices_all hm h1, slices_all hn h2]

theorem slices_sum {α : Type} {n : ℕ} (hn : n ≠ 0) (l : List α) : ((slices n l).map List.length).sum = l.length := by
  rw [← List.length_flatten, slices_flatten hn]

/-- Two sizes make slices of the same lengths just when they are the same, or neither is less than all there is. -/
theorem slices_lengths {α : Type} {m n : ℕ} (hm : m ≠ 0) (hn : n ≠ 0) {l : List α} (hl : l ≠ [])
    (h : (slices m l).map List.length = (slices n l).map List.length) : m = n ∨ (l.length ≤ m ∧ l.length ≤ n) := by
  rw [slices_cons hm hl, slices_cons hn hl, List.map_cons, List.map_cons, List.length_take, List.length_take] at h
  have hhead := (List.cons.inj h).1
  omega

/-- **Octs in chunks agree** just when there are none, or the nouns that are compared do as the numbers would, and no
chunk ends in a word of zeros. -/
theorem chunk_iff {size sizeRef pos pRef : ℕ} {o : Octs} (h : (Op.chunk size sizeRef pos o pRef).Accepted) :
    (Op.chunk size sizeRef pos o pRef).Agrees ↔ (Op.chunk size sizeRef pos o pRef).Meets := by
  obtain ⟨hsize, hpos, ho, hsr, hpr⟩ := h
  have hlenb := length_bytes o
  have hheld := held_le o
  rw [Op.Agrees, Op.Meets, chunk, if_neg (Nat.not_le_of_lt hsize)]
  by_cases h0 : size = 0
  · rw [if_pos h0, slices, if_pos (.inr h0)]
    exact iff_of_true .nil (.inl h0)
  have hs := isRef_pos hsr h0
  rw [if_neg h0, if_neg (Nat.not_le_of_lt hpos), xOctsBuffer_accepted ho, bind_gives, or_iff_right h0]
  dsimp only
  have hfst : ∀ {xs : List Piece} {bss : List (List UInt8)}, List.Forall₂ Stands xs bss →
      xs.map Prod.fst = bss.map List.length := by
    intro xs bss h
    induction h with
    | nil => rfl
    | cons hx _ ih => rw [List.map_cons, List.map_cons, hx.length, ih]
  rcases Nat.lt_or_ge pos o.p with hin | hout
  · have hne : o.bytes.drop pos ≠ [] := by
      refine List.ne_nil_of_length_pos ?_
      rw [List.length_drop]
      omega
    rw [or_iff_right (fun h => absurd h.2 (Nat.not_le_of_lt hin))]
    rcases Nat.lt_trichotomy o.p pRef with hlt | rfl | hgt
    · rw [chunkLoop_past hs ho hlt (isRef_lt hpr) pRef pos (hin.trans hlt) (Nat.sub_le _ _)]
      exact iff_of_false id fun h => absurd h.1 hlt.ne'
    · obtain ⟨xs, hxs, hf, hall⟩ := chunkLoop_within hs ho (Nat.le_refl o.p) o.p pos (Nat.sub_le _ _)
      rw [List.take_of_length_le hlenb.le] at hf hall
      rw [List.take_of_length_le hheld] at hall
      have hsame := slices_same hs h0 (l := o.bytes.drop pos)
      have hsameh := slices_same hs h0 (l := o.held.drop pos)
      rw [List.length_drop, hlenb] at hsame
      rw [List.length_drop] at hsameh
      rw [hxs, Ret.Agrees, eq_self_iff_true, true_and]
      constructor
      · intro h
        have hor := slices_lengths hs h0 hne (hf.symm.trans (hfst h))
        rw [List.length_drop, hlenb] at hor
        rw [← hsame hor, hall, hsameh (hor.imp_right fun h => ⟨by omega, by omega⟩)] at h
        exact ⟨hor, h⟩
      · intro ⟨hor, h⟩
        rw [← hsameh (hor.imp_right fun h => ⟨by omega, by omega⟩), ← hall, hsame hor] at h
        exact h
    · obtain ⟨xs, hxs, hf, -⟩ := chunkLoop_within hs ho hgt.le pRef pos (Nat.sub_le _ _)
      rw [hxs]
      refine iff_of_false (fun h => ?_) fun h => absurd h.1 hgt.ne
      have hsum := congrArg List.sum (hf.symm.trans (hfst h))
      rw [slices_sum hs, slices_sum h0, List.length_drop, List.length_drop, List.length_take] at hsum
      omega
  · rw [List.drop_eq_nil_of_le (hlenb.trans_le hout), slices_nil]
    rcases Nat.lt_or_ge pos pRef with hlt | hge
    · rw [chunkLoop_past hs ho (by omega) (isRef_lt hpr) pRef pos hlt (Nat.sub_le _ _)]
      exact iff_of_false id fun h => h.elim (fun h => absurd h.1 (Nat.not_le_of_lt hlt)) fun h => by omega
    · rw [chunkLoop_end hge]
      exact iff_of_true .nil (.inl ⟨hge, hout⟩)

/-! ### can-octs -/

theorem bytes_of_held_nil {o : Octs} (h : o.held = []) : o.bytes = List.replicate o.p 0 := by
  rw [bytes_eq, h, List.nil_append, List.length_nil, Nat.sub_zero]

theorem zeros_of_held_nil : ∀ {os : List Octs}, (∀ o ∈ os, o.held = []) →
    os.flatMap Octs.bytes = List.replicate (os.map Octs.p).sum 0
  | [], _ => rfl
  | o :: os, h => by
    rw [List.flatMap_cons, bytes_of_held_nil (h o List.mem_cons_self),
      zeros_of_held_nil fun o ho => h o (List.mem_cons_of_mem _ ho), List.replicate_append_replicate,
        List.map_cons, List.sum_cons]

theorem fills_zero {os : List Octs} : Fills 0 os ↔ ∀ o ∈ os, o.held = [] := by
  cases os with
  | nil => exact iff_of_true rfl fun _ h => absurd h List.not_mem_nil
  | cons o os => rw [Fills, if_neg (Nat.not_lt_zero _), List.length_eq_zero_iff, List.forall_mem_cons]

theorem length_flatMap_bytes (os : List Octs) : (os.flatMap Octs.bytes).length = (os.map Octs.p).sum := by
  rw [List.length_flatMap]
  exact congrArg List.sum (List.map_congr_left fun o _ => length_bytes o)

/-- **The copies come to the end of a slab** just when the octs fill what is left of it, and then
what they have not copied is zeros. -/
theorem canCopy_spec {buf : ℕ} : ∀ {os : List Octs}, (∀ o ∈ os, o.Accepted) → ∀ wit :
    ℕ, ∃ out, canCopy buf wit os = .gives out ∧
    (wit + out.length = buf ↔ wit ≤ buf ∧ Fills (buf - wit) os) ∧
    (wit + out.length = buf → out ++ List.replicate ((os.map Octs.p).sum - out.length) 0 = os.flatMap Octs.bytes)
  | [], _, wit => by
    refine ⟨[], rfl, ?_, fun _ => rfl⟩
    rw [Fills, List.length_nil]
    omega
  | o :: os, h, wit => by
    have ih := @canCopy_spec buf os fun o ho => h o (List.mem_cons_of_mem _ ho)
    have hlen := held_le o
    rw [canCopy, xOctsBuffer_accepted (h o List.mem_cons_self), bind_gives, Fills, List.map_cons, List.sum_cons,
      List.flatMap_cons]
    dsimp only
    by_cases hp : o.p = 0
    · obtain ⟨out, hout, hfill, hall⟩ := ih wit
      have hnil : o.held = [] := List.eq_nil_of_length_eq_zero (Nat.le_zero.mp (hlen.trans hp.le))
      rw [if_pos hp, bytes_of_held_nil hnil, hp, hnil, List.length_nil, Nat.zero_add, Nat.sub_zero]
      refine ⟨out, hout, hfill.trans (and_congr_right fun hle => ?_), hall⟩
      split
      · exact (and_iff_right (Nat.zero_le _)).symm
      · rename_i h0
        have hz : buf - wit = 0 := Nat.le_zero.mp (Nat.le_of_not_lt h0)
        rw [hz, fills_zero]
        exact (and_iff_right rfl).symm
    rw [if_neg hp, copy_all, bind_gives]
    by_cases hmore : wit + o.held.length < buf
    · obtain ⟨rest, hrest, hfill, hall⟩ := ih (wit + o.held.length + (o.p - o.held.length))
      rw [show wit + o.held.length + (o.p - o.held.length) = wit + o.p by omega] at hrest hfill hall
      rw [if_pos hmore, show wit + o.held.length + (o.p - o.held.length) = wit + o.p by omega, hrest, bind_gives,
        if_pos (show o.held.length < buf - wit by omega), ← bytes_eq]
      refine ⟨_, rfl, ?_, fun heq => ?_⟩
      · rw [List.length_append, length_bytes, ← Nat.add_assoc, hfill, Nat.sub_sub]
        constructor
        · rintro ⟨h1, h2⟩
          exact ⟨by omega, by omega, h2⟩
        · rintro ⟨h1, h2, h3⟩
          exact ⟨by omega, h3⟩
      · rw [List.length_append, length_bytes, ← Nat.add_assoc] at heq
        rw [List.length_append, length_bytes, Nat.add_sub_add_left, List.append_assoc, hall heq]
    · obtain ⟨rest, hrest, hfill, hall⟩ := ih (wit + o.held.length)
      rw [if_neg hmore, hrest, bind_gives, if_neg (show ¬ o.held.length < buf - wit by omega)]
      have hiff : wit + (o.held ++ rest).length = buf ↔ wit ≤ buf ∧ o.held.length = buf - wit ∧ ∀ o ∈ os,
        o.held = [] := by
        rw [List.length_append, ← Nat.add_assoc, hfill, ← fills_zero]
        constructor
        · rintro ⟨h1, h2⟩
          rw [show buf - (wit + o.held.length) = 0 by omega] at h2
          exact ⟨by omega, by omega, h2⟩
        · rintro ⟨h1, h2, h3⟩
          rw [show buf - (wit + o.held.length) = 0 by omega]
          exact ⟨by omega, h3⟩
      refine ⟨_, rfl, hiff, fun heq => ?_⟩
      obtain ⟨h1, h2, h3⟩ := hiff.mp heq
      have hrest0 : rest = [] := by
        rw [List.length_append] at heq
        exact List.eq_nil_of_length_eq_zero (by omega)
      rw [hrest0, List.append_nil, zeros_of_held_nil h3, bytes_eq o, List.append_assoc, List.replicate_append_replicate]
      congr 2
      omega

theorem last_le_sum : ∀ (o : Octs) (os : List Octs), (os.getLastD o).p ≤ o.p + (os.map Octs.p).sum
  | o, [] => Nat.le_refl _
  | o, o' :: os => by
    rw [List.getLastD_cons, List.map_cons, List.sum_cons]
    exact (last_le_sum o' os).trans (Nat.le_add_left _ _)

/-- Octs fill all the bytes but the zeros of the last, if its atom has no more bytes than its length. -/
theorem fills_last : ∀ (o : Octs) (os : List Octs), ¬ (os.getLastD o).Wide →
    Fills (o.p + (os.map Octs.p).sum - ((os.getLastD o).p - size (os.getLastD o).q)) (o :: os)
  | o, [], h => by
    have hle : size o.q ≤ o.p := Nat.le_of_not_lt h
    have hlen := length_held o
    rw [Fills, List.getLastD_nil, List.map_nil, List.sum_nil, if_neg (by omega)]
    exact ⟨by omega, fun _ h => absurd h List.not_mem_nil⟩
  | o, o' :: os, h => by
    have ih := fills_last o' os (List.getLastD_cons ▸ h)
    have hle := last_le_sum o' os
    have hheld := held_le o
    rw [List.getLastD_cons, List.map_cons, List.sum_cons, Fills]
    split
    · refine ⟨by omega, ?_⟩
      rw [show o.p + (o'.p + (os.map Octs.p).sum) - ((os.getLastD o').p - size (os.getLastD o').q) - o.p =
        o'.p + (os.map Octs.p).sum - ((os.getLastD o').p - size (os.getLastD o').q) by omega]
      exact ih
    · refine ⟨by omega, fills_zero.mp ?_⟩
      rw [show o'.p + (os.map Octs.p).sum - ((os.getLastD o').p - size (os.getLastD o').q) = 0 by omega] at ih
      exact ih

/-- A slab that there is room for. -/
theorem slab_iff {os : List Octs} (h : ∀ o ∈ os, o.Accepted) {buf : ℕ} (hbuf : buf ≤ 17179869180) :
    Ret.Agrees Stands (match ciSlabSize buf with
      | none => .fail
      | some _ => (canCopy buf 0 os).bind fun sab =>
        if sab.length = buf then .gives ((os.map Octs.p).sum, u3iSlabMint sab) else .fault)
          (.gives (os.flatMap Octs.bytes)) ↔
      Fills buf os := by
  obtain ⟨out, hout, hfill, hall⟩ := @canCopy_spec buf os h 0
  rw [Nat.zero_add] at hfill hall
  rw [ciSlabSize_fits hbuf]
  dsimp only
  rw [hout, bind_gives]
  have hiff : out.length = buf ↔ Fills buf os := hfill.trans (and_iff_right (Nat.zero_le _))
  by_cases hlen : out.length = buf
  · have hbytes := hall hlen
    have hle : out.length ≤ (os.map Octs.p).sum := by
      rw [← length_flatMap_bytes, ← hbytes, List.length_append]
      exact Nat.le_add_right _ _
    rw [if_pos hlen]
    exact iff_of_true (stands_of (by rw [ofNum_num_pad hle, hbytes])) (hiff.mp hlen)
  · rw [if_neg hlen]
    exact iff_of_false id (mt hiff.mpr hlen)

theorem ciSlabSize_none {n : ℕ} (h : 2305843009213693952 ≤ n) : ciSlabSize n = none := by
  rw [ciSlabSize, if_pos]
  right
  have hlt := Nat.mod_lt (n * 8) (show 0 < 18446744073709551616 by decide)
  omega

/-- Octs of which one is the last, put together. -/
theorem canSlab_iff {os : List Octs} {last : Octs} (h : os.getLastD ⟨0, 0⟩ = last) (hacc : ∀ o ∈ os, o.Accepted)
    (hlast : last.Accepted) (htot : (os.map Octs.p).sum ≤ 17179869180 + (last.p - size last.q))
    (hsum : last.p ≤ (os.map Octs.p).sum)
    (hfills : ¬ last.Wide → Fills ((os.map Octs.p).sum - (last.p - size last.q)) os) :
    (canSlab os).Agrees Stands (.gives (os.flatMap Octs.bytes)) ↔ ¬ last.Wide ∨
      ((os.map Octs.p).sum + (size last.q - last.p) = 4294967296 ∧ ∀ b ∈ os.flatMap Octs.bytes, b = 0) ∨
      (4294967296 < (os.map Octs.p).sum + (size last.q - last.p) ∧
        Fills ((os.map Octs.p).sum + (size last.q - last.p) - 4294967296) os) := by
  have hany : ¬ (os.any fun o => 4294967296 ≤ o.p) = true := by
    rw [List.any_eq_true]
    rintro ⟨o, ho, hle⟩
    exact absurd (of_decide_eq_true hle) (Nat.not_le_of_lt (hacc o ho).1)
  have hp := hlast.1
  have hsize := size_lt_of_accepted hlast
  have hmet : u3rMet3 last.q = some (size last.q) := by
    rw [u3rMet3, if_neg]
    have hw := hlast.2
    omega
  rw [canSlab, if_neg hany]
  dsimp only
  rw [if_neg (by omega), h, hmet]
  dsimp only
  by_cases hwide : last.Wide
  · have hw : last.p < size last.q := hwide
    have hlead : (last.p + 4294967296 - size last.q) % 4294967296 = 4294967296 - (size last.q - last.p) := by
      rw [Nat.mod_eq_of_lt (by omega)]
      omega
    rw [hlead, or_iff_right (not_not.mpr hwide)]
    rcases Nat.lt_trichotomy ((os.map Octs.p).sum + (size last.q - last.p)) 4294967296 with hlt | heq | hgt
    · -- the size of the slab wraps, and there is no such slab
      rw [Nat.mod_eq_of_lt (by omega), if_neg (by omega), ciSlabSize_none (by omega)]
      exact iff_of_false id fun h => h.elim (fun h => absurd h.1 hlt.ne) fun h => absurd h.1 hlt.asymm
    · rw [show (os.map Octs.p).sum + 18446744073709551616 - (4294967296 - (size last.q - last.p)) =
        18446744073709551616 by omega,
        Nat.mod_self, if_pos rfl, Nat.mod_eq_of_lt (show (os.map Octs.p).sum < 4294967296 by omega),
          or_iff_left fun h => by omega,
        and_iff_right heq]
      have hlen := length_flatMap_bytes os
      rw [Ret.Agrees, Stands, and_iff_left (canonical_of 0)]
      show ofNum _ 0 = _ ↔ _
      rw [ofNum_zero, ← hlen, eq_comm, List.eq_replicate_iff, and_iff_right rfl]
    · have hbuf :
        ((os.map Octs.p).sum + 18446744073709551616 - (4294967296 - (size last.q - last.p))) % 18446744073709551616 =
          (os.map Octs.p).sum + (size last.q - last.p) - 4294967296 := by omega
      rw [hbuf, if_neg (by omega), and_iff_right hgt]
      refine (slab_iff hacc (by omega)).trans ⟨.inr, fun h => h.resolve_left fun h => by omega⟩
  · have hle : size last.q ≤ last.p := Nat.le_of_not_lt hwide
    have hlead : (last.p + 4294967296 - size last.q) % 4294967296 = last.p - size last.q := by
      rw [show last.p + 4294967296 - size last.q = last.p - size last.q + 4294967296 by omega, Nat.add_mod_right,
        Nat.mod_eq_of_lt (by omega)]
    have hbuf : ((os.map Octs.p).sum + 18446744073709551616 - (last.p - size last.q)) % 18446744073709551616 =
        (os.map Octs.p).sum - (last.p - size last.q) := by omega
    rw [hlead, hbuf]
    refine iff_of_true ?_ (.inl hwide)
    have hfill := hfills hwide
    split
    · rename_i h0
      rw [h0, fills_zero] at hfill
      rw [Nat.mod_eq_of_lt (by omega), zeros_of_held_nil hfill]
      exact stands_of (ofNum_zero _)
    · exact (slab_iff hacc (by omega)).mpr hfill

/-- **Octs put together agree** just when there is one of them at most, or the last one's atom has
no more bytes than its length, or, for all that, the slab is of the bytes that are copied. -/
theorem can_iff {os : List Octs} (h : (Op.can os).Accepted) : (Op.can os).Agrees ↔ (Op.can os).Meets := by
  rw [Op.Agrees, Op.Meets]
  match os, h with
  | [], _ => exact iff_of_true (stands_of rfl) (.inl (Nat.zero_le _))
  | [o], _ =>
    rw [List.flatMap_cons, List.flatMap_nil, List.append_nil]
    exact iff_of_true (stands_of rfl) (.inl (Nat.le_refl _))
  | o :: o' :: os, h =>
    have hone : ¬ (o :: o' :: os).length ≤ 1 := by simp
    obtain ⟨hacc, htot⟩ := h.resolve_left hone
    have hlast : (o :: o' :: os).getLastD ⟨0, 0⟩ = (o' :: os).getLastD o := List.getLastD_cons
    rw [hlast] at htot ⊢
    rw [or_iff_right hone]
    exact canSlab_iff hlast hacc (hacc _ List.getLastD_mem_cons) htot (last_le_sum o (o' :: os))
      (fills_last o (o' :: os))

/-! ### extract -/

/-- Octs that the bound lets be looked at. -/
theorem peek_let {n pos : ℕ} {o : Octs} {len : ℕ} (hn : n ≠ 0) (h : ¬ o.p < (pos + n) % 4294967296) :
    (∃ x, peekOcts n pos o len = .gives x) ∨ peekOcts n pos o len = .fault := by
  rw [peekOcts, if_neg hn, if_neg h]
  split
  · exact .inl ⟨_, rfl⟩
  · rw [copy]
    split
    · exact .inr rfl
    · exact .inl ⟨_, rfl⟩

/-- **A turn agrees** just when it does not go on past a sum that has wrapped, and what it keeps
does not end in a word of zeros. -/
theorem turn_iff {rac : ℕ → Option (ℕ × ℕ)} {o : Octs} {pos : ℕ} (ho : o.Accepted) (hpos : pos < o.p) :
    TurnAgrees rac o o.held.length pos ↔ TurnMeets rac o pos := by
  have hop := ho.1
  have hlen := length_bytes o
  rw [TurnAgrees, TurnMeets, extractTurn, turnBytes]
  rcases hr : rac pos with _ | ⟨sip, ken⟩
  · exact iff_of_true (.inr trivial) fun _ _ h => by cases h
  have hmeets : ∀ {P : ℕ → ℕ → Prop}, (∀ s k, some (sip, ken) = some (s, k) → P s k) ↔ P sip ken := by
    intro P
    constructor
    · intro h
      exact h sip ken rfl
    · intro h s k hsk
      obtain ⟨rfl, rfl⟩ := Prod.mk.inj (Option.some.inj hsk)
      exact h
  rw [hmeets]
  dsimp only
  by_cases hbig : 4294967296 ≤ sip ∨ 4294967296 ≤ ken
  · rw [if_pos hbig]
    exact iff_of_true (.inl rfl) fun h1 h2 => by omega
  rw [if_neg hbig]
  by_cases h0 : sip = 0 ∧ ken = 0
  · rw [if_pos h0, if_pos h0]
    exact iff_of_true (.inr .none) fun _ _ h => by omega
  rw [if_neg h0, if_neg h0]
  by_cases hpast : o.p < (pos + sip) % 4294967296
  · rw [if_pos hpast]
    exact iff_of_true (.inl rfl) fun _ _ _ h => absurd h (Nat.not_le_of_lt hpast)
  rw [if_neg hpast]
  have hwrapped : 4294967296 ≤ pos + sip + ken → o.bytes.length < pos + sip + ken := fun h => by omega
  by_cases hken : ken = 0
  · subst hken
    rw [if_pos rfl, if_pos rfl, List.take_zero]
    rcases Nat.lt_or_ge (pos + sip + 0) 4294967296 with hlt | hge
    · have hmod : (pos + sip) % 4294967296 = pos + sip := Nat.mod_eq_of_lt hlt
      rw [hmod] at hpast ⊢
      rw [if_neg (by omega)]
      exact iff_of_true (.inr (.some ⟨rfl, .none⟩)) fun _ _ _ _ _ => ⟨hlt, full_nil⟩
    · rw [if_pos (hwrapped hge)]
      refine iff_of_false (fun h => h.elim (fun h => by cases h) id) fun h => ?_
      exact absurd (h (by omega) (by omega) (by omega) (Nat.le_of_not_lt hpast) (.inl rfl)).1 (Nat.not_lt_of_le hge)
  rw [if_neg hken, if_neg hken]
  by_cases hend : o.p < ((pos + sip) % 4294967296 + ken) % 4294967296
  · have hexit : peekOcts ken ((pos + sip) % 4294967296) o o.held.length = .exit := by
      rw [peekOcts, if_neg hken, if_pos hend]
    have hmod := Nat.mod_le ((pos + sip) % 4294967296 + ken) 4294967296
    have hmod' := Nat.mod_le (pos + sip) 4294967296
    rw [hexit, if_pos (by omega)]
    exact iff_of_true (.inr trivial) fun _ _ _ _ h => absurd (h.resolve_left hken) (Nat.not_le_of_lt hend)
  rcases Nat.lt_or_ge (pos + sip + ken) 4294967296 with hlt | hge
  · have hmod : (pos + sip) % 4294967296 = pos + sip := Nat.mod_eq_of_lt (by omega)
    rw [hmod, Nat.mod_eq_of_lt hlt] at hend
    obtain ⟨m, hpeek, hstands⟩ := peek_within ho (Nat.le_of_not_lt hend)
    rw [hmod, hpeek, bind_gives, if_neg (by omega), Nat.mod_eq_of_lt hlt]
    constructor
    · rintro (h | h)
      · cases h
      · cases h with
        | some h =>
          cases h.2 with
          | some hs => exact fun _ _ _ _ _ => ⟨hlt, hstands.mp hs⟩
    · intro h
      have hfull := (h (by omega) (by omega) (by omega) (by omega) (.inr (Nat.le_of_not_lt hend))).2
      exact .inr (.some ⟨rfl, .some (hstands.mpr hfull)⟩)
  · rw [if_pos (hwrapped hge)]
    refine iff_of_false (fun h => ?_) fun h => ?_
    · obtain ⟨x, hx⟩ | hx := peek_let hken hend
      · rw [hx] at h
        exact h.elim (fun h => by cases h) id
      · rw [hx] at h
        exact h.elim (fun h => by cases h) id
    · exact absurd (h (by omega) (by omega) (by omega) (Nat.le_of_not_lt hpast) (.inr (Nat.le_of_not_lt hend))).1
        (Nat.not_lt_of_le hge)

theorem Comes.head {α : Type} {turn : ℕ → Ret (Turn α)} {p pos pos' at0 : ℕ} {x : Option α} (hlt : pos < p)
    (ht : turn pos = .gives (some (pos', x))) (h : Comes turn p pos' at0) : Comes turn p pos at0 := by
  induction h with
  | start => exact .turn .start hlt ht
  | turn _ hlt ht ih => exact .turn ih hlt ht

theorem forall₂_append_option {xs : List Piece} {bss : List (List UInt8)} (h : List.Forall₂ Stands xs bss)
    {x : Option Piece}
    {b : Option (List UInt8)} (hx : Option.Rel Stands x b) :
      List.Forall₂ Stands (xs ++ x.toList) (bss ++ b.toList) := by
  cases hx with
  | none => exact List.rel_append h .nil
  | some hx => exact List.rel_append h (.cons hx .nil)

/-- **A loop whose turns agree agrees**, as far as it goes. -/
theorem turns_agree {rac : ℕ → Option (ℕ × ℕ)} {o : Octs} : ∀ {n pos : ℕ} {dal : List Piece} {dal' : List (List UInt8)}
    {r : Ret (List Piece × ℕ)}, List.Forall₂ Stands dal dal' →
    (∀ at0, Comes (extractTurn rac o o.held.length) o.p pos at0 → at0 < o.p → TurnAgrees rac o o.held.length at0) →
    turns (extractTurn rac o o.held.length) o.p n pos dal = some r →
    r = .none ∨ ∃ r', turns (turnBytes rac o.bytes) o.bytes.length n pos dal' = some r' ∧
      r.Agrees (fun x y => List.Forall₂ Stands x.1 y.1 ∧ x.2 = y.2) r'
  | 0, _, _, _, _, _, _, h => by cases h
  | n + 1, pos, dal, dal', r, hdal, hall, h => by
    rw [turns] at h
    rw [turns, length_bytes]
    by_cases hlt : pos < o.p
    · rw [if_pos hlt] at h ⊢
      rcases hall pos .start hlt with hnone | hagrees
      · rw [hnone] at h
        exact .inl (Option.some.inj h).symm
      · obtain ⟨hc, hb⟩ | ⟨x, y, hc, hb, hxy⟩ := hagrees.cases
        · rw [hc] at h
          rw [hb]
          exact .inr ⟨_, rfl, Option.some.inj h ▸ trivial⟩
        · rw [hc] at h
          rw [hb]
          cases hxy with
          | none => exact .inr ⟨_, rfl, Option.some.inj h ▸ ⟨hdal, rfl⟩⟩
          | some hx =>
            obtain ⟨hpos, hx⟩ := hx
            have hnext := turns_agree (forall₂_append_option hdal hx) (fun at0 hat => hall at0 (.head hlt hc hat)) h
            rw [hpos, length_bytes] at hnext
            exact hnext
    · rw [if_neg hlt] at h ⊢
      exact .inr ⟨_, rfl, Option.some.inj h ▸ ⟨hdal, rfl⟩⟩

/-- **An extraction agrees** just when each turn that it comes to does. -/
theorem extract_iff {rac : ℕ → Option (ℕ × ℕ)} {pos : ℕ} {o : Octs} (hpos : pos < 4294967296) (ho : o.Accepted) :
    (Op.extract rac pos o).Agrees ↔ (Op.extract rac pos o).Meets := by
  rw [Op.Agrees, Op.Meets]
  have hturns :
    (∀ at0, Comes (extractTurn rac o o.held.length) o.p pos at0 → at0 < o.p → TurnAgrees rac o o.held.length at0) ↔
      ∀ at0, Comes (extractTurn rac o o.held.length) o.p pos at0 → at0 < o.p → TurnMeets rac o at0 :=
    forall_congr' fun at0 => forall_congr' fun _ => forall_congr' fun hlt => turn_iff ho hlt
  rw [← hturns]
  refine and_iff_left_of_imp fun hall n r hr => ?_
  rw [extract, if_neg (Nat.not_le_of_lt hpos), xOctsBuffer_accepted ho] at hr
  exact turns_agree .nil hall hr

/-- **The octs operations agree with byte lists and make canonical atoms just when the condition
holds**, for all that the jets take. -/
theorem agrees_iff (op : Op) (h : op.Accepted) : op.Agrees ↔ op.Meets := by
  cases op with
  | cat a b => exact cat_iff h.1 h.2
  | can os => exact can_iff h
  | read n pos o => exact read_iff h.1 h.2.1 h.2.2
  | chunk size sizeRef pos o pRef => exact chunk_iff h
  | extract rac pos o => exact extract_iff h.1 h.2

/-- Two octs of a byte each. -/
theorem agrees_iff_pair : (Op.cat ⟨1, 5⟩ ⟨1, 7⟩).Agrees ↔ (Op.cat ⟨1, 5⟩ ⟨1, 7⟩).Meets :=
  agrees_iff _ ⟨⟨by decide, by decide⟩, by decide, by decide⟩

/-- Eight bytes and then one, all but the first zero: the atom is 1, in two words. -/
theorem cat_not_trimmed : ¬ ∀ op : Op, op.Accepted → op.Agrees := by
  intro h
  have hagrees := h (.cat ⟨8, 1⟩ ⟨1, 0⟩) ⟨⟨by decide, by decide⟩, by decide, by decide⟩
  have hgives : catOcts ⟨8, 1⟩ ⟨1, 0⟩ = .gives (9, ⟨2, 1⟩) := by decide
  rw [Op.Agrees, hgives] at hagrees
  exact absurd hagrees.2 (by decide)

end Bytestream
end Ursockets
