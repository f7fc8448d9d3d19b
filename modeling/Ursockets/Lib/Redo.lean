/-
# Redo logs

A redo log is a new size for a file and a list of writes into it. The file
is cut to the size if it is longer, and the writes are made. Whatever a crash
leaves of a file while the log was being applied to it (`Partial`), applying
the log to that again gives the file that applying it once would have given
(`image_of_partial`): the writes lost or torn are made again, and the rest of
the file was not touched.

Key definitions: `Redo`, `Redo.image`, `Redo.Partial`.
Key theorems: `partial_of_survives`, `image_of_partial`, `image_image`.
-/
import Mathlib.Order.Lattice
import Mathlib.Order.Defs.LinearOrder
import Ursockets.Lib.CrashFs

namespace CrashFs

variable {α : Type} [Zero α]

/-! ### Lists of writes -/

/-- The writes made one after the other. -/
def writeAll (ws : List (ℕ × List α)) (b : List α) : List α :=
  ws.foldl (fun b w => pwrite w.1 w.2 b) b

/-- Position `i` is written. -/
def Covered (ws : List (ℕ × List α)) (i : ℕ) : Prop :=
  ∃ w ∈ ws, w.1 ≤ i ∧ i < w.1 + w.2.length

/-- The end of the last write. -/
def extent (ws : List (ℕ × List α)) : ℕ := ws.foldr (fun w n => max (w.1 + w.2.length) n) 0

omit [Zero α] in
theorem le_extent : ∀ {ws : List (ℕ × List α)} {w : ℕ × List α}, w ∈ ws →
    w.1 + w.2.length ≤ extent ws
  | w :: ws, _, h => by
    rcases List.mem_cons.mp h with rfl | h1
    · exact le_max_left _ _
    · exact le_trans (le_extent h1) (le_max_right _ _)

omit [Zero α] in
theorem extent_le {n : ℕ} : ∀ {ws : List (ℕ × List α)}, (∀ w ∈ ws, w.1 + w.2.length ≤ n) →
    extent ws ≤ n
  | [], _ => Nat.zero_le n
  | w :: ws, h => by
    have h1 := h w List.mem_cons_self
    have h2 := extent_le fun w' hw' => h w' (List.mem_cons_of_mem _ hw')
    exact max_le h1 h2

theorem length_writeAll : ∀ (ws : List (ℕ × List α)) (b : List α), (∀ w ∈ ws, w.2 ≠ []) →
    (writeAll ws b).length = max b.length (extent ws)
  | [], b, _ => by simp [writeAll, extent]
  | w :: ws, b, h => by
    have ih := length_writeAll ws (pwrite w.1 w.2 b) fun w' hw' => h w' (List.mem_cons_of_mem _ hw')
    rw [length_pwrite b (h w List.mem_cons_self)] at ih
    show (writeAll ws (pwrite w.1 w.2 b)).length = max b.length (max (w.1 + w.2.length) (extent ws))
    rw [ih, max_assoc]

/-- What is not written stays. -/
theorem getD_writeAll_of_not_covered : ∀ (ws : List (ℕ × List α)) (b : List α) {i : ℕ},
    ¬ Covered ws i → (writeAll ws b).getD i 0 = b.getD i 0
  | [], _, _, _ => rfl
  | w :: ws, b, i, h => by
    have h1 : ¬ (w.1 ≤ i ∧ i < w.1 + w.2.length) := fun hw => h ⟨w, List.mem_cons_self, hw⟩
    have h2 : ¬ Covered ws i := fun ⟨w', hm, hw'⟩ => h ⟨w', List.mem_cons_of_mem _ hm, hw'⟩
    show (writeAll ws (pwrite w.1 w.2 b)).getD i 0 = b.getD i 0
    rw [getD_writeAll_of_not_covered ws _ h2, getD_pwrite, if_neg h1]

/-- Contents that agree on what is not written agree once it is. -/
theorem getD_writeAll_congr : ∀ (ws : List (ℕ × List α)) (a b : List α),
    (∀ i, ¬ Covered ws i → a.getD i 0 = b.getD i 0) →
    ∀ i, (writeAll ws a).getD i 0 = (writeAll ws b).getD i 0
  | [], _, _, h, i => h i fun ⟨_, hm, _⟩ => by cases hm
  | w :: ws, a, b, h, i => by
    refine getD_writeAll_congr ws _ _ (fun j hj => ?_) i
    simp only [getD_pwrite]
    split
    · rfl
    · rename_i hw
      refine h j fun ⟨w', hm, hw'⟩ => ?_
      rcases List.mem_cons.mp hm with rfl | hm
      · exact hw hw'
      · exact hj ⟨w', hm, hw'⟩

/-! ### Redo logs -/

/-- A redo log: the size of the file and the writes, which lie in it. -/
structure Redo (α : Type) where
  size : ℕ
  writes : List (ℕ × List α)
  nonempty : ∀ w ∈ writes, w.2 ≠ []
  fits : ∀ w ∈ writes, w.1 + w.2.length ≤ size

namespace Redo

variable (r : Redo α)

/-- The changes that apply the log to a content. -/
def changes (b : List α) : List (Change α) :=
  (if r.size < b.length then [.ftruncate r.size] else []) ++ r.writes.map fun w => .pwrite w.1 w.2

/-- The content, cut to the size of the log. -/
def base (b : List α) : List α := if r.size < b.length then ftruncate r.size b else b

/-- The content with the log applied. -/
def image (b : List α) : List α := writeAll r.writes (r.base b)

theorem foldl_changes (b : List α) :
    (r.changes b).foldl (fun b c => c.apply b) b = r.image b := by
  have : ∀ (ws : List (ℕ × List α)) (b : List α),
      (ws.map fun w => (.pwrite w.1 w.2 : Change α)).foldl (fun b c => c.apply b) b =
        writeAll ws b := fun ws b => by
    rw [List.foldl_map]; rfl
  by_cases h : r.size < b.length
  · simp [changes, image, base, h, this]
  · simp [changes, image, base, h, this]

theorem length_base (b : List α) : (r.base b).length = min b.length r.size := by
  unfold base
  split
  · rw [length_ftruncate]; omega
  · omega

omit [Zero α] in
theorem extent_le_size : extent r.writes ≤ r.size := extent_le r.fits

theorem length_image (b : List α) :
    (r.image b).length = max (min b.length r.size) (extent r.writes) := by
  rw [image, length_writeAll _ _ r.nonempty, length_base]

theorem length_image_le (b : List α) : (r.image b).length ≤ r.size := by
  have := r.extent_le_size
  rw [length_image]; omega

/-- `b` is what may be left of `old` while the log is applied to it: what the
log does not write is as it was, up to the log's size, and the file is not cut
yet or its length lies between the old and the new one's. -/
structure Partial (old b : List α) : Prop where
  keeps : ∀ i < r.size, ¬ Covered r.writes i → b.getD i 0 = old.getD i 0
  long : (r.size < old.length ∧ b.length = old.length) ∨
    (min old.length r.size ≤ b.length ∧ b.length ≤ (r.image old).length)

theorem partial_self (old : List α) : r.Partial old old := by
  refine ⟨fun _ _ _ => rfl, ?_⟩
  by_cases h : r.size < old.length
  · exact .inl ⟨h, rfl⟩
  · rw [length_image]; omega

/-- A change of the log, or what is left of one. -/
def Piece (old : List α) : Change α → Prop
  | .ftruncate n => n = r.size ∧ r.size < old.length
  | .pwrite off data => ∃ w ∈ r.writes, off = w.1 ∧ data.length ≤ w.2.length

theorem partial_apply {old b : List α} {c : Change α} (h : r.Partial old b) (hc : r.Piece old c) :
    r.Partial old (c.apply b) := by
  have hL := r.length_image old
  have hE := r.extent_le_size
  cases c with
  | ftruncate n =>
    obtain ⟨rfl, hn⟩ := hc
    refine ⟨fun i hi hw => ?_, .inr ?_⟩
    · show (ftruncate r.size b).getD i 0 = _
      rw [getD_ftruncate, if_pos hi, h.keeps i hi hw]
    · show _ ≤ (ftruncate r.size b).length ∧ (ftruncate r.size b).length ≤ _
      rw [length_ftruncate]; omega
  | pwrite off data =>
    obtain ⟨w, hw, rfl, hd⟩ := hc
    by_cases hnil : data = []
    · rw [hnil]; exact h
    have hw1 := le_extent hw
    refine ⟨fun i hi hi' => ?_, ?_⟩
    · show (pwrite w.1 data b).getD i 0 = _
      rw [getD_pwrite, if_neg fun hin => hi' ⟨w, hw, hin.1, by omega⟩, h.keeps i hi hi']
    · show (_ ∧ (pwrite w.1 data b).length = _) ∨
        (_ ≤ (pwrite w.1 data b).length ∧ (pwrite w.1 data b).length ≤ _)
      rw [length_pwrite b hnil]
      rcases h.long with ⟨h1, h2⟩ | ⟨h1, h2⟩ <;> omega

theorem piece_of_mem {old b : List α} (h : r.Partial old b) {c : Change α} (hc : c ∈ r.changes b) :
    r.Piece old c := by
  rcases List.mem_append.mp hc with h1 | h1
  · by_cases hb : r.size < b.length
    · rw [if_pos hb, List.mem_singleton] at h1
      have := r.length_image_le old
      rw [h1]
      exact ⟨rfl, by rcases h.long with ⟨h2, _⟩ | ⟨_, h2⟩ <;> omega⟩
    · rw [if_neg hb] at h1; cases h1
  · obtain ⟨w, hw, rfl⟩ := List.mem_map.mp h1
    exact ⟨w, hw, rfl, le_rfl⟩

/-- A crash while the log is applied leaves a partial image. -/
theorem partial_of_survives {old : List α} : ∀ {cs : List (Change α)} {b b' : List α},
    Survives cs b b' → (∀ c ∈ cs, r.Piece old c) → r.Partial old b → r.Partial old b' := by
  intro cs b b' hs
  induction hs with
  | nil => exact fun _ h => h
  | lost _ ih => exact fun hc h => ih (fun c hm => hc c (List.mem_cons_of_mem _ hm)) h
  | made _ ih =>
    exact fun hc h => ih (fun c hm => hc c (List.mem_cons_of_mem _ hm))
      (r.partial_apply h (hc _ List.mem_cons_self))
  | @torn off data data' _ _ _ hd _ ih =>
    intro hc h
    obtain ⟨w, hw, he, hl⟩ := hc _ List.mem_cons_self
    exact ih (fun c hm => hc c (List.mem_cons_of_mem _ hm))
      (r.partial_apply (c := .pwrite off data') h ⟨w, hw, he, le_trans hd hl⟩)

/-- **Applying the log to a partial image gives the image.** -/
theorem image_of_partial {old b : List α} (h : r.Partial old b) : r.image b = r.image old := by
  have hE := r.extent_le_size
  have hL := r.length_image old
  refine ext_getD ?_ (getD_writeAll_congr _ _ _ fun i hi => ?_)
  · rw [length_image, length_image]
    rcases h.long with ⟨h1, h2⟩ | ⟨h1, h2⟩ <;> omega
  · have hbase : ∀ b : List α, (r.base b).getD i 0 = if i < r.size then b.getD i 0 else 0 := by
      intro b
      unfold base
      split
      · exact getD_ftruncate _ _ _
      · split
        · rfl
        · exact List.getD_eq_default _ _ (by omega)
    rw [hbase, hbase]
    split
    · rename_i hi'; exact h.keeps i hi' hi
    · rfl

theorem partial_image (old : List α) : r.Partial old (r.image old) := by
  rw [← r.foldl_changes]
  exact r.partial_of_survives (survives_all _ _) (fun c hc => r.piece_of_mem (r.partial_self old) hc)
    (r.partial_self old)

end Redo
end CrashFs
