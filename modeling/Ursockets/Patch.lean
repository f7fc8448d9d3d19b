/-
# Patches

What a patch of `events.c` is: its control block reads back as it was
written, the pages in its memory file are those its lines number, and
applying it is a redo log (`Whole.redo`). A patch that `_ce_patch_compose`
writes verifies, and its redo log turns the old image into the snapshot of
memory (`image_composed`).

Key definitions: `patchPages`, `composed`, `Whole`, `snapshotOf`.
Key theorems: `readControl_bytes`, `verifies_composed`, `patchApply_run`, `image_composed`.
-/
import Ursockets.Events
import Ursockets.Lib.Redo

namespace Ursockets
namespace Patch

open CrashFs Events Murmur3

/-! ### The control block -/

theorem bytesWord_wordBytes (w : UInt32) (b : List UInt8) : bytesWord (wordBytes w ++ b) = w := by
  show getblock _ _ _ _ = w
  have hw : ∀ i, 32 ≤ i → w.toNat.testBit i = false := fun i hi =>
    Nat.testBit_lt_two_pow (Nat.lt_of_lt_of_le w.toNat_lt (Nat.pow_le_pow_right (by omega) hi))
  apply UInt32.toNat_inj.mp
  refine Nat.eq_of_testBit_eq fun i => ?_
  simp only [getblock, UInt32.toNat_xor, UInt32.toNat_shiftLeft, UInt8.toNat_toUInt32,
    UInt32.toNat_toUInt8, UInt32.toNat_shiftRight, Nat.testBit_xor, Nat.testBit_mod_two_pow,
    Nat.testBit_shiftLeft, Nat.testBit_shiftRight, UInt32.reduceToNat, Nat.reduceMod]
  -- one byte of the four holds bit `i`
  rcases Nat.lt_or_ge i 32 with h | h
  · rcases Nat.lt_or_ge i 8 with h1 | h1
    · simp [h, h1, show ¬ 8 ≤ i by omega, show ¬ 16 ≤ i by omega, show ¬ 24 ≤ i by omega]
    · rcases Nat.lt_or_ge i 16 with h2 | h2
      · simp [h, h1, show ¬ i < 8 by omega, show i - 8 < 8 by omega, show ¬ 16 ≤ i by omega,
          show ¬ 24 ≤ i by omega, show 8 + (i - 8) = i by omega]
      · rcases Nat.lt_or_ge i 24 with h3 | h3
        · simp [h, h1, h2, show ¬ i < 8 by omega, show ¬ i - 8 < 8 by omega,
            show i - 16 < 8 by omega, show ¬ 24 ≤ i by omega, show 16 + (i - 16) = i by omega]
        · simp [h, h1, h2, h3, show ¬ i < 8 by omega, show ¬ i - 8 < 8 by omega,
            show ¬ i - 16 < 8 by omega, show i - 24 < 8 by omega, show 24 + (i - 24) = i by omega]
  · simp [hw i h, show ¬ i < 8 by omega, show ¬ i < 32 by omega]

@[simp] theorem length_wordBytes (w : UInt32) : (wordBytes w).length = 4 := rfl

@[simp] theorem length_lineBytes (l : Line) : l.bytes.length = 8 := rfl

theorem length_linesBytes (ls : List Line) : (ls.flatMap Line.bytes).length = 8 * ls.length := by
  induction ls with
  | nil => rfl
  | cons l ls ih => rw [List.flatMap_cons, List.length_append, ih, List.length_cons, length_lineBytes]; omega

theorem drop_wordBytes (w : UInt32) (b : List UInt8) : (wordBytes w ++ b).drop 4 = b := rfl

theorem bytesLines_flatMap : ∀ (ls : List Line) (b : List UInt8),
    bytesLines ls.length (ls.flatMap Line.bytes ++ b) = ls
  | [], _ => rfl
  | l :: ls, b => by
    have h1 : (l :: ls).flatMap Line.bytes ++ b =
        wordBytes l.pag ++ (wordBytes l.has ++ (ls.flatMap Line.bytes ++ b)) := by
      simp [Line.bytes]
    have h2 : ∀ b : List UInt8, b.drop 8 = (b.drop 4).drop 4 := fun b => by rw [List.drop_drop]
    rw [h1, List.length_cons, bytesLines, bytesWord_wordBytes, h2, drop_wordBytes, drop_wordBytes,
      bytesWord_wordBytes, bytesLines_flatMap ls b]

theorem length_bytes (con : Control) :
    con.bytes.length = sizeofControl + con.mem.length * sizeofLine := by
  simp only [Control.bytes, Control.body, List.length_append, length_wordBytes, length_linesBytes,
    sizeofControl, sizeofLine]
  omega

/-- The control block reads back as it was written. -/
theorem ofBytes_bytes {con : Control} (h : con.pgs.toNat = con.mem.length) :
    Control.ofBytes con.bytes = con := by
  have h1 : con.bytes = wordBytes con.ver ++ (wordBytes con.has ++ (wordBytes con.tot ++
      (wordBytes con.pgs ++ (con.mem.flatMap Line.bytes ++ [])))) := by
    simp [Control.bytes, Control.body]
  have h2 : ∀ b : List UInt8, b.drop 8 = (b.drop 4).drop 4 := fun b => by rw [List.drop_drop]
  have h3 : ∀ b : List UInt8, b.drop 12 = (b.drop 8).drop 4 := fun b => by rw [List.drop_drop]
  have h4 : ∀ b : List UInt8, b.drop sizeofControl = (b.drop 12).drop 4 := fun b => by
    rw [List.drop_drop]; rfl
  rw [Control.ofBytes, h4, h3, h2, h1]
  simp only [drop_wordBytes, bytesWord_wordBytes]
  rw [h, bytesLines_flatMap]

theorem readControl_bytes {con : Control} (h : con.pgs.toNat = con.mem.length)
    (hn : con.mem.length < 2 ^ 28) : readControl con.bytes = some con := by
  have hl := length_bytes con
  have h1 : con.bytes.length % 2 ^ 32 = con.bytes.length := by
    rw [hl]; simp only [sizeofControl, sizeofLine]; omega
  simp only [readControl, h1, List.take_length, ofBytes_bytes h]
  rw [if_neg (by rw [hl]; simp only [sizeofControl]; omega), if_neg (by rw [hl, h]; omega)]

/-! ### Pages -/

theorem cePage_pos : 0 < cePage := by decide

attribute [local irreducible] cePage

theorem ceLen_succ (i : ℕ) : ceLen (i + 1) = ceLen i + cePage := by
  simp only [ceLen, Nat.add_mul, Nat.one_mul]

theorem ceLen_le {i j : ℕ} : ceLen i ≤ ceLen j ↔ i ≤ j :=
  Nat.mul_le_mul_right_iff cePage_pos

theorem ceLen_lt {i j : ℕ} : ceLen i < ceLen j ↔ i < j :=
  Nat.mul_lt_mul_right cePage_pos

theorem ceLen_inj {i j : ℕ} (h : ceLen i = ceLen j) : i = j :=
  Nat.le_antisymm (ceLen_le.mp h.le) (ceLen_le.mp h.ge)

/-- The bytes of pages in a row. -/
def pagesBytes (ps : List Page) : List UInt8 := ps.flatMap fun p => p.1

@[simp] theorem pagesBytes_nil : pagesBytes [] = [] := rfl

theorem pagesBytes_cons (p : Page) (ps : List Page) : pagesBytes (p :: ps) = p.1 ++ pagesBytes ps :=
  rfl

theorem pagesBytes_append (ps qs : List Page) :
    pagesBytes (ps ++ qs) = pagesBytes ps ++ pagesBytes qs := by
  simp [pagesBytes]

theorem length_pagesBytes : ∀ ps : List Page, (pagesBytes ps).length = ceLen ps.length
  | [] => by simp [ceLen]
  | p :: ps => by
    rw [pagesBytes_cons, List.length_append, length_pagesBytes ps, p.2, List.length_cons, ceLen_succ]
    omega

theorem pread_pagesBytes : ∀ {ps : List Page} {i : ℕ} {p : Page}, ps[i]? = some p →
    pread cePage (ceLen i) (pagesBytes ps) = p.1
  | q :: ps, 0, p, h => by
    have hq : q = p := by simpa using h
    have h0 : ceLen 0 = 0 := by simp [ceLen]
    rw [pread, h0, List.drop_zero, pagesBytes_cons, hq]
    exact List.take_left' p.2
  | q :: ps, i + 1, p, h => by
    have h1 : ps[i]? = some p := by simpa using h
    have ih := pread_pagesBytes h1
    rw [← ih, pread, pread, pagesBytes_cons, ceLen_succ, Nat.add_comm, ← List.drop_drop]
    rw [List.drop_left' q.2]

/-- Page `i` of a content, byte by byte. -/
theorem getD_pageOf (b : List UInt8) (i : ℕ) {k : ℕ} (hk : k < cePage) :
    (pageOf b i).1.getD k 0 = b.getD (ceLen i + k) 0 := by
  show (ftruncate cePage (pread cePage (ceLen i) b)).getD k 0 = _
  rw [getD_ftruncate, if_pos hk, pread]
  simp only [List.getD_eq_getElem?_getD]
  rw [List.getElem?_take_of_lt hk, List.getElem?_drop]

theorem getD_pagesBytes : ∀ (ps : List Page) (i k : ℕ), k < cePage →
    (pagesBytes ps).getD (ceLen i + k) 0 = (ps.getD i Page.zero).1.getD k 0
  | [], i, k, hk => by
    rw [pagesBytes_nil, List.getD_nil, List.getD_nil]
    exact (List.getD_replicate 0 hk).symm
  | p :: ps, 0, k, hk => by
    have h0 : ceLen 0 = 0 := by simp [ceLen]
    rw [pagesBytes_cons, h0, Nat.zero_add, List.getD_append _ _ _ _ (by rw [p.2]; exact hk)]
    rfl
  | p :: ps, i + 1, k, hk => by
    rw [pagesBytes_cons, ceLen_succ,
      List.getD_append_right _ _ _ _ (by rw [p.2]; omega), p.2,
      show ceLen i + cePage + k - cePage = ceLen i + k by omega, getD_pagesBytes ps i k hk]
    rfl

/-! ### Whole patches -/

/-- The writes of a patch: page `i` of the memory file on, each at its line's
place. -/
def applyWrites (m : List UInt8) : ℕ → List Line → List (ℕ × List UInt8)
  | _, [] => []
  | i, l :: ls => (ceLen l.pag.toNat, pread cePage (ceLen i) m) :: applyWrites m (i + 1) ls

/-- A whole patch: the memory file has the pages of the lines, and they lie
below the size of the image. -/
structure Whole (con : Control) (m : List UInt8) : Prop where
  long : ceLen con.mem.length ≤ m.length
  below : ∀ l ∈ con.mem, l.pag.toNat < con.tot.toNat

theorem length_pread {m : List UInt8} {i n : ℕ} (h : ceLen n ≤ m.length) (hi : i < n) :
    (pread cePage (ceLen i) m).length = cePage := by
  have h1 : ceLen (i + 1) ≤ ceLen n := ceLen_le.mpr hi
  rw [ceLen_succ] at h1
  rw [pread, List.length_take, List.length_drop]
  omega

theorem applyWrites_page {m : List UInt8} : ∀ {ls : List Line} {i : ℕ},
    ceLen (i + ls.length) ≤ m.length → ∀ w ∈ applyWrites m i ls,
      w.2.length = cePage ∧ ∃ l ∈ ls, w.1 = ceLen l.pag.toNat
  | l :: ls, i, h, w, hw => by
    rcases List.mem_cons.mp hw with rfl | hw
    · exact ⟨length_pread h (by simp), l, List.mem_cons_self, rfl⟩
    · obtain ⟨h1, l', hl, h2⟩ := applyWrites_page (i := i + 1)
        (by rw [Nat.add_right_comm, Nat.add_assoc]; exact h) w hw
      exact ⟨h1, l', List.mem_cons_of_mem _ hl, h2⟩

/-- A whole patch as a redo log of the image. -/
def Whole.redo {con : Control} {m : List UInt8} (h : Whole con m) : Redo UInt8 where
  size := ceLen con.tot.toNat
  writes := applyWrites m 0 con.mem
  nonempty w hw := by
    have h1 := (applyWrites_page (by rw [Nat.zero_add]; exact h.long) w hw).1
    intro h2
    rw [h2] at h1
    exact absurd h1 cePage_pos.ne
  fits w hw := by
    obtain ⟨h1, l, hl, h2⟩ := applyWrites_page (by rw [Nat.zero_add]; exact h.long) w hw
    rw [h1, h2, ← ceLen_succ]
    exact ceLen_le.mpr (h.below l hl)

/-! ### Applying a patch -/

theorem applyPages_run {m : List UInt8} : ∀ {ls : List Line} {i : ℕ} {d : Dsk} {f : File UInt8},
    d .memory = some f → f.cur = m → ceLen (i + ls.length) ≤ m.length →
    applyPages i ls d =
      ((applyWrites m i ls).map fun w => .change .image (.pwrite w.1 w.2), some ())
  | [], _, _, _, _, _, _ => rfl
  | l :: ls, i, d, f, hd, hf, hm => by
    have hp := length_pread (i := i) (n := i + (l :: ls).length) hm (by simp)
    have hd1 : (Op.change .image (.pwrite (ceLen l.pag.toNat) (pread cePage (ceLen i) m))).apply d
        .memory = some f := by rw [apply_of_ne _ _ (by simp [Op.name])]; exact hd
    have hm1 : ceLen (i + 1 + ls.length) ≤ m.length := by
      rw [Nat.add_right_comm, Nat.add_assoc]; exact hm
    have ih := applyPages_run hd1 hf hm1
    rw [applyPages, Prog.bind_some (Prog.look_run _ _)]
    simp only [applyAll_nil, hd, hf, hp, ne_eq, not_true_eq_false, if_false]
    rw [Prog.bind_some (Prog.perform_run _ _), applyAll_cons, applyAll_nil, ih]
    rfl

/-- Applying a whole patch to an image that is counted `old` pages. -/
theorem patchApply_ops {con : Control} {m : List UInt8} (old : ℕ) {d : Dsk} {f : File UInt8}
    (h : Whole con m) (hd : d .memory = some f) (hf : f.cur = m) :
    patchApply old con d =
      ((if con.tot.toNat < old then [.change .image (.ftruncate (ceLen con.tot.toNat))] else []) ++
          h.redo.writes.map fun w => .change .image (.pwrite w.1 w.2),
        some con.tot.toNat) := by
  have hrun : ∀ d' : Dsk, d' .memory = some f → (do applyPages 0 con.mem; pure con.tot.toNat : Io ℕ) d' =
      (h.redo.writes.map fun w => .change .image (.pwrite w.1 w.2), some con.tot.toNat) := by
    intro d' hd'
    rw [Prog.bind_some (applyPages_run hd' hf (by rw [Nat.zero_add]; exact h.long))]
    simp [Whole.redo]
  rw [patchApply, imageResize]
  split
  · rw [Prog.bind_some (Prog.perform_run _ _), hrun _
      (by rw [applyAll_cons, applyAll_nil, apply_of_ne _ _ (by simp [Op.name])]; exact hd)]
  · rw [Prog.bind_some (Prog.pure_run _ _), applyAll_nil, hrun d hd]

/-- The count of the image's pages that decides whether it is cut is right. -/
def Counted (con : Control) (old : ℕ) (b : List UInt8) : Prop :=
  con.tot.toNat < old ↔ ceLen con.tot.toNat < b.length

/-- Applying a whole patch makes the changes of its redo log. -/
theorem patchApply_run {con : Control} {m b : List UInt8} {old : ℕ} {d : Dsk} {f : File UInt8}
    (h : Whole con m) (hd : d .memory = some f) (hf : f.cur = m) (hb : Counted con old b) :
    patchApply old con d = ((h.redo.changes b).map (.change .image), some con.tot.toNat) := by
  rw [patchApply_ops old h hd hf]
  by_cases h1 : con.tot.toNat < old
  · have h2 : h.redo.size < b.length := hb.mp h1
    rw [if_pos h1, Redo.changes, if_pos h2]
    simp [Whole.redo, Function.comp_def]
  · have h2 : ¬ h.redo.size < b.length := fun h2 => h1 (hb.mpr h2)
    rw [if_neg h1, Redo.changes, if_neg h2]
    simp [Function.comp_def]

/-! ### The patch of a save -/

/-- The pages of memory a save keeps, below the top of the heap. -/
def norPage (low : UInt32) : ℕ := (low.toNat + (2 ^ u3aPage - 1)) >>> u3aPage

theorem norPage_le (low : UInt32) : norPage low ≤ 2 ^ 20 := by
  have h := low.toNat_lt
  rw [norPage, u3aPage, Nat.shiftRight_eq_div_pow]
  omega

/-- Page `i` of memory is a free page of the heap. -/
def isFree (p : Proc) (i : ℕ) : Bool :=
  let off := p.loom.rut.toNat >>> u3aPage
  off ≤ i ∧ i - off < p.loom.len ∧ p.loom.dir (i - off) = u3aFreePg

/-- Page `i` goes into the patch: it is dirty and no free page of the heap. -/
def inPatch (p : Proc) (i : ℕ) : Bool := p.pool.dit i && !isFree p i

/-- The pages of the patch, in order. -/
def patchPages (p : Proc) (max : ℕ) : List ℕ := (List.range max).filter (inPatch p)

def patchLine (p : Proc) (i : ℕ) : Line := ⟨UInt32.ofNat i, ceMukPage (p.loom.page i).1⟩

/-- The content of the patch's memory file. -/
def patchMemory (p : Proc) (max : ℕ) : List UInt8 :=
  pagesBytes ((patchPages p max).map p.loom.page)

/-- The control block of the patch, less its checksum. -/
def unsigned (p : Proc) (max : ℕ) : Control :=
  ⟨u3pVerlat, 0, UInt32.ofNat max, UInt32.ofNat (patchPages p max).length,
    (patchPages p max).map (patchLine p)⟩

/-- The control block of the patch. -/
def composed (p : Proc) (max : ℕ) : Control :=
  { unsigned p max with has := ceMukBuf (unsigned p max).body }

/-- The changes that append pages to a file of `i` pages. -/
def appendChanges : ℕ → List Page → List (Change UInt8)
  | _, [] => []
  | i, p :: ps => .pwrite (ceLen i) p.1 :: appendChanges (i + 1) ps

/-- What the patch is written with. -/
def composeOps (p : Proc) (max : ℕ) : List (Op Nam UInt8) :=
  [.creat .control, .creat .memory] ++
    ((appendChanges 0 ((patchPages p max).map p.loom.page)).map (.change .memory) ++
      [.change .control (.pwrite 0 (composed p max).bytes)])

theorem length_patchPages_le (p : Proc) (max : ℕ) : (patchPages p max).length ≤ max := by
  have h := List.length_filter_le (inPatch p) (List.range max)
  rwa [List.length_range] at h

theorem patchCountPage_eq (p : Proc) (i n : ℕ) :
    patchCountPage p i (p.loom.rut.toNat >>> u3aPage) n = if inPatch p i then n + 1 else n := by
  simp only [patchCountPage, inPatch, isFree]
  congr 1
  simp only [Bool.and_eq_true, Bool.not_eq_true', decide_eq_false_iff_not, eq_iff_iff]
  refine and_congr_right fun _ => ?_
  simp only [not_and_or, Nat.not_le, Nat.not_lt, ne_eq]

theorem foldl_patchCountPage (p : Proc) : ∀ (is : List ℕ) (n : ℕ),
    is.foldl (fun n i => patchCountPage p i (p.loom.rut.toNat >>> u3aPage) n) n =
      n + (is.filter (inPatch p)).length
  | [], _ => rfl
  | i :: is, n => by
    rw [List.foldl_cons, foldl_patchCountPage p is, patchCountPage_eq]
    by_cases h : inPatch p i
    · rw [if_pos h, List.filter_cons_of_pos h, List.length_cons]; omega
    · rw [if_neg h, List.filter_cons_of_neg h]

theorem patchSavePage_pos {p : Proc} {i : ℕ} (h : inPatch p i) (n : ℕ) (mem : List Line) (d : Dsk) :
    patchSavePage p i (p.loom.rut.toNat >>> u3aPage) n mem d =
      ([.change .memory (.pwrite (ceLen n) (p.loom.page i).1)], some (n + 1, mem ++ [patchLine p i])) := by
  simp only [inPatch, isFree, Bool.and_eq_true, Bool.not_eq_true', decide_eq_false_iff_not] at h
  rw [patchSavePage, if_pos h.1, if_neg h.2, patchWritePage, Prog.bind_some (Prog.perform_run _ _)]
  rfl

theorem patchSavePage_neg {p : Proc} {i : ℕ} (h : ¬ inPatch p i) (n : ℕ) (mem : List Line) (d : Dsk) :
    patchSavePage p i (p.loom.rut.toNat >>> u3aPage) n mem d = ([], some (n, mem)) := by
  rw [patchSavePage]
  split
  · rename_i h1
    rw [if_pos (by simpa [inPatch, isFree, h1] using h)]
    rfl
  · rfl

theorem patchSavePages_run (p : Proc) : ∀ (is : List ℕ) (n : ℕ) (mem : List Line) (d : Dsk),
    patchSavePages p (p.loom.rut.toNat >>> u3aPage) is n mem d =
      ((appendChanges n ((is.filter (inPatch p)).map p.loom.page)).map (.change .memory),
        some (n + (is.filter (inPatch p)).length, mem ++ (is.filter (inPatch p)).map (patchLine p)))
  | [], n, mem, d => by simp [patchSavePages, appendChanges]
  | i :: is, n, mem, d => by
    by_cases h : inPatch p i
    · rw [patchSavePages, Prog.bind_some (patchSavePage_pos h n mem d)]
      simp only [patchSavePages_run p is]
      rw [List.filter_cons_of_pos h]
      simp [appendChanges, Nat.add_assoc, Nat.add_comm 1]
    · rw [patchSavePages, Prog.bind_some (patchSavePage_neg h n mem d)]
      simp only [patchSavePages_run p is]
      rw [List.filter_cons_of_neg h]
      simp

theorem creatExcl_none {n : Nam} {d : Dsk} (h : d n = none) :
    creatExcl n d = ([.creat n], some ()) := by
  rw [creatExcl, Prog.bind_some (Prog.look_run _ _), h]
  rfl

theorem creatExcl_some {n : Nam} {d : Dsk} (h : d n ≠ none) : creatExcl n d = ([], none) := by
  obtain ⟨f, hf⟩ := Option.ne_none_iff_exists'.mp h
  rw [creatExcl, Prog.bind_some (Prog.look_run _ _), hf]
  rfl

theorem patchCreate_run {d : Dsk} (hc : d .control = none) : patchCreate d =
    if d .memory = none then ([.creat .control, .creat .memory], some ())
    else ([.creat .control], none) := by
  have hm : applyAll d [.creat .control] .memory = d .memory := by
    rw [applyAll_cons, applyAll_nil, apply_of_ne _ _ (by simp [Op.name])]
  rw [patchCreate, Prog.bind_some (creatExcl_none hc)]
  split
  · rename_i h; rw [creatExcl_none (by rw [hm]; exact h)]; rfl
  · rename_i h; rw [creatExcl_some (by rw [hm]; exact h)]; rfl

/-- Composing a patch: nothing if there is nothing to write; else the files are
written if neither is there, and else it aborts. -/
theorem patchCompose_run (p : Proc) (max : ℕ) {d : Dsk} (hc : d .control = none) :
    patchCompose p max d =
      if patchPages p max = [] then ([], some none)
      else if d .memory = none then (composeOps p max, some (some (composed p max)))
      else ([.creat .control], none) := by
  have hn : (List.range max).foldl
      (fun n i => patchCountPage p i (p.loom.rut.toNat >>> u3aPage) n) 0 =
        (patchPages p max).length := by
    rw [foldl_patchCountPage, Nat.zero_add, patchPages]
  simp only [patchCompose, hn, List.length_eq_zero_iff]
  split
  · rfl
  · split
    · rename_i hm
      rw [Prog.bind_some (by rw [patchCreate_run hc, if_pos hm]),
        Prog.bind_some (patchSavePages_run p _ 0 [] _)]
      have hf : (List.range max).filter (inPatch p) = patchPages p max := rfl
      simp only [Nat.zero_add, List.nil_append, hf, ne_eq, not_true_eq_false, if_false]
      rw [patchWriteControl, Prog.bind_some (Prog.perform_run _ _)]
      simp [composeOps, composed, unsigned]
    · rename_i hm
      rw [Prog.bind_none (by rw [patchCreate_run hc, if_neg hm])]

/-! ### The patch is whole and verifies -/

theorem foldl_appendChanges : ∀ (ps qs : List Page),
    (appendChanges qs.length ps).foldl (fun b c => c.apply b) (pagesBytes qs) =
      pagesBytes (qs ++ ps)
  | [], qs => by simp [appendChanges]
  | p :: ps, qs => by
    have h1 : pwrite (ceLen qs.length) p.1 (pagesBytes qs) = pagesBytes (qs ++ [p]) := by
      have hp : p.1 ≠ [] := fun h => by
        have := p.2
        rw [h] at this
        exact cePage_pos.ne this
      rw [pagesBytes_append, ← length_pagesBytes, pwrite_length _ hp]
      simp [pagesBytes_cons]
    have ih := foldl_appendChanges ps (qs ++ [p])
    rw [List.length_append, List.length_singleton] at ih
    rw [appendChanges, List.foldl_cons, Change.apply_pwrite, h1, ih, List.append_assoc]
    rfl

theorem verifyPages_pagesBytes (p : Proc) : ∀ (is : List ℕ) (qs : List Page),
    verifyPages (pagesBytes (qs ++ is.map p.loom.page)) qs.length (is.map (patchLine p)) = true
  | [], _ => rfl
  | i :: is, qs => by
    have h1 : pread cePage (ceLen qs.length) (pagesBytes (qs ++ (i :: is).map p.loom.page)) =
        (p.loom.page i).1 := by
      refine pread_pagesBytes ?_
      simp
    have ih := verifyPages_pagesBytes p is (qs ++ [p.loom.page i])
    rw [List.length_append, List.length_singleton, List.append_assoc] at ih
    rw [List.map_cons (f := patchLine p), verifyPages, h1, if_neg (by rw [(p.loom.page i).2]; simp),
      if_neg (by simp [patchLine])]
    exact ih

theorem patchMemory_long (p : Proc) (max : ℕ) :
    ceLen (composed p max).mem.length = (patchMemory p max).length := by
  rw [patchMemory, length_pagesBytes]
  simp [composed, unsigned]

/-- The patch of a save verifies. -/
theorem verifies_composed (p : Proc) (max : ℕ) :
    verifies (composed p max) (patchMemory p max) = true := by
  have h1 := verifyPages_pagesBytes p (patchPages p max) []
  rw [verifies, if_neg (by simp [composed, unsigned]), if_neg (by simp [composed, Control.body])]
  exact h1

theorem toNat_ofNat_of_le {n : ℕ} (h : n ≤ 2 ^ 20) : (UInt32.ofNat n).toNat = n :=
  UInt32.toNat_ofNat_of_lt' (Nat.lt_of_le_of_lt h (by decide))

theorem composed_tot {p : Proc} {max : ℕ} (h : max ≤ 2 ^ 20) : (composed p max).tot.toNat = max :=
  toNat_ofNat_of_le h

theorem mem_patchPages {p : Proc} {max i : ℕ} : i ∈ patchPages p max ↔ i < max ∧ inPatch p i := by
  rw [patchPages, List.mem_filter, List.mem_range]

theorem whole_composed {p : Proc} {max : ℕ} (h : max ≤ 2 ^ 20) :
    Whole (composed p max) (patchMemory p max) := by
  refine ⟨(patchMemory_long p max).le, fun l hl => ?_⟩
  obtain ⟨i, hi, rfl⟩ := List.mem_map.mp hl
  have hi1 := (mem_patchPages.mp hi).1
  rw [composed_tot h]
  show (UInt32.ofNat i).toNat < max
  rwa [toNat_ofNat_of_le (by omega)]

theorem readControl_composed {p : Proc} {max : ℕ} (h : max ≤ 2 ^ 20) :
    readControl (composed p max).bytes = some (composed p max) := by
  have hl := length_patchPages_le p max
  refine readControl_bytes ?_ ?_
  · show (UInt32.ofNat _).toNat = ((patchPages p max).map (patchLine p)).length
    rw [toNat_ofNat_of_le (by omega), List.length_map]
  · show ((patchPages p max).map (patchLine p)).length < _
    rw [List.length_map]; omega

/-! ### The snapshot a save makes -/

/-- The snapshot of memory: the pages of the patch as they are, the others as
in the old one. -/
def snapshotOf (p : Proc) (max : ℕ) (old : List UInt8) : List UInt8 :=
  pagesBytes ((List.range max).map fun i => if inPatch p i then p.loom.page i else pageOf old i)

theorem length_snapshotOf (p : Proc) (max : ℕ) (old : List UInt8) :
    (snapshotOf p max old).length = ceLen max := by
  rw [snapshotOf, length_pagesBytes, List.length_map, List.length_range]

theorem applyWrites_composed {p : Proc} : ∀ (is : List ℕ) (qs : List Page), (∀ i ∈ is, i < 2 ^ 20) →
    applyWrites (pagesBytes (qs ++ is.map p.loom.page)) qs.length (is.map (patchLine p)) =
      is.map fun i => (ceLen i, (p.loom.page i).1)
  | [], _, _ => rfl
  | i :: is, qs, h => by
    have h1 : pread cePage (ceLen qs.length) (pagesBytes (qs ++ (i :: is).map p.loom.page)) =
        (p.loom.page i).1 := by
      refine pread_pagesBytes ?_
      simp
    have ih := applyWrites_composed (p := p) is (qs ++ [p.loom.page i])
      fun j hj => h j (List.mem_cons_of_mem _ hj)
    rw [List.length_append, List.length_singleton, List.append_assoc] at ih
    rw [List.map_cons (f := patchLine p), applyWrites, h1, List.map_cons]
    congr 1
    rw [show (patchLine p i).pag.toNat = i from toNat_ofNat_of_le (h i List.mem_cons_self).le]

theorem getD_writeAll_pages (f : ℕ → Page) : ∀ (is : List ℕ) (b : List UInt8) (j k : ℕ),
    k < cePage → (writeAll (is.map fun i => (ceLen i, (f i).1)) b).getD (ceLen j + k) 0 =
      if j ∈ is then (f j).1.getD k 0 else b.getD (ceLen j + k) 0
  | [], _, _, _, _ => by simp [writeAll]
  | i :: is, b, j, k, hk => by
    show (writeAll _ (pwrite (ceLen i) (f i).1 b)).getD _ _ = _
    rw [getD_writeAll_pages f is _ j k hk, getD_pwrite, (f i).2]
    by_cases hj : j ∈ is
    · rw [if_pos hj, if_pos (List.mem_cons_of_mem _ hj)]
    · rw [if_neg hj]
      by_cases hij : j = i
      · subst hij
        rw [if_pos ⟨by omega, by omega⟩, if_pos List.mem_cons_self]
        congr 1; omega
      · rw [if_neg (fun h => (List.mem_cons.mp h).elim hij hj), if_neg]
        rintro ⟨h1, h2⟩
        -- two pages that overlap are one
        rcases Nat.lt_or_gt_of_ne hij with h3 | h3
        · have := ceLen_le.mpr (show j + 1 ≤ i from h3)
          rw [ceLen_succ] at this; omega
        · have := ceLen_le.mpr (show i + 1 ≤ j from h3)
          rw [ceLen_succ] at this; omega

theorem writes_composed {p : Proc} {max : ℕ} (h : max ≤ 2 ^ 20) :
    (whole_composed (p := p) h).redo.writes =
      (patchPages p max).map fun i => (ceLen i, (p.loom.page i).1) :=
  applyWrites_composed (patchPages p max) [] fun i hi => by
    have := (mem_patchPages.mp hi).1
    omega

/-- **The patch of a save turns the old image into the snapshot of memory**, if
the last page of memory above the old image goes into it. -/
theorem image_composed {p : Proc} {max pgs : ℕ} {old : List UInt8} (h : max ≤ 2 ^ 20)
    (hold : old.length = ceLen pgs) (htop : pgs < max → inPatch p (max - 1)) :
    (whole_composed (p := p) h).redo.image old = snapshotOf p max old := by
  set r := (whole_composed (p := p) h).redo with hr
  have hsize : r.size = ceLen max := by
    show ceLen (composed p max).tot.toNat = _
    rw [composed_tot h]
  have hw : r.writes = (patchPages p max).map fun i => (ceLen i, (p.loom.page i).1) :=
    writes_composed h
  have hlen : (r.image old).length = ceLen max := by
    have hE := r.extent_le_size
    rw [r.length_image, hold, hsize]
    rw [hsize] at hE
    rcases Nat.lt_or_ge pgs max with h1 | h1
    · have h2 : extent r.writes ≥ ceLen max := by
        have h3 : max - 1 ∈ patchPages p max := mem_patchPages.mpr ⟨by omega, htop h1⟩
        have h4 : (ceLen (max - 1), (p.loom.page (max - 1)).1) ∈ r.writes := by
          rw [hw]; exact List.mem_map.mpr ⟨_, h3, rfl⟩
        have h5 := le_extent h4
        simp only [(p.loom.page (max - 1)).2, ← ceLen_succ] at h5
        rwa [show max - 1 + 1 = max by omega] at h5
      omega
    · have := ceLen_le.mpr h1
      omega
  refine ext_getD (by rw [hlen, length_snapshotOf]) fun i => ?_
  rcases Nat.lt_or_ge i (ceLen max) with h1 | h1
  · obtain ⟨j, k, hk, rfl⟩ : ∃ j k, k < cePage ∧ i = ceLen j + k :=
      ⟨i / cePage, i % cePage, Nat.mod_lt _ cePage_pos, by
        rw [ceLen, Nat.mul_comm]; exact (Nat.div_add_mod _ _).symm⟩
    have hj : j < max := ceLen_lt.mp (by omega)
    have hbase : (r.base old).getD (ceLen j + k) 0 = old.getD (ceLen j + k) 0 := by
      unfold Redo.base
      split
      · rw [getD_ftruncate, hsize, if_pos h1]
      · rfl
    rw [Redo.image, hw, getD_writeAll_pages _ _ _ _ _ hk, hbase, snapshotOf, getD_pagesBytes _ _ _ hk]
    have h2 : ((List.range max).map fun i => if inPatch p i then p.loom.page i else pageOf old i).getD
        j Page.zero = if inPatch p j then p.loom.page j else pageOf old j := by
      simp [List.getD_eq_getElem?_getD, hj]
    rw [h2]
    by_cases h3 : inPatch p j
    · rw [if_pos (mem_patchPages.mpr ⟨hj, h3⟩), if_pos h3]
    · rw [if_neg fun h => h3 (mem_patchPages.mp h).2, if_neg h3, getD_pageOf _ _ hk]
  · rw [List.getD_eq_default _ _ (by omega),
      List.getD_eq_default _ _ (by rw [length_snapshotOf]; omega)]

end Patch
end Ursockets
