/-
# Recovery from a crash

From a recoverable disk a boot (`u3e_live`) brings the image to the snapshot
it must be, at every crash point the disk stays recoverable, and the patch's
control file is gone. The memory file is gone too unless it was there without
a control file, which is what a crash between the two removals of
`_ce_patch_delete` leaves, and what no boot removes (`save_after_crash_iff`).

`Reach` is the system: boots, changes of memory, saves, and crashes in saves
and boots, from an empty directory on.

Key definitions: `Reach`, `Called`, `BetweenUnlinks`.
Key theorems: `u3eLive_run`, `reach_inv`, `save_crash_consistent`, `save_after_crash_iff`.
-/
import Ursockets.Snapshot

namespace Ursockets
namespace Recovery

open CrashFs Events Patch Snapshot

/-! ### A boot -/

theorem imageStat_paged {b : List UInt8} {n : ℕ} (h : b.length = ceLen n) (hn : n < 2 ^ 32) :
    imageStat b = (.good, n) := by
  have hpos := cePage_pos
  have hsh : (b.length + (cePage - 1)) >>> (u3aPage + 2) = n := by
    rw [h, ceLen, Nat.shiftRight_eq_div_pow]
    show (n * 16384 + 16383) / 16384 = n
    omega
  simp only [imageStat, hsh]
  split
  · rename_i h1
    have : n = 0 := by
      rw [h, ceLen, Nat.mul_eq_zero] at h1
      omega
    rw [this]
  · rw [if_neg (by rw [h]; simp), if_neg (by omega)]

theorem imageStat_le (b : List UInt8) : ceLen (imageStat b).2 ≤ b.length := by
  simp only [imageStat]
  split
  · simp [ceLen]
  · split
    · simp [ceLen]
    · rename_i h
      split
      · simp [ceLen]
      · exact (Decidable.not_not.mp h).ge

theorem imageStat_fail {b : List UInt8} (h : (imageStat b).1 = .fail) : ceLen (2 ^ 32) ≤ b.length := by
  simp only [imageStat] at h
  split at h
  · cases h
  · split at h
    · cases h
    · rename_i h1
      split at h
      · rename_i h2
        rw [Decidable.not_not.mp h1]
        exact ceLen_le.mpr (by omega)
      · cases h

/-- Whatever the image's size, its pages count right for the patch that was
being applied to it. -/
theorem counted_of_partial {con : Control} {m old b : List UInt8} {n : ℕ} (w : Whole con m)
    (hp : w.redo.Partial old b) (hl : old.length = ceLen n) (hn : n < 2 ^ 32) :
    Counted con (imageStat b).2 b := by
  have h1 : w.redo.size = ceLen con.tot.toNat := rfl
  have h2 := w.redo.length_image_le old
  have h3 := imageStat_le b
  rcases hp.long with ⟨h4, h5⟩ | ⟨h4, h5⟩
  · rw [imageStat_paged (h5.trans hl) hn]
    exact counted_of_paged (h5.trans hl)
  · rw [h1] at h2
    refine ⟨fun h => ?_, fun h => by omega⟩
    have := ceLen_lt.mpr h
    omega

theorem imageStat_partial {con : Control} {m old b : List UInt8} {n : ℕ} (w : Whole con m)
    (hp : w.redo.Partial old b) (hl : old.length = ceLen n) (hn : n < 2 ^ 32) :
    (imageStat b).1 ≠ .fail := by
  intro h
  have h1 : w.redo.size = ceLen con.tot.toNat := rfl
  have h2 := w.redo.length_image_le old
  have h3 := imageStat_fail h
  have h4 := ceLen_lt.mpr con.tot.toNat_lt
  have h5 := ceLen_lt.mpr hn
  rcases hp.long with ⟨_, h6⟩ | ⟨_, h6⟩ <;> omega

theorem imageOpen_run (d : Dsk) {b : List UInt8}
    (hi : d .image = some ⟨b, []⟩ ∨ d .image = none ∧ b = []) :
    imageOpen d = (if d .image = none then [.creat .image] else [], some (imageStat b)) := by
  rw [imageOpen, Prog.bind_some (Prog.look_run _ _), applyAll_nil]
  rcases hi with hi | ⟨hi, rfl⟩
  · rw [hi]; rfl
  · rw [hi]
    simp only []
    rw [Prog.bind_some (Prog.perform_run _ _)]
    rfl

theorem lookImage_run {d : Dsk} {b : List UInt8} (hi : d .image = some ⟨b, []⟩) :
    lookImage d = ([], some b) := by
  rw [lookImage, Prog.bind_some (Prog.look_run _ _), applyAll_nil, hi]
  rfl

theorem u3eLive_of (pag : ℕ) {img : List UInt8} {n pgs : ℕ} {sat : ImgStat} {d : Dsk}
    {l l' : List (Op Nam UInt8)} (ho : imageOpen d = (l, some (sat, pgs))) (hf : sat ≠ .fail)
    (hp : u3eLivePatch sat pgs (applyAll d l) = (l', some n))
    (hi : applyAll d (l ++ l') .image = some ⟨img, []⟩) :
    u3eLive pag d = (l ++ l', if pag ≤ n + 1 then none else some (liveProc pag n img)) := by
  rw [applyAll_append] at hi
  rw [u3eLive, Prog.bind_some ho]
  simp only [if_neg hf]
  rw [Prog.bind_some hp]
  split
  · rw [Prog.halt_run, List.append_nil]
  · rw [Prog.bind_some (lookImage_run hi)]
    simp

theorem patchOf_none {d d' : Dsk} (h : patchOf d = none) (hc : d' .control = d .control)
    (hm : d' .memory = d .memory) : patchOf d' = none := by
  rw [patchOf, hc, hm]; exact h

/-- What a boot does: operations on the image, and then it may delete the patch. -/
def LiveOps (l : List (Op Nam UInt8)) : Prop :=
  ∃ l0 : List (Op Nam UInt8), (∀ o ∈ l0, o.name = .image) ∧ (l = l0 ∨ l = l0 ++ deleteOps)

/-- A boot that finds no patch keeps the image. -/
theorem u3eLive_clean (pag : ℕ) {img : List UInt8} {n : ℕ} {d : Dsk}
    (hs : ∀ n f, d n = some f → f.pend = [])
    (hi : d .image = some ⟨img, []⟩ ∨ d .image = none ∧ img = []) (hp : patchOf d = none)
    (hl : img.length = ceLen n) (hn : n < 2 ^ 32) :
    ∃ l, u3eLive pag d = (l, if pag ≤ n + 1 then none else some (liveProc pag n img)) ∧
      Always (Recoverable img) d l ∧ LiveOps l ∧
      applyAll d l .image = some ⟨img, []⟩ ∧ applyAll d l .control = none ∧
      applyAll d l .memory = if d .control = none then d .memory else none := by
  set l : List (Op Nam UInt8) := if d .image = none then [.creat .image] else [] with hle
  set d1 := applyAll d l with hd1
  -- the image is opened
  have ho : imageOpen d = (l, some (.good, n)) := by
    rw [imageOpen_run d hi, imageStat_paged hl hn]
  have hopen : d1 .image = some ⟨img, []⟩ ∧ d1 .control = d .control ∧ d1 .memory = d .memory := by
    rw [hd1, hle]
    rcases hi with hi | ⟨hi, rfl⟩
    · rw [if_neg (by rw [hi]; simp)]; exact ⟨hi, rfl, rfl⟩
    · rw [if_pos hi]; exact ⟨rfl, rfl, rfl⟩
  obtain ⟨hi1, hc1, hm1⟩ := hopen
  have hs1 : ∀ n f, d1 n = some f → f.pend = [] := by
    intro n f hf
    cases n with
    | control => exact hs .control f (hc1 ▸ hf)
    | memory => exact hs .memory f (hm1 ▸ hf)
    | image => rw [hi1] at hf; cases hf; rfl
  have hp1 := patchOf_none hp hc1 hm1
  have hgood : ∀ d' : Dsk, d' .image = d1 .image → (d' .control = d1 .control ∨ d' .control = none) →
      (d' .memory = d1 .memory ∨ d' .memory = none) → Recoverable img d' := by
    intro d' h1 h2 h3
    refine .clean (fun n f hf => ?_) (.inl (h1.trans hi1)) ?_
    · cases n with
      | control =>
        rcases h2 with h2 | h2
        · exact hs1 .control f (h2 ▸ hf)
        · rw [h2] at hf; cases hf
      | memory =>
        rcases h3 with h3 | h3
        · exact hs1 .memory f (h3 ▸ hf)
        · rw [h3] at hf; cases hf
      | image => exact hs1 .image f (h1 ▸ hf)
    · rcases h2 with h2 | h2
      · rcases h3 with h3 | h3
        · exact patchOf_none hp1 h2 h3
        · rw [patchOf, h3]; cases d' .control <;> rfl
      · rw [patchOf, h2]
  -- a patch that is no patch is deleted
  set l' := if d .control ≠ none then deleteOps else [] with hle'
  have hpatch : u3eLivePatch .good n d1 = (l', some n) := by
    have h1 := patchOpen_run d1
    simp only [hp1, hc1, and_true] at h1
    rw [← hle'] at h1
    rw [u3eLivePatch, Prog.bind_some h1]
    simp
  have hd : applyAll d (l ++ l') .image = some ⟨img, []⟩ ∧ applyAll d (l ++ l') .control = none ∧
      applyAll d (l ++ l') .memory = if d .control = none then d .memory else none := by
    rw [applyAll_append, ← hd1, hle']
    by_cases hc : d .control = none
    · rw [if_neg fun h => h hc, if_pos hc]
      exact ⟨hi1, hc1.trans hc, hm1⟩
    · rw [if_pos hc, if_neg hc]
      exact ⟨hi1, rfl, rfl⟩
  refine ⟨l ++ l', u3eLive_of pag ho (by simp) hpatch hd.1, always_append ?_ ?_, ⟨l, ?_, ?_⟩, hd⟩
  · by_cases hn1 : d .image = none
    · have hd1' : d1 = (Op.creat .image).apply d := by rw [hd1, hle, if_pos hn1]; rfl
      rw [hle, if_pos hn1]
      refine always_cons (.clean hs hi hp) (always_nil ?_)
      rw [← hd1']
      exact hgood _ rfl (.inl rfl) (.inl rfl)
    · rw [hle, if_neg hn1]
      exact always_nil (.clean hs hi hp)
  · rw [← hd1, hle']
    split
    · exact always_cons (hgood _ rfl (.inl rfl) (.inl rfl))
        (always_cons (hgood _ rfl (.inr rfl) (.inl rfl)) (always_nil (hgood _ rfl (.inr rfl) (.inr rfl))))
    · exact always_nil (hgood _ rfl (.inl rfl) (.inl rfl))
  · rw [hle]
    split <;> simp [Op.name]
  · rw [hle']
    split
    · exact .inr rfl
    · exact .inl (List.append_nil _)

/-- A boot that finds a patch applies it. -/
theorem u3eLive_patch (pag : ℕ) {c m old b : List UInt8} {con : Control} {n k : ℕ} {d : Dsk}
    (v : Valid c m con) (hd : OnDisk c m d) (hi : d .image = some ⟨b, []⟩)
    (hp : v.whole.redo.Partial old b) (ho : old.length = ceLen k) (hk : k < 2 ^ 32)
    (hl : (v.whole.redo.image old).length = ceLen con.tot.toNat) (htot : con.tot.toNat = n) :
    ∃ l, u3eLive pag d =
        (l, if pag ≤ n + 1 then none else some (liveProc pag n (v.whole.redo.image old))) ∧
      Always (Recoverable (v.whole.redo.image old)) d l ∧ LiveOps l ∧
      applyAll d l .image = some ⟨v.whole.redo.image old, []⟩ ∧ applyAll d l .control = none ∧
      applyAll d l .memory = none := by
  have hcount := counted_of_partial v.whole hp ho hk
  have happ := patchApply_run v.whole hd.memory rfl hcount
  have hstat := imageStat_partial v.whole hp ho hk
  set r := v.whole.redo with hr
  have hopen : imageOpen d = ([], some ((imageStat b).1, (imageStat b).2)) := by
    rw [imageOpen_run d (.inl hi), hi]; rfl
  have hpatch : u3eLivePatch (imageStat b).1 (imageStat b).2 (applyAll d []) =
      (redoOps (r.changes b), some n) := by
    have h1 := patchOpen_run d
    rw [patchOf_onDisk v hd, if_neg (by simp)] at h1
    rw [applyAll_nil, u3eLivePatch, Prog.bind_some h1, applyAll_nil]
    simp only []
    rw [Prog.bind_some happ, Prog.bind_some (Prog.perform_run _ _),
      Prog.bind_some (patchDelete_run _), htot]
    simp [redoOps]
  have himg := redoOps_image hi (r.changes b)
  rw [r.foldl_changes, r.image_of_partial hp] at himg
  obtain ⟨h1, h2⟩ := redoOps_gone (r.changes b) d
  refine ⟨[] ++ redoOps (r.changes b), u3eLive_of pag hopen hstat hpatch himg,
    always_redo v hd hi hp ho hk hl, ⟨(r.changes b).map (.change .image) ++ [.fsync .image], ?_, ?_⟩,
    himg, h1, h2⟩
  · simp only [List.mem_append, List.mem_map, List.mem_singleton]
    rintro o (⟨c, -, rfl⟩ | rfl) <;> rfl
  · simp [redoOps]

/-- **A boot from a recoverable disk brings the image to its snapshot**, if it
fits the loom, and removes the control file. The memory file goes with it. -/
theorem u3eLive_run (pag : ℕ) {img : List UInt8} {n : ℕ} {d : Dsk} (h : Recoverable img d)
    (hs : ∀ n f, d n = some f → f.pend = []) (hl : img.length = ceLen n) (hn : n < 2 ^ 32) :
    ∃ l, u3eLive pag d = (l, if pag ≤ n + 1 then none else some (liveProc pag n img)) ∧
      Always (Recoverable img) d l ∧ LiveOps l ∧
      applyAll d l .image = some ⟨img, []⟩ ∧ applyAll d l .control = none ∧
      applyAll d l .memory = if d .control = none then d .memory else none := by
  cases h with
  | clean _ hi hp => exact u3eLive_clean pag hs hi hp hl hn
  | @applying c m con old b cs k v hd hi hp _ ho hk hb htot =>
    have hcs : cs = [] := hs .image _ hi
    subst hcs hb
    have hn' : con.tot.toNat = n := ceLen_inj (htot.symm.trans hl)
    have hmem : (if d .control = none then d .memory else none) = none :=
      if_neg (by rw [hd.control]; simp)
    rw [hmem]
    exact u3eLive_patch pag v hd hi hp ho hk htot hn'

/-! ### The system -/

/-- What `u3m_save` calls a save with: the end of the heap, whose last page is
in use, since the allocator gives free pages at the end back, and the top of
the stack, which lies in the loom. -/
structure Called (p : Proc) (low hig : UInt32) : Prop where
  used : isFree p (norPage low - 1) = false
  inside : hig.toNat >>> u3aPage < p.pool.pag

/-- Changes of memory between saves: a page that changes is dirty, the guard
page may move. -/
structure Changes (p p' : Proc) : Prop where
  pag : p'.pool.pag = p.pool.pag
  pgs : p'.pool.pgs = p.pool.pgs
  dirty : ∀ i, p.pool.dit i → p'.pool.dit i
  tracked : ∀ i, p'.loom.page i ≠ p.loom.page i → p'.pool.dit i

/-- A crash after `k` operations of a save; a torn patch is detected. -/
structure SaveCrash (wag : Wag) (p : Proc) (low hig : UInt32) (d : Dsk) (k : ℕ) (d' : Dsk) :
    Prop where
  crash : CrashAt (u3eSave wag p low hig) d k d'
  torn : TornDetected (composed p (norPage low)).bytes (patchMemory p (norPage low)) d'

/-- A running process and its disk, or the disk alone. -/
inductive State where
  | up (d : Dsk) (p : Proc)
  | down (d : Dsk)

/-- The states reached from an empty directory, in looms of `pag` pages, with
crashes at the points of their programs that `ok` allows. -/
inductive Reach (ok : List (Op Nam UInt8) → ℕ → Prop) (pag : ℕ) : State → Prop
  | new : Reach ok pag (.down fun _ => none)
  | boot {d : Dsk} {l : List (Op Nam UInt8)} {pool : Pool} {loom : Loom} :
      Reach ok pag (.down d) → u3eLive pag d = (l, some (pool, loom.page)) →
      Reach ok pag (.up (applyAll d l) ⟨pool, loom⟩)
  | run {d : Dsk} {p p' : Proc} : Reach ok pag (.up d p) → Changes p p' → Reach ok pag (.up d p')
  | save {d : Dsk} {p p' : Proc} {wag : Wag} {low hig : UInt32} {l : List (Op Nam UInt8)} :
      Reach ok pag (.up d p) → Called p low hig → u3eSave wag p low hig d = (l, some p') →
      Reach ok pag (.up (applyAll d l) p')
  | crash {d d' : Dsk} {p : Proc} {wag : Wag} {low hig : UInt32} {k : ℕ} :
      Reach ok pag (.up d p) → Called p low hig → ok (u3eSave wag p low hig d).1 k →
      SaveCrash wag p low hig d k d' → Reach ok pag (.down d')
  | bootCrash {d d' : Dsk} {k : ℕ} :
      Reach ok pag (.down d) → ok (u3eLive pag d).1 k → CrashAt (u3eLive pag) d k d' →
      Reach ok pag (.down d')

/-- The invariant of a running process: no control file, a durable image of
the pages it knows, with room in the loom, and every other page dirty. -/
structure Sane (pag : ℕ) (d : Dsk) (p : Proc) : Prop where
  control : d .control = none
  image : ∃ b, d .image = some ⟨b, []⟩ ∧ b.length = ceLen p.pool.pgs
  loom : p.pool.pag = pag
  room : p.pool.pgs + 1 < pag
  small : p.pool.pgs < 2 ^ 32
  dirty : ∀ i, p.pool.pgs ≤ i → p.pool.dit i

/-- The invariant of a disk alone: it is synced and recoverable. -/
structure Sound (d : Dsk) : Prop where
  synced : ∀ n f, d n = some f → f.pend = []
  recoverable : ∃ img n, Recoverable img d ∧ img.length = ceLen n ∧ n < 2 ^ 32

def Inv (pag : ℕ) : State → Prop
  | .up d p => Sane pag d p
  | .down d => Sound d

theorem sound_new : Sound fun _ => none :=
  ⟨fun _ _ h => (by cases h), [], 0, .clean (fun _ _ h => (by cases h)) (.inr ⟨rfl, rfl⟩) rfl, rfl,
    by decide⟩

theorem sane_live {pag n : ℕ} {d : Dsk} {b : List UInt8} (loom : Loom) (hc : d .control = none)
    (hi : d .image = some ⟨b, []⟩) (hl : b.length = ceLen n) (hn : n < 2 ^ 32) (hp : n + 1 < pag) :
    Sane pag d ⟨(liveProc pag n b).1, loom⟩ where
  control := hc
  image := ⟨b, hi, hl⟩
  loom := rfl
  room := hp
  small := hn
  dirty i hi := by
    have h1 : n ≤ i := hi
    simp only [liveProc, loomTrack]
    rw [if_neg (by omega)]
    simp

theorem Sane.run {pag : ℕ} {d : Dsk} {p p' : Proc} (h : Sane pag d p) (hc : Changes p p') :
    Sane pag d p' where
  control := h.control
  image := hc.pgs ▸ h.image
  loom := hc.pag.trans h.loom
  room := hc.pgs ▸ h.room
  small := hc.pgs ▸ h.small
  dirty i hi := hc.dirty i (h.dirty i (hc.pgs ▸ hi))

/-- A save that goes on leaves room in the loom. -/
theorem Sane.fits {pag : ℕ} {d : Dsk} {p : Proc} {low hig : UInt32} (h : Sane pag d p)
    (hc : Called p low hig) (hg : Guarded p low hig) : norPage low + 1 < pag := by
  have h1 := hc.inside
  rw [h.loom] at h1
  obtain ⟨h2, h3⟩ := hg
  have h4 : norPage low ≤ low.toNat >>> u3aPage + 1 := by
    simp only [norPage, u3aPage, Nat.shiftRight_eq_div_pow]
    omega
  omega

/-- The patch of a save makes the snapshot of memory. -/
theorem Sane.image_eq {pag : ℕ} {d : Dsk} {p : Proc} {low hig : UInt32} (h : Sane pag d p)
    (hc : Called p low hig) {old : List UInt8} (hl : old.length = ceLen p.pool.pgs) :
    (whole_composed (p := p) (norPage_le low)).redo.image old = snapshotOf p (norPage low) old :=
  image_composed (norPage_le low) hl fun hlt => by
    rw [inPatch, h.dirty _ (by omega), hc.used]; rfl

/-- A save that completes leaves the old snapshot, with nothing to write, or
the new one. -/
theorem Sane.save {pag : ℕ} {d : Dsk} {p p' : Proc} {wag : Wag} {low hig : UInt32}
    {l : List (Op Nam UInt8)} (h : Sane pag d p) (hc : Called p low hig)
    (hs : u3eSave wag p low hig d = (l, some p')) :
    (l = [] ∧ p' = p) ∨
      (Sane pag (applyAll d l) p' ∧ d .memory = none ∧ applyAll d l .memory = none) := by
  obtain ⟨old, hi, hl⟩ := h.image
  have hrun := u3eSave_run wag low hig h.control hi hl
  rw [hs] at hrun
  split at hrun
  · cases hrun; exact .inl ⟨rfl, rfl⟩
  split at hrun
  · cases hrun
  rename_i hg
  rw [Decidable.not_not] at hg
  split at hrun
  · cases hrun; exact .inl ⟨rfl, rfl⟩
  split at hrun
  · rename_i hm
    simp only [Prod.mk.injEq, Option.some.injEq] at hrun
    obtain ⟨rfl, rfl⟩ := hrun
    obtain ⟨_, hi1⟩ := synced_disk p (norPage low) d
    rw [hi] at hi1
    have hafter : applyAll d (saveOps p (norPage_le low) old) =
        applyAll (applyAll d (composeOps p (norPage low) ++ [.fsync .control, .fsync .memory]))
          (redoOps ((whole_composed (p := p) (norPage_le low)).redo.changes old)) := by
      rw [saveOps, ← List.append_assoc, applyAll_append]
    obtain ⟨hc1, hm1⟩ := redoOps_gone
      ((whole_composed (p := p) (norPage_le low)).redo.changes old)
      (applyAll d (composeOps p (norPage low) ++ [.fsync .control, .fsync .memory]))
    have himg := redoOps_image hi1 ((whole_composed (p := p) (norPage_le low)).redo.changes old)
    rw [Redo.foldl_changes, h.image_eq hc hl] at himg
    rw [hafter]
    refine .inr ⟨⟨hc1, ⟨_, himg, length_snapshotOf _ _ _⟩, h.loom, h.fits hc hg, ?_, fun i hi => ?_⟩,
      hm, hm1⟩
    · have := norPage_le low
      show norPage low < 2 ^ 32
      omega
    · have h1 : norPage low ≤ i := hi
      simp only [saved, loomTrack]
      rw [if_neg (by omega)]
      split
      · rfl
      · exact h.dirty i (by omega)
  · cases hrun

/-- At every crash point of a save the old image is untouched, or the disk is
recoverable to the new one; and if it is being applied the new one fits. -/
theorem Sane.always {pag : ℕ} {d : Dsk} {p : Proc} {low hig : UInt32} (wag : Wag) (h : Sane pag d p)
    (hc : Called p low hig) {old : List UInt8} (hi : d .image = some ⟨old, []⟩)
    (hl : old.length = ceLen p.pool.pgs) :
    Always (fun d' => d' .image = some ⟨old, []⟩ ∨
        Recoverable (snapshotOf p (norPage low) old) d' ∧ Guarded p low hig) d
      (u3eSave wag p low hig d).1 := by
  have h0 : Always (fun d' => d' .image = some ⟨old, []⟩ ∨
      Recoverable (snapshotOf p (norPage low) old) d' ∧ Guarded p low hig) d [] :=
    always_nil (.inl hi)
  rw [u3eSave_run wag low hig h.control hi hl]
  split
  · exact h0
  split
  · exact h0
  rename_i hg
  rw [Decidable.not_not] at hg
  split
  · exact h0
  split
  · have himg := h.image_eq hc hl
    have := always_save p (norPage_le low) hi hl h.small (by rw [himg, length_snapshotOf])
    rw [himg] at this
    exact this.mono fun d' hd' => hd'.imp_right fun h => ⟨h, hg⟩
  · exact always_cons (.inl hi) (always_nil (.inl hi))

/-- After a crash in a save the disk is recoverable to the old snapshot or the
new one, which fits the loom. -/
theorem Sane.crash {pag : ℕ} {d d' : Dsk} {p : Proc} {wag : Wag} {low hig : UInt32} {k : ℕ}
    (h : Sane pag d p) (hc : Called p low hig) (hk : SaveCrash wag p low hig d k d')
    {old : List UInt8} (hi : d .image = some ⟨old, []⟩) (hl : old.length = ceLen p.pool.pgs) :
    ∃ img n, (img = old ∨ img = snapshotOf p (norPage low) old) ∧ Recoverable img d' ∧
      img.length = ceLen n ∧ n < 2 ^ 32 ∧ n + 1 < pag := by
  have hold : Recoverable old d' → ∃ img n, (img = old ∨ img = snapshotOf p (norPage low) old) ∧
      Recoverable img d' ∧ img.length = ceLen n ∧ n < 2 ^ 32 ∧ n + 1 < pag :=
    fun hr => ⟨old, p.pool.pgs, .inl rfl, hr, hl, h.small, h.room⟩
  by_cases hg : Guarded p low hig
  · have hnew : Recoverable (snapshotOf p (norPage low) old) d' →
        ∃ img n, (img = old ∨ img = snapshotOf p (norPage low) old) ∧
          Recoverable img d' ∧ img.length = ceLen n ∧ n < 2 ^ 32 ∧ n + 1 < pag := by
      intro hr
      have := norPage_le low
      exact ⟨_, norPage low, .inr rfl, hr, length_snapshotOf _ _ _, by omega, h.fits hc hg⟩
    rcases h.always wag hc hi hl k with hi1 | ⟨hr, _⟩
    · have himg := h.image_eq hc hl
      have v := valid_composed (p := p) (norPage_le low)
      have htot : (v.whole.redo.image old).length = ceLen (composed p (norPage low)).tot.toNat := by
        rw [himg, length_snapshotOf, composed_tot (norPage_le low)]
      rcases recoverable_of_crash v hi1 hl h.small htot hk.crash hk.torn with hr | hr
      · exact hold hr
      · rw [himg] at hr; exact hnew hr
    · exact hnew (hr.crash hk.crash)
  · -- nothing is written
    have hrun : (u3eSave wag p low hig d).1 = [] := by
      rw [u3eSave_run wag low hig h.control hi hl]
      split
      · rfl
      · rfl
    have hcrash := hk.crash
    rw [CrashAt, hrun, List.take_nil, applyAll_nil] at hcrash
    exact hold (.clean (crash_synced hcrash) (.inl (hcrash.synced hi))
      (by rw [patchOf, hcrash.absent h.control]))

theorem Sound.crash {pag : ℕ} {d d' : Dsk} {k : ℕ} (h : Sound d) (hk : CrashAt (u3eLive pag) d k d') :
    Sound d' := by
  obtain ⟨img, n, hr, hl, hn⟩ := h.recoverable
  obtain ⟨l, hrun, hall, -⟩ := u3eLive_run pag hr h.synced hl hn
  rw [CrashAt, hrun] at hk
  exact ⟨crash_synced hk, img, n, (hall k).crash hk, hl, hn⟩

theorem Sound.boot {pag : ℕ} {d : Dsk} {l : List (Op Nam UInt8)} {pool : Pool} {loom : Loom}
    (h : Sound d) (hk : u3eLive pag d = (l, some (pool, loom.page))) :
    Sane pag (applyAll d l) ⟨pool, loom⟩ := by
  obtain ⟨img, n, hr, hl, hn⟩ := h.recoverable
  obtain ⟨l', hrun, -, -, hi, hc, -⟩ := u3eLive_run pag hr h.synced hl hn
  rw [hk] at hrun
  split at hrun
  · cases hrun
  · rename_i hp
    simp only [Prod.mk.injEq, Option.some.injEq] at hrun
    obtain ⟨rfl, hres⟩ := hrun
    have hpool : pool = (liveProc pag n img).1 := congrArg Prod.fst hres
    rw [hpool]
    exact sane_live loom hc hi hl hn (by omega)

/-- **The invariant holds of every state reached.** -/
theorem reach_inv {ok : List (Op Nam UInt8) → ℕ → Prop} {pag : ℕ} {s : State}
    (h : Reach ok pag s) : Inv pag s := by
  induction h with
  | new => exact sound_new
  | boot _ hk ih => exact Sound.boot ih hk
  | run _ hc ih => exact Sane.run ih hc
  | save _ hc hs ih =>
    rcases Sane.save ih hc hs with ⟨rfl, rfl⟩ | ⟨h, -⟩
    · exact ih
    · exact h
  | crash _ hc _ hk ih =>
    obtain ⟨old, hi, hl⟩ := ih.image
    obtain ⟨img, n, -, hr, hl', hn, -⟩ := Sane.crash ih hc hk hi hl
    exact ⟨crash_synced hk.crash, img, n, hr, hl', hn⟩
  | bootCrash _ _ hk ih => exact Sound.crash ih hk

/-! ### Snapshots are crash consistent -/

/-- What a boot from a disk recoverable to `img` leaves: the image is `img` and
memory its pages. -/
theorem boot_of_recoverable {pag n : ℕ} {img : List UInt8} {d : Dsk} (h : Recoverable img d)
    (hs : ∀ n f, d n = some f → f.pend = []) (hl : img.length = ceLen n) (hn : n < 2 ^ 32)
    (hp : n + 1 < pag) :
    ∃ l pool page, u3eLive pag d = (l, some (pool, page)) ∧ applyAll d l .image = some ⟨img, []⟩ ∧
      img.length = ceLen pool.pgs ∧ (∀ i, page i = pageOf img i) ∧
      applyAll d l .memory = if d .control = none then d .memory else none := by
  obtain ⟨l, hrun, -, -, hi, -, hm⟩ := u3eLive_run pag h hs hl hn
  rw [if_neg (by omega)] at hrun
  refine ⟨l, _, _, hrun, hi, hl, fun i => ?_, hm⟩
  simp only [loomMapf]
  split
  · rfl
  · rename_i h1
    -- past the image a page is zeros
    have h2 := ceLen_le.mpr (Nat.not_lt.mp h1)
    have h3 : pageOf img i = Page.zero := by
      refine Subtype.ext (ext_getD ?_ fun k => ?_)
      · rw [(pageOf img i).2, Page.zero.2]
      · rcases Nat.lt_or_ge k cePage with hk | hk
        · rw [getD_pageOf _ _ hk, List.getD_eq_default _ _ (by omega)]
          exact (List.getD_replicate 0 hk).symm
        · rw [List.getD_eq_default _ _ (by rw [(pageOf img i).2]; exact hk),
            List.getD_eq_default _ _ (by rw [Page.zero.2]; exact hk)]
    rw [h3]
    split <;> rfl

/-- The image's content. -/
def imageBytes (d : Dsk) : Option (List UInt8) := (d .image).map File.cur

/-- Writes made twice are writes made once. -/
theorem writeAll_writeAll (ws : List (ℕ × List UInt8)) (b : List UInt8) (h : ∀ w ∈ ws, w.2 ≠ []) :
    writeAll ws (writeAll ws b) = writeAll ws b := by
  refine ext_getD ?_ (getD_writeAll_congr _ _ _ fun i hi => getD_writeAll_of_not_covered _ _ hi)
  rw [length_writeAll _ _ h, length_writeAll _ _ h]
  omega

theorem imageBytes_apply {con : Control} {m b : List UInt8} {d : Dsk} {f g : File UInt8} (n : ℕ)
    (w : Whole con m) (hm : d .memory = some f) (hf : f.cur = m) (hi : d .image = some g)
    (hg : g.cur = b) :
    imageBytes ((patchApply n con).after d) = some (writeAll w.redo.writes
        (if con.tot.toNat < n then ftruncate (ceLen con.tot.toNat) b else b)) ∧
      ((patchApply n con).after d) .memory = some f := by
  set cs : List (Change UInt8) :=
    (if con.tot.toNat < n then [.ftruncate (ceLen con.tot.toNat)] else []) ++
      w.redo.writes.map fun w => .pwrite w.1 w.2 with hcs
  have hops : (patchApply n con d).1 = cs.map (.change .image) := by
    rw [patchApply_ops n w hm hf, hcs]
    split <;> simp [Function.comp_def]
  rw [Prog.after, hops]
  refine ⟨?_, by rw [changes_of_ne (by decide)]; exact hm⟩
  rw [imageBytes, applyAll_changes _ _ _ g hi, Option.map_some, File.cur, List.foldl_append]
  show some (cs.foldl (fun b c => c.apply b) g.cur) = _
  rw [hg, hcs, List.foldl_append, List.foldl_map]
  split <;> rfl

/-- **Applying a whole patch twice gives the image that applying it once
gives**, whether the second time the process knows the image's pages or counts
them anew. -/
theorem apply_apply {con : Control} {m b : List UInt8} {d : Dsk} {f g : File UInt8}
    (w : Whole con m) (hm : d .memory = some f) (hf : f.cur = m) (hi : d .image = some g)
    (hg : g.cur = b) :
    ∃ b', imageBytes ((patchApply (imageStat b).2 con).after d) = some b' ∧
      ∀ n, n = con.tot.toNat ∨ n = (imageStat b').2 →
        imageBytes ((patchApply n con).after ((patchApply (imageStat b).2 con).after d)) = some b' := by
  obtain ⟨h1, h2⟩ := imageBytes_apply (imageStat b).2 w hm hf hi hg
  set d1 := (patchApply (imageStat b).2 con).after d with hd1
  set a := if con.tot.toNat < (imageStat b).2 then ftruncate (ceLen con.tot.toNat) b else b with ha
  refine ⟨_, h1, fun n hn => ?_⟩
  obtain ⟨g1, hg1, hg2⟩ := Option.map_eq_some_iff.mp h1
  obtain ⟨h3, -⟩ := imageBytes_apply n w h2 hf hg1 hg2
  have hcut : ¬ con.tot.toNat < n := by
    rcases hn with rfl | rfl
    · omega
    · have hlen := length_writeAll w.redo.writes a w.redo.nonempty
      have hE := w.redo.extent_le_size
      have hsize : w.redo.size = ceLen con.tot.toNat := rfl
      have hle := imageStat_le (writeAll w.redo.writes a)
      intro hlt
      have hlt' := ceLen_lt.mpr hlt
      -- longer than the patch's image, so it was not cut, and it counts as before
      have h4 : ¬ con.tot.toNat < (imageStat b).2 := by
        intro h4
        have hla : a.length = ceLen con.tot.toNat := by rw [ha, if_pos h4, length_ftruncate]
        omega
      have hab : a.length = b.length := by rw [ha, if_neg h4]
      have hsame : imageStat (writeAll w.redo.writes a) = imageStat b := by
        have : (writeAll w.redo.writes a).length = b.length := by omega
        simp only [imageStat, this]
      exact h4 (hsame ▸ hlt)
  rw [h3, if_neg hcut, writeAll_writeAll _ _ w.redo.nonempty]

/-- **Snapshots are crash consistent**: after a crash at any point of a save, a
boot succeeds and its image is the old snapshot or the new one, page for page;
and applying a whole patch twice gives the image that applying it once gives. -/
theorem save_crash_consistent :
    (∀ (pag : ℕ) (d : Dsk) (p : Proc), Reach (fun _ _ => True) pag (.up d p) →
      ∀ (wag : Wag) (low hig : UInt32), Called p low hig →
      ∀ (k : ℕ) (d' : Dsk), SaveCrash wag p low hig d k d' →
        ∃ old l pool page img, d .image = some ⟨old, []⟩ ∧ u3eLive pag d' = (l, some (pool, page)) ∧
          applyAll d' l .image = some ⟨img, []⟩ ∧ img.length = ceLen pool.pgs ∧
          (∀ i, page i = pageOf img i) ∧ (img = old ∨ img = snapshotOf p (norPage low) old)) ∧
    (∀ (con : Control) (m b : List UInt8) (d : Dsk) (f g : File UInt8), Whole con m →
      d .memory = some f → f.cur = m → d .image = some g → g.cur = b →
        ∃ b', imageBytes ((patchApply (imageStat b).2 con).after d) = some b' ∧
          ∀ n, n = con.tot.toNat ∨ n = (imageStat b').2 →
            imageBytes ((patchApply n con).after ((patchApply (imageStat b).2 con).after d)) =
              some b') := by
  refine ⟨fun pag d p h wag low hig hc k d' hk => ?_,
    fun _ _ _ _ _ _ w hm hf hi hg => apply_apply w hm hf hi hg⟩
  have hsane : Sane pag d p := reach_inv h
  obtain ⟨old, hi, hl⟩ := hsane.image
  obtain ⟨img, n, hwhich, hr, hl', hn, hp⟩ := hsane.crash hc hk hi hl
  obtain ⟨l, pool, page, h1, h2, h3, h4, -⟩ :=
    boot_of_recoverable hr (crash_synced hk.crash) hl' hn hp
  exact ⟨old, l, pool, page, img, hi, h1, h2, h3, h4, hwhich⟩

/-! ### A first save -/

/-- The disk of a new directory after its first boot. -/
def freshDisk : Dsk := applyAll (fun _ => none) [.creat .image]

/-- The first process in a loom of four pages, its heap one page above the
home road. -/
def freshProc : Proc where
  pool := (liveProc 4 0 []).1
  loom := { page := (liveProc 4 0 []).2, rut := 4096, len := 1, dir := fun _ => 1 }

theorem reach_fresh (ok : List (Op Nam UInt8) → ℕ → Prop) : Reach ok 4 (.up freshDisk freshProc) :=
  .boot .new rfl

theorem called_fresh : Called freshProc 8191 12288 := ⟨by decide, by decide⟩

theorem guarded_fresh : Guarded freshProc 8191 12288 := by decide

theorem patchPages_fresh : patchPages freshProc (norPage 8191) = [0, 1] := by decide

/-- The operations of the first save. -/
theorem fresh_ops : (u3eSave ⟨false, false⟩ freshProc 8191 12288 freshDisk).1 =
    saveOps freshProc (norPage_le 8191) [] := by
  have hl : ([] : List UInt8).length = ceLen freshProc.pool.pgs := by
    simp [ceLen, freshProc, liveProc]
  have hm : freshDisk .memory = none := rfl
  rw [u3eSave_run ⟨false, false⟩ 8191 12288 rfl rfl hl, if_neg (by simp),
    if_neg (by rw [Decidable.not_not]; exact guarded_fresh),
    if_neg (by rw [patchPages_fresh]; simp), if_pos hm]

/-- A crash once the first patch is written and synced. -/
theorem crash_fresh : ∃ k d', SaveCrash ⟨false, false⟩ freshProc 8191 12288 freshDisk k d' := by
  set l := composeOps freshProc (norPage 8191) ++ [.fsync .control, .fsync .memory] with hl
  refine ⟨l.length, settled (applyAll freshDisk l), ?_, ?_⟩
  · have htake : (u3eSave ⟨false, false⟩ freshProc 8191 12288 freshDisk).1.take l.length = l := by
      rw [fresh_ops, saveOps, ← List.append_assoc, ← hl, List.take_left]
    rw [CrashAt, htake]
    exact crash_settled _
  · exact fun _ => (synced_disk _ _ _).1.crash (crash_settled _)

/-- The first save, with a crash when its patch is whole. -/
theorem save_crash_consistent_fresh : ∃ k d' l pool page img,
    SaveCrash ⟨false, false⟩ freshProc 8191 12288 freshDisk k d' ∧
      u3eLive 4 d' = (l, some (pool, page)) ∧ applyAll d' l .image = some ⟨img, []⟩ ∧
      (∀ i, page i = pageOf img i) := by
  obtain ⟨k, d', hk⟩ := crash_fresh
  obtain ⟨_, l, pool, page, img, -, h1, h2, -, h3, -⟩ :=
    save_crash_consistent.1 4 freshDisk freshProc (reach_fresh _) ⟨false, false⟩ 8191 12288
      called_fresh k d' hk
  exact ⟨k, d', l, pool, page, img, hk, h1, h2, h3⟩

/-! ### Saves after a crash -/

/-- The crash comes right after the control file is removed, and before the
memory file is. -/
def BetweenUnlinks (l : List (Op Nam UInt8)) (k : ℕ) : Prop :=
  (l.take k).getLast? = some (.unlink .control)

/-- No memory file is left without a control file. -/
def Tidy (d : Dsk) : Prop := d .control = none → d .memory = none

theorem tidy_crash {d d' : Dsk} (h : Crash d d') : Tidy d' ↔ Tidy d := by
  have hn : ∀ n, d' n = none ↔ d n = none := fun n => by
    refine ⟨fun h' => ?_, h.absent⟩
    by_contra hne
    obtain ⟨f, hf⟩ := Option.ne_none_iff_exists'.mp hne
    obtain ⟨b, -, hb⟩ := h.present hf
    rw [hb] at h'
    cases h'
  rw [Tidy, Tidy, hn, hn]

/-- A program that deletes the patch last leaves it tidy at every other point,
if it is tidy before. -/
theorem tidy_deleteOps {l : List (Op Nam UInt8)} {d : Dsk} (h : Always Tidy d l) {k : ℕ}
    (hk : ¬ BetweenUnlinks (l ++ deleteOps) k) : Tidy (applyAll d ((l ++ deleteOps).take k)) := by
  rcases Nat.lt_or_ge l.length k with h1 | h1
  · obtain ⟨j, rfl⟩ : ∃ j, k = l.length + (j + 1) := ⟨k - l.length - 1, by omega⟩
    rw [List.take_length_add_append] at *
    cases j with
    | zero =>
      refine absurd ?_ hk
      rw [BetweenUnlinks, List.take_length_add_append]
      simp [deleteOps]
    | succ j =>
      have : deleteOps.take (j + 1 + 1) = deleteOps := List.take_of_length_le (by simp [deleteOps])
      rw [this, applyAll_append]
      exact fun _ => rfl
  · rw [List.take_append_of_le_length h1]
    exact h k

/-- Between the two removals it is not, if the memory file was there. -/
theorem not_tidy_deleteOps {l : List (Op Nam UInt8)} {d : Dsk} {k : ℕ}
    (hl : ∀ o ∈ l, o ≠ .unlink .control ∧ o ≠ .unlink .memory) (hm : (applyAll d l .memory).isSome)
    (hk : BetweenUnlinks (l ++ deleteOps) k) : ¬ Tidy (applyAll d ((l ++ deleteOps).take k)) := by
  have h1 : k = l.length + 1 := by
    rcases Nat.lt_or_ge l.length k with h1 | h1
    · obtain ⟨j, rfl⟩ : ∃ j, k = l.length + (j + 1) := ⟨k - l.length - 1, by omega⟩
      cases j with
      | zero => rfl
      | succ j =>
        rw [BetweenUnlinks, List.take_length_add_append] at hk
        simp [deleteOps] at hk
    · rw [BetweenUnlinks, List.take_append_of_le_length h1] at hk
      exact absurd rfl (hl _ (List.mem_of_mem_take (List.mem_of_getLast? hk))).1
  rw [h1, List.take_length_add_append, applyAll_append]
  intro ht
  have h2 : applyAll d l .memory = none := ht rfl
  rw [h2] at hm
  cases hm

/-- What a save does before it deletes the patch. -/
def saveHead (p : Proc) {max : ℕ} (h : max ≤ 2 ^ 20) (old : List UInt8) : List (Op Nam UInt8) :=
  composeOps p max ++ ([.fsync .control, .fsync .memory] ++
    (((whole_composed (p := p) h).redo.changes old).map (.change .image) ++ [.fsync .image]))

theorem saveOps_eq (p : Proc) {max : ℕ} (h : max ≤ 2 ^ 20) (old : List UInt8) :
    saveOps p h old = saveHead p h old ++ deleteOps := by
  simp [saveOps, saveHead, redoOps]

theorem saveHead_keeps (p : Proc) {max : ℕ} (h : max ≤ 2 ^ 20) (old : List UInt8) :
    ∀ o ∈ saveHead p h old, o ≠ .unlink .control ∧ o ≠ .unlink .memory := by
  intro o ho
  simp only [saveHead, composeOps, List.mem_append, List.mem_cons, List.mem_map, List.not_mem_nil,
    or_false] at ho
  rcases ho with ((rfl | rfl) | ⟨c, -, rfl⟩ | rfl) | (rfl | rfl) | ⟨c, -, rfl⟩ | rfl <;> simp

theorem saveHead_cons (p : Proc) {max : ℕ} (h : max ≤ 2 ^ 20) (old : List UInt8) :
    ∃ l, saveHead p h old = .creat .control :: .creat .memory :: l :=
  ⟨_, rfl⟩

/-- A save that starts tidy, with no memory file, is tidy at every point but
the one between the two removals. -/
theorem Sane.tidy_save {pag : ℕ} {d : Dsk} {p : Proc} (wag : Wag) (low hig : UInt32)
    (h : Sane pag d p) (hm : d .memory = none) (k : ℕ) :
    Tidy (applyAll d ((u3eSave wag p low hig d).1.take k)) ↔
      ¬ BetweenUnlinks (u3eSave wag p low hig d).1 k := by
  obtain ⟨old, hi, hl⟩ := h.image
  have h0 : Tidy (applyAll d (([] : List (Op Nam UInt8)).take k)) ↔ ¬ BetweenUnlinks [] k := by
    simp [BetweenUnlinks, Tidy, hm]
  rw [u3eSave_run wag low hig h.control hi hl]
  split
  · exact h0
  split
  · exact h0
  split
  · exact h0
  rw [saveOps_eq]
  obtain ⟨l, hl⟩ := saveHead_cons p (norPage_le low) old
  have hkeep := saveHead_keeps p (norPage_le low) old
  have hmem : (applyAll d (saveHead p (norPage_le low) old) .memory).isSome := by
    rw [hl] at hkeep ⊢
    exact isSome_applyAll l _ rfl fun o ho => (hkeep o (by simp [ho])).2
  have htidy : Always Tidy d (saveHead p (norPage_le low) old) := by
    rw [hl] at hkeep ⊢
    refine always_cons (fun _ => hm) fun j hc => ?_
    -- the control file is there
    have := isSome_applyAll (n := .control) ((Op.creat Nam.memory :: l).take j)
      ((Op.creat Nam.control).apply d) rfl
      fun o ho => (hkeep o (List.mem_cons_of_mem _ (List.mem_of_mem_take ho))).1
    rw [hc] at this
    cases this
  exact ⟨fun ht hb => not_tidy_deleteOps hkeep hmem hb ht, fun hb => tidy_deleteOps htidy hb⟩

theorem tidy_of_image {l : List (Op Nam UInt8)} {d : Dsk} (hd : Tidy d)
    (hl : ∀ o ∈ l, o.name = .image) : Always Tidy d l := by
  refine always_of_step l d hd fun o ho d' h => ?_
  have hn := hl o ho
  rw [Tidy, apply_of_ne _ _ (by rw [hn]; decide), apply_of_ne _ _ (by rw [hn]; decide)]
  exact h

/-- Crashes that do not come between the two removals of a patch. -/
def Apart (l : List (Op Nam UInt8)) (k : ℕ) : Prop := ¬ BetweenUnlinks l k

def TidyState : State → Prop
  | .up d _ => d .memory = none
  | .down d => Tidy d

/-- In a run with no crash between the two removals no memory file is left. -/
theorem reach_tidy {pag : ℕ} {s : State} (h : Reach Apart pag s) : TidyState s := by
  induction h with
  | new => exact fun _ => rfl
  | @boot d l _ _ hr hk ih =>
    have hsound : Sound d := reach_inv hr
    obtain ⟨img, n, hrec, hl, hn⟩ := hsound.recoverable
    obtain ⟨l', hrun, -, -, -, -, hm⟩ := u3eLive_run pag hrec hsound.synced hl hn
    rw [hk] at hrun
    cases (congrArg Prod.fst hrun : l = l')
    show applyAll d l .memory = none
    rw [hm]
    split
    · rename_i hc; exact ih hc
    · rfl
  | run _ _ ih => exact ih
  | save hr hc hs ih =>
    rcases Sane.save (reach_inv hr) hc hs with ⟨rfl, rfl⟩ | ⟨-, -, h⟩
    · exact ih
    · exact h
  | crash hr hc ha hk ih =>
    exact (tidy_crash hk.crash).mpr ((Sane.tidy_save _ _ _ (reach_inv hr) ih _).mpr ha)
  | @bootCrash d d' k hr ha hk ih =>
    have hsound : Sound d := reach_inv hr
    obtain ⟨img, n, hrec, hl, hn⟩ := hsound.recoverable
    obtain ⟨l, hrun, -, ⟨l0, h0, h1⟩, -⟩ := u3eLive_run pag hrec hsound.synced hl hn
    refine (tidy_crash hk).mpr ?_
    rw [hrun] at ha ⊢
    rcases h1 with rfl | rfl
    · exact tidy_of_image ih h0 k
    · exact tidy_deleteOps (tidy_of_image ih h0) ha

/-- A save that passes the guard page's check succeeds if it has nothing to
write or no memory file is left. -/
theorem Sane.save_isSome {pag : ℕ} {d : Dsk} {p : Proc} {wag : Wag} {low hig : UInt32}
    (h : Sane pag d p) (hdry : ¬ wag.dryrun) (hg : Guarded p low hig) :
    (u3eSave wag p low hig d).2.isSome ↔ (patchPages p (norPage low) = [] ∨ d .memory = none) := by
  obtain ⟨old, hi, hl⟩ := h.image
  rw [u3eSave_run wag low hig h.control hi hl, if_neg hdry, if_neg (not_not.mpr hg)]
  split
  · rename_i h1; simp [h1]
  · rename_i h1
    split
    · rename_i h2; simp [h2]
    · rename_i h2; simp [h1, h2]

/-- After a crash in a save that started tidy, and a boot, the next save that
has pages to write succeeds if and only if the crash was not between the two
removals. -/
theorem Sane.next_save {pag : ℕ} {d d' : Dsk} {p : Proc} {wag : Wag} {low hig : UInt32} {k : ℕ}
    (h : Sane pag d p) (hm : d .memory = none) (hc : Called p low hig)
    (hk : SaveCrash wag p low hig d k d') :
    ∃ l pool page, u3eLive pag d' = (l, some (pool, page)) ∧
      ∀ (loom : Loom) (p' : Proc), loom.page = page → Changes ⟨pool, loom⟩ p' →
      ∀ (wag' : Wag) (low' hig' : UInt32), ¬ wag'.dryrun → Guarded p' low' hig' →
        patchPages p' (norPage low') ≠ [] →
          ((u3eSave wag' p' low' hig' (applyAll d' l)).2.isSome ↔
            ¬ BetweenUnlinks (u3eSave wag p low hig d).1 k) := by
  obtain ⟨old, hi, hl⟩ := h.image
  obtain ⟨img, n, -, hr, hl', hn, hp⟩ := h.crash hc hk hi hl
  have hsync := crash_synced hk.crash
  obtain ⟨l, pool, page, h1, h2, h3, h4, h5⟩ := boot_of_recoverable hr hsync hl' hn hp
  refine ⟨l, pool, page, h1, fun loom p' hpage hch wag' low' hig' hdry hg hne => ?_⟩
  have hsane' : Sane pag (applyAll d' l) p' :=
    (Sound.boot ⟨hsync, img, n, hr, hl', hn⟩ (hpage ▸ h1)).run hch
  rw [hsane'.save_isSome hdry hg, or_iff_right hne, h5, ← Sane.tidy_save wag low hig h hm k,
    ← tidy_crash hk.crash]
  by_cases hcn : d' .control = none
  · rw [if_pos hcn]
    exact ⟨fun hm _ => hm, fun ht => ht hcn⟩
  · rw [if_neg hcn]
    exact ⟨fun _ hc => absurd hc hcn, fun _ => rfl⟩

/-- **When a save succeeds after a crash**: in a run with no crash between the
two removals of a patch every save succeeds; and after a crash in a save of
such a run, and a boot, the next save that has pages to write succeeds if and
only if this crash was not there either. -/
theorem save_after_crash_iff {pag : ℕ} {d : Dsk} {p : Proc} (h : Reach Apart pag (.up d p)) :
    (∀ (wag : Wag) (low hig : UInt32), Guarded p low hig → (u3eSave wag p low hig d).2.isSome) ∧
    (∀ (wag : Wag) (low hig : UInt32), Called p low hig →
      ∀ (k : ℕ) (d' : Dsk), SaveCrash wag p low hig d k d' →
        ∃ l pool page, u3eLive pag d' = (l, some (pool, page)) ∧
          ∀ (loom : Loom) (p' : Proc), loom.page = page → Changes ⟨pool, loom⟩ p' →
          ∀ (wag' : Wag) (low' hig' : UInt32), ¬ wag'.dryrun → Guarded p' low' hig' →
            patchPages p' (norPage low') ≠ [] →
              ((u3eSave wag' p' low' hig' (applyAll d' l)).2.isSome ↔
                ¬ BetweenUnlinks (u3eSave wag p low hig d).1 k)) := by
  have hsane : Sane pag d p := reach_inv h
  have htidy : d .memory = none := reach_tidy h
  refine ⟨fun wag low hig hg => ?_, fun wag low hig hc k d' hk => hsane.next_save htidy hc hk⟩
  by_cases hdry : wag.dryrun
  · rw [u3eSave, if_pos hdry]; rfl
  · exact (hsane.save_isSome hdry hg).mpr (.inr htidy)

/-- The first save crashes when its patch is whole; the next succeeds. -/
theorem save_after_crash_iff_fresh :
    (u3eSave ⟨false, false⟩ freshProc 8191 12288 freshDisk).2.isSome ∧
    ∃ k d' l pool page, SaveCrash ⟨false, false⟩ freshProc 8191 12288 freshDisk k d' ∧
      u3eLive 4 d' = (l, some (pool, page)) ∧
      ∀ (loom : Loom) (p' : Proc), loom.page = page → Changes ⟨pool, loom⟩ p' →
        ∀ (low' hig' : UInt32), Guarded p' low' hig' → patchPages p' (norPage low') ≠ [] →
          ((u3eSave ⟨false, false⟩ p' low' hig' (applyAll d' l)).2.isSome ↔
            ¬ BetweenUnlinks (u3eSave ⟨false, false⟩ freshProc 8191 12288 freshDisk).1 k) := by
  refine ⟨(save_after_crash_iff (reach_fresh Apart)).1 _ _ _ guarded_fresh, ?_⟩
  obtain ⟨k, d', hk⟩ := crash_fresh
  obtain ⟨l, pool, page, h1, h2⟩ := (save_after_crash_iff (reach_fresh Apart)).2
    ⟨false, false⟩ 8191 12288 called_fresh k d' hk
  exact ⟨k, d', l, pool, page, hk, h1,
    fun loom p' hl hch low' hig' => h2 loom p' hl hch _ low' hig' (by simp)⟩

/-- The first save crashes between the two removals of its patch, and the next
save aborts. -/
theorem save_aborts_after_crash :
    ¬ ∀ (pag : ℕ) (d : Dsk) (p : Proc), Reach (fun _ _ => True) pag (.up d p) →
      ∀ (wag : Wag) (low hig : UInt32), Called p low hig →
      ∀ (k : ℕ) (d' : Dsk), SaveCrash wag p low hig d k d' →
      ∀ l pool page, u3eLive pag d' = (l, some (pool, page)) →
      ∀ (loom : Loom) (p' : Proc), loom.page = page → Changes ⟨pool, loom⟩ p' →
      ∀ (wag' : Wag) (low' hig' : UInt32), Called p' low' hig' → Guarded p' low' hig' →
        (u3eSave wag' p' low' hig' (applyAll d' l)).2.isSome := by
  intro hall
  set head := saveHead freshProc (norPage_le 8191) [] with hhead
  have hops : (u3eSave ⟨false, false⟩ freshProc 8191 12288 freshDisk).1 = head ++ deleteOps := by
    rw [fresh_ops, saveOps_eq]
  have htake : (head ++ deleteOps).take (head.length + 1) = head ++ [.unlink .control] := by
    rw [List.take_length_add_append]; rfl
  clear_value head
  have hgone : settled (applyAll freshDisk (head ++ [.unlink .control])) .control = none := by
    rw [applyAll_append]; rfl
  have hk : SaveCrash ⟨false, false⟩ freshProc 8191 12288 freshDisk (head.length + 1)
      (settled (applyAll freshDisk (head ++ [.unlink .control]))) := by
    refine ⟨?_, fun h => absurd (by rw [patchOf, hgone]) h⟩
    rw [CrashAt, hops, htake]
    exact crash_settled _
  have hbetween : BetweenUnlinks (u3eSave ⟨false, false⟩ freshProc 8191 12288 freshDisk).1
      (head.length + 1) := by
    rw [BetweenUnlinks, hops, htake]; simp
  obtain ⟨l, pool, page, h1, h2⟩ := Sane.next_save (reach_inv (reach_fresh fun _ _ => True)) rfl
    called_fresh hk
  -- memory has a heap of one page, all of it dirty, and the guard page above it
  set loom : Loom := { page := page, rut := 4096, len := 1, dir := fun _ => 1 } with hloom
  set p' : Proc := { pool := { pool with dit := fun _ => true, gar := 2 }, loom := loom } with hp'
  have hch : Changes ⟨pool, loom⟩ p' := ⟨rfl, rfl, fun _ _ => rfl, fun _ h => absurd rfl h⟩
  have hdown : Reach (fun _ _ => True) 4 (.down _) := .crash (reach_fresh _) called_fresh trivial hk
  have hsound : Sound _ := reach_inv hdown
  have hsane : Sane 4 _ ⟨pool, loom⟩ := hsound.boot h1
  have hpag : pool.pag = 4 := hsane.loom
  have hused : isFree p' (norPage 8191 - 1) = false := by
    have hnor : norPage 8191 - 1 = 1 := by decide
    simp [hnor, isFree, hp', hloom, u3aPage, u3aFreePg]
  have hcalled : Called p' 8191 12288 := ⟨hused, by show _ < pool.pag; rw [hpag]; decide⟩
  have hpages : patchPages p' (norPage 8191) ≠ [] := by
    have h0 : 0 ∈ patchPages p' (norPage 8191) :=
      mem_patchPages.mpr ⟨by decide, by simp [inPatch, isFree, hp', hloom, u3aPage]⟩
    exact List.ne_nil_of_mem h0
  have hlow : UInt32.toNat 8191 >>> u3aPage < 2 := by decide
  have hhig : 2 < UInt32.toNat 12288 >>> u3aPage := by decide
  have hguard : Guarded p' 8191 12288 := ⟨hlow, hhig⟩
  exact (h2 loom p' rfl hch ⟨false, false⟩ 8191 12288 (by simp) hguard hpages).mp
    (hall 4 _ _ (reach_fresh _) _ _ _ called_fresh _ _ hk l pool page h1 loom p' rfl hch
      ⟨false, false⟩ 8191 12288 hcalled hguard) hbetween

end Recovery
end Ursockets
