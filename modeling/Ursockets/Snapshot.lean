/-
# Crashes and snapshots

A crash may come at any point of a save (`u3eSave`) or of a boot
(`u3eLive`). At every point the disk is one of two kinds: the image is the old
snapshot, untouched and durable, or a boot brings it to the snapshot it must
be (`Recoverable`): there is no whole patch and the image is durable, or the
patch is whole and durable and the image is what applying it may leave of the
old one.

Key definitions: `Recoverable`, `TornDetected`, `Reach`.
Key theorems: `always_save`, `u3eLive_run`, `save_crash_consistent`, `save_after_crash_iff`.
-/
import Ursockets.Patch

namespace Ursockets
namespace Snapshot

open CrashFs Events Patch

/-! ### The patch on disk -/

/-- The patch that `_ce_patch_open` finds. -/
def patchOf (d : Dsk) : Option Control :=
  match d .control, d .memory with
  | some f, some g => (readControl f.cur).filter (verifies · g.cur)
  | _, _ => none

/-- What deletes a patch. -/
def deleteOps : List (Op Nam UInt8) := [.unlink .control, .unlink .memory]

theorem patchDelete_run (d : Dsk) : patchDelete d = (deleteOps, some ()) := by
  rw [patchDelete, Prog.bind_some (Prog.perform_run _ _), Prog.perform_run]
  rfl

theorem patchOpen_run (d : Dsk) : patchOpen d =
    (if d .control ≠ none ∧ patchOf d = none then deleteOps else [], some (patchOf d)) := by
  have hdel : ∀ d : Dsk, (do patchDelete; pure none : Io (Option Control)) d = (deleteOps, some none) :=
    fun d => by rw [Prog.bind_some (patchDelete_run d)]; simp
  rw [patchOpen, Prog.bind_some (Prog.look_run _ _), applyAll_nil]
  rcases hc : d .control with _ | f
  · simp [patchOf, hc]
  · simp only []
    rw [Prog.bind_some (Prog.look_run _ _), applyAll_nil]
    rcases hm : d .memory with _ | g
    · simp only []
      rw [hdel]
      simp [patchOf, hc, hm]
    · simp only []
      rcases hr : readControl f.cur with _ | con
      · simp only []
        rw [hdel]
        simp [patchOf, hc, hm, hr]
      · simp only []
        have hv : patchVerify con d = ([], some (verifies con g.cur)) := by
          rw [patchVerify, Prog.bind_some (Prog.look_run _ _), applyAll_nil, hm]
          rfl
        rw [Prog.bind_some hv, applyAll_nil]
        rcases hb : verifies con g.cur with _ | _
        · simp only [Bool.false_eq_true, if_false]
          rw [hdel]
          simp [patchOf, hc, hm, hr, Option.filter, hb]
        · simp [patchOf, hc, hm, hr, Option.filter, hb]

/-- The bytes `c` and `m` of the two files are a whole patch with the control
block `con`. -/
structure Valid (c m : List UInt8) (con : Control) : Prop where
  reads : readControl c = some con
  verified : verifies con m = true
  whole : Whole con m

/-- The two files hold `c` and `m`, durably. -/
structure OnDisk (c m : List UInt8) (d : Dsk) : Prop where
  control : d .control = some ⟨c, []⟩
  memory : d .memory = some ⟨m, []⟩

theorem patchOf_onDisk {c m : List UInt8} {con : Control} {d : Dsk} (v : Valid c m con)
    (h : OnDisk c m d) : patchOf d = some con := by
  simp [patchOf, h.control, h.memory, v.reads, Option.filter, v.verified]

theorem OnDisk.crash {c m : List UInt8} {d d' : Dsk} (h : OnDisk c m d) (hc : Crash d d') :
    OnDisk c m d' := ⟨hc.synced h.control, hc.synced h.memory⟩

theorem valid_composed {p : Proc} {max : ℕ} (h : max ≤ 2 ^ 20) :
    Valid (composed p max).bytes (patchMemory p max) (composed p max) :=
  ⟨readControl_composed h, verifies_composed p max, whole_composed h⟩

/-! ### Recoverable disks -/

/-- A boot from this disk, or from what a crash leaves of it, brings the image
to `img`. -/
inductive Recoverable (img : List UInt8) (d : Dsk) : Prop
  | clean (synced : ∀ n f, d n = some f → f.pend = [])
      (image : d .image = some ⟨img, []⟩ ∨ d .image = none ∧ img = [])
      (none : patchOf d = none)
  | applying {c m : List UInt8} {con : Control} {old b : List UInt8} {cs : List (Change UInt8)}
      {n : ℕ} (v : Valid c m con) (disk : OnDisk c m d) (image : d .image = some ⟨b, cs⟩)
      (part : v.whole.redo.Partial old b) (pieces : ∀ c ∈ cs, v.whole.redo.Piece old c)
      (paged : old.length = ceLen n) (small : n < 2 ^ 32) (becomes : v.whole.redo.image old = img)
      (total : img.length = ceLen con.tot.toNat)

theorem crash_synced {d d' : Dsk} (h : Crash d d') : ∀ n f, d' n = some f → f.pend = [] := by
  intro n f hf
  cases hd : d n with
  | none => rw [h.absent hd] at hf; cases hf
  | some g =>
    obtain ⟨b, _, hb⟩ := h.present hd
    rw [hb] at hf
    cases hf
    rfl

/-- Nothing happens to a disk with every file synced. -/
theorem crash_eq {d d' : Dsk} (hd : ∀ n f, d n = some f → f.pend = []) (h : Crash d d') : d' = d := by
  funext n
  cases hn : d n with
  | none => exact h.absent hn
  | some f =>
    have hf := hd n f hn
    obtain ⟨b, hb, he⟩ := h.present hn
    rw [hf] at hb
    rw [he, survives_nil hb, ← hf]

theorem Recoverable.crash {img : List UInt8} {d d' : Dsk} (h : Recoverable img d) (hc : Crash d d') :
    Recoverable img d' := by
  cases h with
  | clean hs hi hn => rw [crash_eq hs hc]; exact .clean hs hi hn
  | applying v hd hi hp hcs hl hn hb ht =>
    obtain ⟨b', hb', he⟩ := hc.present hi
    exact .applying v (hd.crash hc) he (v.whole.redo.partial_of_survives hb' hcs hp)
      (fun _ h => by cases h) hl hn hb ht

/-- The checksums detect a torn patch: if what a crash leaves of the two files
verifies, it is the patch that was being written. -/
def TornDetected (c m : List UInt8) (d : Dsk) : Prop := patchOf d ≠ none → OnDisk c m d

/-- A crash while the patch is written leaves the old snapshot or the new one. -/
theorem recoverable_of_crash {c m old : List UInt8} {con : Control} {n : ℕ} {d d' : Dsk}
    (v : Valid c m con) (hi : d .image = some ⟨old, []⟩) (hl : old.length = ceLen n)
    (hn : n < 2 ^ 32) (htot : (v.whole.redo.image old).length = ceLen con.tot.toNat)
    (hc : Crash d d') (ht : TornDetected c m d') :
    Recoverable old d' ∨ Recoverable (v.whole.redo.image old) d' := by
  have hi' := hc.synced hi
  by_cases hp : patchOf d' = none
  · exact .inl (.clean (crash_synced hc) (.inl hi') hp)
  · exact .inr (.applying v (ht hp) hi' (v.whole.redo.partial_self old) (fun _ h => by cases h)
      hl hn rfl htot)

/-! ### Applying a patch, crash point by crash point -/

/-- What applies a patch to the image and deletes it. -/
def redoOps (cs : List (Change UInt8)) : List (Op Nam UInt8) :=
  cs.map (.change .image) ++ (.fsync .image :: deleteOps)

theorem changes_of_ne {n : Nam} (h : n ≠ .image) (cs : List (Change UInt8)) (d : Dsk) :
    applyAll d (cs.map (.change .image)) n = d n :=
  applyAll_of_ne _ _ fun o ho => by
    obtain ⟨c, _, rfl⟩ := List.mem_map.mp ho
    exact h

/-- While a patch is applied and deleted the disk stays recoverable. -/
theorem always_redo {c m old b : List UInt8} {con : Control} {n : ℕ} {d : Dsk} (v : Valid c m con)
    (hd : OnDisk c m d) (hi : d .image = some ⟨b, []⟩) (hp : v.whole.redo.Partial old b)
    (hl : old.length = ceLen n) (hn : n < 2 ^ 32)
    (htot : (v.whole.redo.image old).length = ceLen con.tot.toNat) :
    Always (Recoverable (v.whole.redo.image old)) d (redoOps (v.whole.redo.changes b)) := by
  set r := v.whole.redo with hr
  set d1 := applyAll d ((r.changes b).map (.change .image)) with hd1
  have hpiece : ∀ c ∈ r.changes b, r.Piece old c := fun c hc => r.piece_of_mem hp hc
  have himg : ∀ cs, applyAll d (cs.map (.change .image)) .image = some ⟨b, cs⟩ := fun cs => by
    rw [applyAll_changes _ _ _ _ hi]; rfl
  have hdisk : ∀ cs : List (Change UInt8), OnDisk c m (applyAll d (cs.map (.change .image))) := fun cs =>
    ⟨by rw [changes_of_ne (by decide)]; exact hd.control,
      by rw [changes_of_ne (by decide)]; exact hd.memory⟩
  refine always_append (fun k => ?_) ?_
  · -- some of the changes are made
    rw [← List.map_take]
    exact .applying v (hdisk _) (himg _) hp (fun c hc => hpiece c (List.mem_of_mem_take hc)) hl hn rfl
      htot
  · have h1 : Recoverable (r.image old) d1 :=
      .applying v (hdisk _) (himg _) hp hpiece hl hn rfl htot
    have hnew : (⟨b, r.changes b⟩ : File UInt8).cur = r.image old := by
      rw [← r.image_of_partial hp, ← r.foldl_changes]; rfl
    -- the image is synced
    set d2 := (Op.fsync .image).apply d1 with hd2
    have hi2 : d2 .image = some ⟨r.image old, []⟩ := by
      rw [hd2, Op.apply, Function.update_self, hd1, himg, Option.map_some, File.sync, hnew]
    have hk2 : OnDisk c m d2 := ⟨(hdisk _).control, (hdisk _).memory⟩
    have h2 : Recoverable (r.image old) d2 :=
      .applying v hk2 hi2 (r.partial_image old) (fun _ h => by cases h) hl hn rfl htot
    -- the patch is deleted, the control file first
    have hrest : ∀ d : Dsk, d .control = none → d .image = some ⟨r.image old, []⟩ →
        (d .memory = some ⟨m, []⟩ ∨ d .memory = none) → Recoverable (r.image old) d := by
      intro d hc hi hm
      refine .clean (fun n f hf => ?_) (.inl hi) (by simp [patchOf, hc])
      cases n with
      | control => rw [hc] at hf; cases hf
      | memory =>
        rcases hm with hm | hm
        · rw [hm] at hf; cases hf; rfl
        · rw [hm] at hf; cases hf
      | image => rw [hi] at hf; cases hf; rfl
    have h3 : Recoverable (r.image old) ((Op.unlink .control).apply d2) :=
      hrest _ rfl hi2 (.inl hk2.memory)
    have h4 : Recoverable (r.image old) ((Op.unlink .memory).apply ((Op.unlink .control).apply d2)) :=
      hrest _ rfl hi2 (.inr rfl)
    exact always_cons h1 (always_cons h2 (always_cons h3 (always_nil h4)))

theorem redoOps_image {b : List UInt8} {d : Dsk} (hi : d .image = some ⟨b, []⟩)
    (cs : List (Change UInt8)) : applyAll d (redoOps cs) .image =
      some ⟨cs.foldl (fun b c => c.apply b) b, []⟩ := by
  rw [redoOps, applyAll_append]
  show ((Op.fsync Nam.image).apply (applyAll d _)) .image = _
  rw [Op.apply, Function.update_self, applyAll_changes _ _ _ _ hi]
  rfl

theorem redoOps_gone (cs : List (Change UInt8)) (d : Dsk) :
    applyAll d (redoOps cs) .control = none ∧ applyAll d (redoOps cs) .memory = none := by
  rw [redoOps, applyAll_append]
  exact ⟨rfl, rfl⟩

/-! ### A save -/

/-- `u3e_save` goes on: the guard page lies between the heap and the stack. -/
def Guarded (p : Proc) (low hig : UInt32) : Prop :=
  low.toNat >>> u3aPage < p.pool.gar ∧ p.pool.gar < hig.toNat >>> u3aPage

instance (p : Proc) (low hig : UInt32) : Decidable (Guarded p low hig) := by
  unfold Guarded; infer_instance

/-- The operations of a save of the image `old`. -/
def saveOps (p : Proc) {max : ℕ} (h : max ≤ 2 ^ 20) (old : List UInt8) : List (Op Nam UInt8) :=
  composeOps p max ++ ([.fsync .control, .fsync .memory] ++
    redoOps ((whole_composed (p := p) h).redo.changes old))

/-- The process after a save of `max` pages that made the image `b`. -/
def saved (wag : Wag) (p : Proc) (max sop : ℕ) (b : List UInt8) : Proc :=
  let dif := p.pool.pgs - max
  { pool := { p.pool with pgs := max, dit := loomTrack max dif p.pool.dit }
    loom := { p.loom with
      page := eToss max sop
        (if wag.noDemand then p.loom.page else loomMapf b max dif p.loom.page) } }

/-- The files once the patch is written. -/
theorem composeOps_disk (p : Proc) (max : ℕ) (d : Dsk) :
    applyAll d (composeOps p max) .control = some ⟨[], [.pwrite 0 (composed p max).bytes]⟩ ∧
    (∃ cs, applyAll d (composeOps p max) .memory = some ⟨[], cs⟩ ∧
      cs.foldl (fun b c => c.apply b) [] = patchMemory p max) ∧
    applyAll d (composeOps p max) .image = d .image := by
  set d1 := applyAll d [.creat .control, .creat .memory] with hd1
  set cs := appendChanges 0 ((patchPages p max).map p.loom.page) with hcs
  have hother : ∀ n, n ≠ .memory → applyAll d1 (cs.map (.change .memory)) n = d1 n := fun n hn =>
    applyAll_of_ne _ _ fun o ho => by
      obtain ⟨c, _, rfl⟩ := List.mem_map.mp ho
      exact hn
  have hmem : applyAll d1 (cs.map (.change .memory)) .memory = some ⟨[], cs⟩ :=
    applyAll_changes .memory cs d1 ⟨[], []⟩ rfl
  have hall : applyAll d (composeOps p max) =
      (Op.change .control (.pwrite 0 (composed p max).bytes)).apply
        (applyAll d1 (cs.map (.change .memory))) := by
    rw [composeOps, applyAll_append, applyAll_append]; rfl
  rw [hall]
  refine ⟨?_, ⟨cs, ?_, foldl_appendChanges _ []⟩, ?_⟩
  · rw [Op.apply, Function.update_self, hother _ (by decide)]; rfl
  · rw [apply_of_ne _ _ (by simp [Op.name]), hmem]
  · rw [apply_of_ne _ _ (by simp [Op.name]), hother _ (by decide)]; rfl

theorem bytes_ne_nil (con : Control) : con.bytes ≠ [] := by
  intro h
  have := length_bytes con
  rw [h, List.length_nil, sizeofControl] at this
  omega

/-- The files once the patch is synced. -/
theorem synced_disk (p : Proc) (max : ℕ) (d : Dsk) :
    OnDisk (composed p max).bytes (patchMemory p max)
      (applyAll d (composeOps p max ++ [.fsync .control, .fsync .memory])) ∧
    applyAll d (composeOps p max ++ [.fsync .control, .fsync .memory]) .image = d .image := by
  obtain ⟨h1, ⟨cs, h2, h3⟩, h4⟩ := composeOps_disk p max d
  rw [applyAll_append]
  set d1 := applyAll d (composeOps p max)
  refine ⟨⟨?_, ?_⟩, h4⟩
  · show Option.map (·.sync) (d1 .control) = _
    rw [h1, Option.map_some, File.sync]
    congr 2
    have := pwrite_length [] (bytes_ne_nil (composed p max))
    rwa [List.nil_append] at this
  · show Option.map (·.sync) (d1 .memory) = _
    rw [h2, Option.map_some, File.sync]
    congr 2

theorem counted_of_paged {con : Control} {n : ℕ} {b : List UInt8} (h : b.length = ceLen n) :
    Counted con n b := by
  rw [Counted, h, ceLen_lt]

/-- What a save does once the patch is written: it is synced and verified,
applied, the image synced and the patch deleted. -/
theorem u3eSavePatch_run (wag : Wag) {p : Proc} {max : ℕ} (h : max ≤ 2 ^ 20) (sop : ℕ)
    {old : List UInt8} {d : Dsk} (hi : d .image = some ⟨old, []⟩)
    (hl : old.length = ceLen p.pool.pgs) :
    u3eSavePatch wag p max sop (composed p max) (applyAll d (composeOps p max)) =
      ([.fsync .control, .fsync .memory] ++
          redoOps ((whole_composed (p := p) h).redo.changes old),
        some (saved wag p max sop ((whole_composed (p := p) h).redo.image old))) := by
  have hw := whole_composed (p := p) h
  obtain ⟨hk, hi1⟩ := synced_disk p max d
  rw [applyAll_append] at hk hi1
  set d1 := applyAll (applyAll d (composeOps p max)) [.fsync .control, .fsync .memory] with hd1
  rw [hi] at hi1
  have hsync : ∀ d, patchSync d = ([.fsync .control, .fsync .memory], some ()) := fun d => by
    rw [patchSync, Prog.bind_some (Prog.perform_run _ _), Prog.perform_run]; rfl
  have hver : patchVerify (composed p max) d1 = ([], some true) := by
    rw [patchVerify, Prog.bind_some (Prog.look_run _ _), applyAll_nil, hk.memory]
    show ([], some (verifies (composed p max) (patchMemory p max))) = _
    rw [verifies_composed]
  have hcount : Counted (composed p max) p.pool.pgs old := counted_of_paged hl
  have happ := patchApply_run hw hk.memory rfl hcount
  set r := hw.redo with hr
  set d2 := applyAll d1 ((r.changes old).map (.change .image)) with hd2
  have himg := redoOps_image hi1 (r.changes old)
  rw [r.foldl_changes, redoOps, applyAll_append] at himg
  have hlook : lookImage (applyAll ((Op.fsync .image).apply d2) deleteOps) =
      ([], some (r.image old)) := by
    rw [lookImage, Prog.bind_some (Prog.look_run _ _), applyAll_nil]
    rw [applyAll_cons] at himg
    rw [himg]
    rfl
  rw [u3eSavePatch, Prog.bind_some (hsync _), ← hd1, Prog.bind_some hver]
  simp only [applyAll_nil, if_true]
  rw [Prog.bind_some happ, ← hd2, Prog.bind_some (Prog.perform_run _ _),
    Prog.bind_some (patchDelete_run _)]
  simp only [applyAll_cons, applyAll_nil]
  rw [Prog.bind_some hlook, composed_tot h]
  simp only [redoOps, List.nil_append, List.append_nil, List.cons_append, Prog.pure_run]
  rfl

/-- What a save does, from a disk with no control file and a durable image of
the pages the process knows. -/
theorem u3eSave_run (wag : Wag) {p : Proc} (low hig : UInt32) {old : List UInt8} {d : Dsk}
    (hc : d .control = none) (hi : d .image = some ⟨old, []⟩) (hl : old.length = ceLen p.pool.pgs) :
    u3eSave wag p low hig d =
      if wag.dryrun then ([], some p)
      else if ¬ Guarded p low hig then ([], none)
      else if patchPages p (norPage low) = [] then ([], some p)
      else if d .memory = none then (saveOps p (norPage_le low) old,
        some (saved wag p (norPage low) (hig.toNat >>> u3aPage)
          ((whole_composed (p := p) (norPage_le low)).redo.image old)))
      else ([.creat .control], none) := by
  have hcomp := patchCompose_run p (norPage low) hc
  unfold u3eSave
  by_cases hdry : wag.dryrun
  · rw [if_pos hdry, if_pos hdry]; rfl
  rw [if_neg hdry, if_neg hdry, ite_not, ite_not]
  show (if Guarded p low hig then _ else _ : Io Proc) d = _
  by_cases hg : Guarded p low hig
  · rw [if_pos hg, if_pos hg]
    show ((patchCompose p (norPage low) >>= _) : Io Proc) d = _
    by_cases h1 : patchPages p (norPage low) = []
    · rw [if_pos h1] at hcomp ⊢
      rw [Prog.bind_some hcomp]
      rfl
    · rw [if_neg h1] at hcomp ⊢
      by_cases h2 : d .memory = none
      · rw [if_pos h2] at hcomp ⊢
        rw [Prog.bind_some hcomp]
        have hrest := u3eSavePatch_run wag (norPage_le low) (hig.toNat >>> u3aPage) hi hl
        show (_ ++ (u3eSavePatch wag p (norPage low) _ _ _).1,
          (u3eSavePatch wag p (norPage low) _ _ _).2) = _
        rw [hrest]
        rfl
      · rw [if_neg h2] at hcomp ⊢
        rw [Prog.bind_none hcomp]
  · rw [if_neg hg, if_neg hg]; rfl

/-- **At every crash point of a save the old snapshot is untouched, or a boot
brings the image to the new one.** -/
theorem always_save (p : Proc) {max n : ℕ} (h : max ≤ 2 ^ 20) {old : List UInt8} {d : Dsk}
    (hi : d .image = some ⟨old, []⟩) (hl : old.length = ceLen n) (hn : n < 2 ^ 32)
    (htot : ((whole_composed (p := p) h).redo.image old).length = ceLen max) :
    Always (fun d => d .image = some ⟨old, []⟩ ∨
        Recoverable ((whole_composed (p := p) h).redo.image old) d) d (saveOps p h old) := by
  have hold : ∀ o : Op Nam UInt8, o ∈ composeOps p max ++ [.fsync .control, .fsync .memory] →
      o.name ≠ .image := by
    intro o ho
    simp only [composeOps, List.mem_append, List.mem_map, List.mem_cons, List.not_mem_nil,
      or_false] at ho
    rcases ho with ((rfl | rfl) | ⟨c, _, rfl⟩ | rfl) | rfl | rfl <;> simp [Op.name]
  rw [saveOps, ← List.append_assoc]
  refine always_append ?_ ?_
  · refine (always_of_step (P := fun d => d .image = some ⟨old, []⟩) _ d hi ?_).mono
      fun _ h => .inl h
    intro o ho d hd
    rw [apply_of_ne _ _ (hold o ho).symm, hd]
  · obtain ⟨hk, hi1⟩ := synced_disk p max d
    rw [hi] at hi1
    have v := valid_composed (p := p) h
    exact (always_redo v hk hi1 (v.whole.redo.partial_self old) hl hn
      (by rw [htot, composed_tot h])).mono fun _ h => .inr h

end Snapshot
end Ursockets
