/-
# The snapshot system

`events.c`: the dirty pages of the loom are written to a patch (a control
file and a file of pages), the patch is synced, verified and applied to the
image, the image is synced, the patch deleted (`u3e_save`). On boot a patch
left behind is applied if it verifies and deleted if it does not
(`u3e_live`). Both are programs of file operations (`CrashFs`) on the three
files of the checkpoint directory.

An error of the system itself (a full disk, a failed sync) is not modelled:
every operation is performed. The verbose reports, the ephemeral file and the
memory protection are left out; the pages of memory that a save maps back
are in `loomMapf`.

Key definitions: `u3eSave`, `u3eLive`, `patchVerify`, `patchApply`.
-/
import Ursockets.Lib.CrashFs
import Ursockets.Murmur3

namespace Ursockets
namespace Events

open CrashFs Murmur3

/-! ### Pages and files -/

/-- The log of a page's words. -/
def u3aPage : ℕ := 12

/-- `_ce_page`: the bytes of a page. -/
def cePage : ℕ := 16384

/-- `_ce_len`: the bytes of `i` pages. -/
def ceLen (i : ℕ) : ℕ := i * cePage

/-- `u3a_free_pg`: the directory's entry of a free page. -/
def u3aFreePg : UInt32 := 0

/-- `U3P_VERLAT`: the version of the patch format. -/
def u3pVerlat : UInt32 := 2

/-- The contents of a page. -/
abbrev Page := { b : List UInt8 // b.length = cePage }

/-- A page of zeros. -/
def Page.zero : Page := ⟨List.replicate cePage 0, List.length_replicate⟩

/-- Page `i` of a content, zeros past its end. -/
def pageOf (b : List UInt8) (i : ℕ) : Page :=
  ⟨ftruncate cePage (pread cePage (ceLen i) b), length_ftruncate _ _⟩

/-- The files of the checkpoint directory. -/
inductive Nam where
  | control
  | memory
  | image
  deriving DecidableEq, Repr

abbrev Dsk := Disk Nam UInt8

abbrev Io (β : Type) := Prog Nam UInt8 β

/-- `_ce_muk_buf`. -/
def ceMukBuf (b : List UInt8) : UInt32 := murmurHash3 b 0xcafebabe

/-- `_ce_muk_page`. -/
def ceMukPage (p : List UInt8) : UInt32 := ceMukBuf p

/-! ### The control block -/

/-- `u3e_line`: a page's number and its checksum. -/
structure Line where
  pag : UInt32
  has : UInt32
  deriving DecidableEq, Repr

/-- `u3e_control`. -/
structure Control where
  ver : UInt32
  has : UInt32
  tot : UInt32
  pgs : UInt32
  mem : List Line
  deriving DecidableEq, Repr

/-- A word in memory, least significant byte first. -/
def wordBytes (w : UInt32) : List UInt8 :=
  [w.toUInt8, (w >>> 8).toUInt8, (w >>> 16).toUInt8, (w >>> 24).toUInt8]

def Line.bytes (l : Line) : List UInt8 := wordBytes l.pag ++ wordBytes l.has

/-- The control block from `tot_w` on, what its checksum is of. -/
def Control.body (c : Control) : List UInt8 :=
  wordBytes c.tot ++ wordBytes c.pgs ++ c.mem.flatMap Line.bytes

/-- The control block as it lies in memory. -/
def Control.bytes (c : Control) : List UInt8 := wordBytes c.ver ++ wordBytes c.has ++ c.body

/-- `sizeof(u3e_control)`. -/
def sizeofControl : ℕ := 16

/-- `sizeof(u3e_line)`. -/
def sizeofLine : ℕ := 8

/-- The word at the front of a memory. -/
def bytesWord : List UInt8 → UInt32
  | a :: b :: c :: d :: _ => getblock a b c d
  | _ => 0

/-- `n` lines read from memory. -/
def bytesLines : ℕ → List UInt8 → List Line
  | 0, _ => []
  | n + 1, b => ⟨bytesWord b, bytesWord (b.drop 4)⟩ :: bytesLines n (b.drop 8)

/-- A memory read as a control block. -/
def Control.ofBytes (b : List UInt8) : Control :=
  { ver := bytesWord b
    has := bytesWord (b.drop 4)
    tot := bytesWord (b.drop 8)
    pgs := bytesWord (b.drop 12)
    mem := bytesLines (bytesWord (b.drop 12)).toNat (b.drop sizeofControl) }

/-! ### The process -/

/-- `u3e_pool`: the pages written since the last save, the pages of memory,
the guard page and the pages of the open image. -/
structure Pool where
  dit : ℕ → Bool
  pag : ℕ
  gar : ℕ
  pgs : ℕ

/-- The loom: its pages, and of the home road the start of the heap, the
page directory and its length. -/
structure Loom where
  page : ℕ → Page
  rut : UInt32
  len : ℕ
  dir : ℕ → UInt32

/-- The flags of `u3C.wag_w` that the snapshot reads. -/
structure Wag where
  dryrun : Bool
  noDemand : Bool
  deriving DecidableEq, Repr

/-- What the process knows: the pool and the loom. -/
structure Proc where
  pool : Pool
  loom : Loom

/-! ### The patch -/

/-- `_ce_patch_count_page`. -/
def patchCountPage (p : Proc) (pag off pgc : ℕ) : ℕ :=
  if p.pool.dit pag ∧ (pag < off ∨ p.loom.len ≤ pag - off ∨ p.loom.dir (pag - off) ≠ u3aFreePg)
  then pgc + 1 else pgc

/-- `_ce_patch_write_page`. -/
def patchWritePage (pgc : ℕ) (mem : Page) : Io Unit :=
  Prog.perform (.change .memory (.pwrite (ceLen pgc) mem.1))

/-- `_ce_patch_save_page`, with the lines of the control block so far. -/
def patchSavePage (p : Proc) (pag off pgc : ℕ) (mem : List Line) : Io (ℕ × List Line) :=
  if p.pool.dit pag then
    if off ≤ pag ∧ pag - off < p.loom.len ∧ p.loom.dir (pag - off) = u3aFreePg then
      pure (pgc, mem)
    else do
      patchWritePage pgc (p.loom.page pag)
      pure (pgc + 1, mem ++ [⟨UInt32.ofNat pag, ceMukPage (p.loom.page pag).1⟩])
  else
    pure (pgc, mem)

/-- The loop of `_ce_patch_compose` over the pages. -/
def patchSavePages (p : Proc) (off : ℕ) : List ℕ → ℕ → List Line → Io (ℕ × List Line)
  | [], pgc, mem => pure (pgc, mem)
  | i :: is, pgc, mem => do
    let (pgc, mem) ← patchSavePage p i off pgc mem
    patchSavePages p off is pgc mem

/-- Create a file that must not be there (`O_EXCL`). -/
def creatExcl (n : Nam) : Io Unit := do
  match ← Prog.look n with
  | some _ => Prog.halt
  | none => Prog.perform (.creat n)

/-- `_ce_patch_create`. -/
def patchCreate : Io Unit := do
  creatExcl .control
  creatExcl .memory

/-- `_ce_patch_delete`. -/
def patchDelete : Io Unit := do
  Prog.perform (.unlink .control)
  Prog.perform (.unlink .memory)

/-- `_ce_patch_write_control`. -/
def patchWriteControl (con : Control) : Io Unit :=
  Prog.perform (.change .control (.pwrite 0 con.bytes))

/-- `_ce_patch_compose`: the patch of the dirty pages below `max`, none if
there is none. -/
def patchCompose (p : Proc) (max : ℕ) : Io (Option Control) :=
  let off := p.loom.rut.toNat >>> u3aPage
  let pgs := (List.range max).foldl (fun n i => patchCountPage p i off n) 0
  if pgs = 0 then pure none
  else do
    patchCreate
    let (pgc, mem) ← patchSavePages p off (List.range max) 0 []
    if pgc ≠ pgs then Prog.halt
    else do
      let con : Control := ⟨u3pVerlat, 0, UInt32.ofNat max, UInt32.ofNat pgc, mem⟩
      let con := { con with has := ceMukBuf con.body }
      patchWriteControl con
      pure (some con)

/-- `_ce_patch_sync`. -/
def patchSync : Io Unit := do
  Prog.perform (.fsync .control)
  Prog.perform (.fsync .memory)

/-- The pages of the patch against the lines of its control block, from page
`i` on. -/
def verifyPages (m : List UInt8) : ℕ → List Line → Bool
  | _, [] => true
  | i, l :: ls =>
    let buf := pread cePage (ceLen i) m
    if buf.length ≠ cePage then false
    else if l.has ≠ ceMukPage buf then false
    else verifyPages m (i + 1) ls

/-- The checks of `_ce_patch_verify` on a control block and the bytes of the
memory file. -/
def verifies (con : Control) (m : List UInt8) : Bool :=
  if con.ver ≠ u3pVerlat then false
  else if ceMukBuf con.body ≠ con.has then false
  else verifyPages m 0 con.mem

/-- `_ce_patch_verify`. -/
def patchVerify (con : Control) : Io Bool := do
  match ← Prog.look .memory with
  | none => Prog.halt
  | some f => pure (verifies con f.cur)

/-- `_ce_patch_read_control`: the control block, if the file is as long as it
says. -/
def readControl (b : List UInt8) : Option Control :=
  let len := b.length % 2 ^ 32
  if len = 0 then none
  else
    let con := Control.ofBytes (b.take len)
    if len < sizeofControl ∨ len ≠ sizeofControl + con.pgs.toNat * sizeofLine then none
    else some con

/-- `_ce_patch_open`: the patch left behind, if it is whole. -/
def patchOpen : Io (Option Control) := do
  match ← Prog.look .control with
  | none => pure none
  | some ctl =>
    match ← Prog.look .memory with
    | none => do
      patchDelete
      pure none
    | some _ =>
      match readControl ctl.cur with
      | none => do
        patchDelete
        pure none
      | some con =>
        if ← patchVerify con then pure (some con)
        else do
          patchDelete
          pure none

/-! ### The image -/

/-- `_ce_image_resize`, the image's pages before and after. -/
def imageResize (old pgs : ℕ) : Io Unit :=
  if pgs < old then Prog.perform (.change .image (.ftruncate (ceLen pgs))) else pure ()

/-- The loop of `_ce_patch_apply`: the memory file is read in order from page
`i` on. -/
def applyPages : ℕ → List Line → Io Unit
  | _, [] => pure ()
  | i, l :: ls => do
    match ← Prog.look .memory with
    | none => Prog.halt
    | some f =>
      let buf := pread cePage (ceLen i) f.cur
      if buf.length ≠ cePage then Prog.halt
      else do
        Prog.perform (.change .image (.pwrite (ceLen l.pag.toNat) buf))
        applyPages (i + 1) ls

/-- `_ce_patch_apply`: the new pages of the image. -/
def patchApply (old : ℕ) (con : Control) : Io ℕ := do
  imageResize old con.tot.toNat
  applyPages 0 con.mem
  pure con.tot.toNat

inductive ImgStat where
  | good
  | fail
  | size
  deriving DecidableEq, Repr

/-- `_ce_image_stat`: the status of the image, and its pages if it is good. -/
def imageStat (b : List UInt8) : ImgStat × ℕ :=
  let siz := b.length
  let pgs := (siz + (cePage - 1)) >>> (u3aPage + 2)
  if siz = 0 then (.good, 0)
  else if siz ≠ ceLen pgs then (.size, 0)
  else if pgs > 2 ^ 32 - 1 then (.fail, 0)
  else (.good, pgs)

/-- `_ce_image_open`: open or create the image. The pool is fresh, so that an
image of a bad size counts no pages. -/
def imageOpen : Io (ImgStat × ℕ) := do
  match ← Prog.look .image with
  | some f => pure (imageStat f.cur)
  | none => do
    Prog.perform (.creat .image)
    pure (imageStat [])

/-! ### The loom -/

/-- `_ce_loom_track`: `pgs` clean pages, then `dif` dirty ones. -/
def loomTrack (pgs dif : ℕ) (dit : ℕ → Bool) : ℕ → Bool := fun i =>
  if i < pgs then false else if i < pgs + dif then true else dit i

/-- `_ce_loom_mapf`: the pages of memory once the image is mapped at the
bottom; the `dif` pages after it are new. -/
def loomMapf (b : List UInt8) (pgs dif : ℕ) (page : ℕ → Page) : ℕ → Page := fun i =>
  if i < pgs then pageOf b i else if i < pgs + dif then Page.zero else page i

/-- `u3e_toss`: the pages between the heap and the stack are dropped. -/
def eToss (nor sop : ℕ) (page : ℕ → Page) : ℕ → Page := fun i =>
  if nor ≤ i ∧ i < sop then Page.zero else page i

/-- The content of the open image. -/
def lookImage : Io (List UInt8) := do
  match ← Prog.look .image with
  | none => Prog.halt
  | some f => pure f.cur

/-! ### Saving and booting -/

/-- The part of `u3e_save` after the patch is composed. -/
def u3eSavePatch (wag : Wag) (p : Proc) (nor sop : ℕ) (con : Control) : Io Proc := do
  patchSync
  if ← patchVerify con then do
    let pgs ← patchApply p.pool.pgs con
    Prog.perform (.fsync .image)
    patchDelete
    let b ← lookImage
    let dif := p.pool.pgs - pgs
    let page := if wag.noDemand then p.loom.page else loomMapf b pgs dif p.loom.page
    pure
      { pool := { p.pool with pgs := pgs, dit := loomTrack pgs dif p.pool.dit }
        loom := { p.loom with page := eToss nor sop page } }
  else
    Prog.halt

/-- `u3e_save`, for the heap below `low` and the stack above `hig`. -/
def u3eSave (wag : Wag) (p : Proc) (low hig : UInt32) : Io Proc :=
  if wag.dryrun then pure p
  else
    let nop := low.toNat >>> u3aPage
    let nor := (low.toNat + (2 ^ u3aPage - 1)) >>> u3aPage
    let sop := hig.toNat >>> u3aPage
    if ¬ (nop < p.pool.gar ∧ p.pool.gar < sop) then Prog.halt
    else do
      match ← patchCompose p nor with
      | none => pure p
      | some con => u3eSavePatch wag p nor sop con

/-- The part of `u3e_live` that looks for a patch, for an image of status `sat`
and `pgs` pages: the pages it has then. -/
def u3eLivePatch (sat : ImgStat) (pgs : ℕ) : Io ℕ := do
  match ← patchOpen with
  | some con => do
    let pgs ← patchApply pgs con
    Prog.perform (.fsync .image)
    patchDelete
    pure pgs
  | none => if sat = .size then Prog.halt else pure pgs

/-- The pool and the pages of memory when the image `b` of `pgs` pages is
mapped, or read in, to a loom of `pag` pages. -/
def liveProc (pag pgs : ℕ) (b : List UInt8) : Pool × (ℕ → Page) :=
  ({ dit := loomTrack pgs 0 fun _ => true, pag := pag, gar := pgs + (pag - pgs) / 2, pgs := pgs },
    loomMapf b pgs 0 fun _ => Page.zero)

/-- `u3e_live`, in a fresh process with `pag` pages of memory: the pool and
the pages of memory it leaves. -/
def u3eLive (pag : ℕ) : Io (Pool × (ℕ → Page)) := do
  let (sat, pgs) ← imageOpen
  if sat = .fail then Prog.halt
  else do
    let pgs ← u3eLivePatch sat pgs
    if pag ≤ pgs + 1 then Prog.halt
    else do
      let b ← lookImage
      pure (liveProc pag pgs b)

end Events
end Ursockets
