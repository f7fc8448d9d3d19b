/-
# The pages that answer peeks

A peek names a message of ours and one of its fragments. The fragment is cut out of the line of the message, if it
is in the cache; if the message is being asked for, nothing is done; and if not, it is asked for, and when it comes
the first fragment goes to all who wait under the peek's name, whichever fragment that is. What is asked for is
always the first frame of a message, and where a fragment lies behind the end of it, or of the message, bytes
outside the line are read.

Key definitions: `Message`, `sendLeaf`, `sendPiece`, `Peek`, `Service`, `serviceTurn`, `wanted`, `ServedRight`,
`Served`, `ServiceFits`.
Key theorems: `nameToJumboStr_inj`, `sendPiece_iff`, `serviceTurn_right`, `pages_right_iff`.
-/
import Ursockets.MesaCache
import Ursockets.PactCanonical

namespace Ursockets
namespace MesaPages

open Bits
open Mesa
open Maps (Map)

/-! ### Messages and their frames -/

/-- A message that is bound to a path: its bytes, what authenticates it, the pair of each of its leaves, which is `0`
where there is none, and its proof. -/
structure Message where
  data : List UInt8
  aut : Auth
  pairs : ℕ → ℕ
  pof : ℕ
  fits : data.length < 2 ^ 64

namespace Message

variable (m : Message)

def tob : UInt64 := UInt64.ofNat m.data.length

/-- How many fragments it has. -/
def leaves : ℕ := (m.data.length + 1023) / 1024

/-- How many of them are in its first frame, which is of bloq 31: 256 megabytes. -/
def framed : ℕ := min m.leaves (2 ^ 18)

def pas : List ℕ := (List.range m.framed).map m.pairs

/-- What the ship says when it is asked for the first frame. -/
def frame (nam : Name (List UInt8)) : Scried := .page nam.jumbo ⟨m.tob, m.aut, m.data.take (2 ^ 28)⟩ m.pas m.pof

/-- The line that is made of it. -/
def line (nam : Name (List UInt8)) : Line := lineOf nam.jumbo ⟨m.tob, m.aut, m.data.take (2 ^ 28)⟩ m.pas m.pof

end Message

/-! ### Pages -/

/-- A page: its name and its data. -/
abbrev Page := Name (List UInt8) × Data (List UInt8)

/-- Bytes of a buffer, or none where they are not all inside. -/
def read (buf : List UInt8) (o n : ℕ) : Option (List UInt8) :=
  if o + n ≤ buf.length then some ((buf.drop o).take n) else none

/-- `u3_mesa_line`: the bytes of the spine, the data and the pairs stand one after the other. -/
def lineBytes (lin : Line) : List UInt8 := lin.tip ++ (lin.dat ++ lin.haz)

/-- A pair as authentication, none if it is all zeros. -/
def pairAuth (pair : List UInt8) : Auth :=
  if pair = List.replicate 64 0 then .none
  else if h : pair.length = 64 then
    .pair ⟨pair.take 32, by rw [List.length_take, h]; rfl⟩ ⟨pair.drop 32, by rw [List.length_drop, h]⟩
  else .none

section

-- `u3_Host.ops_u.jum_y`
variable (jum : ℕ)

/-- `_mesa_lop`: find beginning of page containing `fra`. -/
def mesaLop (fra : UInt64) : UInt64 := fra &&& ~~~(UInt64.ofNat (2 ^ jum) - 1)

/-- `_mesa_send_leaf`: the authentication of a leaf, by the fragment and its index in the line. -/
def leafAuth (lin : Line) (fra i : UInt64) : Option Auth :=
  if fra = 0 then some lin.aut
  else (read (lineBytes lin) ((lin.tip.length + lin.dat.length + 64 * i.toNat) % 2 ^ 64) 64).map pairAuth

/-- `_mesa_send_leaf`: the page it sends, unless it reads outside of the line. -/
def sendLeaf (lin : Line) (nam : Name (List UInt8)) (fra : UInt64) : Option Page := do
  let i := fra - lin.nam.fra * UInt64.ofNat (2 ^ jum)
  let cur := (i * 1024).toUInt32
  let rest := UInt32.ofNat lin.dat.length - cur
  let len := if rest < 1024 then rest else 1024
  let dat ← read (lineBytes lin) (lin.tip.length + cur.toNat) len.toNat
  let aut ← leafAuth lin fra i
  some ({ nam with fra := fra }, ⟨lin.tob.toUInt64, aut, dat⟩)

/-- `_mesa_send_piece`: the page it sends, if any, unless it reads outside of the line. -/
def sendPiece (lin : Line) (nam : Name (List UInt8)) (fra : UInt64) : Option (Option Page) :=
  let pro := Lss.proofSize (mesaNumLeaves lin.tob.toUInt64).toUInt32.toNat
  if nam.fra = 0 ∧ nam.nit then
    if 1 < pro then
      (read (lineBytes lin) 0 (pro * 32)).map fun dat => some (nam, ⟨lin.tob.toUInt64, lin.aut, dat⟩)
    else if fra = 0 then (sendLeaf jum lin nam 0).map some
    else some none
  else (sendLeaf jum lin nam fra).map some

end

/-! ### Peeks -/

/-- A peek, by the bytes of its name. -/
structure Peek where
  str : List UInt8
  fits : NameFits str 0
  whole : nameEnd str 0 = str.length

/-- The name that is sifted from them. -/
def Peek.nam (p : Peek) : Name (List UInt8) := (nameOf p.str 0).read p.str

/-- An address. -/
abbrev Addr := UInt32 × UInt16

/-- The cache, who waits under a name, and the questions that are open. -/
structure Service where
  cache : Cache
  pit : Map (List UInt8) (List Addr)
  asked : List Peek
  /-- history: the pages that were sent, each with the peek it answers; no function reads it -/
  sent : List (Addr × Peek × Page)
  /-- bytes outside of a line were read -/
  fault : Bool

def Service.start : Service := ⟨⟨0, ∅⟩, ∅, [], [], false⟩

/-- A peek comes; the answer to one of the questions comes, with the message if it is there; or those who wait under
a name are forgotten. -/
inductive ServiceEvent where
  | peek (p : Peek) (lan : Addr)
  | answer (i : ℕ) (ready : Bool)
  | forget (str : List UInt8)

/-- `_mesa_add_lane_to_pit`. -/
def addLaneToPit (pit : Map (List UInt8) (List Addr)) (nam : Name (List UInt8)) (lan : Addr) :
    Map (List UInt8) (List Addr) :=
  match pit.lookup nam.str with
  | none => pit.insert nam.str [lan]
  | some lans => if lan ∈ lans then pit else pit.insert nam.str (lan :: lans)

/-- What is sent for a peek to some addresses. -/
def Service.send (a : Service) (p : Peek) (lans : List Addr) : Option (Option Page) → Service
  | none => if lans = [] then a else { a with fault := true }
  | some none => a
  | some (some pag) => { a with sent := a.sent ++ lans.map fun lan => (lan, p, pag) }

section

-- `u3_Host.ops_u.jum_y`; who we are; and what is bound to a path of ours in a rift
variable (jum : ℕ) (who : Ship) (bound : Ship → UInt32 → List UInt8 → Message)

/-- The name of a peek for the page that its fragment is in. -/
def Peek.lopped (p : Peek) : Name (List UInt8) := { p.nam with fra := mesaLop jum p.nam.fra }

/-- The message that a name is of. -/
def boundTo (nam : Name (List UInt8)) : Message := bound nam.her nam.rif nam.pat

/-- `_mesa_hear_peek` and `_mesa_page_scry_jumbo_cb`. -/
def serviceTurn (a : Service) : ServiceEvent → Option Service
  | .peek p lan =>
    if a.fault then none
    else
      match hearPeek who a.cache (p.lopped jum) with
      | (c, .sends lin _) => some ({ a with cache := c }.send p [lan] (sendPiece jum lin (p.lopped jum) p.nam.fra))
      | (c, .asks) => some { a with cache := c, pit := addLaneToPit a.pit p.nam lan, asked := a.asked ++ [p] }
      | (c, _) => some { a with cache := c }
  | .answer i ready =>
    if a.fault then none
    else do
      let p ← a.asked[i]?
      let res := if ready then (boundTo bound p.nam).frame p.nam else .none
      let (c, lin) := pageScryJumboCb a.cache (p.lopped jum) res
      let a := { a with cache := c, asked := a.asked.eraseIdx i }
      match lin, a.pit.lookup p.nam.str with
      | some lin, some lans =>
        some ({ a with pit := a.pit.erase p.nam.str }.send p lans (sendPiece jum lin (p.lopped jum) 0))
      | _, _ => some a
  | .forget str => if a.fault then none else some { a with pit := a.pit.erase str }

/-- **The page that a name asks for**, if there is one: the proof of a message, for an init name of a message of more
than one leaf; or the fragment, with what authenticates it. -/
def wanted (m : Message) (nam : Name (List UInt8)) : Option Page :=
  if nam.nit ∧ 1 < m.leaves then some (nam, ⟨m.tob, m.aut, numBytes (Lss.proofSize m.leaves * 32) m.pof⟩)
  else if nam.fra.toNat < m.leaves then
    some (nam, ⟨m.tob, if nam.fra = 0 then m.aut else pairAuth (numBytes 64 (m.pairs nam.fra.toNat)),
      (m.data.drop (1024 * nam.fra.toNat)).take 1024⟩)
  else none

/-- **What was sent is what was asked for**, and nothing outside of a line was read. -/
structure ServedRight (a : Service) : Prop where
  fault : a.fault = false
  sent : ∀ s ∈ a.sent, wanted (boundTo bound s.2.1.nam) s.2.1.nam = some s.2.2

/-- The names whose fragments are cut out right: the message has less than four gigabytes, and the fragment is in the
first frame. -/
def Served (m : Message) (nam : Name (List UInt8)) : Prop := m.data.length < 2 ^ 32 ∧ nam.fra.toNat < m.framed

/-- The events that are taken right: a peek that finds a line is for a fragment in it; and when a message comes for
which someone waits, they wait for its first fragment, and it has one. -/
def ServiceFits (a : Service) : ServiceEvent → Prop
  | .peek p _ =>
    p.nam.her = who → ∀ lin, getJumboCache a.cache p.nam = some (.line lin) → Served (boundTo bound p.nam) p.nam
  | .answer i ready => ∀ p lans, a.asked[i]? = some p → ready = true → a.pit.lookup p.nam.str = some lans → lans ≠ [] →
      Served (boundTo bound p.nam) p.nam ∧ p.nam.fra = 0
  | .forget _ => True

end

/-! ### Names in the cache -/

variable {nam nam' : Name (List UInt8)} {m : Message} {jum : ℕ} {fra : UInt64}

theorem jumbo_wf (h : nam.Wf) : nam.jumbo.Wf := ⟨fun hnit => (nomatch hnit), h.pat⟩

/-- **A key of the cache is of one ship, one rift and one path.** -/
theorem nameToJumboStr_inj (h : nam.Wf) (h' : nam'.Wf) (heq : nameToJumboStr nam = nameToJumboStr nam') :
    nam.her = nam'.her ∧ nam.rif = nam'.rif ∧ nam.pat = nam'.pat := by
  have hat : HasAt (nameToJumboStr nam) 0 (nameBytes nam.jumbo) :=
    ⟨[], [], by rw [List.append_nil, List.nil_append]; rfl, rfl⟩
  have hat' : HasAt (nameToJumboStr nam) 0 (nameBytes nam'.jumbo) :=
    ⟨[], [], by rw [heq, List.append_nil, List.nil_append]; rfl, rfl⟩
  have hsame : nam.jumbo.strung = nam'.jumbo.strung :=
    (nameOf_bytes (jumbo_wf h) hat).2.2.symm.trans (nameOf_bytes (jumbo_wf h') hat').2.2
  have hher := congrArg Name.her hsame
  have hrif := congrArg Name.rif hsame
  have hpat := congrArg Name.pat hsame
  exact ⟨hher, hrif, hpat⟩

theorem Peek.wf (p : Peek) : p.nam.Wf := nameOf_wf p.fits

theorem Peek.nit_fra (p : Peek) (h : p.nam.nit = true) : p.nam.fra = 0 := (p.wf.init h).2

theorem mesaLop_zero (jum : ℕ) : mesaLop jum 0 = 0 := UInt64.zero_and

/-! ### Leaves of a line -/

theorem framed_le (m : Message) : m.framed ≤ 2 ^ 18 := Nat.min_le_right _ _

theorem length_pairs (l : List ℕ) : ((l.map (numBytes 64)).flatten).length = 64 * l.length := by
  induction l with
  | nil => rfl
  | cons v l ih =>
    rw [List.map_cons, List.flatten_cons, List.length_append, ih, length_numBytes, List.length_cons]
    omega

theorem length_haz (m : Message) (nam : Name (List UInt8)) : (m.line nam).haz.length = 64 * m.framed := by
  refine (length_pairs m.pas).trans ?_
  rw [Message.pas, List.length_map, List.length_range]

/-- A pair between those of the leaves before and behind. -/
theorem pairs_at (pairs : ℕ → ℕ) {i k : ℕ} (h : i < k) :
    ∃ a b, (((List.range k).map pairs).map (numBytes 64)).flatten = a ++ (numBytes 64 (pairs i) ++ b) ∧
      a.length = 64 * i := by
  have hi : i < (List.range k).length := by rwa [List.length_range]
  have hsplit : List.range k = (List.range k).take i ++ (i :: (List.range k).drop (i + 1)) := by
    have hdrop := List.drop_eq_getElem_cons hi
    rw [List.getElem_range] at hdrop
    rw [← hdrop, List.take_append_drop]
  refine ⟨((((List.range k).take i).map pairs).map (numBytes 64)).flatten,
    ((((List.range k).drop (i + 1)).map pairs).map (numBytes 64)).flatten, ?_, ?_⟩
  · conv_lhs => rw [hsplit]
    rw [List.map_append, List.map_append, List.flatten_append, List.map_cons, List.map_cons, List.flatten_cons]
  · rw [length_pairs, List.length_map, List.length_take, Nat.min_eq_left hi.le]

theorem length_dat (m : Message) (nam : Name (List UInt8)) : (m.line nam).dat.length = min (2 ^ 28) m.data.length :=
  List.length_take

theorem proofSize_le (n : ℕ) : Lss.proofSize n ≤ 33 := by
  have hlt : Lss.pred n < 2 ^ 32 := Nat.mod_lt _ (by decide)
  have hle : met0 (Lss.pred n) ≤ 32 := met0_le_iff.mpr hlt
  rw [Lss.proofSize, Lss.bitsWord]
  omega

theorem length_tip (m : Message) (nam : Name (List UInt8)) : (m.line nam).tip.length ≤ 1056 := by
  show (numBytes (if _ then _ else _) m.pof).length ≤ _
  rw [length_numBytes]
  split
  · exact Nat.mul_le_mul_right 32 (proofSize_le _)
  · exact Nat.zero_le _

theorem read_append {a b c : List UInt8} {o n : ℕ} (ho : o = a.length) (hn : n = b.length) :
    read (a ++ (b ++ c)) o n = some b := by
  subst ho hn
  rw [read, if_pos (by simp), List.drop_left, List.take_left]

theorem read_outside {buf : List UInt8} {o n : ℕ} (h : buf.length < o + n) : read buf o n = none :=
  if_neg (Nat.not_le.mpr h)

/-- The number of leaves, of a message of less than four gigabytes. -/
theorem numLeaves_eq (h : m.data.length < 2 ^ 32) :
    (mesaNumLeaves m.tob.toUInt32.toUInt64).toUInt32.toNat = m.leaves ∧ m.tob.toUInt32.toUInt64 = m.tob ∧
      mesaNumLeaves m.tob = UInt64.ofNat m.leaves := by
  have htob : m.tob.toUInt32.toUInt64 = m.tob := by
    rw [← UInt64.toNat_inj, UInt32.toNat_toUInt64, UInt64.toNat_toUInt32, Message.tob,
      UInt64.toNat_ofNat_of_lt' m.fits, Nat.mod_eq_of_lt h]
  have hleaves : m.leaves < 2 ^ 32 := by rw [Message.leaves]; omega
  have hsize : m.leaves < UInt64.size := hleaves.trans (by decide)
  have hnum : mesaNumLeaves m.tob = UInt64.ofNat m.leaves := by
    rw [← UInt64.toNat_inj, mesaNumLeaves, UInt64.toNat_div, UInt64.toNat_add, Message.tob,
      UInt64.toNat_ofNat_of_lt' m.fits, UInt64.toNat_ofNat_of_lt' hsize]
    show (m.data.length + 1023) % 2 ^ 64 / 1024 = m.leaves
    rw [Nat.mod_eq_of_lt (by omega), Message.leaves]
  refine ⟨?_, htob, hnum⟩
  rw [htob, hnum, UInt64.toNat_toUInt32, UInt64.toNat_ofNat_of_lt' hsize, Nat.mod_eq_of_lt hleaves]

/-- The index of a leaf, in the first frame. -/
theorem leaf_index (fra : UInt64) (m : Message) (nam' : Name (List UInt8)) :
    fra - (m.line nam').nam.fra * UInt64.ofNat (2 ^ jum) = fra := by
  show fra - 0 * UInt64.ofNat (2 ^ jum) = fra
  rw [UInt64.zero_mul, UInt64.sub_zero]

/-- Where a leaf stands. -/
theorem leaf_at (h : fra.toNat < 2 ^ 22) : (fra * 1024).toUInt32.toNat = 1024 * fra.toNat := by
  rw [UInt64.toNat_toUInt32, UInt64.toNat_mul]
  show fra.toNat * 1024 % 2 ^ 64 % 2 ^ 32 = _
  omega

/-- The bytes of a leaf in the frame. -/
theorem read_leaf (h : fra.toNat < m.framed) (nam' : Name (List UInt8)) :
    read (lineBytes (m.line nam')) ((m.line nam').tip.length + (fra * 1024).toUInt32.toNat)
      (if UInt32.ofNat (m.line nam').dat.length - (fra * 1024).toUInt32 < 1024 then
        UInt32.ofNat (m.line nam').dat.length - (fra * 1024).toUInt32 else 1024).toNat =
      some ((m.data.drop (1024 * fra.toNat)).take 1024) := by
  have hdat := length_dat m nam'
  have hframed : fra.toNat < m.leaves ∧ fra.toNat < 2 ^ 18 := Nat.lt_min.mp h
  have hleaf : 1024 * fra.toNat < m.data.length := by
    have hlt := hframed.1
    rw [Message.leaves] at hlt
    omega
  have hcur : (fra * 1024).toUInt32.toNat = 1024 * fra.toNat := leaf_at (by omega)
  have hrest : (UInt32.ofNat (m.line nam').dat.length - (fra * 1024).toUInt32).toNat =
      (m.line nam').dat.length - 1024 * fra.toNat := by
    have hof : (UInt32.ofNat (m.line nam').dat.length).toNat = (m.line nam').dat.length :=
      UInt32.toNat_ofNat_of_lt' (lt_of_le_of_lt (hdat.trans_le (Nat.min_le_left _ _)) (by decide))
    rw [UInt32.toNat_sub_of_le _ _ (UInt32.le_iff_toNat_le.mpr (by rw [hof, hcur]; omega)), hof, hcur]
  have hlen : (if UInt32.ofNat (m.line nam').dat.length - (fra * 1024).toUInt32 < 1024 then
      UInt32.ofNat (m.line nam').dat.length - (fra * 1024).toUInt32 else 1024).toNat =
      min ((m.line nam').dat.length - 1024 * fra.toNat) 1024 := by
    split
    · next hlt =>
      rw [UInt32.lt_iff_toNat_lt, hrest] at hlt
      exact hrest.trans (Nat.min_eq_left (show _ ≤ 1024 from hlt.le)).symm
    · next hge =>
      rw [UInt32.lt_iff_toNat_lt, hrest] at hge
      exact (Nat.min_eq_right (Nat.not_lt.mp hge)).symm
  have hslice : ((m.line nam').dat.drop (1024 * fra.toNat)).take
      (min ((m.line nam').dat.length - 1024 * fra.toNat) 1024) = (m.data.drop (1024 * fra.toNat)).take 1024 := by
    show ((m.data.take (2 ^ 28)).drop (1024 * fra.toNat)).take _ = _
    rw [List.drop_take, List.take_take, List.take_eq_take_iff, List.length_drop]
    omega
  rw [hcur, hlen, read, if_pos (by rw [lineBytes, List.length_append, List.length_append]; omega), ← hslice, lineBytes,
    List.drop_append, Nat.add_sub_cancel_left, List.drop_eq_nil_of_le (Nat.le_add_right _ _), List.nil_append,
    List.drop_append_of_le_length (by omega), List.take_append_of_le_length (by rw [List.length_drop]; omega)]

/-- **A leaf of the frame** is cut out right. -/
theorem sendLeaf_inside (h : fra.toNat < m.framed) (nam nam' : Name (List UInt8)) :
    sendLeaf jum (m.line nam') nam fra = some ({ nam with fra := fra }, ⟨m.tob.toUInt32.toUInt64,
      if fra = 0 then m.aut else pairAuth (numBytes 64 (m.pairs fra.toNat)),
      (m.data.drop (1024 * fra.toNat)).take 1024⟩) := by
  have htip := length_tip m nam'
  have hdat := length_dat m nam'
  have hframed := framed_le m
  obtain ⟨a, b, hpairs, ha⟩ := pairs_at m.pairs h
  have hpair : read (lineBytes (m.line nam'))
      (((m.line nam').tip.length + (m.line nam').dat.length + 64 * fra.toNat) % 2 ^ 64) 64 =
      some (numBytes 64 (m.pairs fra.toNat)) := by
    have hhaz : (m.line nam').haz = a ++ (numBytes 64 (m.pairs fra.toNat) ++ b) := hpairs
    have hbytes : lineBytes (m.line nam') =
        ((m.line nam').tip ++ (m.line nam').dat ++ a) ++ (numBytes 64 (m.pairs fra.toNat) ++ b) := by
      rw [lineBytes, hhaz]
      simp only [List.append_assoc]
    rw [hbytes, Nat.mod_eq_of_lt (by omega)]
    refine read_append ?_ (length_numBytes 64 _).symm
    rw [List.length_append, List.length_append, ha]
  have haut : leafAuth (m.line nam') fra fra =
      some (if fra = 0 then m.aut else pairAuth (numBytes 64 (m.pairs fra.toNat))) := by
    unfold leafAuth
    by_cases h0 : fra = 0
    · rw [if_pos h0, if_pos h0]
      rfl
    · rw [if_neg h0, if_neg h0, hpair, Option.map_some]
  unfold sendLeaf
  rw [leaf_index]
  exact Option.bind_eq_some_iff.mpr ⟨_, read_leaf h nam', Option.bind_eq_some_iff.mpr ⟨_, haut, rfl⟩⟩

/-- **Behind the frame** a pair outside of the line is read. -/
theorem sendLeaf_outside (h : m.framed ≤ fra.toNat) (h0 : fra ≠ 0) (hlt : fra.toNat < 2 ^ 32)
    (nam nam' : Name (List UInt8)) : sendLeaf jum (m.line nam') nam fra = none := by
  have htip := length_tip m nam'
  have hdat := length_dat m nam'
  have hhaz := length_haz m nam'
  have hpair : read (lineBytes (m.line nam'))
      (((m.line nam').tip.length + (m.line nam').dat.length + 64 * fra.toNat) % 2 ^ 64) 64 = none := by
    refine read_outside ?_
    rw [lineBytes, List.length_append, List.length_append, hhaz, Nat.mod_eq_of_lt (by omega)]
    omega
  unfold sendLeaf leafAuth
  rw [leaf_index]
  simp only [hpair, if_neg h0, Option.map_none, Option.bind_eq_bind, Option.bind_none]
  exact Option.bind_fun_none _

/-! ### Pieces -/

theorem proofSize_one : Lss.proofSize 1 = 1 := by decide

theorem one_lt_proofSize {n : ℕ} (h : n ≠ 1) (hn : n < 2 ^ 32) : 1 < Lss.proofSize n := by
  rw [Lss.proofSize, Lss.bitsWord]
  have hpos : Lss.pred n ≠ 0 := by
    unfold Lss.pred
    omega
  have := met0_pos hpos
  omega

/-- What a page that is sent says of the message, and of the fragment. -/
theorem sendLeaf_page {lin : Line} {pag : Page} (h : sendLeaf jum lin nam fra = some pag) :
    pag.1 = { nam with fra := fra } ∧ pag.2.tob = lin.tob.toUInt64 := by
  obtain ⟨dat, _, h⟩ := Option.bind_eq_some_iff.mp h
  obtain ⟨aut, _, h⟩ := Option.bind_eq_some_iff.mp h
  obtain rfl := Option.some.inj h
  exact ⟨rfl, rfl⟩

theorem lopped_self (p : Peek) (h : p.nam.fra = 0) : p.lopped jum = p.nam := by
  rw [Peek.lopped, h, mesaLop_zero, ← h]

/-- A name that is not an init name asks for a leaf. -/
theorem sendPiece_leaf (p : Peek) (lin : Line) (x : UInt64) (h : p.nam.nit = false) :
    sendPiece jum lin (p.lopped jum) x = (sendLeaf jum lin (p.lopped jum) x).map some :=
  if_neg fun hi => absurd (h.symm.trans hi.2) (by decide)

/-- The proof of a message. -/
theorem sendPiece_proof (p : Peek) (nam' : Name (List UInt8)) (h : m.data.length < 2 ^ 32) (hnit : p.nam.nit = true)
    (hm : 1 < m.leaves) (x : UInt64) : sendPiece jum (m.line nam') (p.lopped jum) x =
      some (some (p.nam, ⟨m.tob, m.aut, numBytes (Lss.proofSize m.leaves * 32) m.pof⟩)) := by
  obtain ⟨hpro, htob, hnum⟩ := numLeaves_eq h
  have hleaves : m.leaves < 2 ^ 32 := by rw [Message.leaves]; omega
  have hsize : m.leaves < UInt64.size := hleaves.trans (by decide)
  have hone : 1 < Lss.proofSize m.leaves := one_lt_proofSize (by omega) hleaves
  have htip : (m.line nam').tip = numBytes (Lss.proofSize m.leaves * 32) m.pof := by
    have hlt : (1 : UInt64) < mesaNumLeaves m.tob := by
      rw [hnum, UInt64.lt_iff_toNat_lt, UInt64.toNat_ofNat_of_lt' hsize]
      exact hm
    show numBytes (if (1 : UInt64) < mesaNumLeaves m.tob ∧ (0 : UInt64) = 0 then _ else _) m.pof = _
    rw [if_pos ⟨hlt, rfl⟩, ← hpro, htob]
  have hread : read (lineBytes (m.line nam')) 0 (Lss.proofSize m.leaves * 32) = some (m.line nam').tip :=
    read_append (a := []) rfl (by rw [htip, length_numBytes])
  have hlop : p.lopped jum = p.nam := lopped_self p (p.nit_fra hnit)
  unfold sendPiece
  rw [hlop]
  show (if _ then if 1 < Lss.proofSize (mesaNumLeaves m.tob.toUInt32.toUInt64).toUInt32.toNat then _ else _ else _) = _
  rw [if_pos ⟨p.nit_fra hnit, hnit⟩, hpro, if_pos hone]
  show ((read (lineBytes (m.line nam')) 0 (Lss.proofSize
    (mesaNumLeaves m.tob.toUInt32.toUInt64).toUInt32.toNat * 32)).map fun dat =>
      some (p.nam, (⟨m.tob.toUInt32.toUInt64, m.aut, dat⟩ : Data (List UInt8)))) = _
  rw [hpro, hread, htip, htob]
  rfl

/-- An init name of a message of one leaf asks for that. -/
theorem sendPiece_single (p : Peek) (nam' : Name (List UInt8)) (h : m.data.length < 2 ^ 32) (hnit : p.nam.nit = true)
    (hm : m.leaves = 1) :
    sendPiece jum (m.line nam') (p.lopped jum) 0 = (sendLeaf jum (m.line nam') (p.lopped jum) 0).map some := by
  obtain ⟨hpro, -, -⟩ := numLeaves_eq h
  have hlop : p.lopped jum = p.nam := lopped_self p (p.nit_fra hnit)
  unfold sendPiece
  rw [hlop]
  show (if _ then if 1 < Lss.proofSize (mesaNumLeaves m.tob.toUInt32.toUInt64).toUInt32.toNat then _ else _ else _) = _
  rw [if_pos ⟨p.nit_fra hnit, hnit⟩, hpro, hm, proofSize_one, if_neg (by decide), if_pos rfl]

/-- What a page that is sent says of the message. -/
theorem sendPiece_page {p : Peek} {lin : Line} {x : UInt64} {pag : Page}
    (h : sendPiece jum lin (p.lopped jum) x = some (some pag)) :
    pag.2.tob = lin.tob.toUInt64 ∧ (pag.1.fra = x ∨ pag.1.fra = p.nam.fra ∧ p.nam.fra = 0) := by
  unfold sendPiece at h
  dsimp only at h
  split_ifs at h with hinit hpro h0
  · obtain ⟨dat, _, hs⟩ := Option.map_eq_some_iff.mp h
    obtain rfl := Option.some.inj hs
    have hfra := p.nit_fra hinit.2
    exact ⟨rfl, .inr ⟨congrArg Name.fra (lopped_self p hfra), hfra⟩⟩
  · obtain ⟨pag', hleaf, hs⟩ := Option.map_eq_some_iff.mp h
    obtain rfl := Option.some.inj hs
    obtain ⟨hname, htob⟩ := sendLeaf_page hleaf
    exact ⟨htob, .inl (by rw [hname, h0])⟩
  · cases Option.some.inj h
  · obtain ⟨pag', hleaf, hs⟩ := Option.map_eq_some_iff.mp h
    obtain rfl := Option.some.inj hs
    obtain ⟨hname, htob⟩ := sendLeaf_page hleaf
    exact ⟨htob, .inl (by rw [hname])⟩

/-- What the page that is wanted says. -/
theorem wanted_page {pag : Page} (h : wanted m nam = some pag) :
    pag.1 = nam ∧ pag.2.tob = m.tob ∧ (nam.nit = true ∧ 1 < m.leaves ∨ nam.fra.toNat < m.leaves) := by
  unfold wanted at h
  split at h
  · next hinit =>
    obtain rfl := Option.some.inj h
    exact ⟨rfl, rfl, .inl hinit⟩
  · obtain ⟨hlt, h⟩ := Option.ite_none_right_eq_some.mp h
    obtain rfl := Option.some.inj h
    exact ⟨rfl, rfl, .inr hlt⟩

/-- The piece of a fragment in the first frame. -/
theorem sendPiece_served (p : Peek) (nam' : Name (List UInt8)) (h : Served m p.nam) :
    ∃ pag, sendPiece jum (m.line nam') (p.lopped jum) p.nam.fra = some (some pag) ∧ wanted m p.nam = some pag := by
  obtain ⟨hlen, hfra⟩ := h
  obtain ⟨hleaves, -⟩ := Nat.lt_min.mp hfra
  have htob := (numLeaves_eq hlen).2.1
  have hleaf := @sendLeaf_inside m jum _ hfra (p.lopped jum) nam'
  rw [htob] at hleaf
  have hname : { p.lopped jum with fra := p.nam.fra } = p.nam := rfl
  rw [hname] at hleaf
  cases hnit : p.nam.nit with
  | false =>
    refine ⟨_, by rw [sendPiece_leaf p _ _ hnit, hleaf, Option.map_some], ?_⟩
    rw [wanted, if_neg (fun hi => absurd (hnit.symm.trans hi.1) (by decide)), if_pos hleaves]
  | true =>
    have h0 := p.nit_fra hnit
    by_cases hm : 1 < m.leaves
    · exact ⟨_, sendPiece_proof p nam' hlen hnit hm _, by rw [wanted, if_pos ⟨hnit, hm⟩]⟩
    · have hone : m.leaves = 1 := by omega
      refine ⟨_, by rw [h0, sendPiece_single p nam' hlen hnit hone, ← h0, hleaf, Option.map_some], ?_⟩
      rw [wanted, if_neg (fun hi => hm hi.2), if_pos hleaves]

/-- **The piece of a line is the page that is asked for** just when it is the piece of the fragment, and that is in
the first frame. -/
theorem sendPiece_iff (p : Peek) (nam' : Name (List UInt8)) (x : UInt64) (hx : x = 0 ∨ x = p.nam.fra) :
    (∃ pag, sendPiece jum (m.line nam') (p.lopped jum) x = some (some pag) ∧ wanted m p.nam = some pag) ↔
      Served m p.nam ∧ p.nam.fra = x := by
  constructor
  · rintro ⟨pag, hsend, hwant⟩
    obtain ⟨htob, hfra⟩ := sendPiece_page hsend
    obtain ⟨hname, htob', hin⟩ := wanted_page hwant
    have hlen : m.data.length < 2 ^ 32 := by
      have hsame : m.tob.toUInt32.toUInt64 = m.tob := htob.symm.trans htob'
      have hnat := congrArg UInt64.toNat hsame
      rw [UInt32.toNat_toUInt64, Message.tob, UInt64.toNat_ofNat_of_lt' m.fits] at hnat
      exact hnat ▸ UInt32.toNat_lt _
    have hsame : p.nam.fra = x := by
      obtain hfra | ⟨-, h0⟩ := hfra
      · rw [← hname, hfra]
      · exact hx.elim (fun hx => h0.trans hx.symm) Eq.symm
    have hleaves : p.nam.fra.toNat < m.leaves := by
      obtain ⟨hnit, hm⟩ | hlt := hin
      · rw [p.nit_fra hnit]
        exact Nat.zero_lt_of_lt hm
      · exact hlt
    refine ⟨⟨hlen, Nat.lt_min.mpr ⟨hleaves, ?_⟩⟩, hsame⟩
    by_contra hge
    have h0 : p.nam.fra ≠ 0 := fun h0 => hge (by rw [h0]; decide)
    have hnit : p.nam.nit = false := Bool.eq_false_iff.mpr fun hn => h0 (p.nit_fra hn)
    have hlt32 : m.leaves < 2 ^ 32 := by rw [Message.leaves]; omega
    rw [sendPiece_leaf p _ _ hnit, ← hsame,
      sendLeaf_outside ((framed_le m).trans (Nat.not_lt.mp hge)) h0 (hleaves.trans hlt32)] at hsend
    cases hsend
  · rintro ⟨hs, rfl⟩
    exact sendPiece_served p nam' hs

/-- Some piece is sent. -/
theorem sendPiece_sends (p : Peek) (lin : Line) (x : UInt64) (hx : x = 0 ∨ x = p.nam.fra) :
    sendPiece jum lin (p.lopped jum) x ≠ some none := by
  unfold sendPiece
  dsimp only
  split_ifs with hinit hpro h0
  · intro h
    obtain ⟨dat, _, hs⟩ := Option.map_eq_some_iff.mp h
    cases hs
  · intro h
    obtain ⟨dat, _, hs⟩ := Option.map_eq_some_iff.mp h
    cases hs
  · exact absurd (hx.elim id fun hx => hx.trans (p.nit_fra hinit.2)) h0
  · intro h
    obtain ⟨dat, _, hs⟩ := Option.map_eq_some_iff.mp h
    cases hs

/-! ### Runs -/

variable {who : Ship} {bound : Ship → UInt32 → List UInt8 → Message} {a b : Service} {c : Cache}

/-- **The lines of the cache are of the messages that their names are of.** -/
def Kept (bound : Ship → UInt32 → List UInt8 → Message) (c : Cache) : Prop :=
  ∀ nam : Name (List UInt8), nam.Wf → ∀ lin, getJumboCache c nam = some (.line lin) →
    ∃ nam', lin = (boundTo bound nam).line nam'

theorem boundTo_eq (h : nam.Wf) (h' : nam'.Wf) (heq : nameToJumboStr nam = nameToJumboStr nam') :
    boundTo bound nam = boundTo bound nam' := by
  obtain ⟨hher, hrif, hpat⟩ := nameToJumboStr_inj h h' heq
  rw [boundTo, hher, hrif, hpat]
  rfl

/-- A line is put. -/
theorem Kept.line (hk : Kept bound c) (h : nam.Wf) (nam' nam'' : Name (List UInt8))
    (hkey : nameToJumboStr nam'' = nameToJumboStr nam) :
    Kept bound (putJumboCache c nam'' (.line ((boundTo bound nam).line nam'))) := by
  intro n hn lin hlin
  rw [putJumboCache_line, getJumboCache, hkey] at hlin
  by_cases heq : nameToJumboStr n = nameToJumboStr nam
  · dsimp only at hlin
    rw [heq, Finmap.lookup_insert] at hlin
    obtain rfl := Cached.line.inj (Option.some.inj hlin)
    exact ⟨nam', by rw [boundTo_eq hn h heq]⟩
  · dsimp only at hlin
    rw [Finmap.lookup_insert_of_ne _ heq, Cache.room] at hlin
    split at hlin
    · exact absurd hlin (by rw [Finmap.lookup_empty]; exact (Option.some_ne_none _).symm)
    · exact hk n hn lin hlin

/-- A tag is. -/
theorem Kept.tag (hk : Kept bound c) (nam : Name (List UInt8)) {v : Cached} (hv : ∀ lin, v ≠ .line lin) :
    Kept bound (putJumboCache c nam v) := by
  have hput : putJumboCache c nam v = ⟨c.jumD, c.jumU.insert (nameToJumboStr nam) v⟩ := by
    cases v with
    | wait => rfl
    | block => rfl
    | line lin => exact absurd rfl (hv lin)
  intro n hn lin hlin
  rw [hput, getJumboCache] at hlin
  by_cases heq : nameToJumboStr n = nameToJumboStr nam
  · dsimp only at hlin
    rw [heq, Finmap.lookup_insert] at hlin
    exact absurd (Option.some.inj hlin) (hv lin)
  · dsimp only at hlin
    rw [Finmap.lookup_insert_of_ne _ heq] at hlin
    exact hk n hn lin hlin

/-- What comes of a peek. -/
theorem hearPeek_cases (who : Ship) (c : Cache) (nam : Name (List UInt8)) :
    (∃ act, hearPeek who c nam = (c, act) ∧ (act = .forwards ∨ act = .waits) ∧
      (nam.her = who → ∀ lin, getJumboCache c nam ≠ some (.line lin))) ∨
      (∃ lin, nam.her = who ∧ getJumboCache c nam = some (.line lin) ∧ hearPeek who c nam = (c, .sends lin nam.fra)) ∨
        hearPeek who c nam = (putJumboCache c nam .wait, .asks) ∧ ∀ lin, getJumboCache c nam ≠ some (.line lin) := by
  unfold hearPeek
  split
  · next hher => exact .inl ⟨_, rfl, .inl rfl, fun h => absurd h hher⟩
  · next hher =>
    split
    · next hw =>
      refine .inl ⟨_, rfl, .inr rfl, fun _ lin hlin => ?_⟩
      cases Option.some.inj (hw.symm.trans hlin)
    · next lin hlin => exact .inr (.inl ⟨lin, not_not.mp hher, hlin, rfl⟩)
    · next hw hl => exact .inr (.inr ⟨rfl, hl⟩)

/-- Nothing else is sent. -/
theorem ServedRight.quiet (h : ServedRight bound a) (hf : b.fault = a.fault) (hs : b.sent = a.sent) :
    ServedRight bound b := ⟨hf.trans h.fault, by rw [hs]; exact h.sent⟩

/-- **What is sent is right** just when it is the page that the peek asks for. -/
theorem send_right {p : Peek} {lans : List Addr} {r : Option (Option Page)} (h : ServedRight bound a)
    (hl : lans ≠ []) (hr : r ≠ some none) :
    ServedRight bound (a.send p lans r) ↔
      ∃ pag, r = some (some pag) ∧ wanted (boundTo bound p.nam) p.nam = some pag := by
  match r with
  | none =>
    rw [Service.send, if_neg hl]
    exact iff_of_false (fun hb => Bool.noConfusion hb.fault) fun ⟨_, hn, _⟩ => nomatch hn
  | some none => exact absurd rfl hr
  | some (some pag) =>
    obtain ⟨lan, hlan⟩ := List.exists_mem_of_ne_nil lans hl
    constructor
    · intro hb
      exact ⟨pag, rfl, hb.sent (lan, p, pag) (List.mem_append_right _ (List.mem_map_of_mem hlan))⟩
    · rintro ⟨pag', hpag, hw⟩
      obtain rfl := Option.some.inj (Option.some.inj hpag)
      refine ⟨h.fault, fun s hs => ?_⟩
      obtain hs | hs := List.mem_append.mp hs
      · exact h.sent s hs
      · obtain ⟨lan, _, rfl⟩ := List.mem_map.mp hs
        exact hw

/-- To nobody nothing is sent. -/
theorem send_nobody {p : Peek} (h : ServedRight bound a) (r : Option (Option Page)) :
    ServedRight bound (a.send p [] r) := by
  match r with
  | none => exact h
  | some none => exact h
  | some (some pag) => exact h.quiet rfl (List.append_nil _)

theorem send_cache (p : Peek) (lans : List Addr) (r : Option (Option Page)) : (a.send p lans r).cache = a.cache := by
  match r with
  | none =>
    rw [Service.send]
    split
    · rfl
    · rfl
  | some none => rfl
  | some (some pag) => rfl

/-- **A peek is answered right just when it fits.** -/
theorem peek_right {p : Peek} {lan : Addr} (hk : Kept bound a.cache) (h : ServedRight bound a)
    (ht : serviceTurn jum who bound a (.peek p lan) = some b) :
    Kept bound b.cache ∧ (ServedRight bound b ↔ ServiceFits who bound a (.peek p lan)) := by
  have hgo : ¬ a.fault = true := by
    rw [h.fault]
    decide
  rw [serviceTurn, if_neg hgo] at ht
  obtain ⟨act, hact, hkind, hno⟩ | ⟨lin, hher, hlin, hact⟩ | ⟨hact, hno⟩ := hearPeek_cases who a.cache (p.lopped jum)
  · -- it is forwarded, or waits for nothing
    have hb : b = a := by
      rw [hact] at ht
      obtain rfl | rfl := hkind <;> exact (Option.some.inj ht).symm
    rw [hb]
    exact ⟨hk, iff_of_true h fun hher lin hlin => absurd hlin (hno hher lin)⟩
  · rw [hact] at ht
    obtain rfl := Option.some.inj ht
    obtain ⟨nam', rfl⟩ := hk p.nam p.wf lin hlin
    have hright : ServedRight bound { a with cache := a.cache } := h
    refine ⟨by rw [send_cache]; exact hk, ?_⟩
    rw [send_right hright (List.cons_ne_nil _ _) (sendPiece_sends p _ _ (.inr rfl)), sendPiece_iff p nam' _ (.inr rfl),
      and_iff_left rfl]
    constructor
    · exact fun hs _ _ _ => hs
    · exact fun hf => hf hher _ hlin
  · rw [hact] at ht
    obtain rfl := Option.some.inj ht
    refine ⟨hk.tag _ fun lin hlin => (nomatch hlin), ?_⟩
    exact iff_of_true (h.quiet rfl rfl) fun _ lin hlin => absurd hlin (hno lin)

/-- The answer to a question puts a line of the message, if it is there, and sends the start of it. -/
theorem answer_right {i : ℕ} {ready : Bool} (hk : Kept bound a.cache) (h : ServedRight bound a)
    (ht : serviceTurn jum who bound a (.answer i ready) = some b) :
    Kept bound b.cache ∧ (ServedRight bound b ↔ ServiceFits who bound a (.answer i ready)) := by
  have hgo : ¬ a.fault = true := by
    rw [h.fault]
    decide
  rw [serviceTurn, if_neg hgo] at ht
  obtain ⟨p, hp, ht⟩ := Option.bind_eq_some_iff.mp ht
  have hquiet (hno : ready = true → ∀ lans, a.pit.lookup p.nam.str = some lans → lans = []) :
      ServiceFits who bound a (.answer i ready) := by
    intro p' lans hp' hr hlans hne
    obtain rfl := Option.some.inj (hp.symm.trans hp')
    exact absurd (hno hr lans hlans) hne
  cases ready with
  | false =>
    obtain ⟨c', hcb, hk'⟩ : ∃ c', pageScryJumboCb a.cache (p.lopped jum) .none = (c', none) ∧ Kept bound c' := by
      unfold pageScryJumboCb
      dsimp only
      split
      · exact ⟨_, rfl, hk⟩
      · exact ⟨_, rfl, hk.tag _ fun lin hlin => (nomatch hlin)⟩
    simp only [Bool.false_eq_true, if_false, hcb] at ht
    obtain rfl := Option.some.inj ht
    exact ⟨hk', iff_of_true (h.quiet rfl rfl) (hquiet fun hr => nomatch hr)⟩
  | true =>
    have hcb : pageScryJumboCb a.cache (p.lopped jum) ((boundTo bound p.nam).frame p.nam) =
        (putJumboCache a.cache (p.lopped jum) (.line ((boundTo bound p.nam).line p.nam)),
          some ((boundTo bound p.nam).line p.nam)) := rfl
    have hk' : Kept bound (putJumboCache a.cache (p.lopped jum) (.line ((boundTo bound p.nam).line p.nam))) :=
      hk.line p.wf p.nam (p.lopped jum) rfl
    simp only [if_true, hcb] at ht
    cases hpit : a.pit.lookup p.nam.str with
    | none =>
      rw [hpit] at ht
      obtain rfl := Option.some.inj ht
      exact ⟨hk', iff_of_true (h.quiet rfl rfl) (hquiet fun _ lans hlans => nomatch hpit.symm.trans hlans)⟩
    | some lans =>
      rw [hpit] at ht
      obtain rfl := Option.some.inj ht
      have hput : ServedRight bound
          { a with
            cache := putJumboCache a.cache (p.lopped jum) (.line ((boundTo bound p.nam).line p.nam))
            asked := a.asked.eraseIdx i
            pit := a.pit.erase p.nam.str } := h.quiet rfl rfl
      refine ⟨by rw [send_cache]; exact hk', ?_⟩
      by_cases hne : lans = []
      · subst hne
        refine iff_of_true (send_nobody hput _) (hquiet fun _ lans hlans => ?_)
        exact Option.some.inj (hlans.symm.trans hpit)
      · rw [send_right hput hne (sendPiece_sends p _ _ (.inl rfl)), sendPiece_iff p p.nam 0 (.inl rfl)]
        constructor
        · intro hs p' lans' hp' _ _ _
          obtain rfl := Option.some.inj (hp.symm.trans hp')
          exact hs
        · exact fun hf => hf p lans hp rfl hpit hne

/-- **An event is taken right just when it fits.** -/
theorem serviceTurn_right {e : ServiceEvent} (hk : Kept bound a.cache) (h : ServedRight bound a)
    (ht : serviceTurn jum who bound a e = some b) :
    Kept bound b.cache ∧ (ServedRight bound b ↔ ServiceFits who bound a e) := by
  cases e with
  | peek p lan => exact peek_right hk h ht
  | answer i ready => exact answer_right hk h ht
  | forget str =>
    obtain ⟨-, ht⟩ := Option.ite_none_left_eq_some.mp ht
    obtain rfl := Option.some.inj ht
    exact ⟨hk, iff_of_true (h.quiet rfl rfl) trivial⟩

/-- **Over any run** of peeks, answers and omissions, what is sent is what was asked for, in every state, just when
each event fits. -/
theorem pages_right_iff (jum : ℕ) (who : Ship) (bound : Ship → UInt32 → List UInt8 → Message) {l : List ServiceEvent}
    {b : Service} (h : Replay.follow (serviceTurn jum who bound) .start l = some b) :
    (∀ n a, Replay.At (serviceTurn jum who bound) .start l n a → ServedRight bound a) ↔
      Replay.Along (serviceTurn jum who bound) (ServiceFits who bound) .start l := by
  have hkept : Kept bound Service.start.cache := fun nam _ lin hlin => nomatch hlin
  have hstart : ServedRight bound .start := ⟨rfl, fun s hs => absurd hs List.not_mem_nil⟩
  refine Replay.Along.iff_all_with (fun _ => True) (fun a => Kept bound a.cache ∧ ServedRight bound a)
    (ServedRight bound) (fun _ _ _ _ _ => trivial) ?_ ?_ trivial ⟨hkept, hstart⟩ hstart h
  · intro a e b _ hn hfit ht
    obtain ⟨hk, hr⟩ := serviceTurn_right hn.1 hn.2 ht
    exact ⟨hk, hr.mpr hfit⟩
  · exact fun a e b _ hn _ ht => (serviceTurn_right hn.1 hn.2 ht).2

/-! ### A message of two leaves -/

/-- The peek of a name that is etched as it should be. -/
def Peek.ofName (nam : Name (List UInt8)) (hw : nam.Wf) : Peek where
  str := nameBytes nam
  fits := (nameOf_bytes hw ⟨[], [], by rw [List.append_nil, List.nil_append], rfl⟩).1
  whole := by
    have hat : HasAt (nameBytes nam) 0 (nameBytes nam) := ⟨[], [], by rw [List.append_nil, List.nil_append], rfl⟩
    rw [(nameOf_bytes hw hat).2.1, Nat.zero_add]

/-- For a fragment of the galaxy `0`'s only path. -/
def peekFor (fra : UInt64) : Peek :=
  .ofName ⟨⟨0, 0⟩, 0, 13, false, false, fra, [7], []⟩ ⟨fun h => (nomatch h), (by decide : 1 < 2 ^ 16)⟩

def twoLeaves : Message := ⟨List.replicate 2048 1, .none, fun _ => 0, 0, by rw [List.length_replicate]; decide⟩

def serviceTwo : Service → ServiceEvent → Option Service := serviceTurn 23 ⟨0, 0⟩ fun _ _ _ => twoLeaves

/-- The first fragment is asked for, and comes; then the other. -/
def inOrderPeeks : List ServiceEvent := [.peek (peekFor 0) (1, 1), .answer 0 true, .peek (peekFor 1) (1, 1)]

theorem pages_right_two : (Replay.follow serviceTwo .start inOrderPeeks).isSome ∧
    ((∀ n a, Replay.At serviceTwo .start inOrderPeeks n a → ServedRight (fun _ _ _ => twoLeaves) a) ↔
      Replay.Along serviceTwo (ServiceFits ⟨0, 0⟩ fun _ _ _ => twoLeaves) .start inOrderPeeks) := by
  have hsome : (Replay.follow serviceTwo .start inOrderPeeks).isSome := by decide +kernel
  obtain ⟨b, hb⟩ := Option.isSome_iff_exists.mp hsome
  exact ⟨hsome, pages_right_iff 23 ⟨0, 0⟩ (fun _ _ _ => twoLeaves) hb⟩

/-- The other fragment is asked for first: the first one comes. And a third is asked for, of which there is none: a
pair outside of the line is read. -/
theorem first_sent_for_second :
    (∃ b, Replay.follow serviceTwo .start [.peek (peekFor 1) (1, 1), .answer 0 true] = some b ∧
      b.fault = false ∧ ¬ ServedRight (fun _ _ _ => twoLeaves) b) ∧
    ∃ b, Replay.follow serviceTwo .start [.peek (peekFor 0) (1, 1), .answer 0 true, .peek (peekFor 2) (1, 1)] = some b ∧
      b.fault = true := by
  constructor
  · have hend : (Replay.follow serviceTwo .start [.peek (peekFor 1) (1, 1), .answer 0 true]).map
        (fun b => (b.fault, b.sent.map fun s => (s.2.2.1.fra, s.2.1.nam.fra))) = some (false, [(0, 1)]) := by
      decide +kernel
    obtain ⟨b, hb, hpair⟩ := Option.map_eq_some_iff.mp hend
    obtain ⟨hfault, hsent⟩ := Prod.mk.inj hpair
    refine ⟨b, hb, hfault, fun hr => ?_⟩
    obtain ⟨s, hs⟩ : ∃ s, b.sent = [s] := List.length_eq_one_iff.mp (by simpa using congrArg List.length hsent)
    have hname := (wanted_page (hr.sent s (hs ▸ List.mem_cons_self))).1
    rw [hs] at hsent
    obtain ⟨h0, h1⟩ := Prod.mk.inj (List.cons.inj hsent).1
    rw [hname, h1] at h0
    exact absurd h0 (by decide)
  · have hend : (Replay.follow serviceTwo .start
        [.peek (peekFor 0) (1, 1), .answer 0 true, .peek (peekFor 2) (1, 1)]).map Service.fault = some true := by
      decide +kernel
    exact Option.map_eq_some_iff.mp hend

end MesaPages
end Ursockets
