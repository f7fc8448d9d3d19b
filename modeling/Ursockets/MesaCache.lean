/-
# The cache of pages

A peek for a page of ours puts a tag in the cache and asks for the page; the answer puts the page in
the tag's place. What the pages weigh is counted as they are put, and the cache is emptied when a page
comes and the count is over the limit. Nothing is taken off the count for what a page takes the place
of, so the count is right just until a page, or the tag for a page that there is none of, takes the
place of a page: the cache was emptied under an open question, and the page was asked for again.

Key definitions: `Cache`, `putJumboCache`, `pageScryJumboCb`, `hearPeek`, `CacheRight`, `Fresh`, `AnswerFits`.
Key theorems: `put_line`, `put_tag`, `cacheTurn_right_iff`, `cache_right_iff`.
-/
import Ursockets.Lib.Maps
import Ursockets.Lib.Replay
import Ursockets.MesaRequest
import Ursockets.PactEtch

namespace Ursockets
namespace Mesa

open Bits
open Maps (Map)

/-! ### Lines -/

/-- `u3_mesa_line`: what there is of a page, and the bytes of the message that it is of. -/
structure Line where
  nam : Name (List UInt8)
  aut : Auth
  tob : UInt32
  tip : List UInt8
  dat : List UInt8
  haz : List UInt8
  deriving DecidableEq

/-- A value of the cache: one of two tags, or a line. -/
inductive Cached where
  | wait
  | block
  | line (lin : Line)
  deriving DecidableEq

/-- What a value is counted by. -/
def Cached.bytes : Cached → ℕ
  | .wait => 0
  | .block => 0
  | .line lin => lin.tob.toNat

/-- The fields of `u3_mesa` for the cache. -/
structure Cache where
  jumD : UInt64
  jumU : Map (List UInt8) Cached

/-- `JUMBO_CACHE_MAX_SIZE`. -/
def jumboCacheMaxSize : UInt64 := 200000000

/-- The name that `_name_to_jumbo_str` etches: every fragment of a message has the same. -/
def Name.jumbo (nam : Name (List UInt8)) : Name (List UInt8) := { nam with boq := 31, fra := 0, nit := false }

/-- `_name_to_jumbo_str`. -/
def nameToJumboStr (nam : Name (List UInt8)) : List UInt8 := nameBytes nam.jumbo

/-- `_mesa_get_jumbo_cache`. -/
def getJumboCache (c : Cache) (nam : Name (List UInt8)) : Option Cached := c.jumU.lookup (nameToJumboStr nam)

/-- `_mesa_put_jumbo_cache`. -/
def putJumboCache (c : Cache) (nam : Name (List UInt8)) (v : Cached) : Cache :=
  let c := match v with
    | .line lin =>
      let c := if jumboCacheMaxSize < c.jumD then Cache.mk 0 ∅ else c
      { c with jumD := c.jumD + lin.tob.toUInt64 }
    | _ => c
  { c with jumU := c.jumU.insert (nameToJumboStr nam) v }

/-! ### Peeks and answers -/

/-- What comes of a peek: it goes on to the ship it is for, it is in the way of another, or it is answered or
asked about. -/
inductive PeekAct where
  | forwards
  | waits
  | sends (lin : Line) (fra : UInt64)
  | asks

/-- `_mesa_hear_peek`, on ship `who`; who waits for the page is kept apart, in the pending interest table. -/
def hearPeek (who : Ship) (c : Cache) (nam : Name (List UInt8)) : Cache × PeekAct :=
  if nam.her ≠ who then (c, .forwards)
  else
    match getJumboCache c nam with
    | some .wait => (c, .waits)
    | some (.line lin) => (c, .sends lin nam.fra)
    | _ => (putJumboCache c nam .wait, .asks)

/-- What the ship makes of a question: no page, nothing that has the shape of one, a frame that is not sifted, or
the name and the data of a frame, the pairs of its leaves and its proof. -/
inductive Scried where
  | none
  | misshapen
  | torn
  | page (nam : Name (List UInt8)) (dat : Data (List UInt8)) (pas : List ℕ) (pof : ℕ)

/-- The line that `_mesa_page_scry_jumbo_cb` makes of a page. -/
def lineOf (nam : Name (List UInt8)) (dat : Data (List UInt8)) (pas : List ℕ) (pof : ℕ) : Line :=
  let mev := mesaNumLeaves dat.tob
  let tip := if 1 < mev ∧ nam.fra = 0 then Lss.proofSize mev.toUInt32.toNat * 32 else 0
  ⟨nam, dat.aut, dat.tob.toUInt32, numBytes tip pof, dat.fra, (pas.map (numBytes 64)).flatten⟩

/-- `_mesa_page_scry_jumbo_cb`: the line is sent to those who wait for it, if there is one. -/
def pageScryJumboCb (c : Cache) (nam : Name (List UInt8)) : Scried → Cache × Option Line
  | .none =>
    match getJumboCache c nam with
    | none => (c, none)
    | some _ => (putJumboCache c nam .block, none)
  | .misshapen => (c, none)
  | .torn => (c, none)
  | .page jum dat pas pof =>
    let lin := lineOf jum dat pas pof
    (putJumboCache c nam (.line lin), some lin)

/-- The cache, and the questions that are open. -/
structure Pages where
  cache : Cache
  asked : List (Name (List UInt8))

def Pages.start : Pages := ⟨⟨0, ∅⟩, []⟩

/-- A peek comes, or the answer to one of the questions. -/
inductive PageEvent where
  | peek (nam : Name (List UInt8))
  | answer (i : ℕ) (res : Scried)

def cacheTurn (who : Ship) (a : Pages) : PageEvent → Option Pages
  | .peek nam =>
    match hearPeek who a.cache nam with
    | (c, .asks) => some ⟨c, a.asked ++ [nam]⟩
    | (c, _) => some { a with cache := c }
  | .answer i res => do
    let nam ← a.asked[i]?
    some ⟨(pageScryJumboCb a.cache nam res).1, a.asked.eraseIdx i⟩

/-! ### The count -/

/-- What the lines that are in the cache come to. -/
def Cache.bytes (c : Cache) : ℕ := Maps.weight Cached.bytes c.jumU

/-- **The count of a cache is right**: it is what the lines come to, and when a line is put the cache is emptied
just if they come to more than the limit. -/
structure CacheRight (c : Cache) : Prop where
  count : c.jumD.toNat = c.bytes
  limit : ∀ nam lin, (putJumboCache c nam (.line lin)).jumU =
    (if jumboCacheMaxSize.toNat < c.bytes then ∅ else c.jumU).insert (nameToJumboStr nam) (.line lin)

/-- No line with any bytes is under the name. -/
def Fresh (c : Cache) (nam : Name (List UInt8)) : Prop :=
  ∀ lin, getJumboCache c nam = some (.line lin) → lin.tob = 0

/-- The answers that are counted right: a page comes when the cache is over the limit, or no line is in its place;
no line is in the place of a page that there is none of. -/
def AnswerFits (c : Cache) (nam : Name (List UInt8)) : Scried → Prop
  | .none => Fresh c nam
  | .misshapen => True
  | .torn => True
  | .page _ _ _ _ => jumboCacheMaxSize < c.jumD ∨ Fresh c nam

def PageFitsIn (a : Pages) : PageEvent → Prop
  | .peek _ => True
  | .answer i res => ∀ nam, a.asked[i]? = some nam → AnswerFits a.cache nam res

variable {c : Cache} {nam : Name (List UInt8)}

theorem fresh_iff : Fresh c nam ↔ Maps.weighs Cached.bytes c.jumU (nameToJumboStr nam) = 0 := by
  unfold Fresh getJumboCache
  cases hv : c.jumU.lookup (nameToJumboStr nam) with
  | none => exact iff_of_true (fun lin h => nomatch h) (Maps.weighs_none hv)
  | some v =>
    rw [Maps.weighs_some hv]
    cases v with
    | wait => exact iff_of_true (fun lin h => nomatch h) rfl
    | block => exact iff_of_true (fun lin h => nomatch h) rfl
    | line lin =>
      constructor
      · intro h
        exact congrArg UInt32.toNat (h lin rfl)
      · rintro h lin' hlin
        obtain rfl := Cached.line.inj (Option.some.inj hlin)
        exact UInt32.toNat_inj.mp h

/-- The cache that a line is put in. -/
def Cache.room (c : Cache) : Cache := if jumboCacheMaxSize < c.jumD then ⟨0, ∅⟩ else c

theorem putJumboCache_line (lin : Line) : putJumboCache c nam (.line lin) =
    ⟨c.room.jumD + lin.tob.toUInt64, c.room.jumU.insert (nameToJumboStr nam) (.line lin)⟩ := rfl

/-- The count says all. -/
theorem CacheRight.of_count (h : c.jumD.toNat = c.bytes) : CacheRight c := by
  refine ⟨h, fun nam lin => ?_⟩
  have hroom : c.room.jumU = if jumboCacheMaxSize.toNat < c.bytes then ∅ else c.jumU := by
    rw [← h, Cache.room, apply_ite Cache.jumU]
    simp only [UInt64.lt_iff_toNat_lt]
  rw [putJumboCache_line, hroom]

theorem room_count (h : c.jumD.toNat = c.bytes) : c.room.jumD.toNat = c.room.bytes := by
  unfold Cache.room
  split
  · rfl
  · exact h

/-- There is room for any line: the count never wraps. -/
theorem room_le (c : Cache) : c.room.jumD.toNat ≤ 200000000 := by
  unfold Cache.room
  split
  · exact Nat.zero_le _
  · next h => exact UInt64.le_iff_toNat_le.mp (UInt64.not_lt.mp h)

theorem room_fresh_iff : Fresh c.room nam ↔ jumboCacheMaxSize < c.jumD ∨ Fresh c nam := by
  unfold Cache.room
  split
  · next h => exact iff_of_true (fun lin hlin => nomatch hlin) (.inl h)
  · next h => exact (or_iff_right h).symm

/-- **A line is counted right just when it takes the place of none.** -/
theorem put_line (h : CacheRight c) (lin : Line) :
    CacheRight (putJumboCache c nam (.line lin)) ↔ jumboCacheMaxSize < c.jumD ∨ Fresh c nam := by
  have hle := room_le c
  have hlt := lin.tob.toNat_lt
  have hcount := room_count h.count
  have hadd : (c.room.jumD + lin.tob.toUInt64).toNat = c.room.jumD.toNat + lin.tob.toNat := by
    rw [UInt64.toNat_add, UInt32.toNat_toUInt64, Nat.mod_eq_of_lt (by omega)]
  have hbytes : (putJumboCache c nam (.line lin)).bytes + Maps.weighs Cached.bytes c.room.jumU (nameToJumboStr nam) =
      c.room.bytes + lin.tob.toNat := Maps.weight_insert Cached.bytes c.room.jumU _ (.line lin)
  rw [← room_fresh_iff, fresh_iff]
  constructor
  · intro hr
    have hr := hr.count
    rw [putJumboCache_line, hadd, hcount] at hr
    rw [putJumboCache_line] at hbytes
    omega
  · intro hw
    refine .of_count ?_
    show (c.room.jumD + lin.tob.toUInt64).toNat = _
    omega

/-- **So is a tag.** -/
theorem put_tag (h : CacheRight c) {v : Cached} (hv : ∀ lin, v ≠ .line lin) :
    CacheRight (putJumboCache c nam v) ↔ Fresh c nam := by
  have hput : putJumboCache c nam v = ⟨c.jumD, c.jumU.insert (nameToJumboStr nam) v⟩ ∧ v.bytes = 0 := by
    cases v with
    | wait => exact ⟨rfl, rfl⟩
    | block => exact ⟨rfl, rfl⟩
    | line lin => exact absurd rfl (hv lin)
  have hbytes : Cache.bytes ⟨c.jumD, c.jumU.insert (nameToJumboStr nam) v⟩ +
      Maps.weighs Cached.bytes c.jumU (nameToJumboStr nam) = c.bytes + v.bytes := Maps.weight_insert ..
  have hcount := h.count
  rw [fresh_iff, hput.1]
  constructor
  · intro hr
    have hr : c.jumD.toNat = _ := hr.count
    omega
  · intro hw
    refine .of_count ?_
    show c.jumD.toNat = _
    omega

/-! ### Peeks and answers are counted right -/

/-- A peek is: it puts a tag only where there is no line. -/
theorem hearPeek_right (h : CacheRight c) (who : Ship) (nam : Name (List UInt8)) :
    CacheRight (hearPeek who c nam).1 := by
  unfold hearPeek
  split
  · exact h
  · split
    · exact h
    · exact h
    · next hw hl =>
      refine (put_tag (v := .wait) h fun lin hlin => (nomatch hlin)).mpr fun lin hlin => ?_
      exact absurd hlin (hl lin)

/-- **An answer is just when it fits.** -/
theorem pageScryJumboCb_right (h : CacheRight c) (nam : Name (List UInt8)) (res : Scried) :
    CacheRight (pageScryJumboCb c nam res).1 ↔ AnswerFits c nam res := by
  cases res with
  | none =>
    unfold pageScryJumboCb AnswerFits
    dsimp only
    split
    · next hn => exact iff_of_true h fun lin hlin => nomatch hn.symm.trans hlin
    · exact put_tag (v := .block) h fun lin hlin => (nomatch hlin)
  | misshapen => exact iff_of_true h trivial
  | torn => exact iff_of_true h trivial
  | page jum dat pas pof => exact put_line h _

/-! ### Runs -/

theorem cacheTurn_right_iff {who : Ship} {a b : Pages} {e : PageEvent} (h : CacheRight a.cache)
    (ht : cacheTurn who a e = some b) : CacheRight b.cache ↔ PageFitsIn a e := by
  cases e with
  | peek nam =>
    have hr := hearPeek_right h who nam
    have hb : b.cache = (hearPeek who a.cache nam).1 := by
      unfold cacheTurn at ht
      dsimp only at ht
      split at ht
      · next hp =>
        obtain rfl := Option.some.inj ht
        rw [hp]
      · next hp =>
        obtain rfl := Option.some.inj ht
        rw [hp]
    rw [hb]
    exact iff_of_true hr trivial
  | answer i res =>
    obtain ⟨nam, hnam, ht⟩ := Option.bind_eq_some_iff.mp ht
    obtain rfl := Option.some.inj ht
    refine (pageScryJumboCb_right h nam res).trans ⟨fun hf nam' hn => ?_, fun hf => hf nam hnam⟩
    obtain rfl := Option.some.inj (hnam.symm.trans hn)
    exact hf

/-- **The count is right all along just when every answer fits.** -/
theorem cache_right_iff (who : Ship) {l : List PageEvent} {b : Pages}
    (h : Replay.follow (cacheTurn who) .start l = some b) :
    (∀ n a, Replay.At (cacheTurn who) .start l n a → CacheRight a.cache) ↔
      Replay.Along (cacheTurn who) PageFitsIn .start l :=
  Replay.Along.iff_all (fun _ => True) (fun a => CacheRight a.cache) (fun _ _ _ _ _ => trivial)
    (fun _ _ _ _ ha ht => cacheTurn_right_iff ha ht) trivial (.of_count rfl) h

/-- A page of the galaxy `0`, by the byte of its path. -/
def pageName (p : UInt8) : Name (List UInt8) := ⟨⟨0, 0⟩, 0, 13, false, false, 0, [p], []⟩

/-- The first frame of a message of so many bytes. -/
def pageOf (tob : UInt64) : Scried := .page (pageName 0) ⟨tob, .none, []⟩ [] 0

/-- A page is asked for, and comes. -/
def askedOnce : List PageEvent := [.peek (pageName 1), .answer 0 (pageOf 1000)]

theorem cache_right_once : (Replay.follow (cacheTurn ⟨0, 0⟩) .start askedOnce).isSome ∧
    ((∀ n a, Replay.At (cacheTurn ⟨0, 0⟩) .start askedOnce n a → CacheRight a.cache) ↔
      Replay.Along (cacheTurn ⟨0, 0⟩) PageFitsIn .start askedOnce) := by
  have hsome : (Replay.follow (cacheTurn ⟨0, 0⟩) .start askedOnce).isSome := by decide +kernel
  obtain ⟨b, hb⟩ := Option.isSome_iff_exists.mp hsome
  exact ⟨hsome, cache_right_iff ⟨0, 0⟩ hb⟩

/-- A message of 300 megabytes is in the cache when two pages are asked for. The answer about one of them empties
the cache, so that the other is asked for again, and comes twice. -/
def askedTwice : List PageEvent :=
  [.peek (pageName 1), .answer 0 (pageOf 300000000), .peek (pageName 2), .peek (pageName 3), .answer 1 (pageOf 1000),
    .peek (pageName 2), .answer 0 (pageOf 1000), .answer 0 (pageOf 1000)]

/-- A page that comes twice is counted twice. -/
theorem counted_twice : ¬ ∀ n a, Replay.At (cacheTurn ⟨0, 0⟩) .start askedTwice n a → CacheRight a.cache := by
  intro h
  have hend : (Replay.follow (cacheTurn ⟨0, 0⟩) .start askedTwice).map
      (fun b => (b.cache.jumD.toNat, b.cache.bytes)) = some (3000, 2000) := by decide +kernel
  obtain ⟨b, hb, hpair⟩ := Option.map_eq_some_iff.mp hend
  have hcount := (h askedTwice.length b ⟨le_rfl, by rw [List.take_length]; exact hb⟩).count
  rw [(Prod.mk.inj hpair).1, (Prod.mk.inj hpair).2] at hcount
  exact absurd hcount (by decide)

end Mesa
end Ursockets
