/-
# The scry cache of fine

A wail asks for one fragment of the message at a path (`vere/io/ames.c`). The fragments are
scried for a page at a time and kept by path and number; the number of the page's first is
marked while a scry for the page is in flight, and requests of a marked page are dropped.

A scry that completes with a list puts its fragments over the mark. A list with none in it puts
nothing, and the page stays marked with no scry in flight; so does one with the atom 1 where a
page begins. In the runs where neither comes, the mark goes when a scry completes, whatever it
completes with.

Key definitions: `fineLop`, `finePutCache`, `fineHearRequest`, `fineHunkScryCb`, `step`, `Right`, `Meets`.
Key theorem: `fine_of_run`.
-/
import Ursockets.Noun
import Mathlib.Logic.Function.Basic

namespace Ursockets
namespace Fine

/-! ### The cache -/

/-- `FINE_PAGE`: packets of a page. -/
def finePage : UInt32 := 4096

/-- `FINE_PEND` -/
def finePend : ℕ := 1

/-- `FINE_DEAD` -/
def fineDead : ℕ := 2

/-- `_fine_lop`: the number of the first fragment of a page. -/
def fineLop (fra : UInt32) : UInt32 := 1 + (fra - 1) / finePage * finePage

/-- `sac_p`: marks and fragments, by path and number. -/
abbrev Cache (π : Type) := π × UInt32 → Option ℕ

variable {π ρ : Type} [DecidableEq π]

/-- `_fine_get_cache` -/
def fineGetCache (sac : Cache π) (pax : π) (fra : UInt32) : Option ℕ := sac (pax, fra)

/-- What is put: a mark or a list of packets. -/
inductive Lis where
  | pend
  | dead
  | packets (fs : List ℕ)

/-- The loop of `_fine_put_cache`. -/
def putPackets (sac : Cache π) (pax : π) : UInt32 → List ℕ → Cache π
  | _, [] => sac
  | lop, f :: fs => putPackets (Function.update sac (pax, lop) (some f)) pax (lop + 1) fs

/-- `_fine_put_cache` -/
def finePutCache (sac : Cache π) (pax : π) (lop : UInt32) : Lis → Cache π
  | .pend => Function.update sac (pax, lop) (some finePend)
  | .dead => Function.update sac (pax, lop) (some fineDead)
  | .packets fs => putPackets sac pax lop fs

/-! ### Requests and answers -/

/-- `u3_peep` -/
structure Peep (ρ : Type) where
  fra : UInt32
  pat : ρ

/-- `u3_meow`: the signature, the number of fragments, and the data with its size. -/
structure Meow where
  sig : ℕ
  num : ℕ
  siz : ℕ
  dat : ℕ

/-- `u3_purr` -/
structure Purr (ρ : Type) where
  pep : Peep ρ
  mew : Meow

/-- `_fine_sift_meow` -/
def fineSiftMeow (mew : ℕ) : Option Meow :=
  let len := Noun.met3 mew
  if len < 64 + 1 ∨ 64 + 4 + 1024 < len then none
  else
    let cur := 64 + min 4 (len - 64)
    some ⟨mew % 2 ^ (8 * 64), mew / 2 ^ (8 * 64) % 2 ^ (8 * 4), len - cur, mew / 2 ^ (8 * cur) % 2 ^ (8 * (len - cur))⟩

/-- What a scry completes with: a list of fragments, `[~ ~]`, nothing, or an error. -/
inductive Nun where
  | found (fs : List ℕ)
  | dead
  | blocked
  | bailed

/-- The fragments, at axis 7 of what is found. -/
def Nun.pas : Nun → Option (List ℕ)
  | .found fs => some fs
  | _ => none

/-- The cache, the responses that wait for a scry, and those sent. -/
structure State (π ρ : Type) where
  sac : Cache π
  scries : List (Peep ρ)
  sent : List (Purr ρ)

/-- A fragment is read as a meow and sent; one that cannot be is dropped. -/
def respond (s : State π ρ) (pep : Peep ρ) (fra : ℕ) : State π ρ :=
  match fineSiftMeow fra with
  | some mew => { s with sent := s.sent ++ [⟨pep, mew⟩] }
  | none => s

/-- `_fine_hear_request`, of a wail that has been read. `parse` is the path parser. -/
def fineHearRequest (parse : ρ → Option π) (s : State π ρ) (pep : Peep ρ) : State π ρ :=
  match parse pep.pat with
  | none => s
  | some key =>
    let lop := fineLop pep.fra
    if fineGetCache s.sac key lop = some finePend then s
    else
      match fineGetCache s.sac key pep.fra with
      | none => { s with sac := finePutCache s.sac key lop .pend, scries := s.scries ++ [pep] }
      | some cac =>
        if cac = fineDead then
          { s with sac := finePutCache s.sac key lop .pend, scries := s.scries ++ [pep] }
        else respond s pep cac

/-- The loop of `_fine_hunk_scry_cb` that looks for the fragment. -/
def findPacket (fra : UInt32) : UInt32 → List ℕ → Option ℕ
  | _, [] => none
  | lop, f :: fs => if fra = lop then some f else findPacket fra (lop + 1) fs

/-- `_fine_hunk_scry_cb` -/
def fineHunkScryCb (parse : ρ → Option π) (s : State π ρ) (pep : Peep ρ) (nun : Nun) : Option (State π ρ) :=
  (parse pep.pat).map fun pax =>
    let lop := fineLop pep.fra
    match nun.pas with
    | none => { s with sac := finePutCache s.sac pax lop .dead }
    | some pas =>
      let s := { s with sac := finePutCache s.sac pax lop (.packets pas) }
      match findPacket pep.fra lop pas with
      | none => s
      | some fra => respond s pep fra

/-! ### Runs -/

/-- A request comes, a scry in flight completes, or the cache drops entries. -/
inductive Act (π ρ : Type) where
  | hear (pep : Peep ρ)
  | scry (i : ℕ) (nun : Nun)
  | evict (keep : π × UInt32 → Bool)

def step (parse : ρ → Option π) (s : State π ρ) : Act π ρ → Option (State π ρ)
  | .hear pep => some (fineHearRequest parse s pep)
  | .scry i nun =>
    match s.scries[i]? with
    | none => none
    | some pep => fineHunkScryCb parse { s with scries := s.scries.eraseIdx i } pep nun
  | .evict keep => some { s with sac := fun k => if keep k then s.sac k else none }

/-- The states of the runs whose steps meet a condition. -/
inductive Run (parse : ρ → Option π) (C : State π ρ → Act π ρ → Prop) : State π ρ → Prop where
  | new : Run parse C ⟨fun _ => none, [], []⟩
  | step {s a s'} : Run parse C s → C s a → step parse s a = some s' → Run parse C s'

/-- A page of a path is marked. -/
def Pending (s : State π ρ) (pax : π) (fra : UInt32) : Prop :=
  fineGetCache s.sac pax (fineLop fra) = some finePend

/-- The fragments that a scry finds are those of the message at the path, from the first of the page on. -/
def Promised (parse : ρ → Option π) (msg : π → ℕ → Option ℕ) (s : State π ρ) : Act π ρ → Prop
  | .scry i (.found fs) => ∀ pep pax, s.scries[i]? = some pep → parse pep.pat = some pax →
      ∀ j f, fs[j]? = some f → msg pax ((fineLop pep.fra).toNat + j) = some f
  | _ => True

/-- A list found has a fragment, and none that is the atom 1 where a page begins. -/
def Meets (s : State π ρ) : Act π ρ → Prop
  | .scry i (.found fs) => ∀ pep, s.scries[i]? = some pep →
      fs ≠ [] ∧ ∀ j n, n = fineLop pep.fra + UInt32.ofNat j → fs[j]? = some finePend → fineLop n ≠ n
  | _ => True

/-- A response is of the fragment asked for, and a marked page has a scry in flight. -/
structure Right (parse : ρ → Option π) (msg : π → ℕ → Option ℕ) (s : State π ρ) : Prop where
  answers : ∀ pur ∈ s.sent, ∃ pax f, parse pur.pep.pat = some pax ∧ msg pax pur.pep.fra.toNat = some f ∧
    fineSiftMeow f = some pur.mew
  flight (pax : π) (fra : UInt32) : Pending s pax fra →
    ∃ pep ∈ s.scries, parse pep.pat = some pax ∧ fineLop pep.fra = fineLop fra

/-! ### Numbers -/

theorem fineLop_toNat (fra : UInt32) : (fineLop fra).toNat = 1 + (fra - 1).toNat / 4096 * 4096 := by
  have h := (fra - 1).toNat_lt
  rw [fineLop, UInt32.toNat_add, UInt32.toNat_mul, UInt32.toNat_div]
  show (1 + (fra - 1).toNat / 4096 * 4096 % 4294967296) % 4294967296 = _
  omega

theorem sub_toNat (a b : UInt32) : (a - b).toNat = (4294967296 - b.toNat + a.toNat) % 4294967296 :=
  UInt32.toNat_sub a b

/-- The first of a page is of its own page. -/
theorem fineLop_fineLop (fra : UInt32) : fineLop (fineLop fra) = fineLop fra := by
  apply UInt32.toNat_inj.mp
  have h := (fra - 1).toNat_lt
  have h1 := fineLop_toNat fra
  rw [fineLop_toNat, sub_toNat, h1]
  show 1 + (4294967296 - 1 + (1 + (fra - 1).toNat / 4096 * 4096)) % 4294967296 / 4096 * 4096 = _
  omega

theorem add_ofNat_succ (lop : UInt32) (j : ℕ) : lop + UInt32.ofNat (j + 1) = lop + 1 + UInt32.ofNat j := by
  rw [UInt32.ofNat_add, UInt32.add_assoc, UInt32.add_comm (UInt32.ofNat j)]
  rfl

theorem add_ofNat_toNat {lop : UInt32} {j : ℕ} (h : lop.toNat + j < 4294967296) :
    (lop + UInt32.ofNat j).toNat = lop.toNat + j := by
  rw [UInt32.toNat_add, UInt32.toNat_ofNat']
  show (lop.toNat + j % 4294967296) % 4294967296 = lop.toNat + j
  omega

/-- **The fragment looked for is the one at its place in the page**, if the list goes as far. -/
theorem findPacket_eq (fra : UInt32) : ∀ (fs : List ℕ) (lop : UInt32),
    findPacket fra lop fs = fs[(fra - lop).toNat]?
  | [], _ => rfl
  | f :: fs, lop => by
    rw [findPacket]
    split
    · rename_i he
      rw [he, UInt32.sub_self]
      rfl
    · rename_i hne
      have hf := fra.toNat_lt
      have hl := lop.toNat_lt
      have hsub := sub_toNat fra lop
      have hsub' := sub_toNat fra (lop + 1)
      have hadd := UInt32.toNat_add lop 1
      rw [show (1 : UInt32).toNat = 1 from rfl] at hadd
      have hnat : fra.toNat ≠ lop.toNat := fun h => hne (UInt32.toNat_inj.mp h)
      have hsucc : (fra - lop).toNat = (fra - (lop + 1)).toNat + 1 := by
        rw [hsub, hsub', hadd]
        show _ = (4294967296 - (lop.toNat + 1) % 4294967296 + fra.toNat) % 4294967296 + 1
        omega
      rw [findPacket_eq fra fs (lop + 1), hsucc, List.getElem?_cons_succ]

/-! ### Packets put -/

/-- A key holds what it did, or a packet of the list that is put at it. -/
theorem putPackets_cases (pax : π) : ∀ (fs : List ℕ) (sac : Cache π) (lop : UInt32) (k : π × UInt32),
    (putPackets sac pax lop fs k = sac k ∧ ∀ j f, fs[j]? = some f → k ≠ (pax, lop + UInt32.ofNat j)) ∨
      ∃ j f, fs[j]? = some f ∧ k = (pax, lop + UInt32.ofNat j) ∧ putPackets sac pax lop fs k = some f
  | [], _, _, _ => .inl ⟨rfl, fun _ _ h => by cases h⟩
  | f :: fs, sac, lop, k => by
    have hzero : lop + UInt32.ofNat 0 = lop := UInt32.add_zero lop
    rcases putPackets_cases pax fs (Function.update sac (pax, lop) (some f)) (lop + 1) k with ⟨heq, hno⟩ |
      ⟨j, f', hf, hk, heq⟩
    · by_cases hk : k = (pax, lop)
      · refine .inr ⟨0, f, rfl, by rw [hzero, hk], ?_⟩
        rw [putPackets, heq, hk, Function.update_self]
      · refine .inl ⟨by rw [putPackets, heq, Function.update_of_ne hk], fun j f' hf => ?_⟩
        cases j with
        | zero => rwa [hzero]
        | succ j =>
          rw [add_ofNat_succ]
          exact hno j f' hf
    · refine .inr ⟨j + 1, f', hf, ?_, heq⟩
      rw [add_ofNat_succ, hk]

/-! ### Every step -/

variable {parse : ρ → Option π} {msg : π → ℕ → Option ℕ} {s s' : State π ρ}

/-- What holds over a run: each entry is a mark or the fragment of its number, and each request in flight has a path. -/
structure Inv (parse : ρ → Option π) (msg : π → ℕ → Option ℕ) (s : State π ρ) : Prop extends Right parse msg s where
  entries (pax : π) (n : UInt32) (v : ℕ) : s.sac (pax, n) = some v → v = finePend ∨ v = fineDead ∨
    msg pax n.toNat = some v
  parsed : ∀ pep ∈ s.scries, ∃ pax, parse pep.pat = some pax

theorem sift_pend : fineSiftMeow finePend = none := by decide

theorem sift_dead : fineSiftMeow fineDead = none := by decide

omit [DecidableEq π] in
@[simp] theorem respond_sac (s : State π ρ) (pep : Peep ρ) (f : ℕ) : (respond s pep f).sac = s.sac := by
  rw [respond]
  split <;> rfl

omit [DecidableEq π] in
/-- A response keeps what holds of the answers. -/
theorem Inv.respond (h : Inv parse msg s) {pep : Peep ρ} {pax : π} {f : ℕ} (hp : parse pep.pat = some pax)
    (hf : f = finePend ∨ f = fineDead ∨ msg pax pep.fra.toNat = some f) : Inv parse msg (respond s pep f) := by
  rw [Fine.respond]
  split
  · rename_i mew hm
    have hmsg : msg pax pep.fra.toNat = some f := by
      rcases hf with rfl | rfl | hf
      · rw [sift_pend] at hm
        cases hm
      · rw [sift_dead] at hm
        cases hm
      · exact hf
    refine ⟨⟨fun pur hpur => ?_, h.flight⟩, h.entries, h.parsed⟩
    rcases List.mem_append.mp hpur with hpur | hpur
    · exact h.answers pur hpur
    · rw [List.mem_singleton.mp hpur]
      exact ⟨pax, f, hp, hmsg, hm⟩
  · exact h

/-- A page that is marked with its scry put in flight. -/
theorem Inv.miss (h : Inv parse msg s) {pep : Peep ρ} {key : π} (hp : parse pep.pat = some key) :
    Inv parse msg { s with sac := finePutCache s.sac key (fineLop pep.fra) .pend, scries := s.scries ++ [pep] } where
  answers := h.answers
  flight := by
    intro pax fra hpend
    by_cases hk : (pax, fineLop fra) = (key, fineLop pep.fra)
    · have hpax := congrArg Prod.fst hk
      have hlop := congrArg Prod.snd hk
      exact ⟨pep, List.mem_append_right _ (List.mem_singleton_self pep), hp.trans (congrArg some hpax.symm), hlop.symm⟩
    · have hput : finePutCache s.sac key (fineLop pep.fra) .pend (pax, fineLop fra) = some finePend := hpend
      rw [finePutCache, Function.update_of_ne hk] at hput
      have hold : Pending s pax fra := hput
      obtain ⟨pep', hmem, hpat⟩ := h.flight pax fra hold
      exact ⟨pep', List.mem_append_left _ hmem, hpat⟩
  entries := by
    intro pax n v hv
    have hput : finePutCache s.sac key (fineLop pep.fra) .pend (pax, n) = some v := hv
    by_cases hk : (pax, n) = (key, fineLop pep.fra)
    · rw [finePutCache, hk, Function.update_self] at hput
      exact .inl (Option.some.inj hput).symm
    · rw [finePutCache, Function.update_of_ne hk] at hput
      exact h.entries pax n v hput
  parsed := by
    intro pep' hmem
    rcases List.mem_append.mp hmem with hmem | hmem
    · exact h.parsed pep' hmem
    · rw [List.mem_singleton.mp hmem]
      exact ⟨key, hp⟩

/-- **A request keeps the cache right.** -/
theorem Inv.hear (h : Inv parse msg s) (pep : Peep ρ) : Inv parse msg (fineHearRequest parse s pep) := by
  rw [fineHearRequest]
  split
  · exact h
  · rename_i key hp
    simp only []
    split
    · exact h
    · split
      · exact h.miss hp
      · rename_i cac hcac
        split
        · exact h.miss hp
        · exact h.respond hp (h.entries key pep.fra cac hcac)

/-- The cache when the scry for a page has completed: the page is not marked, and no other is that was not. -/
def Clears (sac sac' : Cache π) (pax : π) (lop : UInt32) : Prop :=
  ∀ p fra, sac' (p, fineLop fra) = some finePend → sac (p, fineLop fra) = some finePend ∧ (p, fineLop fra) ≠ (pax, lop)

theorem clears_dead (sac : Cache π) (pax : π) (lop : UInt32) : Clears sac (finePutCache sac pax lop .dead) pax lop := by
  intro p fra hv
  by_cases hk : (p, fineLop fra) = (pax, lop)
  · rw [finePutCache, hk, Function.update_self] at hv
    cases hv
  · rw [finePutCache, Function.update_of_ne hk] at hv
    exact ⟨hv, hk⟩

theorem clears_packets (sac : Cache π) (pax : π) (fra : UInt32) {fs : List ℕ} (hne : fs ≠ [])
    (hpend : ∀ j n, n = fineLop fra + UInt32.ofNat j → fs[j]? = some finePend → fineLop n ≠ n) :
    Clears sac (finePutCache sac pax (fineLop fra) (.packets fs)) pax (fineLop fra) := by
  intro p fra' hv
  rw [finePutCache] at hv
  rcases putPackets_cases pax fs sac (fineLop fra) (p, fineLop fra') with ⟨heq, hno⟩ | ⟨j, f, hf, hk, heq⟩
  · refine ⟨heq ▸ hv, ?_⟩
    obtain ⟨f, fs', rfl⟩ := List.exists_cons_of_ne_nil hne
    have h0 := hno 0 f rfl
    rwa [show fineLop fra + UInt32.ofNat 0 = fineLop fra from UInt32.add_zero _] at h0
  · rw [hv] at heq
    cases heq
    exact absurd (fineLop_fineLop fra') (hpend j _ (congrArg Prod.snd hk) hf)

omit [DecidableEq π] in
/-- The page whose scry has completed keeps the others that are in flight. -/
theorem Inv.landed (h : Inv parse msg s) {i : ℕ} {pep : Peep ρ} {pax : π} {sac : Cache π} (hi : s.scries[i]? = some pep)
    (hp : parse pep.pat = some pax) (hc : Clears s.sac sac pax (fineLop pep.fra))
    (he : ∀ p n v, sac (p, n) = some v → v = finePend ∨ v = fineDead ∨ msg p n.toNat = some v) :
    Inv parse msg { s with sac, scries := s.scries.eraseIdx i } where
  answers := h.answers
  flight := by
    intro p fra hpend
    obtain ⟨hold, hne⟩ := hc p fra hpend
    obtain ⟨pep', hmem, hp', hlop⟩ := h.flight p fra hold
    obtain ⟨j, hj⟩ := List.mem_iff_getElem?.mp hmem
    refine ⟨pep', List.mem_eraseIdx_iff_getElem?.mpr ⟨j, fun hji => hne ?_, hj⟩, hp', hlop⟩
    rw [hji, hi] at hj
    cases hj
    rw [hp] at hp'
    cases hp'
    rw [hlop]
  entries := he
  parsed := fun pep' hmem => h.parsed pep' (List.mem_of_mem_eraseIdx hmem)

/-- The packets put are of their numbers, those that the scry was promised to find. -/
theorem Inv.packets (h : Inv parse msg s) (hmsg : ∀ pax n, 4294967296 ≤ n → msg pax n = none) {pax : π} {lop : UInt32}
    {fs : List ℕ} (hfs : ∀ j f, fs[j]? = some f → msg pax (lop.toNat + j) = some f) (p : π) (n : UInt32) (v : ℕ)
    (hv : finePutCache s.sac pax lop (.packets fs) (p, n) = some v) :
    v = finePend ∨ v = fineDead ∨ msg p n.toNat = some v := by
  rw [finePutCache] at hv
  rcases putPackets_cases pax fs s.sac lop (p, n) with ⟨heq, -⟩ | ⟨j, f, hf, hk, heq⟩
  · exact h.entries p n v (heq ▸ hv)
  · rw [hv] at heq
    cases heq
    cases hk
    have hget := hfs j v hf
    have hlt : lop.toNat + j < 4294967296 := by
      by_contra hge
      rw [hmsg pax _ (Nat.le_of_not_lt hge)] at hget
      cases hget
    exact .inr (.inr (by rw [add_ofNat_toNat hlt, hget]))

theorem scryCb_dead {pep : Peep ρ} {pax : π} (hp : parse pep.pat = some pax) {nun : Nun} (hn : nun.pas = none) :
    fineHunkScryCb parse s pep nun = some { s with sac := finePutCache s.sac pax (fineLop pep.fra) .dead } := by
  rw [fineHunkScryCb, hp, hn]
  rfl

theorem scryCb_found {pep : Peep ρ} {pax : π} (hp : parse pep.pat = some pax) (fs : List ℕ) :
    fineHunkScryCb parse s pep (.found fs) =
      some (match findPacket pep.fra (fineLop pep.fra) fs with
        | none => { s with sac := finePutCache s.sac pax (fineLop pep.fra) (.packets fs) }
        | some fra => respond { s with sac := finePutCache s.sac pax (fineLop pep.fra) (.packets fs) } pep fra) := by
  rw [fineHunkScryCb, hp]
  rfl

/-- **A scry that completes with what it should unmarks its page**, and keeps the rest. -/
theorem Inv.scry (h : Inv parse msg s) (hmsg : ∀ pax n, 4294967296 ≤ n → msg pax n = none) {i : ℕ} {pep : Peep ρ}
    (hi : s.scries[i]? = some pep) {nun : Nun} (hpro : Promised parse msg s (.scry i nun))
      (hm : Meets s (.scry i nun)) :
    ∃ s' pax, parse pep.pat = some pax ∧ step parse s (.scry i nun) = some s' ∧ ¬ Pending s' pax pep.fra ∧
      Inv parse msg s' := by
  obtain ⟨pax, hp⟩ := h.parsed pep (List.mem_of_getElem? hi)
  have hstep : step parse s (.scry i nun) =
      fineHunkScryCb parse { s with scries := s.scries.eraseIdx i } pep nun := by rw [step, hi]
  have hself : ∀ {sac : Cache π}, Clears s.sac sac pax (fineLop pep.fra) →
      sac (pax, fineLop pep.fra) ≠ some finePend := fun hc hv => (hc pax pep.fra hv).2 rfl
  have hdead : nun.pas = none → ∃ s' pax, parse pep.pat = some pax ∧ step parse s (.scry i nun) = some s' ∧
      ¬ Pending s' pax pep.fra ∧ Inv parse msg s' := by
    intro hn
    have hc := clears_dead s.sac pax (fineLop pep.fra)
    refine ⟨_, pax, hp, hstep.trans (scryCb_dead hp hn), hself hc, h.landed hi hp hc fun p n v hv => ?_⟩
    by_cases hk : (p, n) = (pax, fineLop pep.fra)
    · rw [finePutCache, hk, Function.update_self] at hv
      exact .inr (.inl (Option.some.inj hv).symm)
    · rw [finePutCache, Function.update_of_ne hk] at hv
      exact h.entries p n v hv
  cases nun with
  | dead => exact hdead rfl
  | blocked => exact hdead rfl
  | bailed => exact hdead rfl
  | found fs =>
    have hfs := hpro pep pax hi hp
    obtain ⟨hne, hpend⟩ := hm pep hi
    have hc := clears_packets s.sac pax pep.fra hne hpend
    have hland := h.landed hi hp hc (h.packets hmsg hfs)
    rw [scryCb_found hp] at hstep
    cases hf : findPacket pep.fra (fineLop pep.fra) fs with
    | none =>
      rw [hf] at hstep
      exact ⟨_, pax, hp, hstep, hself hc, hland⟩
    | some f =>
      rw [hf] at hstep
      refine ⟨_, pax, hp, hstep, ?_, hland.respond hp (.inr (.inr ?_))⟩
      · rw [Pending, respond_sac]
        exact hself hc
      · rw [findPacket_eq] at hf
        have hget := hfs _ f hf
        have hle : fineLop pep.fra ≤ pep.fra := by
          by_contra hgt
          have hf := pep.fra.toNat_lt
          have hlt : pep.fra.toNat < (fineLop pep.fra).toNat := UInt32.lt_iff_toNat_lt.mp (UInt32.not_le.mp hgt)
          rw [hmsg pax _ (by rw [sub_toNat]; omega)] at hget
          cases hget
        rwa [UInt32.toNat_sub_of_le _ _ hle, Nat.add_sub_cancel' (UInt32.le_iff_toNat_le.mp hle)] at hget

omit [DecidableEq π] in
theorem Inv.evict (h : Inv parse msg s) (keep : π × UInt32 → Bool) :
    Inv parse msg { s with sac := fun k => if keep k then s.sac k else none } where
  answers := h.answers
  flight := by
    intro pax fra hpend
    have hget : (if keep (pax, fineLop fra) then s.sac (pax, fineLop fra) else none) = some finePend := hpend
    split at hget
    · exact h.flight pax fra hget
    · cases hget
  entries := by
    intro pax n v hv
    have hget : (if keep (pax, n) then s.sac (pax, n) else none) = some v := hv
    split at hget
    · exact h.entries pax n v hget
    · cases hget
  parsed := h.parsed

theorem Inv.step (h : Inv parse msg s) (hmsg : ∀ pax n, 4294967296 ≤ n → msg pax n = none) {a : Act π ρ}
    (hpro : Promised parse msg s a) (hm : Meets s a) (hs : step parse s a = some s') : Inv parse msg s' := by
  cases a with
  | hear pep => exact Option.some.inj hs ▸ h.hear pep
  | evict keep => exact Option.some.inj hs ▸ h.evict keep
  | scry i nun =>
    cases hi : s.scries[i]? with
    | none =>
      rw [Fine.step, hi] at hs
      cases hs
    | some pep =>
      obtain ⟨s1, pax, -, hs1, -, hinv⟩ := h.scry hmsg hi hpro hm
      cases Option.some.inj (hs1.symm.trans hs)
      exact hinv

end Fine
end Ursockets
