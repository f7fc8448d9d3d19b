/-
# Cue of jam

A noun that is jammed and cued comes back, and each back-reference in its
stream leads to the noun that was written at that place, if and only if the
noun fits: its stream, its nesting, and no more than ten of its nouns, atoms,
cells or places share a mug.

Key definitions: `Fits`, `RoundTrips`.
Key theorems: `urCue_runs`, `jam_cue_iff`.
-/
import Ursockets.SerialCue

namespace Ursockets
namespace Serial

open Bits Bitstream UrDict Hashcons Ursockets.Jam Loop Noun

variable {room : ℕ} {r r' : Root} {ref : Nref} {x : Noun}

/-! ### Cueing a noun -/

theorem cueInit_eq (room : ℕ) (r : Root) (bsr : Bsr) :
    cueInit (room + 1) r bsr = some ⟨r, fib10, fib11, [], ⟨fib12, fib11 + fib12, fun _ => []⟩, bsr⟩ := rfl

/-- The cue has read a noun from its start. -/
def CueRun (room : ℕ) (r : Root) (byt : List UInt8) (x : Noun) (k : Nref) (c : Cue) : Prop :=
  (∃ fuel, urCue room fuel r byt = some (.good k, c)) ∧
    ∃ c0 : Cue, c0.r = r ∧ (∀ q, ¬ c0.dict.Has q) ∧ c0.f = [] ∧ Cued byt c0 c (marks x) 0 (jam x) x k

theorem urCue_long {byt : List UInt8} (hl : 0x7ffffffffffffff < byt.length) {n : ℕ} {m : Mode} {c : Cue}
    (h : urCue room n r byt = some (m, c)) : m = .fail .meme := by
  rw [urCue] at h
  split at h
  · rename_i res heq
    rw [bsrInit] at heq
    split at heq
    · cases heq
      obtain ⟨_, -, he⟩ := Option.map_eq_some_iff.mp h
      cases he
      rfl
    · cases heq
  · obtain ⟨c', hc, h⟩ := Option.bind_eq_some_iff.mp h
    rw [if_pos hl] at h
    cases h
    rfl

/-- **`ur_cue` reads the noun**, or aborts. -/
theorem urCue_runs (hr : r.Ok) {byt : List UInt8} (hs : StandsAt byt 0 (jam x).bits)
    (hl : byt.length ≤ 0x7ffffffffffffff) (room : ℕ) :
    (∃ k c, CueRun room r byt x k c) ∨
    ((∀ fuel, urCue room fuel r byt = none) ∧
      ¬ (63 ≤ room ∧ (Uncrowded cursorMug fun q => ∃ y, (q, y) ∈ marks x) ∧
        (Uncrowded nounMug fun y => r.Atom y ∨ y ∈ subs x ∧ Big y) ∧
        (Uncrowded nounMug fun y => r.Cell y ∨ y ∈ subs x ∧ IsCell y) ∧ (jam x).depth ≤ stackMax)) := by
  obtain ⟨b, hb, hat⟩ := bsrInit_spec (l := byt) (by omega)
  cases room with
  | zero =>
    refine .inr ⟨fun fuel => ?_, fun h => absurd h.1 (by decide)⟩
    rw [urCue, hb]
    rfl
  | succ room =>
    have hcue : ∀ fuel, urCue (room + 1) fuel r byt = run (cueTurn (room + 1)) cueDone fuel
        (.next, ⟨r, fib10, fib11, [], ⟨fib12, fib11 + fib12, fun _ => []⟩, b⟩) := by
      intro fuel
      rw [urCue, hb]
      simp only []
      rw [cueInit_eq, Option.bind_some, if_neg (by omega)]
    set c0 : Cue := ⟨r, fib10, fib11, [], ⟨fib12, fib11 + fib12, fun _ => []⟩, b⟩ with hc0
    have hempty : ∀ q, ¬ c0.dict.Has q := not_has_nil _ _
    have hat0 : CueAt byt c0 [] 0 (size x) :=
      ⟨hr, hat, dictOk_nil _, fun q hq => absurd hq (hempty q), fun _ _ h => absurd h List.not_mem_nil,
        fun _ _ h => absurd h List.not_mem_nil, cap_init, Nat.zero_le _⟩
    have hruns : CueRuns (room + 1) byt c0 0 x (plan [] 0 x) :=
      cue_runs (by omega) x hat0 (Nat.le_refl _) hs
    rcases hruns with ⟨k, c, hreach, hc⟩ | ⟨hab, hno⟩
    · have hdone : cueDone (.good k, c) = true := by rw [cueDone, hc.f]; rfl
      obtain ⟨n, hn⟩ := run_of_reaches hreach (run_done hdone 0)
      exact .inl ⟨k, c, ⟨n, by rw [hcue, hn]⟩, c0, rfl, hempty, rfl, hc⟩
    · refine .inr ⟨fun fuel => by rw [hcue, hab fuel], ?_⟩
      rintro ⟨h1, h2, h3, h4, h5⟩
      refine hno ⟨h1, ?_, h3, h4, ?_⟩
      · refine h2.mono fun q hq => ?_
        rcases hq with hq | ⟨-, hq⟩
        · exact absurd hq (hempty q)
        · exact hq
      · show 0 + _ ≤ _
        rw [Nat.zero_add]
        exact h5

/-! ### The round trip -/

/-- What a round trip needs. -/
structure Fits (r' : Root) (x : Noun) : Prop where
  bits : (jam x).bits.length ≤ 2 ^ 62 - 8
  heads : 1 + (jam x).heads < stackMax
  depth : (jam x).depth ≤ stackMax
  nouns : Uncrowded nounMug fun y => y ∈ subs x
  cursors : Uncrowded cursorMug fun q => ∃ y, (q, y) ∈ marks x
  atoms : Uncrowded nounMug fun y => r'.Atom y ∨ y ∈ subs x ∧ Big y
  cells : Uncrowded nounMug fun y => r'.Cell y ∨ y ∈ subs x ∧ IsCell y

/-- The noun is jammed and cued into the arena `r'`, and each back-reference
that the jammer emits has the place where its noun was written, and resolves to
that noun. -/
def RoundTrips (room fuel : ℕ) (r : Root) (ref : Nref) (r' : Root) (x : Noun) : Prop :=
  ∃ bits byt out c, urJam room fuel r ref = some (bits, byt) ∧
    urCue room fuel r' byt = some (.good out, c) ∧ Den c.r out x ∧
      ∀ w0 w ref' p, jamInit room r ref = some w0 → Reaches (jamTurn room r) Walk.done w0 w →
        Emits r w ref' p →
          (∃ w1, Reaches (jamTurn room r) Walk.done w0 w1 ∧ Reaches (jamTurn room r) Walk.done w1 w ∧
            w1.top.head? = some ref' ∧ w1.v.bsw.bits = p) ∧
          ∃ y val, Den r ref' y ∧ dictGet cursorMug c.dict p = some val ∧ Den c.r val y

/-- What is in a noun that is denoted is denoted. -/
theorem Den.sub {k : Nref} : ∀ {x : Noun}, Den r k x → ∀ y ∈ subs x, ∃ k', Den r k' y
  | .atom a, h, y, hy => by
    rw [subs, List.mem_singleton] at hy
    exact ⟨k, hy ▸ h⟩
  | .cell x z, h, y, hy => by
    obtain ⟨-, hx, hz⟩ := deep_cell h
    rw [subs, List.mem_cons, List.mem_append] at hy
    rcases hy with rfl | hy | hy
    · exact ⟨k, h⟩
    · exact Den.sub hx y hy
    · exact Den.sub hz y hy

theorem atom_of_den {y : Noun} {k : Nref} (h : Den r k y) (hb : Big y) : r.Atom y := by
  obtain ⟨a, rfl, ha⟩ := hb
  cases h with
  | direct hn => omega
  | iatom h1 h2 h3 => exact ⟨_, .iatom h1 h2 h3⟩

theorem cell_of_den {y : Noun} {k : Nref} (h : Den r k y) (hc : IsCell y) : r.Cell y := by
  obtain ⟨x, z, rfl⟩ := hc
  cases h with
  | icell h1 h2 h3 => exact ⟨_, .icell h1 h2 h3⟩

/-- A noun that has been jammed fits the jammer. -/
theorem JamRun.fits (hx : Den r ref x) (hr : r.Ok) {w : Walk Jammer} (h : JamRun room r ref x w) :
    1 + (jam x).heads < stackMax ∧ Uncrowded nounMug fun y => y ∈ subs x := by
  obtain ⟨w0, h0, -, hj⟩ := h
  obtain ⟨-, htop, -⟩ := jamInit_at h0
  refine ⟨by have := hj.stack; rwa [htop] at this, ?_⟩
  refine (uncrowded_has hj.at'.dict).of_rel (fun y k => Den r k y) (fun y hy => ?_)
    fun y y' k h h' => h.func h'
  obtain ⟨k, hk⟩ := Den.sub hx y hy
  refine ⟨k, hk, ?_, (hk.nounMug hr).symm⟩
  have hclosed : Closed (size x) [] := fun _ _ h => absurd h List.not_mem_nil
  obtain ⟨p, hp⟩ := Option.isSome_iff_exists.mp (subs_plan x [] 0 hclosed y hy)
  exact (has_iff hj.at'.dict).mpr ⟨p, (hj.at'.get k y hk).trans hp⟩

/-- A noun that has been cued fits the cue. -/
theorem CueRun.fits {byt : List UInt8} {k : Nref} {c : Cue} (h : CueRun room r byt x k c) :
    (jam x).depth ≤ stackMax ∧ (Uncrowded cursorMug fun q => ∃ y, (q, y) ∈ marks x) ∧
      (Uncrowded nounMug fun y => r.Atom y ∨ y ∈ subs x ∧ Big y) ∧
        Uncrowded nounMug fun y => r.Cell y ∨ y ∈ subs x ∧ IsCell y := by
  obtain ⟨-, c0, rfl, -, hf, hc⟩ := h
  refine ⟨?_, ?_, ?_, ?_⟩
  · have := hc.stack
    rwa [hf, List.length_nil, Nat.zero_add] at this
  · refine (uncrowded_has hc.dict).mono fun q ⟨y, hy⟩ => ?_
    obtain ⟨v, hv, -⟩ := hc.new q y hy (Nat.zero_le _)
    exact (has_iff hc.dict).mpr ⟨v, hv⟩
  · refine (uncrowded_atoms hc.root).mono fun y hy => ?_
    rcases hy with ⟨i, hi⟩ | ⟨hy, hb⟩
    · exact ⟨i, hi.mono hc.le⟩
    · obtain ⟨k', hk'⟩ := Den.sub hc.den y hy
      exact atom_of_den hk' hb
  · refine (uncrowded_cells hc.root).mono fun y hy => ?_
    rcases hy with ⟨i, hi⟩ | ⟨hy, hb⟩
    · exact ⟨i, hi.mono hc.le⟩
    · obtain ⟨k', hk'⟩ := Den.sub hc.den y hy
      exact cell_of_den hk' hb

theorem urJam_mono {n m : ℕ} (h : n ≤ m) {res : ℕ × List UInt8} (hs : urJam room n r ref = some res) :
    urJam room m r ref = some res := by
  obtain ⟨w, hw, hs⟩ := Option.bind_eq_some_iff.mp hs
  obtain ⟨t, ht, rfl⟩ := Option.map_eq_some_iff.mp hs
  rw [urJam, hw, Option.bind_some, run_mono h ht, Option.map_some]

theorem urCue_mono {n m : ℕ} (h : n ≤ m) {byt : List UInt8} {s : Mode × Cue}
    (hs : urCue room n r byt = some s) : urCue room m r byt = some s := by
  rw [urCue] at hs ⊢
  split at hs
  · exact hs
  · obtain ⟨c, hc, hs⟩ := Option.bind_eq_some_iff.mp hs
    rw [hc, Option.bind_some]
    split at hs
    · rename_i hl
      rw [if_pos hl]
      exact hs
    · rename_i hl
      rw [if_neg hl]
      exact run_mono h hs

/-- **A noun comes back from its jam if and only if it fits.** -/
theorem jam_cue_iff (hr : r.Ok) (hr' : r'.Ok) (hx : Den r ref x) :
    (∃ room fuel, RoundTrips room fuel r ref r' x) ↔ Fits r' x := by
  constructor
  · rintro ⟨room, fuel, bits, byt, out, c, hjam, hcue, -, -⟩
    have hshort : byt.length ≤ 0x7ffffffffffffff := by
      by_contra hl
      cases urCue_long (Nat.lt_of_not_le hl) hcue
    rcases urJam_runs hr hx room with ⟨w, hw⟩ | ⟨-, hlong⟩ | ⟨hab, -⟩
    · obtain ⟨-, hres, hstands, hlen⟩ := hw.result
      have he := hres fuel _ hjam
      cases he
      obtain ⟨h1, h2⟩ := hw.fits hx hr
      rcases urCue_runs hr' hstands hshort room with ⟨k, c', hc⟩ | ⟨hab, -⟩
      · obtain ⟨h3, h4, h5, h6⟩ := hc.fits
        exact ⟨by omega, h1, h3, h2, h4, h5, h6⟩
      · rw [hab fuel] at hcue
        cases hcue
    · obtain ⟨h1, h2⟩ := hlong fuel bits byt hjam
      rw [jamMax] at h1
      omega
    · rw [hab fuel] at hjam
      cases hjam
  · intro hf
    have hbits := hf.bits
    rcases urJam_runs hr hx 63 with ⟨w, hw⟩ | ⟨hlong, -⟩ | ⟨-, hno⟩
    · obtain ⟨⟨n, hn⟩, -, hstands, hlen⟩ := hw.result
      rcases urCue_runs hr' hstands (by omega) 63 with ⟨k, c, hc⟩ | ⟨-, hno⟩
      · obtain ⟨⟨m, hm⟩, c0, -, -, -, hcued⟩ := hc
        obtain ⟨w0, h0, hreach, hj⟩ := hw
        refine ⟨63, max n m, _, _, k, c, urJam_mono (Nat.le_max_left n m) hn,
          urCue_mono (Nat.le_max_right n m) hm, hcued.den, fun w0' w' ref' p h0' hreach' hemit => ?_⟩
        rw [h0] at h0'
        cases h0'
        obtain ⟨hplace, y, hy, hmem⟩ := jam_places h0 hreach hj hreach' hemit.2.1
        obtain ⟨val, hval, hden⟩ := hcued.new p y hmem (Nat.zero_le _)
        exact ⟨hplace, y, val, hy, hval, hden⟩
      · exact absurd ⟨Nat.le_refl _, hf.cursors, hf.atoms, hf.cells, hf.depth⟩ hno
    · rw [jamMax] at hlong
      omega
    · refine absurd ⟨Nat.le_refl _, hf.nouns.mono fun y hy => ?_, hf.heads⟩ hno
      exact hy.resolve_left fun h => by cases h

theorem jam_cue_iff_five : ∃ r, rootInit 1 = some r ∧ r.Ok ∧ Den r (.direct 5) (.atom 5) ∧
    ∃ room fuel, RoundTrips room fuel r (.direct 5) r (.atom 5) := by
  obtain ⟨r, h⟩ : ∃ r, rootInit 1 = some r := ⟨_, rfl⟩
  obtain ⟨hr, ha, hc⟩ := rootInit_ok h
  have hatom : ∀ y, ¬ r.Atom y := by
    rintro y ⟨i, hi⟩
    cases hi with
    | iatom h _ _ => rw [ha] at h; cases h
  have hcell : ∀ y, ¬ r.Cell y := by
    rintro y ⟨i, hi⟩
    cases hi with
    | icell h _ _ => rw [hc] at h; cases h
  have hden : Den r (.direct 5) (.atom 5) := .direct (by decide)
  refine ⟨r, h, hr, hden, (jam_cue_iff hr hr hden).mpr ⟨by decide, by decide, by decide, ?_, ?_, ?_, ?_⟩⟩
  · exact Uncrowded.of_mem (l := [.atom 5]) (by decide) fun y hy => hy
  · refine Uncrowded.of_mem (l := [0]) (by decide) fun q ⟨y, hy⟩ => ?_
    have hm : marks (.atom 5) = [(0, .atom 5)] := rfl
    rw [hm, List.mem_singleton] at hy
    cases hy
    exact List.mem_cons_self
  · refine Uncrowded.of_mem (l := []) (by decide) fun y hy => ?_
    rcases hy with hy | ⟨hy, a, rfl, hbig⟩
    · exact absurd hy (hatom y)
    · rw [subs, List.mem_singleton] at hy
      cases hy
      exact absurd hbig (by decide)
  · refine Uncrowded.of_mem (l := []) (by decide) fun y hy => ?_
    rcases hy with hy | ⟨hy, a, b, rfl⟩
    · exact absurd hy (hcell y)
    · rw [subs, List.mem_singleton] at hy
      cases hy

/-! ### Eleven atoms of one mug -/

/-- Atoms of 61 or 62 bits that share a mug. -/
def crowd : List ℕ :=
  [1313674000123035649, 1969038129197219842, 2995891756572082179, 1734199848711749638,
    1557375323580923911, 2649536900808835091, 1812161803010965531, 3317782650416005155,
    753748747355160612, 3283137610255433770]

/-- The list of some atoms, with a last one. -/
def listOf (as : List ℕ) (a : ℕ) : Noun := as.foldr (fun a x => .cell (.atom a) x) (.atom a)

/-- A list of no more than eleven small atoms is in some arena. -/
theorem den_listOf {a : ℕ} (ha : met0 a ≤ 62) : ∀ as : List ℕ, (∀ b ∈ as, met0 b ≤ 62) → as.length ≤ pailMax →
    ∃ (r : Root) (ref : Nref) (l : List Noun), r.Ok ∧ l.length ≤ as.length ∧ (∀ z, r.Cell z → z ∈ l) ∧
      Den r ref (listOf as a)
  | [], _, _ => by
    obtain ⟨r, h⟩ : ∃ r, rootInit 1 = some r := ⟨_, rfl⟩
    obtain ⟨hr, -, hc⟩ := rootInit_ok h
    refine ⟨_, .direct a, [], hr, Nat.le_refl _, fun z ⟨i, hi⟩ => ?_, .direct ha⟩
    cases hi with
    | icell h _ _ =>
      rw [hc] at h
      cases h
  | b :: as, hb, hlen => by
    rw [List.length_cons] at hlen
    obtain ⟨r, ref, l, hr, hl, hcells, hden⟩ :=
      den_listOf ha as (fun b h => hb b (List.mem_cons_of_mem _ h)) (by omega)
    have hhead : Den r (.direct b) (.atom b) := .direct (hb b List.mem_cons_self)
    have hmem : ∀ z, r.Cell z ∨ z = .cell (.atom b) (listOf as a) →
        z ∈ .cell (.atom b) (listOf as a) :: l :=
      fun z hz => List.mem_cons.mpr (hz.symm.imp_right (hcells z))
    obtain ⟨⟨ref', r'⟩, hs⟩ := Option.isSome_iff_exists.mp (cons_isSome hr (Nat.le_refl 63) hhead hden
      (Uncrowded.of_mem (by rw [List.length_cons]; omega) hmem))
    obtain ⟨hadds, hcell, -⟩ := cons_spec hr hhead hden hs
    exact ⟨r', ref', _, hadds.ok, by simp only [List.length_cons]; omega,
      fun z hz => hmem z ((hcell z).mp hz), hadds.den⟩

theorem mem_subs_listOf {a : ℕ} : ∀ {as : List ℕ} {b : ℕ}, b ∈ a :: as → .atom b ∈ subs (listOf as a)
  | [], b, h => by
    rw [List.mem_singleton] at h
    exact h ▸ self_mem_subs _
  | c :: as, b, h => by
    rw [show listOf (c :: as) a = .cell (.atom c) (listOf as a) from rfl, subs]
    rcases List.mem_cons.mp h with rfl | h
    · exact List.mem_cons_of_mem _ (List.mem_append_right _ (mem_subs_listOf List.mem_cons_self))
    · rcases List.mem_cons.mp h with rfl | h
      · exact List.mem_cons_of_mem _ (List.mem_append_left _ (self_mem_subs _))
      · exact List.mem_cons_of_mem _
          (List.mem_append_right _ (mem_subs_listOf (List.mem_cons_of_mem _ h)))

theorem crowd_mug : ∀ b ∈ 1981475980824281131 :: crowd, nounMug (.atom b) = 433357679 := by
  decide +kernel

theorem crowd_crowded : ¬ Uncrowded nounMug fun y => y ∈ subs (listOf crowd 1981475980824281131) := by
  intro hu
  have hlen := hu ((1981475980824281131 :: crowd).map .atom) (by decide)
    (fun y hy => by
      obtain ⟨b, hb, rfl⟩ := List.mem_map.mp hy
      exact mem_subs_listOf hb)
    (fun y hy z hz => by
      obtain ⟨b, hb, rfl⟩ := List.mem_map.mp hy
      obtain ⟨c, hc, rfl⟩ := List.mem_map.mp hz
      rw [crowd_mug b hb, crowd_mug c hc])
  exact absurd hlen (by decide)

/-- Eleven atoms of one mug do not come back: the jammer's dictionary takes ten. -/
theorem crowd_stays : ∃ r ref, r.Ok ∧ Den r ref (listOf crowd 1981475980824281131) ∧
    ∀ r' room fuel, r'.Ok → ¬ RoundTrips room fuel r ref r' (listOf crowd 1981475980824281131) := by
  obtain ⟨r, ref, -, hr, -, -, hden⟩ :=
    den_listOf (a := 1981475980824281131) (by decide) crowd (by decide) (by decide)
  exact ⟨r, ref, hr, hden, fun r' room fuel hr' h =>
    crowd_crowded ((jam_cue_iff hr hr' hden).mp ⟨room, fuel, h⟩).nouns⟩

end Serial
end Ursockets
