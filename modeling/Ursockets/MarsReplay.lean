/-
# Failed events leave no trace

The events of the log lead from the kernel that the boot sequence makes to the
state of the process, one state for each number (`On`). Every image that was
ever saved is one of these states, so a replay from any of them goes through
the same states to the same end.

Key definitions: `turn`, `On`, `Core`, `Inv`.
-/
import Ursockets.Lib.Replay
import Ursockets.MarsPlay

namespace Ursockets
namespace Mars

open Replay

/-! ### The states of a log -/

/-- What an event of the log makes of a state: it is computed, and the mug is right. -/
def turn (K : Kernel) (a : Arvo) (f : Feat) : Option Arvo :=
  match K.poke a.roc f.job with
  | .ok (.cell _ cor) =>
    if f.mug = 0 ∨ f.mug = cor.mug.toNat then some ⟨cor, a.eve + 1⟩ else none
  | _ => none

theorem turn_eve {K : Kernel} {a b : Arvo} {f : Feat} (h : turn K a f = some b) : b.eve = a.eve + 1 := by
  unfold turn at h
  split at h
  · split at h
    · rw [← Option.some.inj h]
    · cases h
  · cases h

/-- The state is the one that the log leads to at its number, from the kernel `root`. -/
def On (K : Kernel) (root : Arvo) (L : List Feat) (a : Arvo) : Prop :=
  ∃ n, a.eve = root.eve + n ∧ At (turn K) root (L.drop root.eve) n a

variable {K : Kernel} {root a b : Arvo} {L : List Feat}

theorem On.start : On K root L root := ⟨0, rfl, At.zero⟩

theorem On.take {n : ℕ} (h : On K root L a) (hn : a.eve ≤ n) : On K root (L.take n) a := by
  obtain ⟨k, hk, ha⟩ := h
  refine ⟨k, hk, ?_⟩
  rw [List.drop_take]
  exact ha.take (by omega)

theorem On.append (h : On K root L a) (hr : root.eve ≤ L.length) (X : List Feat) :
    On K root (L ++ X) a := by
  obtain ⟨k, hk, ha⟩ := h
  refine ⟨k, hk, ?_⟩
  rw [List.drop_append_of_le_length hr]
  exact ha.append X

theorem On.unique (ha : On K root L a) (hb : On K root L b) (h : a.eve = b.eve) : a = b := by
  obtain ⟨n, hn, ha⟩ := ha
  obtain ⟨m, hm, hb⟩ := hb
  obtain rfl : n = m := by omega
  exact ha.unique hb

/-- The state after one more event. -/
theorem On.next {f : Feat} (ha : On K root L a) (hf : L[a.eve]? = some f) (hb : turn K a f = some b) :
    On K root L b := by
  obtain ⟨n, hn, ha⟩ := ha
  refine ⟨n + 1, by rw [turn_eve hb, hn, Nat.add_assoc], ha.next ?_ hb⟩
  rw [List.getElem?_drop, ← hn, hf]

/-- The next event of the log is taken. -/
theorem On.step {f : Feat} (ha : On K root L a) (hf : L[a.eve]? = some f) (hb : On K root L b)
    (h : a.eve < b.eve) : ∃ c, turn K a f = some c ∧ On K root L c := by
  obtain ⟨n, hn, ha'⟩ := ha
  obtain ⟨m, hm, hb'⟩ := hb
  have hf' : (L.drop root.eve)[n]? = some f := by rw [List.getElem?_drop, ← hn, hf]
  obtain ⟨c, hc, _⟩ := ha'.step hf' hb' (by omega)
  exact ⟨c, hc, On.next ⟨n, hn, ha'⟩ hf hc⟩

/-- There is a state at every number before one. -/
theorem On.before (hb : On K root L b) {n : ℕ} (hr : root.eve ≤ n) (h : n ≤ b.eve) :
    ∃ a, On K root L a ∧ a.eve = n := by
  obtain ⟨m, hm, hb'⟩ := hb
  induction m generalizing n b with
  | zero =>
    exact ⟨b, ⟨0, hm, hb'⟩, by omega⟩
  | succ m ih =>
    rcases Nat.eq_or_lt_of_le h with rfl | hlt
    · exact ⟨b, ⟨m + 1, hm, hb'⟩, rfl⟩
    obtain ⟨c, hc⟩ := hb'.before (Nat.le_succ m)
    have hlen : m < (L.drop root.eve).length := hb'.le
    obtain ⟨c', hc', hc2⟩ := hc.step (List.getElem?_eq_getElem hlen) hb' (Nat.lt_succ_self m)
    have he : c'.eve = c.eve + 1 := turn_eve hc'
    rw [hc2.unique hb'] at he
    exact ih hr (by omega) (by omega) hc

/-- **It does not matter where the replay starts.** -/
theorem On.follow (ha : On K root L a) (hb : On K root L b) (h : a.eve ≤ b.eve) :
    follow (turn K) a ((L.take b.eve).drop a.eve) = some b := by
  obtain ⟨n, hn, ha⟩ := ha
  obtain ⟨m, hm, hb⟩ := hb
  have h1 := ha.follow hb (by omega)
  rw [List.take_drop, List.drop_drop, ← hm, ← hn] at h1
  exact h1

/-! ### A batch of the replay -/

/-- An event that the log leads through is replayed, unless something interrupts it. -/
theorem pokePlay_turn (mugs : Bool) (why : Option Goof) {tac : Feat} (h : turn K a tac = some b) :
    pokePlay K mugs why a tac = .ok b ∨
      ∃ g, why = some g ∧ pokePlay K mugs why a tac = .error (sortGoof g) := by
  cases why with
  | some g => exact Or.inr ⟨g, rfl, rfl⟩
  | none =>
    left
    unfold turn at h
    unfold pokePlay soft
    split at h
    · rename_i cor hp
      rw [hp]
      simp only
      split at h
      · rename_i hm
        rw [if_neg (fun hc => hm.elim hc.1 hc.2.1), ← Option.some.inj h]
      · cases h
    · cases h

theorem sortGoof_ne (g : Goof) : sortGoof g ≠ .yes ∧ sortGoof g ≠ .log ∧ sortGoof g ≠ .die := by
  unfold sortGoof
  split
  · decide
  split
  · decide
  split <;> decide

/-- The process at a state of the log. -/
def standing (m : Mars) (arv : Arvo) : Mars := { m with sen := arv.eve, dun := arv.eve, arv := arv }

theorem standing_self {m : Mars} (hs : m.sen = m.dun) (he : m.arv.eve = m.dun) :
    standing m m.arv = m := by
  obtain ⟨sen, dun, mug, sat, gif, fag, mas, sac, sav, lif, log, arv, img, io⟩ := m
  simp only at hs he
  simp only [standing, hs, he]

/-- **A batch of the replay goes from one state of the log to a later one**, and stops short of its
end only when it is interrupted. -/
theorem playWalk_spec (hnum : Numbered 0 L) {z : Arvo} (hz : On K root L z) (hzl : z.eve = L.length)
    (mugs : Bool) (why : ℕ → Option Goof) {las : ℕ} (hlas : las ≤ L.length) :
    ∀ (rows : List Feat) (m : Mars), rows = L.drop m.dun → m.sen = m.dun → m.arv.eve = m.dun →
      On K root L m.arv → m.dun ≤ las →
      ∃ e arv, playWalk K mugs why las (m.dun + 1) rows m = (e, standing m arv) ∧ On K root L arv ∧
        m.dun ≤ arv.eve ∧ arv.eve ≤ las ∧ (e = .yes → arv.eve = las) ∧ e ≠ .log ∧ e ≠ .die ∧
        ((∀ n, why n = none) → e = .yes)
  | [], m, hr, hs, he, ho, hd => by
    have hlen : L.length ≤ m.dun := List.drop_eq_nil_iff.mp hr.symm
    refine ⟨.yes, m.arv, ?_, ho, le_of_eq he.symm, by rw [he]; exact hd, fun _ => by omega, by decide,
      by decide, fun _ => rfl⟩
    rw [playWalk, if_pos (by omega), standing_self hs he]
  | f :: fs, m, hr, hs, he, ho, hd => by
    rw [playWalk]
    by_cases hc : las < m.dun + 1
    · refine ⟨.yes, m.arv, ?_, ho, le_of_eq he.symm, by rw [he]; exact hd, fun _ => by omega, by decide,
        by decide, fun _ => rfl⟩
      rw [if_pos hc, standing_self hs he]
    have hf : L[m.arv.eve]? = some f := by
      have h1 : (L.drop m.dun)[0]? = some f := by rw [← hr]; rfl
      rwa [List.getElem?_drop, Nat.add_zero, ← he] at h1
    have hfe : f.eve = m.dun + 1 := by
      have h1 := hnum.eve_get hf
      omega
    obtain ⟨c, hturn, hc'⟩ := ho.step hf hz (by omega)
    have hce : c.eve = m.dun + 1 := by rw [turn_eve hturn, he]
    rw [if_neg hc, if_neg (by simp [hfe]), if_neg (by rw [hs, hfe]; simp)]
    rcases pokePlay_turn mugs (why f.eve) hturn with hp | ⟨g, hg, hp⟩
    · rw [hp]
      have hm1 : ({ m with sen := m.sen + 1, dun := m.sen + 1, arv := c } : Mars) = standing m c := by
        rw [standing, hce, hs]
      have hdrop : fs = L.drop (standing m c).dun := by
        show fs = L.drop c.eve
        rw [hce, ← List.drop_drop, ← hr]
        rfl
      obtain ⟨e, arv, h1, h2, h3, h4, h5⟩ := playWalk_spec hnum hz hzl mugs why hlas fs (standing m c) hdrop rfl rfl
        hc' (by show c.eve ≤ las; omega)
      refine ⟨e, arv, ?_, h2, ?_, h4, h5⟩
      · simp only [hm1]
        rw [show m.dun + 1 = (standing m c).dun from hce.symm]
        exact h1
      · have h6 : c.eve ≤ arv.eve := h3
        omega
    · rw [hp]
      obtain ⟨n1, n2, n3⟩ := sortGoof_ne g
      refine ⟨sortGoof g, m.arv, ?_, ho, le_of_eq he.symm, by rw [he]; exact hd, fun h => absurd h n1, n2, n3,
        fun h => by rw [h] at hg; cases hg⟩
      rw [standing_self hs he]
      exact Prod.ext rfl (restore_sen hs)

/-! ### The invariant -/

/-- The image is of a state of the log since the epoch, or, in the first epoch, there is none. -/
def Snap (K : Kernel) (root : Arvo) (L : List Feat) (epo c : ℕ) (a : Arvo) : Prop :=
  (a = blank ∧ epo = 0) ∨ (On K root L a ∧ epo ≤ a.eve ∧ a.eve ≤ c)

/-- What a ship has on disk, of the events `L`: the tables hold the first `n`, and every image that
was saved is of a state among the first `c`. -/
structure Core (K : Kernel) (bot : List Noun) (root : Arvo) (imgs : List Arvo) (L : List Feat)
    (n c : ℕ) (p : Pier) : Prop where
  numbered : Numbered 0 L
  whole : ∃ z, On K root L z ∧ z.eve = L.length
  n_le : n ≤ L.length
  c_le : c ≤ n
  pos : 0 < c
  root_le : root.eve ≤ c
  epo_le : p.epo ≤ c
  old_eq : p.old = L.take p.epo
  mdb_eq : p.mdb = (L.take n).drop p.epo
  lif_eq : p.lif = root.eve
  bot_eq : (L.take root.eve).map Feat.job = bot
  life : K.life bot = .ok root.roc
  img : Snap K root L p.epo c p.img
  bak : p.epo ≠ 0 → On K root L p.bak ∧ p.bak.eve = p.epo
  imgs : ∀ a ∈ imgs, a = blank ∨ On K root L a ∧ a.eve ≤ c

variable {bot : List Noun} {imgs : List Arvo} {n c : ℕ} {p : Pier}

theorem Core.root_le_length (h : Core K bot root imgs L n c p) : root.eve ≤ L.length :=
  le_trans h.root_le (le_trans h.c_le h.n_le)

theorem Snap.mono {X : List Feat} {epo c' : ℕ} (h : Snap K root L epo c a) (hr : root.eve ≤ L.length)
    (hc : c ≤ c') : Snap K root (L ++ X) epo c' a :=
  h.imp id fun ⟨h1, h2, h3⟩ => ⟨h1.append hr X, h2, le_trans h3 hc⟩

/-- The ship after events were logged and perhaps an image saved. -/
theorem Core.move (h : Core K bot root imgs L n c p) (X : List Feat) (n' c' : ℕ) (p' : Pier)
    (hnum : Numbered 0 (L ++ X)) (hw : ∃ z, On K root (L ++ X) z ∧ z.eve = (L ++ X).length)
    (hn : n' ≤ (L ++ X).length) (hc : c ≤ c') (hcn : c' ≤ n') (hepo : p'.epo = p.epo)
    (hold : p'.old = p.old) (hmdb : p'.mdb = ((L ++ X).take n').drop p.epo) (hlif : p'.lif = p.lif)
    (himg : p'.img = p.img ∨ Snap K root (L ++ X) p.epo c' p'.img) (hbak : p'.bak = p.bak) :
    Core K bot root (p'.img :: imgs) (L ++ X) n' c' p' := by
  have hr := h.root_le_length
  have hL : p.epo ≤ L.length := le_trans h.epo_le (le_trans h.c_le h.n_le)
  have hsnap : Snap K root (L ++ X) p.epo c' p'.img := himg.elim (fun h1 => h1 ▸ h.img.mono hr hc) id
  refine ⟨hnum, hw, hn, hcn, Nat.lt_of_lt_of_le h.pos hc, le_trans h.root_le hc, ?_, ?_, ?_, ?_, ?_, h.life, ?_,
    ?_, fun a ha => ?_⟩
  · rw [hepo]; exact le_trans h.epo_le hc
  · rw [hold, hepo, List.take_append_of_le_length hL]; exact h.old_eq
  · rw [hmdb, hepo]
  · rw [hlif]; exact h.lif_eq
  · rw [List.take_append_of_le_length hr]; exact h.bot_eq
  · rw [hepo]; exact hsnap
  · rw [hepo, hbak]
    exact fun h0 => ⟨(h.bak h0).1.append hr X, (h.bak h0).2⟩
  · rcases List.mem_cons.mp ha with rfl | ha
    · exact hsnap.imp And.left fun h1 => ⟨h1.1, h1.2.2⟩
    · exact (h.imgs a ha).imp id fun h1 => ⟨h1.1.append hr X, le_trans h1.2 hc⟩

/-- **What is not in the log is lost with the process**, and nothing else. -/
theorem Core.crash (h : Core K bot root imgs L n c p) : Core K bot root imgs (L.take n) n n p := by
  have hr := h.root_le_length
  have hlen : (L.take n).length = n := by rw [List.length_take, min_eq_left h.n_le]
  obtain ⟨z, hz, hzl⟩ := h.whole
  obtain ⟨y, hy, hyn⟩ := hz.before (le_trans h.root_le h.c_le) (by rw [hzl]; exact h.n_le)
  have hepo := le_trans h.epo_le h.c_le
  refine ⟨h.numbered.take n, ⟨y, hy.take (le_of_eq hyn), by rw [hyn, hlen]⟩, le_of_eq hlen.symm, le_refl n,
    Nat.lt_of_lt_of_le h.pos h.c_le, le_trans h.root_le h.c_le, hepo, ?_, ?_, h.lif_eq, ?_, h.life, ?_,
      fun h0 => ?_, fun a ha => ?_⟩
  · rw [List.take_take, min_eq_left hepo]; exact h.old_eq
  · rw [List.take_take, min_self]; exact h.mdb_eq
  · rw [List.take_take, min_eq_left (le_trans h.root_le h.c_le)]; exact h.bot_eq
  · exact h.img.imp id fun ⟨h1, h2, h3⟩ => ⟨h1.take (le_trans h3 h.c_le), h2, le_trans h3 h.c_le⟩
  · obtain ⟨h1, h2⟩ := h.bak h0
    exact ⟨h1.take (by rw [h2]; exact hepo), h2⟩
  · exact (h.imgs a ha).imp id fun ⟨h1, h2⟩ => ⟨h1.take (le_trans h2 h.c_le), le_trans h2 h.c_le⟩

/-- Another image on the disk. -/
theorem Core.setImg (h : Core K bot root imgs L n c p) {img : Arvo} (hs : Snap K root L p.epo c img) :
    Core K bot root (img :: imgs) L n c { p with img := img } := by
  refine ⟨h.numbered, h.whole, h.n_le, h.c_le, h.pos, h.root_le, h.epo_le, h.old_eq, h.mdb_eq, h.lif_eq,
    h.bot_eq, h.life, hs, h.bak, fun a ha => ?_⟩
  rcases List.mem_cons.mp ha with rfl | ha
  · exact hs.imp And.left fun h1 => ⟨h1.1, h1.2.2⟩
  · exact h.imgs a ha

/-- An epoch that begins at the last event. -/
theorem Core.roll (h : Core K bot root imgs L L.length L.length p) {img : Arvo} (hi : On K root L img)
    (hl : img.eve = L.length) :
    Core K bot root (img :: imgs) L L.length L.length ⟨[], L, L.length, p.lif, img, img⟩ := by
  refine ⟨h.numbered, h.whole, le_refl _, le_refl _, h.pos, h.root_le, le_refl _, ?_, ?_, h.lif_eq, h.bot_eq,
    h.life, Or.inr ⟨hi, le_of_eq hl.symm, le_of_eq hl⟩, fun _ => ⟨hi, hl⟩, fun a ha => ?_⟩
  · exact (List.take_length).symm
  · rw [List.take_length, List.drop_length]
  · rcases List.mem_cons.mp ha with rfl | ha
    · exact Or.inr ⟨hi, le_of_eq hl⟩
    · exact h.imgs a ha

theorem Core.subset {imgs' : List Arvo} (h : Core K bot root imgs L n c p)
    (hs : ∀ a ∈ imgs', a ∈ imgs) : Core K bot root imgs' L n c p :=
  ⟨h.numbered, h.whole, h.n_le, h.c_le, h.pos, h.root_le, h.epo_le, h.old_eq, h.mdb_eq, h.lif_eq, h.bot_eq,
    h.life, h.img, h.bak, fun a ha => h.imgs a (hs a ha)⟩

/-- The image that is on disk has been recorded. -/
theorem Core.again (h : Core K bot root imgs L n c p) : Core K bot root (p.img :: imgs) L n c p :=
  h.setImg h.img

/-- A process that does not work yet: the log is as it was opened, and the kernel state is behind. -/
structure Idle (K : Kernel) (bot : List Noun) (root : Arvo) (imgs : List Arvo) (m : Mars)
    (bak : Arvo) : Prop where
  core : Core K bot root imgs m.log.all m.log.all.length m.log.all.length (pier m bak)
  log : m.log.Quiet
  sen : m.sen = m.dun
  eve : m.arv.eve = m.dun
  epo_le : m.log.epo ≤ m.dun
  dun_le : m.dun ≤ m.log.dun
  gif : m.gif = []
  io : m.io = []

/-- What holds of a ship. -/
def World.Inv (K : Kernel) (bot : List Noun) (root : Arvo) (imgs : List Arvo) : World → Prop
  | .down p => ∃ L, Core K bot root imgs L L.length L.length p
  | .play m bak q => Idle K bot root imgs m bak ∧ On K root m.log.all m.arv ∧ q.tgt ≤ m.log.dun
  | .work m bak => Core K bot root imgs m.log.all m.log.durable m.log.dun (pier m bak) ∧ Ok m ∧
      Waiting m ∧ On K root m.log.all m.arv

variable {m : Mars} {bak : Arvo}

theorem Idle.len (h : Idle K bot root imgs m bak) : m.log.dun = m.log.all.length := by
  rw [h.log.dun, h.log.ok.sen_eq]

/-- The state of an idle process may be saved. -/
theorem Idle.snap (h : Idle K bot root imgs m bak) (ho : On K root m.log.all m.arv) :
    Snap K root m.log.all m.log.epo m.log.all.length m.arv :=
  Or.inr ⟨ho, by rw [h.eve]; exact h.epo_le, by rw [h.eve, ← h.len]; exact h.dun_le⟩

theorem Idle.save (h : Idle K bot root imgs m bak) (ho : On K root m.log.all m.arv) :
    Idle K bot root (m.arv :: imgs) { m with img := m.arv } bak :=
  ⟨h.core.setImg (h.snap ho), h.log, h.sen, h.eve, h.epo_le, h.dun_le, h.gif, h.io⟩

theorem Idle.again (h : Idle K bot root imgs m bak) : Idle K bot root (m.img :: imgs) m bak :=
  ⟨h.core.again, h.log, h.sen, h.eve, h.epo_le, h.dun_le, h.gif, h.io⟩

theorem Idle.standing (h : Idle K bot root imgs m bak) (hd : m.dun ≤ a.eve) (hl : a.eve ≤ m.log.dun) :
    Idle K bot root imgs (Mars.standing m a) bak :=
  ⟨h.core, h.log, rfl, rfl, le_trans h.epo_le hd, hl, h.gif, h.io⟩

/-- **A session starts with every event of the log in the kernel state.** -/
theorem Idle.started (h : Idle K bot root imgs m bak) (hd : m.dun = m.log.dun) :
    Started { m with sav := m.dun } := by
  refine ⟨⟨⟨h.sen, hd.trans h.log.dun, h.eve, ?_⟩, h.log.ok⟩, h.log.dun, h.log.torn, h.gif, h.io⟩
  intro g hg
  have hn : m.gif = [] := h.gif
  rw [show ({ m with sav := m.dun } : Mars).gif = m.gif from rfl, hn] at hg
  cases hg

theorem inv_enter (h : Idle K bot root imgs m bak) (ho : On K root m.log.all m.arv) (o : Opts) :
    (enter m bak o).Inv K bot root imgs ∧ (enter m bak o).img = m.img := by
  unfold enter
  split
  · rename_i hc
    have hd : m.dun = m.log.dun := le_antisymm h.dun_le (not_lt.mp hc.2)
    have hst := h.started hd
    refine ⟨⟨?_, hst.ok, fun g hg => ?_, ho⟩, rfl⟩
    · show Core K bot root imgs m.log.all m.log.durable m.log.dun (pier m bak)
      rw [h.log.durable_eq, h.len]
      exact h.core
    · rw [hst.gif] at hg
      cases hg
  · exact ⟨⟨_, h.core⟩, rfl⟩

/-! ### Loading and booting -/

theorem gulf_last {p : Pier} (h : Core K bot root imgs L L.length L.length p) :
    (openLog p).dun = L.length ∧ (p.epo < L.length → (gulf p.mdb).2 = L.length) := by
  have hmdb : p.mdb = L.drop p.epo := by rw [h.mdb_eq, List.take_length]
  rcases Nat.lt_or_ge p.epo L.length with hlt | hge
  · have hlast : (gulf p.mdb).2 = L.length := by
      have hget : p.mdb.getLast? = L[L.length - 1]? := by
        rw [hmdb, List.getLast?_drop, if_neg (by omega), List.getLast?_eq_getElem?]
      have hsome : L[L.length - 1]? = some L[L.length - 1] := List.getElem?_eq_getElem (by omega)
      rw [gulf, hget, hsome]
      show L[L.length - 1].eve = L.length
      rw [h.numbered.eve_get hsome]
      omega
    refine ⟨?_, fun _ => hlast⟩
    have hne : L.length ≠ 0 := by omega
    simp only [openLog, hlast, ne_eq, hne, not_false_eq_true, if_true]
  · have hnil : p.mdb = [] := by rw [hmdb]; exact List.drop_eq_nil_iff.mpr hge
    have hle := h.epo_le
    refine ⟨?_, fun hlt => absurd hlt (by omega)⟩
    simp only [openLog, gulf, hnil, List.getLast?_nil, Option.map_none, Option.getD_none, ne_eq,
      not_true_eq_false, if_false]
    omega

theorem openLog_all {p : Pier} (h : Core K bot root imgs L L.length L.length p) :
    (openLog p).all = L := by
  show p.old ++ p.mdb = L
  rw [h.old_eq, h.mdb_eq, List.take_length, List.take_append_drop]

theorem openLog_quiet {p : Pier} (h : Core K bot root imgs L L.length L.length p) :
    (openLog p).Quiet := by
  have hall := openLog_all h
  have hdun := (gulf_last h).1
  refine ⟨⟨?_, ?_, le_refl _, ?_, ?_, ?_, nofun, fun _ => ?_, nofun, fun _ => rfl⟩, rfl, rfl, rfl⟩
  · rw [hall]; exact h.numbered
  · rw [hall]; exact hdun
  · rw [hdun]; exact h.epo_le
  · rw [hall]; exact h.old_eq
  · have hd : (openLog p).durable = L.length := by rw [← hdun]; simp [Disk.durable, openLog]
    rw [hall, hd]
    exact h.mdb_eq
  · rw [hall, hdun, List.drop_length]
    rfl

/-- The image a start uses is one of the ship's. -/
theorem snap_startImg (h : Core K bot root imgs L n c p) (full : Bool) :
    Snap K root L p.epo c (startImg p full) := by
  unfold startImg
  split
  · split
    · rename_i h0
      exact Or.inl ⟨rfl, h0⟩
    · rename_i h0
      obtain ⟨h1, h2⟩ := h.bak h0
      exact Or.inr ⟨h1, le_of_eq h2.symm, by rw [h2]; exact h.epo_le⟩
  · exact h.img

/-- What `u3_mars_load` sets up. -/
theorem idle_load {p : Pier} {o : Opts} (h : Core K bot root imgs L L.length L.length p)
    (hl : load p o = some (m, bak)) :
    Idle K bot root (m.img :: imgs) m bak ∧ m.arv = m.img ∧ m.log.all = L ∧
      (m.arv = blank ∧ m.log.epo = 0 ∨ On K root L m.arv) := by
  have hs := snap_startImg h o.full
  have hdun := (gulf_last h).1
  have hq := openLog_quiet h
  have hall := openLog_all h
  have hcore := h.setImg hs
  unfold load at hl
  simp only at hl
  split at hl
  · cases hl
  rename_i hc
  rw [not_or, not_lt, not_lt] at hc
  split at hl
  · obtain ⟨rfl, rfl⟩ := Prod.mk.inj (Option.some.inj hl)
    refine ⟨⟨?_, hq, rfl, rfl, hc.2, hc.1, rfl, rfl⟩, rfl, hall, hs.imp id And.left⟩
    show Core K bot root (startImg p o.full :: imgs) (openLog p).all (openLog p).all.length
      (openLog p).all.length _
    rw [hall]
    exact hcore
  split at hl
  · cases hl
  rename_i hd
  rw [not_or, not_not] at hd
  obtain ⟨rfl, rfl⟩ := Prod.mk.inj (Option.some.inj hl)
  have himg : (startImg p o.full).eve = L.length := by rw [← hd.1, hdun]
  have hon : On K root L (startImg p o.full) := by
    rcases hs with ⟨hb, _⟩ | ⟨h1, _⟩
    · rw [hb] at himg
      exact absurd (show (0 : ℕ) = L.length from himg) (by have := h.pos; omega)
    · exact h1
  have hroll := h.roll hon himg
  have hold : (openLog p).old ++ (openLog p).mdb = L := hall
  have hpier : pier (loaded (epocRoll (openLog p) (openLog p).dun) p.lif (startImg p o.full))
      (startImg p o.full) = ⟨[], L, L.length, p.lif, startImg p o.full, startImg p o.full⟩ := by
    rw [pier, loaded, epocRoll, hold, hdun]
  have hq' : (epocRoll (openLog p) (openLog p).dun).Quiet := by
    refine ⟨⟨hq.ok.numbered, hq.ok.sen_eq, hq.ok.dun_le, le_refl _, ?_, ?_, nofun, hq.ok.put_eq,
      hq.ok.put_torn, hq.ok.skew_eq⟩, hq.dun, hq.torn, hq.ted⟩
    · show (openLog p).old ++ (openLog p).mdb = (openLog p).all.take (openLog p).dun
      rw [hold, hall, hdun, List.take_length]
    · have hd' : (epocRoll (openLog p) (openLog p).dun).durable = L.length := by
        rw [← hdun]; simp [Disk.durable, epocRoll, openLog]
      rw [hd']
      show [] = ((openLog p).all.take L.length).drop (openLog p).dun
      rw [hall, hdun, List.take_length, List.drop_length]
  refine ⟨⟨?_, hq', rfl, rfl, le_of_eq hd.1, hc.1, rfl, rfl⟩, rfl, hall, Or.inr hon⟩
  rw [hpier]
  show Core K bot root (startImg p o.full :: imgs) (openLog p).all (openLog p).all.length
    (openLog p).all.length _
  rw [hall]
  exact hroll

theorem readWalk_spec {n : ℕ} : ∀ {k : ℕ} {l : List Feat}, Numbered n l →
    readWalk (n + 1) k l = some (l.take k)
  | 0, _, _ => rfl
  | k + 1, [], _ => rfl
  | k + 1, f :: l, ⟨h1, h2⟩ => by
    rw [readWalk, if_pos h1, readWalk_spec h2]
    rfl

/-- The cursor finds an event of the table. -/
theorem cursor_spec {n eve : ℕ} {l : List Feat} (h : Numbered n l) (h1 : n < eve)
    (h2 : eve ≤ n + l.length) : cursor l eve = some (l.drop (eve - n - 1)) := by
  have hd : l.dropWhile (·.eve < eve) = l.drop (eve - n - 1) := by
    have hw := h.dropWhile (m := eve - 1) (by omega)
    rw [show eve - 1 - n = eve - n - 1 by omega] at hw
    rw [← hw]
    congr 1
    funext f
    exact decide_eq_decide.mpr (by omega)
  have hlt : eve - n - 1 < l.length := by omega
  have hf := h.eve_get (List.getElem?_eq_getElem hlt)
  rw [cursor, hd, List.drop_eq_getElem_cons hlt]
  simp only
  rw [if_pos (by rw [hf]; omega)]

/-- **The kernel is made of the boot sequence.** -/
theorem doBoot_spec (h : Core K bot root imgs L L.length L.length p) (he : p.epo = 0)
    (why : Option Goof) : doBoot K p.mdb p.lif why = some root ∨
      ∃ g, why = some g ∧ doBoot K p.mdb p.lif why = none := by
  have hpos := h.pos
  have hmdb : p.mdb = L := by rw [h.mdb_eq, he, List.take_length, List.drop_zero]
  have hread : readList p.mdb 1 p.lif = some bot := by
    rw [readList, hmdb, cursor_spec h.numbered Nat.zero_lt_one (by omega)]
    simp only [Nat.sub_zero, Nat.sub_self, List.drop_zero, Option.bind_some]
    rw [readWalk_spec h.numbered, Option.map_some, h.lif_eq, h.bot_eq]
  have hlen : bot.length = root.eve := by
    rw [← h.bot_eq, List.length_map, List.length_take, min_eq_left h.root_le]
  rw [doBoot, hread]
  cases why with
  | some g => exact Or.inr ⟨g, rfl, rfl⟩
  | none =>
    left
    simp only [soft, Option.bind_some, h.life, hlen]

/-- **The start of a replay.** -/
theorem inv_playStart (h : Idle K bot root (m.img :: imgs) m bak)
    (hs : m.arv = blank ∧ m.log.epo = 0 ∨ On K root m.log.all m.arv) (o : Opts) :
    (playStart K m bak o).Inv K bot root ((playStart K m bak o).img :: imgs) := by
  have hpos := h.core.pos
  have hlen := h.len
  have hon : m.dun ≠ 0 → On K root m.log.all m.arv := fun h0 => by
    rcases hs with ⟨hb, _⟩ | ho
    · refine absurd ?_ h0
      rw [← h.eve, hb]
      rfl
    · exact ho
  have henter : m.dun ≠ 0 → (enter m bak o).Inv K bot root ((enter m bak o).img :: imgs) := fun h0 => by
    obtain ⟨h1, h2⟩ := inv_enter h (hon h0) o
    rw [h2]
    exact h1
  unfold playStart
  split
  · rename_i hc
    exact henter (by omega)
  simp only
  split
  · rename_i hc
    exact henter (by omega)
  have htgt : (if o.eve = 0 then m.log.dun else min o.eve m.log.dun) ≤ m.log.dun := by
    split
    · exact le_refl _
    · exact min_le_right _ _
  split
  · rename_i h0
    have hepo : (pier m bak).epo = 0 := Nat.le_zero.mp (le_trans h.epo_le (le_of_eq h0))
    rcases doBoot_spec h.core hepo o.why with hb | ⟨g, _, hb⟩
    · rw [show doBoot K m.log.mdb m.lif o.why = some root from hb]
      have hlif : m.lif = root.eve := h.core.lif_eq
      have hon' : On K root m.log.all root := On.start
      refine ⟨⟨?_, h.log, rfl, hlif.symm, ?_, ?_, h.gif, h.io⟩, hon', htgt⟩
      · have hr : root.eve ≤ m.log.all.length := h.core.root_le
        have hcore := h.core.subset fun a ha => List.mem_cons_of_mem _ ha
        exact hcore.setImg (Or.inr ⟨hon', by rw [hepo]; exact Nat.zero_le _, hr⟩)
      · rw [show m.log.epo = 0 from hepo]; exact Nat.zero_le _
      · show m.lif ≤ m.log.dun
        rw [hlif, hlen]
        exact h.core.root_le
    · rw [show doBoot K m.log.mdb m.lif o.why = none from hb]
      exact ⟨_, h.core⟩
  · rename_i h0
    exact ⟨h, hon h0, htgt⟩

/-! ### The loop of the replay -/

/-- The end of a replay. -/
theorem inv_playDone (h : Idle K bot root imgs m bak) (ho : On K root m.log.all m.arv) (o : Opts) :
    (playDone m bak o).Inv K bot root ((playDone m bak o).img :: imgs) ∧
      (playDone m bak o).img = m.arv := by
  have hs := h.save ho
  unfold playDone
  simp only
  split
  swap
  · obtain ⟨h1, h2⟩ := inv_enter hs ho o
    rw [h2]
    exact ⟨h1, rfl⟩
  rename_i hc
  split
  · exact ⟨⟨_, hs.core⟩, rfl⟩
  have hl : m.arv.eve = m.log.all.length := by rw [h.eve, hc.1, h.len]
  have hroll := h.core.roll ho hl
  have hold : m.log.old ++ m.log.mdb = m.log.all := by
    have h1 := h.core.old_eq
    have h2 := h.core.mdb_eq
    rw [show m.log.old = _ from h1, show m.log.mdb = _ from h2, List.take_length, List.take_append_drop]
  have hdun : m.dun = m.log.all.length := by rw [← h.eve, hl]
  have hidle : Idle K bot root (m.arv :: imgs) { m with img := m.arv, log := epocRoll m.log m.dun } m.arv := by
    refine ⟨?_, ⟨⟨h.log.ok.numbered, h.log.ok.sen_eq, h.log.ok.dun_le, ?_, ?_, ?_, ?_, h.log.ok.put_eq,
      h.log.ok.put_torn, h.log.ok.skew_eq⟩, h.log.dun, h.log.torn, h.log.ted⟩, h.sen, h.eve, le_refl _,
      h.dun_le, h.gif, h.io⟩
    · show Core K bot root (m.arv :: imgs) m.log.all m.log.all.length m.log.all.length
        ⟨[], m.log.old ++ m.log.mdb, m.dun, m.lif, m.arv, m.arv⟩
      rw [hold, hdun]
      exact hroll
    · exact le_of_eq hc.1
    · show m.log.old ++ m.log.mdb = m.log.all.take m.dun
      rw [hold, hdun, List.take_length]
    · show [] = (m.log.all.take (epocRoll m.log m.dun).durable).drop m.dun
      rw [hdun, List.drop_eq_nil_of_le]
      rw [List.length_take]
      exact min_le_right _ _
    · intro ht
      exact absurd (h.log.ted.symm.trans ht) (by decide)
  obtain ⟨h1, h2⟩ := inv_enter hidle ho o
  rw [h2]
  exact ⟨h1, rfl⟩

/-- The walk of a batch starts at the event after the state. -/
theorem cursor_next (h : Idle K bot root imgs m bak) (hlt : m.dun < m.log.dun) :
    cursor m.log.mdb (m.dun + 1) = some (m.log.all.drop m.dun) := by
  have hlen := h.len
  have hle := h.epo_le
  have hmdb : m.log.mdb = m.log.all.drop m.log.epo := by
    have h2 := h.core.mdb_eq
    rw [show m.log.mdb = _ from h2, List.take_length]
    rfl
  have hnum := h.core.numbered.drop m.log.epo (by omega)
  rw [Nat.zero_add] at hnum
  rw [hmdb, cursor_spec hnum (by omega) (by rw [List.length_drop]; omega), List.drop_drop]
  congr 2
  omega

/-- **A turn of the replay**, however it ends. -/
theorem inv_playBatch {q : Play} (h : Idle K bot root imgs m bak) (ho : On K root m.log.all m.arv)
    (ht : q.tgt ≤ m.log.dun) (why : ℕ → Option Goof) :
    (playBatch K m bak q why).Inv K bot root ((playBatch K m bak q why).img :: imgs) := by
  unfold playBatch
  split
  swap
  · exact (inv_playDone h ho q.opt).1
  rename_i hlt
  have hlen := h.len
  have hcur := cursor_next h (by omega)
  obtain ⟨z, hz, hzl⟩ := h.core.whole
  have hlas : min (m.dun + 1024) m.log.dun ≤ m.log.all.length := le_trans (min_le_right _ _) (le_of_eq hlen)
  have hdun := h.dun_le
  obtain ⟨e, arv, hw, ha, hge, hle, _, hlog, hdie, _⟩ :=
    playWalk_spec h.core.numbered hz hzl q.opt.mugs why hlas _ m rfl h.sen h.eve ho
      (by omega)
  have hst : Idle K bot root imgs (standing m arv) bak :=
    h.standing hge (le_trans hle (min_le_right _ _))
  have hsv := hst.save ha
  rw [hcur]
  simp only
  rw [hw]
  cases e with
  | yes =>
    simp only
    split
    · exact ⟨hsv, ha, ht⟩
    · exact ⟨hst.again, ha, ht⟩
  | mem =>
    simp only
    split
    · exact ⟨hst.again, ha, ht⟩
    split
    · exact ⟨_, hsv.core⟩
    · exact ⟨hst.again, ha, ht⟩
  | log => exact absurd rfl hlog
  | die => exact absurd rfl hdie
  | int => exact ⟨_, hsv.core⟩
  | mug => exact ⟨_, hsv.core⟩
  | bad => exact ⟨_, hsv.core⟩

/-! ### Working -/

/-- The state after a step that accepts at most one event is the next of the log. -/
theorem on_extends {m1 : Mars} (hm : Ok m) (hr : root.eve ≤ m.log.all.length)
    (ho : On K root m.log.all m.arv)
    (h : (m1.arv = m.arv ∧ m1.log.all = m.log.all) ∨ Extends K m m1) :
    ∃ X, m1.log.all = m.log.all ++ X ∧ On K root (m.log.all ++ X) m1.arv ∧
      m1.arv.eve = (m.log.all ++ X).length := by
  have he : m.arv.eve = m.log.all.length := by rw [hm.eve, hm.dun, hm.log.sen_eq]
  rcases h with ⟨h1, h2⟩ | ⟨job, ⟨vir, hp⟩, h2, h3⟩
  · refine ⟨[], by rw [h2, List.append_nil], ?_, ?_⟩
    · rw [List.append_nil, h1]; exact ho
    · rw [List.append_nil, h1]; exact he
  · refine ⟨_, h3, ?_, by rw [List.length_append, List.length_singleton, h2, he]⟩
    refine (ho.append hr _).next (f := ⟨m1.arv.eve, m1.arv.roc.mug.toNat, job⟩) ?_ ?_
    · rw [he, List.getElem?_append_right (le_refl _), Nat.sub_self]
      rfl
    · simp only [turn, hp, or_true, if_true, ← h2]

theorem inv_input (h : (World.work m bak).Inv K bot root imgs) (i : Input) :
    ((World.work m bak).step K (.input i)).Inv K bot root
      (((World.work m bak).step K (.input i)).img :: imgs) := by
  obtain ⟨hcore, hm, hw, ho⟩ := h
  have hr := hcore.root_le_length
  rcases step_cases K hm hw i with ⟨m', hs, hst, _⟩ | ⟨f, m', hs, ⟨m1, hm1, hen⟩, _⟩
  · obtain ⟨X, hX, ho', hl'⟩ := on_extends hm hr ho hst.arv
    have hlog := hst.ok.log
    have hsnap : m'.img = m.img ∨ Snap K root (m.log.all ++ X) m.log.epo m'.log.dun m'.img := by
      refine hst.img.imp id fun ⟨h1, h2⟩ => Or.inr ?_
      have he : m'.arv.eve = m'.log.dun := by rw [h1, hst.ok.eve, hst.ok.dun]
      rw [h2, he]
      exact ⟨ho', le_trans hcore.epo_le hst.dun, le_refl _⟩
    have hcore' := hcore.move X m'.log.durable m'.log.dun (pier m' bak)
      (by rw [← hX]; exact hlog.numbered) ⟨_, ho', hl'⟩
      (by rw [← hX, ← hlog.sen_eq]; exact hlog.durable_le) hst.dun Disk.Ok.dun_le_durable hst.epo
      hst.old (by
        show m'.log.mdb = ((m.log.all ++ X).take m'.log.durable).drop m.log.epo
        rw [← hX, ← hst.epo]
        exact hlog.mdb_eq) hst.lif hsnap rfl
    rw [World.step, hs]
    refine ⟨?_, hst.ok, hst.waiting, by rw [hX]; exact ho'⟩
    rw [hX]
    exact hcore'
  · obtain ⟨X, hX, ho', hl'⟩ := on_extends hm hr ho hm1.arv
    obtain ⟨n, hn, hdn⟩ := hen.log
    have hall : m'.log.all = m.log.all ++ X := hen.all.trans hX
    have hle : m.log.dun ≤ m'.log.dun := by rw [← hm1.dun]; exact hen.dun
    have hepo : m'.log.epo = m.log.epo := hen.epo.trans hm1.epo
    have hsnap : m'.img = m.img ∨ Snap K root (m.log.all ++ X) m.log.epo m'.log.dun m'.img := by
      refine hen.img.imp (fun h1 => h1.trans hm1.img) fun ⟨h1, h2⟩ => Or.inr ?_
      have he : m1.arv.eve = m'.log.dun := by rw [h1, hen.sen, hm1.ok.eve, hm1.ok.dun]
      rw [h2, he]
      exact ⟨ho', le_trans hcore.epo_le hle, le_refl _⟩
    have hcore' := hcore.move X n m'.log.dun (pier m' bak)
      (by rw [← hall]; exact hn.numbered) ⟨_, ho', hl'⟩ (by rw [← hall]; exact hn.le) hle hdn hepo
      (hen.old.trans hm1.old) (by
        show m'.log.mdb = ((m.log.all ++ X).take n).drop m.log.epo
        rw [← hall, ← hepo]
        exact hn.mdb_eq) (hen.lif.trans hm1.lif) hsnap rfl
    have hlen : ((m.log.all ++ X).take n).length = n := by
      rw [List.length_take, min_eq_left hcore'.n_le]
    rw [World.step, hs]
    refine ⟨(m.log.all ++ X).take n, ?_⟩
    rw [hlen]
    exact hcore'.crash

theorem inv_again {w : World} (h : w.Inv K bot root imgs) : w.Inv K bot root (w.img :: imgs) := by
  cases w with
  | down p => exact h.imp fun L hL => hL.again
  | play m bak q => exact ⟨h.1.again, h.2⟩
  | work m bak => exact ⟨h.1.again, h.2⟩

/-- A process that is killed leaves what is in the tables. -/
theorem inv_kill (h : Core K bot root imgs L n c p) : (World.down p).Inv K bot root (p.img :: imgs) := by
  have hlen : (L.take n).length = n := by rw [List.length_take, min_eq_left h.n_le]
  refine ⟨L.take n, ?_⟩
  rw [hlen]
  exact h.crash.again

theorem inv_start {o : Opts} (h : (World.down p).Inv K bot root imgs) :
    ((World.down p).step K (.start o)).Inv K bot root (((World.down p).step K (.start o)).img :: imgs) := by
  obtain ⟨L, hL⟩ := h
  rw [World.step]
  cases hl : load p o with
  | none => exact ⟨L, hL.setImg (snap_startImg hL o.full)⟩
  | some r =>
    obtain ⟨m, bak⟩ := r
    obtain ⟨h1, _, h3, h4⟩ := idle_load hL hl
    rw [← h3] at h4
    exact inv_playStart h1 h4 o

/-- **Whatever happens to a ship keeps the invariant.** -/
theorem inv_step {w : World} (h : w.Inv K bot root imgs) (ask : Ask) :
    (w.step K ask).Inv K bot root ((w.step K ask).img :: imgs) := by
  cases w with
  | down p =>
    cases ask with
    | start o => exact inv_start h
    | batch | input | kill => exact inv_again h
  | play m bak q =>
    cases ask with
    | batch why => exact inv_playBatch h.1 h.2.1 h.2.2 why
    | kill => exact inv_kill h.1.core
    | start | input => exact inv_again h
  | work m bak =>
    cases ask with
    | input i => exact inv_input h i
    | kill => exact inv_kill h.1
    | start | batch => exact inv_again h

/-! ### Booting -/

/-- The kernel that a boot sequence makes takes the events after it one at a time: what the lifecycle
function computes of a longer sequence is what the kernel of the shorter makes of the last event. -/
def Lifecycle (K : Kernel) (bot : List Noun) : Prop :=
  ∀ l e cor', K.life (bot ++ (l ++ [e])) = .ok cor' →
    ∃ cor vir, K.life (bot ++ l) = .ok cor ∧ K.poke cor e = .ok (.cell vir cor')

/-- The boot sequence is within the one batch that a boot commits. -/
def Fits (bot rest : List Noun) : Prop := bot.length ≤ min ((bot ++ rest).length % 2 ^ 32) 100

theorem follow_life (hL : Lifecycle K bot) (l : List Feat) : ∀ cor, (∀ f ∈ l, f.mug = 0) →
    K.life (bot ++ l.map Feat.job) = .ok cor →
    ∃ cor0, K.life bot = .ok cor0 ∧
      follow (turn K) ⟨cor0, bot.length⟩ l = some ⟨cor, bot.length + l.length⟩ := by
  induction l using List.reverseRecOn with
  | nil =>
    intro cor _ h
    rw [List.map_nil, List.append_nil] at h
    exact ⟨cor, h, rfl⟩
  | append_singleton l f ih =>
    intro cor hm h
    rw [List.map_append] at h
    obtain ⟨cor1, vir, h1, h2⟩ := hL _ _ _ h
    obtain ⟨cor0, h3, h4⟩ := ih cor1 (fun g hg => hm g (List.mem_append_left _ hg)) h1
    refine ⟨cor0, h3, ?_⟩
    have hf : f.mug = 0 := hm f (by simp)
    rw [follow_append, h4]
    show (turn K ⟨cor1, bot.length + l.length⟩ f).bind some = _
    rw [Option.bind_fun_some, turn, h2]
    simp only [hf, true_or, if_true, List.length_append, List.length_singleton, Nat.add_assoc]

/-- **A ship that was booted** from a boot sequence that fits. -/
theorem inv_boot {rest : List Noun} (hL : Lifecycle K bot) (hf : Fits bot rest)
    (h : boot K bot rest = some p) : ∃ root, (World.down p).Inv K bot root [p.img] := by
  unfold boot at h
  obtain ⟨⟨d, b⟩, hs, h1⟩ := Option.bind_eq_some_iff.mp h
  cases b with
  | false => simp at h1
  | true =>
  simp only [if_true] at h1
  obtain ⟨arv, hb, rfl⟩ := Option.map_eq_some_iff.mp h1
  have hp := Disk.planned_list Disk.planned_new (bot ++ rest)
  rw [List.nil_append] at hp
  obtain ⟨hok, hted, hepo, hall, hdun, hpos⟩ := Disk.sync_planned hp hs
  -- the table holds the events that were committed
  have hmdb : d.mdb = d.all.take d.dun := by
    rw [hok.mdb_eq, Disk.durable, hted, hepo]
    simp
  have hml : d.mdb.length = d.dun := by
    rw [hmdb, List.length_take, min_eq_left]
    rw [← hok.sen_eq]
    exact hok.dun_le
  have hnum : Numbered 0 d.mdb := by rw [hmdb]; exact hok.numbered.take _
  have hmug : ∀ f ∈ d.mdb, f.mug = 0 := fun f hf' => by
    rw [hmdb] at hf'
    exact hp.mugs f (hall ▸ List.mem_of_mem_take hf')
  have hfit : bot.length ≤ d.dun := by rw [hdun]; exact hf
  have hbot : (d.mdb.take bot.length).map Feat.job = bot := by
    rw [hmdb, List.take_take, min_eq_left hfit, List.map_take, hall, hp.jobs, List.take_left]
  -- the kernel was made of all of them
  unfold doBoot readList at hb
  rw [cursor_spec hnum Nat.zero_lt_one (by omega), Nat.sub_zero, Nat.sub_self, List.drop_zero,
    Option.bind_some, readWalk_spec hnum, Option.map_some, Option.bind_some,
    List.take_of_length_le (le_of_eq hml)] at hb
  cases hlife : K.life (d.mdb.map Feat.job) with
  | error g => simp [soft, hlife] at hb
  | ok cor =>
  simp only [soft, hlife, Option.some.injEq, List.length_map, hml] at hb
  have hsplit : d.mdb.map Feat.job = bot ++ (d.mdb.drop bot.length).map Feat.job := by
    rw [List.map_drop, ← congrArg (· ++ _) hbot, List.map_take, List.take_append_drop]
  obtain ⟨cor0, hroot, hfol⟩ := follow_life hL (d.mdb.drop bot.length) cor
    (fun f hf' => hmug f (List.mem_of_mem_drop hf')) (by rw [← hsplit]; exact hlife)
  have hadd : bot.length + (d.mdb.drop bot.length).length = d.dun := by
    rw [List.length_drop, hml]
    omega
  rw [hadd, hb] at hfol
  have hon : On K ⟨cor0, bot.length⟩ d.mdb arv := by
    refine ⟨(d.mdb.drop bot.length).length, by rw [hadd, ← hb], le_refl _, ?_⟩
    rw [List.take_length]
    exact hfol
  have hae : arv.eve = d.mdb.length := by rw [← hb, hml]
  refine ⟨⟨cor0, bot.length⟩, d.mdb, hnum, ⟨arv, hon, hae⟩, le_refl _, le_refl _, by omega, ?_,
    Nat.zero_le _, rfl, ?_, rfl, hbot, hroot, Or.inr ⟨hon, Nat.zero_le _, le_of_eq hae⟩,
    fun h0 => absurd rfl h0, fun a ha => ?_⟩
  · rw [hml]; exact hfit
  · rw [List.take_length, List.drop_zero]
  · rw [List.mem_singleton.mp ha]
    exact Or.inr ⟨hon, le_of_eq hae⟩

/-- The invariant of every ship that was booted from a boot sequence that fits. -/
theorem reach_inv {rest : List Noun} {w : World} (hL : Lifecycle K bot) (hf : Fits bot rest)
    (h : Reach K bot rest w imgs) : ∃ root, w.Inv K bot root imgs := by
  induction h with
  | boot p hp => exact inv_boot hL hf hp
  | step ask _ ih => exact ih.imp fun _ h => inv_step h ask

/-! ### A replay that nothing interrupts -/

/-- Batches of the replay, none of them interrupted. -/
def playOn (K : Kernel) : ℕ → World → World
  | 0, w => w
  | k + 1, w => playOn K k (w.step K (.batch fun _ => none))

/-- The ship is not replaying. -/
def Settled : World → Prop
  | .play _ _ _ => False
  | _ => True

/-- The kernel state of a process that works is the image. -/
def Fresh : World → Prop
  | .work m _ => m.arv = m.img
  | _ => True

theorem fresh_enter {m : Mars} (bak : Arvo) (h : m.arv = m.img) (o : Opts) :
    Settled (enter m bak o) ∧ Fresh (enter m bak o) := by
  unfold enter
  split
  · exact ⟨trivial, h⟩
  · exact ⟨trivial, trivial⟩

theorem fresh_playDone (m : Mars) (bak : Arvo) (o : Opts) :
    Settled (playDone m bak o) ∧ Fresh (playDone m bak o) := by
  unfold playDone
  simp only
  split
  · split
    · exact ⟨trivial, trivial⟩
    · exact fresh_enter _ rfl o
  · exact fresh_enter _ rfl o

/-- **The loop goes on to the last event of the log.** -/
theorem play_settles {d : ℕ} : ∀ {m : Mars} {imgs : List Arvo} {q : Play},
    Idle K bot root imgs m bak → On K root m.log.all m.arv → q.tgt = m.log.dun → m.log.dun - m.dun ≤ d →
    ∃ k, Settled (playOn K k (.play m bak q)) ∧ Fresh (playOn K k (.play m bak q)) ∧
      (playOn K k (.play m bak q)).img.eve = m.log.all.length ∧
      On K root m.log.all (playOn K k (.play m bak q)).img := by
  induction d with
  | zero =>
    intro m imgs q h ho ht hd
    have hdun := h.dun_le
    refine ⟨1, ?_⟩
    have hstep : playOn K 1 (.play m bak q) = playDone m bak q.opt := by
      show playBatch K m bak q _ = _
      rw [playBatch, if_neg (by omega)]
    obtain ⟨h1, h2⟩ := fresh_playDone m bak q.opt
    rw [hstep, (inv_playDone h ho q.opt).2]
    exact ⟨h1, h2, by rw [h.eve, ← h.len]; omega, ho⟩
  | succ d ih =>
    intro m imgs q h ho ht hd
    have hdun := h.dun_le
    rcases Nat.eq_or_lt_of_le hdun with heq | hlt
    · exact ih h ho ht (by omega)
    obtain ⟨z, hz, hzl⟩ := h.core.whole
    have hlen := h.len
    have hlas : min (m.dun + 1024) m.log.dun ≤ m.log.all.length :=
      le_trans (min_le_right _ _) (le_of_eq hlen)
    obtain ⟨e, arv, hw, ha, hge, hle, hyes, _, _, hq⟩ := playWalk_spec h.core.numbered hz hzl
      q.opt.mugs (fun _ => none) hlas _ m rfl h.sen h.eve ho (by omega)
    obtain rfl := hq fun _ => rfl
    have hae := hyes rfl
    have hst : Idle K bot root imgs (standing m arv) bak :=
      h.standing hge (le_trans hle (min_le_right _ _))
    have hstep : World.step K (.play m bak q) (.batch fun _ => none) =
        if q.sap ≠ 0 ∧ q.sap ≤ (standing m arv).dun - q.pas then
          .play { standing m arv with img := arv } bak { q with pas := (standing m arv).dun }
        else .play (standing m arv) bak q := by
      show playBatch K m bak q _ = _
      rw [playBatch, if_pos (by omega), cursor_next h (by omega)]
      simp only
      rw [hw]
      rfl
    have hd' : m.log.dun - arv.eve ≤ d := by omega
    by_cases hc : q.sap ≠ 0 ∧ q.sap ≤ (standing m arv).dun - q.pas
    · rw [if_pos hc] at hstep
      obtain ⟨k, hk⟩ := ih (q := { q with pas := (standing m arv).dun }) (hst.save ha) ha ht hd'
      exact ⟨k + 1, by rw [playOn, hstep]; exact hk⟩
    · rw [if_neg hc] at hstep
      obtain ⟨k, hk⟩ := ih (q := q) hst ha ht hd'
      exact ⟨k + 1, by rw [playOn, hstep]; exact hk⟩

/-- A start that only replays: from the image, all of the log, with the binary of the epoch. -/
structure Replays (o : Opts) : Prop where
  full : o.full = false
  diff : o.diff = false
  eve : o.eve = 0
  why : o.why = none

/-- **A replay from an image of the ship goes to the last event of the log**, to the state that the
log leads to there. -/
theorem start_settles (h : Core K bot root imgs L L.length L.length p) {o : Opts} (ho : Replays o) :
    ∃ k, Settled (playOn K k (World.step K (.down p) (.start o))) ∧
      Fresh (playOn K k (World.step K (.down p) (.start o))) ∧
      (playOn K k (World.step K (.down p) (.start o))).img.eve = L.length ∧
      On K root L (playOn K k (World.step K (.down p) (.start o))).img := by
  have hpos := h.pos
  have hdun := (gulf_last h).1
  have himg : startImg p o.full = p.img := by rw [startImg, ho.full]; rfl
  have hle : p.img.eve ≤ L.length ∧ p.epo ≤ p.img.eve := by
    rcases h.img with ⟨h1, h2⟩ | ⟨_, h2, h3⟩
    · rw [h1, h2]; exact ⟨Nat.zero_le _, Nat.zero_le _⟩
    · exact ⟨h3, h2⟩
  have hload : load p o = some (loaded (openLog p) p.lif p.img, p.bak) := by
    unfold load
    simp only [himg]
    rw [if_neg (by omega), if_pos (by simp [ho.diff])]
  obtain ⟨hi, hai, hall, hs⟩ := idle_load h hload
  have hlen := hi.len
  rw [← hall] at hs hpos ⊢
  have hstep : World.step K (.down p) (.start o) =
      playStart K (loaded (openLog p) p.lif p.img) p.bak o := by
    rw [World.step, hload]
  rw [hstep]
  generalize loaded (openLog p) p.lif p.img = m at hi hlen hs hai hpos ⊢
  have hinv := inv_playStart hi hs o
  have htgt : (if o.eve = 0 then m.log.dun else min o.eve m.log.dun) = m.log.dun := if_pos ho.eve
  by_cases hd : m.dun = m.log.dun
  · have hps : playStart K m p.bak o = enter m p.bak o := by
      rw [playStart, if_neg (by simp [ho.eve])]
      simp only [hd, if_true]
    have hon : On K root m.log.all m.arv := by
      rcases hs with ⟨hb, _⟩ | h1
      · have h0 : m.arv.eve = 0 := by rw [hb]; rfl
        rw [hi.eve, hd, hlen] at h0
        omega
      · exact h1
    obtain ⟨h1, h2⟩ := fresh_enter p.bak hai o
    refine ⟨0, ?_⟩
    rw [playOn, hps, (inv_enter hi hon o).2, ← hai]
    exact ⟨h1, h2, by rw [hi.eve, hd, hlen], hon⟩
  · have hps : ∃ m1 q, playStart K m p.bak o = .play m1 p.bak q ∧ m1.log = m.log ∧ q.tgt = m.log.dun := by
      unfold playStart
      rw [if_neg (by simp [ho.eve])]
      simp only [hd, if_false, htgt]
      by_cases h0 : m.dun = 0
      · have hepo : (pier m p.bak).epo = 0 := Nat.le_zero.mp (le_trans hi.epo_le (le_of_eq h0))
        rcases doBoot_spec hi.core hepo o.why with hb | ⟨g, hg, _⟩
        · rw [if_pos h0, show doBoot K m.log.mdb m.lif o.why = some root from hb]
          exact ⟨_, _, rfl, rfl, rfl⟩
        · rw [ho.why] at hg
          cases hg
      · rw [if_neg h0]
        exact ⟨_, _, rfl, rfl, rfl⟩
    obtain ⟨m1, q, hps, hlog, hq⟩ := hps
    rw [hps] at hinv ⊢
    obtain ⟨hi1, ho1, _⟩ := hinv
    rw [← hlog] at hq ⊢
    exact play_settles hi1 ho1 hq (le_refl _)

/-! ### Events that fail -/

/-- The event fails, and so does the event that would tell the kernel of it, or the first failure is
one that is not told. -/
def Refused (K : Kernel) (env : Env) (arv : Arvo) (ovo : Noun) : Prop :=
  ∃ dud, soft env.soft (K.poke arv.roc (.cell env.now ovo)) = .error dud ∧
    (dud.mot = evil ∨ ∃ new g, makeCrud (.cell env.now ovo) dud.noun = some new ∧
      soft env.retry (K.poke arv.roc new) = .error g)

theorem pokeSure_error {why : Option Goof} {arv : Arvo} {eve : Noun} {g : Goof}
    (h : soft why (K.poke arv.roc eve) = .error g) : pokeSure K why arv eve = some (.error g, arv) := by
  rw [pokeSure, h]

theorem attempt_refused {env : Env} {arv : Arvo} {ovo : Noun} (h : Refused K env arv ovo) :
    ∃ job pro, attempt K env arv (.cell env.now ovo) = some (false, job, pro, arv) := by
  obtain ⟨dud, hd, hc⟩ := h
  unfold attempt
  rw [pokeSure_error hd]
  simp only
  by_cases he : dud.mot = evil
  · rw [if_pos he]
    exact ⟨_, _, rfl⟩
  · rw [if_neg he]
    obtain ⟨new, g, hn, hg⟩ := hc.resolve_left he
    rw [hn]
    simp only
    rw [pokeSure_error hg]
    exact ⟨_, _, rfl⟩

/-- The poke of an event. -/
def pokeJar (mil : ℕ) (ovo : Noun) : Noun := .cell (.atom poke) (.cell (.atom mil) ovo)

/-- **A poke that fails changes nothing but the queue of gifts.** -/
theorem step_refused (hm : Ok m) (hs : m.sat = .work) {env : Env} {mil : ℕ} {ovo : Noun}
    (hmil : mil < 2 ^ 32) (hr : Refused K env m.arv ovo) :
    ∃ m', Mars.step K m (.kick env (some (pokeJar mil ovo))) = .ok m' ∧ m'.arv = m.arv ∧
      m'.sen = m.sen ∧ m'.dun = m.dun ∧ m'.mug = m.mug ∧ m'.log = m.log ∧ m'.img = m.img := by
  obtain ⟨job, pro, ha⟩ := attempt_refused hr
  have hw : work K env m (pokeJar mil ovo) =
      .ok (gift m (.cell (.atom poke) (.cell (.atom 1) pro))) := by
    unfold work pokeJar
    simp only [if_true, hmil]
    rw [workPoke, ha]
    simp only
    rw [restore_sen hm.sen, sure, if_pos (show (gift m _).dun = (gift m _).arv.eve from hm.eve.symm)]
  have hk : Mars.step K m (.kick env (some (pokeJar mil ovo))) =
      flush (post (gift m (.cell (.atom poke) (.cell (.atom 1) pro)))) := by
    rw [Mars.step, kick, if_pos hs]
    simp only [hw, Except.map, Except.bind]
    cases flush (post (gift m (.cell (.atom poke) (.cell (.atom 1) pro)))) <;> rfl
  refine ⟨drain (post (gift m (.cell (.atom poke) (.cell (.atom 1) pro)))), ?_, rfl, rfl, rfl, rfl, rfl, rfl⟩
  rw [hk, flush]
  exact if_neg fun hc => hc.1 hs

/-! ### Every ship -/

/-- What is on disk. -/
def World.pier : World → Pier
  | .down p => p
  | .play m bak _ => Mars.pier m bak
  | .work m bak => Mars.pier m bak

/-- The events in the log. -/
def World.logged (w : World) : List Feat := w.pier.old ++ w.pier.mdb

/-- **Failed events leave no trace**, and the log leads to the state from every image. -/
structure Sound (K : Kernel) (w : World) (imgs : List Arvo) : Prop where
  /-- the counters agree while the process works -/
  work : ∀ m bak, w = .work m bak → m.sen = m.dun ∧ m.dun = m.arv.eve
  /-- and while it replays -/
  play : ∀ m bak q, w = .play m bak q → m.sen = m.dun ∧ m.dun = m.arv.eve
  /-- a poke that fails leaves the state, its number and the counters -/
  refused : ∀ m bak env mil ovo, w = .work m bak → m.sat = .work → mil < 2 ^ 32 →
    Refused K env m.arv ovo →
    ∃ m', Mars.step K m (.kick env (some (pokeJar mil ovo))) = .ok m' ∧ m'.arv = m.arv ∧
      m'.sen = m.sen ∧ m'.dun = m.dun ∧ m'.mug = m.mug ∧ m'.log = m.log ∧ m'.img = m.img
  /-- a replay from any image of the epoch reaches the last event of the log; the state there is that
  of the process if it has no later event, and the later events lead from there to it -/
  replay : ∀ a ∈ imgs, a ≠ blank → w.pier.epo ≤ a.eve → ∀ o, Replays o → ∃ k w',
    w' = playOn K k (World.step K (.down { w.pier with img := a }) (.start o)) ∧ Settled w' ∧ Fresh w' ∧
      w'.img.eve = w.logged.length ∧
      ∀ m bak, w = .work m bak → (m.dun = w.logged.length → w'.img = m.arv) ∧
        follow (turn K) w'.img (m.log.all.drop w.logged.length) = some m.arv

theorem World.Inv.core {w : World} (h : w.Inv K bot root imgs) :
    ∃ L n c, Core K bot root imgs L n c w.pier ∧ ∀ m bak, w = .work m bak →
      L = m.log.all ∧ Ok m ∧ On K root L m.arv := by
  cases w with
  | down p =>
    obtain ⟨L, hL⟩ := h
    exact ⟨L, _, _, hL, nofun⟩
  | play m bak q => exact ⟨_, _, _, h.1.core, nofun⟩
  | work m bak =>
    refine ⟨_, _, _, h.1, fun m' bak' he => ?_⟩
    cases he
    exact ⟨rfl, h.2.1, h.2.2.2⟩

theorem Core.logged_eq {w : World} (h : Core K bot root imgs L n c w.pier) :
    w.logged = L.take n ∧ w.logged.length = n := by
  have hepo := le_trans h.epo_le h.c_le
  have h1 : w.logged = L.take n := by
    rw [World.logged, h.old_eq, h.mdb_eq, List.drop_take, ← List.take_add, Nat.add_sub_cancel' hepo]
  exact ⟨h1, by rw [h1, List.length_take, min_eq_left h.n_le]⟩

theorem sound_of_inv {w : World} (h : w.Inv K bot root imgs) : Sound K w imgs := by
  obtain ⟨L, n, c, hcore, hwork⟩ := h.core
  refine ⟨fun m bak he => ?_, fun m bak q he => ?_, fun m bak env mil ovo he hs hmil hr => ?_,
    fun a ha hb hepo o ho => ?_⟩
  · obtain ⟨_, hm, _⟩ := hwork m bak he
    exact ⟨hm.sen, hm.eve.symm⟩
  · subst he
    exact ⟨h.1.sen, h.1.eve.symm⟩
  · obtain ⟨_, hm, _⟩ := hwork m bak he
    exact step_refused hm hs hmil hr
  · obtain ⟨hon, hle⟩ := (hcore.imgs a ha).resolve_left hb
    have hlen : (L.take n).length = n := by rw [List.length_take, min_eq_left hcore.n_le]
    obtain ⟨_, hlog⟩ := hcore.logged_eq
    have hp : Core K bot root (a :: imgs) (L.take n) (L.take n).length (L.take n).length
        { w.pier with img := a } := by
      rw [hlen]
      exact hcore.crash.setImg (Or.inr ⟨hon.take (le_trans hle hcore.c_le), hepo, le_trans hle hcore.c_le⟩)
    obtain ⟨k, h1, h2, h3, h4⟩ := start_settles hp ho
    refine ⟨k, _, rfl, h1, h2, by rw [h3, hlen, hlog], fun m bak he => ?_⟩
    obtain ⟨rfl, hm, hmo⟩ := hwork m bak he
    rw [hlen] at h3
    have hme : m.arv.eve = m.log.all.length := by rw [hm.eve, hm.dun, hm.log.sen_eq]
    have hon' : On K root m.log.all (playOn K k
        (World.step K (.down { w.pier with img := a }) (.start o))).img := by
      have h5 := h4.append (by rw [hlen]; exact le_trans hcore.root_le hcore.c_le) (m.log.all.drop n)
      rwa [List.take_append_drop] at h5
    constructor
    · intro hd
      exact hon'.unique hmo (by rw [h3, hm.eve, hd, hlog])
    · have h6 := hon'.follow hmo (by rw [h3, hme]; exact hcore.n_le)
      rw [hme, List.take_length, h3] at h6
      rw [hlog]
      exact h6

/-- **Failed events leave no trace.** Of every ship that was booted from a boot sequence that fits the
one batch a boot commits, whatever happened to it since: the counters agree with the event number of
the kernel, a poke that fails changes none of them, and a replay of the log from any image that was
saved reaches the same state and number. -/
theorem sound_of_reach {K : Kernel} {bot rest : List Noun} (hL : Lifecycle K bot) (hf : Fits bot rest)
    {w : World} {imgs : List Arvo} (h : Reach K bot rest w imgs) : Sound K w imgs := by
  obtain ⟨root, hinv⟩ := reach_inv hL hf h
  exact sound_of_inv hinv

/-! ### A boot sequence that does not fit -/

theorem lifecycle_calm (bot : List Noun) : Lifecycle calm bot := by
  intro l e cor' h
  obtain rfl : Noun.atom 0 = cor' := Except.ok.inj h
  exact ⟨.atom 0, .atom 0, rfl, rfl⟩

/-- A start that replays everything and then works, and one that only replays, from the beginning of
the epoch. -/
def serveOpts : Opts := ⟨false, false, false, true, 0, 0, false, none⟩
def fullOpts : Opts := ⟨true, false, false, false, 0, 0, false, none⟩

/-- A ship booted from one event. -/
def smallPier : Pier := ⟨[⟨1, 0, .atom 0⟩], [], 0, 1, ⟨.atom 0, 1⟩, blank⟩

theorem fits_small : Fits [.atom 0] [] := by unfold Fits; decide

/-- `sound_of_reach` at a ship that was booted from one event and is started. -/
theorem sound_of_reach_small : Sound calm ((World.down smallPier).step calm (.start serveOpts))
    [((World.down smallPier).step calm (.start serveOpts)).img, smallPier.img] :=
  sound_of_reach (lifecycle_calm _) fits_small
    (.step (.start serveOpts) (.boot smallPier (by rfl)))

/-- The counters of a ship that replays agree. -/
def agrees : World → Bool
  | .play m _ _ => m.dun = m.arv.eve
  | _ => true

theorem not_sound_of_agrees {w : World} (h : agrees w = false) : ¬ Sound K w imgs := by
  intro hs
  cases w with
  | down p => cases h
  | work m bak => cases h
  | play m bak q =>
    have h1 := (hs.play m bak q rfl).2
    simp [agrees, h1] at h

/-- A hundred and one boot events. -/
def longBoot : List Noun := List.replicate 101 (.atom 0)

/-- Of a boot sequence of a hundred and one events a hundred are logged. A replay from the beginning
makes the kernel of these, and counts a hundred and one. -/
theorem longBoot_not_sound : Lifecycle calm longBoot ∧
    ∃ w imgs, Reach calm longBoot [] w imgs ∧ ¬ Sound calm w imgs := by
  refine ⟨lifecycle_calm _, ?_⟩
  have h : (boot calm longBoot []).any
      (fun p => !agrees ((World.down p).step calm (.start fullOpts))) = true := by decide +kernel
  obtain ⟨p, hp, ha⟩ := (Option.any_eq_true _ _).mp h
  exact ⟨_, _, .step (.start fullOpts) (.boot p hp), not_sound_of_agrees (by simpa using ha)⟩

end Mars
end Ursockets
