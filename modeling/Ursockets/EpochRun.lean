/-
# Runs over epochs

Loads by runtimes of any version, events, snapshots, manual rolls and chops, with a rollover that
stops or fails anywhere, and a crash at any time. The disk at rest has an epoch with all the
events after its number, below at most one that is bogus and has no event, and the snapshot is not
older than that epoch. When it has no event yet, the epoch before it has all up to it: a rollover
into it that fails leaves it bogus.

An epoch is refused by a manual roll when there is one event in it, though it is not empty, and a
rollover into an epoch that is there can leave the copy of the snapshot in it torn, or none, which
a full replay needs.

Key definitions: `Good`, `Chain`, `Rests`, `Reaches`, `NoneLost`, `Proper`, `Spared`.
Key theorems: `epocRoll_rests`, `select_rests`, `step_inv`, `epochs_of_run`.
-/
import Ursockets.Epochs

namespace Ursockets
namespace Epochs

variable {σ ε V : Type} (turn : σ → ε → Option σ) (root : σ)

/-! ### The disk at rest -/

/-- The snapshot is the state after its event. -/
structure Snap.Of (log : List ε) (c : Snap σ) : Prop where
  le : c.eve ≤ log.length
  state : Replay.follow turn root (log.take c.eve) = some c.state

/-- The epoch is not bogus, and has the events after its number. -/
structure Good (log : List ε) (n : ℕ) (x : Epoch σ ε V) : Prop where
  epoc : x.epoc = true
  saved : x.saved = true
  le : n ≤ log.length
  events : x.events = log.drop n

/-- An epoch ends before a later one begins. -/
def Older (a b : ℕ × Epoch σ ε V) : Prop := b.1 < a.1 ∧ b.1 + b.2.events.length ≤ a.1

/-- The epochs from one that is good on; if it has no event there is a good one before it. -/
structure Chain (log : List ε) (n : ℕ) (x : Epoch σ ε V) (es : Dirs σ ε V) : Prop where
  good : Good log n x
  older : ((n, x) :: es).Pairwise Older
  before : n = log.length → n ≠ 0 → ∃ m y fs, es = (m, y) :: fs ∧ Good log m y

/-- The copies of snapshots in epochs. -/
def Copies (log : List ε) (es : Dirs σ ε V) : Prop :=
  ∀ n x, (n, x) ∈ es → n ≠ 0 → ∀ c, x.image = some (.whole c) → c.eve = n ∧ c.Of turn root log

/-- A pier, with its snapshot and the epoch to load: the latest, or the one before if the latest is bogus. -/
structure Rests (log : List ε) (p : Pier σ ε V) (c : Snap σ) (n : ℕ) (x : Epoch σ ε V) (es : Dirs σ ε V) : Prop where
  chk : p.chk = .whole c
  snap : c.Of turn root log
  le : n ≤ c.eve
  chain : Chain log n x es
  copies : Copies turn root log p.epochs
  dirs : p.epochs = (n, x) :: es ∨
    ∃ y, p.epochs = (log.length, y) :: (n, x) :: es ∧ n < log.length ∧ y.bogus = true ∧ y.events = []

variable {turn root} {log : List ε} {p : Pier σ ε V} {c snap : Snap σ} {n : ℕ} {x y : Epoch σ ε V}
  {es : Dirs σ ε V} {ver : V}

theorem Good.not_bogus (h : Good log n x) : x.bogus = false := by
  unfold Epoch.bogus
  rw [h.epoc, h.saved]
  simp

theorem not_empty (h : x.saved = true) : x.isEmpty = false := by
  unfold Epoch.saved at h
  unfold Epoch.isEmpty
  cases hdb : x.db with
  | none =>
    rw [hdb] at h
    exact absurd h Bool.false_ne_true
  | some db => simp

/-! ### Directories -/

theorem mkdir_new {N : ℕ} (h : n < N) : mkdir N ((n, x) :: es) = (N, .new) :: (n, x) :: es := by
  unfold mkdir
  rw [if_pos h]

theorem mkdir_old : mkdir n ((n, x) :: es) = (n, x) :: es := by
  unfold mkdir
  rw [if_neg (lt_irrefl n), if_pos rfl]

theorem write_top {f : Epoch σ ε V → Epoch σ ε V} (h : ∀ q ∈ es, q.1 < n) :
    write n f ((n, x) :: es) = (n, f x) :: es := by
  unfold write
  rw [List.map_cons, if_pos rfl]
  congr 1
  refine (List.map_congr_left fun q hq => if_neg (h q hq).ne).trans (List.map_id _)

theorem rmdir_top (h : ∀ q ∈ es, q.1 < n) : rmdir n ((n, x) :: es) = if x.isEmpty then es else (n, x) :: es := by
  have hes : es.filter (fun p => decide ¬ (p.1 = n ∧ p.2.isEmpty = true)) = es :=
    List.filter_eq_self.mpr fun q hq => decide_eq_true fun h' => (h q hq).ne h'.1
  unfold rmdir
  rw [List.filter_cons, hes]
  cases x.isEmpty <;> simp

/-- What a rollover comes to in a directory that is the latest: it is written, or removed again. -/
inductive Rolled (snap : Snap σ) (ver : V) (n : ℕ) (x : Epoch σ ε V) (es : Dirs σ ε V) : Bool × Dirs σ ε V → Prop
  | done : Rolled snap ver n x es (true, (n, made snap ver 6 x) :: es)
  | stopped (k : ℕ) : Rolled snap ver n x es (false, (n, made snap ver k x) :: es)
  | uncopied (hx : x.isEmpty = false) : Rolled snap ver n x es (false, (n, { x with image := none }) :: es)
  | unlinked (k : ℕ) :
      Rolled snap ver n x es (false, (n, { made snap ver (2 + k) x with epoc := false, vere := none }) :: es)
  | removed (hx : x.isEmpty = true) : Rolled snap ver n x es (false, es)

theorem made_image_isSome (k : ℕ) : (made snap ver (2 + k) x).image.isSome = true := by
  match k with
  | 0 | 1 | 2 | 3 => rfl
  | k + 4 =>
    rw [made_full (by omega)]
    rfl

/-- **What a rollover comes to.** -/
theorem epocRoll_rolled {N : ℕ} {fs : Dirs σ ε V} (h0 : N ≠ 0) (hmk : mkdir N es = (N, y) :: fs)
    (hlt : ∀ q ∈ fs, q.1 < N)
    (hy : y = .new ∨ y.saved = true) (fault : Fault) :
    epocRoll N snap ver fault es = (false, es) ∨ Rolled snap ver N y fs (epocRoll N snap ver fault es) := by
  unfold epocRoll
  rw [if_neg h0]
  cases fault with
  | none =>
    dsimp only
    rw [hmk, write_top hlt]
    exact .inr .done
  | crash k =>
    cases k with
    | zero => exact .inl rfl
    | succ k =>
      dsimp only
      rw [hmk, write_top hlt]
      exact .inr (.stopped k)
  | unopened =>
    dsimp only
    rw [hmk, rmdir_top hlt]
    split
    · rename_i he
      exact .inr (.removed he)
    · exact .inr (.stopped 0)
  | copy =>
    dsimp only
    rw [hmk, write_top hlt, rmdir_top hlt]
    rcases hy with rfl | hs
    · exact .inr (.removed rfl)
    · rw
        [if_neg (by
          rw [not_empty (show ({ y with image := none } : Epoch σ ε V).saved = true from hs)]
          exact Bool.false_ne_true)]
      exact .inr (.uncopied (not_empty hs))
  | sync =>
    dsimp only
    rw [hmk, write_top hlt, rmdir_top hlt]
    exact .inr (.stopped 2)
  | files k =>
    dsimp only
    rw [hmk, write_top hlt, rmdir_top hlt, if_neg]
    · exact .inr (.unlinked k)
    · have hsome : (made snap ver (2 + k) y).image.isSome = true := made_image_isSome k
      unfold Epoch.isEmpty
      cases himg : (made snap ver (2 + k) y).image with
      | none =>
        rw [himg] at hsome
        exact absurd hsome Bool.false_ne_true
      | some i => simp

/-! ### A rollover keeps the disk at rest -/

theorem Chain.lt (h : Chain log n x es) : ∀ q ∈ es, q.1 < n := fun q hq => ((List.pairwise_cons.mp h.older).1 q hq).1

theorem copies_cons {N : ℕ} (h : Copies turn root log es)
    (hy : N ≠ 0 → ∀ c, y.image = some (.whole c) → c.eve = N ∧ c.Of turn root log) :
      Copies turn root log ((N, y) :: es) := by
  intro m z hm hm0 d hd
  rcases List.mem_cons.mp hm with heq | hm
  · obtain ⟨rfl, rfl⟩ := Prod.mk.inj heq
    exact hy hm0 d hd
  · exact h m z hm hm0 d hd

theorem Copies.tail (h : Copies turn root log ((n, x) :: es)) : Copies turn root log es :=
  fun m z hm => h m z (List.mem_cons_of_mem _ hm)

/-- What has the epochs' numbers still. -/
def Keeps (es fs : Dirs σ ε V) : Prop := ∀ m ∈ es.map Prod.fst, m ∈ fs.map Prod.fst

theorem keeps_cons : Keeps ((n, x) :: es) ((n, y) :: es) := by
  intro m hm
  rwa [List.map_cons] at hm ⊢

theorem keeps_refl : Keeps es es := fun _ h => h

theorem Chain.head (h : Chain log n x es) (hy : Good log n y) : Chain log n y es := by
  obtain ⟨hall, htail⟩ := List.pairwise_cons.mp h.older
  exact ⟨hy, List.pairwise_cons.mpr ⟨fun q hq => hall q hq, htail⟩, h.before⟩

/-- The chain before an epoch that has no event. -/
theorem Chain.prev {m : ℕ} {z : Epoch σ ε V} {fs : Dirs σ ε V} (h : Chain log n x ((m, z) :: fs)) (hz : Good log m z) :
    m < n ∧ Chain log m z fs := by
  obtain ⟨hall, htail⟩ := List.pairwise_cons.mp h.older
  have hlt : m < n := (hall (m, z) List.mem_cons_self).1
  exact ⟨hlt, hz, htail, fun hm => absurd (hm ▸ hlt) (not_lt.mpr h.good.le)⟩

/-- The chain from an epoch that is made anew on. -/
theorem Chain.next {N : ℕ} (h : Chain log n x es) (hN : N = log.length) (hlt : n < N) (hy : Good log N y) :
    Chain log N y ((n, x) :: es) := by
  refine ⟨hy, List.pairwise_cons.mpr ⟨fun q hq => ?_, h.older⟩, fun _ _ => ⟨n, x, es, rfl, h.good⟩⟩
  rcases List.mem_cons.mp hq with rfl | hq
  · refine ⟨hlt, ?_⟩
    show n + x.events.length ≤ N
    rw [h.good.events, List.length_drop, hN]
    exact (Nat.add_sub_cancel' h.good.le).le
  · have ho := (List.pairwise_cons.mp h.older).1 q hq
    exact ⟨ho.1.trans hlt, ho.2.trans hlt.le⟩

/-- An epoch that was written up to some step has copies that are right. -/
theorem made_copies {k : ℕ} (hx : n ≠ 0 → ∀ d, x.image = some (.whole d) → d.eve = n ∧ d.Of turn root log)
    (hs : snap.Of turn root log) (he : snap.eve = n) :
    n ≠ 0 → ∀ d, (made snap ver k x).image = some (.whole d) → d.eve = n ∧ d.Of turn root log :=
  fun hn _ hd => made_image (fun d => d.eve = n ∧ d.Of turn root log) (hx hn) ⟨he, hs⟩ hd

/-- A rollover into a new directory. -/
theorem rolled_new (hR : Rests turn root log p snap n x es) (hdirs : p.epochs = (n, x) :: es)
    (he : snap.eve = log.length)
    (hlt : n < snap.eve) {res : Bool × Dirs σ ε V} (h : Rolled snap ver snap.eve .new ((n, x) :: es) res) :
    (∃ m y fs, Rests turn root log { p with epochs := res.2 } snap m y fs ∧
      (res.1 = true → res.2 = (m, y) :: fs ∧ m = snap.eve)) ∧ Keeps p.epochs res.2 := by
  have hcop : Copies turn root log ((n, x) :: es) := hdirs ▸ hR.copies
  have hnew : ∀ k, snap.eve ≠ 0 → ∀ d, (made snap ver k (.new : Epoch σ ε V)).image = some (.whole d) →
      d.eve = snap.eve ∧ d.Of turn root log :=
    fun k => made_copies (fun _ d hd => absurd hd.symm (Option.some_ne_none _)) hR.snap rfl
  have hkeeps : ∀ y : Epoch σ ε V, Keeps p.epochs ((snap.eve, y) :: (n, x) :: es) := fun y m hm =>
    List.mem_cons_of_mem _ (hdirs ▸ hm)
  have hgood : Good log snap.eve (made snap ver 6 (.new : Epoch σ ε V)) :=
    ⟨rfl, rfl, he.le, by rw [made_events, he, List.drop_length]; rfl⟩
  have hfull : Rests turn root log { p with epochs := (snap.eve, made snap ver 6 .new) :: (n, x) :: es } snap snap.eve
      (made snap ver 6 .new) ((n, x) :: es) :=
    ⟨hR.chk, hR.snap, le_refl _, hR.chain.next he hlt hgood, copies_cons hcop (hnew 6), .inl rfl⟩
  have hpart : ∀ y : Epoch σ ε V, y.bogus = true → y.events = [] →
      (snap.eve ≠ 0 → ∀ d, y.image = some (.whole d) → d.eve = snap.eve ∧ d.Of turn root log) →
      Rests turn root log { p with epochs := (snap.eve, y) :: (n, x) :: es } snap n x es := fun y hb hev hy =>
    ⟨hR.chk, hR.snap, hR.le, hR.chain, copies_cons hcop hy, .inr ⟨y, by rw [he], he ▸ hlt, hb, hev⟩⟩
  cases h with
  | done => exact ⟨⟨_, _, _, hfull, fun _ => ⟨rfl, rfl⟩⟩, hkeeps _⟩
  | stopped k =>
    refine ⟨?_, hkeeps _⟩
    by_cases hk : k < 6
    · exact ⟨_, _, _, hpart _ (made_new hk) (made_events.trans rfl) (hnew k), fun h => absurd h Bool.false_ne_true⟩
    · rw [made_full (not_lt.mp hk)]
      exact ⟨_, _, _, hfull, fun h => absurd h Bool.false_ne_true⟩
  | uncopied hx => exact absurd (show true = false from hx) (by decide)
  | unlinked k =>
    refine ⟨⟨_, _, _, hpart _ rfl ?_ (hnew (2 + k)), fun h => absurd h Bool.false_ne_true⟩, hkeeps _⟩
    have hev : (made snap ver (2 + k) (.new : Epoch σ ε V)).events = Epoch.events .new := made_events
    exact hev.trans rfl
  | removed hx =>
    refine ⟨⟨n, x, es, ?_, fun h => absurd h Bool.false_ne_true⟩, by rw [hdirs]; exact keeps_refl⟩
    exact ⟨hR.chk, hR.snap, hR.le, hR.chain, hcop, .inl rfl⟩

/-- A rollover into the directory of an epoch that has no event. -/
theorem rolled_old (hR : Rests turn root log p snap n x es) (hdirs : p.epochs = (n, x) :: es)
    (he : snap.eve = log.length)
    (hn : n = snap.eve) (h0 : n ≠ 0) {res : Bool × Dirs σ ε V} (h : Rolled snap ver n x es res) :
    (∃ m y fs, Rests turn root log { p with epochs := res.2 } snap m y fs ∧
      (res.1 = true → res.2 = (m, y) :: fs ∧ m = snap.eve)) ∧ Keeps p.epochs res.2 := by
  have hcop : Copies turn root log ((n, x) :: es) := hdirs ▸ hR.copies
  have hgood := hR.chain.good
  have himg : ∀ k, n ≠ 0 → ∀ d, (made snap ver k x).image = some (.whole d) → d.eve = n ∧ d.Of turn root log :=
    fun k => made_copies (fun hn0 d hd => hcop n x List.mem_cons_self hn0 d hd) hR.snap hn.symm
  have hkeeps : ∀ y : Epoch σ ε V, Keeps p.epochs ((n, y) :: es) := fun y => by
    rw [hdirs]
    exact keeps_cons
  have hfull : ∀ y : Epoch σ ε V, Good log n y → (n ≠ 0 → ∀ d, y.image = some (.whole d) → d.eve = n ∧
    d.Of turn root log) →
      Rests turn root log { p with epochs := (n, y) :: es } snap n y es := fun y hy hi =>
    ⟨hR.chk, hR.snap, hR.le, hR.chain.head hy, copies_cons hcop.tail hi, .inl rfl⟩
  have hmade : ∀ k, Good log n (made snap ver k x) := fun k =>
    ⟨made_epoc hgood.epoc, made_saved hgood.saved, hgood.le, made_events.trans hgood.events⟩
  cases h with
  | done => exact ⟨⟨_, _, _, hfull _ (hmade 6) (himg 6), fun _ => ⟨rfl, hn⟩⟩, hkeeps _⟩
  | stopped k => exact ⟨⟨_, _, _, hfull _ (hmade k) (himg k), fun h => absurd h Bool.false_ne_true⟩, hkeeps _⟩
  | uncopied hx =>
    refine ⟨⟨_, _, _, hfull { x with image := none } ⟨hgood.epoc, hgood.saved, hgood.le, hgood.events⟩ ?_,
      fun h => absurd h Bool.false_ne_true⟩, hkeeps _⟩
    exact fun _ d hd => absurd hd.symm (Option.some_ne_none _)
  | unlinked k =>
    obtain ⟨m, z, fs, rfl, hz⟩ := hR.chain.before (hn.trans he) h0
    obtain ⟨hlt, hprev⟩ := hR.chain.prev hz
    refine ⟨⟨m, z, fs, ⟨hR.chk, hR.snap, (hlt.trans_le hR.le).le, hprev, copies_cons hcop.tail (himg (2 + k)), .inr ?_⟩,
      fun h => absurd h Bool.false_ne_true⟩, hkeeps _⟩
    refine
      ⟨{ made snap ver (2 + k) x with epoc := false, vere := none }, by rw [hn, he],
        by rw [← he, ← hn]; exact hlt, rfl, ?_⟩
    have hev : (made snap ver (2 + k) x).events = x.events := made_events
    refine hev.trans (hgood.events.trans ?_)
    rw [hn, he, List.drop_length]
  | removed hx => exact absurd (hx.symm.trans (not_empty hgood.saved)) (by decide)

/-- **A rollover keeps the disk at rest**, wherever it stops or fails, and deletes no epoch. If it
succeeds the new epoch is the latest. -/
theorem epocRoll_rests (hR : Rests turn root log p snap n x es) (hdirs : p.epochs = (n, x) :: es)
    (he : snap.eve = log.length) (ver : V) (fault : Fault) :
    (∃ m y fs, Rests turn root log { p with epochs := (epocRoll snap.eve snap ver fault p.epochs).2 } snap m y fs ∧
      ((epocRoll snap.eve snap ver fault p.epochs).1 = true →
        (epocRoll snap.eve snap ver fault p.epochs).2 = (m, y) :: fs ∧ m = snap.eve)) ∧
      Keeps p.epochs (epocRoll snap.eve snap ver fault p.epochs).2 := by
  have hsame : epocRoll snap.eve snap ver fault p.epochs = (false, p.epochs) →
      (∃ m y fs, Rests turn root log { p with epochs := (epocRoll snap.eve snap ver fault p.epochs).2 } snap m y fs ∧
        ((epocRoll snap.eve snap ver fault p.epochs).1 = true →
          (epocRoll snap.eve snap ver fault p.epochs).2 = (m, y) :: fs ∧ m = snap.eve)) ∧
        Keeps p.epochs (epocRoll snap.eve snap ver fault p.epochs).2 := by
    intro h
    rw [h]
    exact ⟨⟨n, x, es, hR, fun h => absurd h Bool.false_ne_true⟩, keeps_refl⟩
  by_cases h0 : snap.eve = 0
  · apply hsame
    unfold epocRoll
    rw [if_pos h0]
  rcases hR.le.lt_or_eq with hlt | heq
  · have hall : ∀ q ∈ (n, x) :: es, q.1 < snap.eve := List.forall_mem_cons.mpr
      ⟨hlt, fun q hq => (hR.chain.lt q hq).trans hlt⟩
    have hmk : mkdir snap.eve p.epochs = (snap.eve, .new) :: (n, x) :: es := by rw [hdirs, mkdir_new hlt]
    rcases epocRoll_rolled h0 hmk hall (.inl rfl) fault with h | h
    · exact hsame h
    · exact rolled_new hR hdirs he hlt h
  · have hmk : mkdir snap.eve p.epochs = (snap.eve, x) :: es := by rw [hdirs, ← heq, mkdir_old]
    rcases epocRoll_rolled h0 hmk (heq ▸ hR.chain.lt) (.inr hR.chain.good.saved) fault with h | h
    · exact hsame h
    · rw [← heq] at h ⊢
      have hres := rolled_old hR hdirs he heq (heq ▸ h0) h
      rw [← heq] at hres
      exact hres

/-! ### What a load selects -/

/-- The epoch that a load takes. -/
def target (p : Pier σ ε V) : Option (ℕ × Epoch σ ε V) :=
  match p.epochs with
  | [] => none
  | [q] => some q
  | q :: r :: _ => if q.2.bogus then some r else some q

theorem Rests.target (hR : Rests turn root log p c n x es) : target p = some (n, x) := by
  unfold Epochs.target
  rcases hR.dirs with h | ⟨y, h, -, hb, -⟩
  · rw [h]
    cases es with
    | nil => rfl
    | cons q es => exact if_neg (by rw [hR.chain.good.not_bogus]; exact Bool.false_ne_true)
  · rw [h]
    exact if_pos hb

theorem Good.dun_eq (h : Good log n x) : dun n x = log.length := by
  rw [Epochs.dun_eq, h.events, List.length_drop]
  exact Nat.add_sub_cancel' h.le

/-- The snapshot that is booted is good for the epoch. -/
theorem epocOpen_good {mode : Mode} (hg : Good log n x) (hi : bootImage root mode n x p.chk = some (.whole c))
    (hle : c.eve ≤ log.length) (hn : n ≤ c.eve) : epocOpen root mode n x p.chk = .good c := by
  unfold epocOpen
  rw [if_neg (by rw [hg.not_bogus]; exact Bool.false_ne_true), hi]
  dsimp only
  rw [if_neg]
  rw [hg.dun_eq]
  exact not_or.mpr ⟨not_lt.mpr hle, not_lt.mpr hn⟩

/-- What is selected is what the epoch opens to. -/
theorem select_eq {mode : Mode} (hR : Rests turn root log p c n x es) : select root mode p =
    match epocOpen root mode n x p.chk with
    | .good snap => (⟨(n, x) :: es, .whole snap⟩, some ⟨n, snap⟩)
    | .exit chk => (⟨(n, x) :: es, chk⟩, none)
    | .bogus => ({ p with epochs := (n, x) :: es }, none) := by
  have hnb : epocOpen root mode n x p.chk ≠ .bogus := by
    unfold epocOpen
    rw [if_neg (by rw [hR.chain.good.not_bogus]; exact Bool.false_ne_true)]
    split
    · exact nofun
    · exact nofun
    · split
      · exact nofun
      · exact nofun
  unfold select
  rcases hR.dirs with h | ⟨y, h, -, hb, -⟩
  · rw [h]
    dsimp only
    cases hk : epocOpen root mode n x p.chk with
    | good snap => rfl
    | exit chk => rfl
    | bogus => exact absurd hk hnb
  · have hy : epocOpen root mode log.length y p.chk = .bogus := if_pos hb
    rw [h]
    dsimp only
    split
    · rename_i hk
      exact absurd (hy.symm.trans hk) nofun
    · rename_i hk
      exact absurd (hy.symm.trans hk) nofun
    · rfl

/-- **A load selects an epoch**, unless a full replay finds no whole copy of its snapshot. -/
theorem select_rests {mode : Mode} (hR : Rests turn root log p c n x es)
    (hw : mode = .epoc → n ≠ 0 → ∃ d, x.image = some (.whole d)) :
    ∃ d, select root mode p = (⟨(n, x) :: es, .whole d⟩, some ⟨n, d⟩) ∧ d.Of turn root log ∧ n ≤ d.eve := by
  have hmem : (n, x) ∈ p.epochs := by
    rcases hR.dirs with h | ⟨y, h, -⟩
    · rw [h]
      exact List.mem_cons_self
    · rw [h]
      exact List.mem_cons_of_mem _ List.mem_cons_self
  have hsel : ∀ d, bootImage root mode n x p.chk = some (.whole d) → d.Of turn root log → n ≤ d.eve →
      ∃ d, select root mode p = (⟨(n, x) :: es, .whole d⟩, some ⟨n, d⟩) ∧ d.Of turn root log ∧ n ≤ d.eve := by
    intro d hi hd hn
    refine ⟨d, ?_, hd, hn⟩
    rw [select_eq hR, epocOpen_good hR.chain.good hi hd.le hn]
  cases mode with
  | last => exact hsel c (congrArg some hR.chk) hR.snap hR.le
  | epoc =>
    by_cases h0 : n = 0
    · exact hsel ⟨0, root⟩ (if_pos h0) ⟨Nat.zero_le _, by rw [List.take_zero]; rfl⟩ h0.le
    · obtain ⟨d, hd⟩ := hw rfl h0
      obtain ⟨hde, hof⟩ := hR.copies n x hmem h0 d hd
      exact hsel d ((if_neg h0).trans hd) hof hde.ge

theorem select_none (hR : Rests turn root log p c n x es) (h0 : n ≠ 0) (hw : ∀ d, x.image ≠ some (.whole d)) :
    (select root .epoc p).2 = none := by
  have hboot : bootImage root .epoc n x p.chk = x.image := if_neg h0
  have hexit : ∃ chk, epocOpen root .epoc n x p.chk = .exit chk := by
    unfold epocOpen
    rw [if_neg (by rw [hR.chain.good.not_bogus]; exact Bool.false_ne_true), hboot]
    cases himg : x.image with
    | none => exact ⟨_, rfl⟩
    | some i =>
      cases i with
      | torn => exact ⟨_, rfl⟩
      | whole d => exact absurd himg (hw d)
  obtain ⟨chk, hexit⟩ := hexit
  rw [select_eq hR, hexit]

/-! ### What is claimed -/

variable (turn root) in
/-- From the epoch that was selected and the snapshot that was booted the state after the last
committed event is reached. -/
def Reaches (log : List ε) (p : Pier σ ε V) (r : Run σ) : Prop :=
  ∃ x es a, p.epochs = (r.epo, x) :: es ∧ r.epo ≤ r.snap.eve ∧ Replay.follow turn root log = some a ∧
    Replay.follow turn r.snap.state (x.events.drop (r.snap.eve - r.epo)) = some a

/-- No epoch is deleted that has an event after `eve`. -/
def NoneLost (p q : Pier σ ε V) (eve : ℕ) : Prop :=
  ∀ n x, (n, x) ∈ p.epochs → n ∉ q.epochs.map Prod.fst → ∀ i, i < x.events.length → n + 1 + i ≤ eve

variable (turn root) in
/-- What is claimed of an event: a load selects an epoch from which the last state is reached,
nothing newer than the snapshot is deleted, and a manual roll takes an epoch for empty only if it
is. -/
def Proper [DecidableEq V] (s : System σ ε V) : Event ε V → Prop
  | .load mode ver yolo fault =>
    ∃ r, (select root mode s.pier).2 = some r ∧ Reaches turn root s.log (select root mode s.pier).1 r ∧
      NoneLost s.pier (load root mode ver yolo fault s.pier).1 r.snap.eve
  | .roll ver fault => ∀ r n x es, s.run = some r → s.pier.epochs = (n, x) :: es →
      ((gulf n x).1 = (gulf n x).2 → x.events = []) ∧
        NoneLost s.pier (diskRoll ver fault { s.pier with chk := .whole r.snap } r).1 r.snap.eve
  | .chop => ∀ c, s.pier.chk = .whole c → NoneLost s.pier (diskChop s.pier) c.eve
  | _ => True

/-- No manual roll of an epoch with one event, and no full replay of an epoch without a whole copy of its snapshot. -/
def Spared (s : System σ ε V) : Event ε V → Prop
  | .load .epoc _ _ _ => ∀ n x, target s.pier = some (n, x) → n ≠ 0 → ∃ c, x.image = some (.whole c)
  | .roll _ _ => ∀ n x es, s.pier.epochs = (n, x) :: es → x.events.length ≠ 1
  | _ => True

variable (turn root) in
/-- The pier is at rest, and what runs on it has the latest epoch. -/
structure Inv (s : System σ ε V) : Prop where
  replays : ∃ a, Replay.follow turn root s.log = some a
  rests : ∃ c n x es, Rests turn root s.log s.pier c n x es ∧
    ∀ r, s.run = some r → s.pier.epochs = (n, x) :: es ∧ r.epo = n ∧ r.snap.Of turn root s.log ∧ n ≤ r.snap.eve

variable (turn root) in
/-- What a load or a roll leaves. -/
structure Left (log : List ε) (p : Pier σ ε V) (d : Snap σ) (q : Pier σ ε V × Option (Run σ)) : Prop where
  rests : ∃ m y fs, Rests turn root log q.1 d m y fs ∧ ∀ r, q.2 = some r → q.1.epochs = (m, y) :: fs ∧ r.epo = m ∧
    r.snap = d
  keeps : Keeps p.epochs q.1.epochs

variable {d : Snap σ}

theorem left_self (hR : Rests turn root log p d n x es) (hdirs : p.epochs = (n, x) :: es) {r : Option (Run σ)}
    (hr : ∀ a, r = some a → a.epo = n ∧ a.snap = d) : Left turn root log p d (p, r) :=
  ⟨⟨n, x, es, hR, fun a ha => ⟨hdirs, hr a ha⟩⟩, keeps_refl⟩

theorem left_roll (hR : Rests turn root log p d n x es) (hdirs : p.epochs = (n, x) :: es) (he : d.eve = log.length)
    (fault : Fault) : Left turn root log p d
      ({ p with epochs := (epocRoll d.eve d ver fault p.epochs).2 },
        if (epocRoll d.eve d ver fault p.epochs).1 then some ⟨d.eve, d⟩ else none) := by
  obtain ⟨⟨m, y, fs, hR', hok⟩, hk⟩ := epocRoll_rests hR hdirs he ver fault
  refine ⟨⟨m, y, fs, hR', fun r hr => ?_⟩, hk⟩
  dsimp only at hr
  split at hr
  · rename_i h
    obtain rfl := Option.some.inj hr
    obtain ⟨htop, hm⟩ := hok h
    exact ⟨htop, hm.symm, rfl⟩
  · exact absurd hr.symm (Option.some_ne_none _)

theorem finish_left [DecidableEq V] (hR : Rests turn root log p d n x es) (hdirs : p.epochs = (n, x) :: es)
    (yolo : Bool)
    (fault : Fault) :
    Left turn root log p d (finish ver yolo fault p ⟨n, d⟩) := by
  unfold finish
  rw [hdirs]
  dsimp only
  split
  · exact left_self hR hdirs fun a ha => by
      obtain rfl := Option.some.inj ha
      exact ⟨rfl, rfl⟩
  · split
    · exact left_self hR hdirs fun a ha => absurd ha.symm (Option.some_ne_none _)
    · rename_i hdun
      have he := not_not.mp hdun
      rw [he, ← hdirs]
      exact left_roll hR hdirs (he.symm.trans hR.chain.good.dun_eq) fault

theorem diskRoll_left (hR : Rests turn root log p d n x es) (hdirs : p.epochs = (n, x) :: es) (ver : V)
    (fault : Fault) :
    Left turn root log p d (diskRoll ver fault p ⟨n, d⟩) := by
  unfold diskRoll
  rw [hdirs]
  dsimp only
  split
  · exact left_self hR hdirs fun a ha => absurd ha.symm (Option.some_ne_none _)
  · rename_i hne
    split
    · exact left_self hR hdirs fun a ha => absurd ha.symm (Option.some_ne_none _)
    · rename_i hlas
      have hnil : x.events ≠ [] := fun hnil => hne (gulf_empty_iff.mpr (by rw [hnil]; exact Nat.zero_le 1))
      have he : d.eve = dun n x := by rw [not_not.mp hlas, gulf_last hnil, dun_eq]
      rw [← hdirs]
      exact left_roll hR hdirs (he.trans hR.chain.good.dun_eq) fault

/-! ### One event -/

theorem Snap.Of.append (h : c.Of turn root log) (l : List ε) : c.Of turn root (log ++ l) := by
  refine ⟨h.le.trans (by rw [List.length_append]; exact Nat.le_add_right _ _), ?_⟩
  rw [List.take_append_of_le_length h.le]
  exact h.state

/-- The events after the snapshot lead to the last state. -/
theorem reaches (hR : Rests turn root log p d n x es) (hdirs : p.epochs = (n, x) :: es)
    (hlog : ∃ a, Replay.follow turn root log = some a) : Reaches turn root log p ⟨n, d⟩ := by
  obtain ⟨a, ha⟩ := hlog
  refine ⟨x, es, a, hdirs, hR.le, ha, ?_⟩
  have hdrop : (log.drop n).drop (d.eve - n) = log.drop d.eve := by
    rw [List.drop_drop, Nat.add_sub_cancel' hR.le]
  calc Replay.follow turn d.state (x.events.drop (d.eve - n))
      = Replay.follow turn d.state (log.drop d.eve) := by rw [hR.chain.good.events, hdrop]
    _ = Replay.follow turn root (log.take d.eve ++ log.drop d.eve) := by
        rw [Replay.follow_append, hR.snap.state, Option.bind_some]
    _ = some a := by rw [List.take_append_drop, ha]

/-- An epoch that is left out has no event, or is still there. -/
theorem noneLost_of_keeps (hR : Rests turn root log p c n x es) {q : Pier σ ε V} {eve : ℕ}
    (hk : Keeps ((n, x) :: es) q.epochs) :
    NoneLost p q eve := by
  intro m z hm hno i hi
  rcases hR.dirs with h | ⟨y, h, -, -, hev⟩
  · rw [h] at hm
    exact absurd (hk m (List.mem_map.mpr ⟨(m, z), hm, rfl⟩)) hno
  · rw [h] at hm
    rcases List.mem_cons.mp hm with heq | hm
    · obtain ⟨-, rfl⟩ := Prod.mk.inj heq
      rw [hev] at hi
      exact absurd hi (Nat.not_lt_zero _)
    · exact absurd (hk m (List.mem_map.mpr ⟨(m, z), hm, rfl⟩)) hno

/-- A pier whose latest epoch was selected. -/
theorem Rests.selected (hR : Rests turn root log p c n x es) (hd : d.Of turn root log) (hn : n ≤ d.eve) :
    Rests turn root log ⟨(n, x) :: es, .whole d⟩ d n x es := by
  refine ⟨rfl, hd, hn, hR.chain, ?_, .inl rfl⟩
  rcases hR.dirs with h | ⟨y, h, -⟩
  · exact h ▸ hR.copies
  · exact Copies.tail (h ▸ hR.copies)

variable {s s' : System σ ε V} {e : Event ε V} {mode : Mode} {yolo : Bool} {fault : Fault}

theorem spared_load (hs : Spared s (.load mode ver yolo fault)) (hR : Rests turn root log s.pier c n x es) :
    mode = .epoc → n ≠ 0 → ∃ d, x.image = some (.whole d) := by
  rintro rfl hn
  exact hs n x hR.target hn

/-- **What a load comes to.** -/
theorem load_left [DecidableEq V] (ver : V) (yolo : Bool) (fault : Fault) (hR : Rests turn root log p c n x es)
    (hw : mode = .epoc → n ≠ 0 → ∃ d, x.image = some (.whole d))
    (hlog : ∃ a, Replay.follow turn root log = some a) : ∃ d, (select root mode p).2 = some ⟨n, d⟩ ∧
      Reaches turn root log (select root mode p).1 ⟨n, d⟩ ∧ d.Of turn root log ∧
      Left turn root log ⟨(n, x) :: es, .whole d⟩ d (load root mode ver yolo fault p) := by
  obtain ⟨d, hsel, hd, hn⟩ := select_rests hR hw
  have hR' := hR.selected hd hn
  refine ⟨d, by rw [hsel], by rw [hsel]; exact reaches hR' rfl hlog, hd, ?_⟩
  unfold load
  rw [hsel]
  exact finish_left hR' rfl yolo fault

theorem inv_of_left {q : Pier σ ε V × Option (Run σ)} (hlog : ∃ a, Replay.follow turn root log = some a)
    (h : Left turn root log p d q) : Inv turn root ⟨q.1, q.2, log⟩ := by
  obtain ⟨m, y, fs, hR, hrun⟩ := h.rests
  refine ⟨hlog, d, m, y, fs, hR, fun r hr => ?_⟩
  obtain ⟨htop, hepo, hsnap⟩ := hrun r hr
  exact ⟨htop, hepo, hsnap ▸ hR.snap, hsnap ▸ hR.le⟩

/-- An event is committed. -/
theorem rests_commit (hR : Rests turn root log p c n x es) (hdirs : p.epochs = (n, x) :: es) (event : ε) :
    Rests turn root (log ++ [event])
      { p with epochs := (n, { x with db := x.db.map fun db => { db with events := db.events ++ [event] } }) :: es } c n
      { x with db := x.db.map fun db => { db with events := db.events ++ [event] } } es := by
  have hgood := hR.chain.good
  obtain ⟨db, hdb⟩ : ∃ db, x.db = some db := by
    have hs := hgood.saved
    unfold Epoch.saved at hs
    cases hdb : x.db with
    | none =>
      rw [hdb] at hs
      exact absurd hs Bool.false_ne_true
    | some db => exact ⟨db, rfl⟩
  have hev : db.events = log.drop n := by
    have h := hgood.events
    unfold Epoch.events at h
    rw [hdb] at h
    exact h
  have hlen : (log ++ [event]).length = log.length + 1 := by rw [List.length_append, List.length_singleton]
  have hgood' :
    Good (log ++ [event]) n { x with db := x.db.map fun db => { db with events := db.events ++ [event] } } := by
    refine ⟨hgood.epoc, ?_, hgood.le.trans (by rw [hlen]; exact Nat.le_succ _), ?_⟩
    · have hs := hgood.saved
      unfold Epoch.saved at hs ⊢
      rw [hdb] at hs ⊢
      exact hs
    · unfold Epoch.events
      rw [hdb, List.drop_append_of_le_length hgood.le, ← hev]
      rfl
  obtain ⟨hall, htail⟩ := List.pairwise_cons.mp hR.chain.older
  refine ⟨hR.chk, hR.snap.append _, hR.le, ⟨hgood', List.pairwise_cons.mpr ⟨fun q hq => hall q hq, htail⟩,
    fun h => ?_⟩, ?_,
    .inl rfl⟩
  · rw [hlen] at h
    exact absurd hgood.le (by omega)
  · intro m z hm hm0 a ha
    have hmem : ∃ w, (m, w) ∈ p.epochs ∧ w.image = z.image := by
      rw [hdirs]
      rcases List.mem_cons.mp hm with heq | hm
      · obtain ⟨rfl, rfl⟩ := Prod.mk.inj heq
        exact ⟨x, List.mem_cons_self, rfl⟩
      · exact ⟨z, List.mem_cons_of_mem _ hm, rfl⟩
    obtain ⟨w, hw, himg⟩ := hmem
    obtain ⟨h1, h2⟩ := hR.copies m w hw hm0 a (himg ▸ ha)
    exact ⟨h1, h2.append _⟩

/-- All but the latest two epochs are deleted. -/
theorem rests_chop (hR : Rests turn root log p c n x es) (hdirs : p.epochs = (n, x) :: es) :
    ∃ fs, Rests turn root log (diskChop p) c n x fs := by
  unfold diskChop
  split
  · exact ⟨es, hR⟩
  · rw [hdirs]
    refine ⟨es.take 1, hR.chk, hR.snap, hR.le, ⟨hR.chain.good, ?_, fun h h0 => ?_⟩, ?_, .inl rfl⟩
    · exact hR.chain.older.sublist ((List.take_sublist 1 es).cons_cons (n, x))
    · obtain ⟨m, y, fs, rfl, hy⟩ := hR.chain.before h h0
      exact ⟨m, y, [], rfl, hy⟩
    · intro m z hm
      refine hR.copies m z ?_
      rw [hdirs]
      exact List.mem_of_mem_take (show (m, z) ∈ ((n, x) :: es).take 2 from hm)

theorem noneLost_chop (hR : Rests turn root log p c n x es) (hdirs : p.epochs = (n, x) :: es) :
    NoneLost p (diskChop p) c.eve := by
  intro m z hm hno i hi
  unfold diskChop at hno
  split at hno
  · exact absurd (List.mem_map.mpr ⟨(m, z), hm, rfl⟩) hno
  · rw [hdirs] at hm hno
    rcases List.mem_cons.mp hm with heq | hm
    · obtain ⟨rfl, rfl⟩ := Prod.mk.inj heq
      exact absurd List.mem_cons_self hno
    · have ho := ((List.pairwise_cons.mp hR.chain.older).1 (m, z) hm).2
      have hle : m + z.events.length ≤ c.eve := ho.trans hR.le
      omega

/-- **A spared event keeps the pier at rest.** -/
theorem step_inv [DecidableEq V] (hI : Inv turn root s) (hs : Spared s e) (h : step turn root s e = some s') :
    Inv turn root s' := by
  obtain ⟨c, n, x, es, hR, hrun⟩ := hI.rests
  unfold step at h
  split at h
  · rename_i mode ver yolo fault hr
    obtain rfl := Option.some.inj h
    obtain ⟨d, -, -, -, hleft⟩ := load_left ver yolo fault hR (spared_load hs hR) hI.replays
    exact inv_of_left hI.replays hleft
  · rename_i r m y fs hr hdirs
    obtain ⟨htop, hepo, hof, hle⟩ := hrun r hr
    obtain ⟨hmn, hfs⟩ := List.cons.inj (hdirs.symm.trans htop)
    obtain ⟨rfl, rfl⟩ := Prod.mk.inj hmn
    obtain ⟨event, hev, h⟩ := Option.bind_eq_some_iff.mp h
    obtain ⟨a, ha, rfl⟩ := Option.map_eq_some_iff.mp h
    have hev' : s.log[r.snap.eve]? = some event := by
      rw [hR.chain.good.events, List.getElem?_drop, Nat.add_sub_cancel' hle] at hev
      exact hev
    obtain ⟨hlt, hget⟩ := List.getElem?_eq_some_iff.mp hev'
    refine ⟨hI.replays, c, m, y, es, hR, fun r' hr' => ?_⟩
    obtain rfl := Option.some.inj hr'
    refine ⟨htop, hepo, ⟨hlt, ?_⟩, hle.trans (Nat.le_succ _)⟩
    rw [List.take_succ_eq_append_getElem hlt, hget, Replay.follow_append, hof.state, Option.bind_some,
      Replay.follow, ha]
    rfl
  · rename_i event r m y fs hr hdirs
    obtain ⟨htop, hepo, hof, hle⟩ := hrun r hr
    obtain ⟨hmn, hfs⟩ := List.cons.inj (hdirs.symm.trans htop)
    obtain ⟨rfl, rfl⟩ := Prod.mk.inj hmn
    subst hfs
    split at h
    · rename_i hdun
      obtain ⟨a, ha, rfl⟩ := Option.map_eq_some_iff.mp h
      rw [hR.chain.good.dun_eq] at hdun
      have hlast : Replay.follow turn root (s.log ++ [event]) = some a := by
        have hst := hof.state
        rw [hdun, List.take_length] at hst
        rw [Replay.follow_append, hst, Option.bind_some, Replay.follow, ha]
        rfl
      refine ⟨⟨a, hlast⟩, c, m, _, fs, rests_commit hR hdirs event, fun r' hr' => ?_⟩
      obtain rfl := Option.some.inj hr'
      refine ⟨rfl, hepo, ⟨?_, ?_⟩, hle.trans (Nat.le_succ _)⟩
      · rw [List.length_append, List.length_singleton]
        exact Nat.succ_le_succ hof.le
      · rw [List.take_of_length_le (by rw [List.length_append, List.length_singleton, hdun])]
        exact hlast
    · exact absurd h.symm (Option.some_ne_none _)
  · rename_i r hr
    obtain rfl := Option.some.inj h
    obtain ⟨htop, hepo, hof, hle⟩ := hrun r hr
    refine ⟨hI.replays, r.snap, n, x, es, ⟨rfl, hof, hle, hR.chain, hR.copies, .inl htop⟩, fun r' hr' => ?_⟩
    obtain rfl := Option.some.inj (hr.symm.trans hr')
    exact ⟨htop, hepo, hof, hle⟩
  · obtain rfl := Option.some.inj h
    exact ⟨hI.replays, c, n, x, es, hR, fun r' hr' => absurd hr'.symm (Option.some_ne_none _)⟩
  · rename_i ver fault r hr
    obtain rfl := Option.some.inj h
    obtain ⟨htop, rfl, hof, hle⟩ := hrun r hr
    have hR' : Rests turn root s.log { s.pier with chk := .whole r.snap } r.snap r.epo x es :=
      ⟨rfl, hof, hle, hR.chain, hR.copies, .inl htop⟩
    exact inv_of_left hI.replays (diskRoll_left hR' htop ver fault)
  · rename_i r hr
    obtain rfl := Option.some.inj h
    obtain ⟨htop, -, -, -⟩ := hrun r hr
    obtain ⟨fs, hR'⟩ := rests_chop hR htop
    exact ⟨hI.replays, c, n, x, fs, hR', fun r' hr' => absurd hr'.symm (Option.some_ne_none _)⟩
  · exact absurd h.symm (Option.some_ne_none _)

/-- **An event is proper if and only if it is spared.** -/
theorem proper_iff [DecidableEq V] (hI : Inv turn root s) (h : step turn root s e = some s') :
    Spared s e ↔ Proper turn root s e := by
  obtain ⟨c, n, x, es, hR, hrun⟩ := hI.rests
  cases e with
  | load mode ver yolo fault =>
    constructor
    · intro hs
      obtain ⟨d, hsel, hreach, -, hleft⟩ := load_left ver yolo fault hR (spared_load hs hR) hI.replays
      exact ⟨⟨n, d⟩, hsel, hreach, noneLost_of_keeps hR hleft.keeps⟩
    · rintro ⟨r, hr, -⟩
      cases mode with
      | last => trivial
      | epoc =>
        intro m y ht hm
        obtain ⟨rfl, rfl⟩ := Prod.mk.inj (Option.some.inj (ht.symm.trans hR.target))
        by_contra hno
        have hnone := select_none hR hm fun d hd => hno ⟨d, hd⟩
        exact absurd (hr.symm.trans hnone) (Option.some_ne_none _)
  | roll ver fault =>
    cases hr : s.run with
    | none =>
      unfold step at h
      rw [hr] at h
      exact absurd h.symm (Option.some_ne_none _)
    | some r =>
      obtain ⟨htop, hepo, hof, hle⟩ := hrun r hr
      have hR' : Rests turn root s.log { s.pier with chk := .whole r.snap } r.snap n x es :=
        ⟨rfl, hof, hle, hR.chain, hR.copies, .inl htop⟩
      constructor
      · intro hs r' m y fs hr' hdirs
        obtain rfl := Option.some.inj (hr.symm.trans hr')
        obtain ⟨hmn, -⟩ := List.cons.inj (hdirs.symm.trans htop)
        obtain ⟨rfl, rfl⟩ := Prod.mk.inj hmn
        refine ⟨fun hg => ?_, ?_⟩
        · have hlen := gulf_empty_iff.mp hg
          have hne := hs m y es htop
          exact List.length_eq_zero_iff.mp (by omega)
        · subst hepo
          exact noneLost_of_keeps hR (htop ▸ (diskRoll_left hR' htop ver fault).keeps)
      · intro hp m y fs hdirs hone
        have hnil := (hp r m y fs hr hdirs).1 (gulf_empty_iff.mpr hone.le)
        rw [hnil] at hone
        exact absurd (show 0 = 1 from hone) (by decide)
  | chop =>
    cases hr : s.run with
    | none =>
      unfold step at h
      rw [hr] at h
      exact absurd h.symm (Option.some_ne_none _)
    | some r =>
      obtain ⟨htop, -, -, -⟩ := hrun r hr
      refine iff_of_true trivial fun d hd => ?_
      obtain rfl := Image.whole.inj (hR.chk.symm.trans hd)
      exact noneLost_chop hR htop
  | play => exact Iff.rfl
  | commit event => exact Iff.rfl
  | save => exact Iff.rfl
  | stop => exact Iff.rfl

/-! ### Runs -/

theorem inv_init (ver : V) : Inv turn root (.init root ver) := by
  refine ⟨⟨root, rfl⟩, ⟨0, root⟩, 0, _, [], ⟨rfl, ⟨le_refl _, rfl⟩, le_refl _,
    ⟨⟨rfl, rfl, le_refl _, rfl⟩, ?_, ?_⟩, ?_, .inl rfl⟩, ?_⟩
  · exact List.pairwise_singleton _ _
  · exact fun _ h => absurd rfl h
  · intro n x hm hn
    obtain ⟨rfl, -⟩ := Prod.mk.inj (List.mem_singleton.mp hm)
    exact absurd rfl hn
  · exact fun r hr => absurd hr.symm (Option.some_ne_none _)

/-- **Epochs in a run**: every load selects an epoch from which the last state is reached, nothing
newer is deleted, and only an epoch that is empty is taken for empty, if and only if no epoch with
one event is rolled by hand and no full replay is made from an epoch whose copy of the snapshot is
not whole. -/
theorem epochs_of_run [DecidableEq V] {ver : V} {l : List (Event ε V)}
    (h : Replay.follow (step turn root) (.init root ver) l = some s) :
    Replay.Along (step turn root) (Proper turn root) (.init root ver) l ↔ Replay.Along (step turn root) Spared
      (.init root ver) l :=
  (Replay.Along.congr_of (Inv turn root) (fun _ _ _ hI hs hstep => step_inv hI hs hstep)
    (fun _ _ _ hI hstep => proper_iff hI hstep) (inv_init ver) h).symm

/-- States that are sums of events. -/
def add (a event : ℕ) : Option ℕ := some (a + event)

/-- Two events are committed and the epoch is rolled by hand, which is stopped midway; the next
load falls back, and another runtime rolls. -/
def rolledRun : List (Event ℕ ℕ) :=
  [.load .last 1 false .none, .commit 5, .commit 6, .roll 1 (.crash 3), .load .last 1 false .none, .save, .stop,
    .load .last 2 false .none]

theorem rolledRun_proper : ∃ s, Replay.follow (step add 0) (.init 0 1) rolledRun = some s ∧
    s.pier.epochs.map Prod.fst = [2, 0] ∧ Replay.Along (step add 0) (Proper add 0) (.init 0 1) rolledRun := by
  have h : Replay.follow (step add 0) (.init 0 1) rolledRun = some _ := rfl
  refine
    ⟨_, h, rfl, (epochs_of_run h).mpr ⟨trivial, fun a ha => ⟨trivial, fun b hb => ⟨trivial, fun c hc => ⟨?_, fun _ _ =>
    ⟨trivial, fun _ _ => ⟨trivial, fun _ _ => ⟨trivial, fun _ _ => ⟨trivial, fun _ _ => trivial⟩⟩⟩⟩⟩⟩⟩⟩⟩
  obtain rfl := Option.some.inj ha
  obtain rfl := Option.some.inj hb
  obtain rfl := Option.some.inj hc
  intro n x es hdirs
  obtain ⟨hnx, -⟩ := List.cons.inj hdirs
  obtain ⟨-, rfl⟩ := Prod.mk.inj hnx
  decide

/-- One event is committed, and the epoch is refused by a manual roll as if it were empty. -/
theorem roll_one_event : ∃ s t, Replay.follow (step add 0) (.init 0 1) [.load .last 1 false .none, .commit 5] = some s ∧
    s.log = [5] ∧ step add 0 s (.roll 1 .none) = some t ∧ t.run.isNone ∧ t.pier.epochs.map Prod.fst = [0] ∧
    ¬ Replay.Along (step add 0) (Proper add 0) (.init 0 1) [.load .last 1 false .none, .commit 5, .roll 1 .none] := by
  refine ⟨_, _, rfl, rfl, rfl, rfl, rfl, fun hp => ?_⟩
  have hnil := (((hp.2 _ rfl).2 _ rfl).1 _ _ _ _ rfl rfl).1 rfl
  exact absurd hnil (by decide)

end Epochs
end Ursockets
