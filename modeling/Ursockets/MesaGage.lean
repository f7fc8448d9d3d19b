/-
# The congestion state of a lane

A lane keeps a window, a slow-start threshold, a timeout and the averages of the round trips in words
of 32 bits. An acknowledgement mixes its sample into the averages by integer arithmetic, a loss halves
the window. The timeout is clamped, so it is always in its range; the averages are the exact ones until
a sample, or an average times seven, does not fit, and the window is at least one until it wraps.

Key definitions: `initGage`, `lossGage`, `Lane`, `laneTurn`, `LaneRight`, `AckFits`.
Key theorems: `tryResend_gag`, `average_iff`, `ack_right_iff`, `lane_right_iff`.
-/
import Mathlib.Data.Nat.Dist
import Ursockets.Lib.Replay
import Ursockets.MesaResend

namespace Ursockets
namespace Mesa

/-! ### Acknowledgements and losses -/

/-- `_init_gage`: the fraction of the window is as the memory was. -/
def initGage (wnf : UInt32) : Gage := ⟨1000 * 1000, 200 * 1000, 1000 * 1000, 1, wnf, 10000, 0⟩

/-- A loss, as `_try_resend` takes it. -/
def lossGage (gag : Gage) : Gage :=
  let sst := if 1 < gag.wnd / 2 then gag.wnd / 2 else 1
  { gag with sst, wnd := sst, rto := (clampRto (gag.rto * 2).toUInt64).toUInt32 }

theorem Stamped.gag {r r' : PendReq} {now : UInt64} (h : Stamped r r' now) : r'.gag = r.gag := by
  obtain ⟨stat, -, rfl⟩ := h
  rfl

/-- The loop of `_try_resend` leaves the lane alone. -/
theorem resendLoop_gag {now : UInt64} {n : ℕ} {i : UInt64} {r r' : PendReq} {sent sent' : List Datagram}
    (h : resendLoop now n i r sent = .ok (r', sent')) : r'.gag = r.gag := by
  induction n generalizing i r sent with
  | zero =>
    obtain ⟨rfl, -⟩ := Prod.mk.inj (Except.ok.inj h)
    rfl
  | succ n ih =>
    rcases resendLoop_succ h with ⟨-, h⟩ | ⟨-, bytes, r1, hr1, h⟩
    · exact ih h
    · exact (ih h).trans hr1.gag

/-- **A call of `_try_resend` that sends anything is a loss**, and no other touches the lane. -/
theorem tryResend_gag {r r' : PendReq} {nex now : UInt64} {sent : List Datagram}
    (h : tryResend r nex now = .ok (r', sent)) : r'.gag = if sent = [] then r.gag else lossGage r.gag := by
  obtain ⟨⟨r1, sent1⟩, hloop, h⟩ := bind_eq_ok.mp h
  have hgag := resendLoop_gag hloop
  dsimp only at h
  split at h
  · next hs =>
    obtain ⟨rfl, rfl⟩ := Prod.mk.inj (Except.ok.inj h)
    rw [if_neg hs, ← hgag]
    rfl
  · next hs =>
    obtain ⟨rfl, rfl⟩ := Prod.mk.inj (Except.ok.inj h)
    rw [if_pos (not_not.mp hs), hgag]

/-- A round trip of microseconds, the clock having gone back or not. -/
def sample (pat : PactStat) (now : UInt64) : ℕ := now.toNat - pat.sen.toNat

inductive LaneEvent where
  | ack (pat : PactStat) (now : UInt64)
  | loss

/-- A lane, beside the averages that it should have. -/
structure Lane where
  gag : Gage
  rtt : ℕ
  rtv : ℕ

/-- A lane after an acknowledgement or a loss. -/
def laneTurn (a : Lane) : LaneEvent → Option Lane
  | .ack pat now => some
      ⟨mesaHandleAck a.gag pat now, (sample pat now + 7 * a.rtt) / 8, (Nat.dist (sample pat now) a.rtt + 7 * a.rtv) / 8⟩
  | .loss => some { a with gag := lossGage a.gag }

def Lane.start (wnf : UInt32) : Lane := ⟨initGage wnf, 1000 * 1000, 1000 * 1000⟩

/-- **A lane as it should be.** -/
structure LaneRight (a : Lane) : Prop where
  window : 1 ≤ a.gag.wnd.toNat
  threshold : 1 ≤ a.gag.sst.toNat
  timeout : 200000 ≤ a.gag.rto.toNat ∧ a.gag.rto.toNat ≤ 25000000
  rtt : a.gag.rtt.toNat = a.rtt
  rtv : a.gag.rtv.toNat = a.rtv

/-- An average and a sample that fit: seven times the average in 32 bits, and the sum in 35. -/
def SampleFits (s avg : ℕ) : Prop := 7 * avg < 2 ^ 32 ∧ s + 7 * avg < 2 ^ 35

/-- The acknowledgements that a lane takes right: the averages fit, and the window is not at its greatest when it
grows. -/
structure AckFits (gag : Gage) (pat : PactStat) (now : UInt64) : Prop where
  rtt : SampleFits (sample pat now) gag.rtt.toNat
  rtv : SampleFits (Nat.dist (sample pat now) gag.rtt.toNat) gag.rtv.toNat
  window : gag.wnd.toNat = 2 ^ 32 - 1 → gag.wnf + 1 < gag.wnd

def LaneFits (a : Lane) : LaneEvent → Prop
  | .ack pat now => AckFits a.gag pat now
  | .loss => True

/-! ### Averages -/

/-- **A word has the average just when it fits.** -/
theorem average_iff (s avg : ℕ) :
    (s + avg * 7 % 2 ^ 32) % 2 ^ 64 / 8 % 2 ^ 32 = (s + 7 * avg) / 8 ↔ SampleFits s avg := by
  unfold SampleFits
  constructor
  · intro h
    have hz := Nat.mod_le ((s + avg * 7 % 2 ^ 32) % 2 ^ 64 / 8) (2 ^ 32)
    have hw : (s + avg * 7 % 2 ^ 32) % 2 ^ 64 / 8 % 2 ^ 32 < 2 ^ 32 := Nat.mod_lt _ (by decide)
    have hle : (s + 7 * avg) / 8 ≤ (s + avg * 7 % 2 ^ 32) / 8 := by
      rw [h] at hz
      exact le_trans hz (Nat.div_le_div_right (Nat.mod_le _ _))
    rw [h] at hw
    omega
  · rintro ⟨h7, h35⟩
    have hlt : s + 7 * avg < 2 ^ 64 := by omega
    rw [Nat.mul_comm avg 7, Nat.mod_eq_of_lt h7, Nat.mod_eq_of_lt hlt, Nat.mod_eq_of_lt (by omega)]

theorem sample_toNat (pat : PactStat) (now : UInt64) :
    (if now < pat.sen then 0 else now - pat.sen).toNat = sample pat now := by
  unfold sample
  split
  · next h =>
    rw [UInt64.lt_iff_toNat_lt] at h
    exact (Nat.sub_eq_zero_of_le h.le).symm
  · next h => exact UInt64.toNat_sub_of_le _ _ (UInt64.not_lt.mp h)

theorem absDif_toNat (a b : UInt64) : (absDif a b).toNat = Nat.dist a.toNat b.toNat := by
  unfold absDif
  split
  · next h =>
    rw [UInt64.lt_iff_toNat_lt] at h
    rw [UInt64.toNat_sub_of_le _ _ (UInt64.le_iff_toNat_le.mpr h.le), Nat.dist_eq_sub_of_le_right h.le]
  · next h =>
    have hle : a.toNat ≤ b.toNat := UInt64.le_iff_toNat_le.mp (UInt64.not_lt.mp h)
    rw [UInt64.toNat_sub_of_le _ _ (UInt64.not_lt.mp h), Nat.dist_eq_sub_of_le hle]

theorem mixed_toNat (s : UInt64) (r : UInt32) :
    ((s + (r * 7).toUInt64) >>> 3).toUInt32.toNat = (s.toNat + r.toNat * 7 % 2 ^ 32) % 2 ^ 64 / 8 % 2 ^ 32 := by
  rw [UInt64.toNat_toUInt32, UInt64.toNat_shiftRight, UInt64.toNat_add, UInt32.toNat_toUInt64, UInt32.toNat_mul,
    show UInt32.toNat 7 = 7 from rfl, show UInt64.toNat 3 % 64 = 3 from rfl, Nat.shiftRight_eq_div_pow,
    show 2 ^ 3 = 8 from rfl]

/-- The timeout is in its range whatever it is made from. -/
theorem clampRto_range (x : UInt64) :
    200000 ≤ (clampRto x).toUInt32.toNat ∧ (clampRto x).toUInt32.toNat ≤ 25000000 := by
  have hrange : 200000 ≤ (clampRto x).toNat ∧ (clampRto x).toNat ≤ 25000000 := by
    unfold clampRto
    dsimp only
    split
    · next h1 =>
      rw [UInt64.lt_iff_toNat_lt] at h1
      split
      · next h2 =>
        rw [UInt64.lt_iff_toNat_lt] at h2
        exact ⟨h1.le, h2.le⟩
      · exact ⟨by decide, by decide⟩
    · split
      · exact ⟨by decide, by decide⟩
      · exact ⟨by decide, by decide⟩
  rw [UInt64.toNat_toUInt32, Nat.mod_eq_of_lt (by omega)]
  exact hrange

/-! ### The window -/

/-- The window after an acknowledgement is at least one but where it is at its greatest and grows. -/
theorem ack_window (gag : Gage) (pat : PactStat) (now : UInt64) (h : 1 ≤ gag.wnd.toNat) :
    1 ≤ (mesaHandleAck gag pat now).wnd.toNat ↔ (gag.wnd.toNat = 2 ^ 32 - 1 → gag.wnf + 1 < gag.wnd) := by
  have hlt := gag.wnd.toNat_lt
  have hgrow : (gag.wnd + 1).toNat = (gag.wnd.toNat + 1) % 2 ^ 32 := UInt32.toNat_add ..
  unfold mesaHandleAck
  dsimp only
  split
  · next hsst =>
    rw [UInt32.lt_iff_toNat_lt] at hsst
    have hmax := gag.sst.toNat_lt
    refine iff_of_true ?_ fun h => by omega
    show 1 ≤ (gag.wnd + 1).toNat
    rw [hgrow]
    omega
  · split
    · next hwnf =>
      show 1 ≤ (gag.wnd + 1).toNat ↔ _
      rw [hgrow]
      have hno : ¬ gag.wnf + 1 < gag.wnd := UInt32.not_lt.mpr hwnf
      constructor
      · intro h1 hmax
        rw [hmax] at h1
        exact absurd h1 (by decide)
      · intro h1
        have hmax : gag.wnd.toNat ≠ 2 ^ 32 - 1 := fun hmax => hno (h1 hmax)
        omega
    · next hwnf => exact iff_of_true h fun _ => UInt32.not_le.mp hwnf

theorem ack_fields (gag : Gage) (pat : PactStat) (now : UInt64) :
    (mesaHandleAck gag pat now).sst = gag.sst ∧
    (mesaHandleAck gag pat now).rtt.toNat =
      (sample pat now + gag.rtt.toNat * 7 % 2 ^ 32) % 2 ^ 64 / 8 % 2 ^ 32 ∧
    (mesaHandleAck gag pat now).rtv.toNat =
      (Nat.dist (sample pat now) gag.rtt.toNat + gag.rtv.toNat * 7 % 2 ^ 32) % 2 ^ 64 / 8 % 2 ^ 32 ∧
    200000 ≤ (mesaHandleAck gag pat now).rto.toNat ∧ (mesaHandleAck gag pat now).rto.toNat ≤ 25000000 := by
  have hrtt := mixed_toNat (if now < pat.sen then 0 else now - pat.sen) gag.rtt
  have hrtv := mixed_toNat (absDif (if now < pat.sen then 0 else now - pat.sen) gag.rtt.toUInt64) gag.rtv
  rw [sample_toNat] at hrtt
  rw [absDif_toNat, sample_toNat, UInt32.toNat_toUInt64] at hrtv
  unfold mesaHandleAck
  dsimp only
  split
  · exact ⟨rfl, hrtt, hrtv, clampRto_range _⟩
  · split
    · exact ⟨rfl, hrtt, hrtv, clampRto_range _⟩
    · exact ⟨rfl, hrtt, hrtv, clampRto_range _⟩

/-! ### One event -/

/-- **An acknowledgement is taken right just when it fits.** -/
theorem ack_right_iff {a : Lane} (h : LaneRight a) (pat : PactStat) (now : UInt64) :
    LaneRight ⟨mesaHandleAck a.gag pat now, (sample pat now + 7 * a.rtt) / 8,
      (Nat.dist (sample pat now) a.rtt + 7 * a.rtv) / 8⟩ ↔ AckFits a.gag pat now := by
  obtain ⟨hsst, hrtt, hrtv, hrto⟩ := ack_fields a.gag pat now
  have hwnd := ack_window a.gag pat now h.window
  rw [← h.rtt, ← h.rtv]
  constructor
  · intro hr
    exact ⟨(average_iff _ _).mp (hrtt.symm.trans hr.rtt), (average_iff _ _).mp (hrtv.symm.trans hr.rtv),
      hwnd.mp hr.window⟩
  · intro hf
    refine ⟨hwnd.mpr hf.window, ?_, hrto, hrtt.trans ((average_iff _ _).mpr hf.rtt),
      hrtv.trans ((average_iff _ _).mpr hf.rtv)⟩
    rw [hsst]
    exact h.threshold

/-- A loss halves the window, to one at least. -/
theorem loss_right {a : Lane} (h : LaneRight a) : LaneRight { a with gag := lossGage a.gag } := by
  have hsst : 1 ≤ (lossGage a.gag).sst.toNat := by
    show 1 ≤ (if 1 < a.gag.wnd / 2 then a.gag.wnd / 2 else 1).toNat
    split
    · next h1 =>
      rw [UInt32.lt_iff_toNat_lt] at h1
      exact h1.le
    · exact le_rfl
  exact ⟨hsst, hsst, clampRto_range _, h.rtt, h.rtv⟩

/-! ### Runs -/

theorem start_right (wnf : UInt32) : LaneRight (.start wnf) :=
  ⟨(show 1 ≤ 1 from le_rfl), (show 1 ≤ 10000 by decide), (show 200000 ≤ 200000 ∧ 200000 ≤ 25000000 by decide), rfl, rfl⟩

theorem laneTurn_follow (l : List LaneEvent) (a : Lane) : ∃ b, Replay.follow laneTurn a l = some b := by
  induction l generalizing a with
  | nil => exact ⟨a, rfl⟩
  | cons e l ih => cases e with
    | ack pat now => exact ih _
    | loss => exact ih _

/-- **A lane is as it should be all along just when every acknowledgement fits.** -/
theorem lane_right_iff (wnf : UInt32) (l : List LaneEvent) :
    (∀ n a, Replay.At laneTurn (.start wnf) l n a → LaneRight a) ↔
      Replay.Along laneTurn LaneFits (.start wnf) l := by
  obtain ⟨b, hb⟩ := laneTurn_follow l (.start wnf)
  refine Replay.Along.iff_all (fun _ => True) LaneRight (fun _ _ _ _ _ => trivial) ?_ trivial (start_right wnf) hb
  intro a e b _ ha ht
  cases e with
  | ack pat now =>
    obtain rfl := Option.some.inj ht
    exact ack_right_iff ha pat now
  | loss =>
    obtain rfl := Option.some.inj ht
    exact iff_of_true (loss_right ha) trivial

/-- A sample of ten hours, from a clock that was set, does not fit. -/
theorem clock_step_wraps : ¬ ∀ n a,
    Replay.At laneTurn (.start 0) [.ack ⟨1, 0, 0⟩ 36000000000] n a → LaneRight a := by
  intro h
  have hr := h 1 _ ⟨le_rfl, rfl⟩
  have hf := (ack_right_iff (start_right 0) ⟨1, 0, 0⟩ 36000000000).mp hr
  exact absurd hf.rtt.2 (by decide)

end Mesa
end Ursockets
