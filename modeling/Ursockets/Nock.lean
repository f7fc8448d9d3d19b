/-
# Nock, and formulas that cannot crash

A formula is run on a subject and gives a noun, crashes, or goes on without end. Before
a formula is compiled two tests look at it: one for whether it can crash, with the
constant it gives if it gives one, and one for a constant under hints. What they say
holds on every subject, so a formula that is known to be constant can be left out of
what is compiled.

Key definitions: `nock`, `Halts`, `Same`, `u3rSafe`, `u3rSkip`, `compTest`, `compTests`.
Key theorems: `halts_unique`, `safe_sound`, `skip_sound`, `compTests_halts`, `skip_safe_sound`.
-/
import Ursockets.Noun
import Ursockets.Lib.Fuel
import Mathlib.Data.Option.Basic

namespace Ursockets
namespace Nock

open Fuel

/-! ### Running a formula -/

/-- `u3at`: the part of a noun at an axis. -/
def axis (ax : ℕ) (x : Noun) : Option Noun :=
  if ax = 0 then none
  else if ax = 1 then some x
  else
    match axis (ax / 2) x with
    | some (.cell h t) => some (if ax % 2 = 0 then h else t)
    | _ => none
  termination_by ax

/-- A noun with the part at an axis replaced. -/
def edit (ax : ℕ) (x new : Noun) : Option Noun :=
  if ax = 0 then none
  else if ax = 1 then some new
  else
    match axis (ax / 2) x with
    | some (.cell h t) => edit (ax / 2) x (if ax % 2 = 0 then .cell new t else .cell h new)
    | _ => none
  termination_by ax

/-- A part that is not there crashes the run. -/
def orCrash : Option Noun → Option (Res Noun)
  | some x => some (.done x)
  | none => some .crash

/-- `c3y` and `c3n` as nouns. -/
def loob (b : Bool) : Noun := .atom (if b then 0 else 1)

/-- `u3du` -/
def du : Noun → Bool
  | .cell _ _ => true
  | .atom _ => false

/-- `u3i_vint`: the next atom. -/
def bump : Noun → Option Noun
  | .cell _ _ => none
  | .atom a => some (.atom (a + 1))

/-- One level of a formula, with the runs of its parts given. Hints change no product; `esc` is what is looked up
outside. -/
def nockOne (esc : Noun → Noun → Option Noun) (ev : Noun → Noun → Option (Res Noun)) (bus : Noun) :
    Noun → Option (Res Noun)
  | .cell (.cell h t) arg => andThen (ev bus (.cell h t)) fun poz => andThen (ev bus arg) fun riv =>
    some (.done (.cell poz riv))
  | .cell (.atom 0) (.atom ax) => orCrash (axis ax bus)
  | .cell (.atom 1) arg => some (.done arg)
  | .cell (.atom 2) (.cell hed tel) => andThen (ev bus hed) fun seb => andThen (ev bus tel) fun nex => ev seb nex
  | .cell (.atom 3) arg => andThen (ev bus arg) fun gof => some (.done (loob (du gof)))
  | .cell (.atom 4) arg => andThen (ev bus arg) fun gof => orCrash (bump gof)
  | .cell (.atom 5) (.cell hed tel) => andThen (ev bus hed) fun a => andThen (ev bus tel) fun b =>
    some (.done (loob (a = b)))
  | .cell (.atom 6) (.cell hed (.cell mid tel)) => andThen (ev bus hed) fun tys =>
    if tys = .atom 0 then ev bus mid else if tys = .atom 1 then ev bus tel else some .crash
  | .cell (.atom 7) (.cell hed tel) => andThen (ev bus hed) fun bod => ev bod tel
  | .cell (.atom 8) (.cell hed tel) => andThen (ev bus hed) fun heb => ev (.cell heb bus) tel
  | .cell (.atom 9) (.cell (.atom ax) tel) => andThen (ev bus tel) fun seb =>
    andThen (orCrash (axis ax seb)) fun nex => ev seb nex
  | .cell (.atom 10) (.cell (.cell (.atom axe) nef) tel) =>
    andThen (ev bus tel) fun x => andThen (ev bus nef) fun new =>
    orCrash (edit axe x new)
  | .cell (.atom 11) (.cell (.atom _) nef) => ev bus nef
  | .cell (.atom 11) (.cell (.cell _ hod) nef) => andThen (ev bus hod) fun _ => ev bus nef
  | .cell (.atom 12) (.cell hed tel) => andThen (ev bus hed) fun ref => andThen (ev bus tel) fun gof =>
    orCrash (esc ref gof)
  | _ => some .crash

/-- What a formula gives on a subject, if it gives it within a depth. -/
def nock (esc : Noun → Noun → Option Noun) : ℕ → Noun → Noun → Option (Res Noun)
  | 0, _, _ => none
  | n + 1, bus, fol => nockOne esc (nock esc n) bus fol

/-- The run of a formula ends at a result. -/
def Halts (esc : Noun → Noun → Option Noun) (bus fol : Noun) : Res Noun → Prop := Ends fun n => nock esc n bus fol

/-- Two formulas that give the same on every subject. -/
def Same (esc : Noun → Noun → Option Noun) (fol fol' : Noun) : Prop := ∀ s r, Halts esc s fol r ↔ Halts esc s fol' r

/-! ### The tests of a formula -/

/-- `u3r_skip`: a constant under hints; `none` is a hint without a formula, which crashes. -/
def u3rSkip : Noun → Option (Option Noun)
  | .cell (.atom 1) arg => some (some arg)
  | .cell (.atom 11) (.cell (.atom _) nef) => u3rSkip nef
  | .cell (.atom 11) (.cell (.cell _ hod) nef) =>
    match u3rSkip hod with
    | none => none
    | some none => some none
    | some (some _) => u3rSkip nef
  | .cell (.atom 11) (.atom _) => none
  | _ => some none

/-- `u3r_safe`: `none` is no; yes comes with the constant, if there is one. -/
def u3rSafe : Noun → Option (Option Noun)
  | .cell (.atom 0) (.atom 1) => some none
  | .cell (.atom 1) arg => some (some arg)
  | .cell (.atom 3) arg => (u3rSafe arg).map fun o => o.map fun x => loob (du x)
  | .cell (.atom 5) (.cell p q) =>
    match u3rSafe p, u3rSafe q with
    | some o1, some o2 => some (o1.bind fun x => o2.map fun y => loob (x = y))
    | _, _ => none
  | .cell (.atom 6) (.cell p (.cell q r)) =>
    match u3rSafe p with
    | some (some (.atom 0)) => u3rSafe q
    | some (some (.atom 1)) => u3rSafe r
    | _ => none
  | .cell (.atom 7) (.cell p q) => (u3rSafe p).bind fun _ => u3rSafe q
  | .cell (.atom 8) (.cell p q) => (u3rSafe p).bind fun _ => u3rSafe q
  | _ => none

/-- What `_n_comp` compiles for `[6 hed mid tel]`: of a constant test the one branch, or a crash. -/
def compTest (hed mid tel : Noun) : Noun :=
  match u3rSafe hed with
  | some (some (.atom 0)) => mid
  | some (some (.atom 1)) => tel
  | some (some _) => .cell (.atom 0) (.atom 0)
  | _ => .cell (.atom 6) (.cell hed (.cell mid tel))

/-- The tests taken out of a formula and of its parts, as they are when it is compiled; a part that is no formula
crashes. -/
def compTests : Noun → Noun
  | .atom _ => .cell (.atom 0) (.atom 0)
  | .cell (.cell h t) arg => .cell (compTests (.cell h t)) (compTests arg)
  | .cell (.atom 2) (.cell hed tel) => .cell (.atom 2) (.cell (compTests hed) (compTests tel))
  | .cell (.atom 3) arg => .cell (.atom 3) (compTests arg)
  | .cell (.atom 4) arg => .cell (.atom 4) (compTests arg)
  | .cell (.atom 5) (.cell hed tel) => .cell (.atom 5) (.cell (compTests hed) (compTests tel))
  | .cell (.atom 6) (.cell hed (.cell mid tel)) =>
    match u3rSafe hed with
    | some (some (.atom 0)) => compTests mid
    | some (some (.atom 1)) => compTests tel
    | some (some _) => .cell (.atom 0) (.atom 0)
    | _ => .cell (.atom 6) (.cell (compTests hed) (.cell (compTests mid) (compTests tel)))
  | .cell (.atom 7) (.cell hed tel) => .cell (.atom 7) (.cell (compTests hed) (compTests tel))
  | .cell (.atom 8) (.cell hed tel) => .cell (.atom 8) (.cell (compTests hed) (compTests tel))
  | .cell (.atom 9) (.cell ax tel) => .cell (.atom 9) (.cell ax (compTests tel))
  | .cell (.atom 10) (.cell (.cell axe nef) tel) =>
    .cell (.atom 10) (.cell (.cell axe (compTests nef)) (compTests tel))
  | .cell (.atom 11) (.cell (.atom zep) nef) => .cell (.atom 11) (.cell (.atom zep) (compTests nef))
  | .cell (.atom 11) (.cell (.cell zep hod) nef) =>
    .cell (.atom 11) (.cell (.cell zep (compTests hod)) (compTests nef))
  | .cell (.atom 12) (.cell hed tel) => .cell (.atom 12) (.cell (compTests hed) (compTests tel))
  | fol => fol

/-! ### More depth -/

variable {esc : Noun → Noun → Option Noun}

theorem nockOne_below {ev ev' : Noun → Noun → Option (Res Noun)} (h : ∀ s f, Below (ev s f) (ev' s f))
    (bus fol : Noun) : Below (nockOne esc ev bus fol) (nockOne esc ev' bus fol) := by
  unfold nockOne
  split
  · exact below_andThen (h _ _) fun _ => below_andThen (h _ _) fun _ => Below.rfl
  · exact Below.rfl
  · exact Below.rfl
  · exact below_andThen (h _ _) fun _ => below_andThen (h _ _) fun _ => h _ _
  · exact below_andThen (h _ _) fun _ => Below.rfl
  · exact below_andThen (h _ _) fun _ => Below.rfl
  · exact below_andThen (h _ _) fun _ => below_andThen (h _ _) fun _ => Below.rfl
  · refine below_andThen (h _ _) fun tys => ?_
    split
    · exact h _ _
    · split
      · exact h _ _
      · exact Below.rfl
  · exact below_andThen (h _ _) fun _ => h _ _
  · exact below_andThen (h _ _) fun _ => h _ _
  · exact below_andThen (h _ _) fun _ => below_andThen Below.rfl fun _ => h _ _
  · exact below_andThen (h _ _) fun _ => below_andThen (h _ _) fun _ => Below.rfl
  · exact h _ _
  · exact below_andThen (h _ _) fun _ => h _ _
  · exact below_andThen (h _ _) fun _ => below_andThen (h _ _) fun _ => Below.rfl
  · exact Below.rfl

theorem nock_steady (bus fol : Noun) : Steady fun n => nock esc n bus fol := by
  intro n
  induction n generalizing bus fol with
  | zero => exact fun m _ => below_none
  | succ n ih =>
    intro m hm
    obtain ⟨m, rfl⟩ : ∃ m', m = m' + 1 := ⟨m - 1, by omega⟩
    exact nockOne_below (fun s f => ih s f m (Nat.le_of_succ_le_succ hm)) bus fol

/-- **A formula gives one result on a subject.** -/
theorem halts_unique {bus fol : Noun} {r r' : Res Noun} (h : Halts esc bus fol r) (h' : Halts esc bus fol r') :
    r = r' :=
  ends_unique (nock_steady bus fol) h h'

theorem nock_gives (bus fol : Noun) : Gives (fun n => nock esc n bus fol) (Halts esc bus fol) :=
  gives_ends (nock_steady bus fol)

/-- A formula ends at what its opcode, run on what its parts give, ends at. -/
theorem halts_of_gives {bus fol : Noun} {P : Res Noun → Prop} {r : Res Noun}
    (h : Gives (fun n => nockOne esc (nock esc n) bus fol) P) : Halts esc bus fol r ↔ P r :=
  (ends_succ rfl).trans (h.iff r)

/-! ### What each opcode gives -/

section opcodes

variable (bus : Noun) (r : Res Noun)

theorem halts_cons (h t arg : Noun) : Halts esc bus (.cell (.cell h t) arg) r ↔
    Then (Halts esc bus (.cell h t)) (fun poz => Then (Halts esc bus arg) fun riv r => r = .done (.cell poz riv)) r :=
  halts_of_gives ((nock_gives _ _).then fun _ => (nock_gives _ _).then fun _ => gives_res)

theorem halts_axis (ax : ℕ) : Halts esc bus (.cell (.atom 0) (.atom ax)) r ↔ orCrash (axis ax bus) = some r :=
  halts_of_gives (P := fun r => orCrash (axis ax bus) = some r) gives_const

theorem halts_const (arg : Noun) : Halts esc bus (.cell (.atom 1) arg) r ↔ r = .done arg :=
  halts_of_gives (P := fun r => r = .done arg) gives_res

theorem halts_nock (hed tel : Noun) : Halts esc bus (.cell (.atom 2) (.cell hed tel)) r ↔
    Then (Halts esc bus hed) (fun seb => Then (Halts esc bus tel) fun nex => Halts esc seb nex) r :=
  halts_of_gives ((nock_gives _ _).then fun _ => (nock_gives _ _).then fun _ => nock_gives _ _)

theorem halts_deep (arg : Noun) : Halts esc bus (.cell (.atom 3) arg) r ↔
    Then (Halts esc bus arg) (fun gof r => r = .done (loob (du gof))) r :=
  halts_of_gives ((nock_gives _ _).then fun _ => gives_res)

theorem halts_bump (arg : Noun) : Halts esc bus (.cell (.atom 4) arg) r ↔
    Then (Halts esc bus arg) (fun gof r => orCrash (bump gof) = some r) r :=
  halts_of_gives ((nock_gives _ _).then fun _ => gives_const)

theorem halts_same (hed tel : Noun) : Halts esc bus (.cell (.atom 5) (.cell hed tel)) r ↔
    Then (Halts esc bus hed) (fun a => Then (Halts esc bus tel) fun b r => r = .done (loob (a = b))) r :=
  halts_of_gives ((nock_gives _ _).then fun _ => (nock_gives _ _).then fun _ => gives_res)

theorem halts_test (hed mid tel : Noun) : Halts esc bus (.cell (.atom 6) (.cell hed (.cell mid tel))) r ↔
    Then (Halts esc bus hed) (fun tys r => if tys = .atom 0 then Halts esc bus mid r
      else if tys = .atom 1 then Halts esc bus tel r else r = .crash) r :=
  halts_of_gives ((nock_gives _ _).then fun _ => (nock_gives _ _).ite ((nock_gives _ _).ite gives_res))

theorem halts_comp (hed tel : Noun) : Halts esc bus (.cell (.atom 7) (.cell hed tel)) r ↔
    Then (Halts esc bus hed) (fun bod => Halts esc bod tel) r :=
  halts_of_gives ((nock_gives _ _).then fun _ => nock_gives _ _)

theorem halts_push (hed tel : Noun) : Halts esc bus (.cell (.atom 8) (.cell hed tel)) r ↔
    Then (Halts esc bus hed) (fun heb => Halts esc (.cell heb bus) tel) r :=
  halts_of_gives ((nock_gives _ _).then fun _ => nock_gives _ _)

theorem halts_kick (ax : ℕ) (tel : Noun) : Halts esc bus (.cell (.atom 9) (.cell (.atom ax) tel)) r ↔
    Then (Halts esc bus tel) (fun seb => Then (fun r => orCrash (axis ax seb) = some r) fun nex =>
      Halts esc seb nex) r :=
  halts_of_gives ((nock_gives _ _).then fun _ => gives_const.then fun _ => nock_gives _ _)

theorem halts_edit (axe : ℕ) (nef tel : Noun) :
    Halts esc bus (.cell (.atom 10) (.cell (.cell (.atom axe) nef) tel)) r ↔
    Then (Halts esc bus tel) (fun x => Then (Halts esc bus nef) fun new r => orCrash (edit axe x new) = some r) r :=
  halts_of_gives ((nock_gives _ _).then fun _ => (nock_gives _ _).then fun _ => gives_const)

theorem halts_hint (zep : ℕ) (nef : Noun) : Halts esc bus (.cell (.atom 11) (.cell (.atom zep) nef)) r ↔
    Halts esc bus nef r :=
  halts_of_gives (nock_gives _ _)

theorem halts_clue (zep hod nef : Noun) : Halts esc bus (.cell (.atom 11) (.cell (.cell zep hod) nef)) r ↔
    Then (Halts esc bus hod) (fun _ => Halts esc bus nef) r :=
  halts_of_gives ((nock_gives _ _).then fun _ => nock_gives _ _)

theorem halts_scry (hed tel : Noun) : Halts esc bus (.cell (.atom 12) (.cell hed tel)) r ↔
    Then (Halts esc bus hed) (fun ref => Then (Halts esc bus tel) fun gof r => orCrash (esc ref gof) = some r) r :=
  halts_of_gives ((nock_gives _ _).then fun _ => (nock_gives _ _).then fun _ => gives_const)

end opcodes

/-! ### What the tests say -/

/-- A formula that gives a noun on every subject: the constant, if there is one. -/
def SafeAs (esc : Noun → Noun → Option Noun) (fol : Noun) (o : Option Noun) : Prop :=
  ∀ s, ∃ x, (∀ r, Halts esc s fol r ↔ r = .done x) ∧ ∀ c, o = some c → x = c

theorem SafeAs.const {fol c : Noun} (h : SafeAs esc fol (some c)) (s : Noun) (r : Res Noun) :
    Halts esc s fol r ↔ r = .done c := by
  obtain ⟨x, hx, hc⟩ := h s
  rw [hx, hc c rfl]

theorem safe_axis : SafeAs esc (.cell (.atom 0) (.atom 1)) none := by
  intro s
  refine ⟨s, fun r => ?_, by simp⟩
  rw [halts_axis, axis]
  simp [orCrash, eq_comm]

theorem safe_const (arg : Noun) : SafeAs esc (.cell (.atom 1) arg) (some arg) :=
  fun s => ⟨arg, fun r => halts_const s r arg, fun _ h => Option.some.inj h⟩

theorem SafeAs.deep {arg : Noun} {o : Option Noun} (h : SafeAs esc arg o) :
    SafeAs esc (.cell (.atom 3) arg) (o.map fun x => loob (du x)) := by
  intro s
  obtain ⟨x, hx, hc⟩ := h s
  refine ⟨loob (du x), fun r => ?_, fun c hm => ?_⟩
  · rw [halts_deep, Then.of_done hx]
  · obtain ⟨y, hy, rfl⟩ := Option.map_eq_some_iff.mp hm
    rw [hc y hy]

theorem SafeAs.same {p q : Noun} {o1 o2 : Option Noun} (hp : SafeAs esc p o1) (hq : SafeAs esc q o2) :
    SafeAs esc (.cell (.atom 5) (.cell p q)) (o1.bind fun x => o2.map fun y => loob (x = y)) := by
  intro s
  obtain ⟨x, hx, hcx⟩ := hp s
  obtain ⟨y, hy, hcy⟩ := hq s
  refine ⟨loob (x = y), fun r => ?_, fun c hm => ?_⟩
  · rw [halts_same, Then.of_done hx, Then.of_done hy]
  · obtain ⟨x', hx', hm⟩ := Option.bind_eq_some_iff.mp hm
    obtain ⟨y', hy', rfl⟩ := Option.map_eq_some_iff.mp hm
    rw [hcx x' hx', hcy y' hy']

/-- Of a test that is the constant yes only the first branch is run. -/
theorem halts_test_yes {hed : Noun} (h : SafeAs esc hed (some (.atom 0))) (mid tel s : Noun) (r : Res Noun) :
    Halts esc s (.cell (.atom 6) (.cell hed (.cell mid tel))) r ↔ Halts esc s mid r := by
  rw [halts_test, Then.of_done (h.const s), if_pos rfl]

/-- Of a test that is the constant no only the second branch is run. -/
theorem halts_test_no {hed : Noun} (h : SafeAs esc hed (some (.atom 1))) (mid tel s : Noun) (r : Res Noun) :
    Halts esc s (.cell (.atom 6) (.cell hed (.cell mid tel))) r ↔ Halts esc s tel r := by
  rw [halts_test, Then.of_done (h.const s), if_neg (by decide), if_pos rfl]

theorem SafeAs.of_same {fol fol' : Noun} {o : Option Noun} (h : SafeAs esc fol' o) (hs : Same esc fol fol') :
    SafeAs esc fol o := by
  intro s
  obtain ⟨x, hx, hc⟩ := h s
  exact ⟨x, fun r => (hs s r).trans (hx r), hc⟩

theorem SafeAs.comp {p q : Noun} {o1 o2 : Option Noun} (hp : SafeAs esc p o1) (hq : SafeAs esc q o2) :
    SafeAs esc (.cell (.atom 7) (.cell p q)) o2 := by
  intro s
  obtain ⟨x, hx, -⟩ := hp s
  obtain ⟨y, hy, hc⟩ := hq x
  exact ⟨y, fun r => by rw [halts_comp, Then.of_done hx, hy], hc⟩

theorem SafeAs.push {p q : Noun} {o1 o2 : Option Noun} (hp : SafeAs esc p o1) (hq : SafeAs esc q o2) :
    SafeAs esc (.cell (.atom 8) (.cell p q)) o2 := by
  intro s
  obtain ⟨x, hx, -⟩ := hp s
  obtain ⟨y, hy, hc⟩ := hq (.cell x s)
  exact ⟨y, fun r => by rw [halts_push, Then.of_done hx, hy], hc⟩

/-- **A formula of which `u3rSafe` says yes gives a noun on every subject.** -/
theorem safe_sound : ∀ {fol : Noun} {o : Option Noun}, u3rSafe fol = some o → SafeAs esc fol o := by
  intro fol
  induction fol using u3rSafe.induct with
  | case1 =>
    intro o h
    rw [u3rSafe] at h
    obtain rfl := Option.some.inj h
    exact safe_axis
  | case2 arg =>
    intro o h
    rw [u3rSafe] at h
    obtain rfl := Option.some.inj h
    exact safe_const arg
  | case3 arg ih =>
    intro o h
    rw [u3rSafe] at h
    obtain ⟨o', ho, rfl⟩ := Option.map_eq_some_iff.mp h
    exact (ih ho).deep
  | case4 p q o1 o2 h2 h1 ihp ihq =>
    intro o h
    rw [u3rSafe, h1, h2] at h
    obtain rfl := Option.some.inj h
    exact (ihp h1).same (ihq h2)
  | case5 p q hn =>
    intro o h
    rw [u3rSafe] at h
    split at h
    · rename_i h1 h2
      exact (hn _ _ h1 h2).elim
    · cases h
  | case6 p q r h1 ihp ihq =>
    intro o h
    rw [u3rSafe, h1] at h
    exact (ihq h).of_same fun s r' => halts_test_yes (ihp h1) q r s r'
  | case7 p q r h1 ihp ihr =>
    intro o h
    rw [u3rSafe, h1] at h
    exact (ihr h).of_same fun s r' => halts_test_no (ihp h1) q r s r'
  | case8 p q r h0 h1 =>
    intro o h
    rw [u3rSafe] at h
    split at h
    · rename_i hp
      exact (h0 hp).elim
    · rename_i hp
      exact (h1 hp).elim
    · cases h
  | case9 p q ihp ihq =>
    intro o h
    rw [u3rSafe] at h
    obtain ⟨o', hp, hq⟩ := Option.bind_eq_some_iff.mp h
    exact (ihp hp).comp (ihq hq)
  | case10 p q ihp ihq =>
    intro o h
    rw [u3rSafe] at h
    obtain ⟨o', hp, hq⟩ := Option.bind_eq_some_iff.mp h
    exact (ihp hp).push (ihq hq)
  | case11 t h0 h1 h3 h5 h6 h7 h8 =>
    intro o h
    rw [u3rSafe.eq_8 t h0 h1 h3 h5 h6 h7 h8] at h
    cases h

/-- **What `u3rSkip` reports is what the formula gives on every subject.** -/
theorem skip_sound : ∀ {fol c : Noun}, u3rSkip fol = some (some c) → SafeAs esc fol (some c) := by
  intro fol
  induction fol using u3rSkip.induct with
  | case1 arg =>
    intro c h
    rw [u3rSkip] at h
    obtain rfl := Option.some.inj (Option.some.inj h)
    exact safe_const arg
  | case2 zep nef ih =>
    intro c h
    rw [u3rSkip] at h
    exact (ih h).of_same fun s r => halts_hint s r zep nef
  | case3 zep hod nef hn =>
    intro c h
    rw [u3rSkip, hn] at h
    cases h
  | case4 zep hod nef hn =>
    intro c h
    rw [u3rSkip, hn] at h
    cases h
  | case5 zep hod nef val hv ihh ihn =>
    intro c h
    rw [u3rSkip, hv] at h
    refine (ihn h).of_same fun s r => ?_
    rw [halts_clue, Then.of_done ((ihh hv).const s)]
  | case6 a =>
    intro c h
    rw [u3rSkip] at h
    cases h
  | case7 t h1 h2 h3 h4 =>
    intro c h
    rw [u3rSkip.eq_5 t h1 h2 h3 h4] at h
    cases h

/-! ### A formula compiled without its constant tests -/

theorem halts_crash (bus : Noun) (r : Res Noun) : Halts esc bus (.cell (.atom 0) (.atom 0)) r ↔ r = .crash := by
  rw [halts_axis, axis]
  simp [orCrash, eq_comm]

theorem halts_atom (bus : Noun) (a : ℕ) (r : Res Noun) : Halts esc bus (.atom a) r ↔ r = .crash :=
  halts_of_gives (P := fun r => r = .crash) gives_res

theorem halts_kick_cell (bus h t tel : Noun) (r : Res Noun) :
    Halts esc bus (.cell (.atom 9) (.cell (.cell h t) tel)) r ↔ r = .crash :=
  halts_of_gives (P := fun r => r = .crash) gives_res

theorem halts_edit_cell (bus h t nef tel : Noun) (r : Res Noun) :
    Halts esc bus (.cell (.atom 10) (.cell (.cell (.cell h t) nef) tel)) r ↔ r = .crash :=
  halts_of_gives (P := fun r => r = .crash) gives_res

/-- A constant test that is no answer crashes. -/
theorem halts_test_bail {hed x : Noun} (h : SafeAs esc hed (some x)) (h0 : x ≠ .atom 0) (h1 : x ≠ .atom 1)
    (mid tel s : Noun) (r : Res Noun) : Halts esc s (.cell (.atom 6) (.cell hed (.cell mid tel))) r ↔ r = .crash := by
  rw [halts_test, Then.of_done (h.const s), if_neg h0, if_neg h1]

/-- **A test compiled as a constant is the test.** -/
theorem compTest_same (hed mid tel : Noun) :
    Same esc (compTest hed mid tel) (.cell (.atom 6) (.cell hed (.cell mid tel))) := by
  intro s r
  unfold compTest
  split
  · rename_i h
    exact (halts_test_yes (safe_sound h) mid tel s r).symm
  · rename_i h
    exact (halts_test_no (safe_sound h) mid tel s r).symm
  · rename_i x h1 h0 h
    rw [halts_crash, halts_test_bail (safe_sound h) h1 h0]
  · exact Iff.rfl

/-- What is compiled is a cell, also where the formula is none. -/
theorem compTests_cell (fol : Noun) : ∃ h t, compTests fol = .cell h t := by
  induction fol using compTests.induct with
  | case7 hed mid tel h ih =>
    rw [compTests, h]
    exact ih
  | case8 hed mid tel h ih =>
    rw [compTests, h]
    exact ih
  | case9 hed mid tel x h0 h1 h =>
    rw [compTests, h]
    split
    · simp_all
    · simp_all
    · exact ⟨_, _, rfl⟩
    · exact ⟨_, _, rfl⟩
  | case10 hed mid tel h0 h1 h =>
    rw [compTests]
    split
    · simp_all
    · simp_all
    · exact ⟨_, _, rfl⟩
    · exact ⟨_, _, rfl⟩
  | case18 fol h0 =>
    cases fol with
    | atom a => exact (h0 a rfl).elim
    | cell h t => exact ⟨h, t, by rw [compTests] <;> assumption⟩
  | _ => simp [compTests]

theorem compTests_halts (fol : Noun) : ∀ s, Halts esc s (compTests fol) = Halts esc s fol := by
  induction fol using compTests.induct with
  | case1 a =>
    intro s
    funext r
    rw [compTests, halts_crash, halts_atom]
  | case2 h t arg ih1 ih2 =>
    intro s
    funext r
    obtain ⟨h', t', hc⟩ := compTests_cell (.cell h t)
    rw [hc] at ih1
    rw [compTests, hc, halts_cons, halts_cons, ih1, ih2]
  | case3 hed tel ih1 ih2 =>
    intro s
    funext r
    rw [compTests, halts_nock, halts_nock, ih1, ih2]
  | case4 arg ih =>
    intro s
    funext r
    rw [compTests, halts_deep, halts_deep, ih]
  | case5 arg ih =>
    intro s
    funext r
    rw [compTests, halts_bump, halts_bump, ih]
  | case6 hed tel ih1 ih2 =>
    intro s
    funext r
    rw [compTests, halts_same, halts_same, ih1, ih2]
  | case7 hed mid tel h ih =>
    intro s
    funext r
    rw [compTests, h, halts_test_yes (safe_sound h)]
    exact congrFun (ih s) r
  | case8 hed mid tel h ih =>
    intro s
    funext r
    rw [compTests, h, halts_test_no (safe_sound h)]
    exact congrFun (ih s) r
  | case9 hed mid tel x h0 h1 h =>
    intro s
    funext r
    rw [halts_test_bail (safe_sound h) h0 h1, ← halts_crash s, compTests, h]
    split
    · simp_all
    · simp_all
    · rfl
    · simp_all
  | case10 hed mid tel h0 h1 hx ih1 ih2 ih3 =>
    intro s
    funext r
    rw [compTests]
    split
    · simp_all
    · simp_all
    · simp_all
    · rw [halts_test, halts_test, ih1, ih2, ih3]
  | case11 hed tel ih1 ih2 =>
    intro s
    funext r
    rw [compTests, halts_comp, halts_comp, ih1]
    simp only [ih2]
  | case12 hed tel ih1 ih2 =>
    intro s
    funext r
    rw [compTests, halts_push, halts_push, ih1]
    simp only [ih2]
  | case13 ax tel ih =>
    intro s
    funext r
    rw [compTests]
    cases ax with
    | atom ax => rw [halts_kick, halts_kick, ih]
    | cell h t => rw [halts_kick_cell, halts_kick_cell]
  | case14 axe nef tel ih1 ih2 =>
    intro s
    funext r
    rw [compTests]
    cases axe with
    | atom axe => rw [halts_edit, halts_edit, ih1, ih2]
    | cell h t => rw [halts_edit_cell, halts_edit_cell]
  | case15 zep nef ih =>
    intro s
    funext r
    rw [compTests, halts_hint, halts_hint, ih]
  | case16 zep hod nef ih1 ih2 =>
    intro s
    funext r
    rw [compTests, halts_clue, halts_clue, ih1, ih2]
  | case17 hed tel ih1 ih2 =>
    intro s
    funext r
    rw [compTests, halts_scry, halts_scry, ih1, ih2]
  | case18 fol h0 =>
    intro s
    rw [compTests] <;> assumption

/-- A clue that gives a noun on every subject can be dropped. -/
theorem clue_same {hod : Noun} {o : Option Noun} (h : SafeAs esc hod o) (zep nef : Noun) :
    Same esc (.cell (.atom 11) (.cell (.cell zep hod) nef)) nef := by
  intro s r
  obtain ⟨x, hx, -⟩ := h s
  rw [halts_clue, Then.of_done hx]

/-- **The two tests are sound**: a formula that is safe crashes on no subject and ends, with the constant if one is
given; a formula skipped to a constant gives it on every subject; compiled without its constant tests a formula gives
what it gave, and so does a hint without a clue that is safe or constant. -/
theorem skip_safe_sound (esc : Noun → Noun → Option Noun) (fol : Noun) :
    (∀ o, u3rSafe fol = some o → ∀ s, ¬ Halts esc s fol .crash ∧ ∃ x, Halts esc s fol (.done x) ∧
      ∀ c, o = some c → x = c) ∧
    (∀ c, u3rSkip fol = some (some c) → ∀ s r, Halts esc s fol r ↔ r = .done c) ∧
    Same esc (compTests fol) fol ∧
    (∀ hed mid tel, fol = .cell (.atom 6) (.cell hed (.cell mid tel)) → Same esc (compTest hed mid tel) fol) ∧
    ∀ zep hod nef, (u3rSafe hod ≠ none ∨ ∃ c, u3rSkip hod = some (some c)) →
      fol = .cell (.atom 11) (.cell (.cell zep hod) nef) → Same esc fol nef := by
  refine ⟨fun o h s => ?_, fun c h => (skip_sound h).const, fun s r => ?_, ?_, ?_⟩
  · obtain ⟨x, hx, hc⟩ := @safe_sound esc fol o h s
    refine ⟨fun hn => ?_, x, (hx _).mpr rfl, hc⟩
    cases (hx _).mp hn
  · rw [compTests_halts]
  · rintro hed mid tel rfl
    exact compTest_same hed mid tel
  · rintro zep hod nef (h | ⟨c, h⟩) rfl
    · obtain ⟨o, ho⟩ := Option.ne_none_iff_exists'.mp h
      exact clue_same (safe_sound ho) zep nef
    · exact clue_same (skip_sound h) zep nef

/-- A test of two equal constants gives its first branch on every subject. -/
theorem skip_safe_sound_seven : ¬ Halts (fun _ _ => none) (.atom 4) (.cell (.atom 6) (.cell
      (.cell (.atom 5) (.cell (.cell (.atom 1) (.atom 2)) (.cell (.atom 1) (.atom 2))))
      (.cell (.cell (.atom 1) (.atom 7)) (.cell (.atom 0) (.atom 0))))) .crash :=
  ((skip_safe_sound (fun _ _ => none) _).1 (some (.atom 7)) (by decide) (.atom 4)).1

end Nock
end Ursockets
