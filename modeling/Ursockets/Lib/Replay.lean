/-
# Replaying a log

A deterministic machine takes events one at a time, and may refuse one. From a
state the events of a log lead to at most one other (`follow`). The states that
a log leads through are each the only one at its place (`At.unique`), and from
any of them the events in between lead to any later one (`At.follow`): it does
not matter where a replay starts.

Key definitions: `follow`, `Along`, `At`.
Key theorems: `follow_append`, `follow_inv`, `Along.follow_inv`, `Along.of_step`, `Along.congr`, `Along.congr_of`,
`Along.congr_all`, `Along.follow_some`, `Along.iff_all_with`, `Along.iff_all`, `At.unique`, `At.follow`,
`At.next`, `At.step`.
-/
import Mathlib.Data.List.Induction
import Mathlib.Data.List.TakeDrop
import Mathlib.Order.Lattice
import Mathlib.Tactic.Common

namespace Replay

variable {σ ε : Type*} (turn : σ → ε → Option σ)

/-- The state that the events lead to. -/
def follow (a : σ) : List ε → Option σ
  | [] => some a
  | e :: es => (turn a e).bind fun b => follow b es

theorem follow_append (a : σ) (xs ys : List ε) :
    follow turn a (xs ++ ys) = (follow turn a xs).bind fun b => follow turn b ys := by
  induction xs generalizing a with
  | nil => rfl
  | cons e xs ih =>
    rw [List.cons_append, follow, follow, Option.bind_assoc]
    congr 1
    funext b
    exact ih b

/-- What holds of the root, and what each event that is taken keeps, holds of
the state that the log leads to; the log so far may be spoken of. -/
theorem follow_inv {turn : σ → ε → Option σ} {root a : σ} {l : List ε} (P : List ε → σ → Prop) (h0 : P [] root)
    (hs : ∀ es b e c, P es b → turn b e = some c → P (es ++ [e]) c) (h : follow turn root l = some a) : P l a := by
  induction l using List.reverseRecOn generalizing a with
  | nil => exact Option.some.inj h ▸ h0
  | append_singleton es e ih =>
    rw [follow_append, Option.bind_eq_some_iff] at h
    obtain ⟨b, hb, he⟩ := h
    rw [follow, Option.bind_eq_some_iff] at he
    obtain ⟨c, hc, hca⟩ := he
    exact Option.some.inj hca ▸ hs es b e c (ih hb) hc

/-- Each event of a log that is taken meets a condition on it and the state before it. -/
def Along (C : σ → ε → Prop) : σ → List ε → Prop
  | _, [] => True
  | a, e :: es => C a e ∧ ∀ b, turn a e = some b → Along C b es

variable {turn} in
/-- What holds at first, and what the events that meet a condition keep, holds at the end of
a log of such events. -/
theorem Along.follow_inv {C : σ → ε → Prop} (I : σ → Prop) (hs : ∀ a e b, I a → C a e → turn a e = some b → I b) :
    ∀ {l : List ε} {a b : σ}, Along turn C a l → I a → follow turn a l = some b → I b
  | [], a, b, _, h0, h => Option.some.inj h ▸ h0
  | e :: es, a, b, hC, h0, h => by
    obtain ⟨c, hc, h⟩ := Option.bind_eq_some_iff.mp h
    exact Along.follow_inv I hs (hC.2 c hc) (hs a e c h0 hC.1 hc) h

variable {turn} in
/-- What a condition on the events comes to, by what holds of the states that they are taken in. -/
theorem Along.of_inv {C D : σ → ε → Prop} (I : σ → Prop) (hs : ∀ a e b, I a → C a e → turn a e = some b → I b)
    (hD : ∀ a e, I a → C a e → D a e) : ∀ {l : List ε} {a : σ}, Along turn C a l → I a → Along turn D a l
  | [], _, _, _ => trivial
  | e :: _, a, hC, h0 =>
    ⟨hD a e h0 hC.1, fun c hc => Along.of_inv I hs hD (hC.2 c hc) (hs a e c h0 hC.1 hc)⟩

variable {turn} in
/-- Two conditions that come to the same for each event that is taken come to the same along a log that is. -/
theorem Along.congr {C D : σ → ε → Prop} (I : σ → Prop) (hs : ∀ a e b, I a → turn a e = some b → I b)
    (hCD : ∀ a e b, I a → turn a e = some b → (C a e ↔ D a e)) : ∀ {l : List ε} {a b : σ}, I a →
      follow turn a l = some b → (Along turn C a l ↔ Along turn D a l)
  | [], _, _, _, _ => Iff.rfl
  | e :: es, a, b, h0, h => by
    obtain ⟨c, hc, h⟩ := Option.bind_eq_some_iff.mp h
    refine and_congr (hCD a e c h0 hc) (forall_congr' fun x => ?_)
    refine imp_congr_right fun hx => ?_
    obtain rfl := Option.some.inj (hc.symm.trans hx)
    exact Along.congr I hs hCD (hs a e c h0 hc) h

variable {turn} in
/-- Two conditions that come to the same in every state that the events meeting the first lead to. -/
theorem Along.congr_of {C D : σ → ε → Prop} (I : σ → Prop) (hs : ∀ a e b, I a → C a e → turn a e = some b → I b)
    (hCD : ∀ a e b, I a → turn a e = some b → (C a e ↔ D a e)) : ∀ {l : List ε} {a b : σ}, I a →
      follow turn a l = some b → (Along turn C a l ↔ Along turn D a l)
  | [], _, _, _, _ => Iff.rfl
  | e :: es, a, b, h0, h => by
    obtain ⟨c, hc, h⟩ := Option.bind_eq_some_iff.mp h
    have hrest : C a e → ((∀ x, turn a e = some x → Along turn C x es) ↔ ∀ x, turn a e = some x →
      Along turn D x es) := by
      intro hC
      refine forall_congr' fun x => imp_congr_right fun hx => ?_
      obtain rfl := Option.some.inj (hc.symm.trans hx)
      exact Along.congr_of I hs hCD (hs a e c h0 hC hc) h
    have hiff := hCD a e c h0 hc
    exact ⟨fun hC => ⟨hiff.mp hC.1, (hrest hC.1).mp hC.2⟩, fun hD => ⟨hiff.mpr hD.1, (hrest (hiff.mpr hD.1)).mpr hD.2⟩⟩

variable {turn} in
/-- Two conditions that come to the same for every event, taken or not, in the states that the events meeting the
first lead to. -/
theorem Along.congr_all {C D : σ → ε → Prop} (I : σ → Prop) (hs : ∀ a e b, I a → C a e → turn a e = some b → I b)
    (hCD : ∀ a e, I a → (C a e ↔ D a e)) : ∀ {l : List ε} {a : σ}, I a → (Along turn C a l ↔ Along turn D a l)
  | [], _, _ => Iff.rfl
  | e :: es, a, h0 => by
    have hrest (hC : C a e) (b : σ) (hb : turn a e = some b) : Along turn C b es ↔ Along turn D b es :=
      Along.congr_all I hs hCD (hs a e b h0 hC hb)
    have hiff := hCD a e h0
    constructor
    · rintro ⟨hC, hafter⟩
      exact ⟨hiff.mp hC, fun b hb => (hrest hC b hb).mp (hafter b hb)⟩
    · rintro ⟨hD, hafter⟩
      exact ⟨hiff.mpr hD, fun b hb => (hrest (hiff.mpr hD) b hb).mpr (hafter b hb)⟩

variable {turn} in
/-- A log whose events are taken, where they meet a condition, is followed to its end. -/
theorem Along.follow_some {C : σ → ε → Prop} (I : σ → Prop) (hs : ∀ a e, I a → C a e → ∃ b, turn a e = some b ∧ I b) :
    ∀ {l : List ε} {a : σ}, Along turn C a l → I a → ∃ b, follow turn a l = some b ∧ I b
  | [], a, _, h0 => ⟨a, rfl, h0⟩
  | e :: es, a, hC, h0 => by
    obtain ⟨c, hc, hi⟩ := hs a e h0 hC.1
    obtain ⟨b, hb, hib⟩ := Along.follow_some I hs (hC.2 c hc) hi
    exact ⟨b, by rw [follow, hc, Option.bind_some, hb], hib⟩

variable {turn} in
theorem Along.and {C D : σ → ε → Prop} : ∀ {l : List ε} {a : σ}, Along turn C a l → Along turn D a l →
    Along turn (fun a e => C a e ∧ D a e) a l
  | [], _, _, _ => trivial
  | _ :: _, _, hC, hD => ⟨⟨hC.1, hD.1⟩, fun c hc => (hC.2 c hc).and (hD.2 c hc)⟩

/-- From `root`, the first `n` events of the log lead to `a`. -/
structure At (root : σ) (l : List ε) (n : ℕ) (a : σ) : Prop where
  le : n ≤ l.length
  follow_eq : follow turn root (l.take n) = some a

variable {turn} {root a b : σ} {l : List ε} {n m : ℕ}

theorem At.zero : At turn root l 0 root := ⟨Nat.zero_le _, by rw [List.take_zero]; rfl⟩

theorem At.unique (ha : At turn root l n a) (hb : At turn root l n b) : a = b :=
  Option.some.inj (ha.follow_eq.symm.trans hb.follow_eq)

theorem take_split (l : List ε) (h : n ≤ m) : l.take m = l.take n ++ (l.take m).drop n := by
  calc l.take m = (l.take m).take n ++ (l.take m).drop n := (List.take_append_drop n _).symm
    _ = l.take n ++ (l.take m).drop n := by rw [List.take_take, min_eq_left h]

/-- **It does not matter where the replay starts.** -/
theorem At.follow (ha : At turn root l n a) (hb : At turn root l m b) (h : n ≤ m) :
    follow turn a ((l.take m).drop n) = some b := by
  have h1 := hb.follow_eq
  rw [take_split l h, follow_append, ha.follow_eq] at h1
  exact h1

/-- A state that another is reached through. -/
theorem At.before (hb : At turn root l m b) (h : n ≤ m) : ∃ a, At turn root l n a := by
  have h1 := hb.follow_eq
  rw [take_split l h, follow_append] at h1
  obtain ⟨a, ha, _⟩ := Option.bind_eq_some_iff.mp h1
  exact ⟨a, le_trans h hb.le, ha⟩

/-- What is logged later does not matter. -/
theorem At.append (ha : At turn root l n a) (xs : List ε) : At turn root (l ++ xs) n a :=
  ⟨le_trans ha.le (by rw [List.length_append]; exact Nat.le_add_right _ _),
    by rw [List.take_append_of_le_length ha.le]; exact ha.follow_eq⟩

theorem At.take (ha : At turn root l n a) (h : n ≤ m) : At turn root (l.take m) n a :=
  ⟨by rw [List.length_take]; exact le_min h ha.le,
    by rw [List.take_take, min_eq_left h]; exact ha.follow_eq⟩

/-- The state after one more event. -/
theorem At.next {e : ε} (ha : At turn root l n a) (he : l[n]? = some e) (hb : turn a e = some b) :
    At turn root l (n + 1) b := by
  obtain ⟨hn, rfl⟩ := List.getElem?_eq_some_iff.mp he
  refine ⟨hn, ?_⟩
  rw [List.take_succ_eq_append_getElem hn, follow_append, ha.follow_eq]
  show (turn a l[n]).bind some = some b
  rw [hb]
  rfl

theorem At.zero_eq (h : At turn a l 0 b) : b = a := Option.some.inj h.follow_eq.symm

/-- The state after an event and some more. -/
theorem At.cons {e : ε} (he : turn a e = some b) {c : σ} : At turn a (e :: l) (n + 1) c ↔ At turn b l n c := by
  have hf : Replay.follow turn a ((e :: l).take (n + 1)) = Replay.follow turn b (l.take n) := by
    rw [List.take_succ_cons, Replay.follow, he, Option.bind_some]
  exact ⟨fun h => ⟨Nat.le_of_succ_le_succ h.le, hf.symm.trans h.follow_eq⟩,
    fun h => ⟨Nat.succ_le_succ h.le, hf.trans h.follow_eq⟩⟩

/-- **What holds of all states of a run**, where it holds at first and a step keeps it just when
the event meets a condition. `J` is what every step keeps, `N` what the steps that meet the condition keep. -/
theorem Along.iff_all_with {C : σ → ε → Prop} (J N I : σ → Prop) (hJ : ∀ a e b, J a → turn a e = some b → J b)
    (hN : ∀ a e b, J a → N a → C a e → turn a e = some b → N b)
    (hI : ∀ a e b, J a → N a → I a → turn a e = some b → (I b ↔ C a e)) : ∀ {l : List ε} {a b : σ}, J a → N a →
      I a → Replay.follow turn a l = some b → ((∀ n c, At turn a l n c → I c) ↔ Along turn C a l)
  | [], a, b, _, _, h0, _ => by
    refine iff_of_true (fun n c hc => ?_) trivial
    obtain rfl : n = 0 := Nat.le_zero.mp hc.le
    exact hc.zero_eq ▸ h0
  | e :: es, a, b, hj, hn, h0, h => by
    obtain ⟨a', he, h⟩ := Option.bind_eq_some_iff.mp h
    have ha' : At turn a (e :: es) 1 a' := (At.cons he).mpr At.zero
    have hone : ∀ b, turn a e = some b → b = a' := fun b hb => Option.some.inj (hb.symm.trans he)
    have hrest (hC : C a e) (hia' : I a') :=
      Along.iff_all_with J N I hJ hN hI (hJ a e a' hj he) (hN a e a' hj hn hC he) hia' h
    constructor
    · intro hall
      have hC := (hI a e a' hj hn h0 he).mp (hall 1 a' ha')
      refine ⟨hC, fun b hb => ?_⟩
      obtain rfl := hone b hb
      exact (hrest hC (hall 1 _ ha')).mp fun n c hc => hall (n + 1) c ((At.cons he).mpr hc)
    · rintro ⟨hC, hafter⟩ n c hc
      have hia' : I a' := (hI a e a' hj hn h0 he).mpr hC
      cases n with
      | zero => exact hc.zero_eq ▸ h0
      | succ n => exact (hrest hC hia').mpr (hafter a' he) n c ((At.cons he).mp hc)

theorem Along.iff_all {C : σ → ε → Prop} (J I : σ → Prop) (hJ : ∀ a e b, J a → turn a e = some b → J b)
    (hI : ∀ a e b, J a → I a → turn a e = some b → (I b ↔ C a e)) {l : List ε} (hj : J a) (h0 : I a)
    (h : Replay.follow turn a l = some b) : (∀ n c, At turn a l n c → I c) ↔ Along turn C a l :=
  Along.iff_all_with J (fun _ => True) I hJ (fun _ _ _ _ _ _ _ => trivial) (fun a e b hj _ h0 h => hI a e b hj h0 h)
    hj trivial h0 h

/-- The next event of a log that leads further is taken. -/
theorem At.step {e : ε} (ha : At turn root l n a) (he : l[n]? = some e) (hb : At turn root l m b)
    (h : n < m) : ∃ c, turn a e = some c ∧ At turn root l (n + 1) c := by
  obtain ⟨hn, rfl⟩ := List.getElem?_eq_some_iff.mp he
  obtain ⟨c, hc⟩ := hb.before h
  have h1 := hc.follow_eq
  rw [List.take_succ_eq_append_getElem hn, follow_append, ha.follow_eq] at h1
  have h2 : (turn a l[n]).bind some = some c := h1
  rw [Option.bind_fun_some] at h2
  exact ⟨c, h2, hc⟩

end Replay
