/-
# Servers that write ahead

A server accepts events, which it numbers, and makes replies. A reply with a
ticket is the outcome of an event, and must not be sent before the event is
durable; one without may be sent at once. Replies are sent in the order they
were made, so a reply waits for every reply before it. The state may be saved,
and the server may stop, only when every accepted event is durable.

What a server does is a list of acts (`Run`). Over any run no reply is lost,
doubled or sent out of order (`Run.conserves`), and the acts of the run obey
the discipline at the point where each is made (`Run.sent_durable`,
`Run.save_durable`, `Run.exit_durable`).

Key definitions: `Item`, `Act`, `Server`, `Step`, `Run`.
Key theorems: `Run.append`, `Run.conserves`, `Run.sent_durable`,
`Run.save_durable`, `Run.exit_durable`, `run_drain`.
-/
import Mathlib.Data.List.TakeWhile
import Mathlib.Tactic.Common

namespace WriteAhead

variable {α β : Type*}

/-- A reply, with the number of the event it is the outcome of. -/
structure Item (α : Type*) where
  ticket : Option ℕ
  load : α
  deriving DecidableEq

/-- The reply may be sent when the events up to `d` are durable. -/
def Item.ready (d : ℕ) (g : Item α) : Bool := g.ticket.all (· ≤ d)

theorem Item.ready_some {d n : ℕ} {x : α} : Item.ready d ⟨some n, x⟩ = true ↔ n ≤ d := by
  simp [Item.ready]

theorem Item.ready_mono {d d' : ℕ} (h : d ≤ d') {g : Item α} (hg : g.ready d = true) :
    g.ready d' = true := by
  obtain ⟨t, x⟩ := g
  cases t with
  | none => rfl
  | some n => exact Item.ready_some.mpr (le_trans (Item.ready_some.mp hg) h)

/-- What a server does: accept an event, make a reply, learn that the events up to a number are
durable, send a reply, save its state at an event number, stop. -/
inductive Act (α β : Type*) where
  | plan (e : β)
  | post (g : Item α)
  | commit (n : ℕ)
  | send (g : Item α)
  | save (n : ℕ)
  | exit
  deriving DecidableEq

/-- A server: how many events it has accepted, how many of them are durable, and the replies it
holds. -/
@[ext]
structure Server (α : Type*) where
  accepted : ℕ
  durable : ℕ
  held : List (Item α)

/-- The acts a server may do, and what they make of it. -/
inductive Step : Server α → Act α β → Server α → Prop
  | plan (s : Server α) (e : β) : Step s (.plan e) { s with accepted := s.accepted + 1 }
  | post (s : Server α) (g : Item α) : g.ready s.accepted = true →
      Step s (.post g) { s with held := s.held ++ [g] }
  | commit (s : Server α) (n : ℕ) : s.durable ≤ n → n ≤ s.accepted →
      Step s (.commit n) { s with durable := n }
  | send (s : Server α) (g : Item α) (gs : List (Item α)) : s.held = g :: gs →
      g.ready s.durable = true → Step s (.send g) { s with held := gs }
  | save (s : Server α) : s.durable = s.accepted → Step s (.save s.accepted) s
  | exit (s : Server α) : s.durable = s.accepted → s.held = [] → Step s .exit s

/-- The server goes from `s` to `t` doing the acts of the list. -/
def Run : Server α → List (Act α β) → Server α → Prop
  | s, [], t => s = t
  | s, a :: as, t => ∃ u, Step s a u ∧ Run u as t

/-! ### What a list of acts did -/

/-- The events accepted, in order. -/
def planned : List (Act α β) → List β
  | [] => []
  | .plan e :: as => e :: planned as
  | _ :: as => planned as

/-- The replies made, in order. -/
def posted : List (Act α β) → List (Item α)
  | [] => []
  | .post g :: as => g :: posted as
  | _ :: as => posted as

/-- The replies sent, in order. -/
def sent : List (Act α β) → List (Item α)
  | [] => []
  | .send g :: as => g :: sent as
  | _ :: as => sent as

/-- How many events are durable afterwards, of `d` before. -/
def durableAfter (d : ℕ) : List (Act α β) → ℕ
  | [] => d
  | .commit n :: as => durableAfter n as
  | _ :: as => durableAfter d as

theorem planned_append (as bs : List (Act α β)) : planned (as ++ bs) = planned as ++ planned bs := by
  induction as with
  | nil => rfl
  | cons a as ih => cases a <;> simp [planned, ih]

theorem posted_append (as bs : List (Act α β)) : posted (as ++ bs) = posted as ++ posted bs := by
  induction as with
  | nil => rfl
  | cons a as ih => cases a <;> simp [posted, ih]

/-! ### Runs -/

theorem Run.append {s u t : Server α} {as bs : List (Act α β)} (h1 : Run s as u) (h2 : Run u bs t) :
    Run s (as ++ bs) t := by
  induction as generalizing s with
  | nil => exact (show s = u from h1) ▸ h2
  | cons a as ih =>
    obtain ⟨v, ha, hv⟩ := h1
    exact ⟨v, ha, ih hv⟩

theorem Run.single {s t : Server α} {a : Act α β} (h : Step s a t) : Run s [a] t := ⟨t, h, rfl⟩

theorem Run.split {s t : Server α} {as bs : List (Act α β)} (h : Run s (as ++ bs) t) :
    ∃ u, Run s as u ∧ Run u bs t := by
  induction as generalizing s with
  | nil => exact ⟨s, rfl, h⟩
  | cons a as ih =>
    obtain ⟨v, ha, hv⟩ := h
    obtain ⟨u, h1, h2⟩ := ih hv
    exact ⟨u, ⟨v, ha, h1⟩, h2⟩

/-- **No reply is lost, doubled or moved**: those held before and those made are those sent and
those still held, in this order. -/
theorem Run.conserves {s t : Server α} {as : List (Act α β)} (h : Run s as t) :
    s.held ++ posted as = sent as ++ t.held := by
  induction as generalizing s with
  | nil => simp [posted, sent, show s = t from h]
  | cons a as ih =>
    obtain ⟨u, ha, hu⟩ := h
    have h1 := ih hu
    cases ha with
    | post g hg => simpa [posted, sent] using h1
    | send g gs hs hg => simpa [posted, sent, hs] using h1
    | plan | commit | save | exit => simpa [posted, sent] using h1

theorem Run.accepted {s t : Server α} {as : List (Act α β)} (h : Run s as t) :
    t.accepted = s.accepted + (planned as).length := by
  induction as generalizing s with
  | nil => simp [planned, show s = t from h]
  | cons a as ih =>
    obtain ⟨u, ha, hu⟩ := h
    have h1 := ih hu
    cases ha with
    | plan e => simpa [planned, Nat.add_assoc, Nat.add_comm 1] using h1
    | post | commit | send | save | exit => simpa [planned] using h1

theorem Run.durable {s t : Server α} {as : List (Act α β)} (h : Run s as t) :
    t.durable = durableAfter s.durable as := by
  induction as generalizing s with
  | nil => simp [durableAfter, show s = t from h]
  | cons a as ih =>
    obtain ⟨u, ha, hu⟩ := h
    have h1 := ih hu
    cases ha <;> simpa [durableAfter] using h1

/-! ### The discipline of a run -/

/-- **Events before their replies**: a reply is sent only when its event is durable. -/
theorem Run.sent_durable {s t : Server α} {p q : List (Act α β)} {g : Item α}
    (h : Run s (p ++ .send g :: q) t) : g.ready (durableAfter s.durable p) = true := by
  obtain ⟨u, hp, v, ha, _⟩ := h.split
  cases ha with
  | send _ gs hs hg => rwa [← hp.durable]

/-- **Events before the image**: the state is saved only when every accepted event is durable. -/
theorem Run.save_durable {s t : Server α} {p q : List (Act α β)} {n : ℕ}
    (h : Run s (p ++ .save n :: q) t) :
    n = s.accepted + (planned p).length ∧ durableAfter s.durable p = n := by
  obtain ⟨u, hp, v, ha, _⟩ := h.split
  cases ha with
  | save hd => exact ⟨hp.accepted, hp.durable.symm.trans hd⟩

/-- **Events before the end**: the server stops only when every accepted event is durable and every
reply sent. -/
theorem Run.exit_durable {s t : Server α} {p q : List (Act α β)} (h : Run s (p ++ .exit :: q) t) :
    durableAfter s.durable p = s.accepted + (planned p).length ∧
      s.held ++ posted p = sent p := by
  obtain ⟨u, hp, v, ha, _⟩ := h.split
  cases ha with
  | exit hd hh =>
    refine ⟨by rw [← hp.durable, hd, hp.accepted], ?_⟩
    rw [hp.conserves, hh, List.append_nil]

/-! ### Sending what is ready -/

/-- The replies up to the first that is not ready may be sent one after the other. -/
theorem run_drain (a d : ℕ) (gs : List (Item α)) :
    Run ⟨a, d, gs⟩ ((gs.takeWhile (Item.ready d)).map (.send : Item α → Act α β))
      ⟨a, d, gs.dropWhile (Item.ready d)⟩ := by
  induction gs with
  | nil => rfl
  | cons g gs ih =>
    by_cases hg : g.ready d = true
    · rw [List.takeWhile_cons_of_pos hg, List.dropWhile_cons_of_pos hg]
      exact ⟨⟨a, d, gs⟩, Step.send _ g gs rfl hg, ih⟩
    · rw [List.takeWhile_cons_of_neg hg, List.dropWhile_cons_of_neg hg]
      rfl

end WriteAhead
