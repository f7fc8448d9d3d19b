/-
# The queues of the drivers

A driver (`vere/auto.c`) has its ova in a doubly linked list, from the one that leaves next (`ext_u`) to
the one that came last (`ent_u`), and a count of them. An ovum is planned at the back, planned again at
the front, taken from the front of the first driver that has any, and dropped from wherever it is. The
lists are what they should be until an ovum is dropped that is in no list: its driver's list is emptied
then, and the count goes down by one, or a list gets as long as a word can count.

Key definitions: `Ovum`, `Driver`, `Autos`, `autoPlan`, `autoRedo`, `autoNext`, `autoDrop`, `Right`, `Fits`.
Key theorems: `autoPlan_moved`, `autoRedo_moved`, `autoNext_moved`, `autoDrop_moved`, `autoDrop_out`,
`turn_right_iff`, `queues_right_iff`.
-/
import Ursockets.Lib.Linked
import Ursockets.Lib.Replay
import Ursockets.Noun

namespace Ursockets
namespace Auto

open Linked

/-! ### Ova and drivers -/

/-- `u3_ovum`: what it says, how often it was planned again, its place in the list, and its driver. -/
structure Ovum where
  tries : UInt32
  tar : Noun
  wir : Noun
  cad : Noun
  pre : Option ℕ
  nex : Option ℕ
  car : ℕ

/-- `u3_auto`: its list and how long it is. -/
structure Driver where
  dep : UInt32
  ent : Option ℕ
  ext : Option ℕ

/-- The drivers, the first `len` in their order, and the ova by their addresses. -/
structure Autos where
  len : ℕ
  car : ℕ → Driver
  egg : ℕ → Option Ovum

def Autos.setCar (a : Autos) (k : ℕ) (c : Driver) : Autos := { a with car := Function.update a.car k c }

def Autos.setEgg (a : Autos) (i : ℕ) (o : Option Ovum) : Autos := { a with egg := Function.update a.egg i o }

/-- An ovum is made to point to another after it. There is none at an address that was freed. -/
def Autos.pointNex (a : Autos) (i : ℕ) (n : Option ℕ) : Option Autos := do
  let egg ← a.egg i
  some (a.setEgg i (some { egg with nex := n }))

def Autos.pointPre (a : Autos) (i : ℕ) (p : Option ℕ) : Option Autos := do
  let egg ← a.egg i
  some (a.setEgg i (some { egg with pre := p }))

/-- `u3_auto_plan`: enqueue an ovum. -/
def autoPlan (a : Autos) (k i : ℕ) (egg : Ovum) : Option Autos :=
  match (a.car k).ent with
  | none =>
    if (a.car k).ext.isSome then none
    else some ((a.setEgg i (some { egg with car := k, pre := none, nex := none })).setCar k ⟨1, some i, some i⟩)
  | some e => do
    let a ← (a.setEgg i (some { egg with car := k, pre := some e, nex := none })).pointNex e (some i)
    some (a.setCar k { a.car k with ent := some i, dep := (a.car k).dep + 1 })

/-- `u3_auto_redo`: retry an ovum. -/
def autoRedo (a : Autos) (k i : ℕ) : Option Autos := do
  let egg ← a.egg i
  if egg.car ≠ k then none
  else
    match (a.car k).ent with
    | none =>
      if (a.car k).ext.isSome then none
      else some ((a.setEgg i (some { egg with tries := egg.tries + 1, pre := none, nex := none })).setCar k
        ⟨1, some i, some i⟩)
    | some _ => do
      let e ← (a.car k).ext
      let a ← (a.setEgg i (some { egg with tries := egg.tries + 1, pre := none, nex := some e })).pointPre e (some i)
      some (a.setCar k { a.car k with ext := some i, dep := (a.car k).dep + 1 })

/-- The first driver from `k` on that has an ovum. -/
def firstCar (a : Autos) (k : ℕ) : Option ℕ := (List.range' k (a.len - k)).find? fun j => (a.car j).ext.isSome

/-- The list of a driver without the ovum at its front. -/
def dequeue (a : Autos) (j : ℕ) (egg : Ovum) : Option Autos :=
  match egg.nex with
  | some e => do
    let a ← a.pointPre e none
    some (a.setCar j { a.car j with ext := some e, dep := (a.car j).dep - 1 })
  | none => some (a.setCar j ⟨0, none, none⟩)

/-- `u3_auto_next`: select an ovum, dequeue and construct. -/
def autoNext (a : Autos) (k : ℕ) : Option (Autos × Option (ℕ × Noun)) :=
  match firstCar a k with
  | none => some (a, none)
  | some j => do
    let i ← (a.car j).ext
    let egg ← a.egg i
    if egg.pre.isSome then none
    else
      let a ← dequeue a j egg
      let egg ← a.egg i
      some (a.setEgg i (some { egg with nex := none }), some (i, .cell (.cell egg.tar egg.wir) egg.cad))

/-- `u3_auto_drop`: the previous ovum (or `ext_u`) will point to our next ovum. -/
def passNex (a : Autos) (egg : Ovum) : Option Autos :=
  match egg.pre with
  | none => some (a.setCar egg.car { a.car egg.car with ext := egg.nex })
  | some j => a.pointNex j egg.nex

/-- `u3_auto_drop`: the next ovum (or `ent_u`) will point to our previous ovum. -/
def passPre (a : Autos) (egg : Ovum) : Option Autos :=
  match egg.nex with
  | none => some (a.setCar egg.car { a.car egg.car with ent := egg.pre })
  | some j => a.pointPre j egg.pre

/-- `u3_auto_drop`: dequeue and dispose an ovum; whether its driver is told, for a driver `k` that drops it. -/
def autoDrop (a : Autos) (k i : ℕ) : Option (Autos × Bool) := do
  let egg ← a.egg i
  let a ← passNex a egg
  let a ← passPre a egg
  let a := a.setCar egg.car { a.car egg.car with dep := (a.car egg.car).dep - 1 }
  some (a.setEgg i none, decide (egg.car ≠ k))

/-! ### What the queues should be -/

/-- What is asked of the drivers: to plan an ovum, to plan one again that has left, to give the next, to drop one;
one that has left is done with. -/
inductive Event where
  | plan (k i : ℕ) (egg : Ovum)
  | redo (k i : ℕ)
  | next (k : ℕ)
  | drop (k i : ℕ)
  | done (i : ℕ)

/-- The drivers, the ova that have left and are not done with, and the queues as they should be. -/
structure Watched where
  autos : Autos
  out : List ℕ
  queue : ℕ → List ℕ

def Watched.start (len : ℕ) : Watched := ⟨⟨len, fun _ => ⟨0, none, none⟩, fun _ => none⟩, [], fun _ => []⟩

/-- The first queue from `k` on that is not empty. -/
def firstQueue (a : Watched) (k : ℕ) : Option ℕ :=
  (List.range' k (a.autos.len - k)).find? fun j => !(a.queue j).isEmpty

/-- An ovum is planned at the back and planned again at the front; the next is the one at the front of the first
queue that has any; the one that is dropped is no longer in any. -/
def queueTurn (a : Watched) : Event → ℕ → List ℕ
  | .plan k i _ => Function.update a.queue k (a.queue k ++ [i])
  | .redo k i => Function.update a.queue k (i :: a.queue k)
  | .next k =>
    match firstQueue a k with
    | none => a.queue
    | some j => Function.update a.queue j (a.queue j).tail
  | .drop _ i => fun k => (a.queue k).erase i
  | .done _ => a.queue

/-- A new ovum is planned, on a driver that is there; one that has left is planned again or done with. -/
def turn (a : Watched) : Event → Option Watched
  | .plan k i egg =>
    if a.autos.len ≤ k ∨ (a.autos.egg i).isSome then none
    else do
      let b ← autoPlan a.autos k i egg
      some ⟨b, a.out, queueTurn a (.plan k i egg)⟩
  | .redo k i =>
    if i ∉ a.out then none
    else do
      let b ← autoRedo a.autos k i
      some ⟨b, a.out.filter (· ≠ i), queueTurn a (.redo k i)⟩
  | .next k => do
    let (b, got) ← autoNext a.autos k
    some ⟨b, a.out ++ (got.map Prod.fst).toList, queueTurn a (.next k)⟩
  | .drop k i => do
    let (b, _) ← autoDrop a.autos k i
    some ⟨b, a.out.filter (· ≠ i), queueTurn a (.drop k i)⟩
  | .done i =>
    if i ∉ a.out then none
    else some ⟨a.autos.setEgg i none, a.out.filter (· ≠ i), queueTurn a (.done i)⟩

def Ovum.links (o : Ovum) : Links ℕ := ⟨o.pre, o.nex⟩

/-- What the ova point to. -/
def Autos.links (a : Autos) (i : ℕ) : Option (Links ℕ) := (a.egg i).map Ovum.links

/-- **A driver has a queue**: its list goes from exit to entry over the ova of the queue, and it counts them. -/
structure Lined (a : Autos) (k : ℕ) (q : List ℕ) : Prop where
  ext : (a.car k).ext = first q none
  ent : (a.car k).ent = last none q
  dep : (a.car k).dep.toNat = q.length
  seg : Seg a.links none q none
  car : ∀ i ∈ q, ∃ o, a.egg i = some o ∧ o.car = k

/-- **The lists are right**: each driver has the queue that it should. -/
def Right (a : Watched) : Prop := ∀ k, Lined a.autos k (a.queue k)

/-- The events that the lists take right: an ovum comes where a word can still count the queue, and one that is
dropped is in a queue. -/
def Fits (a : Watched) : Event → Prop
  | .plan k _ _ => (a.queue k).length + 1 < 2 ^ 32
  | .redo k _ => (a.queue k).length + 1 < 2 ^ 32
  | .next _ => True
  | .drop _ i => ∃ k, i ∈ a.queue k
  | .done _ => True

/-! ### Pointing -/

variable {a b : Autos} {k i j : ℕ} {o : Ovum} {q q' l r : List ℕ} {n p : Option ℕ}

@[simp] theorem setCar_egg (a : Autos) (k : ℕ) (c : Driver) : (a.setCar k c).egg = a.egg := rfl

@[simp] theorem setCar_links (a : Autos) (k : ℕ) (c : Driver) : (a.setCar k c).links = a.links := rfl

@[simp] theorem setEgg_car (a : Autos) (i : ℕ) (o : Option Ovum) : (a.setEgg i o).car = a.car := rfl

@[simp] theorem setCar_self (a : Autos) (k : ℕ) (c : Driver) : (a.setCar k c).car k = c := Function.update_self ..

theorem setCar_of_ne (a : Autos) (c : Driver) (h : j ≠ k) : (a.setCar k c).car j = a.car j :=
  Function.update_of_ne h _ _

@[simp] theorem setEgg_self (a : Autos) (i : ℕ) (o : Option Ovum) : (a.setEgg i o).egg i = o := Function.update_self ..

theorem setEgg_of_ne (a : Autos) (o : Option Ovum) (h : j ≠ i) : (a.setEgg i o).egg j = a.egg j :=
  Function.update_of_ne h _ _

theorem links_setEgg (a : Autos) (i : ℕ) (o : Ovum) :
    (a.setEgg i (some o)).links = Function.update a.links i (some o.links) := by
  funext x
  by_cases hx : x = i
  · subst hx
    rw [Autos.links, setEgg_self, Function.update_self]
    rfl
  · rw [Autos.links, setEgg_of_ne _ _ hx, Function.update_of_ne hx, Autos.links]

theorem links_eq (h : a.links i = some ⟨p, n⟩) : ∃ o, a.egg i = some o ∧ o.pre = p ∧ o.nex = n := by
  obtain ⟨o, ho, hlinks⟩ := Option.map_eq_some_iff.mp h
  exact ⟨o, ho, congrArg Links.pre hlinks, congrArg Links.nex hlinks⟩

/-- Nothing but what one ovum points to has changed. -/
structure Pointed (a b : Autos) (i : ℕ) : Prop where
  len : b.len = a.len
  car : b.car = a.car
  eggs : ∀ j, j ≠ i → b.egg j = a.egg j
  cars : ∀ j, (b.egg j).map Ovum.car = (a.egg j).map Ovum.car

theorem pointNex_spec (h : a.egg i = some o) (n : Option ℕ) :
    ∃ b, a.pointNex i n = some b ∧ Pointed a b i ∧ b.links = linkNex a.links (some i) n := by
  refine ⟨a.setEgg i (some { o with nex := n }), ?_, ⟨rfl, rfl, fun j hj => setEgg_of_ne _ _ hj, fun j => ?_⟩, ?_⟩
  · rw [Autos.pointNex, h]
    rfl
  · by_cases hj : j = i
    · rw [hj, setEgg_self, h]
      rfl
    · rw [setEgg_of_ne _ _ hj]
  · rw [links_setEgg, linkNex, Autos.links, h]
    rfl

theorem pointPre_spec (h : a.egg i = some o) (p : Option ℕ) :
    ∃ b, a.pointPre i p = some b ∧ Pointed a b i ∧ b.links = linkPre a.links (some i) p := by
  refine ⟨a.setEgg i (some { o with pre := p }), ?_, ⟨rfl, rfl, fun j hj => setEgg_of_ne _ _ hj, fun j => ?_⟩, ?_⟩
  · rw [Autos.pointPre, h]
    rfl
  · by_cases hj : j = i
    · rw [hj, setEgg_self, h]
      rfl
    · rw [setEgg_of_ne _ _ hj]
  · rw [links_setEgg, linkPre, Autos.links, h]
    rfl

/-! ### What each function does to a queue -/

/-- The list of driver `k` went from one queue to another, and nothing else changed: all that is left to say is
the count. -/
structure Moved (a b : Autos) (k : ℕ) (q q' : List ℕ) : Prop where
  len : b.len = a.len
  others : ∀ k', k' ≠ k → b.car k' = a.car k'
  ext : (b.car k).ext = first q' none
  ent : (b.car k).ent = last none q'
  seg : Seg b.links none q' none
  car : ∀ j ∈ q', ∃ o, b.egg j = some o ∧ o.car = k
  eggs : ∀ j, j ∉ q → j ∉ q' → b.egg j = a.egg j

theorem car_of_map {x : Option Ovum} (h : x.map Ovum.car = some k) : ∃ o, x = some o ∧ o.car = k :=
  Option.map_eq_some_iff.mp h

theorem Lined.map_car (h : Lined a k q) (hj : j ∈ q) : (a.egg j).map Ovum.car = some k := by
  obtain ⟨o, ho, hk⟩ := h.car j hj
  rw [ho, Option.map_some, hk]

theorem succ_dep (d : UInt32) : (d + 1).toNat = (d.toNat + 1) % 2 ^ 32 := UInt32.toNat_add ..

/-- **A plan puts an ovum at the back.** -/
theorem autoPlan_moved (h : Lined a k q) (hq : q.Nodup) (hi : i ∉ q) (egg : Ovum) :
    ∃ b, autoPlan a k i egg = some b ∧ Moved a b k q (q ++ [i]) ∧ (b.car k).dep.toNat = (q.length + 1) % 2 ^ 32 := by
  have hseg := h.seg.push_back hq hi
  have hent := h.ent
  rcases List.eq_nil_or_concat q with rfl | ⟨l, e, rfl⟩
  · have hext := h.ext
    unfold autoPlan
    rw [hent, hext]
    refine ⟨_, rfl, ⟨rfl, fun k' hk => setCar_of_ne _ _ hk, by rw [setCar_self]; rfl, by rw [setCar_self]; rfl, ?_, ?_,
      ?_⟩, by rw [setCar_self]; rfl⟩
    · rw [setCar_links, links_setEgg]
      exact hseg
    · intro j hj
      obtain rfl := List.mem_singleton.mp hj
      exact ⟨_, setEgg_self _ _ _, rfl⟩
    · intro j _ hj
      exact setEgg_of_ne _ _ fun hji => hj (hji ▸ List.mem_cons_self)
  · rw [List.concat_eq_append] at *
    rw [last_concat] at hent hseg
    have hei : e ≠ i := fun hei => hi (hei ▸ List.mem_append_right l List.mem_cons_self)
    obtain ⟨oe, hoe, -⟩ := h.car e (List.mem_append_right l List.mem_cons_self)
    obtain ⟨c, hc, hp, hlinks⟩ := pointNex_spec
      (a := a.setEgg i (some { egg with car := k, pre := some e, nex := none }))
      ((setEgg_of_ne _ _ hei).trans hoe) (some i)
    have hcar : c.car = a.car := hp.car
    unfold autoPlan
    rw [hent]
    refine ⟨_, Option.bind_eq_some_iff.mpr ⟨c, hc, rfl⟩, ⟨hp.len, fun k' hk => ?_, ?_, ?_, ?_, ?_, ?_⟩, ?_⟩
    · rw [setCar_of_ne _ _ hk, hcar]
    · rw [setCar_self, hcar, h.ext, first_append, first_append, first_append]
      rfl
    · rw [setCar_self, last_concat]
    · rw [setCar_links, hlinks, links_setEgg]
      exact hseg
    · intro j hj
      rw [setCar_egg]
      refine car_of_map ((hp.cars j).trans ?_)
      by_cases hji : j = i
      · rw [hji, setEgg_self]
        rfl
      · rw [setEgg_of_ne _ _ hji]
        exact h.map_car ((List.mem_append.mp hj).resolve_right fun hj => hji (List.mem_singleton.mp hj))
    · intro j hjq hj
      rw [setCar_egg, hp.eggs j fun hje => hjq (hje ▸ List.mem_append_right l List.mem_cons_self)]
      exact setEgg_of_ne _ _ fun hji => hj (hji ▸ List.mem_append_right _ List.mem_cons_self)
    · rw [setCar_self, hcar]
      show ((a.car k).dep + 1).toNat = _
      rw [succ_dep, h.dep]

/-- **A plan of an ovum that has left puts it at the front.** -/
theorem autoRedo_moved (h : Lined a k q) (hq : q.Nodup) (hi : i ∉ q) (ho : a.egg i = some o) (hok : o.car = k) :
    ∃ b, autoRedo a k i = some b ∧ Moved a b k q (i :: q) ∧ (b.car k).dep.toNat = (q.length + 1) % 2 ^ 32 := by
  have hseg := h.seg.push_front hq hi
  have hent := h.ent
  have hext := h.ext
  unfold autoRedo
  rw [ho]
  cases q with
  | nil =>
    rw [hent, hext]
    refine ⟨_, if_neg (not_not.mpr hok), ⟨rfl, fun k' hk => setCar_of_ne _ _ hk, by rw [setCar_self]; rfl,
      by rw [setCar_self]; rfl, ?_, ?_, ?_⟩, by rw [setCar_self]; rfl⟩
    · rw [setCar_links, links_setEgg]
      exact hseg
    · intro j hj
      obtain rfl := List.mem_singleton.mp hj
      exact ⟨_, setEgg_self _ _ _, hok⟩
    · intro j _ hj
      exact setEgg_of_ne _ _ fun hji => hj (hji ▸ List.mem_cons_self)
  | cons e l =>
    obtain ⟨t, ht⟩ : ∃ t, last none (e :: l) = some t := by
      obtain ⟨l', t, hl'⟩ := List.eq_nil_or_concat (e :: l) |>.resolve_left (List.cons_ne_nil e l)
      exact ⟨t, by rw [hl', List.concat_eq_append, last_concat]⟩
    have hei : e ≠ i := fun hei => hi (hei ▸ List.mem_cons_self)
    obtain ⟨oe, hoe, -⟩ := h.car e List.mem_cons_self
    obtain ⟨c, hc, hp, hlinks⟩ := pointPre_spec
      (a := a.setEgg i (some { o with tries := o.tries + 1, pre := none, nex := some e }))
      ((setEgg_of_ne _ _ hei).trans hoe) (some i)
    have hcar : c.car = a.car := hp.car
    rw [hent, hext, ht]
    refine ⟨_, (if_neg (not_not.mpr hok)).trans (Option.bind_eq_some_iff.mpr ⟨e, rfl,
      Option.bind_eq_some_iff.mpr ⟨c, hc, rfl⟩⟩), ⟨hp.len, fun k' hk => ?_, ?_, ?_, ?_, ?_, ?_⟩, ?_⟩
    · rw [setCar_of_ne _ _ hk, hcar]
    · rw [setCar_self]
      rfl
    · rw [setCar_self, hcar, hent]
      rfl
    · rw [setCar_links, hlinks, links_setEgg]
      exact hseg
    · intro j hj
      rw [setCar_egg]
      refine car_of_map ((hp.cars j).trans ?_)
      by_cases hji : j = i
      · rw [hji, setEgg_self]
        exact congrArg some hok
      · rw [setEgg_of_ne _ _ hji]
        exact h.map_car ((List.mem_cons.mp hj).resolve_left hji)
    · intro j hjq hj
      rw [setCar_egg, hp.eggs j fun hje => hjq (hje ▸ List.mem_cons_self)]
      exact setEgg_of_ne _ _ fun hji => hj (hji ▸ List.mem_cons_self)
    · rw [setCar_self, hcar]
      show ((a.car k).dep + 1).toNat = _
      rw [succ_dep, h.dep]

/-! ### The one that leaves -/

theorem pred_dep {d : UInt32} (h : 0 < d.toNat) : (d - 1).toNat = d.toNat - 1 :=
  UInt32.toNat_sub_of_le _ _ (UInt32.le_iff_toNat_le.mpr h)

/-- **The first of a queue is taken from its front.** -/
theorem dequeue_moved (h : Lined a k (i :: q)) (hq : (i :: q).Nodup) : ∃ o b, a.egg i = some o ∧ o.pre = none ∧
    dequeue a k o = some b ∧ Moved a b k (i :: q) q ∧ (b.car k).dep.toNat = q.length ∧
    b.egg i = some o ∧ o.car = k := by
  obtain ⟨hi, hq⟩ := List.nodup_cons.mp hq
  obtain ⟨o, ho, hpre, hnex⟩ := links_eq h.seg.1
  obtain ⟨o', ho', hk⟩ := h.car i List.mem_cons_self
  obtain rfl := Option.some.inj (ho.symm.trans ho')
  have hdep : (a.car k).dep.toNat = q.length + 1 := h.dep
  cases q with
  | nil =>
    refine ⟨o, a.setCar k ⟨0, none, none⟩, ho, hpre, ?_, ⟨rfl, fun k' hk => setCar_of_ne _ _ hk, ?_, ?_, trivial, ?_,
      fun _ _ _ => rfl⟩, ?_, ho, hk⟩
    · rw [dequeue, hnex]
      rfl
    · rw [setCar_self]
      rfl
    · rw [setCar_self]
      rfl
    · exact fun j hj => absurd hj List.not_mem_nil
    · rw [setCar_self]
      rfl
  | cons e l =>
    obtain ⟨oe, hoe, -⟩ := h.car e (List.mem_cons_of_mem i List.mem_cons_self)
    obtain ⟨c, hc, hp, hlinks⟩ := pointPre_spec hoe none
    have hcar : c.car = a.car := hp.car
    have hie : i ≠ e := fun hie => hi (hie ▸ List.mem_cons_self)
    refine ⟨o, c.setCar k { c.car k with ext := some e, dep := (c.car k).dep - 1 }, ho, hpre, ?_,
      ⟨hp.len, fun k' hk => ?_, ?_, ?_, ?_, ?_, ?_⟩, ?_, ?_, hk⟩
    · rw [dequeue, hnex]
      exact Option.bind_eq_some_iff.mpr ⟨c, hc, rfl⟩
    · rw [setCar_of_ne _ _ hk, hcar]
    · rw [setCar_self]
      rfl
    · rw [setCar_self, hcar, h.ent]
      rfl
    · rw [setCar_links, hlinks]
      exact h.seg.2.linkPre hq none
    · intro j hj
      exact car_of_map ((hp.cars j).trans (h.map_car (List.mem_cons_of_mem i hj)))
    · intro j hjq _
      exact hp.eggs j fun hje => hjq (hje ▸ List.mem_cons_of_mem i List.mem_cons_self)
    · rw [setCar_self, hcar]
      show ((a.car k).dep - 1).toNat = _
      rw [pred_dep (by omega), hdep, Nat.add_sub_cancel]
    · exact (hp.eggs i hie).trans ho

/-- What is written at an ovum that is in no queue does not matter. -/
theorem Moved.setEgg (h : Moved a b k q q') (hi : i ∈ q) (hi' : i ∉ q') (o : Option Ovum) :
    Moved a (b.setEgg i o) k q q' := by
  have hne : ∀ j ∈ q', j ≠ i := fun j hj hji => hi' (hji ▸ hj)
  refine ⟨h.len, h.others, h.ext, h.ent, h.seg.congr fun j hj => ?_, fun j hj => ?_, fun j hjq hj => ?_⟩
  · rw [Autos.links, setEgg_of_ne _ _ (hne j hj), Autos.links]
  · rw [setEgg_of_ne _ _ (hne j hj)]
    exact h.car j hj
  · rw [setEgg_of_ne _ _ (ne_of_mem_of_not_mem hi hjq).symm]
    exact h.eggs j hjq hj

/-- **The next ovum is the first of the first queue that has any.** -/
theorem autoNext_moved (hk : firstCar a k = some j) (h : Lined a j (i :: q)) (hq : (i :: q).Nodup) :
    ∃ (b : Autos) (o : Ovum), autoNext a k = some (b, some (i, .cell (.cell o.tar o.wir) o.cad)) ∧
      Moved a b j (i :: q) q ∧ (b.car j).dep.toNat = q.length ∧
      b.egg i = some { o with nex := none } ∧ o.pre = none := by
  obtain ⟨o, c, ho, hpre, hc, hm, hdep, hco, -⟩ := dequeue_moved h hq
  have hext : (a.car j).ext = some i := h.ext
  refine ⟨c.setEgg i (some { o with nex := none }), o, ?_, hm.setEgg List.mem_cons_self (List.nodup_cons.mp hq).1 _,
    hdep, setEgg_self _ _ _, hpre⟩
  unfold autoNext
  rw [hk]
  have hno : ¬ o.pre.isSome := by
    rw [hpre]
    exact Bool.false_ne_true
  refine Option.bind_eq_some_iff.mpr ⟨i, hext, Option.bind_eq_some_iff.mpr ⟨o, ho, (if_neg hno).trans ?_⟩⟩
  exact Option.bind_eq_some_iff.mpr ⟨c, hc, Option.bind_eq_some_iff.mpr ⟨o, hco, rfl⟩⟩

/-! ### Dropping -/

/-- Only the list of driver `k` and the ova of a queue have changed, none of them their driver. -/
structure Passed (a b : Autos) (k : ℕ) (q : List ℕ) : Prop where
  len : b.len = a.len
  others : ∀ k', k' ≠ k → b.car k' = a.car k'
  dep : (b.car k).dep = (a.car k).dep
  cars : ∀ j, (b.egg j).map Ovum.car = (a.egg j).map Ovum.car
  eggs : ∀ j, j ∉ q → b.egg j = a.egg j

theorem Passed.setCar (a : Autos) (k : ℕ) (q : List ℕ) {c : Driver} (h : c.dep = (a.car k).dep) :
    Passed a (a.setCar k c) k q :=
  ⟨rfl, fun _ hk => setCar_of_ne _ _ hk, by rw [setCar_self, h], fun _ => rfl, fun _ _ => rfl⟩

theorem Pointed.passed (h : Pointed a b i) (k : ℕ) (hi : i ∈ q) : Passed a b k q :=
  ⟨h.len, fun _ _ => by rw [h.car], by rw [h.car], h.cars, fun j hj => h.eggs j (ne_of_mem_of_not_mem hi hj).symm⟩

theorem passNex_spec (hpre : o.pre = last none l) (hl : ∀ j ∈ l, (a.egg j).isSome) :
    ∃ b, passNex a o = some b ∧ b.links = linkNex a.links (last none l) o.nex ∧ Passed a b o.car l ∧
      (b.car o.car).ent = (a.car o.car).ent ∧
      (b.car o.car).ext = if l = [] then o.nex else (a.car o.car).ext := by
  unfold passNex
  rw [hpre]
  rcases List.eq_nil_or_concat l with rfl | ⟨l, j, rfl⟩
  · exact ⟨_, rfl, rfl, .setCar a _ _ rfl, by rw [setCar_self], by rw [setCar_self]; rfl⟩
  · rw [List.concat_eq_append] at *
    have hj : j ∈ l ++ [j] := List.mem_append_right l List.mem_cons_self
    obtain ⟨oj, hoj⟩ := Option.isSome_iff_exists.mp (hl j hj)
    obtain ⟨b, hb, hp, hlinks⟩ := pointNex_spec hoj o.nex
    rw [last_concat]
    refine ⟨b, hb, hlinks, hp.passed _ hj, by rw [hp.car], ?_⟩
    rw [if_neg (List.append_ne_nil_of_right_ne_nil l (List.cons_ne_nil j [])), hp.car]

theorem passPre_spec (hnex : o.nex = first r none) (hr : ∀ j ∈ r, (a.egg j).isSome) :
    ∃ b, passPre a o = some b ∧ b.links = linkPre a.links (first r none) o.pre ∧ Passed a b o.car r ∧
      (b.car o.car).ext = (a.car o.car).ext ∧
      (b.car o.car).ent = if r = [] then o.pre else (a.car o.car).ent := by
  unfold passPre
  rw [hnex]
  cases r with
  | nil => exact ⟨_, rfl, rfl, .setCar a _ _ rfl, by rw [setCar_self], by rw [setCar_self]; rfl⟩
  | cons j r =>
    obtain ⟨oj, hoj⟩ := Option.isSome_iff_exists.mp (hr j List.mem_cons_self)
    obtain ⟨b, hb, hp, hlinks⟩ := pointPre_spec hoj o.pre
    refine ⟨b, hb, hlinks, hp.passed _ List.mem_cons_self, by rw [hp.car], ?_⟩
    rw [if_neg (List.cons_ne_nil j r), hp.car]

/-- **A drop of an ovum that is in a queue takes it out.** -/
theorem autoDrop_moved (h : Lined a k (l ++ i :: r)) (hq : (l ++ i :: r).Nodup) (k' : ℕ) :
    ∃ b t, autoDrop a k' i = some (b, t) ∧ Moved a b k (l ++ i :: r) (l ++ r) ∧
      (b.car k).dep.toNat = (l ++ r).length ∧ b.egg i = none := by
  have hmem : i ∈ l ++ i :: r := List.mem_append_right l List.mem_cons_self
  have hil : i ∉ l ++ r := (List.nodup_middle.mp hq |> List.nodup_cons.mp).1
  obtain ⟨o, ho, hk⟩ := h.car i hmem
  obtain ⟨o', ho', hpre, hnex⟩ := links_eq h.seg.node
  obtain rfl := Option.some.inj (ho.symm.trans ho')
  obtain ⟨hnl, hnr, hdis⟩ := List.nodup_append'.mp hq
  have hcar : ∀ j, j ∈ l ++ r → (a.egg j).map Ovum.car = some k := by
    intro j hj
    refine h.map_car ?_
    rcases List.mem_append.mp hj with hj | hj
    · exact List.mem_append_left _ hj
    · exact List.mem_append_right l (List.mem_cons_of_mem i hj)
  have hsome : ∀ j, j ∈ l ++ r → (a.egg j).isSome := fun j hj => by
    obtain ⟨oj, hoj, -⟩ := car_of_map (hcar j hj)
    rw [hoj]
    rfl
  obtain ⟨b, hb, hlb, hpb, hentb, hextb⟩ := passNex_spec hpre fun j hj => hsome j (List.mem_append_left r hj)
  have hsomeb : ∀ j ∈ r, (b.egg j).isSome := fun j hj => by
    obtain ⟨oj, hoj, -⟩ := car_of_map ((hpb.cars j).trans (hcar j (List.mem_append_right l hj)))
    rw [hoj]
    rfl
  obtain ⟨c, hc, hlc, hpc, hextc, hentc⟩ := passPre_spec hnex hsomeb
  rw [hk] at hpb hpc hentb hextb hextc hentc
  have hdep : (c.car k).dep = (a.car k).dep := hpc.dep.trans hpb.dep
  have hlen : (a.car k).dep.toNat = (l ++ r).length + 1 := by
    rw [h.dep, List.length_append, List.length_append, List.length_cons, Nat.add_assoc]
  have hm : Moved a (c.setCar k { c.car k with dep := (c.car k).dep - 1 }) k (l ++ i :: r) (l ++ r) := by
    refine ⟨hpc.len.trans hpb.len, fun k' hk' => ?_, ?_, ?_, ?_, fun j hj => ?_, fun j hjq hj => ?_⟩
    · rw [setCar_of_ne _ _ hk', hpc.others k' hk', hpb.others k' hk']
    · rw [setCar_self, hextc, hextb, hnex, h.ext, first_append, first_append]
      cases l with
      | nil => rfl
      | cons x l => rfl
    · rw [setCar_self, hentc, hentb, hpre, h.ent, last_append, last_append]
      cases r with
      | nil => rfl
      | cons x r => rfl
    · rw [setCar_links, hlc, hlb, hnex, hpre]
      exact h.seg.unlink hq
    · exact car_of_map ((hpc.cars j).trans ((hpb.cars j).trans (hcar j hj)))
    · exact (hpc.eggs j fun hjr => hj (List.mem_append_right l hjr)).trans
        (hpb.eggs j fun hjl => hj (List.mem_append_left r hjl))
  refine ⟨_, decide (o.car ≠ k'), Option.bind_eq_some_iff.mpr ⟨o, ho, Option.bind_eq_some_iff.mpr ⟨b, hb,
    Option.bind_eq_some_iff.mpr ⟨c, hc, rfl⟩⟩⟩, ?_, ?_, setEgg_self _ _ _⟩
  · rw [hk]
    exact hm.setEgg hmem hil none
  · rw [hk, setEgg_car, setCar_self]
    show ((c.car k).dep - 1).toNat = _
    rw [pred_dep (by rw [hdep]; omega), hdep, hlen, Nat.add_sub_cancel]

/-- **A drop of an ovum that points nowhere empties its driver's list**, and takes one off the count. -/
theorem autoDrop_out (ho : a.egg i = some o) (hpre : o.pre = none) (hnex : o.nex = none) (k : ℕ) :
    ∃ t, autoDrop a k i = some (((a.setCar o.car ⟨(a.car o.car).dep - 1, none, none⟩).setEgg i none), t) := by
  have h1 : passNex a o = some (a.setCar o.car { a.car o.car with ext := none }) := by rw [passNex, hpre, hnex]
  have h2 : ∀ b, passPre b o = some (b.setCar o.car { b.car o.car with ent := none }) := fun b => by
    rw [passPre, hnex, hpre]
  refine ⟨decide (o.car ≠ k), Option.bind_eq_some_iff.mpr ⟨o, ho, Option.bind_eq_some_iff.mpr ⟨_, h1,
    Option.bind_eq_some_iff.mpr ⟨_, h2 _, ?_⟩⟩⟩⟩
  rw [setCar_self, setCar_self]
  simp only [Autos.setCar, Function.update_idem]

/-! ### Steps -/

/-- What else holds as long as the lists are right: an ovum is in one queue once, or it has left and points
nowhere. -/
structure Kept (a : Watched) : Prop where
  nodup : ∀ k, (a.queue k).Nodup
  out : ∀ i ∈ a.out, (∃ o, a.autos.egg i = some o ∧ o.pre = none ∧ o.nex = none) ∧ ∀ k, i ∉ a.queue k
  every : ∀ i, (a.autos.egg i).isSome → i ∈ a.out ∨ ∃ k, i ∈ a.queue k

/-- An ovum is in the queue of its own driver. -/
theorem Right.apart {w : Watched} (h : Right w) {k' : ℕ} (hi : i ∈ w.queue k) (hi' : i ∈ w.queue k') : k = k' := by
  obtain ⟨o, ho, hk⟩ := (h k).car i hi
  obtain ⟨o', ho', hk'⟩ := (h k').car i hi'
  obtain rfl := Option.some.inj (ho.symm.trans ho')
  exact hk.symm.trans hk'

theorem Right.isSome {w : Watched} (h : Right w) (hi : i ∈ w.queue k) : (w.autos.egg i).isSome := by
  obtain ⟨o, ho, -⟩ := (h k).car i hi
  rw [ho]
  rfl

theorem Lined.frame (h : Lined a k q) (hcar : b.car k = a.car k) (heggs : ∀ j ∈ q, b.egg j = a.egg j) :
    Lined b k q := by
  refine ⟨by rw [hcar, h.ext], by rw [hcar, h.ent], by rw [hcar, h.dep], h.seg.congr fun j hj => ?_, fun j hj => ?_⟩
  · rw [Autos.links, heggs j hj, Autos.links]
  · rw [heggs j hj]
    exact h.car j hj

variable {w : Watched} {out : List ℕ}

/-- **Where one queue has moved, the lists are right just when it is counted right.** -/
theorem Moved.right_iff (hr : Right w) (hm : Moved w.autos b k (w.queue k) q')
    (hq : ∀ j ∈ q', j ∈ w.queue k ∨ ∀ k', j ∉ w.queue k') :
    Right ⟨b, out, Function.update w.queue k q'⟩ ↔ (b.car k).dep.toNat = q'.length := by
  constructor
  · intro h
    have hk := (h k).dep
    dsimp only at hk
    rwa [Function.update_self] at hk
  · intro hdep k'
    dsimp only
    by_cases hk : k' = k
    · subst hk
      rw [Function.update_self]
      exact ⟨hm.ext, hm.ent, hdep, hm.seg, hm.car⟩
    · rw [Function.update_of_ne hk]
      refine (hr k').frame (hm.others k' hk) fun j hj => hm.eggs j (fun hjk => hk (hr.apart hj hjk)) fun hjq => ?_
      rcases hq j hjq with hjk | hno
      · exact hk (hr.apart hj hjk)
      · exact hno k' hj

/-- What else holds, after one queue has moved. -/
theorem Moved.kept (hk : Kept w) (hm : Moved w.autos b k (w.queue k) q') (hq : q'.Nodup)
    (hout : ∀ j ∈ out, (∃ o, b.egg j = some o ∧ o.pre = none ∧ o.nex = none) ∧ j ∉ q' ∧ ∀ k', k' ≠ k → j ∉ w.queue k')
    (hgone : ∀ j, j ∈ w.queue k ∨ j ∈ w.out → (b.egg j).isSome → j ∈ out ∨ j ∈ q') :
    Kept ⟨b, out, Function.update w.queue k q'⟩ := by
  refine ⟨fun k' => ?_, fun j hj => ⟨(hout j hj).1, fun k' => ?_⟩, fun j hj => ?_⟩
  · dsimp only
    by_cases hkk : k' = k
    · rw [hkk, Function.update_self]
      exact hq
    · rw [Function.update_of_ne hkk]
      exact hk.nodup k'
  · dsimp only
    by_cases hkk : k' = k
    · rw [hkk, Function.update_self]
      exact (hout j hj).2.1
    · rw [Function.update_of_ne hkk]
      exact (hout j hj).2.2 k' hkk
  · have hin : j ∈ q' → ∃ k', j ∈ Function.update w.queue k q' k' := fun hjq =>
      ⟨k, by rw [Function.update_self]; exact hjq⟩
    by_cases hjq : j ∈ w.queue k ∨ j ∈ q'
    · rcases hjq with hjq | hjq
      · exact (hgone j (.inl hjq) hj).imp id hin
      · exact .inr (hin hjq)
    · rw [not_or] at hjq
      have ha : (w.autos.egg j).isSome := by
        rw [← hm.eggs j hjq.1 hjq.2]
        exact hj
      rcases hk.every j ha with hjo | ⟨k', hjk⟩
      · exact (hgone j (.inr hjo) hj).imp id hin
      · have hkk : k' ≠ k := fun hkk => hjq.1 (hkk ▸ hjk)
        refine .inr ⟨k', ?_⟩
        dsimp only
        rw [Function.update_of_ne hkk]
        exact hjk

/-- A plan. -/
theorem plan_step {x : Watched} {egg : Ovum} (hr : Right w) (hk : Kept w) (h : turn w (.plan k i egg) = some x) :
    (Right x ↔ Fits w (.plan k i egg)) ∧ Kept x := by
  have hno : ¬ (w.autos.len ≤ k ∨ (w.autos.egg i).isSome) := fun hno => by
    rw [turn, if_pos hno] at h
    cases h
  have hi : ∀ k', i ∉ w.queue k' := fun k' hik => hno (.inr (hr.isSome hik))
  obtain ⟨b, hb, hm, hdep⟩ := autoPlan_moved (hr k) (hk.nodup k) (hi k) egg
  rw [turn, if_neg hno, hb] at h
  obtain rfl := Option.some.inj h
  refine ⟨(hm.right_iff hr fun j hj => ?_).trans ?_, hm.kept hk ?_ (fun j hj => ?_) fun j hj _ => ?_⟩
  · rcases List.mem_append.mp hj with hj | hj
    · exact .inl hj
    · exact .inr (List.mem_singleton.mp hj ▸ hi)
  · rw [hdep, List.length_append, List.length_singleton]
    exact Nat.mod_eq_iff_lt (by decide)
  · exact List.nodup_append'.mpr ⟨hk.nodup k, List.nodup_singleton i, List.disjoint_singleton.mpr (hi k)⟩
  · obtain ⟨⟨o, ho, hp⟩, hjq⟩ := hk.out j hj
    have hji : j ≠ i := fun hji => hno (.inr (by rw [← hji, ho]; rfl))
    have hjn : j ∉ w.queue k ++ [i] := fun hmem =>
      (List.mem_append.mp hmem).elim (hjq k) fun hmem => hji (List.mem_singleton.mp hmem)
    exact ⟨⟨o, (hm.eggs j (hjq k) hjn).trans ho, hp⟩, hjn, fun k' _ => hjq k'⟩
  · exact hj.symm.imp id (List.mem_append_left _)

/-- An ovum that has left is planned again. -/
theorem redo_step {x : Watched} (hr : Right w) (hk : Kept w) (h : turn w (.redo k i) = some x) :
    (Right x ↔ Fits w (.redo k i)) ∧ Kept x := by
  have hi : i ∈ w.out := by
    by_contra hno
    rw [turn, if_pos hno] at h
    cases h
  obtain ⟨⟨o, ho, -⟩, hiq⟩ := hk.out i hi
  rw [turn, if_neg (not_not.mpr hi)] at h
  obtain ⟨b', hb', h⟩ := Option.bind_eq_some_iff.mp h
  have hok : o.car = k := by
    by_contra hok
    rw [autoRedo, ho] at hb'
    exact absurd ((if_pos hok).symm.trans hb') (nomatch ·)
  obtain ⟨b, hb, hm, hdep⟩ := autoRedo_moved (hr k) (hk.nodup k) (hiq k) ho hok
  obtain rfl := Option.some.inj (hb.symm.trans hb')
  obtain rfl := Option.some.inj h
  refine ⟨(hm.right_iff hr fun j hj => ?_).trans ?_, hm.kept hk ?_ (fun j hj => ?_) fun j hj _ => ?_⟩
  · rcases List.mem_cons.mp hj with rfl | hj
    · exact .inr hiq
    · exact .inl hj
  · rw [hdep, List.length_cons]
    exact Nat.mod_eq_iff_lt (by decide)
  · exact List.nodup_cons.mpr ⟨hiq k, hk.nodup k⟩
  · obtain ⟨hj, hji⟩ := List.mem_filter.mp hj
    have hji : j ≠ i := of_decide_eq_true hji
    obtain ⟨⟨oj, hoj, hp⟩, hjq⟩ := hk.out j hj
    have hjn : j ∉ i :: w.queue k := fun hmem => (List.mem_cons.mp hmem).elim hji (hjq k)
    exact ⟨⟨oj, (hm.eggs j (hjq k) hjn).trans hoj, hp⟩, hjn, fun k' _ => hjq k'⟩
  · by_cases hji : j = i
    · exact .inr (hji ▸ List.mem_cons_self)
    · exact hj.symm.imp (fun hj => List.mem_filter.mpr ⟨hj, decide_eq_true hji⟩) (List.mem_cons_of_mem i)

/-- The driver that has an ovum to give is the one whose queue has. -/
theorem firstCar_eq (hr : Right w) (k : ℕ) : firstCar w.autos k = firstQueue w k := by
  unfold firstCar firstQueue
  congr 1
  funext j
  rw [(hr j).ext]
  cases w.queue j with
  | nil => rfl
  | cons i q => rfl

/-- The next. -/
theorem next_step {x : Watched} (hr : Right w) (hk : Kept w) (h : turn w (.next k) = some x) :
    (Right x ↔ Fits w (.next k)) ∧ Kept x := by
  obtain ⟨⟨b', got⟩, hb', h⟩ := Option.bind_eq_some_iff.mp h
  obtain rfl := Option.some.inj h
  cases hf : firstQueue w k with
  | none =>
    have hfc := (firstCar_eq hr k).trans hf
    have hstay : some (w.autos, none) = some (b', got) := by
      rw [← hb', autoNext, hfc]
    obtain ⟨rfl, rfl⟩ := Prod.mk.inj (Option.some.inj hstay)
    have hsame : Watched.mk w.autos (w.out ++ ((none : Option (ℕ × Noun)).map Prod.fst).toList)
        (queueTurn w (.next k)) = w := by
      simp [queueTurn, hf]
    rw [hsame]
    exact ⟨iff_of_true hr trivial, hk⟩
  | some j =>
    have hfc := (firstCar_eq hr k).trans hf
    obtain ⟨i, q, hq⟩ : ∃ i q, w.queue j = i :: q := by
      have hne := List.find?_some hf
      cases hq : w.queue j with
      | nil => simp [hq] at hne
      | cons i q => exact ⟨i, q, rfl⟩
    have hl : Lined w.autos j (i :: q) := hq ▸ hr j
    have hnd : (i :: q).Nodup := hq ▸ hk.nodup j
    obtain ⟨b, o, hb, hm, hdep, hbi, hpre⟩ := autoNext_moved hfc hl hnd
    obtain ⟨rfl, rfl⟩ := Prod.mk.inj (Option.some.inj (hb.symm.trans hb'))
    have hturn : queueTurn w (.next k) = Function.update w.queue j q := by
      simp only [queueTurn, hf, hq, List.tail_cons]
    rw [← hq] at hm
    rw [hturn]
    have hmem : i ∈ w.queue j := hq ▸ List.mem_cons_self
    refine ⟨(hm.right_iff hr fun x hx => .inl (hq ▸ List.mem_cons_of_mem i hx)).trans (iff_of_true hdep trivial),
      hm.kept hk (List.nodup_cons.mp hnd).2 (fun x hx => ?_) fun x hx _ => ?_⟩
    · rcases List.mem_append.mp hx with hx | hx
      · obtain ⟨⟨ox, hox, hp⟩, hxq⟩ := hk.out x hx
        have hxn : x ∉ q := fun hmem => hxq j (hq ▸ List.mem_cons_of_mem i hmem)
        exact ⟨⟨ox, (hm.eggs x (hxq j) hxn).trans hox, hp⟩, hxn, fun k' _ => hxq k'⟩
      · obtain rfl : x = i := List.mem_singleton.mp hx
        exact ⟨⟨_, hbi, hpre, rfl⟩, (List.nodup_cons.mp hnd).1, fun k' hk' hx => hk' (hr.apart hx hmem)⟩
    · rcases hx with hx | hx
      · rw [hq] at hx
        rcases List.mem_cons.mp hx with rfl | hx
        · exact .inl (List.mem_append_right _ List.mem_cons_self)
        · exact .inr hx
      · exact .inl (List.mem_append_left _ hx)

/-- One is dropped that is in a queue. -/
theorem drop_step_queued {x : Watched} (hr : Right w) (hk : Kept w) {c : ℕ} (hi : i ∈ w.queue c)
    (h : turn w (.drop k i) = some x) : Right x ∧ Kept x := by
  obtain ⟨⟨b', t'⟩, hb', h⟩ := Option.bind_eq_some_iff.mp h
  obtain rfl := Option.some.inj h
  obtain ⟨l, r, hq⟩ := List.append_of_mem hi
  have hnd := hk.nodup c
  have hl := hr c
  rw [hq] at hnd hl
  obtain ⟨b, t, hb, hm, hdep, hbi⟩ := autoDrop_moved hl hnd k
  obtain ⟨rfl, rfl⟩ := Prod.mk.inj (Option.some.inj (hb.symm.trans hb'))
  obtain ⟨hnot, hnd'⟩ := List.nodup_cons.mp (List.nodup_middle.mp hnd)
  have hil : i ∉ l := fun hil => hnot (List.mem_append_left r hil)
  have hturn : queueTurn w (.drop k i) = Function.update w.queue c (l ++ r) := by
    funext k'
    by_cases hkc : k' = c
    · rw [hkc, Function.update_self]
      show (w.queue c).erase i = l ++ r
      rw [hq, List.erase_append_right _ hil, List.erase_cons_head]
    · rw [Function.update_of_ne hkc]
      exact List.erase_of_not_mem fun hik => hkc (hr.apart hik hi)
  have hsub : ∀ j ∈ l ++ r, j ∈ w.queue c := fun j hj => by
    rw [hq]
    exact (List.mem_append.mp hj).elim (List.mem_append_left _) fun hj =>
      List.mem_append_right l (List.mem_cons_of_mem i hj)
  rw [← hq] at hm
  rw [hturn]
  refine ⟨(hm.right_iff hr fun j hj => .inl (hsub j hj)).mpr hdep, hm.kept hk hnd' (fun j hj => ?_) fun j hj hbj => ?_⟩
  · obtain ⟨hj, -⟩ := List.mem_filter.mp hj
    obtain ⟨⟨oj, hoj, hp⟩, hjq⟩ := hk.out j hj
    have hjn : j ∉ l ++ r := fun hmem => hjq c (hsub j hmem)
    exact ⟨⟨oj, (hm.eggs j (hjq c) hjn).trans hoj, hp⟩, hjn, fun k' _ => hjq k'⟩
  · have hji : j ≠ i := fun hji => by
      rw [hji, hbi] at hbj
      cases hbj
    rcases hj with hj | hj
    · rw [hq] at hj
      rcases List.mem_append.mp hj with hj | hj
      · exact .inr (List.mem_append_left r hj)
      · exact .inr (List.mem_append_right l ((List.mem_cons.mp hj).resolve_left hji))
    · exact .inl (List.mem_filter.mpr ⟨hj, decide_eq_true hji⟩)

/-- **One is dropped that has left**: the list is empty where the queue is not, or the count wraps. -/
theorem drop_step_out {x : Watched} (hr : Right w) (hk : Kept w) (hi : i ∈ w.out)
    (h : turn w (.drop k i) = some x) : ¬ Right x := by
  intro hx
  obtain ⟨⟨b', t'⟩, hb', h⟩ := Option.bind_eq_some_iff.mp h
  obtain rfl := Option.some.inj h
  obtain ⟨⟨o, ho, hpre, hnex⟩, hiq⟩ := hk.out i hi
  obtain ⟨t, hb⟩ := autoDrop_out ho hpre hnex k
  obtain ⟨rfl, rfl⟩ := Prod.mk.inj (Option.some.inj (hb.symm.trans hb'))
  have hq : queueTurn w (.drop k i) o.car = w.queue o.car := List.erase_of_not_mem (hiq o.car)
  have hl := hx o.car
  dsimp only at hl
  rw [hq] at hl
  have hext := hl.ext
  have hdep := hl.dep
  have hlen := (hr o.car).dep
  rw [setEgg_car, setCar_self] at hext hdep
  cases hqq : w.queue o.car with
  | nil =>
    rw [hqq] at hdep hlen
    have hzero : (w.autos.car o.car).dep = 0 := UInt32.toNat_inj.mp hlen
    rw [hzero] at hdep
    exact absurd hdep (by decide)
  | cons e q =>
    rw [hqq] at hext
    cases hext

/-- One that has left is done with. -/
theorem done_step {x : Watched} (hr : Right w) (hk : Kept w) (h : turn w (.done i) = some x) : Right x ∧ Kept x := by
  have hi : i ∈ w.out := by
    by_contra hno
    rw [turn, if_pos hno] at h
    cases h
  rw [turn, if_neg (not_not.mpr hi)] at h
  obtain rfl := Option.some.inj h
  obtain ⟨-, hiq⟩ := hk.out i hi
  refine ⟨fun k => (hr k).frame rfl fun j hj => setEgg_of_ne _ _ (ne_of_mem_of_not_mem hj (hiq k)),
    hk.nodup, fun j hj => ?_, fun j hj => ?_⟩
  · obtain ⟨hj, hji⟩ := List.mem_filter.mp hj
    obtain ⟨⟨oj, hoj, hp⟩, hjq⟩ := hk.out j hj
    exact ⟨⟨oj, (setEgg_of_ne _ _ (of_decide_eq_true hji)).trans hoj, hp⟩, hjq⟩
  · by_cases hji : j = i
    · dsimp only at hj
      rw [hji, setEgg_self] at hj
      cases hj
    · dsimp only at hj
      rw [setEgg_of_ne _ _ hji] at hj
      exact (hk.every j hj).imp (fun hj => List.mem_filter.mpr ⟨hj, decide_eq_true hji⟩) id

/-- An ovum that is dropped is there. -/
theorem drop_isSome {x : Watched} (h : turn w (.drop k i) = some x) : (w.autos.egg i).isSome := by
  obtain ⟨_, hb, _⟩ := Option.bind_eq_some_iff.mp h
  obtain ⟨o, ho, _⟩ := Option.bind_eq_some_iff.mp hb
  rw [ho]
  rfl

/-- **An event leaves the lists right just when it fits.** -/
theorem turn_right_iff {x : Watched} {e : Event} (hr : Right w) (hk : Kept w) (h : turn w e = some x) :
    (Right x ↔ Fits w e) ∧ (Fits w e → Kept x) := by
  cases e with
  | plan k i egg => exact ⟨(plan_step hr hk h).1, fun _ => (plan_step hr hk h).2⟩
  | redo k i => exact ⟨(redo_step hr hk h).1, fun _ => (redo_step hr hk h).2⟩
  | next k => exact ⟨(next_step hr hk h).1, fun _ => (next_step hr hk h).2⟩
  | drop k i =>
    refine ⟨⟨fun hx => ?_, fun hf => ?_⟩, fun hf => ?_⟩
    · refine (hk.every i (drop_isSome h)).resolve_left fun hi => ?_
      exact drop_step_out hr hk hi h hx
    · obtain ⟨c, hi⟩ := hf
      exact (drop_step_queued hr hk hi h).1
    · obtain ⟨c, hi⟩ := hf
      exact (drop_step_queued hr hk hi h).2
  | done i => exact ⟨iff_of_true (done_step hr hk h).1 trivial, fun _ => (done_step hr hk h).2⟩

/-! ### Runs -/

theorem start_right (len : ℕ) : Right (.start len) := fun _ =>
  ⟨rfl, rfl, rfl, trivial, fun _ hi => absurd hi List.not_mem_nil⟩

theorem start_kept (len : ℕ) : Kept (.start len) :=
  ⟨fun _ => List.nodup_nil, fun _ hi => absurd hi List.not_mem_nil, fun _ hi => nomatch hi⟩

/-- **The lists are right all along just when every event fits.** -/
theorem queues_right_iff (len : ℕ) {l : List Event} {x : Watched} (h : Replay.follow turn (.start len) l = some x) :
    (∀ n a, Replay.At turn (.start len) l n a → Right a) ↔ Replay.Along turn Fits (.start len) l :=
  Replay.Along.iff_all_with (fun _ => True) (fun a => Right a ∧ Kept a) Right (fun _ _ _ _ _ => trivial)
    (fun _ _ _ _ ha hf ht => ⟨(turn_right_iff ha.1 ha.2 ht).1.mpr hf, (turn_right_iff ha.1 ha.2 ht).2 hf⟩)
    (fun _ _ _ _ ha _ ht => (turn_right_iff ha.1 ha.2 ht).1) trivial ⟨start_right len, start_kept len⟩
    (start_right len) h

/-- An ovum that says nothing. -/
def blank : Ovum := ⟨0, .atom 0, .atom 0, .atom 0, none, none, 0⟩

/-- Two ova are planned, and the first leaves. -/
def firstLeaves : List Event := [.plan 0 0 blank, .plan 0 1 blank, .next 0]

theorem queues_right_leaves : (Replay.follow turn (.start 1) firstLeaves).isSome ∧
    ((∀ n a, Replay.At turn (.start 1) firstLeaves n a → Right a) ↔
      Replay.Along turn Fits (.start 1) firstLeaves) := by
  have hsome : (Replay.follow turn (.start 1) firstLeaves).isSome := by decide
  obtain ⟨x, hx⟩ := Option.isSome_iff_exists.mp hsome
  exact ⟨hsome, queues_right_iff 1 hx⟩

/-- The first is dropped after it has left, and the second is lost. -/
theorem drop_empties_list : ¬ ∀ n a, Replay.At turn (.start 1) (firstLeaves ++ [.drop 0 0]) n a → Right a := by
  intro h
  have hend : (Replay.follow turn (.start 1) (firstLeaves ++ [.drop 0 0])).map
      (fun x => ((x.autos.car 0).ext, x.queue 0)) = some (none, [1]) := by decide
  obtain ⟨x, hx, hpair⟩ := Option.map_eq_some_iff.mp hend
  have hext := (h 4 x ⟨le_rfl, hx⟩ 0).ext
  rw [(Prod.mk.inj hpair).1, (Prod.mk.inj hpair).2] at hext
  cases hext

end Auto
end Ursockets
