/-
# The counts of unacknowledged facts

A channel counts for each subscription the facts that the client has not acknowledged,
and ends one with too many. An acknowledgement takes off the count one for every event
of the request, although only facts are counted. The counts are the numbers of facts
in the queue as long as this makes no difference.

Key definitions: `factsOf`, `Tallied`, `Change.Fair`, `Fair`.
Key theorems: `unackedOf_ack`, `Tallied.on`, `tallied_of_run`.
-/
import Ursockets.EyreKeep
import Mathlib.Data.List.TakeWhile

namespace Ursockets
namespace Eyre

/-! ### Acknowledgements -/

/-- The events that an acknowledgement of `n` takes from the queue. -/
def ackedBy (n : ℕ) (q : List QueuedEvent) : List QueuedEvent := q.takeWhile fun e => decide (e.id ≤ n)

/-- The events that stay. -/
def unackedBy (n : ℕ) (q : List QueuedEvent) : List QueuedEvent := q.dropWhile fun e => decide (e.id ≤ n)

/-- How many events of a request there are. -/
def eventsOf (rid : ℕ) (q : List QueuedEvent) : ℕ := q.countP fun e => decide (e.requestId = rid)

/-- How many facts of a request there are. -/
def factsOf (rid : ℕ) (q : List QueuedEvent) : ℕ := q.countP fun e => decide (e.requestId = rid) && e.event.isFact

theorem pruneEvents_spec (n : ℕ) : ∀ (q : List QueuedEvent) (acked : Map ℕ ℕ),
    (pruneEvents acked n q).2 = unackedBy n q ∧
      ∀ rid, ((pruneEvents acked n q).1.lookup rid).getD 0 = (acked.lookup rid).getD 0 + eventsOf rid (ackedBy n q)
  | [], acked => ⟨rfl, fun _ => rfl⟩
  | e :: q, acked => by
    unfold pruneEvents unackedBy ackedBy
    by_cases hn : n < e.id
    · have hle : decide (e.id ≤ n) = false := decide_eq_false (Nat.not_le.mpr hn)
      rw [if_pos hn, List.dropWhile_cons, List.takeWhile_cons, hle]
      exact ⟨rfl, fun _ => rfl⟩
    · have hle : decide (e.id ≤ n) = true := decide_eq_true (Nat.not_lt.mp hn)
      rw [if_neg hn, List.dropWhile_cons, List.takeWhile_cons, hle]
      obtain ⟨h1, h2⟩ := pruneEvents_spec n q (acked.insert e.requestId ((acked.lookup e.requestId).getD 0 + 1))
      refine ⟨h1, fun rid => (h2 rid).trans ?_⟩
      unfold eventsOf
      rw [if_pos rfl, List.countP_cons]
      by_cases hr : e.requestId = rid
      · subst hr
        rw [AList.lookup_insert, Option.getD_some, decide_eq_true rfl, if_pos rfl]
        exact Nat.add_right_comm _ _ _
      · rw [AList.lookup_insert_ne (Ne.symm hr), decide_eq_false hr, if_neg Bool.false_ne_true]
        rfl

theorem subtract_spec : ∀ (l : List (Σ _ : ℕ, ℕ)) (hl : l.NodupKeys) (unacked : Map ℕ ℕ) (rid : ℕ),
    (subtractAckedEvents ⟨l, hl⟩ unacked).lookup rid = (unacked.lookup rid).map fun sus => sus - (l.dlookup rid).getD 0
  | [], _, unacked, rid => by
    cases h : unacked.lookup rid <;> exact h
  | a :: l, hl, unacked, rid => by
    obtain ⟨hnot, hl'⟩ := List.nodupKeys_cons.mp hl
    have hrest := fun u => subtract_spec l hl' u rid
    unfold subtractAckedEvents at hrest ⊢
    rw [List.foldl_cons, hrest]
    by_cases hr : rid = a.1
    · subst hr
      have hnone : l.dlookup a.1 = none := List.dlookup_eq_none.mpr hnot
      rw [hnone, show a = ⟨a.1, a.2⟩ from rfl, List.dlookup_cons_eq]
      cases hu : unacked.lookup a.1 with
      | none => simp [hu]
      | some sus => simp
    · rw [List.dlookup_cons_ne _ _ hr]
      congr 1
      split
      · rfl
      · exact AList.lookup_insert_ne hr

/-- **An acknowledgement takes off the count of a request one for each of its events.** -/
theorem unackedOf_ack (now : Da) (n : ℕ) (c : Channel) (rid : ℕ) :
    ((Change.ack now n).on c).unackedOf rid = c.unackedOf rid - eventsOf rid (ackedBy n c.events) := by
  have h := (pruneEvents_spec n c.events ∅).2 rid
  have hs := subtract_spec (pruneEvents ∅ n c.events).1.entries (pruneEvents ∅ n c.events).1.nodupKeys c.unacked rid
  unfold Channel.unackedOf Change.on
  dsimp only
  rw [hs]
  have hd : (List.dlookup rid (pruneEvents ∅ n c.events).1.entries).getD 0 = eventsOf rid (ackedBy n c.events) := by
    refine h.trans ?_
    rw [AList.lookup_empty, Option.getD_none, Nat.zero_add]
  rw [hd]
  cases c.unacked.lookup rid with
  | none => exact (Nat.zero_sub _).symm
  | some sus => rfl

theorem factsOf_split (rid n : ℕ) (q : List QueuedEvent) :
    factsOf rid q = factsOf rid (ackedBy n q) + factsOf rid (unackedBy n q) := by
  unfold factsOf ackedBy unackedBy
  rw [← List.countP_append, List.takeWhile_append_dropWhile]

theorem factsOf_le (rid : ℕ) (q : List QueuedEvent) : factsOf rid q ≤ eventsOf rid q := by
  unfold factsOf eventsOf
  apply List.countP_mono_left
  intro e _ h
  exact (Bool.and_eq_true _ _ ▸ h).1

/-! ### The counts -/

/-- The counts of a channel are the numbers of the facts in its queue, and no other request has a count. -/
structure Tallied (c : Channel) : Prop where
  counts : ∀ rid ∈ c.subscriptions, c.unackedOf rid = factsOf rid c.events
  idle : ∀ rid, rid ∉ c.subscriptions → c.unackedOf rid = 0

/-- A change that the counts follow. An acknowledgement takes, of each subscription, facts only or all
of its facts; and a subscription begins with no fact of an earlier one in the queue. -/
def Change.Fair (c : Channel) : Change → Prop
  | .ack _ n => ∀ rid ∈ c.subscriptions, eventsOf rid (ackedBy n c.events) = factsOf rid (ackedBy n c.events) ∨
      factsOf rid (unackedBy n c.events) = 0
  | .subscribe rid _ => rid ∈ c.subscriptions ∨ factsOf rid c.events = 0
  | .record rid event => event.isFact → rid ∈ c.subscriptions
  | _ => True

variable {c : Channel}

/-- **An acknowledgement keeps the count of a subscription right if and only if** it takes facts of it
only, or all of them. -/
theorem Tallied.ack_iff (h : Tallied c) (now : Da) (n : ℕ) {rid : ℕ} (hr : rid ∈ c.subscriptions) :
    ((Change.ack now n).on c).unackedOf rid = factsOf rid ((Change.ack now n).on c).events ↔
      eventsOf rid (ackedBy n c.events) = factsOf rid (ackedBy n c.events) ∨ factsOf rid (unackedBy n c.events) =
        0 := by
  have hev : ((Change.ack now n).on c).events = unackedBy n c.events := (pruneEvents_spec n c.events ∅).1
  have hsplit := factsOf_split rid n c.events
  have hle := factsOf_le rid (ackedBy n c.events)
  rw [unackedOf_ack, hev, h.counts rid hr]
  omega

theorem unackedOf_insert (u : Map ℕ ℕ) (rid k rid' : ℕ) :
    ((u.insert rid k).lookup rid').getD 0 = if rid' = rid then k else (u.lookup rid').getD 0 := by
  split
  · rename_i h
    rw [h, AList.lookup_insert, Option.getD_some]
  · rename_i h
    rw [AList.lookup_insert_ne h]

theorem unackedOf_erase (u : Map ℕ ℕ) (rid rid' : ℕ) :
    ((u.erase rid).lookup rid').getD 0 = if rid' = rid then 0 else (u.lookup rid').getD 0 := by
  split
  · rename_i h
    rw [h, AList.lookup_erase, Option.getD_none]
  · rename_i h
    rw [AList.lookup_erase_ne h]

theorem factsOf_concat (rid id rid' : ℕ) (event : ChannelEvent) (q : List QueuedEvent) :
    factsOf rid (q ++ [⟨id, rid', event⟩]) = factsOf rid q + if rid' = rid ∧ event.isFact then 1 else 0 := by
  unfold factsOf
  rw [List.countP_append, List.countP_singleton]
  simp only [Bool.and_eq_true, decide_eq_true_eq]

/-- **A fair change keeps the counts right.** -/
theorem Tallied.on {ch : Change} (h : Tallied c) (hf : ch.Fair c) : Tallied (ch.on c) := by
  cases ch with
  | ack now n =>
    refine ⟨fun rid hr => (h.ack_iff now n hr).mpr (hf rid hr), fun rid hr => ?_⟩
    rw [unackedOf_ack, h.idle rid hr, Nat.zero_sub]
  | subscribe rid sub =>
    refine ⟨fun rid' hr => ?_, fun rid' hr => h.idle rid' fun hin => hr ((AList.mem_insert _).mpr (.inr hin))⟩
    by_cases hin : rid' ∈ c.subscriptions
    · exact h.counts rid' hin
    · obtain rfl := ((AList.mem_insert _).mp hr).resolve_right hin
      exact (h.idle rid' hin).trans (hf.resolve_left hin).symm
  | unsubscribe rid =>
    refine ⟨fun rid' hr => ?_, fun rid' hr => ?_⟩
    · obtain ⟨hne, hin⟩ := AList.mem_erase.mp hr
      exact (unackedOf_erase _ _ _).trans ((if_neg hne).trans (h.counts rid' hin))
    · refine (unackedOf_erase _ _ _).trans ?_
      split
      · rfl
      · rename_i hne
        exact h.idle rid' fun hin => hr (AList.mem_erase.mpr ⟨hne, hin⟩)
  | record rid event =>
    have hu : ∀ rid', ((Change.record rid event).on c).unackedOf rid' =
        c.unackedOf rid' + if rid = rid' ∧ event.isFact then 1 else 0 := by
      intro rid'
      unfold Change.on Channel.record Channel.unackedOf
      dsimp only
      split
      · rename_i hfact
        rw [unackedOf_insert]
        by_cases he : rid' = rid
        · subst he
          rw [if_pos rfl, if_pos ⟨rfl, hfact⟩]
        · rw [if_neg he, if_neg fun h => he h.1.symm]
          rfl
      · rename_i hfact
        rw [if_neg fun h => hfact h.2]
        rfl
    refine ⟨fun rid' hr => ?_, fun rid' hr => ?_⟩
    · rw [hu, h.counts rid' hr]
      exact (factsOf_concat _ _ _ _ _).symm
    · rw [hu, h.idle rid' hr, if_neg]
      rintro ⟨rfl, hfact⟩
      exact hr (hf hfact)
  | quit rid =>
    have hfacts : ∀ rid', factsOf rid' ((Change.quit rid).on c).events = factsOf rid' c.events := fun rid' => by
      refine (factsOf_concat _ _ _ _ _).trans ?_
      rw [if_neg fun h => Bool.false_ne_true h.2, Nat.add_zero]
    refine ⟨fun rid' hr => ?_, fun rid' hr => ?_⟩
    · obtain ⟨hne, hin⟩ := AList.mem_erase.mp hr
      rw [hfacts]
      exact (unackedOf_erase _ _ _).trans ((if_neg hne).trans (h.counts rid' hin))
    · refine (unackedOf_erase _ _ _).trans ?_
      split
      · rfl
      · rename_i hne
        exact h.idle rid' fun hin => hr (AList.mem_erase.mpr ⟨hne, hin⟩)
  | beat t => exact ⟨h.counts, h.idle⟩

/-! ### Runs -/

theorem upkeep_tallied : Upkeep Tallied Change.Fair where
  fresh := by
    rintro c ⟨-, hev, hu, hs⟩
    refine ⟨fun rid hr => ?_, fun rid _ => ?_⟩
    · rw [hs] at hr
      exact absurd hr (AList.notMem_empty rid)
    · unfold Channel.unackedOf
      rw [hu]
      rfl
  same := by
    intro c c' hcore h
    obtain ⟨-, -, hev, hu, hs⟩ : c'.mode = c.mode ∧ c'.nextId = c.nextId ∧ c'.events = c.events ∧
      c'.unacked = c.unacked ∧
        c'.subscriptions = c.subscriptions := by
      simpa only [Channel.core, Prod.mk.injEq] using hcore
    refine ⟨fun rid hr => ?_, fun rid hr => ?_⟩
    · rw [hs] at hr
      unfold Channel.unackedOf
      rw [hu, hev]
      exact h.counts rid hr
    · rw [hs] at hr
      unfold Channel.unackedOf
      rw [hu]
      exact h.idle rid hr
  on := fun h hf => h.on hf
  record := fun h => h
  quit := trivial
  unsubscribe := trivial

variable {text : Text} {our : Ship} {site : ChannelUrl}

/-- **The counts in a run**, if each acknowledgement takes of each subscription facts only or all of its
facts, and each new subscription finds no fact of an earlier one in the queue: the count of a
subscription is the number of its facts in the queue, one that is found clogged has as many facts
as are allowed in it, and the acknowledgement of all events brings every count to zero. -/
theorem tallied_of_run {es : List Task} {a : Sys} {cid : String}
    (hfair : Replay.Along (turn text our site) (FairTask Change.Fair text our site) .start es)
    (h : Replay.follow (turn text our site) .start es = some a) (hc : a.state.session.lookup cid = some c) :
    ∀ rid ∈ c.subscriptions, c.unackedOf rid = factsOf rid c.events ∧
      (∀ now, c.clogged now rid = true → clogThreshold ≤ factsOf rid c.events) ∧
      ∀ now n, (∀ e ∈ c.events, e.id ≤ n) → ((Change.ack now n).on c).unackedOf rid = 0 := by
  have ht : Tallied c := upkeep_of_run upkeep_tallied hfair h cid c hc
  intro rid hr
  refine ⟨ht.counts rid hr, fun now hclog => ?_, fun now n hall => ?_⟩
  · have hle := of_decide_eq_true (Bool.and_eq_true _ _ ▸ hclog).1
    rwa [ht.counts rid hr] at hle
  · have hq : ackedBy n c.events = c.events := by
      unfold ackedBy
      rw [List.takeWhile_eq_self_iff]
      exact fun e he => decide_eq_true (hall e he)
    rw [unackedOf_ack, hq, ht.counts rid hr]
    exact Nat.sub_eq_zero_of_le (factsOf_le rid c.events)

/-- What a channel takes from outside, where every body has the requests `reqs` and every noun is json. -/
def talkRoof (reqs : List ChannelRequest) : Roof :=
  ⟨fun _ => none, fun _ _ => .ok reqs, fun _ _ _ _ => "", fun _ => some "base", some, fun _ _ => none,
    fun _ _ _ => "", fun _ _ => ""⟩

/-- A subscription, its acknowledgement by the agent and a fact. -/
def factRun : List Task :=
  [.request (talkRoof [.subscribe 1 1 "app" ["path"]]) 10 3 ⟨[5], 0, [9]⟩ true 0 putRequest,
    .unto (talkRoof []) 11 3 "c" 1 none (.watchAck none), .unto (talkRoof []) 12 3 "c" 1 none (.fact "json" "0")]

theorem factRun_fair : Replay.Along (turn guestText 1 fun _ => some "c")
    (FairTask Change.Fair guestText 1 fun _ => some "c")
    .start factRun := by
  refine ⟨fun sid identity som s _ cid hsite => ⟨fun _ reqs c hh _ hc => ?_, fun _ c n hc => ?_⟩,
    fun _ _ => ⟨trivial, fun _ _ => ⟨trivial, fun _ _ => trivial⟩⟩⟩
  · obtain ⟨body, -, hp⟩ := hh.parsed
    obtain rfl := Except.ok.inj hp
    obtain rfl := Option.some.inj hsite
    obtain rfl := Option.some.inj hc
    exact .inr ⟨.inr rfl, trivial⟩
  · exact absurd hc (Option.some_ne_none c).symm

theorem factRun_counts : ∃ a c, Replay.follow (turn guestText 1 fun _ => some "c") .start factRun = some a ∧
    a.state.session.lookup "c" = some c ∧ factsOf 1 c.events = 1 ∧ c.unackedOf 1 = factsOf 1 c.events := by
  have h : Replay.follow (turn guestText 1 fun _ => some "c") .start factRun = some _ := rfl
  refine ⟨_, _, h, rfl, rfl, ?_⟩
  exact (tallied_of_run factRun_fair h (show AList.lookup "c" _ = _ from rfl) 1 (by decide)).1

/-- The client acknowledges the agent's acknowledgement: the count goes to zero with the fact in the queue. -/
theorem ack_miscounts : ∃ a c, Replay.follow (turn guestText 1 fun _ => some "c") .start
      (factRun ++ [.request (talkRoof [.ack 0]) 13 4 ⟨[], 0, []⟩ true 0 laterPut]) = some a ∧
    a.state.session.lookup "c" = some c ∧ 1 ∈ c.subscriptions ∧ factsOf 1 c.events = 1 ∧ c.unackedOf 1 = 0 :=
  ⟨_, _, rfl, rfl, by decide, rfl, rfl⟩

end Eyre
end Ursockets
