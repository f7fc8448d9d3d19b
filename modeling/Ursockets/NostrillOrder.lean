/-
# Events from relays, in whatever order

Text notes are filed under their time in seconds, so that of two notes of one
second the last to arrive stays; and a profile is that of the last metadata to
arrive. So nothing is lost exactly when no two notes that arrive are of the same
second, and the profiles are those of the newest metadata exactly when, for each
public key, the last to arrive says what a newest one says.

Key definitions: `EventSet`, `Arrival`, `Known`, `arriveAll`, `lastOf`, `Filed`,
`OrderFits`.
Key theorems: `arriveAll_filed_iff`.
-/
import Ursockets.NostrillAgent

namespace Ursockets
namespace Nostrill

/-- Events, by their ids. -/
structure EventSet where
  ev : ℕ → Event
  id_ev : ∀ i, (ev i).id = i

/-- The event of an id comes in from a relay, on a subscription. -/
structure Arrival where
  bowl : Bowl
  wid : ℕ
  subId : String
  id : ℕ

/-- The relay is connected, and the subscription is among its requests. -/
def Known (st : State) (a : Arrival) : Prop :=
  ∃ relay, st.relays.lookup a.wid = some relay ∧ (relay.reqs.lookup a.subId).isSome

section

variable (S : Sys) (E : EventSet)

/-- The message is given to the agent. -/
def arrive (st : State) (a : Arrival) : State :=
  ((onPoke S a.bowl st (.clientMessage a.wid (some (.event a.subId (E.ev a.id))))).map Prod.snd).getD st

/-- Messages one after another. -/
def arriveAll (st : State) (l : List Arrival) : State := l.foldl (arrive S E) st

/-- What the content of a metadata event is read as. -/
def metaOf (ev : Event) : Option UserMeta := (S.deJson ev.content).bind userMetaDe

/-- A text note of a second. -/
def isNoteAt (t : ℕ) (ev : Event) : Bool := ev.kind = 1 ∧ ev.createdAt = t

/-- A metadata event of a public key, which can be read. -/
def isMetaOf (p : ℕ) (ev : Event) : Bool := ev.kind = 0 ∧ ev.pubkey = p ∧ (metaOf S ev).isSome

/-- The last event to arrive of those that satisfy `q`. -/
def lastOf (q : Event → Bool) (l : List Arrival) : Option Event := (l.map fun a => E.ev a.id).reverse.find? q

/-- A newest metadata event of a public key. -/
def NewestMeta (l : List Arrival) (p : ℕ) (ev : Event) : Prop :=
  (∃ a ∈ l, E.ev a.id = ev) ∧ isMetaOf S p ev ∧
    ∀ a ∈ l, isMetaOf S p (E.ev a.id) → (E.ev a.id).createdAt ≤ ev.createdAt

/-- Every text note is in the nostr feed once, and every profile is of a newest metadata event. -/
structure Filed (l : List Arrival) (st' : State) : Prop where
  notes : ∀ a ∈ l, (E.ev a.id).kind = 1 → ∃! t, ∃ w, st'.nostrFeed.lookup t = some w ∧ w.event.id = a.id
  profiles : ∀ p, (∃ a ∈ l, isMetaOf S p (E.ev a.id)) →
    ∃ ev um, NewestMeta S E l p ev ∧ metaOf S ev = some um ∧
      st'.profiles.lookup (.nostr p) = some (emptyNostrProfile S p um)

/-- No two notes are of the same second, and the last metadata of a public key says what a newest says. -/
structure OrderFits (l : List Arrival) : Prop where
  notes : ∀ a ∈ l, ∀ b ∈ l, (E.ev a.id).kind = 1 → (E.ev b.id).kind = 1 →
    (E.ev a.id).createdAt = (E.ev b.id).createdAt → a.id = b.id
  profiles : ∀ p last, lastOf E (isMetaOf S p) l = some last → ∃ ev, NewestMeta S E l p ev ∧ metaOf S ev = metaOf S last

end

/-! ### One event -/

section

variable {S : Sys} {E : EventSet} {st : State} {a : Arrival}

theorem fileEvent_nostrFeed (st : State) (url : String) (ev : Event) :
    (fileEvent S st url ev).nostrFeed =
      if ev.kind = 1 then st.nostrFeed.insert ev.createdAt ⟨[url], ev⟩ else st.nostrFeed := by
  unfold fileEvent
  by_cases h0 : ev.kind = 0
  · rw [if_pos h0, if_neg (by omega)]
    unfold parseMetadata
    split <;> rfl
  · rw [if_neg h0]
    split
    · unfold parsePoast
      dsimp only
      split <;> rfl
    · rfl

theorem fileEvent_profiles (st : State) (url : String) (ev : Event) (p : ℕ) :
    (fileEvent S st url ev).profiles.lookup (.nostr p) =
      if isMetaOf S p ev then (metaOf S ev).map (emptyNostrProfile S p) else st.profiles.lookup (.nostr p) := by
  unfold fileEvent isMetaOf
  by_cases h0 : ev.kind = 0
  · rw [if_pos h0]
    rw [parseMetadata, ← metaOf]
    cases hm : metaOf S ev with
    | none => simp
    | some um =>
      by_cases hp : ev.pubkey = p
      · subst hp
        simp [h0]
      · have hne : User.nostr p ≠ .nostr ev.pubkey := fun h => hp (User.nostr.inj h).symm
        simp [hp, Finmap.lookup_insert_of_ne _ hne]
  · rw [if_neg h0]
    have hno : decide (ev.kind = 0 ∧ ev.pubkey = p ∧ (metaOf S ev).isSome) = false := by simp [h0]
    rw [hno]
    split
    · unfold parsePoast
      dsimp only
      split <;> rfl
    · rfl

/-- An event on a known subscription is counted, and filed. -/
theorem arrive_known (h : Known st a) :
    ∃ relay req, st.relays.lookup a.wid = some relay ∧ relay.reqs.lookup a.subId = some req ∧
      arrive S E st a =
        fileEvent S
          (st.putRelay a.wid { relay with reqs := relay.reqs.insert a.subId { req with received := req.received + 1 } })
          relay.url (E.ev a.id) := by
  obtain ⟨relay, hrelay, hsub⟩ := h
  obtain ⟨req, hreq⟩ := Option.isSome_iff_exists.mp hsub
  refine ⟨relay, req, hrelay, hreq, ?_⟩
  unfold arrive onPoke handleRelayWs
  dsimp only
  rw [hrelay]
  show ((some (handleEvent S st a.wid relay a.subId (E.ev a.id))).map Prod.snd).getD st = _
  unfold handleEvent
  rw [hreq]
  rfl

theorem arrive_nostrFeed (h : Known st a) (t : ℕ) :
    ((arrive S E st a).nostrFeed.lookup t).map Wevent.event =
      if isNoteAt t (E.ev a.id) then some (E.ev a.id) else (st.nostrFeed.lookup t).map Wevent.event := by
  obtain ⟨relay, req, -, -, he⟩ := arrive_known (S := S) (E := E) h
  rw [he, fileEvent_nostrFeed]
  unfold isNoteAt
  by_cases hk : (E.ev a.id).kind = 1
  · rw [if_pos hk]
    by_cases ht : (E.ev a.id).createdAt = t
    · subst ht
      simp [hk]
    · simp [hk, ht, Finmap.lookup_insert_of_ne _ (Ne.symm ht), State.putRelay]
  · simp [hk, State.putRelay]

theorem arrive_profiles (h : Known st a) (p : ℕ) :
    (arrive S E st a).profiles.lookup (.nostr p) =
      if isMetaOf S p (E.ev a.id) then (metaOf S (E.ev a.id)).map (emptyNostrProfile S p)
      else st.profiles.lookup (.nostr p) := by
  obtain ⟨relay, req, -, -, he⟩ := arrive_known (S := S) (E := E) h
  rw [he, fileEvent_profiles]
  rfl

/-- Requests stay known. -/
theorem Known.arrive {b : Arrival} (ha : Known st a) (hb : Known st b) : Known (arrive S E st a) b := by
  obtain ⟨relay, req, hrelay, hreq, he⟩ := arrive_known (S := S) (E := E) ha
  obtain ⟨relay', hrelay', hsub'⟩ := hb
  unfold Known
  rw [he, fileEvent_relays]
  by_cases hw : b.wid = a.wid
  · rw [hw, hrelay] at hrelay'
    obtain rfl := Option.some.inj hrelay'
    refine ⟨_, by rw [hw]; exact Finmap.lookup_insert _, ?_⟩
    by_cases hs : b.subId = a.subId
    · rw [hs]
      simp
    · simpa [Finmap.lookup_insert_of_ne _ hs] using hsub'
  · exact ⟨relay', by rw [← hrelay']; exact Finmap.lookup_insert_of_ne _ hw, hsub'⟩

end

/-! ### All events -/

section

variable {S : Sys} {E : EventSet}

theorem arriveAll_append (st : State) (l : List Arrival) (a : Arrival) :
    arriveAll S E st (l ++ [a]) = arrive S E (arriveAll S E st l) a := by
  simp [arriveAll]

theorem lastOf_append (q : Event → Bool) (l : List Arrival) (a : Arrival) :
    lastOf E q (l ++ [a]) = if q (E.ev a.id) then some (E.ev a.id) else lastOf E q l := by
  unfold lastOf
  rw [List.map_append, List.reverse_append]
  simp only [List.map_cons, List.map_nil, List.reverse_cons, List.reverse_nil, List.nil_append, List.singleton_append,
    List.find?_cons]
  cases q (E.ev a.id) <;> rfl

theorem mem_of_lastOf {q : Event → Bool} {l : List Arrival} {ev : Event} (h : lastOf E q l = some ev) :
    q ev ∧ ∃ a ∈ l, E.ev a.id = ev := by
  refine ⟨List.find?_some h, ?_⟩
  have := List.mem_reverse.mp (List.mem_of_find?_eq_some h)
  exact List.mem_map.mp this

theorem lastOf_isSome {q : Event → Bool} {l : List Arrival} {a : Arrival} (ha : a ∈ l) (hq : q (E.ev a.id)) :
    ∃ ev, lastOf E q l = some ev := by
  rw [← Option.isSome_iff_exists]
  unfold lastOf
  rw [List.find?_isSome]
  exact ⟨E.ev a.id, List.mem_reverse.mpr (List.mem_map.mpr ⟨a, ha, rfl⟩), hq⟩

theorem known_arriveAll {st : State} {l : List Arrival} (hl : ∀ a ∈ l, Known st a) {b : Arrival} (hb : Known st b) :
    Known (arriveAll S E st l) b := by
  induction l generalizing st with
  | nil => exact hb
  | cons a l ih =>
    have ha := hl a List.mem_cons_self
    exact ih (fun c hc => ha.arrive (hl c (List.mem_cons_of_mem _ hc))) (ha.arrive hb)

/-- The nostr feed has, of each second, the last note to arrive. -/
theorem arriveAll_nostrFeed {st : State} {l : List Arrival} (hl : ∀ a ∈ l, Known st a) (hst : st.nostrFeed = ∅)
    (t : ℕ) :
    ((arriveAll S E st l).nostrFeed.lookup t).map Wevent.event = lastOf E (isNoteAt t) l := by
  induction l using List.reverseRecOn with
  | nil =>
    show (st.nostrFeed.lookup t).map Wevent.event = none
    rw [hst, Finmap.lookup_empty]
    rfl
  | append_singleton l a ih =>
    have hl' : ∀ c ∈ l, Known st c := fun c hc => hl c (List.mem_append_left _ hc)
    rw [arriveAll_append, lastOf_append, arrive_nostrFeed (known_arriveAll hl' (hl a (by simp))), ih hl']

/-- The profile of a public key is that of the last metadata to arrive. -/
theorem arriveAll_profiles {st : State} {l : List Arrival} (hl : ∀ a ∈ l, Known st a) (p : ℕ) :
    (arriveAll S E st l).profiles.lookup (.nostr p) =
      match lastOf E (isMetaOf S p) l with
      | some ev => (metaOf S ev).map (emptyNostrProfile S p)
      | none => st.profiles.lookup (.nostr p) := by
  induction l using List.reverseRecOn with
  | nil => rfl
  | append_singleton l a ih =>
    have hl' : ∀ c ∈ l, Known st c := fun c hc => hl c (List.mem_append_left _ hc)
    rw [arriveAll_append, lastOf_append, arrive_profiles (known_arriveAll hl' (hl a (by simp))), ih hl']
    by_cases hm : isMetaOf S p (E.ev a.id)
    · rw [if_pos hm, if_pos hm]
    · rw [if_neg hm, if_neg hm]

/-- Where a note is in the feed: under its second. -/
theorem feed_note_iff {st : State} {l : List Arrival} (hl : ∀ a ∈ l, Known st a) (hst : st.nostrFeed = ∅) (t i : ℕ) :
    (∃ w, (arriveAll S E st l).nostrFeed.lookup t = some w ∧ w.event.id = i) ↔
      lastOf E (isNoteAt t) l = some (E.ev i) := by
  rw [← arriveAll_nostrFeed hl hst t]
  constructor
  · rintro ⟨w, hw, hid⟩
    have hlast := arriveAll_nostrFeed (S := S) (E := E) hl hst t
    rw [hw, Option.map_some] at hlast
    obtain ⟨-, a, -, ha⟩ := mem_of_lastOf hlast.symm
    have hai : a.id = i := by rw [← hid, ← ha, E.id_ev]
    rw [hw, Option.map_some, ← ha, hai]
  · intro h
    obtain ⟨w, hw, he⟩ := Option.map_eq_some_iff.mp h
    exact ⟨w, hw, by rw [he, E.id_ev]⟩

theorem notes_iff {st : State} {l : List Arrival} (hl : ∀ a ∈ l, Known st a) (hst : st.nostrFeed = ∅) :
    (∀ a ∈ l, (E.ev a.id).kind = 1 →
        ∃! t, ∃ w, (arriveAll S E st l).nostrFeed.lookup t = some w ∧ w.event.id = a.id) ↔
      ∀ a ∈ l, ∀ b ∈ l, (E.ev a.id).kind = 1 → (E.ev b.id).kind = 1 →
        (E.ev a.id).createdAt = (E.ev b.id).createdAt → a.id = b.id := by
  simp only [feed_note_iff hl hst]
  -- the second under which a note is found is its own
  have hown : ∀ t i, lastOf E (isNoteAt t) l = some (E.ev i) → (E.ev i).createdAt = t := fun t i h =>
    (of_decide_eq_true (mem_of_lastOf h).1).2
  constructor
  · intro h a ha b hb hka hkb hab
    obtain ⟨t, hta, -⟩ := h a ha hka
    obtain ⟨u, hub, -⟩ := h b hb hkb
    have htu : t = u := by rw [← hown t _ hta, ← hown u _ hub, hab]
    subst htu
    have he : E.ev a.id = E.ev b.id := Option.some.inj (hta.symm.trans hub)
    rw [← E.id_ev a.id, he, E.id_ev]
  · intro h a ha hka
    have hq : isNoteAt (E.ev a.id).createdAt (E.ev a.id) := decide_eq_true ⟨hka, rfl⟩
    obtain ⟨ev, hev⟩ := lastOf_isSome ha hq
    obtain ⟨hqe, b, hb, rfl⟩ := mem_of_lastOf hev
    obtain ⟨hkb, htb⟩ := of_decide_eq_true hqe
    have hid : b.id = a.id := h b hb a ha hkb hka htb
    rw [hid] at hev
    exact ⟨_, hev, fun t ht => (hown t _ ht).symm⟩

theorem emptyNostrProfile_inj {p : ℕ} {um um' : UserMeta} :
    emptyNostrProfile S p um = emptyNostrProfile S p um' ↔ um = um' :=
  ⟨fun h => (UserProfile.mk.inj h).2.2.2.2.2.1, congrArg _⟩

theorem profiles_iff {st : State} {l : List Arrival} (hl : ∀ a ∈ l, Known st a) :
    (∀ p, (∃ a ∈ l, isMetaOf S p (E.ev a.id)) →
        ∃ ev um, NewestMeta S E l p ev ∧ metaOf S ev = some um ∧
          (arriveAll S E st l).profiles.lookup (.nostr p) = some (emptyNostrProfile S p um)) ↔
      ∀ p last, lastOf E (isMetaOf S p) l = some last → ∃ ev, NewestMeta S E l p ev ∧ metaOf S ev = metaOf S last := by
  refine forall_congr' fun p => ?_
  rw [arriveAll_profiles hl p]
  constructor
  · intro h last hlast
    obtain ⟨hq, a, ha, rfl⟩ := mem_of_lastOf hlast
    obtain ⟨ev, um, hnew, hum, hp⟩ := h ⟨a, ha, hq⟩
    rw [hlast] at hp
    obtain ⟨um', hum', he⟩ := Option.map_eq_some_iff.mp hp
    exact ⟨ev, hnew, by rw [hum, hum', emptyNostrProfile_inj.mp he]⟩
  · rintro h ⟨a, ha, hq⟩
    obtain ⟨last, hlast⟩ := lastOf_isSome ha hq
    obtain ⟨ev, hnew, he⟩ := h last hlast
    obtain ⟨um, hum⟩ := Option.isSome_iff_exists.mp (of_decide_eq_true (mem_of_lastOf hlast).1).2.2
    refine ⟨ev, um, hnew, by rw [he, hum], ?_⟩
    rw [hlast]
    show (metaOf S last).map _ = _
    rw [hum]
    rfl

/-- **Relay events are filed** exactly when no two notes are of the same second and the last metadata of each public
key says what a newest says, whatever the relays, the order and the copies. -/
theorem arriveAll_filed_iff (S : Sys) (E : EventSet) (st : State) {l : List Arrival} (hl : ∀ a ∈ l, Known st a)
    (hst : st.nostrFeed = ∅) : Filed S E l (arriveAll S E st l) ↔ OrderFits S E l :=
  ⟨fun h => ⟨(notes_iff hl hst).mp h.notes, (profiles_iff hl).mp h.profiles⟩,
    fun h => ⟨(notes_iff hl hst).mpr h.notes, (profiles_iff hl).mpr h.profiles⟩⟩

end

/-- Every event is a text note of second 5. -/
def notesOfFive : EventSet := ⟨fun i => ⟨i, 0, 5, 1, [], "", 0⟩, fun _ => rfl⟩

/-- A state with a relay and a subscription to it. -/
def oneRelay : State :=
  { defaultState .plain 1 with
    relays := Finmap.singleton 3 ⟨0, "wss://nos.lol", Finmap.singleton "sub" ⟨"timeline", [], 0, none, []⟩⟩ }

theorem known_oneRelay (i : ℕ) : Known oneRelay ⟨.plain 1, 3, "sub", i⟩ :=
  ⟨_, Finmap.lookup_singleton_eq, by rw [Finmap.lookup_singleton_eq]; rfl⟩

/-- One note is in the feed once. -/
theorem arriveAll_filed_one :
    Filed .plain notesOfFive [⟨.plain 1, 3, "sub", 7⟩]
      (arriveAll .plain notesOfFive oneRelay [⟨.plain 1, 3, "sub", 7⟩]) := by
  refine (arriveAll_filed_iff .plain notesOfFive oneRelay (fun a ha => ?_) rfl).mpr ⟨?_, ?_⟩
  · rw [List.mem_singleton.mp ha]
    exact known_oneRelay 7
  · intro a ha b hb _ _ _
    rw [List.mem_singleton.mp ha, List.mem_singleton.mp hb]
  · intro p last h
    obtain ⟨hq, a, -, rfl⟩ := mem_of_lastOf h
    have h1 : (1 : ℕ) = 0 := (of_decide_eq_true hq).1
    exact absurd h1 (by decide)

/-- Of two notes of one second, the first is lost. -/
theorem second_note_takes_place :
    ¬ Filed .plain notesOfFive [⟨.plain 1, 3, "sub", 7⟩, ⟨.plain 1, 3, "sub", 8⟩]
      (arriveAll .plain notesOfFive oneRelay [⟨.plain 1, 3, "sub", 7⟩, ⟨.plain 1, 3, "sub", 8⟩]) := by
  intro h
  have hl : ∀ a ∈ [⟨.plain 1, 3, "sub", 7⟩, ⟨.plain 1, 3, "sub", 8⟩], Known oneRelay a := by
    intro a ha
    rcases List.mem_cons.mp ha with rfl | ha
    · exact known_oneRelay 7
    · rw [List.mem_singleton.mp ha]
      exact known_oneRelay 8
  have h78 := (notes_iff (S := .plain) hl rfl).mp h.notes ⟨.plain 1, 3, "sub", 7⟩ (by simp) ⟨.plain 1, 3, "sub", 8⟩
    (by simp) rfl rfl rfl
  exact absurd h78 (by decide)

end Nostrill
end Ursockets
