/-
# The dictionaries as maps

A dictionary under any sequence of puts, gets and growth answers as a map from keys to
values does, as long as no eleven of the keys put share a mug; and then every put
returns. An eleventh key of one mug has no place in a table of any size.

Key definitions: `Op`, `dictRun`, `mapRun`, `Maps`.
Key theorems: `dict_maps_iff`.
-/
import Ursockets.SerialRoundTrip

namespace Ursockets
namespace UrDict

variable {K V : Type} [DecidableEq K]

/-- A call on a dictionary: `ur_dict64_put`, `ur_dict64_get`, and `ur_dict64_grow` of its own sizes. -/
inductive Op (K V : Type) where
  | put (key : K) (val : V)
  | get (key : K)
  | grow

/-- The calls in order, with what the gets give. The turns of a loop and the steps of growth are bounded by `room`. -/
def dictRun (mug : K → ℕ) (room : ℕ) : Dict K V → List (Op K V) → Option (Dict K V × List (Option V))
  | d, [] => some (d, [])
  | d, .put key val :: ops => (dictPut mug room key val room d).bind fun d => dictRun mug room d ops
  | d, .get key :: ops => (dictRun mug room d ops).map fun r => (r.1, dictGet mug d key :: r.2)
  | d, .grow :: ops => (dictGrow mug d room d.prev d.size).bind fun d => dictRun mug room d ops

/-- What the gets give of a map, which growth does not change. -/
def mapRun : (K → Option V) → List (Op K V) → List (Option V)
  | _, [] => []
  | m, .put key val :: ops => mapRun (Function.update m key (some val)) ops
  | m, .get key :: ops => m key :: mapRun m ops
  | m, .grow :: ops => mapRun m ops

/-- Every call returns, and the gets give the last value put. -/
def Maps (mug : K → ℕ) (d : Dict K V) (ops : List (Op K V)) : Prop :=
  ∃ room d', dictRun mug room d ops = some (d', mapRun (dictGet mug d) ops)

/-- A key is put. -/
def Puts (ops : List (Op K V)) (key : K) : Prop := ∃ val, .put key val ∈ ops

section

variable {mug : K → ℕ} {room : ℕ} {d d' : Dict K V} {ops : List (Op K V)}

theorem get_put_eq {key : K} {val : V} {n : ℕ} (h : d.Ok mug) (hp : dictPut mug room key val n d = some d') :
    d'.Ok mug ∧ dictGet mug d' = Function.update (dictGet mug d) key (some val) := by
  obtain ⟨hok, hget⟩ := dictPut_spec h hp
  refine ⟨hok, funext fun k => ?_⟩
  rw [hget, Function.update_apply]

theorem get_grow_eq (h : d.Ok mug) (hg : dictGrow mug d room d.prev d.size = some d') :
    d'.Ok mug ∧ dictGet mug d' = dictGet mug d := by
  obtain ⟨hok, hgrown⟩ := grow_spec h hg
  exact ⟨hok, funext fun k => dictGet_congr h hok hgrown.mem k⟩

/-- **A run that returns answers as a map**, and has in the end the keys it had and those that were put. -/
theorem run_spec {outs : List (Option V)} (h : d.Ok mug) (hr : dictRun mug room d ops = some (d', outs)) :
    d'.Ok mug ∧ outs = mapRun (dictGet mug d) ops ∧ ∀ k, d.Has k ∨ Puts ops k → d'.Has k := by
  induction ops generalizing d outs with
  | nil =>
    cases hr
    refine ⟨h, rfl, fun k hk => hk.resolve_right ?_⟩
    rintro ⟨_, hv⟩
    cases hv
  | cons op ops ih =>
    cases op with
    | put key val =>
      obtain ⟨d1, hp, hr⟩ := Option.bind_eq_some_iff.mp hr
      obtain ⟨h1, hget⟩ := get_put_eq h hp
      obtain ⟨h2, hout, hhas⟩ := ih h1 hr
      refine ⟨h2, ?_, fun k hk => hhas k ?_⟩
      · rw [hout, hget, mapRun]
      · have hk1 : k = key ∨ d.Has k → d1.Has k := by
          rw [has_iff h1, has_iff h, hget, Function.update_apply]
          rintro (rfl | ⟨v, hv⟩)
          · exact ⟨val, if_pos rfl⟩
          · by_cases hkk : k = key
            · exact ⟨val, if_pos hkk⟩
            · exact ⟨v, by rw [if_neg hkk, hv]⟩
        rcases hk with hk | ⟨v, hv⟩
        · exact .inl (hk1 (.inr hk))
        · rcases List.mem_cons.mp hv with heq | hv
          · cases heq
            exact .inl (hk1 (.inl rfl))
          · exact .inr ⟨v, hv⟩
    | get key =>
      obtain ⟨r, hrest, he⟩ := Option.map_eq_some_iff.mp hr
      cases he
      obtain ⟨h2, hout, hhas⟩ := ih h hrest
      refine ⟨h2, by rw [hout, mapRun], fun k hk => hhas k (hk.imp_right ?_)⟩
      rintro ⟨v, hv⟩
      exact ⟨v, (List.mem_cons.mp hv).resolve_left (by simp)⟩
    | grow =>
      obtain ⟨d1, hg, hr⟩ := Option.bind_eq_some_iff.mp hr
      obtain ⟨h1, hget⟩ := get_grow_eq h hg
      obtain ⟨h2, hout, hhas⟩ := ih h1 hr
      refine ⟨h2, by rw [hout, hget, mapRun], fun k hk => hhas k ?_⟩
      rw [has_iff h1, hget, ← has_iff h]
      refine hk.imp_right ?_
      rintro ⟨v, hv⟩
      exact ⟨v, (List.mem_cons.mp hv).resolve_left (by simp)⟩

/-- The keys that a run has put are not crowded. -/
theorem uncrowded_of_maps (h : d.Ok mug) (hm : Maps mug d ops) : Uncrowded mug (Puts ops) := by
  obtain ⟨room, d', hr⟩ := hm
  obtain ⟨hok, -, hhas⟩ := run_spec h hr
  exact (uncrowded_has hok).mono fun k hk => hhas k (.inr hk)

/-! ### Runs that return -/

omit [DecidableEq K] in
/-- A table can always grow: its keys have had room in one pail each already. -/
theorem grow_isSome (h : d.Ok mug) (hmug : ∀ k, mug k < 2 ^ 31) (hroom : 62 ≤ room) :
    (dictGrow mug d room d.prev d.size).isSome := by
  rcases Nat.lt_or_ge d.size (2 ^ 31) with hlt | hge
  · exact dictGrow_isSome h hmug (uncrowded_has h) h.le hlt (h.enough hroom)
  · obtain ⟨room, rfl⟩ : ∃ n, room = n + 1 := ⟨room - 1, by omega⟩
    have hs := rehash_entries_isSome h hmug (uncrowded_has h) (show 2 ^ 31 ≤ d.prev + d.size by omega)
    obtain ⟨pails, hpails⟩ := Option.isSome_iff_exists.mp hs
    simp only [dictGrow, hpails]
    rfl

theorem run_isSome (hmug : ∀ k, mug k < 2 ^ 31) (hroom : 63 ≤ room) (h : d.Ok mug)
    (hu : Uncrowded mug fun k => d.Has k ∨ Puts ops k) : (dictRun mug room d ops).isSome := by
  induction ops generalizing d with
  | nil => rfl
  | cons op ops ih =>
    have hrest : ∀ k, Puts ops k → Puts (op :: ops) k := by
      rintro k ⟨v, hv⟩
      exact ⟨v, List.mem_cons_of_mem _ hv⟩
    cases op with
    | put key val =>
      obtain ⟨n, rfl⟩ : ∃ n, room = n + 1 := ⟨room - 1, by omega⟩
      have hput : Puts (.put key val :: ops) key := ⟨val, List.mem_cons_self⟩
      have hsome : (dictPut mug (n + 1) key val (n + 1) d).isSome := by
        refine dictPut_isSome hmug h (hu.mono fun k hk => ?_) (h.enough (by omega)) (h.enough (by omega))
        rcases hk with rfl | hk
        · exact .inr hput
        · exact .inl hk
      obtain ⟨d1, hp⟩ := Option.isSome_iff_exists.mp hsome
      obtain ⟨h1, hget⟩ := get_put_eq h hp
      rw [dictRun, hp]
      refine ih h1 (hu.mono fun k hk => ?_)
      rcases hk with hk | hk
      · rw [has_iff h1, hget, Function.update_apply] at hk
        by_cases hkk : k = key
        · exact .inr (hkk ▸ hput)
        · rw [if_neg hkk] at hk
          exact .inl ((has_iff h).mpr hk)
      · exact .inr (hrest k hk)
    | get key =>
      rw [dictRun, Option.isSome_map]
      exact ih h (hu.mono fun k hk => hk.imp_right (hrest k))
    | grow =>
      obtain ⟨d1, hg⟩ := Option.isSome_iff_exists.mp (grow_isSome h hmug (show 62 ≤ room by omega))
      obtain ⟨h1, hget⟩ := get_grow_eq h hg
      rw [dictRun, hg]
      refine ih h1 (hu.mono fun k hk => ?_)
      rw [has_iff h1, hget, ← has_iff h] at hk
      exact hk.imp_right (hrest k)

theorem maps_iff (hmug : ∀ k, mug k < 2 ^ 31) (h : d.Ok mug) (hnew : ∀ k, ¬ d.Has k) :
    Maps mug d ops ↔ Uncrowded mug (Puts ops) := by
  refine ⟨uncrowded_of_maps h, fun hu => ?_⟩
  have hsome := run_isSome hmug (le_refl 63) h (hu.mono fun k hk => hk.resolve_left (hnew k))
  obtain ⟨⟨d', outs⟩, hr⟩ := Option.isSome_iff_exists.mp hsome
  obtain ⟨-, rfl, -⟩ := run_spec h hr
  exact ⟨63, d', hr⟩

omit [DecidableEq K] in
/-- A table grown from nothing holds nothing. -/
theorem init_ok {prev size : ℕ} (hpos : 0 < prev + size) (hd : dictGrow mug .nil 1 prev size = some d) :
    d.Ok mug ∧ ∀ k, ¬ d.Has k := by
  cases hd
  refine ⟨⟨hpos, Nat.le_add_left _ _, pailsOk_nil _⟩, ?_⟩
  rintro k ⟨_, _, he, -⟩
  cases he

end

/-! ### Dictionaries of references -/

open Hashcons Serial

/-- **A dictionary is a map**, of which every put returns, exactly when no eleven of the references put share a mug. -/
theorem dict_maps_iff {r : Root} (hr : r.Ok) {prev size : ℕ} (hpos : 0 < prev + size) {d : Dict Nref V}
    (hd : dictGrow (keyMug r) .nil 1 prev size = some d) (ops : List (Op Nref V)) :
    Maps (keyMug r) d ops ↔ Uncrowded (keyMug r) (Puts ops) := by
  obtain ⟨hok, hnew⟩ := init_ok hpos hd
  exact maps_iff (keyMug_lt hr) hok hnew

/-! ### On fixed inputs -/

/-- The arena with nothing in it. -/
def bareRoot : Root := ⟨[], ⟨fib12, fib11 + fib12, fun _ => []⟩, [], ⟨fib12, fib11 + fib12, fun _ => []⟩⟩

theorem bareRoot_ok : bareRoot.Ok := (rootInit_ok (show rootInit 1 = some bareRoot from rfl)).1

/-- A dictionary of no references. -/
def bareDict (V : Type) : Dict Nref V := ⟨fib12, fib11 + fib12, fun _ => []⟩

/-- One reference put twice. -/
theorem dict_maps_twice :
    Maps (keyMug bareRoot) (bareDict ℕ) [.put (.direct 1) 5, .put (.direct 1) 6, .get (.direct 1)] := by
  refine (@dict_maps_iff ℕ bareRoot bareRoot_ok fib11 fib12 (by decide) (bareDict ℕ) rfl _).mpr ?_
  refine Uncrowded.of_mem (l := [.direct 1]) (by decide) ?_
  rintro k ⟨v, hv⟩
  simp only [List.mem_cons, Op.put.injEq, reduceCtorEq, List.not_mem_nil, or_false] at hv
  rcases hv with ⟨rfl, -⟩ | ⟨rfl, -⟩ <;> exact List.mem_singleton_self _

/-- Eleven references of one mug. -/
def crowdKeys : List Nref := (1981475980824281131 :: crowd).map .direct

theorem crowdKeys_mug : ∀ k ∈ crowdKeys, keyMug bareRoot k = 433357679 := by
  intro k hk
  obtain ⟨b, hb, rfl⟩ := List.mem_map.mp hk
  exact crowd_mug b hb

/-- The eleventh put does not return. -/
theorem crowd_not_maps : bareRoot.Ok ∧ dictGrow (keyMug bareRoot) .nil 1 fib11 fib12 = some (bareDict Unit) ∧
    ¬ Maps (keyMug bareRoot) (bareDict Unit) (crowdKeys.map fun k => .put k ()) := by
  refine ⟨bareRoot_ok, rfl, fun h => ?_⟩
  have hok := (@init_ok Nref Unit (keyMug bareRoot) (bareDict Unit) fib11 fib12 (by decide) rfl).1
  have hlen := uncrowded_of_maps hok h crowdKeys (by decide)
    (fun k hk => ⟨(), List.mem_map.mpr ⟨k, hk, rfl⟩⟩)
    (fun k hk k' hk' => by rw [crowdKeys_mug k hk, crowdKeys_mug k' hk'])
  exact absurd hlen (by decide)

end UrDict
end Ursockets
