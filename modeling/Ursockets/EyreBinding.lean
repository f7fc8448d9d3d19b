/-
# Eyre's url bindings

The table of `arvo/eyre.hoon` that leads requests to actions: its bindings are kept in the order of
their sites and, under one site, of their paths, with the later ones first, so that of the paths of a site
that a url begins with the longest comes first. Agents bind and unbind paths outside of the reserved ones.

A site that is empty is ordered like none at all, so what holds of the table holds where no
agent binds one.

Key definitions: `insertBinding`, `addBinding`, `removeBinding`, `findBinding`, `bindingTurn`, `Ordered`.
Key theorems: `insertBinding_spec`, `findBinding_spec`, `bindings_of_run`.
-/
import Ursockets.Eyre
import Mathlib.Data.List.Infix
import Mathlib.Data.List.Lex
import Mathlib.Data.Prod.Lex
import Mathlib.Data.String.Basic

namespace Ursockets
namespace Eyre

/-! ### The table -/

/-- `binding`. -/
structure Binding where
  site : Option String
  path : Path
  deriving DecidableEq

/-- An entry of the table. -/
structure Bound where
  binding : Binding
  duct : Duct
  action : Action
  deriving DecidableEq

/-- `aor` on cords: the order of their characters. -/
def aor (a b : String) : Bool := a ≤ b

/-- `aor` on paths. -/
def aorPath : Path → Path → Bool
  | [], _ => true
  | _ :: _, [] => false
  | x :: xs, y :: ys => if x = y then aorPath xs ys else aor x y

/-- `+insert-binding`. -/
def insertBinding (new : Bound) : List Bound → List Bound
  | [] => [new]
  | b :: bs =>
    if b.binding = new.binding then new :: bs
    else
      let newBeforeBid :=
        if new.binding.site = b.binding.site then aorPath b.binding.path new.binding.path
        else aor (b.binding.site.getD "") (new.binding.site.getD "")
      if newBeforeBid then new :: b :: bs else b :: insertBinding new bs

/-- The paths of eyre, of the runtime and of scries. -/
def reserved : Path → Bool
  | "~" :: _ => true
  | "~_~" :: _ => true
  | "_~_" :: _ => true
  | _ => false

/-- The gift of a bind: whether it was accepted, and the binding. -/
structure BoundGift where
  duct : Duct
  accepted : Bool
  binding : Binding
  deriving DecidableEq

/-- `+add-binding`. -/
def addBinding (duct : Duct) (binding : Binding) (action : Action) (bindings : List Bound) :
    List BoundGift × List Bound :=
  let bindings := if reserved binding.path then bindings else insertBinding ⟨binding, duct, action⟩ bindings
  ([⟨duct, true, binding⟩], bindings)

/-- `+remove-binding`. -/
def removeBinding (duct : Duct) (binding : Binding) (bindings : List Bound) : List Bound :=
  bindings.filter fun b => ¬ (b.binding = binding ∧ b.duct = duct)

/-- `+host-matches`. -/
def hostMatches (binding host : Option String) : Bool :=
  match binding with
  | none => true
  | some b => match host with
    | none => false
    | some h => b = h

/-- `+find-suffix`. -/
def findSuffix : Path → Path → Option Path
  | [], full => some full
  | _ :: _, [] => none
  | p :: ps, f :: fs => if p = f then findSuffix ps fs else none

/-- The loop of `+get-action-for-binding`. -/
def findBinding (rawHost : Option String) (parsedUrl : Path) : List Bound → Option (Bound × Path)
  | [] => none
  | b :: bs =>
    if ¬ hostMatches b.binding.site rawHost then findBinding rawHost parsedUrl bs
    else match findSuffix b.binding.path parsedUrl with
      | none => findBinding rawHost parsedUrl bs
      | some suffix => some (b, suffix)

/-- The url that bindings are looked up by: the channels have a second name. -/
def channelPath : Path → Path
  | "~" :: "channel-jam" :: rest => "~" :: "channel" :: rest
  | url => url

/-- `+get-action-for-binding`, for a url that parses to an extension and a site. -/
def getActionForBinding (rawHost : Option String) (url : String) (ext : Option String) (site : Path)
    (bindings : List Bound) :
    Action × String :=
  match findBinding rawHost (channelPath site) bindings with
  | none => (.fourOhFour, url)
  | some (b, suffix) => (b.action, String.join (suffix.map fun k => "/" ++ k) ++ ext.elim "" fun e => "." ++ e)

/-- The bindings that `%init` makes, in the order in which they are inserted. -/
def ownBindings (duct : Duct) : List Bound :=
  [⟨⟨none, ["~", "login"]⟩, duct, .authentication⟩, ⟨⟨none, ["~", "eauth"]⟩, duct, .eauth⟩,
    ⟨⟨none, ["~", "logout"]⟩, duct, .logout⟩, ⟨⟨none, ["~", "channel"]⟩, duct, .channel⟩,
    ⟨⟨none, ["~", "scry"]⟩, duct, .scry⟩, ⟨⟨none, ["~", "name"]⟩, duct, .name⟩, ⟨⟨none, ["~", "host"]⟩, duct, .host⟩,
    ⟨⟨none, ["~", "ip"]⟩, duct, .ip⟩, ⟨⟨none, ["~", "boot"]⟩, duct, .boot⟩, ⟨⟨none, ["~", "sponsor"]⟩, duct, .sponsor⟩]

/-- What happens to the table. A new runtime leaves it. -/
inductive BindingTask where
  | init (duct : Duct)
  | connect (duct : Duct) (binding : Binding) (app : String)
  | serve (duct : Duct) (binding : Binding) (desk : String) (generator : Path)
  | disconnect (duct : Duct) (binding : Binding)
  | born (duct : Duct)
  deriving DecidableEq

/-- The gifts and the table after a task. -/
def bindingTurn (bindings : List Bound) : BindingTask → List BoundGift × List Bound
  | .init duct => ([], (ownBindings duct).foldl (fun bs b => insertBinding b bs) [])
  | .connect duct binding app => addBinding duct binding (.app app) bindings
  | .serve duct binding desk generator => addBinding duct binding (.gen desk generator) bindings
  | .disconnect duct binding => ([], removeBinding duct binding bindings)
  | .born _ => ([], bindings)

/-- The table after tasks. -/
def bindingsAfter (tasks : List BindingTask) : List Bound := tasks.foldl (fun bs t => (bindingTurn bs t).2) []

/-! ### The order of the table -/

/-- What an entry is ordered by: its site, and then its path. -/
def Binding.rank (b : Binding) : Lex (String × List String) := toLex (b.site.getD "", b.path)

/-- The site is not empty. -/
def Binding.Sited (b : Binding) : Prop := b.site ≠ some ""

/-- The later entries are first, and no two have one site and path. -/
def Ordered (bindings : List Bound) : Prop :=
  bindings.Pairwise (fun x y => y.binding.rank < x.binding.rank) ∧ ∀ b ∈ bindings, b.binding.Sited

variable {bindings : List Bound} {new b x y : Bound} {p q full : Path} {host : Option String}

theorem aorPath_iff : ∀ {p q : Path}, aorPath p q = true ↔ ¬ q < p
  | [], q => iff_of_true rfl (List.not_lt_nil q)
  | x :: xs, [] => iff_of_false Bool.false_ne_true (not_not_intro (List.nil_lt_cons x xs))
  | x :: xs, y :: ys => by
    unfold aorPath aor
    rw [List.cons_lt_cons_iff, not_or, not_and]
    split
    · rename_i hxy
      rw [aorPath_iff]
      exact ⟨fun h => ⟨fun hlt => absurd hxy.symm (ne_of_lt hlt), fun _ => h⟩, fun h => h.2 hxy.symm⟩
    · rename_i hxy
      rw [decide_eq_true_eq]
      exact ⟨fun h => ⟨not_lt.mpr h, fun he => absurd he.symm hxy⟩, fun h => not_lt.mp h.1⟩

theorem site_eq_of_getD {s t : Option String} (hs : s ≠ some "") (ht : t ≠ some "") (h : s.getD "" = t.getD "") :
    s = t := by
  cases s with
  | none =>
    cases t with
    | none => rfl
    | some t => exact absurd (congrArg some h.symm) ht
  | some s =>
    cases t with
    | none => exact absurd (congrArg some h) hs
    | some t => exact congrArg some h

/-- Where no site is empty, a binding is told by what it is ordered by. -/
theorem rank_inj {b c : Binding} (hb : b.Sited) (hc : c.Sited) (h : b.rank = c.rank) : b = c := by
  obtain ⟨hs, hp⟩ := Prod.mk.inj (toLex.injective h)
  obtain ⟨bs, bp⟩ := b
  obtain ⟨cs, cp⟩ := c
  rw [Binding.mk.injEq]
  exact ⟨site_eq_of_getD hb hc hs, hp⟩

/-- The comparison that an insertion makes. -/
theorem newBefore_iff {b c : Binding} (hb : b.Sited) (hc : c.Sited) (hne : b ≠ c) :
    (if c.site = b.site then aorPath b.path c.path else aor (b.site.getD "") (c.site.getD "")) = true ↔
      b.rank < c.rank := by
  unfold Binding.rank
  rw [Prod.Lex.toLex_lt_toLex]
  dsimp only
  split
  · rename_i hs
    have hp : b.path ≠ c.path := fun hp => hne (by
      obtain ⟨bs, bp⟩ := b
      obtain ⟨cs, cp⟩ := c
      exact (Binding.mk.injEq ..).mpr ⟨hs.symm, hp⟩)
    rw [aorPath_iff, hs, not_lt]
    exact ⟨fun h => .inr ⟨rfl, lt_of_le_of_ne h hp⟩, fun h => h.elim (fun h => absurd h (lt_irrefl _)) fun h =>
      le_of_lt h.2⟩
  · rename_i hs
    unfold aor
    rw [decide_eq_true_eq]
    have hd : b.site.getD "" ≠ c.site.getD "" := fun h => hs (site_eq_of_getD hb hc h).symm
    exact ⟨fun h => .inl (lt_of_le_of_ne h hd), fun h => h.elim le_of_lt fun h => absurd h.1 hd⟩

/-- **An insertion** keeps the order, and puts the new entry in the place of one with its site
and path. -/
theorem insertBinding_spec (hnew : new.binding.Sited) (h : Ordered bindings) :
    Ordered (insertBinding new bindings) ∧
      ∀ x, x ∈ insertBinding new bindings ↔ x = new ∨ x ∈ bindings ∧ x.binding ≠ new.binding := by
  induction bindings with
  | nil =>
    refine ⟨⟨List.pairwise_singleton _ _, fun b hb => List.mem_singleton.mp hb ▸ hnew⟩, fun x => ?_⟩
    exact List.mem_singleton.trans (or_iff_left fun h => absurd h.1 List.not_mem_nil).symm
  | cons b bs ih =>
    obtain ⟨hpair, hsited⟩ := h
    obtain ⟨hb, hbs⟩ := List.pairwise_cons.mp hpair
    obtain ⟨hsb, hsbs⟩ := List.forall_mem_cons.mp hsited
    unfold insertBinding
    by_cases hkey : b.binding = new.binding
    · rw [if_pos hkey]
      have hlt : ∀ y ∈ bs, y.binding.rank < new.binding.rank := fun y hy => hkey ▸ hb y hy
      refine ⟨⟨List.pairwise_cons.mpr ⟨hlt, hbs⟩, List.forall_mem_cons.mpr ⟨hnew, hsbs⟩⟩, fun x => ?_⟩
      rw [List.mem_cons, List.mem_cons]
      refine or_congr_right ⟨fun hx => ⟨.inr hx, fun he => ?_⟩, fun hx => hx.1.resolve_left fun he => hx.2 (he ▸ hkey)⟩
      exact lt_irrefl _ (he ▸ hlt x hx)
    · rw [if_neg hkey]
      dsimp only
      by_cases hbn : b.binding.rank < new.binding.rank
      · rw [if_pos ((newBefore_iff hsb hnew hkey).mpr hbn)]
        have hlt : ∀ y ∈ b :: bs, y.binding.rank < new.binding.rank :=
          List.forall_mem_cons.mpr ⟨hbn, fun y hy => lt_trans (hb y hy) hbn⟩
        refine ⟨⟨List.pairwise_cons.mpr ⟨hlt, hpair⟩, List.forall_mem_cons.mpr ⟨hnew, hsited⟩⟩, fun x => ?_⟩
        rw [List.mem_cons]
        refine or_congr_right ⟨fun hx => ⟨hx, fun he => ?_⟩, fun hx => hx.1⟩
        exact lt_irrefl _ (he ▸ hlt x hx)
      · rw [if_neg fun hbefore => hbn ((newBefore_iff hsb hnew hkey).mp hbefore)]
        have hnb : new.binding.rank < b.binding.rank :=
          lt_of_le_of_ne (not_lt.mp hbn) fun he => hkey (rank_inj hsb hnew he.symm)
        obtain ⟨⟨hpair', hsited'⟩, hmem⟩ := ih ⟨hbs, hsbs⟩
        refine ⟨⟨List.pairwise_cons.mpr ⟨fun y hy => ?_, hpair'⟩, List.forall_mem_cons.mpr ⟨hsb, hsited'⟩⟩, fun x => ?_⟩
        · rcases (hmem y).mp hy with rfl | hy
          · exact hnb
          · exact hb y hy.1
        · rw [List.mem_cons, List.mem_cons, hmem]
          constructor
          · rintro (rfl | rfl | hx)
            · exact .inr ⟨.inl rfl, hkey⟩
            · exact .inl rfl
            · exact .inr ⟨.inr hx.1, hx.2⟩
          · rintro (rfl | ⟨rfl | hx, hne⟩)
            · exact .inr (.inl rfl)
            · exact .inl rfl
            · exact .inr (.inr ⟨hx, hne⟩)

theorem removeBinding_ordered (duct : Duct) (binding : Binding) (h : Ordered bindings) :
    Ordered (removeBinding duct binding bindings) :=
  ⟨h.1.sublist List.filter_sublist, fun b hb => h.2 b (List.mem_filter.mp hb).1⟩

/-! ### Routing -/

/-- The request is one that the entry may take. -/
def Bound.Matches (b : Bound) (host : Option String) (url : Path) : Prop :=
  hostMatches b.binding.site host = true ∧ b.binding.path <+: url

variable {url suffix : Path}

theorem findSuffix_iff : ∀ {p full : Path}, findSuffix p full = some suffix ↔ p ++ suffix = full
  | [], full => ⟨fun h => (Option.some.inj h).symm, fun h => congrArg some h.symm⟩
  | p :: ps, [] => iff_of_false (Option.some_ne_none _).symm (List.cons_ne_nil _ _)
  | p :: ps, f :: fs => by
    unfold findSuffix
    rw [List.cons_append, List.cons.injEq]
    split
    · rename_i hpf
      rw [findSuffix_iff, and_iff_right hpf]
    · rename_i hpf
      exact iff_of_false (Option.some_ne_none _).symm fun h => hpf h.1

/-- **The loop finds the first entry that matches.** -/
theorem findBinding_spec (host : Option String) (url : Path) (bindings : List Bound) :
    match findBinding host url bindings with
    | none => ∀ x ∈ bindings, ¬ x.Matches host url
    | some (b, suffix) => b.binding.path ++ suffix = url ∧ b.Matches host url ∧
      ∃ before after, bindings = before ++ b :: after ∧ ∀ x ∈ before, ¬ x.Matches host url := by
  induction bindings with
  | nil => exact fun x hx => absurd hx List.not_mem_nil
  | cons b bs ih =>
    have hskip : ¬ b.Matches host url → findBinding host url (b :: bs) = findBinding host url bs →
        match findBinding host url (b :: bs) with
        | none => ∀ x ∈ b :: bs, ¬ x.Matches host url
        | some (c, suffix) => c.binding.path ++ suffix = url ∧ c.Matches host url ∧
          ∃ before after, b :: bs = before ++ c :: after ∧ ∀ x ∈ before, ¬ x.Matches host url := by
      intro hno heq
      rw [heq]
      cases hfind : findBinding host url bs with
      | none =>
        rw [hfind] at ih
        exact List.forall_mem_cons.mpr ⟨hno, ih⟩
      | some found =>
        rw [hfind] at ih
        obtain ⟨hp, hm, before, after, hbs, hall⟩ := ih
        exact ⟨hp, hm, b :: before, after, congrArg (b :: ·) hbs, List.forall_mem_cons.mpr ⟨hno, hall⟩⟩
    by_cases hhost : hostMatches b.binding.site host = true
    · cases hsuffix : findSuffix b.binding.path url with
      | none =>
        refine hskip (fun hm => ?_) ?_
        · obtain ⟨t, ht⟩ := hm.2
          exact Option.some_ne_none _ ((findSuffix_iff.mpr ht).symm.trans hsuffix)
        · rw [findBinding, if_neg (not_not_intro hhost), hsuffix]
      | some suffix =>
        have heq : findBinding host url (b :: bs) = some (b, suffix) := by
          rw [findBinding, if_neg (not_not_intro hhost), hsuffix]
        rw [heq]
        have hp := findSuffix_iff.mp hsuffix
        exact ⟨hp, ⟨hhost, suffix, hp⟩, [], bs, rfl, fun x hx => absurd hx List.not_mem_nil⟩
    · exact hskip (fun hm => hhost hm.1) (by rw [findBinding, if_pos hhost])

theorem aorPath_append (t : Path) : ∀ p : Path, aorPath p (p ++ t) = true
  | [] => rfl
  | x :: xs => by
    rw [List.cons_append, aorPath, if_pos rfl]
    exact aorPath_append t xs

/-- Of two paths that a url begins with, the later one is the longer one. -/
theorem length_le_of_lt (hp : p <+: url) (hq : q <+: url) (h : p < q) : p.length ≤ q.length := by
  rcases List.prefix_or_prefix_of_prefix hp hq with hpq | ⟨t, rfl⟩
  · exact hpq.length_le
  · exact absurd h (aorPath_iff.mp (aorPath_append t q))

/-- A site that is bound is the host that matches it. -/
theorem site_of_matches (h : b.Matches host url) : b.binding.site = none ∨ b.binding.site = host ∧ host ≠ none := by
  obtain ⟨hh, -⟩ := h
  unfold hostMatches at hh
  cases hs : b.binding.site with
  | none => exact .inl rfl
  | some s =>
    cases host with
    | none =>
      rw [hs] at hh
      exact absurd hh Bool.false_ne_true
    | some h =>
      rw [hs] at hh
      exact .inr ⟨congrArg some (of_decide_eq_true hh), Option.some_ne_none h⟩

/-- The entry is at least as good a match as the other: it has a path as long for the same site, or
a site where the other has none. -/
def Bound.Better (b x : Bound) : Prop :=
  x.binding.site = b.binding.site ∧ x.binding.path.length ≤ b.binding.path.length ∨
    x.binding.site = none ∧ b.binding.site ≠ none

/-- **A request is led to the entry of the longest path** of its own site, and else of no site. -/
theorem findBinding_better (h : Ordered bindings) (hfind : findBinding host url bindings = some (b, suffix)) :
    b ∈ bindings ∧ b.Matches host url ∧ ∀ x ∈ bindings, x.Matches host url → b.Better x := by
  have hspec := findBinding_spec host url bindings
  rw [hfind] at hspec
  obtain ⟨-, hm, before, after, rfl, hall⟩ := hspec
  have hb : b ∈ before ++ b :: after := List.mem_append_right before List.mem_cons_self
  refine ⟨hb, hm, fun x hx hxm => ?_⟩
  rcases List.mem_append.mp hx with hx' | hx'
  · exact absurd hxm (hall x hx')
  · rcases List.mem_cons.mp hx' with rfl | hafter
    · exact .inl ⟨rfl, le_refl _⟩
    · have hlt : x.binding.rank < b.binding.rank :=
        (List.pairwise_cons.mp (List.pairwise_append.mp h.1).2.1).1 x hafter
      unfold Binding.rank at hlt
      rw [Prod.Lex.toLex_lt_toLex] at hlt
      have hsame : x.binding.site = b.binding.site → b.Better x := fun hs => by
        refine .inl ⟨hs, length_le_of_lt hxm.2 hm.2 (hlt.elim (fun hlt => absurd hlt ?_) fun hlt => hlt.2)⟩
        dsimp only
        rw [hs]
        exact lt_irrefl _
      rcases site_of_matches hxm with hxs | ⟨hxs, -⟩
      · rcases site_of_matches hm with hbs | ⟨hbs, hne⟩
        · exact hsame (hxs.trans hbs.symm)
        · exact .inr ⟨hxs, hbs ▸ hne⟩
      · rcases site_of_matches hm with hbs | ⟨hbs, -⟩
        · dsimp only at hlt
          have hemp : b.binding.site.getD "" = "" := by rw [hbs]; rfl
          rw [hemp] at hlt
          rcases hlt with hlt | ⟨hs, -⟩
          · exact absurd (String.lt_iff_toList_lt.mp hlt) (List.not_lt_nil _)
          · exact hsame (site_eq_of_getD (h.2 x hx) (h.2 b hb) (hs.trans hemp.symm))
        · exact hsame (hxs.trans hbs.symm)

/-! ### Runs -/

/-- What a task binds, and for whom. -/
def BindingTask.binds : BindingTask → Option Bound
  | .connect duct binding app => some ⟨binding, duct, .app app⟩
  | .serve duct binding desk generator => some ⟨binding, duct, .gen desk generator⟩
  | _ => none

/-- The action is one that is not an agent's or a generator's. -/
def Action.Own : Action → Prop
  | .app _ => False
  | .gen _ _ => False
  | _ => True

/-- The table is ordered, and its reserved paths are eyre's own. -/
def Fenced (bindings : List Bound) : Prop :=
  Ordered bindings ∧ ∀ b ∈ bindings, reserved b.binding.path = true → b.action.Own

theorem fenced_nil : Fenced [] :=
  ⟨⟨List.Pairwise.nil, fun _ hb => absurd hb List.not_mem_nil⟩, fun _ hb => absurd hb List.not_mem_nil⟩

theorem Fenced.insert (h : Fenced bindings) (hnew : new.binding.Sited)
    (hown : reserved new.binding.path = true → new.action.Own) : Fenced (insertBinding new bindings) := by
  obtain ⟨hord, hmem⟩ := insertBinding_spec hnew h.1
  refine ⟨hord, fun b hb => ?_⟩
  rcases (hmem b).mp hb with rfl | hb
  · exact hown
  · exact h.2 b hb.1

theorem Fenced.add (h : Fenced bindings) {duct : Duct} {binding : Binding} (hb : binding.Sited) (action : Action) :
    Fenced (addBinding duct binding action bindings).2 := by
  unfold addBinding
  dsimp only
  split
  · exact h
  · rename_i hres
    have hsited : (⟨binding, duct, action⟩ : Bound).binding.Sited := hb
    exact h.insert hsited fun hr => absurd hr hres

theorem fenced_own (duct : Duct) : Fenced ((ownBindings duct).foldl (fun bs b => insertBinding b bs) []) := by
  have hall : ∀ b ∈ ownBindings duct, b.binding.Sited ∧ b.action.Own := by
    unfold ownBindings
    simp [Binding.Sited, Action.Own]
  have hfold : ∀ own : List Bound, (∀ b ∈ own, b.binding.Sited ∧ b.action.Own) → ∀ bs, Fenced bs →
      Fenced (own.foldl (fun bs b => insertBinding b bs) bs) := by
    intro own
    induction own with
    | nil => exact fun _ bs hbs => hbs
    | cons b own ih =>
      intro hown bs hbs
      obtain ⟨hb, hrest⟩ := List.forall_mem_cons.mp hown
      exact ih hrest _ (hbs.insert hb.1 fun _ => hb.2)
  exact hfold _ hall [] fenced_nil

theorem Fenced.turn (h : Fenced bindings) {task : BindingTask} (ht : ∀ b ∈ task.binds, b.binding.Sited) :
    Fenced (bindingTurn bindings task).2 := by
  cases task with
  | init duct => exact fenced_own duct
  | connect duct binding app => exact h.add (ht _ rfl) _
  | serve duct binding desk generator => exact h.add (ht _ rfl) _
  | disconnect duct binding =>
    exact ⟨removeBinding_ordered duct binding h.1, fun b hb => h.2 b (List.mem_filter.mp hb).1⟩
  | born duct => exact h

theorem fenced_after {tasks : List BindingTask} (ht : ∀ task ∈ tasks, ∀ b ∈ task.binds, b.binding.Sited) :
    Fenced (bindingsAfter tasks) := by
  unfold bindingsAfter
  have hfold : ∀ bs, Fenced bs → Fenced (tasks.foldl (fun bs t => (bindingTurn bs t).2) bs) := by
    induction tasks with
    | nil => exact fun bs hbs => hbs
    | cons task tasks ih =>
      intro bs hbs
      obtain ⟨h1, hrest⟩ := List.forall_mem_cons.mp ht
      exact ih hrest _ (hbs.turn h1)
  exact hfold [] fenced_nil

/-- What a bind of a path that is not reserved does. -/
theorem bindingTurn_bound (h : Ordered bindings) {task : BindingTask} (hb : task.binds = some b) (hs : b.binding.Sited)
    (hr : reserved b.binding.path = false) :
    bindingTurn bindings task = ([⟨b.duct, true, b.binding⟩], insertBinding b bindings) ∧
      b ∈ (bindingTurn bindings task).2 := by
  have hturn : bindingTurn bindings task = ([⟨b.duct, true, b.binding⟩], insertBinding b bindings) := by
    cases task with
    | connect duct binding app =>
      obtain rfl := Option.some.inj hb
      exact congrArg (Prod.mk _) (if_neg (ne_true_of_eq_false hr))
    | serve duct binding desk generator =>
      obtain rfl := Option.some.inj hb
      exact congrArg (Prod.mk _) (if_neg (ne_true_of_eq_false hr))
    | init duct => exact absurd hb.symm (Option.some_ne_none b)
    | disconnect duct binding => exact absurd hb.symm (Option.some_ne_none b)
    | born duct => exact absurd hb.symm (Option.some_ne_none b)
  refine ⟨hturn, ?_⟩
  rw [hturn]
  exact ((insertBinding_spec hs h).2 b).mpr (.inl rfl)

/-- **The table in a run**, where no empty site is bound: it is ordered, with one entry for a site
and path; a request is led to the best of the entries that match, if any does; the reserved paths
are eyre's own; and a bind of another path is in the table, as its gift says. -/
theorem bindings_of_run (tasks : List BindingTask) (ht : ∀ task ∈ tasks, ∀ b ∈ task.binds, b.binding.Sited) :
    Ordered (bindingsAfter tasks) ∧ ((bindingsAfter tasks).map Bound.binding).Nodup ∧
      (∀ host url, match findBinding host url (bindingsAfter tasks) with
        | none => ∀ x ∈ bindingsAfter tasks, ¬ x.Matches host url
        | some (b, suffix) => b.binding.path ++ suffix = url ∧ b ∈ bindingsAfter tasks ∧ b.Matches host url ∧
          ∀ x ∈ bindingsAfter tasks, x.Matches host url → b.Better x) ∧
      (∀ b ∈ bindingsAfter tasks, reserved b.binding.path = true → b.action.Own) ∧
      ∀ task b, task.binds = some b → b.binding.Sited → reserved b.binding.path = false →
        (bindingTurn (bindingsAfter tasks) task).1 = [⟨b.duct, true, b.binding⟩] ∧
          b ∈ (bindingTurn (bindingsAfter tasks) task).2 := by
  obtain ⟨hord, hown⟩ := fenced_after ht
  refine ⟨hord, ?_, fun host url => ?_, hown, fun task b hb hs hr => ?_⟩
  · refine List.pairwise_map.mpr (hord.1.imp fun hlt he => ?_)
    exact lt_irrefl _ (he ▸ hlt)
  · have hspec := findBinding_spec host url (bindingsAfter tasks)
    cases hfind : findBinding host url (bindingsAfter tasks) with
    | none =>
      rw [hfind] at hspec
      exact hspec
    | some found =>
      rw [hfind] at hspec
      exact ⟨hspec.1, findBinding_better hord hfind⟩
  · obtain ⟨hturn, hin⟩ := bindingTurn_bound hord hb hs hr
    exact ⟨congrArg Prod.fst hturn, hin⟩

/-- An agent binds two paths, and unbinds one of them. -/
def agentRun : List BindingTask :=
  [.init 1, .connect 2 ⟨none, ["apps"]⟩ "docket", .connect 3 ⟨none, ["apps", "chat"]⟩ "chat", .born 4,
    .disconnect 2 ⟨none, ["apps"]⟩]

theorem agentRun_ordered : ((bindingsAfter agentRun).map Bound.binding).Nodup ∧ Ordered (bindingsAfter agentRun) ∧
    (findBinding none ["apps", "chat", "1"] (bindingsAfter agentRun)).map (fun f => f.1.action) = some
      (.app "chat") := by
  have h := bindings_of_run agentRun fun task ht b hb => by
    simp only [agentRun, List.mem_cons, List.not_mem_nil, or_false] at ht
    rcases ht with rfl | rfl | rfl | rfl | rfl <;>
      simp only [BindingTask.binds, Option.mem_def, reduceCtorEq, Option.some.injEq] at hb <;>
      subst hb <;> exact (Option.some_ne_none _).symm
  exact ⟨h.2.1, h.1, by decide⟩

/-- An agent binds all of a site. -/
def siteRun : List BindingTask := [.init 1, .connect 2 ⟨some "a.com", []⟩ "chat"]

/-- A request for that site is led to the agent, though a longer path matches that is bound for any site. -/
theorem site_first : ∃ b x, findBinding (some "a.com") ["~", "login"] (bindingsAfter siteRun) = some
    (b, ["~", "login"]) ∧
    b.action = .app "chat" ∧ x ∈ bindingsAfter siteRun ∧ x.Matches (some "a.com") ["~", "login"] ∧
      b.binding.path.length < x.binding.path.length := by
  refine ⟨⟨⟨some "a.com", []⟩, 2, .app "chat"⟩, ⟨⟨none, ["~", "login"]⟩, 1, .authentication⟩, by decide, rfl, by decide,
    ⟨rfl, List.prefix_refl _⟩, by decide⟩

end Eyre
end Ursockets
