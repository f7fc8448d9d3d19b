/-
# Sets and maps of nouns

The jets of `jets/d` on the treaps that are Hoon's sets and maps. An entry is a noun, or a pair of
a key and a value; the keys are ordered by `+gor` from left to right and by `+mor` from the root
down.

Key definitions: `u3qcGor`, `u3qcMor`, `put`, `del`, `uni`, `int`, `dif`, `apt`.
Key theorems: `uni_spec`, `int_spec`, `run_spec`, `apt_iff_gas`, `map_run_canonical`, `set_run_canonical`.
-/
import Ursockets.Lib.Fuel
import Ursockets.Lib.Treap
import Ursockets.Retrieve

namespace Ursockets
namespace Trees

open Noun Treap
open Fuel (Settles)

/-! ### The orders -/

/-- `u3qc_dor` -/
def u3qcDor (a b : Noun) : Bool :=
  if a = b then true
  else
    match a, b with
    | .atom a, .atom b => a < b
    | .atom _, .cell _ _ => true
    | .cell _ _, .atom _ => false
    | .cell h t, .cell h' t' => if h = h' then u3qcDor t t' else u3qcDor h h'

/-- The order by a hash, and where it is equal by `+dor`. -/
def byHash (hash : Noun → UInt32) (a b : Noun) : Bool := if hash a = hash b then u3qcDor a b else hash a < hash b

/-- `u3qc_gor` -/
def u3qcGor : Noun → Noun → Bool := byHash mug

/-- The mug of the mug. -/
def mugMug (a : Noun) : UInt32 := mug (.atom (mug a).toNat)

/-- `u3qc_mor` -/
def u3qcMor : Noun → Noun → Bool := byHash mugMug

theorem dor_order (a b : Noun) : u3qcDor a b = (order compare a b).isLE := by
  have hself (x : Noun) : order compare x x = .eq := Std.ReflCmp.compare_self
  fun_induction u3qcDor a b with
  | case1 a => rw [hself, Ordering.isLE_eq]
  | case2 a b hne => rw [Bool.eq_iff_iff, order, Nat.isLE_compare]; grind
  | case3 a h t hne => rfl
  | case4 h t b hne => rfl
  | case5 h t t' hne ih => rw [ih, order, hself, Ordering.eq_then]
  | case6 h t h' t' hh hne ih =>
    have hlt : order compare h h' ≠ .eq := fun he => hh (Std.LawfulEqCmp.eq_of_compare he)
    rw [ih, order]
    cases ho : order compare h h' with
    | eq => exact absurd ho hlt
    | lt => rfl
    | gt => rfl

/-- Nouns in the order by a hash. -/
def Hashed (_ : Noun → UInt32) : Type := Noun

section
variable {hash : Noun → UInt32} {a b c : Noun}

theorem byHash_trans (h : byHash hash a b) (h' : byHash hash b c) : byHash hash a c := by
  have := @Std.TransCmp.isLE_trans _ (order compare) _ a b c
  simp only [byHash, dor_order] at *
  grind

theorem byHash_antisymm (h : byHash hash a b) (h' : byHash hash b a) : a = b := by
  have hdor (hab : (order compare a b).isLE) (hba : (order compare b a).isLE) : a = b :=
    Std.LawfulEqCmp.eq_of_compare (Std.OrientedCmp.isLE_antisymm hab hba)
  simp only [byHash, dor_order] at h h'
  grind

theorem byHash_total (a b : Noun) : byHash hash a b ∨ byHash hash b a := by
  have hswap : order compare b a = (order compare a b).swap := Std.OrientedCmp.eq_swap
  simp only [byHash, dor_order, hswap]
  cases order compare a b <;> grind [Ordering.isLE, Ordering.swap]

end

/-- **The orders by a hash are total**, whatever the hash. -/
instance (hash : Noun → UInt32) : LinearOrder (Hashed hash) where
  le a b := byHash hash a b
  le_refl a := (@byHash_total hash a a).elim id id
  le_trans _ _ _ := byHash_trans
  le_antisymm _ _ := byHash_antisymm
  le_total := byHash_total
  toDecidableLE _ _ := inferInstanceAs (Decidable (_ = _))

/-- What the entries of a tree are ordered by: the hashes of `+gor` and `+mor`, and the key of an entry. -/
class Entry (ε : Type) where
  g : Noun → UInt32
  m : Noun → UInt32
  key : ε → Noun

open Entry

/-- The entries of a set are its elements. -/
instance : Entry Noun := ⟨mug, mugMug, id⟩

/-- The entries of a map are pairs. -/
instance : Entry (Noun × Noun) := ⟨mug, mugMug, Prod.fst⟩

section
variable (ε : Type) [Entry ε]

/-- `u3qc_gor`, of a set or a map. -/
def gor : Noun → Noun → Bool := byHash (g ε)

/-- `u3qc_mor` -/
def mor : Noun → Noun → Bool := byHash (m ε)

/-- A noun in the order from left to right, and in that from the root down. -/
def col (a : Noun) : Hashed (g ε) := a

def row (a : Noun) : Hashed (m ε) := a

@[grind =] theorem gor_iff (a b : Noun) : gor ε a b = true ↔ col ε a ≤ col ε b := Iff.rfl

@[grind =] theorem mor_iff (a b : Noun) : mor ε a b = true ↔ row ε a ≤ row ε b := Iff.rfl

@[grind =] theorem col_inj (a b : Noun) : col ε a = col ε b ↔ a = b := Iff.rfl

@[grind =] theorem row_inj (a b : Noun) : row ε a = row ε b ↔ a = b := Iff.rfl

end

/-! ### The jets -/

abbrev Tree := BinaryTree

variable {ε : Type}

section Order

variable (abv : ε → ε → Bool)

/-- `_rebalance`: a tree without its root. -/
def rebalance : Tree ε → Tree ε
  | .nil => .nil
  | .node _ .nil r => r
  | .node _ (.node nl ll rl) .nil => .node nl ll rl
  | .node n (.node nl ll rl) (.node nr lr rr) =>
    if abv nl nr then .node nl ll (rebalance (.node n rl (.node nr lr rr)))
    else .node nr (rebalance (.node n (.node nl ll rl) lr)) rr
termination_by a => a.numNodes

/-- `_i_dif_join` and `_b_dif_join` -/
def join : Tree ε → Tree ε → Tree ε
  | .nil, e => e
  | .node nd ld rd, .nil => .node nd ld rd
  | .node nd ld rd, .node ne le re =>
    if abv nd ne then .node nd ld (join rd (.node ne le re)) else .node ne (join (.node nd ld rd) le) re
termination_by d e => d.numNodes + e.numNodes

theorem rebalance_node (n : ε) (l r : Tree ε) :
    rebalance abv (.node n l r) = join abv l r := by
  fun_induction join abv l r with
  | case1 e => rw [rebalance]
  | case2 nd ld rd => rw [rebalance]
  | case3 nd ld rd ne le re hm ih => rw [rebalance, if_pos hm, ih]
  | case4 nd ld rd ne le re hm ih => rw [rebalance, if_neg hm, ih]

end Order

variable [Entry ε]

/-- The order of entries from the root down. -/
def above (a b : ε) : Bool := mor ε (key a) (key b)

/-- `u3qdi_put` and `u3qdb_put`: the entry in the place of one with its key. A tree that something
was put into is not null. -/
def put (b : ε) : Tree ε → Tree ε
  | .nil => .node b .nil .nil
  | .node n l r =>
    if key n = key b then .node b l r
    else if gor ε (key b) (key n) then
      match put b l with
      | .nil => .nil
      | .node nc lc rc =>
        if mor ε (key n) (key nc) then .node n (.node nc lc rc) r else .node nc lc (.node n rc r)
    else
      match put b r with
      | .nil => .nil
      | .node nc lc rc =>
        if mor ε (key n) (key nc) then .node n l (.node nc lc rc) else .node nc (.node n l lc) rc

/-- `u3qdi_gas` and `u3qdb_gas` -/
def gas (a : Tree ε) : List ε → Tree ε
  | [] => a
  | i :: t => gas (put i a) t

/-- The entry with a key, as `u3qdi_has`, `u3qdb_has` and `u3qdb_get` look for it. -/
def seek (k : Noun) : Tree ε → Option ε
  | .nil => none
  | .node n l r => if k = key n then some n else if gor ε k (key n) then seek k l else seek k r

/-- `u3qdi_del` and `u3qdb_del` -/
def del (k : Noun) : Tree ε → Tree ε
  | .nil => .nil
  | .node n l r =>
    if key n = k then rebalance above (.node n l r)
    else if gor ε k (key n) then .node n (del k l) r
    else .node n l (del k r)

/-- `_i_bif_putroot` and `_b_bif_putroot`: a tree with the key for its root, in its three parts. -/
def putroot (k : Noun) : Tree ε → Noun × Tree ε × Tree ε
  | .nil => (k, .nil, .nil)
  | .node n l r =>
    if k = key n then (k, l, r)
    else if gor ε k (key n) then
      let (nc, lc, rc) := putroot k l
      (nc, lc, .node n rc r)
    else
      let (nc, lc, rc) := putroot k r
      (nc, .node n l lc, rc)

/-- `u3qdi_bif` and `u3qdb_bif` -/
def bifAt (k : Noun) (a : Tree ε) : Tree ε × Tree ε := (putroot k a).2

/-- `u3qdi_dif` and `u3qdb_dif` -/
def dif (a : Tree ε) : Tree ε → Tree ε
  | .nil => a
  | .node n l r => join above (dif (bifAt (key n) a).1 l) (dif (bifAt (key n) a).2 r)

/-- `u3qdb_uni`, with at most `fuel` calls inside each other. -/
def uni : ℕ → Tree ε → Tree ε → Option (Tree ε)
  | 0, _, _ => none
  | _ + 1, a, .nil => some a
  | _ + 1, .nil, b => some b
  | fuel + 1, .node na la ra, .node nb lb rb =>
    if key na = key nb then do return .node nb (← uni fuel la lb) (← uni fuel ra rb)
    else if mor ε (key na) (key nb) then
      if gor ε (key nb) (key na) then do uni fuel (.node na (← uni fuel la (.node nb lb .nil)) ra) rb
      else do uni fuel (.node na la (← uni fuel ra (.node nb .nil rb))) lb
    else if gor ε (key na) (key nb) then do uni fuel ra (.node nb (← uni fuel (.node na la .nil) lb) rb)
    else do uni fuel la (.node nb lb (← uni fuel (.node na .nil ra) rb))

/-- `u3qdb_int` -/
def int : ℕ → Tree ε → Tree ε → Option (Tree ε)
  | 0, _, _ => none
  | _ + 1, .nil, _ => some .nil
  | _ + 1, .node _ _ _, .nil => some .nil
  | fuel + 1, .node na la ra, .node nb lb rb =>
    if mor ε (key na) (key nb) then
      if key nb = key na then do return .node nb (← int fuel la lb) (← int fuel ra rb)
      else if gor ε (key nb) (key na) then do
        uni fuel (← int fuel la (.node nb lb .nil)) (← int fuel (.node na la ra) rb)
      else do uni fuel (← int fuel ra (.node nb .nil rb)) (← int fuel (.node na la ra) lb)
    else if key na = key nb then do return .node nb (← int fuel la lb) (← int fuel ra rb)
    else if gor ε (key na) (key nb) then do
      uni fuel (← int fuel (.node na la .nil) lb) (← int fuel ra (.node nb lb rb))
    else do uni fuel (← int fuel (.node na .nil ra) rb) (← int fuel la (.node nb lb rb))

/-- `_in_uni`, which compares the roots by `+mor` first. -/
def inUni : ℕ → Tree ε → Tree ε → Option (Tree ε)
  | 0, _, _ => none
  | _ + 1, .nil, b => some b
  | _ + 1, .node na la ra, .nil => some (.node na la ra)
  | fuel + 1, .node na la ra, .node nb lb rb =>
    if ¬ mor ε (key na) (key nb) then
      if key na = key nb then do return .node nb (← inUni fuel la lb) (← inUni fuel ra rb)
      else if gor ε (key na) (key nb) then do inUni fuel ra (.node nb (← inUni fuel (.node na la .nil) lb) rb)
      else do inUni fuel la (.node nb lb (← inUni fuel (.node na .nil ra) rb))
    else if key nb = key na then do return .node nb (← inUni fuel la lb) (← inUni fuel ra rb)
    else if gor ε (key nb) (key na) then do inUni fuel (.node na (← inUni fuel la (.node nb lb .nil)) ra) rb
    else do inUni fuel (.node na la (← inUni fuel ra (.node nb .nil rb))) lb

/-- `u3qdi_int`: the two trees change places where the first root comes first, so that it is the
tree with the root that comes first that is taken apart. -/
def inInt : ℕ → Tree ε → Tree ε → Option (Tree ε)
  | 0, _, _ => none
  | _ + 1, .nil, _ => some .nil
  | _ + 1, .node _ _ _, .nil => some .nil
  | fuel + 1, .node na la ra, .node nb lb rb =>
    if mor ε (key na) (key nb) then turn fuel nb lb rb na la ra else turn fuel na la ra nb lb rb
where
  turn (fuel : ℕ) (na : ε) (la ra : Tree ε) (nb : ε) (lb rb : Tree ε) : Option (Tree ε) :=
    if key nb = key na then do return .node na (← inInt fuel la lb) (← inInt fuel ra rb)
    else if gor ε (key nb) (key na) then do
      inUni fuel (← inInt fuel la (.node nb lb .nil)) (← inInt fuel (.node na la ra) rb)
    else do inUni fuel (← inInt fuel ra (.node nb .nil rb)) (← inInt fuel (.node na la ra) lb)

/-- The root is below another and not the same noun. -/
def belowRoot (k : Noun) : Tree ε → Bool
  | .nil => true
  | .node n _ _ => mor ε k (key n) && k ≠ key n

/-- `_in_apt` and `_by_apt`, with the bounds on the right and on the left. -/
def aptIn : Tree ε → Option Noun → Option Noun → Bool
  | .nil, _, _ => true
  | .node n la ra, l, r =>
    (l.all fun l => gor ε (key n) l && key n ≠ l) && (r.all fun r => gor ε r (key n) && r ≠ key n) &&
      (belowRoot (key n) la && aptIn la (some (key n)) r) && (belowRoot (key n) ra && aptIn ra l (some (key n)))

/-- `u3qdi_apt` and `u3qdb_apt` -/
def apt (a : Tree ε) : Bool := aptIn a none none

/-! ### What they do to the entries -/

/-- A treap by the two orders. -/
def Canon (t : Tree ε) : Prop := Apt (fun e => col ε (key e)) (fun e => row ε (key e)) t

@[grind .] theorem canon_nil : Canon (.nil : Tree ε) := trivial

@[grind =] theorem canon_node {n : ε} {l r : Tree ε} :
    Canon (.node n l r) ↔ Canon l ∧ Canon r ∧
      (∀ e ∈ l, col ε (key e) < col ε (key n) ∧ row ε (key n) < row ε (key e)) ∧
        ∀ e ∈ r, col ε (key n) < col ε (key e) ∧ row ε (key n) < row ε (key e) := Iff.rfl

/-- A treap without what is on one side of its root. -/
theorem Canon.right_cut {n : ε} {l r : Tree ε} (h : Canon (.node n l r)) :
    Canon (.node n l .nil) := by grind

theorem Canon.left_cut {n : ε} {l r : Tree ε} (h : Canon (.node n l r)) :
    Canon (.node n .nil r) := by grind

theorem put_spec {b : ε} {t : Tree ε} (h : Canon t) :
    Canon (put b t) ∧ ∀ e, e ∈ put b t ↔ e = b ∨ e ∈ t ∧ key e ≠ key b := by
  induction t with
  | nil => grind [put]
  | node n l r ihl ihr =>
    obtain ⟨hl, hr, -, -⟩ := canon_node.mp h
    obtain ⟨hcl, hml⟩ := ihl hl
    obtain ⟨hcr, hmr⟩ := ihr hr
    rw [put]
    split_ifs with hk hg
    · grind
    · cases hp : put b l with
      | nil => grind
      | node nc lc rc => grind
    · cases hp : put b r with
      | nil => grind
      | node nc lc rc => grind

theorem seek_spec {k : Noun} {t : Tree ε} (h : Canon t) (e : ε) :
    seek k t = some e ↔ e ∈ t ∧ key e = k := by
  induction t with
  | nil => grind [seek]
  | node n l r ihl ihr =>
    obtain ⟨hl, hr, -, -⟩ := canon_node.mp h
    have hml := ihl hl
    have hmr := ihr hr
    grind [seek]

/-- Two treaps one left of the other are joined. -/
theorem join_spec {d e : Tree ε} (hd : Canon d) (he : Canon e)
    (h : ∀ x ∈ d, ∀ y ∈ e, col ε (key x) < col ε (key y)) :
    Canon (join above d e) ∧ ∀ x, x ∈ join above d e ↔ x ∈ d ∨ x ∈ e := by
  fun_induction join above d e with
  | case1 e => grind
  | case2 nd ld rd => grind
  | case3 nd ld rd ne le re hm ih =>
    have hmor : row ε (key nd) ≤ row ε (key ne) := hm
    obtain ⟨hc, hmem⟩ := ih (canon_node.mp hd).2.1 he (by grind)
    grind
  | case4 nd ld rd ne le re hm ih =>
    have hmor : ¬ row ε (key nd) ≤ row ε (key ne) := hm
    obtain ⟨hc, hmem⟩ := ih hd (canon_node.mp he).1 (by grind)
    grind

theorem del_spec {k : Noun} {t : Tree ε} (h : Canon t) :
    Canon (del k t) ∧ ∀ e, e ∈ del k t ↔ e ∈ t ∧ key e ≠ k := by
  induction t with
  | nil => grind [del]
  | node n l r ihl ihr =>
    obtain ⟨hl, hr, hln, hrn⟩ := canon_node.mp h
    have hdl := ihl hl
    have hdr := ihr hr
    have hjoin := join_spec hl hr fun x hx y hy => (hln x hx).1.trans (hrn y hy).1
    rw [del, rebalance_node]
    split_ifs <;> grind

theorem bifAt_spec {k : Noun} {t : Tree ε} (h : Canon t) :
    (Canon (bifAt k t).1 ∧ ∀ e, e ∈ (bifAt k t).1 ↔ e ∈ t ∧ col ε (key e) < col ε k) ∧
      Canon (bifAt k t).2 ∧ ∀ e, e ∈ (bifAt k t).2 ↔ e ∈ t ∧ col ε k < col ε (key e) := by
  induction t with
  | nil => grind [bifAt, putroot]
  | node n l r ihl ihr =>
    obtain ⟨hl, hr, hln, hrn⟩ := canon_node.mp h
    have hbl := ihl hl
    have hbr := ihr hr
    unfold bifAt at *
    rw [putroot]
    split_ifs <;> grind

theorem dif_spec {a b : Tree ε} (ha : Canon a) (hb : Canon b) :
    Canon (dif a b) ∧ ∀ e, e ∈ dif a b ↔ e ∈ a ∧ ∀ e' ∈ b, key e' ≠ key e := by
  induction b generalizing a with
  | nil => grind [dif]
  | node n l r ihl ihr =>
    obtain ⟨hl, hr, hln, hrn⟩ := canon_node.mp hb
    obtain ⟨⟨hc, hmc⟩, hd, hmd⟩ := bifAt_spec (k := key n) ha
    have hdl := ihl hc hl
    have hdr := ihr hd hr
    obtain ⟨hj, hmj⟩ := join_spec hdl.1 hdr.1 (by grind)
    rw [dif]
    refine ⟨hj, fun e => ?_⟩
    have hside : key n ≠ key e ↔ col ε (key e) < col ε (key n) ∨ col ε (key n) < col ε (key e) := by grind
    rw [hmj, hdl.2, hdr.2, hmc, hmd]
    simp only [mem_node, or_imp, forall_and, forall_eq, hside]
    clear ihl ihr hj hmj hdl hdr
    grind

/-! ### Union and intersection -/

@[grind =] def size (a b : Tree ε) : ℕ := a.numNodes + b.numNodes

/-- A union that settles, of entries of the two trees. -/
def Union (U : ℕ → Tree ε → Tree ε → Option (Tree ε)) (a b : Tree ε) : Prop :=
  ∃ t, Settles (fun n => U n a b) t ∧ Canon t ∧ (∀ e, e ∈ t ↔ e ∈ b ∨ e ∈ a ∧ ∀ e' ∈ b, key e' ≠ key e) ∧
    t.numNodes ≤ size a b

/-- How much there is of the tree that is to be hung under the other. -/
def low : Tree ε → Tree ε → ℕ
  | .node na la ra, .node nb lb rb =>
    if mor ε (key na) (key nb) then lb.numNodes + rb.numNodes + 1 else la.numNodes + ra.numNodes + 1
  | _, _ => 0

/-- The measure of a call falls where what is hung under the other tree lies below its root. -/
theorem low_right {na : ε} {l r x a b : Tree ε} (hx : ∀ e ∈ x, row ε (key na) < row ε (key e))
    (hlt : x.numNodes < low a b) : low (.node na l r) x < low a b := by
  cases x with
  | nil => exact hlt
  | node n l r => grind [low]

theorem low_left {nb : ε} {l r x a b : Tree ε} (hx : ∀ e ∈ x, row ε (key nb) < row ε (key e))
    (hlt : x.numNodes < low a b) : low x (.node nb l r) < low a b := by
  cases x with
  | nil => exact hlt
  | node n l r => grind [low]

/-- **Unions settle**: the sizes together never grow, and where they stay, less is hung under the other tree. -/
theorem uni_spec (a b : Tree ε) (ha : Canon a) (hb : Canon b) : Union uni a b := by
  match a, b with
  | a, .nil =>
    exact ⟨a, .now fun n => by simp only [uni], ha, by grind, by simp [size]⟩
  | .nil, .node nb lb rb =>
    exact ⟨_, .now fun n => by simp only [uni], hb, by grind, by simp [size]⟩
  | .node na la ra, .node nb lb rb =>
    obtain ⟨hla, hra, hlan, hran⟩ := canon_node.mp ha
    obtain ⟨hlb, hrb, hlbn, hrbn⟩ := canon_node.mp hb
    by_cases hk : key na = key nb
    · obtain ⟨l, hsl, hcl, hml, hnl⟩ := uni_spec la lb hla hlb
      obtain ⟨r, hsr, hcr, hmr, hnr⟩ := uni_spec ra rb hra hrb
      refine ⟨.node nb l r, hsl.call hsr hsr fun n h1 h2 _ => ?_, ?_, ?_, ?_⟩
      · rw [uni, if_pos hk, h1, h2]
        rfl
      · grind
      · grind
      · grind
    · by_cases hm : mor ε (key na) (key nb) = true
      · have hlow : low (.node na la ra) (.node nb lb rb) = lb.numNodes + rb.numNodes + 1 := if_pos hm
        by_cases hg : gor ε (key nb) (key na) = true
        · obtain ⟨l, hsl, hcl, hml, hnl⟩ := uni_spec la (.node nb lb .nil) hla hb.right_cut
          have hc : Canon (.node na l ra) := by grind
          have hsize : size (.node na l ra) rb ≤ size (.node na la ra) (.node nb lb rb) := by grind
          have hlt : low (.node na l ra) rb < low (.node na la ra) (.node nb lb rb) := low_right (by grind) (by omega)
          obtain ⟨t, hst, hct, hmt, hnt⟩ := uni_spec (.node na l ra) rb hc hrb
          refine ⟨t, hsl.call hst hst fun n h1 h2 _ => ?_, hct, ?_, hnt.trans hsize⟩
          · rw [uni, if_neg hk, if_pos hm, if_pos hg, h1]
            exact h2
          · grind
        · obtain ⟨r, hsr, hcr, hmr, hnr⟩ := uni_spec ra (.node nb .nil rb) hra hb.left_cut
          have hc : Canon (.node na la r) := by grind
          have hsize : size (.node na la r) lb ≤ size (.node na la ra) (.node nb lb rb) := by grind
          have hlt : low (.node na la r) lb < low (.node na la ra) (.node nb lb rb) := low_right (by grind) (by omega)
          obtain ⟨t, hst, hct, hmt, hnt⟩ := uni_spec (.node na la r) lb hc hlb
          refine ⟨t, hsr.call hst hst fun n h1 h2 _ => ?_, hct, ?_, hnt.trans hsize⟩
          · rw [uni, if_neg hk, if_pos hm, if_neg hg, h1]
            exact h2
          · grind
      · have hlow : low (.node na la ra) (.node nb lb rb) = la.numNodes + ra.numNodes + 1 := if_neg hm
        by_cases hg : gor ε (key na) (key nb) = true
        · obtain ⟨l, hsl, hcl, hml, hnl⟩ := uni_spec (.node na la .nil) lb ha.right_cut hlb
          have hc : Canon (.node nb l rb) := by grind
          have hsize : size ra (.node nb l rb) ≤ size (.node na la ra) (.node nb lb rb) := by grind
          have hlt : low ra (.node nb l rb) < low (.node na la ra) (.node nb lb rb) := low_left (by grind) (by omega)
          obtain ⟨t, hst, hct, hmt, hnt⟩ := uni_spec ra (.node nb l rb) hra hc
          refine ⟨t, hsl.call hst hst fun n h1 h2 _ => ?_, hct, ?_, hnt.trans hsize⟩
          · rw [uni, if_neg hk, if_neg hm, if_pos hg, h1]
            exact h2
          · grind
        · obtain ⟨r, hsr, hcr, hmr, hnr⟩ := uni_spec (.node na .nil ra) rb ha.left_cut hrb
          have hc : Canon (.node nb lb r) := by grind
          have hsize : size la (.node nb lb r) ≤ size (.node na la ra) (.node nb lb rb) := by grind
          have hlt : low la (.node nb lb r) < low (.node na la ra) (.node nb lb rb) := low_left (by grind) (by omega)
          obtain ⟨t, hst, hct, hmt, hnt⟩ := uni_spec la (.node nb lb r) hla hc
          refine ⟨t, hsr.call hst hst fun n h1 h2 _ => ?_, hct, ?_, hnt.trans hsize⟩
          · rw [uni, if_neg hk, if_neg hm, if_neg hg, h1]
            exact h2
          · grind
termination_by (size a b, low a b)
decreasing_by
  all_goals first
    | exact Prod.Lex.left _ _ (by simp only [size, BinaryTree.numNodes]; omega)
    | exact Prod.Lex.right' _ ‹_› ‹_›

/-- The sets' union goes the same ways. -/
theorem inUni_eq : ∀ (fuel : ℕ) (a b : Tree ε), inUni fuel a b = uni fuel a b
  | 0, a, b => by rw [inUni, uni]
  | _ + 1, .nil, .nil => by simp only [inUni, uni]
  | _ + 1, .nil, .node _ _ _ => by simp only [inUni, uni]
  | _ + 1, .node _ _ _, .nil => by simp only [inUni, uni]
  | fuel + 1, .node na la ra, .node nb lb rb => by
    rw [inUni, uni]
    simp only [inUni_eq fuel]
    grind

/-- An intersection that settles, of entries of the second tree. -/
def Inter (I : ℕ → Tree ε → Tree ε → Option (Tree ε)) (a b : Tree ε) : Prop :=
  ∃ t, Settles (fun n => I n a b) t ∧ Canon t ∧ ∀ e, e ∈ t ↔ e ∈ b ∧ ∃ e' ∈ a, key e' = key e

/-- The union of two intersections. -/
theorem Inter.uni {I : ℕ → Tree ε → Tree ε → Option (Tree ε)} {a b a' b' : Tree ε} (h : Inter I a b)
    (h' : Inter I a' b') :
    ∃ t, Settles (fun n => do Trees.uni n (← I n a b) (← I n a' b')) t ∧ Canon t ∧
      ∀ e, e ∈ t ↔ (e ∈ b' ∧ ∃ e' ∈ a', key e' = key e) ∨
        (e ∈ b ∧ ∃ e' ∈ a, key e' = key e) ∧ ∀ e', e' ∈ b' → (∃ c ∈ a', key c = key e') → key e' ≠ key e := by
  obtain ⟨x, hsx, hcx, hmx⟩ := h
  obtain ⟨y, hsy, hcy, hmy⟩ := h'
  obtain ⟨t, hst, hct, hmt, -⟩ := uni_spec x y hcx hcy
  refine ⟨t, hsx.all hsy hst fun n h1 h2 h3 => by rw [h1, h2]; exact h3, hct, fun e => ?_⟩
  simp only [hmt, hmx, hmy, and_imp]

theorem int_spec (a b : Tree ε) (ha : Canon a) (hb : Canon b) : Inter int a b := by
  match a, b with
  | .nil, b =>
    exact ⟨.nil, .now fun n => by simp only [int], by grind, by grind⟩
  | .node na la ra, .nil =>
    exact ⟨.nil, .now fun n => by simp only [int], by grind, by grind⟩
  | .node na la ra, .node nb lb rb =>
    obtain ⟨hla, hra, hlan, hran⟩ := canon_node.mp ha
    obtain ⟨hlb, hrb, hlbn, hrbn⟩ := canon_node.mp hb
    by_cases hk : key na = key nb
    · obtain ⟨l, hsl, hcl, hml⟩ := int_spec la lb hla hlb
      obtain ⟨r, hsr, hcr, hmr⟩ := int_spec ra rb hra hrb
      refine ⟨.node nb l r, hsl.call hsr hsr fun n h1 h2 _ => ?_, by grind, by grind⟩
      rw [int, if_pos hk, if_pos hk.symm, h1, h2]
      exact ite_self _
    · by_cases hm : mor ε (key na) (key nb) = true
      · by_cases hg : gor ε (key nb) (key na) = true
        · obtain ⟨t, hst, hct, hmt⟩ := (int_spec la (.node nb lb .nil) hla hb.right_cut).uni
            (int_spec (.node na la ra) rb ha hrb)
          refine ⟨t, hst.succ fun n => ?_, hct, by grind⟩
          rw [int, if_pos hm, if_neg (Ne.symm hk), if_pos hg]
        · obtain ⟨t, hst, hct, hmt⟩ := (int_spec ra (.node nb .nil rb) hra hb.left_cut).uni
            (int_spec (.node na la ra) lb ha hlb)
          refine ⟨t, hst.succ fun n => ?_, hct, by grind⟩
          rw [int, if_pos hm, if_neg (Ne.symm hk), if_neg hg]
      · by_cases hg : gor ε (key na) (key nb) = true
        · obtain ⟨t, hst, hct, hmt⟩ := (int_spec (.node na la .nil) lb ha.right_cut hlb).uni
            (int_spec ra (.node nb lb rb) hra hb)
          refine ⟨t, hst.succ fun n => ?_, hct, by grind⟩
          rw [int, if_neg hm, if_neg hk, if_pos hg]
        · obtain ⟨t, hst, hct, hmt⟩ := (int_spec (.node na .nil ra) rb ha.left_cut hrb).uni
            (int_spec la (.node nb lb rb) hla hb)
          refine ⟨t, hst.succ fun n => ?_, hct, by grind⟩
          rw [int, if_neg hm, if_neg hk, if_neg hg]
termination_by size a b
decreasing_by all_goals simp only [size, BinaryTree.numNodes]; omega

theorem turn_spec (hkey : (key (ε := ε)).Injective) {na nb : ε} {la ra lb rb : Tree ε}
    (ha : Canon (.node na la ra)) (hb : Canon (.node nb lb rb))
    (ih : ∀ x y : Tree ε, size x y < la.numNodes + ra.numNodes + lb.numNodes + rb.numNodes + 2 →
      Canon x → Canon y → Inter inInt x y) :
    ∃ t, Settles (fun n => inInt.turn n na la ra nb lb rb) t ∧ Canon t ∧
      ∀ e, e ∈ t ↔ e ∈ (.node na la ra : Tree ε) ∧ e ∈ (.node nb lb rb : Tree ε) := by
  have hinj (e e' : ε) : key e = key e' ↔ e = e' := hkey.eq_iff
  obtain ⟨hla, hra, hlan, hran⟩ := canon_node.mp ha
  obtain ⟨hlb, hrb, hlbn, hrbn⟩ := canon_node.mp hb
  by_cases hk : key nb = key na
  · obtain ⟨l, hsl, hcl, hml⟩ := ih la lb (by grind) hla hlb
    obtain ⟨r, hsr, hcr, hmr⟩ := ih ra rb (by grind) hra hrb
    clear ih
    refine ⟨.node na l r, hsl.all hsr hsr fun n h1 h2 _ => ?_, by grind, by grind⟩
    rw [inInt.turn, if_pos hk, h1, h2]
    rfl
  · by_cases hg : gor ε (key nb) (key na) = true
    · obtain ⟨t, hst, hct, hmt⟩ := (ih la (.node nb lb .nil) (by grind) hla hb.right_cut).uni
        (ih (.node na la ra) rb (by grind) ha hrb)
      clear ih
      refine ⟨t, ?_, hct, by grind⟩
      simpa only [inInt.turn, if_neg hk, if_pos hg, inUni_eq] using hst
    · obtain ⟨t, hst, hct, hmt⟩ := (ih ra (.node nb .nil rb) (by grind) hra hb.left_cut).uni
        (ih (.node na la ra) lb (by grind) ha hlb)
      clear ih
      refine ⟨t, ?_, hct, by grind⟩
      simpa only [inInt.turn, if_neg hk, if_neg hg, inUni_eq] using hst

theorem inInt_spec (hkey : (key (ε := ε)).Injective) (a b : Tree ε) (ha : Canon a) (hb : Canon b) :
    Inter inInt a b := by
  match a, b with
  | .nil, b =>
    exact ⟨.nil, .now fun n => by simp only [inInt], by grind, by grind⟩
  | .node na la ra, .nil =>
    exact ⟨.nil, .now fun n => by simp only [inInt], by grind, by grind⟩
  | .node na la ra, .node nb lb rb =>
    have ih (x y : Tree ε) (h : size x y < la.numNodes + ra.numNodes + lb.numNodes + rb.numNodes + 2)
        (hx : Canon x) (hy : Canon y) := inInt_spec hkey x y hx hy
    have hinj (e e' : ε) : key e = key e' ↔ e = e' := hkey.eq_iff
    by_cases hm : mor ε (key na) (key nb) = true
    · obtain ⟨t, hst, hct, hmt⟩ := turn_spec hkey hb ha fun x y h => ih x y (by omega)
      clear ih
      exact ⟨t, hst.succ fun n => by rw [inInt, if_pos hm], hct, by grind⟩
    · obtain ⟨t, hst, hct, hmt⟩ := turn_spec hkey ha hb ih
      clear ih
      exact ⟨t, hst.succ fun n => by rw [inInt, if_neg hm], hct, by grind⟩
termination_by size a b
decreasing_by simp only [size, BinaryTree.numNodes] at *; omega

/-! ### The trees that are sets -/

/-- The tree lies between two keys. -/
def Within (t : Tree ε) (l r : Option Noun) : Prop :=
  ∀ e ∈ t, (∀ k ∈ l, col ε (key e) < col ε k) ∧ ∀ k ∈ r, col ε k < col ε (key e)

theorem below_iff {k : Noun} {t : Tree ε} (h : Canon t) :
    belowRoot k t = true ↔ ∀ e ∈ t, row ε k < row ε (key e) := by
  cases t with
  | nil => simp [belowRoot]
  | node n l r => grind [belowRoot]

theorem aptIn_iff {t : Tree ε} {l r : Option Noun} : aptIn t l r = true ↔ Canon t ∧ Within t l r := by
  induction t generalizing l r with
  | nil => simp [aptIn, Within, canon_nil]
  | node n la ra ihl ihr =>
    have hbl := @below_iff _ _ (key n) la
    have hbr := @below_iff _ _ (key n) ra
    simp only [aptIn, Bool.and_eq_true, ihl, ihr, Option.all_eq_true, Option.mem_def, canon_node, Within]
    clear ihl ihr
    grind

/-- `_tap_in`: the entries before a list, from the right. -/
def tapIn : Tree ε → List ε → List ε
  | .nil, b => b
  | .node n l r, b => tapIn r (n :: tapIn l b)

omit [Entry ε] in
theorem mem_tapIn {e : ε} : ∀ {t : Tree ε} {b : List ε}, e ∈ tapIn t b ↔ e ∈ t ∨ e ∈ b
  | .nil, b => by simp [tapIn]
  | .node n l r, b => by
    rw [tapIn, mem_tapIn, List.mem_cons, mem_tapIn]
    grind

/-- The entries of a treap come in the falling order of `+gor`. -/
theorem tapIn_sorted {t : Tree ε} {b : List ε} (h : Canon t) (hb : b.Pairwise fun x y => col ε (key y) < col ε (key x))
    (hlt : ∀ x ∈ t, ∀ y ∈ b, col ε (key y) < col ε (key x)) :
    (tapIn t b).Pairwise fun x y => col ε (key y) < col ε (key x) := by
  induction t generalizing b with
  | nil => exact hb
  | node n l r ihl ihr =>
    obtain ⟨hl, hr, hln, hrn⟩ := canon_node.mp h
    have hleft := ihl hl hb fun x hx => hlt x (.inr (.inl hx))
    refine ihr hr (List.pairwise_cons.mpr ⟨fun y hy => ?_, hleft⟩) fun x hx y hy => ?_
    · have := mem_tapIn.mp hy
      grind
    · have := List.mem_cons.mp hy
      have (h : y ∈ tapIn l b) := mem_tapIn.mp h
      grind

theorem gas_spec {l : List ε} {a : Tree ε} (h : Canon a) :
    Canon (gas a l) ∧ (∀ e ∈ gas a l, e ∈ a ∨ e ∈ l) ∧
      ∀ e, e ∈ a ∨ e ∈ l → ∃ e' ∈ gas a l, key e' = key e := by
  induction l generalizing a with
  | nil => exact ⟨h, fun e he => .inl he, fun e he => ⟨e, he.resolve_right List.not_mem_nil, rfl⟩⟩
  | cons b l ih =>
    obtain ⟨hc, hm⟩ := put_spec (b := b) h
    obtain ⟨h1, h2, h3⟩ := ih hc
    rw [gas]
    refine ⟨h1, by grind, fun e he => ?_⟩
    by_cases hk : key e = key b
    · obtain ⟨e', he', hk'⟩ := h3 b (.inl ((hm b).mpr (.inl rfl)))
      exact ⟨e', he', hk'.trans hk.symm⟩
    · exact h3 e (by grind)

theorem apt_iff {t : Tree ε} : apt t = true ↔ Canon t :=
  aptIn_iff.trans (and_iff_left fun _ _ => by simp)

theorem gas_tap {t : Tree ε} (h : Canon t) : gas .nil (tapIn t []) = t := by
  obtain ⟨hc, h1, h2⟩ := gas_spec (l := tapIn t []) canon_nil
  refine Apt.unique hc h fun e => ?_
  have hmem (e : ε) : e ∈ tapIn t [] ↔ e ∈ t := mem_tapIn.trans (or_iff_left List.not_mem_nil)
  constructor
  · intro he
    exact (hmem e).mp ((h1 e he).resolve_left id)
  · intro he
    obtain ⟨e', he', hk⟩ := h2 e (.inr ((hmem e).mpr he))
    have hin : e' ∈ t := (hmem e').mp ((h1 e' he').resolve_left id)
    rwa [← Apt.eq_of_key h hin he hk]

/-! ### Sets and maps -/

def u3qdiPut (a : Tree Noun) (b : Noun) : Tree Noun := put b a

def u3qdiDel (a : Tree Noun) (b : Noun) : Tree Noun := del b a

def u3qdiHas (a : Tree Noun) (b : Noun) : Bool := (seek b a).isSome

def u3qdiUni (fuel : ℕ) (a b : Tree Noun) : Option (Tree Noun) := if a = b then some a else inUni fuel a b

def u3qdiInt : ℕ → Tree Noun → Tree Noun → Option (Tree Noun) := inInt

def u3qdiDif : Tree Noun → Tree Noun → Tree Noun := dif

def u3qdiBif (a : Tree Noun) (b : Noun) : Tree Noun × Tree Noun := bifAt b a

def u3qdiGas : Tree Noun → List Noun → Tree Noun := gas

def u3qdiTap (a : Tree Noun) : List Noun := tapIn a []

def u3qdiApt : Tree Noun → Bool := apt

abbrev Map := Tree (Noun × Noun)

def u3qdbPut (a : Map) (b c : Noun) : Map := put (b, c) a

def u3qdbDel (a : Map) (b : Noun) : Map := del b a

def u3qdbGet (a : Map) (b : Noun) : Option Noun := (seek b a).map Prod.snd

def u3qdbHas (a : Map) (b : Noun) : Bool := (seek b a).isSome

def u3qdbUni : ℕ → Map → Map → Option Map := uni

def u3qdbInt : ℕ → Map → Map → Option Map := int

def u3qdbDif : Map → Map → Map := dif

def u3qdbBif (a : Map) (b : Noun) : Map × Map := bifAt b a

def u3qdbGas : Map → List (Noun × Noun) → Map := gas

def u3qdbApt : Map → Bool := apt

/-- **A tree is apt just when it is made of a list by puts**, which may be the list of its entries. -/
theorem apt_iff_gas : (∀ a : Tree Noun, u3qdiApt a = true ↔ ∃ l, u3qdiGas .nil l = a) ∧
    (∀ a : Map, u3qdbApt a = true ↔ ∃ l, u3qdbGas .nil l = a) ∧
      ∀ a : Tree Noun, u3qdiApt a = true → u3qdiGas .nil (u3qdiTap a) = a := by
  have h {ε : Type} [Entry ε] (a : Tree ε) : apt a = true ↔ ∃ l, gas .nil l = a := by
    rw [apt_iff]
    constructor
    · exact fun h => ⟨_, gas_tap h⟩
    · rintro ⟨l, rfl⟩
      exact (gas_spec canon_nil).1
  exact ⟨h, h, fun a ha => gas_tap (apt_iff.mp ha)⟩

/-! ### Runs -/

/-- How a tree is made from nothing. -/
inductive Prog (ε : Type) where
  | nul
  | put (p : Prog ε) (b : ε)
  | del (p : Prog ε) (k : Noun)
  | uni (p q : Prog ε)
  | int (p q : Prog ε)
  | dif (p q : Prog ε)
  | lef (p : Prog ε) (k : Noun)
  | rit (p : Prog ε) (k : Noun)

section Run

variable (U I : ℕ → Tree ε → Tree ε → Option (Tree ε))

/-- The tree, with a union and an intersection. -/
def Prog.run (fuel : ℕ) : Prog ε → Option (Tree ε)
  | nul => some .nil
  | put p b => return Trees.put b (← p.run fuel)
  | del p k => return Trees.del k (← p.run fuel)
  | uni p q => do U fuel (← p.run fuel) (← q.run fuel)
  | int p q => do I fuel (← p.run fuel) (← q.run fuel)
  | dif p q => return Trees.dif (← p.run fuel) (← q.run fuel)
  | lef p k => return (bifAt k (← p.run fuel)).1
  | rit p k => return (bifAt k (← p.run fuel)).2

/-- Its entries: what is put takes the place of what has its key, and of a union and an intersection
the second tree's entries are kept. -/
def Prog.entries : Prog ε → Set ε
  | nul => ∅
  | put p b => {e | e = b ∨ e ∈ p.entries ∧ key e ≠ key b}
  | del p k => {e ∈ p.entries | key e ≠ k}
  | uni p q => {e | e ∈ q.entries ∨ e ∈ p.entries ∧ ∀ e' ∈ q.entries, key e' ≠ key e}
  | int p q => {e ∈ q.entries | ∃ e' ∈ p.entries, key e' = key e}
  | dif p q => {e ∈ p.entries | ∀ e' ∈ q.entries, key e' ≠ key e}
  | lef p k => {e ∈ p.entries | col ε (key e) < col ε k}
  | rit p k => {e ∈ p.entries | col ε k < col ε (key e)}

variable {U I}

theorem run_spec (hU : ∀ a b, Canon a → Canon b → Union U a b) (hI : ∀ a b, Canon a → Canon b → Inter I a b)
    (p : Prog ε) : ∃ t, Settles (fun n => p.run U I n) t ∧ Canon t ∧ ∀ e, e ∈ t ↔ e ∈ p.entries := by
  induction p with
  | nul => exact ⟨.nil, ⟨0, fun _ _ => rfl⟩, canon_nil, fun e => Iff.rfl⟩
  | put p b ih =>
    obtain ⟨t, hs, hc, hm⟩ := ih
    obtain ⟨h1, h2⟩ := put_spec (b := b) hc
    refine ⟨_, hs.all hs hs fun n h _ _ => by rw [Prog.run, h]; rfl, h1, fun e => ?_⟩
    rw [h2, hm]
    rfl
  | del p k ih =>
    obtain ⟨t, hs, hc, hm⟩ := ih
    obtain ⟨h1, h2⟩ := del_spec (k := k) hc
    refine ⟨_, hs.all hs hs fun n h _ _ => by rw [Prog.run, h]; rfl, h1, fun e => ?_⟩
    rw [h2, hm]
    rfl
  | uni p q ihp ihq =>
    obtain ⟨a, hsa, hca, hma⟩ := ihp
    obtain ⟨b, hsb, hcb, hmb⟩ := ihq
    obtain ⟨t, hst, h1, h2, -⟩ := hU a b hca hcb
    refine ⟨t, hsa.all hsb hst fun n ha hb h => by rw [Prog.run, ha, hb]; exact h, h1, fun e => ?_⟩
    simp only [h2, hma, hmb]
    rfl
  | int p q ihp ihq =>
    obtain ⟨a, hsa, hca, hma⟩ := ihp
    obtain ⟨b, hsb, hcb, hmb⟩ := ihq
    obtain ⟨t, hst, h1, h2⟩ := hI a b hca hcb
    refine ⟨t, hsa.all hsb hst fun n ha hb h => by rw [Prog.run, ha, hb]; exact h, h1, fun e => ?_⟩
    simp only [h2, hma, hmb]
    rfl
  | dif p q ihp ihq =>
    obtain ⟨a, hsa, hca, hma⟩ := ihp
    obtain ⟨b, hsb, hcb, hmb⟩ := ihq
    obtain ⟨h1, h2⟩ := dif_spec hca hcb
    refine ⟨_, hsa.all hsb hsb fun n ha hb _ => by rw [Prog.run, ha, hb]; rfl, h1, fun e => ?_⟩
    simp only [h2, hma, hmb]
    rfl
  | lef p k ih =>
    obtain ⟨t, hs, hc, hm⟩ := ih
    obtain ⟨⟨h1, h2⟩, -⟩ := bifAt_spec (k := k) hc
    refine ⟨_, hs.all hs hs fun n h _ _ => by rw [Prog.run, h]; rfl, h1, fun e => ?_⟩
    rw [h2, hm]
    rfl
  | rit p k ih =>
    obtain ⟨t, hs, hc, hm⟩ := ih
    obtain ⟨-, h1, h2⟩ := bifAt_spec (k := k) hc
    refine ⟨_, hs.all hs hs fun n h _ _ => by rw [Prog.run, h]; rfl, h1, fun e => ?_⟩
    rw [h2, hm]
    rfl

end Run

/-- **Maps are canonical over every run**: whatever puts, deletions, unions, intersections, differences
and splits a map is made by, the calls come to an end, the map is apt, it has the entries that it
should have, and every other way to the same entries ends in the same tree. -/
theorem map_run_canonical (p : Prog (Noun × Noun)) : ∃ t, Settles (fun n => p.run u3qdbUni u3qdbInt n) t ∧
    u3qdbApt t = true ∧ (∀ k v, u3qdbGet t k = some v ↔ (k, v) ∈ p.entries) ∧
      ∀ q : Prog (Noun × Noun), q.entries = p.entries → Settles (fun n => q.run u3qdbUni u3qdbInt n) t := by
  obtain ⟨t, hs, hc, hm⟩ := run_spec uni_spec int_spec p
  refine ⟨t, hs, apt_iff.mpr hc, fun k v => ?_, fun q hq => ?_⟩
  · rw [← hm, u3qdbGet, Option.map_eq_some_iff]
    constructor
    · rintro ⟨e, he, rfl⟩
      obtain ⟨hin, rfl⟩ := (seek_spec hc e).mp he
      exact hin
    · exact fun hin => ⟨(k, v), (seek_spec hc _).mpr ⟨hin, rfl⟩, rfl⟩
  · obtain ⟨t', hs', hc', hm'⟩ := run_spec uni_spec int_spec q
    rwa [hc.unique hc' fun e => by rw [hm, hm', hq]]

theorem u3qdiUni_spec (a b : Tree Noun) (ha : Canon a) (hb : Canon b) : Union u3qdiUni a b := by
  obtain ⟨t, hs, hc, hm, hn⟩ := uni_spec a b ha hb
  by_cases h : a = b
  · subst h
    exact ⟨a, ⟨0, fun n _ => if_pos rfl⟩, ha, by grind, Nat.le_add_left _ _⟩
  · refine ⟨t, hs.all hs hs fun n hn _ _ => ?_, hc, hm, hn⟩
    rw [u3qdiUni, if_neg h, inUni_eq, hn]

/-- **Sets are canonical over every run**, and the list of a set's elements has each of them once, in
the falling order of `+gor`. -/
theorem set_run_canonical (p : Prog Noun) : ∃ t, Settles (fun n => p.run u3qdiUni u3qdiInt n) t ∧
    u3qdiApt t = true ∧ (∀ e, u3qdiHas t e = true ↔ e ∈ p.entries) ∧
      ((∀ e, e ∈ u3qdiTap t ↔ e ∈ p.entries) ∧ (u3qdiTap t).Pairwise fun x y => u3qcGor y x = true ∧ x ≠ y) ∧
        ∀ q : Prog Noun, q.entries = p.entries → Settles (fun n => q.run u3qdiUni u3qdiInt n) t := by
  have hI := inInt_spec (ε := Noun) Function.injective_id
  obtain ⟨t, hs, hc, hm⟩ := run_spec u3qdiUni_spec hI p
  refine ⟨t, hs, apt_iff.mpr hc, fun e => ?_, ⟨fun e => ?_, ?_⟩, fun q hq => ?_⟩
  · rw [← hm, u3qdiHas, Option.isSome_iff_exists]
    constructor
    · rintro ⟨e', he⟩
      obtain ⟨hin, rfl⟩ := (seek_spec hc e').mp he
      exact hin
    · exact fun hin => ⟨e, (seek_spec hc e).mpr ⟨hin, rfl⟩⟩
  · exact mem_tapIn.trans ((or_iff_left List.not_mem_nil).trans (hm e))
  · exact (tapIn_sorted hc .nil fun _ _ _ h => absurd h List.not_mem_nil).imp
      fun h => ⟨le_of_lt h, fun he => (ne_of_gt h) he⟩
  · obtain ⟨t', hs', hc', hm'⟩ := run_spec u3qdiUni_spec hI q
    rwa [hc.unique hc' fun e => by rw [hm, hm', hq]]

end Trees
end Ursockets
