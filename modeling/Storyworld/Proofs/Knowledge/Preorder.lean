import Mathlib.Data.List.Flatten
import Mathlib.Data.List.Nodup
import Mathlib.Data.List.Perm.Subperm
import Storyworld.Proofs.Knowledge.Sorts

namespace Storyworld

/-!
# Walks up and down the tree of sorts

A taxonomy has a root, every other sort has a parent, and no sort is listed twice (`Rooted`). A walk
up goes to smaller numbers, and so it ends at the root (`Rooted.ends_ancestors`).

The walk down keeps a stack, onto which the sorts below a sort are put only when that sort is
reached. The order in which it comes to the sorts is that of a recursion over the tree (`preorder`),
which has each sort below once (`Rooted.nodup_preorder`). What an iteration has still to give can be
told from its state in these terms (`Members.rest`), and each turn leaves fewer turns to be made
(`Members.turns`); from that follows that it ends, and with what (`Rooted.ends_members`).
-/

namespace Taxonomy

open Action

variable {t u : Taxonomy} {s r c : Nat}

/-! ### Rooted trees -/

/-- There is a root, and every other sort has a parent, which lists it once. -/
structure Rooted (t : Taxonomy) : Prop extends Tree t where
  pos : 0 < t.size
  parent : ∀ s : Nat, 0 < s → s < t.size → (t.parent? s).isSome
  nodup : ∀ s, (t.subsorts s).Nodup

/-- What is listed below a sort has a larger number than it. -/
theorem Tree.lt_of_mem_subsorts (ht : t.Tree) (h : r ∈ t.subsorts s) : s < r ∧ r < t.size := by
  have hparent := (ht.mem_subsorts s r).1 h
  exact ⟨ht.descending r s hparent, size_le_of_parent? hparent⟩

/-- Nothing is below a sort that there is not. -/
theorem subsorts_of_ge (hs : t.size ≤ s) : t.subsorts s = [] := by
  rw [subsorts, entry_of_ge hs]
  rfl

/-- No entity is noted at a sort that there is not. -/
theorem instances_of_ge (hs : t.size ≤ s) : t.instances s = [] := by
  rw [instances, entry_of_ge hs]
  rfl

/-- A root alone is a tree with a root. -/
theorem rooted_ofRoot (name : String) : (ofRoot name).Rooted where
  toTree := tree_ofRoot name
  pos := Nat.one_pos
  parent s hpos hs := absurd hs (Nat.not_lt_of_le hpos)
  nodup s := by
    cases s with
    | zero => exact List.nodup_nil
    | succ s =>
      rw [subsorts_of_ge (Nat.le_add_left 1 s)]
      exact List.nodup_nil

/-- A new sort is listed below its parent, and was listed nowhere. -/
theorem Rooted.add (ht : t.Rooted) {name : String} {parent : SortId} (hparent : parent < t.size)
    (h : t.add name parent = .ok (s, u)) : u.Rooted where
  toTree := ht.toTree.add hparent h
  pos := by
    rw [(add_eq_ok hparent h).2.1]
    omega
  parent q hpos hq := by
    rw [(add_eq_ok hparent h).2.1] at hq
    rw [parent?_add hparent h]
    split
    · rfl
    · exact ht.parent q hpos (by omega)
  nodup q := by
    -- the number of the new sort is larger than any in the tree, so it is listed nowhere yet
    have hnew : t.size ∉ t.subsorts q := fun hmem =>
      Nat.lt_irrefl _ (ht.lt_of_mem_subsorts hmem).2
    rw [subsorts_add hparent h]
    split
    · refine List.nodup_append.2 ⟨ht.nodup q, by simp, fun a ha b hb => ?_⟩
      rw [List.mem_singleton.1 hb]
      rintro rfl
      exact hnew ha
    · exact ht.nodup q

/-- To note an entity changes no parent. -/
theorem parent?_pushInstance (t : Taxonomy) (p : SortId) (e : String) (s : Nat) :
    (t.pushInstance p e).parent? s = t.parent? s := by
  obtain ⟨instances, h⟩ := t.entry_pushInstance p e s
  rw [parent?, h, parent?]

/-- To note an entity changes nothing below. -/
theorem subsorts_pushInstance (t : Taxonomy) (p : SortId) (e : String) (s : Nat) :
    (t.pushInstance p e).subsorts s = t.subsorts s := by
  obtain ⟨instances, h⟩ := t.entry_pushInstance p e s
  rw [subsorts, h, subsorts]

/-- An entity is noted last at its sort, and at no other. -/
theorem instances_pushInstance {p : Nat} (hp : p < t.size) (e : String) (s : Nat) :
    (t.pushInstance p e).instances s =
      if p = s then t.instances s ++ [e] else t.instances s := by
  rw [instances, pushInstance, entry_modify]
  by_cases hps : p = s
  · rw [if_pos ⟨hps, hps ▸ hp⟩, if_pos hps]
    rfl
  · rw [if_neg fun h => hps h.1, if_neg hps]
    rfl

/-- To note an entity leaves the tree rooted. -/
theorem Rooted.pushInstance (ht : t.Rooted) (p : SortId) (e : String) :
    (t.pushInstance p e).Rooted := by
  have hsize : (t.pushInstance p e).size = t.size := Array.size_modify
  refine ⟨ht.toTree.pushInstance p e, ?_, fun q => ?_, fun q => ?_⟩
  · rw [hsize]
    exact ht.pos
  · rw [hsize, parent?_pushInstance]
    exact ht.parent q
  · rw [subsorts_pushInstance]
    exact ht.nodup q

/-! ### Up -/

/-- The sort and every sort above it, unless there are more than that many. -/
def ancestorsUpTo (t : Taxonomy) : Nat → SortId → Option (List SortId)
  | 0, _ => none
  | n + 1, s =>
    match t.parent? s with
    | none => some [s]
    | some p => (ancestorsUpTo t n p).map (s :: ·)

/-- A sort without a parent is the root. -/
theorem Rooted.parent?_eq_none_iff (ht : t.Rooted) (hs : s < t.size) :
    t.parent? s = none ↔ s = root := by
  constructor
  · intro hnone
    by_contra hne
    have hsome := ht.parent s (Nat.pos_of_ne_zero hne) hs
    rw [hnone] at hsome
    cases hsome
  · rintro rfl
    exact Option.eq_none_iff_forall_ne_some.2 fun p hp => Nat.not_lt_zero p (ht.descending _ p hp)

/-- A walk up that has enough steps comes to the root. -/
theorem Rooted.ancestorsUpTo_eq (ht : t.Rooted) {n : Nat} (hs : s < t.size) (hn : s < n) :
    t.ancestorsUpTo n s = some (t.ancestorsWithin n s) ∧
      (t.ancestorsWithin n s).getLast? = some root := by
  induction n generalizing s with
  | zero => exact absurd hn (Nat.not_lt_zero s)
  | succ n ih =>
    rw [ancestorsUpTo, ancestorsWithin]
    cases hp : t.parent? s with
    | none =>
      -- only the root has no parent, and there the walk stops
      obtain rfl := (ht.parent?_eq_none_iff hs).1 hp
      exact ⟨rfl, rfl⟩
    | some p =>
      -- parents have smaller numbers, so the fuel that is left is enough
      have hlt := ht.descending s p hp
      obtain ⟨heq, hlast⟩ := ih (Nat.lt_trans hlt hs) (by omega)
      simp [heq, List.getLast?_cons, hlast]

/-- **Every walk up ends at the root.** -/
theorem Rooted.ends_ancestors (ht : t.Rooted) (hs : s < t.size) :
    Ends (fun n => t.ancestorsUpTo n s) (t.ancestors s) ∧
      (t.ancestors s).getLast? = some root := by
  refine ⟨⟨t.size, fun n hn => ?_⟩, (ht.ancestorsUpTo_eq hs hs).2⟩
  show t.ancestorsUpTo n s = some (t.ancestors s)
  rw [(ht.ancestorsUpTo_eq hs (by omega)).1, ancestors]
  -- the bound does not matter once it is large enough
  rw [(Extends.refl t).ancestorsWithin ht.descending hs (by omega) hs]

/-- Sorts above have smaller numbers. -/
theorem Tree.le_of_isSubsort (ht : t.Tree) (hs : s < t.size) (h : t.isSubsort s r = true) :
    r ≤ s := by
  unfold isSubsort at h
  rw [decide_eq_true_eq] at h
  induction s using Nat.strongRecOn with
  | ind s ih =>
    rcases (ht.descending.mem_ancestors_iff hs).1 h with rfl | ⟨p, hp, hr⟩
    · exact Nat.le_refl r
    · have hlt := ht.descending s p hp
      exact Nat.le_trans (ih p hlt (by omega) hr) (Nat.le_of_lt hlt)

/-- No sort lies below two sorts that have the same parent. -/
theorem Tree.eq_of_siblings (ht : t.Tree) {d : Nat} (hr : r < t.size)
    (hc : t.parent? c = some s) (hd : t.parent? d = some s)
    (hrc : t.isSubsort r c = true) (hrd : t.isSubsort r d = true) : c = d := by
  have hsc := ht.descending c s hc
  have hsd := ht.descending d s hd
  unfold isSubsort at hrc hrd
  rw [decide_eq_true_eq] at hrc hrd
  induction r using Nat.strongRecOn with
  | ind r ih =>
    -- the walks up from a sort meet one of the two first, and from there come to the parent
    have habove : ∀ p : Nat, t.parent? r = some p → ∀ q : Nat, q ∈ t.ancestors p → q ≤ p :=
      fun p hp q hq => ht.le_of_isSubsort (Nat.lt_trans (ht.descending r p hp) hr)
        (decide_eq_true hq)
    rcases (ht.descending.mem_ancestors_iff hr).1 hrc with rfl | ⟨p, hp, hpc⟩
    · rcases (ht.descending.mem_ancestors_iff hr).1 hrd with rfl | ⟨p, hp, hpd⟩
      · rfl
      · obtain rfl : p = s := Option.some.inj (hp.symm.trans hc)
        have := habove p hp d hpd
        omega
    · rcases (ht.descending.mem_ancestors_iff hr).1 hrd with rfl | ⟨q, hq, hqd⟩
      · obtain rfl : p = s := Option.some.inj (hp.symm.trans hd)
        have := habove p hp c hpc
        omega
      · obtain rfl : p = q := Option.some.inj (hp.symm.trans hq)
        have hlt := ht.descending r p hp
        exact ih p hlt (by omega) hpc hqd

/-! ### Down -/

/-- What holds of a sort whenever it holds of those listed below it holds of every sort. -/
theorem Tree.induction_below (ht : t.Tree) {P : Nat → Prop}
    (h : ∀ s : Nat, (∀ c ∈ t.subsorts s, P c) → P s) (s : Nat) : P s := by
  induction hdepth : t.size - s using Nat.strongRecOn generalizing s with
  | ind depth ih =>
    apply h
    intro c hc
    have hlt := ht.lt_of_mem_subsorts hc
    exact ih (t.size - c) (by omega) c rfl

/-- The sort and the sorts below it, at most that deep, each before those below it. -/
def preorderWithin (t : Taxonomy) : Nat → SortId → List SortId
  | 0, s => [s]
  | n + 1, s => s :: (t.subsorts s).flatMap (preorderWithin t n)

/-- The sort and all sorts below it, each before those below it. -/
def preorder (t : Taxonomy) (s : SortId) : List SortId := t.preorderWithin t.size s

/-- Sorts below do not depend on the bound, as long as that is large enough. -/
theorem Tree.preorderWithin_eq (ht : t.Tree) {m n : Nat} (hm : t.size ≤ s + m)
    (hn : t.size ≤ s + n) : t.preorderWithin m s = t.preorderWithin n s := by
  induction m generalizing n s with
  | zero =>
    cases n with
    | zero => rfl
    | succ n => simp [preorderWithin, subsorts_of_ge (show t.size ≤ s from hm)]
  | succ m ih =>
    cases n with
    | zero => simp [preorderWithin, subsorts_of_ge (show t.size ≤ s from hn)]
    | succ n =>
      rw [preorderWithin, preorderWithin]
      congr 1
      refine List.flatMap_congr fun c hc => ?_
      -- subsorts have larger numbers, so either depth is still enough for them
      have hlt := ht.lt_of_mem_subsorts hc
      exact ih (by omega) (by omega)

/-- The walk down from a sort is the sort and then the walks down from those below it, whatever
depth was allowed for. -/
theorem Tree.preorder_eq (ht : t.Tree) (s : Nat) :
    t.preorder s = s :: (t.subsorts s).flatMap t.preorder := by
  have hdeeper : t.preorder s = t.preorderWithin (t.size + 1) s :=
    ht.preorderWithin_eq (by omega) (by omega)
  rw [hdeeper]
  rfl

/-- A walk down comes to the sort itself and to where the walks from below it come. -/
theorem Tree.mem_preorder_iff_cons (ht : t.Tree) :
    r ∈ t.preorder s ↔ r = s ∨ ∃ c ∈ t.subsorts s, r ∈ t.preorder c := by
  rw [ht.preorder_eq, List.mem_cons, List.mem_flatMap]

/-- **The preorder of a sort has the sorts that lie below it.** -/
theorem Tree.mem_preorder_iff (ht : t.Tree) (hr : r < t.size) :
    r ∈ t.preorder s ↔ t.isSubsort r s = true := by
  induction s using ht.induction_below with
  | h s ih =>
    rw [ht.mem_preorder_iff_cons, ht.isSubsort_iff hr]
    exact or_congr_right (exists_congr fun c => and_congr_right fun hc => ih c hc)

/-- A walk down comes to larger numbers only. -/
theorem Tree.lt_of_mem_preorder (ht : t.Tree) (hs : s < t.size) (h : r ∈ t.preorder s) :
    s ≤ r ∧ r < t.size := by
  induction s using ht.induction_below with
  | h s ih =>
    rcases ht.mem_preorder_iff_cons.1 h with rfl | ⟨c, hc, hmem⟩
    · exact ⟨Nat.le_refl r, hs⟩
    · have hlt := ht.lt_of_mem_subsorts hc
      have hbelow := ih c hc hlt.2 hmem
      omega

/-- The preorder of a sort has no sort twice. -/
theorem Rooted.nodup_preorder (ht : t.Rooted) (hs : s < t.size) : (t.preorder s).Nodup := by
  induction s using ht.induction_below with
  | h s ih =>
    rw [ht.preorder_eq, List.nodup_cons, List.nodup_flatMap, List.mem_flatMap]
    refine ⟨?_, fun c hc => ih c hc (ht.lt_of_mem_subsorts hc).2, ?_⟩
    · rintro ⟨c, hc, hmem⟩
      have hlt := ht.lt_of_mem_subsorts hc
      have hle := ht.lt_of_mem_preorder hlt.2 hmem
      omega
    · -- what lies below two sorts that are listed together would lie below one of them only
      refine (ht.nodup s).imp_of_mem fun {c d} hc hd hne r hrc hrd => hne ?_
      have hr := (ht.lt_of_mem_preorder (ht.lt_of_mem_subsorts hc).2 hrc).2
      exact ht.eq_of_siblings hr ((ht.mem_subsorts s c).1 hc) ((ht.mem_subsorts s d).1 hd)
        ((ht.mem_preorder_iff hr).1 hrc) ((ht.mem_preorder_iff hr).1 hrd)

/-! ### The iteration over members -/

@[simp] theorem weight_nil (t : Taxonomy) : t.weight [] = 0 := rfl

@[simp] theorem weight_cons (t : Taxonomy) (s : Nat) (l : List Nat) :
    t.weight (s :: l) = (t.instances s).length + 1 + t.weight l := by
  simp only [weight, List.flatMap_cons, List.length_append, List.length_cons]
  omega

@[simp] theorem weight_append (t : Taxonomy) (l l' : List Nat) :
    t.weight (l ++ l') = t.weight l + t.weight l' := by
  induction l with
  | nil => simp
  | cons s l ih => simp only [List.cons_append, weight_cons, ih, Nat.add_assoc]

/-- Fewer sorts weigh less, in whatever order they are. -/
theorem weight_le_of_subperm {l l' : List Nat} (h : l.Subperm l') : t.weight l ≤ t.weight l' := by
  obtain ⟨k, hperm, hsublist⟩ := h
  have hequal := (hperm.flatMap_right t.instances).length_eq
  have hinstances := (hsublist.flatMap t.instances).length_le
  have hlengths := hperm.length_eq
  have hlength := hsublist.length_le
  unfold weight
  omega

namespace Members

variable {m : Members}

/-- The members that an iteration has still to give. -/
def rest (t : Taxonomy) (m : Members) : List String :=
  match m.current with
  | none => []
  | some (s, i) => (t.instances s).drop i ++ (m.pending.flatMap t.preorder).flatMap t.instances

/-- The turns that an iteration has still to make. -/
def turns (t : Taxonomy) (m : Members) : Nat :=
  match m.current with
  | none => 0
  | some (s, i) =>
    (t.instances s).length - i + 1 + t.weight (m.pending.flatMap t.preorder)

/-- When the instances of a sort have been given, nothing is lost by going on to the next sort. -/
theorem rest_goOn (ht : t.Tree) {s i : Nat} (hcurrent : m.current = some (s, i))
    (hi : (t.instances s).length ≤ i) : (m.goOn t).rest t = m.rest t := by
  obtain ⟨current, pending⟩ := m
  obtain rfl : current = some (s, i) := hcurrent
  cases pending with
  | nil => simp [goOn, rest, hi]
  | cons c pending => simp [goOn, rest, hi, ht.preorder_eq c]

/-- To go on to the next sort takes one turn. -/
theorem turns_goOn (ht : t.Tree) {s i : Nat} (hcurrent : m.current = some (s, i)) :
    (m.goOn t).turns t < m.turns t := by
  obtain ⟨current, pending⟩ := m
  obtain rfl : current = some (s, i) := hcurrent
  cases pending with
  | nil => simp [goOn, turns]
  | cons c pending =>
    simp [goOn, turns, ht.preorder_eq c]

/-- With enough turns, the next member is the first of those that are still to come. -/
theorem nextUpTo_cases (ht : t.Tree) {n : Nat} (hn : m.turns t < n) :
    (m.nextUpTo t n = some none ∧ m.rest t = []) ∨
      ∃ e m', m.nextUpTo t n = some (some (e, m')) ∧ m.rest t = e :: m'.rest t ∧
        m'.turns t < m.turns t := by
  induction n generalizing m with
  | zero => exact absurd hn (Nat.not_lt_zero _)
  | succ n ih =>
    rw [nextUpTo]
    cases hcurrent : m.current with
    | none => exact Or.inl ⟨rfl, by simp [rest, hcurrent]⟩
    | some place =>
      obtain ⟨s, i⟩ := place
      dsimp only
      -- the sort has another instance, or it is time for the next sort
      cases hinstance : (t.instances s)[i]? with
      | some e =>
        obtain ⟨hi, rfl⟩ := List.getElem?_eq_some_iff.1 hinstance
        refine Or.inr ⟨_, _, rfl, ?_, ?_⟩
        · simp only [rest, hcurrent]
          rw [List.drop_eq_getElem_cons hi, List.cons_append]
        · simp only [turns, hcurrent]
          omega
      | none =>
        have hrest := rest_goOn ht hcurrent (List.getElem?_eq_none_iff.1 hinstance)
        have hturns := turns_goOn ht hcurrent
        rw [← hrest]
        rcases ih (show (m.goOn t).turns t < n by omega) with h | ⟨e, m', hnext, hcons, hless⟩
        · exact Or.inl h
        · exact Or.inr ⟨e, m', hnext, hcons, by omega⟩

/-- **With enough turns, an iteration gives what it has still to give, and is over.** -/
theorem collectUpTo_eq (ht : t.Tree) {n : Nat} (hn : m.turns t < n) :
    m.collectUpTo t n = some (m.rest t) := by
  induction n generalizing m with
  | zero => exact absurd hn (Nat.not_lt_zero _)
  | succ n ih =>
    rw [collectUpTo]
    rcases nextUpTo_cases ht hn with ⟨hnext, hrest⟩ | ⟨e, m', hnext, hrest, hless⟩
    · simp [hnext, hrest]
    · simp [hnext, hrest, ih (show m'.turns t < n by omega)]

/-- An iteration starts with everything still to give. -/
theorem rest_ofSort (ht : t.Tree) (s : Nat) :
    (ofSort t s).rest t = (t.preorder s).flatMap t.instances := by
  simp [ofSort, rest, ht.preorder_eq s]

/-- An iteration starts with all of its turns. -/
theorem turns_ofSort (ht : t.Tree) (s : Nat) :
    (ofSort t s).turns t = t.weight (t.preorder s) := by
  simp [ofSort, turns, ht.preorder_eq s]

end Members

/-- To walk some sorts takes no more turns than to walk them all. -/
theorem Rooted.weight_preorder_le (ht : t.Rooted) (hs : s < t.size) :
    t.weight (t.preorder s) ≤ t.weight (List.range t.size) :=
  weight_le_of_subperm <| List.subperm_of_subset (ht.nodup_preorder hs) fun _ hr =>
    List.mem_range.2 (ht.lt_of_mem_preorder hs hr).2

/-- The members of a sort are the instances of the sorts in its preorder. -/
theorem Rooted.members_eq (ht : t.Rooted) (hs : s < t.size) :
    t.members s = (t.preorder s).flatMap t.instances := by
  have hturns : (Members.ofSort t s).turns t < t.weight (List.range t.size) + 1 := by
    rw [Members.turns_ofSort ht.toTree]
    exact Nat.lt_succ_of_le (ht.weight_preorder_le hs)
  rw [members, Members.collectUpTo_eq ht.toTree hturns, Members.rest_ofSort ht.toTree]
  rfl

/-- **The iteration over the members of a sort ends.** -/
theorem Rooted.ends_members (ht : t.Rooted) (hs : s < t.size) :
    Ends (fun n => (Members.ofSort t s).collectUpTo t n) (t.members s) := by
  refine ⟨(Members.ofSort t s).turns t + 1, fun n hn => ?_⟩
  rw [ht.members_eq hs, ← Members.rest_ofSort ht.toTree]
  exact Members.collectUpTo_eq ht.toTree hn

/-- The members of a sort are its instances, and then those of the sorts listed below it. -/
theorem Rooted.members_eq_append (ht : t.Rooted) (hs : s < t.size) :
    t.members s = t.instances s ++ (t.subsorts s).flatMap t.members := by
  have hbelow : (t.subsorts s).flatMap t.members =
      (t.subsorts s).flatMap fun c => (t.preorder c).flatMap t.instances :=
    List.flatMap_congr fun c hc => ht.members_eq (ht.lt_of_mem_subsorts hc).2
  rw [hbelow, ht.members_eq hs, ht.preorder_eq, List.flatMap_cons, List.flatMap_assoc]

end Taxonomy

end Storyworld
