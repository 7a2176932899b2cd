import KernelMap.Proofs.Interchange
import Mathlib.Data.List.Sort

/-!
# KernelMap.Proofs.Nesting

A loop tree is its body in the order of time.

The times of a scheduled body alternate slots with coordinates (`Item.Timed`), and moving loops
keeps that (`Body.timed_of_interchange`).  Such times agree on an entry as soon as they are compared
as equal there, so that two leaves of the tree share the nodes of the coordinates up to which their
times agree (`Body.meet_eq`).

Main statement: `Body.leaves_in_time_order`.
-/

namespace KernelMap

/-! ## what surrounds an item -/

namespace Body

/-- Coordinate `j` varies for an item, and is not one of the host. -/
def surrounds (b : Body) (i : Item) (j : Nat) : Bool :=
  decide (i.time[2 * j + 1]? = some (.dim j)) && decide (b.schedule.levels.getD j .inner ≠ .host)

/-- The loops and ids of the coordinates that vary for an item, from outside in. -/
def around (b : Body) (i : Item) : List NodeInfo :=
  ((List.range b.schedule.depth).filter (b.surrounds i)).map b.node

end Body

/-! ## entries of times -/

namespace Item.Timed

variable {x y : Item} {depth pos : Nat} {m m' : Moment}

/-- An entry is a value, or it is the coordinate of its position. -/
theorem entry (h : x.Timed depth) (hm : x.time[pos]? = some m) :
    (∃ v : Int, m.rank pos = v ∧ ∀ j, m ≠ .dim j) ∨ ∃ j < depth, pos = 2 * j + 1 ∧ m = .dim j := by
  rcases Nat.even_or_odd' pos with ⟨q, rfl | rfl⟩
  · obtain ⟨n, rfl⟩ := h.alternates q m hm
    exact Or.inl ⟨n, (Moment.rank_eq_slot (by omega)).mpr rfl, by simp⟩
  · rcases h.coord q m hm with ⟨rfl, hq⟩ | ⟨v, rfl⟩
    · exact Or.inr ⟨q, hq, rfl, rfl⟩
    · exact Or.inl ⟨v, (Moment.rank_eq_const (by omega)).mpr rfl, by simp⟩

/-- Entries of two times that are compared as equal are equal. -/
theorem moment_eq (hx : x.Timed depth) (hy : y.Timed depth) (hm : x.time[pos]? = some m)
    (hm' : y.time[pos]? = some m') (h : m.rank pos = m'.rank pos) : m = m' := by
  rcases hx.entry hm with ⟨v, hv, -⟩ | ⟨j, -, hpos, rfl⟩
  · rw [hv] at h
    rcases Nat.mod_two_eq_zero_or_one pos with heven | hodd
    · rw [(Moment.rank_eq_slot heven).mp hv, (Moment.rank_eq_slot heven).mp h.symm]
    · rw [(Moment.rank_eq_const hodd).mp hv, (Moment.rank_eq_const hodd).mp h.symm]
  · rcases hy.entry hm' with ⟨v, hv, -⟩ | ⟨j', -, hpos', rfl⟩
    · rw [hv] at h
      cases h
    · rw [show j = j' by omega]

/-- Entries that are compared as equal are equal. -/
theorem entry_eq (hx : x.Timed depth) (hy : y.Timed depth) (h : x.rank? pos = y.rank? pos) :
    x.time[pos]? = y.time[pos]? := by
  cases hm : x.time[pos]? with
  | none =>
      rw [Item.rank?, hm, Option.map_none, eq_comm, Item.rank?, Option.map_eq_none_iff] at h
      exact h.symm
  | some m =>
      rw [Item.rank?, hm, Option.map_some, eq_comm, Item.rank?, Option.map_eq_some_iff] at h
      obtain ⟨m', hm', hrank⟩ := h
      rw [hm', moment_eq hx hy hm hm' hrank.symm]

end Item.Timed

/-! ## shared nodes -/

namespace Body

variable {b : Body} {x y : Item} {pos : Nat}

/-- The first coordinate, and those after it. -/
theorem filter_range_eq_append {k n : Nat} (hk : k < n) (p : Nat → Bool) :
    (List.range n).filter (fun j => decide (2 * k + 1 ≤ 2 * j + 1) && p j) =
      (if p k then [k] else []) ++ (List.range n).filter fun j =>
      decide (2 * k + 1 + 1 ≤ 2 * j + 1) && p j := by
  have hsorted : ∀ q : Nat → Bool, ((List.range n).filter q).Pairwise (· < ·) := fun q =>
    List.pairwise_lt_range.filter q
  refine List.Pairwise.eq_of_mem_iff (hsorted _) ?_ fun j => ?_
  · split
    · exact List.pairwise_cons.mpr ⟨fun j hj => by simp at hj; omega, hsorted _⟩
    · exact hsorted _
  · by_cases hj : j = k
    · subst hj
      by_cases hp : p j = true <;> simp [hp, hk]
    · have hnot : j ∉ (if p k then [k] else []) := by split <;> simp [hj]
      have hiff : 2 * k + 1 ≤ 2 * j + 1 ↔ 2 * k + 1 + 1 ≤ 2 * j + 1 := by omega
      rw [List.mem_append, or_iff_right hnot]
      simp only [List.mem_filter, hiff]

/-- The nodes of a coordinate that varies are those that surround the item. -/
theorem nodesAt_eq {k : Nat} (h : x.time[2 * k + 1]? = some (.dim k)) :
    b.nodesAt k = (if b.surrounds x k then [k] else []).map b.node := by
  rw [nodesAt, surrounds, decide_eq_true h, Bool.true_and]
  by_cases hhost : b.schedule.levels.getD k .inner = .host
  · rw [if_pos hhost, decide_eq_false (not_not.mpr hhost)]
    rfl
  · rw [if_neg hhost, decide_eq_true hhost]
    rfl

/-- Two items are together in the nodes of the coordinates that vary for one of them and up to which
they agree. -/
theorem meet_eq (hx : x.Timed b.schedule.depth) (hy : y.Timed b.schedule.depth)
    (hagree : x.time.take pos = y.time.take pos) :
    b.meet pos (x.remaining pos) (y.remaining pos) =
      ((List.range b.schedule.depth).filter fun j => decide (pos ≤ 2 * j + 1) &&
        (b.surrounds x j &&
          decide (x.time.take (2 * j + 2) = y.time.take (2 * j + 2)))).map b.node := by
  induction hn : x.time.length - pos generalizing pos with
  | zero =>
      have hnone : x.rank? pos = none := Item.rank?_eq_none.mpr (by omega)
      rw [Item.remaining_of_rank?_eq_none hnone, meet_nil_left, eq_comm, List.map_eq_nil_iff,
        List.filter_eq_nil_iff]
      intro j _ hj
      simp only [surrounds, Bool.and_eq_true, decide_eq_true_eq] at hj
      have hlt := (List.getElem?_eq_some_iff.mp hj.2.1.1).1
      omega
  | succ n ih =>
      by_cases hrank : x.rank? pos = y.rank? pos
      · have hentry := Item.Timed.entry_eq hx hy hrank
        have hnext : x.time.take (pos + 1) = y.time.take (pos + 1) := by
          rw [List.take_add_one, List.take_add_one, hagree, hentry]
        have hlt : pos < x.time.length := by omega
        have hm := List.getElem?_eq_getElem hlt
        rcases hx.entry hm with ⟨v, hv, hdim⟩ | ⟨k, hk, rfl, hdim⟩
        · -- A slot or constant adds no node: if it stands for a coordinate, that one does not vary.
          have hrx : x.rank? pos = some (v : WithTop Int) := by
            rw [Item.rank?, hm, Option.map_some, hv]
          rw [meet_of_rank?_eq_coe hrx (hrank.symm.trans hrx), ih hnext (by omega)]
          refine congrArg (List.map b.node) (List.filter_congr fun j _ => ?_)
          by_cases hj : pos = 2 * j + 1
          · have hnot : b.surrounds x j = false := by simp [surrounds, ← hj, hlt, hdim j]
            simp [hnot]
          · have hiff : pos + 1 ≤ 2 * j + 1 ↔ pos ≤ 2 * j + 1 := by omega
            simp only [hiff]
        · have hrx : x.rank? (2 * k + 1) = some ⊤ := by
            rw [Item.rank?, hm, Option.map_some, hdim, Moment.rank]
          have hdiv : (2 * k + 1) / 2 = k := by omega
          have hagrees : x.time.take (2 * k + 2) = y.time.take (2 * k + 2) := hnext
          rw [meet_of_rank?_eq_top hrx (hrank.symm.trans hrx), ih hnext (by omega), hdiv,
            filter_range_eq_append hk, List.map_append, nodesAt_eq (hdim ▸ hm),
            decide_eq_true hagrees, Bool.and_true]
      · -- No later coordinate is one up to which the times agree.
        rw [meet_of_rank?_ne hrank, eq_comm, List.map_eq_nil_iff, List.filter_eq_nil_iff]
        intro j _ hj
        simp only [Bool.and_eq_true, decide_eq_true_eq] at hj
        have hentry := congrArg (·[pos]?) hj.2.2
        simp only [List.getElem?_take_of_lt (show pos < 2 * j + 2 by omega)] at hentry
        exact hrank (by rw [Item.rank?, Item.rank?, hentry])

/-- What is around two leaves is what is around one of them, up to where their times agree. -/
theorem meet_eq_filter (hx : x.Timed b.schedule.depth) (hy : y.Timed b.schedule.depth) :
    b.meet 0 (x.remaining 0) (y.remaining 0) =
      (b.around x).filter fun node =>
      decide (x.time.take (2 * node.level + 2) = y.time.take (2 * node.level + 2)) := by
  rw [meet_eq hx hy rfl, around, List.filter_map, List.filter_filter]
  refine congrArg (List.map b.node) (List.filter_congr fun j _ => ?_)
  rw [decide_eq_true (Nat.zero_le _), Bool.true_and, Bool.and_comm]
  rfl

end Body

/-! ## leaves and what is around them -/

namespace Tree

mutual
/-- What is found around the first leaf of a kind is what is around its number. -/
theorem enclosing?_eq (p : Tree → Bool) : ∀ t : Tree,
    t.enclosing? p = (t.leaves.findIdx? p).map fun a => t.shared a a
  | block children => by
      simp only [enclosing?, leaves, shared, enclosingOf?_eq p children]
  | loop info body => by
      simp only [enclosing?, leaves, shared, enclosing?_eq p body, Option.map_map]
      rfl
  | mapped info id body => by
      simp only [enclosing?, leaves, shared, enclosing?_eq p body, Option.map_map]
      rfl
  | user index name => by
      by_cases hp : p (user index name) = true <;> simp [enclosing?, leaves, shared, hp]
  | copy var direction memory refs => by
      by_cases hp : p (copy var direction memory refs) = true <;>
        simp [enclosing?, leaves, shared, hp]
  | sync => by
      by_cases hp : p sync = true <;> simp [enclosing?, leaves, shared, hp]
  | launch kernel => by
      by_cases hp : p (launch kernel) = true <;> simp [enclosing?, leaves, shared, hp]

theorem enclosingOf?_eq (p : Tree → Bool) : ∀ ts : List Tree,
    enclosingOf? p ts = ((leavesOf ts).findIdx? p).map fun a => sharedOf ts a a
  | [] => by simp [enclosingOf?, leavesOf]
  | t :: ts => by
      rw [enclosingOf?, leavesOf, List.findIdx?_append, enclosing?_eq p t, enclosingOf?_eq p ts]
      cases hfirst : t.leaves.findIdx? p with
      | some a =>
          have ha := (List.findIdx?_eq_some_iff_findIdx_eq.mp hfirst).1
          simp [sharedOf, ha]
      | none =>
          simp [sharedOf, Function.comp_def]
end

/-- The nodes around the first leaf with a property are found from the first such item. -/
theorem enclosing?_eq_find? {t : Tree} {order : List Item} {f : Item → List NodeInfo}
    (hleaves : t.leaves = order.map fun i => ofWork i.work)
    (hself : ∀ a x, order[a]? = some x → t.shared a a = f x) (p : Tree → Bool) :
    t.enclosing? p = (order.find? fun i => p (ofWork i.work)).map f := by
  rw [enclosing?_eq, hleaves, List.findIdx?_map, List.find?_eq_bind_findIdx?_getElem?]
  show (order.findIdx? fun i => p (ofWork i.work)).map _ = _
  cases hfirst : order.findIdx? fun i => p (ofWork i.work) with
  | none => rfl
  | some a =>
      have ha := List.getElem?_eq_getElem (List.findIdx?_eq_some_iff_findIdx_eq.mp hfirst).1
      rw [Option.bind_some, ha, Option.map_some, Option.map_some, hself a _ ha]

end Tree

/-! ## moved items -/

namespace Body

/-- A time keeps its coordinates in order when they are rearranged. -/
theorem timed_of_rearranged {i i' : Item} {depth : Nat} {places : List Nat}
    (hplaces : places.length = depth) (hi : i.Timed depth) (hlen : i.time.length = 2 * depth + 1)
    (h : i.Rearranged places i') : i'.Timed depth where
  alternates := fun q m hm => hi.alternates q m (h.slot q ▸ hm)
  coord := by
    intro q m hm
    have hlt := (List.getElem?_eq_some_iff.mp hm).1
    have hq : q < depth := by
      rw [h.length] at hlt
      omega
    obtain ⟨old, hold⟩ : ∃ old, places[q]? = some old :=
      ⟨_, List.getElem?_eq_getElem (hplaces.symm ▸ hq)⟩
    rw [h.coord q old hold, Option.map_eq_some_iff] at hm
    obtain ⟨m₀, hm₀, rfl⟩ := hm
    rcases hi.coord old m₀ hm₀ with ⟨rfl, -⟩ | ⟨v, rfl⟩
    · exact Or.inl ⟨rfl, hq⟩
    · exact Or.inr ⟨v, rfl⟩

/-- Moving loops keeps slots and coordinates at their positions. -/
theorem timed_of_interchange {ε : Type} {b b' : Body} {moved : List Nat}
    (hstart : b.schedule.privateLen ≤ b.schedule.depth)
    (htimed : ∀ i ∈ b.items, i.Timed b.schedule.depth)
    (h : (b.interchange moved : Outcome ε Body) = .ok b') :
    ∀ i ∈ b'.items, i.Timed b'.schedule.depth := by
  unfold interchange at h
  dsimp only at h
  split at h
  · cases h
    exact htimed
  split at h
  · cases h
  · next hroom =>
    simp only [Outcome.bind_eq_ok, Outcome.pure_eq_ok] at h
    obtain ⟨statements, -, items, hitems, stage, -, rfl⟩ := h
    have hperm := perm_newOrder_of_length_le (not_lt.mp hroom)
    have hdepth : (reorder b.schedule.privateLen
        (newOrder b.schedule.privateLen b.schedule.depth moved) b.schedule.levels).length =
      b.schedule.depth := by
      rw [reorder_eq_rearrange hperm hstart rfl, length_rearrange (lt_of_mem_places hperm hstart),
        length_places hperm hstart]
    intro i' hi'
    show i'.Timed (reorder _ _ _).length
    rw [hdepth]
    obtain ⟨i, hi, hreorder⟩ := Outcome.exists_of_mem_of_mapM hitems hi'
    by_cases hlen : i.time.length = 2 * b.schedule.depth + 1
    · obtain ⟨i'', hi'', hrearranged⟩ := exists_reorderItem (ε := ε) hperm hstart (htimed i hi) hlen
      rw [hreorder] at hi''
      cases hi''
      exact timed_of_rearranged (length_places hperm hstart) (htimed i hi) hlen hrearranged
    · rw [reorderItem, if_neg hlen] at hreorder
      cases hreorder
      exact htimed i' hi

/-! ## kernels of valid programs -/

variable {p : Program} {o : Options} {region : Region} {k : KernelSchedule} {sc : Scope}
  {formed checked groups : List Group} {unroll moved : List Nat} {body body' : Body}

/-- The tree of a scheduled body, whichever loops are moved, has the items as leaves, in the order
of their times and otherwise in that of the body.  Around each leaf are the loops and ids of the
coordinates that vary for it, and around two of them those up to which their times agree. -/
theorem leaves_in_time_order (hp : p.validate = .ok ()) (hregion : region ∈ p.regions)
    (hk : KernelSchedule.build p region o = .ok k) (hsc : sc = Scope.ofSchedule p o k)
    (hall : Group.all sc = .ok formed)
    (hunroll : Group.checkUnroll sc formed = .ok (checked, unroll))
    (hbudget : Group.enforceBudget sc checked = .ok groups) (hbody : build sc groups = .ok body)
    (hmoved : (body.interchange moved : Outcome MapError Body) = .ok body') :
    ∃ (tree : Tree) (order : List Item), Tree.ofBody body' = .ok tree ∧
      order = body'.items.mergeSort (fun i j => decide (i.remaining 0 ≤ j.remaining 0)) ∧
      tree.leaves = order.map (fun i => Tree.ofWork i.work) ∧
      (∀ q, tree.enclosing? q = (order.find? fun i => q (Tree.ofWork i.work)).map body'.around) ∧
      (∀ a x, order[a]? = some x → tree.shared a a = body'.around x) ∧
      ∀ a a' x y, order[a]? = some x → order[a']? = some y →
        tree.shared a a' = (body'.around x).filter fun node =>
          decide (x.time.take (2 * node.level + 2) = y.time.take (2 * node.level + 2)) := by
  subst hsc
  have hstart : k.privateLen ≤ k.depth :=
    (Scope.regular_of_build (o := o) hp hregion hk).laidOut.privateLen_le_depth
  have hplaced := Group.placed_of_all hall (Group.demoted_of_stages hunroll hbudget)
  have hschedule := schedule_of_build hbody
  have htimed : ∀ i ∈ body.items, i.Timed body.schedule.depth := fun i hi => by
    rw [hschedule]
    exact timed_of_made hplaced hstart (made_of_build hbody i hi)
  have htimed' := timed_of_interchange (by rw [hschedule]; exact hstart) htimed hmoved
  obtain ⟨tree, htree⟩ := Tree.exists_ofBody fun i hi => (htimed' i hi).alternates
  obtain ⟨ts, rfl, hnested⟩ := Tree.nested_of_ofBody htree
  have hmem : ∀ {a : Nat} {x : Item}, (Tree.inOrder 0 body'.items)[a]? = some x →
      x.Timed body'.schedule.depth :=
    fun hx => htimed' _ ((Sorted.perm_arrange _ _).mem_iff.mp (List.mem_of_getElem? hx))
  have hshared : ∀ a a' x y, (Tree.inOrder 0 body'.items)[a]? = some x →
      (Tree.inOrder 0 body'.items)[a']? = some y →
      (Tree.block ts).shared a a' = (body'.around x).filter fun node =>
        decide (x.time.take (2 * node.level + 2) = y.time.take (2 * node.level + 2)) := by
    intro a a' x y hx hy
    rw [Tree.shared, hnested.shared a a' x y hx hy, meet_eq_filter (hmem hx) (hmem hy)]
  have hself : ∀ a x, (Tree.inOrder 0 body'.items)[a]? = some x →
      (Tree.block ts).shared a a = body'.around x := by
    intro a x hx
    rw [hshared a a x x hx hx]
    simp
  have hleaves : (Tree.block ts).leaves = (Tree.inOrder 0 body'.items).map fun i =>
      Tree.ofWork i.work := by
    rw [Tree.leaves, hnested.leaves]
  exact ⟨Tree.block ts, Tree.inOrder 0 body'.items, htree, rfl, hleaves,
    Tree.enclosing?_eq_find? hleaves hself, hself, hshared⟩

/-! ### an unrolled loop, and what follows it -/

/-- The body of `sweepProgram` with the loop over `i mod 2` moved inside of that over `j`. -/
def sweptBody : Body where
  schedule := { sweepSchedule with
    levels := [.tileLoop, .inner, .pointLoop]
    statements := sweepSchedule.statements.map (rearrangeDims [0, 2, 1])
    stage := .unrollInterchanged }
  items := sweepBody.items
  unrolled := [false, false, true]

def sweptTree : Tree :=
  .block [.loop ⟨0, .tileLoop, false⟩ (.block [
    .loop ⟨1, .inner, false⟩ (.block [.loop ⟨2, .pointLoop, true⟩ (.block [.user 0 "S"])]),
    .sync,
    .copy "shared_A" .copyOut .shared [0],
    .sync])]

/-- The statement is in all three loops, and what is copied afterwards in the outer one. -/
theorem sweep_leaves_in_time_order :
    (sweepProgram.validate = .ok () ∧
        KernelSchedule.build sweepProgram ⟨[0], 0, 1, [false]⟩ sweepOptions = .ok sweepSchedule ∧
        build sweepScope [sweepGroup] = .ok sweepBody ∧
        (sweepBody.interchange [1] : Outcome MapError Body) = .ok sweptBody) ∧
      Tree.ofBody sweptBody = .ok sweptTree ∧ ∃ order : List Item,
        order = sweptBody.items.mergeSort (fun i j => decide (i.remaining 0 ≤ j.remaining 0)) ∧
        sweptTree.leaves = order.map (fun i => Tree.ofWork i.work) ∧
        (∀ x, order[0]? = some x →
          sweptBody.around x = [⟨0, .tileLoop, false⟩, ⟨1, .inner, false⟩, ⟨2, .pointLoop, true⟩]) ∧
        ∀ x y, order[0]? = some x → order[2]? = some y →
          ((sweptBody.around x).filter fun node =>
            decide (x.time.take (2 * node.level + 2) = y.time.take (2 * node.level + 2))) =
            [⟨0, .tileLoop, false⟩] := by
  obtain ⟨hk, hall, hunroll, hbudget, hbody⟩ := sweep_stages
  have hp : sweepProgram.validate = .ok () := by decide +kernel
  have hmoved : (sweepBody.interchange [1] : Outcome MapError Body) = .ok sweptBody := by
    decide +kernel
  have htree : Tree.ofBody sweptBody = .ok sweptTree := rfl
  obtain ⟨tree, order, htree', horder, hleaves, -, hself, hshared⟩ :=
    leaves_in_time_order hp (List.mem_singleton_self _) hk rfl hall hunroll hbudget hbody hmoved
  obtain rfl : sweptTree = tree := Except.ok.inj (htree.symm.trans htree')
  exact ⟨⟨hp, hk, hbody, hmoved⟩, htree, order, horder, hleaves, fun x hx => (hself 0 x hx).symm,
    fun x y hx hy => (hshared 0 2 x y hx hy).symm⟩

end Body

end KernelMap
