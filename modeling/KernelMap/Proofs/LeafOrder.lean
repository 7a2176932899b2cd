import KernelMap.Tree.Build
import KernelMap.Proofs.Outcome
import KernelMap.Proofs.Sorting
import Mathlib.Data.Int.ConditionallyCompleteOrder
import Mathlib.Data.List.Lex
import Mathlib.Order.ConditionallyCompleteLattice.Basic
import Mathlib.Order.WithBot

/-!
# KernelMap.Proofs.LeafOrder

The leaves of a loop tree are in the order of their times.

Times are compared entry by entry: slots and constants by their values, and what varies after all
constants.  `Tree.ofBody` sorts items by the remaining entries of their times at each node, so that
its leaves are the items of the body in lexicographic order, and around two of them are the nodes of
the coordinates up to which they agree (`Tree.nested_of_nodes`).  The loop of a coordinate has the
items that agree with one of them up to that coordinate (`Tree.exists_loop_of_ofBody`).
-/

namespace KernelMap

/-! ## comparing times -/

/-- How entry `pos` of a time is compared: slots at even positions and constants at odd ones by
their values, everything else last. -/
def Moment.rank (pos : Nat) : Moment → WithTop Int
  | .slot n => if pos % 2 = 0 then n else ⊤
  | .const v => if pos % 2 = 0 then ⊤ else v
  | .dim _ => ⊤

/-- At an even position, only a slot has a number for its rank. -/
theorem Moment.rank_eq_slot {pos : Nat} (heven : pos % 2 = 0) {m : Moment} {s : Int} :
    m.rank pos = s ↔ m = .slot s := by
  cases m <;> simp [Moment.rank, heven]

/-- At an odd position, only a constant has a number for its rank. -/
theorem Moment.rank_eq_const {pos : Nat} (hodd : pos % 2 = 1) {m : Moment} {v : Int} :
    m.rank pos = v ↔ m = .const v := by
  cases m <;> simp [Moment.rank, hodd]

/-- The entries from position `pos` on, as they are compared. -/
def ranks : Nat → List Moment → List (WithTop Int)
  | _, [] => []
  | pos, m :: ms => m.rank pos :: ranks (pos + 1) ms

namespace Item

/-- How entry `pos` of the time of an item is compared, if there is one. -/
def rank? (i : Item) (pos : Nat) : Option (WithTop Int) := i.time[pos]?.map (Moment.rank pos)

/-- What is left of the time of an item at position `pos`, as it is compared. -/
def remaining (i : Item) (pos : Nat) : List (WithTop Int) := ranks pos (i.time.drop pos)

variable {i j : Item} {pos : Nat} {r : WithTop Int}

@[simp] theorem rank?_eq_none : i.rank? pos = none ↔ i.time.length ≤ pos := by
  simp [rank?]

/-- Nothing is left of a time that has ended. -/
theorem remaining_of_rank?_eq_none (h : i.rank? pos = none) : i.remaining pos = [] := by
  rw [remaining, List.drop_of_length_le (rank?_eq_none.mp h), ranks]

/-- A time that has ended comes before all others. -/
theorem remaining_le_of_rank?_eq_none (h : i.rank? pos = none) :
    i.remaining pos ≤ j.remaining pos := by
  rw [remaining_of_rank?_eq_none h]
  exact not_lt.mp (List.not_lt_nil _)

/-- What is left of a time starts with the rank of its next entry. -/
theorem remaining_of_rank?_eq_some (h : i.rank? pos = some r) :
    i.remaining pos = r :: i.remaining (pos + 1) := by
  obtain ⟨m, hm, rfl⟩ := Option.map_eq_some_iff.mp h
  obtain ⟨hlt, rfl⟩ := List.getElem?_eq_some_iff.mp hm
  rw [remaining, List.drop_eq_getElem_cons hlt, ranks, remaining]

/-- An entry decides, if no entry before it stands against it. -/
theorem remaining_lt_of_rank?_lt {stop : Nat} {r' : WithTop Int} (hpos : pos ≤ stop)
    (hle : ∀ q, pos ≤ q → q < stop → ∃ a a', i.rank? q = some a ∧ j.rank? q = some a' ∧ a ≤ a')
    (hi : i.rank? stop = some r) (hj : j.rank? stop = some r') (hlt : r < r') :
    i.remaining pos < j.remaining pos := by
  induction hn : stop - pos generalizing pos with
  | zero =>
      obtain rfl : pos = stop := by omega
      rw [remaining_of_rank?_eq_some hi, remaining_of_rank?_eq_some hj]
      exact List.cons_lt_cons_iff.mpr (Or.inl hlt)
  | succ n ih =>
      obtain ⟨a, a', ha, ha', hrank⟩ := hle pos le_rfl (by omega)
      have hrest : i.remaining (pos + 1) < j.remaining (pos + 1) :=
        ih (by omega) (fun q hq => hle q (by omega)) (by omega)
      rw [remaining_of_rank?_eq_some ha, remaining_of_rank?_eq_some ha', List.cons_lt_cons_iff]
      exact hrank.lt_or_eq.imp_right fun heq => ⟨heq, hrest⟩

end Item

/-! ## nodes of coordinates -/

namespace Body

/-- The loop or id of coordinate `j`. -/
def node (b : Body) (j : Nat) : NodeInfo :=
  ⟨j, b.schedule.levels.getD j .inner, b.unrolled.getD j false⟩

/-- The nodes of coordinate `j`; a coordinate of the host has none. -/
def nodesAt (b : Body) (j : Nat) : List NodeInfo :=
  if b.schedule.levels.getD j .inner = .host then [] else [b.node j]

/-- The nodes of the coordinates up to which two times agree, as they are compared from position
`pos` on. -/
def meet (b : Body) : Nat → List (WithTop Int) → List (WithTop Int) → List NodeInfo
  | pos, r :: rs, r' :: rs' =>
    if r = r' then (if r = ⊤ then b.nodesAt (pos / 2) else []) ++ b.meet (pos + 1) rs rs' else []
  | _, _, _ => []

variable {b : Body} {pos : Nat}

@[simp] theorem meet_nil_left (rs : List (WithTop Int)) : b.meet pos [] rs = [] := by
  rw [meet]; simp

@[simp] theorem meet_nil_right (rs : List (WithTop Int)) : b.meet pos rs [] = [] := by
  rw [meet]; simp

variable {i i' : Item}

/-- Where two times have the same number, nothing surrounds them but what follows. -/
theorem meet_of_rank?_eq_coe {v : Int} (hi : i.rank? pos = some (v : WithTop Int))
    (hi' : i'.rank? pos = some (v : WithTop Int)) :
    b.meet pos (i.remaining pos) (i'.remaining pos) =
      b.meet (pos + 1) (i.remaining (pos + 1)) (i'.remaining (pos + 1)) := by
  rw [Item.remaining_of_rank?_eq_some hi, Item.remaining_of_rank?_eq_some hi', meet, if_pos rfl,
    if_neg WithTop.coe_ne_top, List.nil_append]

/-- Where both times vary, the nodes of the coordinate surround them. -/
theorem meet_of_rank?_eq_top (hi : i.rank? pos = some ⊤) (hi' : i'.rank? pos = some ⊤) :
    b.meet pos (i.remaining pos) (i'.remaining pos) =
      b.nodesAt (pos / 2) ++ b.meet (pos + 1) (i.remaining (pos + 1)) (i'.remaining (pos + 1)) := by
  rw [Item.remaining_of_rank?_eq_some hi, Item.remaining_of_rank?_eq_some hi', meet,
    if_pos rfl, if_pos rfl]

/-- Where two times differ, nothing surrounds them both. -/
theorem meet_of_rank?_ne (h : i.rank? pos ≠ i'.rank? pos) :
    b.meet pos (i.remaining pos) (i'.remaining pos) = [] := by
  cases hi : i.rank? pos with
  | none => rw [Item.remaining_of_rank?_eq_none hi, meet_nil_left]
  | some r =>
      cases hi' : i'.rank? pos with
      | none => rw [Item.remaining_of_rank?_eq_none hi', meet_nil_right]
      | some r' =>
          have hne : r ≠ r' := fun heq => h (by rw [hi, hi', heq])
          rw [Item.remaining_of_rank?_eq_some hi, Item.remaining_of_rank?_eq_some hi',
            meet, if_neg hne]

end Body

namespace Tree

variable {b : Body} {pos : Nat} {items items' : List Item} {ts ts' : List Tree}

/-! ## items in order -/

/-- The items in the order of what is left of their times at a position; those that agree keep their
order. -/
def inOrder (pos : Nat) (items : List Item) : List Item := Sorted.arrange (·.remaining pos) items

/-- The items whose entry at a position has a rank; none, if the time has ended. -/
def ranked (pos : Nat) (items : List Item) (r : Option (WithTop Int)) : List Item :=
  items.filter fun i => decide (i.rank? pos = r)

@[simp] theorem mem_ranked {r : Option (WithTop Int)} {i : Item} :
    i ∈ ranked pos items r ↔ i ∈ items ∧ i.rank? pos = r := by
  simp [ranked]

@[simp] theorem inOrder_nil : inOrder pos [] = [] := by
  simp [inOrder, Sorted.arrange]

/-- Putting the items of one rank in order keeps them. -/
theorem mem_inOrder_ranked {q : Nat} {r : Option (WithTop Int)} {i : Item} :
    i ∈ inOrder q (ranked pos items r) ↔ i ∈ items ∧ i.rank? pos = r := by
  rw [inOrder, (Sorted.perm_arrange _ _).mem_iff, mem_ranked]

/-- Items whose times have ended stay as they are. -/
theorem inOrder_of_ended (h : ∀ i ∈ items, i.rank? pos = none) : inOrder pos items = items := by
  refine Sorted.eq_arrange (List.pairwise_of_forall_mem_list fun i hi j hj => ?_) fun _ => rfl
  exact Item.remaining_le_of_rank?_eq_none (h i hi)

/-- One entry of equal rank in front of the others changes nothing. -/
theorem inOrder_ranked (r : WithTop Int) :
    inOrder pos (ranked pos items (some r)) = inOrder (pos + 1) (ranked pos items (some r)) :=
  Sorted.arrange_eq_of_strictMono
    (fun _ _ hlt => List.cons_lt_cons_iff.mpr (Or.inr ⟨rfl, hlt⟩))
    fun _ hi => Item.remaining_of_rank?_eq_some (mem_ranked.mp hi).2

/-- Items that have not ended are sorted by the rank of their next entry first. -/
theorem inOrder_eq_flatMap {rs : List (WithTop Int)} (hrs : rs.Pairwise (· < ·))
    (hrank : ∀ i ∈ items, ∃ r ∈ rs, i.rank? pos = some r) :
    inOrder pos items = rs.flatMap fun r => inOrder (pos + 1) (ranked pos items (some r)) := by
  induction rs generalizing items with
  | nil =>
      have hnil : items = [] := List.eq_nil_iff_forall_not_mem.mpr fun i hi => by
        simpa using hrank i hi
      rw [hnil, inOrder_nil, List.flatMap_nil]
  | cons r rs ih =>
      obtain ⟨hr, hrs⟩ := List.pairwise_cons.mp hrs
      have hothers : ∀ i ∈ items.filter fun i => !decide (i.rank? pos = some r), ∃ r' ∈ rs,
          i.rank? pos = some r' := by
        intro i hi
        obtain ⟨hi, hne⟩ := List.mem_filter.mp hi
        obtain ⟨r', hr', heq⟩ := hrank i hi
        rcases List.mem_cons.mp hr' with rfl | hr'
        · simp [heq] at hne
        · exact ⟨r', hr', heq⟩
      have hsame : ∀ r' ∈ rs,
          ranked pos (items.filter fun i => !decide (i.rank? pos = some r))
          (some r') = ranked pos items (some r') := by
        intro r' hr'
        rw [ranked, ranked, List.filter_filter]
        refine List.filter_congr fun i _ => ?_
        have hne := (hr r' hr').ne'
        by_cases hi : i.rank? pos = some r' <;> simp [hi, hne]
      rw [List.flatMap_cons, ← inOrder_ranked, inOrder, Sorted.arrange_eq_append fun i =>
        decide (i.rank? pos = some r)]
      · refine congrArg₂ (· ++ ·) rfl ((ih hrs hothers).trans (List.flatMap_congr fun r' hr' => ?_))
        rw [hsame r' hr']
      · intro i hi j hj hri hrj
        obtain ⟨r', hr', hj⟩ := hothers j (List.mem_filter.mpr ⟨hj, by simpa using hrj⟩)
        exact Item.remaining_lt_of_rank?_lt le_rfl (fun q hq hq' => absurd hq' (by omega))
          (by simpa using hri) hj (hr r' hr')

/-- Items whose times have ended come first, then those with a value by its size, and then those
that vary. -/
theorem inOrder_eq_append {vs : List Int} (hvs : vs.Pairwise (· < ·))
    (hrank : ∀ i ∈ items, ∀ r, i.rank? pos = some r → r = ⊤ ∨ ∃ v ∈ vs, r = (v : Int)) :
    inOrder pos items =
      ranked pos items none ++
      (vs.flatMap fun v : Int => inOrder (pos + 1) (ranked pos items (some v))) ++
        inOrder (pos + 1) (ranked pos items (some ⊤)) := by
  have hascending : (vs.map (fun v : Int => (v : WithTop Int)) ++ [⊤]).Pairwise (· < ·) := by
    refine List.pairwise_append.mpr ⟨?_, List.pairwise_singleton _ _, fun r hr r' hr' => ?_⟩
    · exact List.pairwise_map.mpr (hvs.imp fun hlt => WithTop.coe_lt_coe.mpr hlt)
    · obtain ⟨v, -, rfl⟩ := List.mem_map.mp hr
      rw [List.mem_singleton.mp hr']
      exact WithTop.coe_lt_top v
  have hothers : ∀ i ∈ items.filter fun i => !decide (i.rank? pos = none),
      ∃ r ∈ vs.map (fun v : Int => (v : WithTop Int)) ++ [⊤], i.rank? pos = some r := by
    intro i hi
    obtain ⟨hi, hne⟩ := List.mem_filter.mp hi
    have hsome : i.rank? pos ≠ none := by simpa using hne
    obtain ⟨r, hr⟩ := Option.ne_none_iff_exists'.mp hsome
    refine ⟨r, ?_, hr⟩
    obtain rfl | ⟨v, hv, rfl⟩ := hrank i hi r hr
    · simp
    · simp [hv]
  have hsame : ∀ r, ranked pos (items.filter fun i => !decide (i.rank? pos = none)) (some r) =
      ranked pos items (some r) := by
    intro r
    rw [ranked, ranked, List.filter_filter]
    refine List.filter_congr fun i _ => ?_
    by_cases hi : i.rank? pos = some r <;> simp [hi]
  rw [inOrder, Sorted.arrange_eq_append fun i => decide (i.rank? pos = none)]
  · have hended := inOrder_of_ended fun i (hi : i ∈ ranked pos items none) => (mem_ranked.mp hi).2
    have hrest := inOrder_eq_flatMap hascending hothers
    rw [List.flatMap_append, List.flatMap_map, List.flatMap_singleton] at hrest
    simp only [hsame] at hrest
    rw [List.append_assoc, ← hrest]
    exact congrArg (· ++ _) hended
  · intro i hi j hj hri hrj
    have hsome : j.rank? pos ≠ none := by simpa using hrj
    obtain ⟨r, hr⟩ := Option.ne_none_iff_exists'.mp hsome
    rw [Item.remaining_of_rank?_eq_none (by simpa using hri), Item.remaining_of_rank?_eq_some hr]
    exact List.nil_lt_cons _ _

/-! ## leaves -/

@[simp] theorem leavesOf_append : leavesOf (ts ++ ts') = leavesOf ts ++ leavesOf ts' := by
  induction ts with
  | nil => simp [leavesOf]
  | cons t ts ih => simp [leavesOf, ih]

@[simp] theorem leaves_ofWork (w : Work) : leaves (ofWork w) = [ofWork w] := by
  cases w <;> simp [ofWork, leaves]

/-- The leaves of single works are the works themselves. -/
theorem leavesOf_ofWork (items : List Item) :
    leavesOf (items.map fun i => ofWork i.work) = items.map fun i => ofWork i.work := by
  induction items with
  | nil => simp [leavesOf]
  | cons i items ih => simp [leavesOf, ih]

@[simp] theorem leavesOf_wrap (j : Nat) : leavesOf (wrap b j ts) = leavesOf ts := by
  unfold wrap
  dsimp only
  split <;> simp [leavesOf, leaves]

mutual
/-- The loops and ids around both of two leaves, given by their numbers, from outside in. -/
def shared : Tree → Nat → Nat → List NodeInfo
  | block children, a, a' => sharedOf children a a'
  | loop info body, a, a' => info :: shared body a a'
  | mapped info _ body, a, a' => info :: shared body a a'
  | _, _, _ => []

/-- The loops and ids of trees around both of two leaves. -/
def sharedOf : List Tree → Nat → Nat → List NodeInfo
  | [], _, _ => []
  | t :: ts, a, a' =>
    if a < t.leaves.length ∧ a' < t.leaves.length then shared t a a'
    else if t.leaves.length ≤ a ∧ t.leaves.length ≤ a' then
      sharedOf ts (a - t.leaves.length) (a' - t.leaves.length)
    else []
end

/-- Two leaves on the same side of an appended list share what they share there, and leaves on
different sides share nothing. -/
theorem sharedOf_append (ts ts' : List Tree) (a a' : Nat) :
    sharedOf (ts ++ ts') a a' =
      if a < (leavesOf ts).length ∧ a' < (leavesOf ts).length then sharedOf ts a a'
      else if (leavesOf ts).length ≤ a ∧ (leavesOf ts).length ≤ a' then
        sharedOf ts' (a - (leavesOf ts).length) (a' - (leavesOf ts).length)
      else [] := by
  induction ts generalizing a a' with
  | nil => simp [leavesOf]
  | cons t ts ih =>
      rw [List.cons_append, sharedOf, sharedOf, ih, leavesOf, List.length_append]
      grind

@[simp] theorem shared_ofWork (w : Work) (a a' : Nat) : shared (ofWork w) a a' = [] := by
  cases w <;> simp [ofWork, shared]

/-- Nothing is around two works that stand next to each other. -/
theorem sharedOf_ofWork (items : List Item) (a a' : Nat) :
    sharedOf (items.map fun i => ofWork i.work) a a' = [] := by
  induction items generalizing a a' with
  | nil => rw [List.map_nil, sharedOf]
  | cons i items ih => simp [sharedOf, ih]

/-- Wrapping puts the nodes of the coordinate around all leaves. -/
theorem sharedOf_wrap (j : Nat) {a a' : Nat} (ha : a < (leavesOf ts).length)
    (ha' : a' < (leavesOf ts).length) :
    sharedOf (wrap b j ts) a a' = b.nodesAt j ++ sharedOf ts a a' := by
  unfold wrap Body.nodesAt Body.node
  cases b.schedule.levels.getD j .inner <;> simp [sharedOf, shared, leaves, ha, ha']

/-! ## nesting -/

/-- The leaves of the trees are the items, and around two of them are the nodes of the coordinates
up to which they agree. -/
structure Nested (b : Body) (pos : Nat) (items : List Item) (ts : List Tree) : Prop where
  leaves : leavesOf ts = items.map fun i => ofWork i.work
  shared : ∀ a a' i i', items[a]? = some i → items[a']? = some i' →
    sharedOf ts a a' = b.meet pos (i.remaining pos) (i'.remaining pos)

namespace Nested

theorem nil : Nested b pos [] [] := ⟨rfl, by simp⟩

/-- Items whose times have ended are in no loop. -/
theorem ended (h : ∀ i ∈ items, i.rank? pos = none) :
    Nested b pos items (items.map fun i => ofWork i.work) where
  leaves := leavesOf_ofWork items
  shared := by
    intro a a' i i' hi hi'
    rw [sharedOf_ofWork, Item.remaining_of_rank?_eq_none (h i (List.mem_of_getElem? hi)),
      Body.meet_nil_left]

/-- Nested trees can be put one after the other if their items differ in rank. -/
theorem append (h : Nested b pos items ts) (h' : Nested b pos items' ts')
    (hne : ∀ i ∈ items, ∀ j ∈ items', i.rank? pos ≠ j.rank? pos) :
    Nested b pos (items ++ items') (ts ++ ts') where
  leaves := by simp [h.leaves, h'.leaves]
  shared := by
    intro a a' i i' hi hi'
    have hlen : (leavesOf ts).length = items.length := by simp [h.leaves]
    rw [sharedOf_append, hlen]
    rw [List.getElem?_append] at hi hi'
    by_cases ha : a < items.length <;> by_cases ha' : a' < items.length
    · rw [if_pos ⟨ha, ha'⟩]
      rw [if_pos ha] at hi
      rw [if_pos ha'] at hi'
      exact h.shared a a' i i' hi hi'
    · rw [if_neg (by omega), if_neg (by omega)]
      rw [if_pos ha] at hi
      rw [if_neg ha'] at hi'
      exact (Body.meet_of_rank?_ne
        (hne i (List.mem_of_getElem? hi) i' (List.mem_of_getElem? hi'))).symm
    · rw [if_neg (by omega), if_neg (by omega)]
      rw [if_neg ha] at hi
      rw [if_pos ha'] at hi'
      exact (Body.meet_of_rank?_ne
        (hne i' (List.mem_of_getElem? hi') i (List.mem_of_getElem? hi)).symm).symm
    · rw [if_neg (by omega), if_pos (by omega)]
      rw [if_neg ha] at hi
      rw [if_neg ha'] at hi'
      exact h'.shared _ _ i i' hi hi'

/-- An equal value in front of the others adds no node. -/
theorem fixed {v : Int} (h : Nested b (pos + 1) items ts)
    (hrank : ∀ i ∈ items, i.rank? pos = some v) : Nested b pos items ts where
  leaves := h.leaves
  shared := by
    intro a a' i i' hi hi'
    rw [h.shared a a' i i' hi hi', Body.meet_of_rank?_eq_coe (hrank i (List.mem_of_getElem? hi))
      (hrank i' (List.mem_of_getElem? hi'))]

/-- A coordinate in front of the others adds its node. -/
theorem wrap (h : Nested b (pos + 1) items ts) (hrank : ∀ i ∈ items, i.rank? pos = some ⊤) :
    Nested b pos items (Tree.wrap b (pos / 2) ts) where
  leaves := by rw [leavesOf_wrap, h.leaves]
  shared := by
    intro a a' i i' hi hi'
    have hlen : (leavesOf ts).length = items.length := by simp [h.leaves]
    have ha := (List.getElem?_eq_some_iff.mp hi).1
    have ha' := (List.getElem?_eq_some_iff.mp hi').1
    rw [sharedOf_wrap _ (hlen ▸ ha) (hlen ▸ ha'), h.shared a a' i i' hi hi',
      Body.meet_of_rank?_eq_top (hrank i (List.mem_of_getElem? hi))
      (hrank i' (List.mem_of_getElem? hi'))]

end Nested

/-! ## nodes -/

/-- Items with an entry that only its value decides are those of its rank. -/
theorem itemsAt_eq {m : Moment} {v : Int} (hm : ∀ {m' : Moment}, m'.rank pos = v ↔ m' = m) :
    itemsAt pos m (items.filter fun i => decide (pos < i.time.length)) =
      ranked pos items (some v) := by
  rw [itemsAt, ranked, List.filter_filter]
  refine List.filter_congr fun i _ => ?_
  rw [Bool.eq_iff_iff]
  by_cases hlt : pos < i.time.length <;> simp [Item.rank?, hlt, hm]

/-- Of the items whose time goes on, those that vary at a position are those of the last rank. -/
theorem itemsVarying_eq (hodd : pos % 2 = 1) :
    itemsVarying pos (items.filter fun i => decide (pos < i.time.length)) =
      ranked pos items (some ⊤) := by
  rw [itemsVarying, ranked, List.filter_filter]
  refine List.filter_congr fun i _ => ?_
  by_cases hlt : pos < i.time.length
  · cases hm : i.time[pos] <;> simp [constAt?, Item.rank?, hlt, hm, Moment.rank, hodd]
  · simp [constAt?, Item.rank?, hlt]

/-- The slots at a position are those of all items that reach it. -/
theorem slotsAt_eq_ok {slots : List Int} (h : slotsAt pos items = .ok slots) :
    ∀ i ∈ items, ∀ m, i.time[pos]? = some m → ∃ s ∈ slots, m = .slot s := by
  induction items generalizing slots with
  | nil => simp
  | cons i items ih =>
      unfold slotsAt at h
      split at h
      · next s hs =>
        simp only [Outcome.bind_eq_ok, Outcome.pure_eq_ok] at h
        obtain ⟨rest, hrest, rfl⟩ := h
        refine List.forall_mem_cons.mpr ⟨fun m hm => ⟨s, by simp, ?_⟩, fun i' hi' m hm => ?_⟩
        · rw [hs] at hm
          exact (Option.some.inj hm).symm
        · obtain ⟨s', hs', rfl⟩ := ih hrest i' hi' m hm
          exact ⟨s', by simp [hs'], rfl⟩
      · simp at h
      · next hnone => exact List.forall_mem_cons.mpr ⟨fun m hm => by simp [hnone] at hm, ih h⟩

/-- What one position does: items whose time has ended come first, then those with a slot or
constant by its value, and then the others in a loop. -/
theorem nodes_succ_eq_ok {n : Nat} (h : nodes b (n + 1) pos items = .ok ts) :
    ∃ (vs : List Int) (fixed last : List Tree),
      ts = (ranked pos items none).map (fun i => ofWork i.work) ++ fixed ++ last ∧
      vs.Pairwise (· < ·) ∧
      concat (nodes b n (pos + 1)) (vs.map fun v : Int => ranked pos items (some v)) = .ok fixed ∧
      (∀ i ∈ items, ∀ r, i.rank? pos = some r → r = ⊤ ∨ ∃ v ∈ vs, r = (v : Int)) ∧
      (ranked pos items (some ⊤) = [] ∧ last = [] ∨
        ∃ inner, nodes b n (pos + 1) (ranked pos items (some ⊤)) = .ok inner ∧
        last = wrap b (pos / 2) inner) := by
  have hended : (items.filter fun i => decide (i.time.length ≤ pos)) = ranked pos items none :=
    List.filter_congr fun i _ => by rw [Bool.eq_iff_iff]; simp
  simp only [nodes, hended] at h
  split at h
  · next hempty =>
    have hlen : ∀ i ∈ items, i.rank? pos = none := by
      simpa [List.filter_eq_nil_iff] using hempty
    refine ⟨[], [],
      [], by simp [← Outcome.pure_eq_ok.mp h], .nil, rfl, fun i hi r hr => ?_, Or.inl ⟨?_, rfl⟩⟩
    · simp [hlen i hi] at hr
    · exact List.filter_eq_nil_iff.mpr fun i hi => by simp [hlen i hi]
  split at h
  · next heven =>
    simp only [Outcome.bind_eq_ok, Outcome.pure_eq_ok, itemsAt_eq (Moment.rank_eq_slot heven)] at h
    obtain ⟨slots, hslots, fixed, hfixed, rfl⟩ := h
    have hslot : ∀ i ∈ items, ∀ r, i.rank? pos = some r → ∃ s ∈ Sorted.distinct slots,
        r = (s : Int) := by
      intro i hi r hr
      obtain ⟨m, hm, rfl⟩ := Option.map_eq_some_iff.mp hr
      have hlt := (List.getElem?_eq_some_iff.mp hm).1
      obtain ⟨s, hs, rfl⟩ :=
        slotsAt_eq_ok hslots i (List.mem_filter.mpr ⟨hi, by simpa using hlt⟩) m hm
      exact ⟨s, Sorted.mem_distinct.mpr hs, by simp [Moment.rank, heven]⟩
    refine ⟨Sorted.distinct slots, fixed, [], by simp, Sorted.pairwise_distinct _, hfixed,
      fun i hi r hr => Or.inr (hslot i hi r hr),
      Or.inl ⟨List.filter_eq_nil_iff.mpr fun i hi hr => ?_, rfl⟩⟩
    obtain ⟨s, -, hs⟩ := hslot i hi ⊤ (by simpa using hr)
    simp at hs
  · next hodd =>
    replace hodd : pos % 2 = 1 := by omega
    simp only [Outcome.bind_eq_ok, itemsAt_eq (Moment.rank_eq_const hodd),
      itemsVarying_eq hodd] at h
    obtain ⟨fixed, hfixed, h⟩ := h
    have hconst : ∀ i ∈ items, ∀ r, i.rank? pos = some r → r = ⊤ ∨ ∃ v ∈ Sorted.distinct
        ((items.filter fun i => decide (pos < i.time.length)).filterMap (constAt? pos)),
          r = (v : Int) := by
      intro i hi r hr
      obtain ⟨m, hm, rfl⟩ := Option.map_eq_some_iff.mp hr
      have hlt := (List.getElem?_eq_some_iff.mp hm).1
      cases m with
      | slot s => simp [Moment.rank, hodd]
      | dim j => simp [Moment.rank]
      | const v =>
          refine Or.inr ⟨v, ?_, by simp [Moment.rank, hodd]⟩
          rw [Sorted.mem_distinct, List.mem_filterMap]
          exact ⟨i, List.mem_filter.mpr ⟨hi, by simpa using hlt⟩, by simp [constAt?, hm]⟩
    split at h
    · next hempty =>
      exact ⟨_, fixed,
        [], by simp [← Outcome.pure_eq_ok.mp
          h], Sorted.pairwise_distinct _, hfixed, hconst, Or.inl ⟨List.isEmpty_iff.mp hempty, rfl⟩⟩
    · simp only [Outcome.bind_eq_ok, Outcome.pure_eq_ok] at h
      obtain ⟨inner, hinner, rfl⟩ := h
      exact ⟨_, fixed, _, rfl, Sorted.pairwise_distinct _, hfixed, hconst,
        Or.inr ⟨inner, hinner, rfl⟩⟩

/-- The trees of each list of items are a stretch of the result. -/
theorem concat_eq_ok {f : List Item → Outcome EngineError (List Tree)} {lists : List (List Item)}
    (h : concat f lists = .ok ts) :
    ∀ is ∈ lists, ∃ part, f is = .ok part ∧ ∃ before after, ts = before ++ part ++ after := by
  induction lists generalizing ts with
  | nil => simp
  | cons first lists ih =>
      simp only [concat, Outcome.bind_eq_ok, Outcome.pure_eq_ok] at h
      obtain ⟨part, hpart, rest, hrest, rfl⟩ := h
      refine List.forall_mem_cons.mpr ⟨⟨part, hpart, [], rest, by simp⟩, fun is his => ?_⟩
      obtain ⟨part', hpart', before, after, rfl⟩ := ih hrest is his
      exact ⟨part', hpart', part ++ before, after, by simp⟩

/-- Parts of ascending rank, one after the other. -/
theorem Nested.concat {f : List Item → Outcome EngineError (List Tree)} {vs : List Int}
    (hvs : vs.Pairwise (· < ·)) (hf : ∀ v ∈ vs, ∀ part, f (ranked pos items (some v)) = .ok part →
      Nested b (pos + 1) (inOrder (pos + 1) (ranked pos items (some v))) part)
    (h : Tree.concat f (vs.map fun v : Int => ranked pos items (some v)) = .ok ts) :
    Nested b pos (vs.flatMap fun v : Int => inOrder (pos + 1) (ranked pos items (some v))) ts := by
  induction vs generalizing ts with
  | nil =>
      obtain rfl : [] = ts := by simpa [Tree.concat] using h
      exact .nil
  | cons v vs ih =>
      simp only [List.map_cons, Tree.concat, Outcome.bind_eq_ok, Outcome.pure_eq_ok] at h
      obtain ⟨part, hpart, rest, hrest, rfl⟩ := h
      obtain ⟨hv, hvs⟩ := List.pairwise_cons.mp hvs
      have hfirst : Nested b pos (inOrder (pos + 1) (ranked pos items (some v))) part :=
        (hf v (by simp) part hpart).fixed fun i hi => by simpa using (mem_inOrder_ranked.mp hi).2
      refine hfirst.append (ih hvs (fun w hw => hf w (by simp [hw])) hrest) fun i hi j hj => ?_
      obtain ⟨w, hw, hj⟩ := List.mem_flatMap.mp hj
      rw [(mem_inOrder_ranked.mp hi).2, (mem_inOrder_ranked.mp hj).2]
      simpa using (hv w hw).ne

/-- The leaves of the nodes are the items in order, and around two of them are the nodes of the
coordinates up to which they agree. -/
theorem nested_of_nodes {n : Nat} (hlen : ∀ i ∈ items, i.time.length ≤ pos + n)
    (h : nodes b n pos items = .ok ts) : Nested b pos (inOrder pos items) ts := by
  induction n generalizing pos items ts with
  | zero =>
      obtain rfl : items.map (fun i => ofWork i.work) = ts := by simpa [nodes] using h
      have hended : ∀ i ∈ items, i.rank? pos = none :=
        fun i hi => Item.rank?_eq_none.mpr (hlen i hi)
      rw [inOrder_of_ended hended]
      exact .ended hended
  | succ n ih =>
      obtain ⟨vs, fixed, last, rfl, hvs, hfixed, hrank, hlast⟩ := nodes_succ_eq_ok h
      have hinner : ∀ r, ∀ i ∈ ranked pos items r, i.time.length ≤ pos + 1 + n := fun r i hi => by
        have := hlen i (mem_ranked.mp hi).1
        omega
      have hended : Nested b pos (ranked pos items none)
          ((ranked pos items none).map fun i => ofWork i.work) :=
        .ended fun i hi => (mem_ranked.mp hi).2
      have hfixed : Nested b pos (vs.flatMap fun v : Int =>
          inOrder (pos + 1) (ranked pos items (some v))) fixed :=
        .concat hvs (fun v _ part hpart => ih (hinner _) hpart) hfixed
      have hlast : Nested b pos (inOrder (pos + 1) (ranked pos items (some ⊤))) last := by
        obtain ⟨hnil, rfl⟩ | ⟨inner, hnodes, rfl⟩ := hlast
        · rw [hnil, inOrder_nil]
          exact .nil
        · exact (ih (hinner _) hnodes).wrap fun i hi => (mem_inOrder_ranked.mp hi).2
      rw [inOrder_eq_append hvs hrank]
      refine (hended.append hfixed fun i hi j hj => ?_).append hlast fun i hi j hj => ?_
      · obtain ⟨v, -, hj⟩ := List.mem_flatMap.mp hj
        rw [(mem_ranked.mp hi).2, (mem_inOrder_ranked.mp hj).2]
        simp
      · rw [(mem_inOrder_ranked.mp hj).2]
        rcases List.mem_append.mp hi with hi | hi
        · rw [(mem_ranked.mp hi).2]
          simp
        · obtain ⟨v, -, hi⟩ := List.mem_flatMap.mp hi
          rw [(mem_inOrder_ranked.mp hi).2]
          simp

/-- No time is longer than the longest. -/
theorem length_le_maxLength {i : Item} (hi : i ∈ items) : i.time.length ≤ maxLength items := by
  induction items with
  | nil => simp at hi
  | cons j items ih =>
      rw [maxLength, List.foldr_cons, ← maxLength]
      rcases List.mem_cons.mp hi with rfl | hi
      · exact le_max_left _ _
      · exact (ih hi).trans (le_max_right _ _)

/-- The tree of a body has the items in order as its leaves, nested as their times say. -/
theorem nested_of_ofBody {t : Tree} (h : ofBody b = .ok t) :
    ∃ ts, t = block ts ∧ Nested b 0 (inOrder 0 b.items) ts := by
  simp only [ofBody, Outcome.bind_eq_ok, Outcome.pure_eq_ok] at h
  obtain ⟨ts, hts, rfl⟩ := h
  exact ⟨ts, rfl, nested_of_nodes (fun i hi => by simpa using length_le_maxLength hi) hts⟩

/-- The leaves of the tree of a body are its items, in the order of their times. -/
theorem arranged_of_ofBody {t : Tree} (h : ofBody b = .ok t) :
    ∃ order : List Item, order.Perm b.items ∧ t.leaves = order.map (fun i => ofWork i.work) ∧
      order.Pairwise fun i j => i.remaining 0 ≤ j.remaining 0 := by
  obtain ⟨ts, rfl, hnested⟩ := nested_of_ofBody h
  exact ⟨inOrder 0 b.items,
    Sorted.perm_arrange _ _, by rw [leaves, hnested.leaves], Sorted.pairwise_arrange _ _⟩

/-! ## loops -/

mutual
/-- The loops of a tree, each with its body. -/
def loops : Tree → List (NodeInfo × Tree)
  | block children => loopsOf children
  | loop info body => (info, body) :: loops body
  | mapped _ _ body => loops body
  | _ => []

/-- The loops of trees. -/
def loopsOf : List Tree → List (NodeInfo × Tree)
  | [] => []
  | t :: ts => loops t ++ loopsOf ts
end

@[simp] theorem loopsOf_append : loopsOf (ts ++ ts') = loopsOf ts ++ loopsOf ts' := by
  induction ts with
  | nil => simp [loopsOf]
  | cons t ts ih => simp [loopsOf, ih]

/-- Wrapping trees in a coordinate keeps their loops. -/
theorem loopsOf_subset_wrap (j : Nat) : loopsOf ts ⊆ loopsOf (wrap b j ts) := by
  intro l hl
  unfold wrap
  dsimp only
  split <;> simp [loopsOf, loops, hl]

/-- The kinds of coordinates that become loops. -/
def IsLoop (kind : Level) : Prop := kind ≠ .host ∧ kind.isMapped = false

/-- A coordinate that becomes a loop is the loop around the wrapped trees. -/
theorem mem_loopsOf_wrap (ts : List Tree) {j : Nat} (h : IsLoop (b.schedule.levels.getD j .inner)) :
    ∃ info : NodeInfo, info.level = j ∧ (info, block ts) ∈ loopsOf (wrap b j ts) := by
  obtain ⟨hhost, hmapped⟩ := h
  refine ⟨⟨j, b.schedule.levels.getD j .inner, b.unrolled.getD j false⟩, rfl, ?_⟩
  unfold wrap
  cases hkind : b.schedule.levels.getD j .inner <;> simp_all [loopsOf, loops, Level.isMapped]

/-- The items around coordinate `l` that agree with `x` up to it are in one loop, in order. -/
theorem exists_loop_of_nodes {n l : Nat} (hlen : ∀ i ∈ items, i.time.length ≤ pos + n)
    (h : nodes b n pos items = .ok ts) {x : Item} (hx : x ∈ items) (hpos : pos ≤ 2 * l + 1)
    (hvary : x.rank? (2 * l + 1) = some ⊤) (hkind : IsLoop (b.schedule.levels.getD l .inner)) :
    ∃ info body, (info, body) ∈ loopsOf ts ∧ info.level = l ∧ ∃ inner : List Item,
      body.leaves = inner.map (fun i => ofWork i.work) ∧
      inner.Pairwise (fun i j => i.remaining (2 * l + 2) ≤ j.remaining (2 * l + 2)) ∧
      ∀ y, y ∈ inner ↔ y ∈ items ∧ ∀ q, pos ≤ q → q ≤ 2 * l + 1 → y.rank? q = x.rank? q := by
  induction n generalizing pos items ts with
  | zero =>
      have hnone : x.rank? (2 * l + 1) = none :=
        Item.rank?_eq_none.mpr ((hlen x hx).trans (by omega))
      simp [hnone] at hvary
  | succ n ih =>
      obtain ⟨vs, fixed, last, rfl, hvs, hfixed, hrank, hlast⟩ := nodes_succ_eq_ok h
      have hinner : ∀ r, ∀ i ∈ ranked pos items r, i.time.length ≤ pos + 1 + n := fun r i hi => by
        have := hlen i (mem_ranked.mp hi).1
        omega
      -- The items of the rank of `x` are the next ones to look at.
      have hagree : ∀ y, (y ∈ ranked pos items (x.rank? pos) ∧
          ∀ q, pos + 1 ≤ q → q ≤ 2 * l + 1 → y.rank? q = x.rank? q) ↔
          y ∈ items ∧ ∀ q, pos ≤ q → q ≤ 2 * l + 1 → y.rank? q = x.rank? q := by
        intro y
        rw [mem_ranked, and_assoc]
        refine and_congr_right fun _ => ?_
        constructor
        · intro hy q hq hq'
          rcases hq.eq_or_lt with rfl | hq
          · exact hy.1
          · exact hy.2 q hq hq'
        · intro hy
          exact ⟨hy pos le_rfl hpos, fun q hq => hy q (by omega)⟩
      obtain ⟨r, hr⟩ : ∃ r, x.rank? pos = some r := Option.ne_none_iff_exists'.mp fun hnone => by
        have hend : x.time.length ≤ 2 * l + 1 := (Item.rank?_eq_none.mp hnone).trans hpos
        rw [Item.rank?_eq_none.mpr hend] at hvary
        cases hvary
      have hmem : x ∈ ranked pos items (some r) := mem_ranked.mpr ⟨hx, hr⟩
      simp only [hr] at hagree
      by_cases htop : r = ⊤
      · subst htop
        obtain ⟨hnil, -⟩ | ⟨inner, hnodes, rfl⟩ := hlast
        · simp [hnil] at hmem
        rcases hpos.eq_or_lt with rfl | hlt
        · obtain ⟨info, hlevel, hloop⟩ := mem_loopsOf_wrap inner hkind
          have hnested := nested_of_nodes (hinner _) hnodes
          have hdiv : (2 * l + 1) / 2 = l := by omega
          refine ⟨info, block inner, by simp [hdiv, hloop], hlevel, inOrder (2 * l + 2) _,
            by rw [leaves, hnested.leaves], Sorted.pairwise_arrange _ _, ?_⟩
          intro y
          rw [← hagree y, inOrder, (Sorted.perm_arrange _ _).mem_iff]
          exact (and_iff_left fun q hq hq' => absurd hq (by omega)).symm
        · obtain ⟨info, body, hloop, hlevel, order, hleaves, hsorted, hmem⟩ :=
            ih (hinner _) hnodes hmem hlt
          refine ⟨info, body, ?_, hlevel, order, hleaves, hsorted,
            fun y => (hmem y).trans (hagree y)⟩
          simp [loopsOf_subset_wrap _ hloop]
      · obtain ⟨v, hv, rfl⟩ := (hrank x hx r hr).resolve_left htop
        obtain ⟨part, hpart, before, after, rfl⟩ := concat_eq_ok hfixed _ (List.mem_map_of_mem hv)
        have hlt : pos < 2 * l + 1 := hpos.lt_of_ne fun heq => by
          rw [heq, hvary] at hr
          exact htop (Option.some.inj hr).symm
        obtain ⟨info, body, hloop, hlevel, order, hleaves, hsorted, hmem⟩ :=
          ih (hinner _) hpart hmem hlt
        exact ⟨info, body, by simp [hloop], hlevel, order, hleaves, hsorted, fun y => (hmem
          y).trans (hagree y)⟩

/-- The loop of coordinate `l` around an item has the items that agree with it up to there, in
order. -/
theorem exists_loop_of_ofBody {t : Tree} {l : Nat} (h : ofBody b = .ok t) {x : Item}
    (hx : x ∈ b.items) (hvary : x.rank? (2 * l + 1) = some ⊤)
    (hkind : IsLoop (b.schedule.levels.getD l .inner)) :
    ∃ info body, (info, body) ∈ t.loops ∧ info.level = l ∧ ∃ inner : List Item,
      body.leaves = inner.map (fun i => ofWork i.work) ∧
      inner.Pairwise (fun i j => i.remaining (2 * l + 2) ≤ j.remaining (2 * l + 2)) ∧
      ∀ y, y ∈ inner ↔ y ∈ b.items ∧ ∀ q ≤ 2 * l + 1, y.rank? q = x.rank? q := by
  simp only [ofBody, Outcome.bind_eq_ok, Outcome.pure_eq_ok] at h
  obtain ⟨ts, hts, rfl⟩ := h
  simpa [loops] using
    exists_loop_of_nodes (fun i hi => by simpa using length_le_maxLength hi) hts hx
    (Nat.zero_le _) hvary hkind

end Tree

end KernelMap
