import KernelMap.Proofs.Barriers
import KernelMap.Proofs.CompileCauses

/-!
# KernelMap.Proofs.Interchange

Moving loops is one permutation of the coordinates.

The loops to be unrolled go last and the others keep their order, so that every new coordinate has
an old place (`Body.places`).  Levels, statements and the times of statements are all taken from
these places (`rearrange`, `Item.Rearranged`); copies and barriers do not reach so deep.  Instances
that agree on the moved loops are in the same order before and after
(`Lexicographic.moved_lt_moved_iff`).

Main statement: `Body.interchange_permutes_coordinates`.
-/

namespace KernelMap

/-! ## entries from other places -/

/-- The entries at the given places. -/
def rearrange {α : Type} (places : List Nat) (xs : List α) : List α := places.filterMap (xs[·]?)

section Rearrange

variable {α β : Type} {places : List Nat} {xs : List α}

theorem rearrange_append (ps qs : List Nat) (xs : List α) :
    rearrange (ps ++ qs) xs = rearrange ps xs ++ rearrange qs xs :=
  List.filterMap_append

/-- A function can be applied before or after the entries are rearranged. -/
theorem map_rearrange (f : α → β) (places : List Nat) (xs : List α) :
    (rearrange places xs).map f = rearrange places (xs.map f) := by
  simp only [rearrange, List.map_filterMap, List.getElem?_map]

/-- If all places exist, there is an entry for each of them. -/
theorem rearrange_eq_map (d : α) (h : ∀ p ∈ places, p < xs.length) :
    rearrange places xs = places.map (xs.getD · d) := by
  induction places with
  | nil => rfl
  | cons p ps ih =>
      obtain ⟨hp, hps⟩ := List.forall_mem_cons.mp h
      rw [rearrange, List.filterMap_cons_some (List.getElem?_eq_getElem hp),
        List.map_cons, ← ih hps, List.getD_eq_getElem _ _ hp]
      rfl

/-- The first places give a beginning of the list. -/
theorem rearrange_range {n : Nat} (h : n ≤ xs.length) :
    rearrange (List.range n) xs = xs.take n := by
  induction n with
  | zero => rfl
  | succ n ih =>
      rw [List.range_succ, rearrange_append, ih (by omega), List.take_add_one]
      show xs.take n ++ [n].filterMap (xs[·]?) = _
      rw [List.filterMap_cons_some (List.getElem?_eq_getElem h), List.getElem?_eq_getElem h]
      rfl

theorem length_rearrange (h : ∀ p ∈ places, p < xs.length) :
    (rearrange places xs).length = places.length := by
  cases xs with
  | nil =>
      cases places with
      | nil => rfl
      | cons p ps => exact absurd (h p List.mem_cons_self) (Nat.not_lt_zero p)
  | cons x xs => rw [rearrange_eq_map x h, List.length_map]

/-- A rearranged entry is the one at its old place. -/
theorem getElem?_rearrange (h : ∀ p ∈ places, p < xs.length) {q old : Nat}
    (hq : places[q]? = some old) : (rearrange places xs)[q]? = xs[old]? := by
  have hold := h old (List.mem_of_getElem? hq)
  have x : α := xs[old]
  rw [rearrange_eq_map x h, List.getElem?_map, hq, Option.map_some, List.getD_eq_getElem _ _ hold,
    List.getElem?_eq_getElem hold]

end Rearrange

/-! ## the order of vectors -/

namespace Lexicographic

variable {js us : List Nat} {keep : Nat → Bool} {v w : Nat → Int}

/-- Vectors that agree on the entries left out are in the order of the others. -/
theorem map_filter_lt_iff (h : ∀ j ∈ js, keep j = false → v j = w j) :
    (js.filter keep).map v < (js.filter keep).map w ↔ js.map v < js.map w := by
  induction js with
  | nil => rfl
  | cons j js ih =>
      obtain ⟨hj, hjs⟩ := List.forall_mem_cons.mp h
      rw [List.map_cons, List.map_cons, List.cons_lt_cons_iff]
      cases hkeep : keep j with
      | true =>
          rw [List.filter_cons_of_pos hkeep, List.map_cons, List.map_cons,
            List.cons_lt_cons_iff, ih hjs]
      | false =>
          rw [List.filter_cons_of_neg (by simp [hkeep]), ih hjs, hj hkeep]
          simp

/-- Positions that agree anyway may be left out of a comparison for equality. -/
theorem map_filter_eq_iff (h : ∀ j ∈ js, keep j = false → v j = w j) :
    (js.filter keep).map v = (js.filter keep).map w ↔ js.map v = js.map w := by
  rw [List.map_inj_left, List.map_inj_left]
  constructor
  · intro hkept j hj
    cases hkeep : keep j with
    | true => exact hkept j (List.mem_filter.mpr ⟨hj, hkeep⟩)
    | false => exact h j hj hkeep
  · exact fun hall j hj => hall j (List.mem_of_mem_filter hj)

/-- A common end does not count for the order of lists of the same length. -/
theorem append_right_lt_iff {a b c : List Int} (hlen : a.length = b.length) :
    a ++ c < b ++ c ↔ a < b := by
  induction a generalizing b with
  | nil => simp [List.length_eq_zero_iff.mp hlen.symm]
  | cons x a ih =>
      cases b with
      | nil => simp at hlen
      | cons y b =>
          rw [List.cons_append, List.cons_append, List.cons_lt_cons_iff, List.cons_lt_cons_iff,
            ih (by simpa using hlen)]

/-- Moving entries last changes nothing for vectors that agree on them. -/
theorem moved_lt_moved_iff (h : ∀ u ∈ us, v u = w u) :
    (js.filter (!us.contains ·) ++ us).map v < (js.filter (!us.contains ·) ++ us).map w ↔
      js.map v < js.map w := by
  have hout : ∀ j ∈ js, (!us.contains j) = false → v j = w j :=
    fun j _ hj => h j (by simpa using hj)
  rw [List.map_append, List.map_append, List.map_inj_left.mpr h,
    append_right_lt_iff (by rw [List.length_map, List.length_map]), map_filter_lt_iff hout]

/-- Moving positions that agree to the end does not count for equality. -/
theorem moved_eq_moved_iff (h : ∀ u ∈ us, v u = w u) :
    (js.filter (!us.contains ·) ++ us).map v = (js.filter (!us.contains ·) ++ us).map w ↔
      js.map v = js.map w := by
  have hout : ∀ j ∈ js, (!us.contains j) = false → v j = w j :=
    fun j _ hj => h j (by simpa using hj)
  rw [List.map_append, List.map_append, List.map_inj_left.mpr h, List.append_left_inj,
    map_filter_eq_iff hout]

end Lexicographic

/-! ## the new order -/

namespace Body

section Order

variable {start depth : Nat} {unroll order : List Nat}

/-- The old places of all coordinates, in their new order: those that stay in place or move up, then
those that are moved last. -/
def places (depth : Nat) (unroll : List Nat) : List Nat :=
  (List.range depth).filter (!unroll.contains ·) ++ unroll

/-- The positions up to a start and those after it are all of them. -/
theorem range_append_positions (h : start ≤ depth) :
    List.range start ++ Access.positions start depth = List.range depth := by
  have happend := @List.range'_append_1 0 start (depth - start)
  rw [Nat.zero_add, Nat.add_sub_cancel' h] at happend
  rw [Access.positions, List.range_eq_range', List.range_eq_range', happend]

/-- Only coordinates from `start` on are moved. -/
theorem range_append_newOrder (hstart : start ≤ depth) (h : ∀ p ∈ unroll, start ≤ p ∧ p < depth) :
    List.range start ++ newOrder start depth unroll = places depth unroll := by
  have hkept : (List.range start).filter (!unroll.contains ·) = List.range start := by
    refine List.filter_eq_self.mpr fun q hq => ?_
    have hlt := List.mem_range.mp hq
    simp only [Bool.not_eq_true', List.contains_eq_mem, decide_eq_false_iff_not]
    exact fun hmem => absurd (h q hmem).1 (by omega)
  have hmoved : (unroll.filter fun p => decide (start ≤ p) && decide (p < depth)) = unroll := by
    refine List.filter_eq_self.mpr fun q hq => ?_
    simp [h q hq]
  rw [newOrder, hmoved, ← List.append_assoc]
  nth_rewrite 1 [← hkept]
  rw [← List.filter_append, range_append_positions hstart, places]

/-- The new order is one of the positions from the start on. -/
theorem mem_newOrder {q : Nat} : q ∈ newOrder start depth unroll ↔ start ≤ q ∧ q < depth := by
  simp only [newOrder, List.mem_append, List.mem_filter, Access.mem_positions, Bool.not_eq_true',
    List.contains_eq_mem, decide_eq_false_iff_not, Bool.and_eq_true, decide_eq_true_eq]
  by_cases hq : q ∈ unroll
  · simp [hq]
  · simp [hq]

theorem nodup_positions : (Access.positions start depth).Nodup := List.nodup_range'

/-- Loops that are listed once are moved by a permutation. -/
theorem perm_newOrder_of_nodup (h : unroll.Nodup) :
    (newOrder start depth unroll).Perm (Access.positions start depth) := by
  have hnodup : (newOrder start depth unroll).Nodup := by
    refine List.Nodup.append (nodup_positions.filter _) (h.filter _) fun q hq hq' => ?_
    simp [List.mem_of_mem_filter hq'] at hq
  exact (List.perm_ext_iff_of_nodup hnodup nodup_positions).mpr fun q => by
    rw [mem_newOrder, Access.mem_positions]

/-- If there is room for the loops, they are moved by a permutation. -/
theorem perm_newOrder_of_length_le (h : (newOrder start depth unroll).length ≤ depth - start) :
    (newOrder start depth unroll).Perm (Access.positions start depth) := by
  have hsub : Access.positions start depth ⊆ newOrder start depth unroll := fun q hq =>
    mem_newOrder.mpr (Access.mem_positions.mp hq)
  refine ((List.subperm_of_subset nodup_positions hsub).perm_of_length_le ?_).symm
  rwa [Access.positions, List.length_range']

variable (hperm : order.Perm (Access.positions start depth)) (hstart : start ≤ depth)

include hperm hstart

/-- The places are all coordinates, each once. -/
theorem perm_range : (List.range start ++ order).Perm (List.range depth) :=
  range_append_positions hstart ▸ hperm.append_left _

theorem lt_of_mem_places : ∀ p ∈ List.range start ++ order, p < depth := fun _ hp =>
  List.mem_range.mp ((perm_range hperm hstart).mem_iff.mp hp)

theorem length_places : (List.range start ++ order).length = depth := by
  rw [(perm_range hperm hstart).length_eq, List.length_range]

/-- A coordinate goes to the position that is taken from its place. -/
theorem newPosition_eq {q old : Nat} (h : (List.range start ++ order)[q]? = some old) :
    newPosition start order old = q := by
  have hnodup : (List.range start ++ order).Nodup :=
    (perm_range hperm hstart).nodup_iff.mpr List.nodup_range
  obtain ⟨-, hnodup', hdisjoint⟩ := List.nodup_append.mp hnodup
  by_cases hq : q < start
  · rw [List.getElem?_append_left (by rwa [List.length_range]), List.getElem?_range hq,
      Option.some.injEq] at h
    subst h
    have hnone : order.findIdx? (· == q) = none := by
      refine List.findIdx?_eq_none_iff.mpr fun p hp => ?_
      have hne := hdisjoint q (List.mem_range.mpr hq) p hp
      simpa using hne.symm
    rw [newPosition, hnone]
  · rw [List.getElem?_append_right (by rw [List.length_range]; omega), List.length_range] at h
    obtain ⟨hlt, rfl⟩ := List.getElem?_eq_some_iff.mp h
    have hsome : order.findIdx? (· == order[q - start]) = some (q - start) := by
      refine List.findIdx?_eq_some_iff_getElem.mpr ⟨hlt, by simp, fun j hj => ?_⟩
      have hne := List.pairwise_iff_getElem.mp hnodup' j (q - start) (by omega) hlt hj
      simpa using hne
    rw [newPosition, hsome]
    show start + (q - start) = q
    omega

/-- Reordering what comes after the start is taking all entries from their places. -/
theorem reorder_eq_rearrange {α : Type} {xs : List α} (hxs : xs.length = depth) :
    reorder start order xs = rearrange (List.range start ++ order) xs := by
  have hlen : start + order.length = depth := by
    rw [← length_places hperm hstart, List.length_append, List.length_range]
  rw [reorder, rearrange_append, rearrange_range (by omega), hlen,
    List.drop_of_length_le (by omega), List.append_nil]
  rfl

end Order

end Body

/-! ## times of moved items -/

/-- Slots alternate with coordinates, each of them the coordinate of its position or a constant. -/
structure Item.Timed (depth : Nat) (i : Item) : Prop where
  alternates : i.Alternates
  coord : ∀ j m, i.time[2 * j + 1]? = some m → m = .dim j ∧ j < depth ∨ ∃ v, m = .const v

/-- The moment at coordinate `q`. -/
def Moment.movedTo (q : Nat) : Moment → Moment
  | .dim _ => .dim q
  | m => m

/-- The slots stay, and each coordinate is taken from its old place. -/
structure Item.Rearranged (places : List Nat) (i i' : Item) : Prop where
  work : i'.work = i.work
  length : i'.time.length = i.time.length
  slot : ∀ q, i'.time[2 * q]? = i.time[2 * q]?
  coord : ∀ q old, places[q]? = some old →
    i'.time[2 * q + 1]? = (i.time[2 * old + 1]?).map (·.movedTo q)

namespace Body

section Times

variable {ε : Type} {start depth : Nat} {order : List Nat} {i i' : Item}

/-- Slots are moved to where they are. -/
theorem movedEntry_slot (q : Nat) :
    (movedEntry start depth order i.time (2 * q) : Outcome ε Moment) = .orFault i.time[2 * q]? := by
  have heven : ¬ (2 * q % 2 = 1 ∧ start ≤ 2 * q / 2) := by omega
  simp only [movedEntry, if_neg heven]

variable (hperm : order.Perm (Access.positions start depth)) (hstart : start ≤ depth)
  (hi : i.Timed depth)

include hperm hstart hi

/-- A coordinate is moved from its old place. -/
theorem movedEntry_coord {q old : Nat} (hq : (List.range start ++ order)[q]? = some old) :
    (movedEntry start depth order i.time (2 * q + 1) : Outcome ε Moment) =
      .orFault ((i.time[2 * old + 1]?).map (·.movedTo q)) := by
  have hold := lt_of_mem_places hperm hstart old (List.mem_of_getElem? hq)
  have hnew := newPosition_eq hperm hstart hq
  have hhalf : (2 * q + 1) / 2 = q := by omega
  unfold movedEntry
  rw [hhalf]
  by_cases hlt : q < start
  · have hfixed : ¬ ((2 * q + 1) % 2 = 1 ∧ start ≤ q) := by omega
    rw [List.getElem?_append_left (by rwa [List.length_range]), List.getElem?_range hlt,
      Option.some.injEq] at hq
    subst hq
    simp only [if_neg hfixed]
    cases hm : i.time[2 * q + 1]? with
    | none => rfl
    | some m =>
        rcases hi.coord q m hm with ⟨rfl, -⟩ | ⟨v, rfl⟩
        · rfl
        · rfl
  · have hmoved : (2 * q + 1) % 2 = 1 ∧ start ≤ q := by omega
    rw [List.getElem?_append_right (by rw [List.length_range]; omega), List.length_range] at hq
    simp only [if_pos hmoved, hq]
    cases hm : i.time[2 * old + 1]? with
    | none => rfl
    | some m =>
        rcases hi.coord old m hm with ⟨rfl, -⟩ | ⟨v, rfl⟩
        · show (if old < depth then _ else _) = _
          rw [if_pos hold, hnew]
          rfl
        · rfl

/-- An item with all coordinates is rearranged. -/
theorem exists_reorderItem (hlen : i.time.length = 2 * depth + 1) :
    ∃ i', (reorderItem start depth order i : Outcome ε Item) = .ok i' ∧
      i.Rearranged (List.range start ++ order) i' := by
  have hplaces : ∀ q < depth, ∃ old < depth, (List.range start ++ order)[q]? = some old := by
    intro q hq
    have hlt : q < (List.range start ++ order).length := by rwa [length_places hperm hstart]
    have hget := List.getElem?_eq_getElem hlt
    exact ⟨_, lt_of_mem_places hperm hstart _ (List.mem_of_getElem? hget), hget⟩
  have hentry : ∀ pos ∈ List.range i.time.length,
      ∃ m, (movedEntry start depth order i.time pos : Outcome ε Moment) = .ok m := by
    intro pos hpos
    have hlt := List.mem_range.mp hpos
    rcases Nat.even_or_odd' pos with ⟨q, rfl | rfl⟩
    · exact ⟨_, by rw [movedEntry_slot, List.getElem?_eq_getElem hlt]; rfl⟩
    · obtain ⟨old, hold, hq⟩ := hplaces q (by omega)
      have hmem : 2 * old + 1 < i.time.length := by omega
      exact ⟨_, by rw [movedEntry_coord hperm hstart hi hq, List.getElem?_eq_getElem hmem]; rfl⟩
  obtain ⟨time, htime⟩ := Outcome.exists_mapM_eq_ok hentry
  refine ⟨{ i with time }, ?_, ?_⟩
  · rw [reorderItem, if_pos hlen, htime]
    rfl
  obtain ⟨hsame, hget⟩ := List.forall₂_iff_get.mp (Outcome.mapM_eq_ok.mp htime)
  rw [List.length_range] at hsame
  have hmoved : ∀ pos < i.time.length,
      (movedEntry start depth order i.time pos : Outcome ε Moment) = .orFault time[pos]? := by
    intro pos hpos
    have hpos' := hget pos (by simpa using hpos) (hsame ▸ hpos)
    simp only [List.get_eq_getElem, List.getElem_range] at hpos'
    rw [hpos', List.getElem?_eq_getElem (hsame ▸ hpos)]
    rfl
  refine ⟨rfl, hsame.symm, fun q => ?_, fun q old hq => ?_⟩
  · show time[2 * q]? = _
    by_cases hlt : 2 * q < i.time.length
    · exact Outcome.orFault_inj ((hmoved _ hlt).symm.trans (movedEntry_slot q))
    · rw [List.getElem?_eq_none (by omega), List.getElem?_eq_none (by omega)]
  · show time[2 * q + 1]? = _
    have hlt : q < depth := by
      rw [← length_places hperm hstart]
      exact (List.getElem?_eq_some_iff.mp hq).1
    exact Outcome.orFault_inj
      ((hmoved _ (by omega)).symm.trans (movedEntry_coord hperm hstart hi hq))

end Times

/-! ## items of a body -/

section Made

variable {sc : Scope} {groups : List Group} {i : Item}

/-- Copies sit outside of the point loops. -/
theorem level_le_privateLen {g : Group} {level : Nat} (hplaced : Group.Placed sc g)
    (h : copyLevel? sc.schedule g = some level) : level ≤ sc.schedule.privateLen := by
  unfold copyLevel? at h
  cases hmemory : g.memory with
  | global => simp [hmemory] at h
  | shared =>
      rw [hmemory, Option.some.injEq] at h
      rw [← h]
      exact (copyLevel_le_sharedLen hplaced hmemory).trans sc.schedule.sharedLen_le_privateLen
  | priv =>
      rw [hmemory, Option.some.injEq] at h
      rw [← h, privateLevel]
      cases htile : g.privateTile with
      | none =>
          simp only [Group.memory, htile, Option.isSome_none,
            Bool.false_eq_true, if_false] at hmemory
          split at hmemory <;> cases hmemory
      | some t =>
          obtain ⟨-, acc, hacc, hinfer⟩ := hplaced.privateTile t htile
          have houter : t.nOuter = sc.schedule.privateLen :=
            (Tile.infer?_eq_ok hinfer).2.trans (Scope.access_eq_ok hacc).2.2.1
          dsimp only [Option.bind_some]
          cases hdeepest : t.deepestOuter? sc.schedule.tileFirst fun j => sc.schedule.levels[j]?.all
            (!·.isMapped) with
          | some d =>
              have hd := (Tile.deepestOuter?_eq_some hdeepest).2.1
              rw [Option.elim_some]
              omega
          | none =>
              rw [Option.elim_none, KernelSchedule.privateLen, KernelSchedule.sharedLen]
              omega

/-- A time that leads statements to a slot has its coordinates in order. -/
theorem timed_of_leadTime {k : KernelSchedule} {depth level : Nat} {ss : List Nat} {pick : Pick}
    {slot : Int} {rest : List Moment} (hlevel : level ≤ depth)
    (hrest : rest = [] ∨ ∃ v, rest = [.const v])
    (h : i.time = leadTime k level ss pick ++ .slot slot :: rest) : i.Timed depth where
  alternates := by
    refine alternates_of_leadTime ?_ h
    rcases hrest with rfl | ⟨v, rfl⟩ <;> simp
  coord j m hm := by
    rw [h] at hm
    by_cases hj : j < level
    · rw [List.getElem?_append_left (by rw [length_leadTime]; omega), (getElem?_leadTime hj).2,
        Option.some.injEq] at hm
      rw [← hm, leadMoment]
      by_cases hconst : k.isConstantDim j = true
      · rw [if_pos hconst]
        exact Or.inr ⟨_, rfl⟩
      · rw [if_neg hconst]
        exact Or.inl ⟨rfl, by omega⟩
    · rw [List.getElem?_append_right (by rw [length_leadTime]; omega), length_leadTime] at hm
      have hpos : 2 * j + 1 - 2 * level = 2 * (j - level) + 1 := by omega
      rw [hpos, List.getElem?_cons_succ] at hm
      rcases hrest with rfl | ⟨v, rfl⟩
      · simp at hm
      · obtain ⟨-, rfl⟩ : j - level = 0 ∧ .const v = m := by
          simpa [List.getElem?_singleton] using hm
        exact Or.inr ⟨v, rfl⟩

/-- However an item of a body is made, its coordinates are in order. -/
theorem timed_of_made (hplaced : ∀ g ∈ groups, Group.Placed sc g)
    (hdepth : sc.schedule.privateLen ≤ sc.schedule.depth) (h : Made sc groups i) :
    i.Timed sc.schedule.depth := by
  have hlevel : ∀ {t : Transfer}, t.IsOf sc 0 groups → t.level ≤ sc.schedule.depth := fun ht =>
    (level_le_privateLen (hplaced _ (List.mem_of_getElem? ht.getElem?)) ht.level).trans hdepth
  cases h with
  | statement => exact timed_of_leadTime le_rfl (Or.inl rfl) rfl
  | copy ht => exact timed_of_leadTime (hlevel ht) (Or.inr ⟨_, rfl⟩) rfl
  | sync ht => exact timed_of_leadTime (hlevel ht) (Or.inl rfl) rfl

/-- Only statements have all coordinates. -/
theorem length_ne_of_made (hplaced : ∀ g ∈ groups, Group.Placed sc g)
    (hdepth : sc.schedule.sharedLen < sc.schedule.depth) (h : Made sc groups i)
    (hwork : ∀ s name, i.work ≠ .statement s name) : i.time.length ≠ 2 * sc.schedule.depth + 1 := by
  cases h with
  | statement => exact absurd rfl (hwork _ _)
  | copy =>
      rw [List.length_append, length_leadTime]
      show 2 * _ + 2 ≠ _
      omega
  | @sync t ss pick slot ht hshared =>
      have hlevel := copyLevel_le_sharedLen (hplaced _ (List.mem_of_getElem? ht.getElem?)) hshared
      rw [← ht.level_eq hshared] at hlevel
      rw [List.length_append, length_leadTime]
      show 2 * t.level + 1 ≠ _
      omega

end Made

/-! ## the moved body -/

/-- A statement with its coordinates taken from other places. -/
def rearrangeDims (places : List Nat) (st : StmtSchedule) : StmtSchedule :=
  { st with dims := rearrange places st.dims }

/-- The body has its coordinates from the given places, where those in `moved` are unrolled. -/
structure Interchanged (places moved : List Nat) (b b' : Body) : Prop where
  /-- Levels and statements are rearranged alike, and nothing else changes. -/
  schedule : b'.schedule = { b.schedule with
    levels := rearrange places b.schedule.levels
    statements := b.schedule.statements.map (rearrangeDims places)
    stage := .unrollInterchanged }
  /-- So are the times of statements, which are those of the new schedule; copies and barriers
  stay. -/
  items : List.Forall₂ (fun i i' =>
    (∀ s name, i.work = .statement s name → i.Rearranged places i' ∧
      i'.time = leadTime b'.schedule b.schedule.depth [s] .first ++ [.slot Slot.body]) ∧
    ((∀ s name, i.work ≠ .statement s name) → i' = i)) b.items b'.items
  unrolled : b'.unrolled = places.map (moved.contains ·)
  /-- Instances that agree on the moved loops stay in order. -/
  order : ∀ (s t : Nat) (st st' u u' : StmtSchedule), b.schedule.statements[s]? = some st →
    b'.schedule.statements[s]? = some st' → b.schedule.statements[t]? = some u →
    b'.schedule.statements[t]? = some u' →
    ∀ params ids x ids' y : List Int,
      (∀ q ∈ moved, (st.coords params ids x)[q]? = (u.coords params ids' y)[q]?) →
        (st'.coords params ids x < u'.coords params ids' y ↔
          st.coords params ids x < u.coords params ids' y) ∧
        (st'.coords params ids x = u'.coords params ids' y ↔
          st.coords params ids x = u.coords params ids' y)

/-- Rearranging the coordinates of a schedule rearranges those of every instance. -/
theorem coords_rearrangeDims (places : List Nat) (st : StmtSchedule) (params ids x : List Int) :
    (rearrangeDims places st).coords params ids x = rearrange places (st.coords params ids x) :=
  map_rearrange _ _ _

section Moved

variable {k : KernelSchedule} {places : List Nat} {stage : Stage}

/-- The schedule with its coordinates taken from other places. -/
def rearrangeSchedule (places : List Nat) (stage : Stage) (k : KernelSchedule) : KernelSchedule :=
  { k with levels := rearrange places k.levels,
           statements := k.statements.map (rearrangeDims places), stage }

variable (hdims : ∀ st ∈ k.statements, st.dims.length = k.depth)
  (hplaces : ∀ p ∈ places, p < k.depth)

include hdims hplaces

/-- A coordinate of a rearranged statement is the one at its old place. -/
theorem getElem?_dims_rearrange {st : StmtSchedule} (hst : st ∈ k.statements) {q old : Nat}
    (hq : places[q]? = some old) : (rearrangeDims places st).dims[q]? = st.dims[old]? :=
  getElem?_rearrange (fun p hp => (hplaces p hp).trans_eq (hdims st hst).symm) hq

/-- A coordinate is constant exactly if it was at its old place. -/
theorem isConstantDim_rearrange {q old : Nat} (hq : places[q]? = some old) :
    (rearrangeSchedule places stage k).isConstantDim q = k.isConstantDim old := by
  rw [KernelSchedule.isConstantDim, KernelSchedule.isConstantDim, rearrangeSchedule, List.all_map,
    Bool.eq_iff_iff, List.all_eq_true, List.all_eq_true]
  refine forall₂_congr fun st hst => ?_
  rw [Function.comp_apply, getElem?_dims_rearrange hdims hplaces hst hq]

/-- The time of a statement in the new schedule is the old one with its coordinates moved. -/
theorem leadMoment_rearrange {s q old : Nat} (hq : places[q]? = some old) :
    leadMoment (rearrangeSchedule places stage k) [s] .first q =
      (leadMoment k [s] .first old).movedTo q := by
  rw [leadMoment, leadMoment, isConstantDim_rearrange hdims hplaces hq]
  by_cases hconst : k.isConstantDim old = true
  · have hvalue : ((rearrangeSchedule places stage k).statements[s]?.bind (·.dims[q]?)) =
        k.statements[s]?.bind (·.dims[old]?) := by
      rw [rearrangeSchedule, List.getElem?_map]
      cases hst : k.statements[s]? with
      | none => rfl
      | some st => exact getElem?_dims_rearrange hdims hplaces (List.mem_of_getElem? hst) hq
    rw [if_pos hconst, if_pos hconst, List.map_singleton, List.map_singleton, hvalue]
    rfl
  · rw [if_neg hconst, if_neg hconst]
    rfl

/-- The rearranged time of a statement is its time in the rearranged schedule. -/
theorem time_eq_of_rearranged {i i' : Item} {s : Nat} (hlen : places.length = k.depth)
    (hi : i.time = leadTime k k.depth [s] .first ++ [.slot Slot.body])
    (h : i.Rearranged places i') :
    i'.time = leadTime (rearrangeSchedule places stage k) k.depth [s] .first ++
      [.slot Slot.body] := by
  have hlength : i'.time.length = 2 * k.depth + 1 := by
    rw [h.length, hi, List.length_append, length_leadTime, List.length_singleton]
  refine List.ext_getElem? fun pos => ?_
  rcases Nat.even_or_odd' pos with ⟨q, rfl | rfl⟩
  · rw [h.slot, hi]
    by_cases hq : q < k.depth
    · rw [List.getElem?_append_left (by rw [length_leadTime]; omega), (getElem?_leadTime hq).1,
        List.getElem?_append_left (by rw [length_leadTime]; omega), (getElem?_leadTime hq).1]
    · rw [List.getElem?_append_right (by rw [length_leadTime]; omega), length_leadTime,
        List.getElem?_append_right (by rw [length_leadTime]; omega), length_leadTime]
  · by_cases hq : q < k.depth
    · have hget : places[q]? = some places[q] := List.getElem?_eq_getElem (hlen ▸ hq)
      have hold : places[q] < k.depth := hplaces _ (List.getElem_mem _)
      rw [h.coord q _ hget, hi, List.getElem?_append_left (by rw [length_leadTime]; omega),
        (getElem?_leadTime hold).2, List.getElem?_append_left (by rw [length_leadTime]; omega),
        (getElem?_leadTime hq).2, leadMoment_rearrange hdims hplaces hget]
      rfl
    · rw [List.getElem?_eq_none (by omega), List.getElem?_eq_none]
      rw [List.length_append, length_leadTime, List.length_singleton]
      omega

end Moved

/-- Vectors that agree on the moved coordinates compare after the move as before. -/
theorem order_of_agree {depth : Nat} {moved : List Nat} {v w v' w' : List Int}
    (hv : v.length = depth) (hw : w.length = depth)
    (hv' : v' = (places depth moved).map (v.getD · 0))
    (hw' : w' = (places depth moved).map (w.getD · 0)) (h : ∀ q ∈ moved, v[q]? = w[q]?) :
    (v' < w' ↔ v < w) ∧ (v' = w' ↔ v = w) := by
  have hagree : ∀ q ∈ moved, v.getD q 0 = w.getD q 0 := fun q hq => by
    rw [List.getD_eq_getElem?_getD, List.getD_eq_getElem?_getD, h q hq]
  have hself : ∀ {u : List Int}, u.length = depth →
      (List.range depth).map (u.getD · 0) = u := fun hu => by
    rw [← rearrange_eq_map 0 fun q hq => (List.mem_range.mp hq).trans_eq hu.symm,
      rearrange_range hu.ge, List.take_of_length_le hu.le]
  have hlt : v' < w' ↔
      (List.range depth).map (v.getD · 0) < (List.range depth).map (w.getD · 0) := by
    rw [hv', hw']
    exact Lexicographic.moved_lt_moved_iff hagree
  have heq : v' = w' ↔
      (List.range depth).map (v.getD · 0) = (List.range depth).map (w.getD · 0) := by
    rw [hv', hw']
    exact Lexicographic.moved_eq_moved_iff hagree
  rw [hself hv, hself hw] at hlt heq
  exact ⟨hlt, heq⟩

section Interchange

variable {ε : Type} {b b' : Body} {moved : List Nat}

/-- The flags follow the loops. -/
theorem unrolled_eq {start depth : Nat} {order : List Nat}
    (hperm : order.Perm (Access.positions start depth)) (hstart : start ≤ depth) :
    ((List.range depth).map fun q => moved.any fun p => decide (p < depth) &&
      newPosition start order p == q) = (List.range start ++ order).map (moved.contains ·) := by
  refine List.ext_getElem ?_ fun q hq hq' => ?_
  · rw [List.length_map, List.length_map, List.length_range, length_places hperm hstart]
  rw [List.length_map] at hq'
  rw [List.getElem_map, List.getElem_range, List.getElem_map, List.contains_eq_mem, Bool.eq_iff_iff,
    List.any_eq_true, decide_eq_true_eq]
  have hplace := List.getElem?_eq_getElem hq'
  constructor
  · rintro ⟨p, hp, hpos⟩
    rw [Bool.and_eq_true, decide_eq_true_eq, beq_iff_eq] at hpos
    -- the place of `p` is the one where it goes
    have hmem : p ∈ List.range start ++ order :=
      (perm_range hperm hstart).mem_iff.mpr (List.mem_range.mpr hpos.1)
    obtain ⟨r, hr⟩ := List.mem_iff_getElem?.mp hmem
    obtain rfl : r = q := (newPosition_eq hperm hstart hr).symm.trans hpos.2
    rw [Option.some.inj (hplace.symm.trans hr)]
    exact hp
  · intro hp
    refine ⟨_, hp, ?_⟩
    rw [Bool.and_eq_true, decide_eq_true_eq, beq_iff_eq]
    exact ⟨lt_of_mem_places hperm hstart _ (List.getElem_mem _), newPosition_eq hperm hstart hplace⟩

section Parts

variable {start : Nat} {order : List Nat} {k : KernelSchedule}
  (hperm : order.Perm (Access.positions start k.depth)) (hstart : start ≤ k.depth)

include hperm hstart

/-- Reordering the statements rearranges the coordinates of each. -/
theorem mapM_reorderStatement (hdims : ∀ st ∈ k.statements, st.dims.length = k.depth) :
    (k.statements.mapM (reorderStatement start order) : Outcome ε (List StmtSchedule)) =
      .ok (k.statements.map (rearrangeDims (List.range start ++ order))) := by
  have hlen : start + order.length = k.depth := by
    rw [← length_places hperm hstart, List.length_append, List.length_range]
  rw [Outcome.mapM_eq_ok, List.forall₂_map_right_iff]
  refine List.forall₂_same.mpr fun st hst => ?_
  have hroom : ¬ (!order.isEmpty && decide (st.dims.length < start + order.length)) = true := by
    rw [hdims st hst, hlen]
    simp
  rw [reorderStatement, if_neg hroom, reorder_eq_rearrange hperm hstart (hdims st hst)]
  rfl

/-- Statements are rearranged, and other items stay. -/
theorem exists_mapM_reorderItem {items : List Item} (htimed : ∀ i ∈ items, i.Timed k.depth)
    (hstatement : ∀ i ∈ items, ∀ s name, i.work = .statement s name →
      i.time = leadTime k k.depth [s] .first ++ [.slot Slot.body])
    (hother : ∀ i ∈ items, (∀ s name, i.work ≠ .statement s name) →
      i.time.length ≠ 2 * k.depth + 1) :
    ∃ items', (items.mapM (reorderItem start k.depth order) : Outcome ε (List Item)) = .ok items' ∧
      List.Forall₂ (fun i i' =>
        (∀ s name, i.work = .statement s name →
          i.time = leadTime k k.depth [s] .first ++ [.slot Slot.body] ∧
          i.Rearranged (List.range start ++ order) i') ∧
        ((∀ s name, i.work ≠ .statement s name) → i' = i)) items items' := by
  induction items with
  | nil => exact ⟨[], rfl, .nil⟩
  | cons i items ih =>
      obtain ⟨hi, htimed⟩ := List.forall_mem_cons.mp htimed
      obtain ⟨htime, hstatement⟩ := List.forall_mem_cons.mp hstatement
      obtain ⟨hlength, hother⟩ := List.forall_mem_cons.mp hother
      obtain ⟨items', hitems, heach⟩ := ih htimed hstatement hother
      by_cases hfull : i.time.length = 2 * k.depth + 1
      · obtain ⟨i', hi', hrearranged⟩ := exists_reorderItem (ε := ε) hperm hstart hi hfull
        exact ⟨i' :: items', Outcome.mapM_eq_ok.mpr (.cons hi' (Outcome.mapM_eq_ok.mp hitems)),
          .cons ⟨fun s name hwork => ⟨htime s name hwork, hrearranged⟩,
            fun hwork => absurd hfull (hlength hwork)⟩ heach⟩
      · have hkept : (reorderItem start k.depth order i : Outcome ε Item) = .ok i := by
          rw [reorderItem, if_neg hfull]
        refine ⟨i :: items', Outcome.mapM_eq_ok.mpr (.cons hkept (Outcome.mapM_eq_ok.mp hitems)),
          .cons ⟨fun s name hwork => absurd ?_ hfull, fun _ => rfl⟩ heach⟩
        rw [htime s name hwork, List.length_append, length_leadTime, List.length_singleton]

end Parts

/-- Moving loops of a scheduled body rearranges it. -/
theorem exists_interchange (hne : moved ≠ [])
    (hmoved : ∀ p ∈ moved, b.schedule.privateLen ≤ p ∧ p < b.schedule.depth) (hnodup : moved.Nodup)
    (hstart : b.schedule.privateLen ≤ b.schedule.depth) (hstage : b.schedule.stage = .bodyScheduled)
    (hdims : ∀ st ∈ b.schedule.statements, st.dims.length = b.schedule.depth)
    (htimed : ∀ i ∈ b.items, i.Timed b.schedule.depth)
      (hstatement : ∀ i ∈ b.items, ∀ s name, i.work = .statement s name →
      i.time = leadTime b.schedule b.schedule.depth [s] .first ++ [.slot Slot.body])
    (hother : ∀ i ∈ b.items, (∀ s name, i.work ≠ .statement s name) →
      i.time.length ≠ 2 * b.schedule.depth + 1) :
    ∃ b', (b.interchange moved : Outcome ε Body) = .ok b' ∧
      Interchanged (places b.schedule.depth moved) moved b b' := by
  have hperm : (newOrder b.schedule.privateLen b.schedule.depth moved).Perm
      (Access.positions b.schedule.privateLen b.schedule.depth) := perm_newOrder_of_nodup hnodup
  have hlt := lt_of_mem_places hperm hstart
  have hcount := length_places hperm hstart
  obtain ⟨items, hitems, heach⟩ :=
    exists_mapM_reorderItem (ε := ε) hperm hstart htimed hstatement hother
  have hb' : (b.interchange moved : Outcome ε Body) = .ok
      ⟨rearrangeSchedule (places b.schedule.depth moved) .unrollInterchanged b.schedule, items,
        (places b.schedule.depth moved).map (moved.contains ·)⟩ := by
    have hroom : ¬ b.schedule.depth - b.schedule.privateLen <
        (newOrder b.schedule.privateLen b.schedule.depth moved).length := by
      rw [List.length_append, List.length_range] at hcount
      omega
    rw [interchange, if_neg (by simpa using hne)]
    dsimp only
    rw [if_neg hroom, mapM_reorderStatement hperm hstart hdims, hitems, hstage,
      unrolled_eq hperm hstart, reorder_eq_rearrange hperm hstart rfl,
      range_append_newOrder hstart hmoved]
    rfl
  rw [range_append_newOrder hstart hmoved] at hlt hcount heach
  refine ⟨_, hb', rfl, ?_, rfl, ?_⟩
  · refine heach.imp fun i i' h => ⟨fun s name hwork => ?_, h.2⟩
    obtain ⟨htime, hrearranged⟩ := h.1 s name hwork
    exact ⟨hrearranged, time_eq_of_rearranged hdims hlt hcount htime hrearranged⟩
  · intro s t st st' u u' hst hst' hu hu' params ids x ids' y hagree
    have hcoords : ∀ {n : Nat} {v v' : StmtSchedule}, b.schedule.statements[n]? = some v →
        (b.schedule.statements.map (rearrangeDims (places b.schedule.depth moved)))[n]? = some v' →
        ∀ ids z : List Int,
        (v.coords params ids z).length = b.schedule.depth ∧
          v'.coords params ids z = (places b.schedule.depth moved).map
          ((v.coords params ids z).getD · 0) := by
      intro n v v' hv hv' ids z
      have hlength : (v.coords params ids z).length = b.schedule.depth :=
        (List.length_map _).trans (hdims v (List.mem_of_getElem? hv))
      rw [List.getElem?_map, hv, Option.map_some, Option.some.injEq] at hv'
      rw [← hv', coords_rearrangeDims, rearrange_eq_map 0 (hlength.symm ▸ hlt)]
      exact ⟨hlength, rfl⟩
    obtain ⟨hlength, hst⟩ := hcoords hst hst' ids x
    obtain ⟨hlength', hu⟩ := hcoords hu hu' ids' y
    exact order_of_agree hlength hlength' hst hu hagree

end Interchange

/-! ## kernels of valid programs -/

section Kernel

variable {p : Program} {o : Options} {region : Region} {k : KernelSchedule} {sc : Scope}
  {formed checked groups : List Group} {unroll moved : List Nat} {body : Body}

/-- Moving point loops permutes the coordinates after the thread ids, the same way everywhere, so
that the loops come last in the order given and the others keep theirs; instances that agree on the
moved loops are in the same order before and after. -/
theorem interchange_permutes_coordinates (hp : p.validate = .ok ()) (hregion : region ∈ p.regions)
    (hk : KernelSchedule.build p region o = .ok k) (hsc : sc = Scope.ofSchedule p o k)
    (hall : Group.all sc = .ok formed)
    (hunroll : Group.checkUnroll sc formed = .ok (checked, unroll))
    (hbudget : Group.enforceBudget sc checked = .ok groups) (hbody : build sc groups = .ok body)
    (hne : moved ≠ []) (hascending : moved.Pairwise (· < ·))
    (hpoints : ∀ q ∈ moved, ∃ m < k.tileLen, q = k.pointLoopPos m) :
    ∃ body', (body.interchange moved : Outcome MapError Body) = .ok body' ∧
      (places k.depth moved).Perm (List.range k.depth) ∧
      (places k.depth moved).take k.privateLen = List.range k.privateLen ∧
      Interchanged (places k.depth moved) moved body body' := by
  subst hsc
  have hregular := Scope.regular_of_build (o := o) hp hregion hk
  have hplaced := Group.placed_of_all hall (Group.demoted_of_stages hunroll hbudget)
  have hstart : k.privateLen ≤ k.depth := hregular.laidOut.privateLen_le_depth
  have hdepth : k.privateLen + k.tileLen ≤ k.depth := hregular.laidOut.pointLoops_le_depth
  have hmoved : ∀ q ∈ moved, k.privateLen ≤ q ∧ q < k.depth := by
    intro q hq
    obtain ⟨m, hm, rfl⟩ := hpoints q hq
    rw [KernelSchedule.pointLoopPos]
    omega
  have hnodup : moved.Nodup := hascending.imp fun h => h.ne
  have hinner : k.sharedLen < k.depth := by
    obtain ⟨q, hq⟩ := List.exists_mem_of_ne_nil _ hne
    have hle := k.sharedLen_le_privateLen
    have hqs := hmoved q hq
    omega
  have hmade := made_of_build hbody
  have hplaces := range_append_newOrder hstart hmoved
  have hschedule := schedule_of_build hbody
  have hperm : (newOrder k.privateLen k.depth moved).Perm (Access.positions k.privateLen k.depth) :=
    perm_newOrder_of_nodup hnodup
  obtain ⟨body', hbody', hinterchanged⟩ := exists_interchange (ε := MapError) (b := body) hne
    (by rw [hschedule]; exact hmoved) hnodup (by rw [hschedule]; exact hstart) (by rw [hschedule])
    (by rw [hschedule]; exact hregular.shaped.dims)
    (fun i hi => by rw [hschedule]; exact timed_of_made hplaced hstart (hmade i hi))
    (fun i hi s name hwork => by
      rw [hschedule]
      cases hmade i hi with
      | statement =>
          cases hwork
          rfl
      | copy => cases hwork
      | sync => cases hwork)
    (fun i hi hwork => by rw [hschedule]; exact length_ne_of_made hplaced hinner (hmade i hi) hwork)
  rw [hschedule] at hinterchanged
  refine ⟨body', hbody', hplaces ▸ perm_range hperm hstart, ?_, hinterchanged⟩
  rw [← hplaces, List.take_left' (List.length_range)]

end Kernel

/-! ### a point loop around an inner loop -/

/-- `for i: for j: S writes A[i]` -/
def sweepProgram : Program where
  params := []
  context := []
  arrays := [.ofShape "A" "float" 4 1]
  statements := [⟨"S", ["i", "j"], [.ge (.var 0), .ge (.var 1)], [.var 0, .var 1],
    [⟨0, "A", .write, true, [.single (.var 0)]⟩]⟩]
  regions := [⟨[0], 0, 1, [false]⟩]

def sweepOptions : Options := { Options.default with tileSizes := [2], usePrivateMemory := false }

/-- The coordinates are `[2·⌊i/2⌋, i mod 2, j]`. -/
def sweepSchedule : KernelSchedule where
  paramNames := []
  nProgramParam := 0
  context := []
  tileFirst := 0
  tileLen := 1
  nGrid := 0
  nBlock := 0
  tileSizes := [2]
  gridSizes := []
  blockSizes := []
  gridMapping := .wrap
  threadMapping := .wrap
  levels := [.tileLoop, .pointLoop, .inner]
  coincident := [false]
  statements := [{
    stmt := 0
    nProgramParam := 0
    space := ⟨0, 2, [⟨.var 0, 2⟩]⟩
    constraints := [.ge (.var 0), .ge (.var 1)]
    dims := [⟨[0, 0, 2], 0⟩, ⟨[1, 0, -2], 0⟩, .var 1] }]
  stage := .scaled

def sweepScope : Scope := .ofSchedule sweepProgram sweepOptions sweepSchedule

/-- The two elements of a tile. -/
def sweepGroup : Group where
  array := "A"
  nr := 0
  refs := [0]
  write := true
  definiteWrite := true
  forcePrivate := false
  sharedTile := some ⟨[⟨2, ⟨.var 0, 1⟩, none⟩], 0, 1⟩
  privateTile := none
  lastShared := some 0

def sweepBody : Body where
  schedule := { sweepSchedule with stage := .bodyScheduled }
  items := [
    ⟨.statement 0 "S", [.slot 2, .dim 0, .slot 2, .dim 1, .slot 2, .dim 2, .slot 2]⟩,
    ⟨.copy 0 "shared_A" .copyOut .shared [0], [.slot 2, .dim 0, .slot 4, .const 0]⟩,
    ⟨.sync, [.slot 2, .dim 0, .slot 3]⟩,
    ⟨.sync, [.slot 2, .dim 0, .slot 5]⟩]
  unrolled := [false, false, false]

theorem sweep_stages :
    KernelSchedule.build sweepProgram ⟨[0], 0, 1, [false]⟩ sweepOptions = .ok sweepSchedule ∧
      Group.all sweepScope = .ok [sweepGroup] ∧
      Group.checkUnroll sweepScope [sweepGroup] = .ok ([sweepGroup], []) ∧
      Group.enforceBudget sweepScope [sweepGroup] = .ok [sweepGroup] ∧
      build sweepScope [sweepGroup] = .ok sweepBody := by decide +kernel

/-- The loop over `i mod 2` moves inside of that over `j`, and iterations with the same `i mod 2`
stay in order. -/
theorem sweep_permutes_coordinates :
    (sweepProgram.validate = .ok () ∧
        KernelSchedule.build sweepProgram ⟨[0], 0, 1, [false]⟩ sweepOptions = .ok sweepSchedule ∧
        build sweepScope [sweepGroup] = .ok sweepBody) ∧
      ∃ body', (sweepBody.interchange [1] : Outcome MapError Body) = .ok body' ∧
        [0, 2, 1].Perm (List.range 3) ∧ Interchanged [0, 2, 1] [1] sweepBody body' := by
  obtain ⟨hk, hall, hunroll, hbudget, hbody⟩ := sweep_stages
  have hp : sweepProgram.validate = .ok () := by decide +kernel
  obtain ⟨body', hbody', hperm, -, hinterchanged⟩ :=
    interchange_permutes_coordinates hp (List.mem_singleton_self _) hk
    rfl hall hunroll hbudget hbody (by decide : [1] ≠ []) (by decide) (by decide)
  exact ⟨⟨hp, hk, hbody⟩, body', hbody', hperm, hinterchanged⟩

end Body

end KernelMap
