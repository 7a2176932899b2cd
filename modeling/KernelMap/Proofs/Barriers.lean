import KernelMap.Proofs.Granule
import KernelMap.Proofs.ItemTimes

/-!
# KernelMap.Proofs.Barriers

Barriers between the copies of shared tiles and the statements that use them.

A level has one set of barriers for all shared groups with copies there.  Constant coordinates put
the barrier before the body at the least values of their statements, and the one after it at the
greatest. So they are next to the copies of a group only if no other group at the level starts
before it or ends after it (`Body.StartsFirst`, `Body.EndsLast`, `Body.RunsLast`).

Main statement: `Body.barriers_fence_shared_copies`.
-/

namespace KernelMap.Body

variable {k : KernelSchedule}

/-! ## fences -/

/-- Between work with `P` and work with `Q` there is a barrier, and they come in this order. -/
def Fenced (works : List Work) (P Q : Work → Prop) : Prop :=
  ∀ (a b : Nat) (w w' : Work), works[a]? = some w → works[b]? = some w' → P w → Q w' →
    ∃ c, a < c ∧ c < b ∧ works[c]? = some .sync

/-- After work with `P` there is a barrier. -/
def Followed (works : List Work) (P : Work → Prop) : Prop :=
  ∀ (a : Nat) (w : Work), works[a]? = some w → P w → ∃ c, a < c ∧ works[c]? = some .sync

section Fences

variable {order : List Item} {pos : Nat} {P Q : Work → Prop}
  (hsorted : order.Pairwise fun i j => i.remaining pos ≤ j.remaining pos)

include hsorted

theorem lt_of_remaining_lt {a b : Nat} {x y : Item} (ha : order[a]? = some x)
    (hb : order[b]? = some y) (hlt : x.remaining pos < y.remaining pos) : a < b := by
  obtain ⟨hlena, rfl⟩ := List.getElem?_eq_some_iff.mp ha
  obtain ⟨hlenb, rfl⟩ := List.getElem?_eq_some_iff.mp hb
  by_contra hle
  rcases (not_lt.mp hle).eq_or_lt with rfl | hba
  · exact lt_irrefl _ hlt
  · exact not_lt.mpr (List.pairwise_iff_getElem.mp hsorted b a hlenb hlena hba) hlt

/-- Works are fenced if, in the order of the times, a barrier lies between any two of the items. -/
theorem fenced_of_sorted
    (h : ∀ x ∈ order, ∀ y ∈ order, P x.work → Q y.work →
      ∃ z ∈ order, z.work = .sync ∧ x.remaining pos < z.remaining pos ∧
      z.remaining pos < y.remaining pos) :
    Fenced (order.map (·.work)) P Q := by
  intro a b w w' ha hb hw hw'
  rw [List.getElem?_map] at ha hb
  obtain ⟨x, hx, rfl⟩ := Option.map_eq_some_iff.mp ha
  obtain ⟨y, hy, rfl⟩ := Option.map_eq_some_iff.mp hb
  obtain ⟨z, hz, hsync, hxz, hzy⟩ :=
    h x (List.mem_of_getElem? hx) y (List.mem_of_getElem? hy) hw hw'
  obtain ⟨c, hc⟩ := List.mem_iff_getElem?.mp hz
  exact ⟨c, lt_of_remaining_lt hsorted hx hc hxz,
    lt_of_remaining_lt hsorted hc hy hzy, by simp [hc, hsync]⟩

/-- Works are followed by a barrier if each of the items has one at a later time. -/
theorem followed_of_sorted
    (h : ∀ x ∈ order, P x.work → ∃ z ∈ order, z.work = .sync ∧ x.remaining pos < z.remaining pos) :
    Followed (order.map (·.work)) P := by
  intro a w ha hw
  rw [List.getElem?_map] at ha
  obtain ⟨x, hx, rfl⟩ := Option.map_eq_some_iff.mp ha
  obtain ⟨z, hz, hsync, hxz⟩ := h x (List.mem_of_getElem? hx) hw
  obtain ⟨c, hc⟩ := List.mem_iff_getElem?.mp hz
  exact ⟨c, lt_of_remaining_lt hsorted hx hc hxz, by simp [hc, hsync]⟩

end Fences

/-! ## users and copies of a group -/

/-- The work runs a statement with a reference of the group. -/
def Uses (sc : Scope) (g : Group) : Work → Prop
  | .statement s _ => ∃ r ∈ sc.refs, r.position = s ∧ r.reference.id ∈ g.refs
  | _ => False

/-- The work copies group number `gi` in a direction. -/
def Moves (gi : Nat) (direction : Direction) : Work → Prop
  | .copy group _ d _ _ => group = gi ∧ d = direction
  | _ => False

section Group

variable (sc : Scope) (groups : List Group) (works : List Work) (g : Group)

/-- In no constant coordinate around its copies is the group behind all statements that are served
with it. -/
def StartsFirst : Prop :=
  ∀ j < g.copyLevel, sc.schedule.isConstantDim j = true →
    ∀ s, Served sc groups works g.copyLevel s →
    ∃ s' ∈ statementsOf sc g, sc.schedule.constantAt s' j ≤ sc.schedule.constantAt s j

def EndsLast : Prop :=
  ∀ j < g.copyLevel, sc.schedule.isConstantDim j = true →
    ∀ s, Served sc groups works g.copyLevel s →
    ∃ s' ∈ statementsOf sc g, sc.schedule.constantAt s j ≤ sc.schedule.constantAt s' j

/-- In the constant coordinates around coordinate `l`, no statement that is served with the group is
behind one of the group. -/
def RunsLast (l : Nat) : Prop :=
  ∀ j < l, sc.schedule.isConstantDim j = true → ∀ s, Served sc groups works g.copyLevel s →
    ∀ s' ∈ statementsOf sc g, sc.schedule.constantAt s j ≤ sc.schedule.constantAt s' j

end Group

section Group

variable {sc : Scope} {groups : List Group} {items : List Item} {g : Group} {gi : Nat}

section RunsLast

variable {works : List Work} {ss : List Nat} {j l : Nat} (hlast : RunsLast sc groups works g l)
  (hvary : sc.schedule.isConstantDim l = false) (hsub : statementsOf sc g ⊆ ss)
  (hserved : ∀ s ∈ ss, Served sc groups works g.copyLevel s)

include hlast hvary hserved in
/-- Up to a coordinate that varies, no statement that is served is behind one of the group. -/
theorem RunsLast.constantAt_le (hj : j ≤ l) (hc : sc.schedule.isConstantDim j = true) :
    ∀ s ∈ ss, ∀ s' ∈ statementsOf sc g,
      sc.schedule.constantAt s j ≤ sc.schedule.constantAt s' j := by
  intro s hs
  have hlt : j < l := hj.lt_of_ne fun heq => by simp [heq, hvary] at hc
  exact hlast j hlt hc s (hserved s hs)

include hlast hvary hsub hserved

/-- Up to a coordinate that varies, all statements of the group have the same constants. -/
theorem RunsLast.constantAt_eq (hj : j ≤ l) (hc : sc.schedule.isConstantDim j = true) :
    ∀ s ∈ statementsOf sc g, ∀ s' ∈ statementsOf sc g,
      sc.schedule.constantAt s j = sc.schedule.constantAt s' j := by
  intro s hs s' hs'
  have hle := hlast.constantAt_le hvary hserved hj hc
  exact le_antisymm (hle s (hsub hs) s' hs') (hle s' (hsub hs') s hs)

/-- The last of all statements that are served is one of the group. -/
theorem RunsLast.leadRank_eq (hne : statementsOf sc g ≠ []) {pick : Pick} (hj : j ≤ l) :
    leadRank sc.schedule ss .last j = leadRank sc.schedule (statementsOf sc g) pick j := by
  obtain ⟨s', hs'⟩ := List.exists_mem_of_ne_nil _ hne
  calc leadRank sc.schedule ss .last j
      = leadRank sc.schedule (statementsOf sc g) .last j :=
        le_antisymm (leadRank_last_le (List.ne_nil_of_mem (hsub hs')) fun hc s hs =>
          ⟨s', hs', hlast.constantAt_le hvary hserved hj hc s hs s' hs'⟩)
            (leadRank_last_mono hne hsub)
    _ = leadRank sc.schedule (statementsOf sc g) pick j :=
        Body.leadRank_eq hne hne fun hc => hlast.constantAt_eq hvary hsub hserved hj hc

end RunsLast

/-- A statement that uses the group has the constants of one that the group lists. -/
def Lists (sc : Scope) (g : Group) : Prop :=
  ∀ w, Uses sc g w → ∃ s name, w = .statement s name ∧
    ∃ s' ∈ statementsOf sc g, ∀ j, sc.schedule.constantAt s j = sc.schedule.constantAt s' j

theorem lists_of_build {p : Program} {region : Region} {o : Options} (hp : p.validate = .ok ())
    (ho : o.validate = .ok ()) (hword : o.Representable)
    (hk : KernelSchedule.build p region o = .ok k) : Lists (Scope.ofSchedule p o k) g := by
  intro w hw
  cases w with
  | copy => exact hw.elim
  | sync => exact hw.elim
  | statement s name =>
      obtain ⟨r, hr, rfl, hid⟩ := hw
      refine ⟨r.position, name, rfl, ?_⟩
      cases hfind : (Scope.ofSchedule p o k).reference? r.reference.id with
      | none =>
          have hnone := List.find?_eq_none.mp hfind r hr
          simp at hnone
      | some r' =>
          obtain ⟨hr', hid'⟩ := Scope.mem_refs_of_reference? hfind
          have hhas := Scope.has_of_mem_refs hr
          have hhas' := Scope.has_of_mem_refs hr'
          have heq := Program.eq_of_id_eq hp hhas'.mem_references hhas.mem_references hid'
          obtain ⟨st, stmt, hst, hstmt, hmem⟩ := hhas
          obtain ⟨st', stmt', hst', hstmt', hmem'⟩ := hhas'
          have hnumber := Program.number_eq_of_mem_references hp hstmt hstmt' hmem (heq ▸ hmem')
          have hsame := KernelSchedule.eq_of_stmt_eq hp ho hword hk hst hst' hnumber
          refine ⟨r'.position, ?_, KernelSchedule.constantAt_congr (by rw [hst, hst', hsame])⟩
          rw [statementsOf, Sorted.mem_distinct, List.mem_filterMap]
          exact ⟨r.reference.id, hid, by simp [hfind]⟩

variable (hitems : Scheduled sc groups items) (hlists : Lists sc g) (hgi : groups[gi]? = some g)
  (hshared : g.memory = .shared) (hlevel : g.copyLevel ≤ sc.schedule.privateLen)

include hitems hlists hlevel in
/-- A statement that uses the group is in the body at its level, at constants that the group
lists. -/
theorem exists_at_of_uses {y : Item} (hy : y ∈ items) (huses : Uses sc g y.work) :
    ∃ s, y.At g.copyLevel (leadRank sc.schedule [s] .first) Slot.body ∧
      ∃ s' ∈ statementsOf sc g, ∀ j, sc.schedule.constantAt s j = sc.schedule.constantAt s' j := by
  obtain ⟨s, name, hwork, hs⟩ := hlists y.work huses
  exact ⟨s, hitems.user y hy s name hwork _ hlevel, hs⟩

include hitems hgi hshared in
/-- A copy of the group is at its level, with barriers for statements that are served there. -/
theorem exists_at_of_moves {x : Item} {d : Direction} (hx : x ∈ items)
    (hmoves : Moves gi d x.work) :
    statementsOf sc g ≠ [] ∧
      x.At g.copyLevel (leadRank sc.schedule (statementsOf sc g) d.pick) d.slot ∧
      HasBarriers sc groups items g d := by
  cases hwork : x.work with
  | statement => simp [hwork, Moves] at hmoves
  | sync => simp [hwork, Moves] at hmoves
  | copy group var d' memory refs =>
      obtain ⟨rfl, rfl⟩ : group = gi ∧ d' = d := by simpa [hwork, Moves] using hmoves
      exact hitems.copy x hx _ _ _ _ _ hwork g hgi hshared

include hitems hlists hgi hshared hlevel

/-- Between a copy into a shared tile and a use of it there is a barrier. -/
theorem exists_sync_after_copyIn (hfirst : StartsFirst sc groups (items.map (·.work)) g)
    {x y : Item} (hx : x ∈ items) (hy : y ∈ items) (hmoves : Moves gi .copyIn x.work)
    (huses : Uses sc g y.work) :
    ∃ z ∈ items, z.work = .sync ∧ x.remaining 0 < z.remaining 0 ∧
      z.remaining 0 < y.remaining 0 := by
  obtain ⟨hne, hatx, ss, hsub, hserved, hbefore, -⟩ :=
    exists_at_of_moves hitems hgi hshared hx hmoves
  obtain ⟨z, hz, hsync, hatz⟩ := hbefore rfl
  obtain ⟨s, haty, s', hs', hconst⟩ := exists_at_of_uses hitems hlists hlevel hy huses
  refine ⟨z, hz, hsync, hatx.remaining_lt hatz (fun j hj => ?_) (by decide) (Nat.zero_le _),
    hatz.remaining_lt haty (fun j hj => ?_) (by decide) (Nat.zero_le _)⟩
  · exact leadRank_first_le (List.ne_nil_of_mem (hsub hs')) fun hc t ht =>
      hfirst j hj hc t (hserved t ht)
  · exact leadRank_first_le_of_mem (hsub hs') (hconst j)

/-- Between a use of a shared tile and a copy out of it there is a barrier. -/
theorem exists_sync_before_copyOut (hlast : EndsLast sc groups (items.map (·.work)) g) {x y : Item}
    (hx : x ∈ items) (hy : y ∈ items) (huses : Uses sc g x.work)
    (hmoves : Moves gi .copyOut y.work) :
    ∃ z ∈ items, z.work = .sync ∧ x.remaining 0 < z.remaining 0 ∧
      z.remaining 0 < y.remaining 0 := by
  obtain ⟨hne, haty, ss, hsub, hserved, -, hafter, -⟩ :=
    exists_at_of_moves hitems hgi hshared hy hmoves
  obtain ⟨z, hz, hsync, hatz⟩ := hafter rfl
  obtain ⟨s, hatx, s', hs', hconst⟩ := exists_at_of_uses hitems hlists hlevel hx huses
  refine ⟨z, hz, hsync, hatx.remaining_lt hatz (fun j hj => ?_) (by decide) (Nat.zero_le _),
    hatz.remaining_lt haty (fun j hj => ?_) (by decide) (Nat.zero_le _)⟩
  · exact le_leadRank_last_of_mem (hsub hs') (hconst j)
  · exact leadRank_last_le (List.ne_nil_of_mem (hsub hs')) fun hc t ht =>
      hlast j hj hc t (hserved t ht)

/-- In the loop of coordinate `l` around the copies, users and copies out are followed by a
barrier. -/
theorem exists_loop_of_moves {b : Body} (hb : b.items = items) {t : Tree}
    (htree : Tree.ofBody b = .ok t) {l : Nat} (hl : l < g.copyLevel)
    (hvary : sc.schedule.isConstantDim l = false)
    (hkind : Tree.IsLoop (b.schedule.levels.getD l .inner))
    (hloop : hasEnclosingLoop sc.schedule g.copyLevel = true)
    (hlast : RunsLast sc groups (items.map (·.work)) g l) {x : Item} {d : Direction}
    (hx : x ∈ items) (hmoves : Moves gi d x.work) :
    ∃ info loop inner, (info, loop) ∈ t.loops ∧ info.level = l ∧
      loop.leaves = inner.map Tree.ofWork ∧
      (∀ i ∈ items, Uses sc g i.work ∨ (∃ d, Moves gi d i.work) → i.work ∈ inner) ∧
      Followed inner fun w => Uses sc g w ∨ Moves gi .copyOut w := by
  subst hb
  obtain ⟨hne, hatx, ss, hsub, hserved, -, -, htrailing⟩ :=
    exists_at_of_moves hitems hgi hshared hx hmoves
  obtain ⟨z, hz, hsync, hatz⟩ := htrailing hloop
  obtain ⟨info, loop, hmem, hinfo, inner, hleaves, hsorted, hinner⟩ :=
    Tree.exists_loop_of_ofBody htree hx (by rw [hatx.coord l hl, leadRank_of_varying hvary]) hkind
  have huser : ∀ y ∈ b.items, Uses sc g y.work → y ∈ inner ∧
      y.remaining (2 * l + 2) < z.remaining (2 * l + 2) := by
    intro y hy huses
    obtain ⟨s, haty, s', hs', hconst⟩ := exists_at_of_uses hitems hlists hlevel hy huses
    refine ⟨(hinner y).mpr ⟨hy, fun q hq => haty.rank?_eq hatx hl (fun j hj => ?_) hq⟩,
      haty.remaining_lt hatz (fun j hj => ?_) (by decide) (by omega)⟩
    · refine leadRank_eq (by simp) hne fun hc t ht t' ht' => ?_
      rw [List.mem_singleton.mp ht, hconst j]
      exact hlast.constantAt_eq hvary hsub hserved hj hc s' hs' t' ht'
    · exact le_leadRank_last_of_mem (hsub hs') (hconst j)
  have hcopy : ∀ y ∈ b.items, ∀ d', Moves gi d' y.work →
      y ∈ inner ∧ y.At g.copyLevel (leadRank sc.schedule (statementsOf sc g) d'.pick) d'.slot := by
    intro y hy d' hmoves'
    obtain ⟨-, haty, -⟩ := exists_at_of_moves hitems hgi hshared hy hmoves'
    refine ⟨(hinner y).mpr ⟨hy, fun q hq => haty.rank?_eq hatx hl (fun j hj => ?_) hq⟩, haty⟩
    exact leadRank_eq hne hne fun hc => hlast.constantAt_eq hvary hsub hserved hj hc
  refine ⟨info, loop, inner.map (·.work), hmem, hinfo, by simp [hleaves], fun y hy hwork => ?_,
    followed_of_sorted hsorted fun y hy hwork => ⟨z, ?_, hsync, ?_⟩⟩
  · rcases hwork with huses | ⟨d', hmoves'⟩
    · exact List.mem_map_of_mem (huser y hy huses).1
    · exact List.mem_map_of_mem (hcopy y hy d' hmoves').1
  · refine (hinner z).mpr ⟨hz, fun q hq => hatz.rank?_eq hatx hl (fun j hj => ?_) hq⟩
    exact hlast.leadRank_eq hvary hsub hserved hne hj
  · have hy := ((hinner y).mp hy).1
    rcases hwork with huses | hmoves'
    · exact (huser y hy huses).2
    · exact (hcopy y hy _ hmoves').2.remaining_lt hatz (fun j _ => leadRank_last_mono hne hsub)
        (by decide) (by omega)

end Group

/-! ## kernels of valid programs -/

section Kernel

variable {p : Program} {o : Options} {region : Region} {sc : Scope}
  {formed checked groups : List Group} {unroll moved : List Nat} {body body' : Body} {tree : Tree}
  {g : Group} {gi : Nat}

/-- Copies of shared tiles sit outside of the thread ids. -/
theorem copyLevel_le_sharedLen (hplaced : Group.Placed sc g) (hshared : g.memory = .shared) :
    g.copyLevel ≤ sc.schedule.sharedLen := by
  obtain ⟨t, ht⟩ : ∃ t, g.sharedTile = some t := by
    unfold Group.memory at hshared
    split at hshared
    · simp at hshared
    split at hshared
    · next hsome => exact Option.isSome_iff_exists.mp hsome
    · simp at hshared
  obtain ⟨hlast, -, acc, hacc, hinfer⟩ := hplaced.sharedTile t ht
  have houter : t.nOuter = sc.schedule.sharedLen :=
    (Tile.infer?_eq_ok hinfer).2.trans (Scope.access_eq_ok hacc).2.2.1
  have hfirst := sc.schedule.tileFirst_le_sharedLen
  simp only [Group.copyLevel, hlast, Group.lastSharedOf, lastOf]
  cases hdeepest : t.deepestOuter? sc.schedule.tileFirst fun _ => true with
  | some d =>
      have hd := (Tile.deepestOuter?_eq_some hdeepest).2.1
      simp only [Option.some_or, Option.elim_some]
      omega
  | none =>
      rw [Option.none_or]
      split
      · exact Nat.zero_le _
      · rw [Option.elim_some]
        omega

/-- When the barriers of a kernel fence the copies of a shared group.  If the group is among the
first at its level, every user comes after the copy in and a barrier; if it is among the last, every
user comes before a barrier and the copy out.  If none runs after it, the users and copies of the
group are in one pass of each sequential loop around its copies, where a barrier follows the users
and the copy out. -/
theorem barriers_fence_shared_copies (hp : p.validate = .ok ()) (ho : o.validate = .ok ())
    (hword : o.Representable) (hk : KernelSchedule.build p region o = .ok k)
    (hsc : sc = Scope.ofSchedule p o k) (hall : Group.all sc = .ok formed)
    (hunroll : Group.checkUnroll sc formed = .ok (checked, unroll))
    (hbudget : Group.enforceBudget sc checked = .ok groups) (hbody : build sc groups = .ok body)
    (hmoved : (body.interchange moved : Outcome MapError Body) = .ok body')
    (htree : Tree.ofBody body' = .ok tree) (hgi : groups[gi]? = some g)
    (hshared : g.memory = .shared) :
    ∃ works : List Work, works.Perm (body'.items.map (·.work)) ∧
      tree.leaves = works.map Tree.ofWork ∧
      (StartsFirst sc groups works g → Fenced works (Moves gi .copyIn) (Uses sc g)) ∧
      (EndsLast sc groups works g → Fenced works (Uses sc g) (Moves gi .copyOut)) ∧
      ∀ l, k.tileFirst ≤ l → l < g.copyLevel → k.levels[l]?.any (!·.isMapped) = true →
      k.isConstantDim l = false →
        RunsLast sc groups works g l → (∃ d, ∃ w ∈ works, Moves gi d w) →
        ∃ info loop inner, (info, loop) ∈ tree.loops ∧ info.level = l ∧
        loop.leaves = inner.map Tree.ofWork ∧
          (∀ w ∈ works, Uses sc g w ∨ (∃ d, Moves gi d w) → w ∈ inner) ∧
          Followed inner fun w => Uses sc g w ∨ Moves gi .copyOut w := by
  subst hsc
  have hlaid := KernelSchedule.laidOut_of_build hk
  have hplaced := Group.placed_of_all hall (Group.demoted_of_stages hunroll hbudget)
  have hlevels : ∀ g ∈ groups, g.memory = .shared →
      g.copyLevel ≤ k.privateLen := fun g hg hshared =>
    (copyLevel_le_sharedLen (hplaced g hg) hshared).trans k.sharedLen_le_privateLen
  have hlevel := hlevels g (List.mem_of_getElem? hgi) hshared
  obtain ⟨hkept, hlen⟩ : body.schedule.levels = k.levels ∧
      body.schedule.privateLen = k.privateLen :=
    levels_of_build hbody
  obtain ⟨hforall, hkinds⟩ := interchange_eq_ok hmoved
  rw [hlen] at hforall hkinds
  rw [hkept, KernelSchedule.depth, hkept] at hkinds
  have hitems : Scheduled (Scope.ofSchedule p o k) groups body'.items :=
    (scheduled_of_build hlaid.privateLen_le_depth hbody).congr hlevels hforall
  have hlists : Lists (Scope.ofSchedule p o k) g := lists_of_build hp ho hword hk
  obtain ⟨order, hperm, hleaves, hsorted⟩ := Tree.arranged_of_ofBody htree
  have hworks : body'.items.map (·.work) ⊆ order.map (·.work) := (hperm.map _).symm.subset
  have hmem : ∀ {i}, i ∈ order → i ∈ body'.items := hperm.mem_iff.mp
  refine ⟨order.map (·.work), hperm.map _, by simp [hleaves], fun hfirst => ?_, fun hlast => ?_,
    fun l hfirst hl hunmapped hvary hlast hcopies => ?_⟩
  · refine fenced_of_sorted hsorted fun x hx y hy hmoves huses => ?_
    have hfirst : StartsFirst (Scope.ofSchedule p o k) groups (body'.items.map (·.work)) g :=
      fun j hj hc s hs => hfirst j hj hc s (hs.mono hworks)
    obtain ⟨z, hz, hsync⟩ :=
      exists_sync_after_copyIn hitems hlists hgi hshared hlevel hfirst (hmem hx)
        (hmem hy) hmoves huses
    exact ⟨z, hperm.mem_iff.mpr hz, hsync⟩
  · refine fenced_of_sorted hsorted fun x hx y hy huses hmoves => ?_
    have hlast : EndsLast (Scope.ofSchedule p o k) groups (body'.items.map (·.work)) g :=
      fun j hj hc s hs => hlast j hj hc s (hs.mono hworks)
    obtain ⟨z, hz, hsync⟩ :=
      exists_sync_before_copyOut hitems hlists hgi hshared hlevel hlast (hmem hx)
        (hmem hy) huses hmoves
    exact ⟨z, hperm.mem_iff.mpr hz, hsync⟩
  · obtain ⟨d, w, hw, hmoves⟩ := hcopies
    obtain ⟨x, hx, rfl⟩ := List.mem_map.mp hw
    have hprivate : l < k.privateLen := hl.trans_le hlevel
    have hdepth : l < k.depth := hprivate.trans_le hlaid.privateLen_le_depth
    have hkind : Tree.IsLoop (body'.schedule.levels.getD l .inner) := by
      rw [hkinds l hprivate hdepth, List.getD_eq_getElem?_getD]
      rw [hlaid.level_eq hprivate] at hunmapped ⊢
      grind [Tree.IsLoop, Level.isMapped]
    have hloop : hasEnclosingLoop k g.copyLevel = true := by
      refine List.any_eq_true.mpr
        ⟨l, List.mem_range'_1.mpr ⟨hfirst, ?_⟩, by simp [hunmapped, hvary]⟩
      omega
    obtain ⟨info, loop, inner, hloops, hinfo, hbody, hinner, hfollowed⟩ :=
      exists_loop_of_moves hitems hlists hgi hshared hlevel rfl htree hl hvary hkind hloop
        (fun j hj hc s hs => hlast j hj hc s (hs.mono hworks)) (hmem hx) hmoves
    refine ⟨info, loop, inner, hloops, hinfo, hbody, fun w hw hwork => ?_, hfollowed⟩
    obtain ⟨i, hi, rfl⟩ := List.mem_map.mp hw
    exact hinner i (hmem hi) hwork

end Kernel

/-! ### two loops in one kernel -/

/-- A loop over `i` that uses an array, placed before or after other loops. -/
def fusedStatement (name array : String) (id : Nat) (place : Int) (use : Use) (index : Subscript) :
    Statement :=
  ⟨name, ["i"], [.ge (.var 0)], [.const place, .var 0], [⟨id, array, use, true, [index]⟩]⟩

/-- `for i: S reads A; for i: T uses B` -/
def fusedProgram (use : Use) (index : Subscript) : Program where
  params := []
  context := []
  arrays := [.ofShape "A" "float" 4 1, .ofShape "B" "float" 4 1]
  statements := [fusedStatement "S" "A" 0 0 .read index, fusedStatement "T" "B" 1 1 use index]
  regions := [⟨[0, 1], 1, 1, [false]⟩]

def fusedOptions : Options := { Options.default with tileSizes := [2], usePrivateMemory := false }

/-- The coordinates are `[place, 2·⌊i/2⌋, i mod 2]`. -/
def fusedStmtSchedule (stmt : Nat) (place : Int) : StmtSchedule where
  stmt
  nProgramParam := 0
  space := ⟨0, 1, [⟨.var 0, 2⟩]⟩
  constraints := [.ge (.var 0)]
  dims := [.const place, ⟨[0, 2], 0⟩, ⟨[1, -2], 0⟩]

def fusedSchedule : KernelSchedule where
  paramNames := []
  nProgramParam := 0
  context := []
  tileFirst := 1
  tileLen := 1
  nGrid := 0
  nBlock := 0
  tileSizes := [2]
  gridSizes := []
  blockSizes := []
  gridMapping := .wrap
  threadMapping := .wrap
  levels := [.host, .tileLoop, .pointLoop]
  coincident := [false]
  statements := [fusedStmtSchedule 0 0, fusedStmtSchedule 1 1]
  stage := .scaled

def fusedScope (use : Use) (index : Subscript) : Scope :=
  .ofSchedule (fusedProgram use index) fusedOptions fusedSchedule

def fusedGroup (array : String) (id : Nat) (write : Bool) (bound : Bound) (last : Nat) : Group where
  array
  nr := 0
  refs := [id]
  write
  definiteWrite := true
  forcePrivate := false
  sharedTile := some ⟨[bound], 0, 2⟩
  privateTile := none
  lastShared := some last

/-- The body of the kernel with the given copies and barriers. -/
def fusedBody (items : List Item) : Body where
  schedule := { fusedSchedule with stage := .bodyScheduled }
  items := [⟨.statement 0 "S", [.slot 2, .const 0, .slot 2, .dim 1, .slot 2, .dim 2, .slot 2]⟩,
    ⟨.statement 1 "T", [.slot 2, .const 1, .slot 2, .dim 1, .slot 2, .dim 2, .slot 2]⟩] ++ items
  unrolled := [false, false, false]

/-! ### a window that moves along -/

/-- The elements `i` and `i + 1`. -/
def window : Subscript := .range (.var 0) ⟨[1], 1⟩

def windowScope : Scope := fusedScope .write window

/-- Three elements, from the second coordinate on. -/
def windowGroup (array : String) (id : Nat) (write : Bool) : Group :=
  fusedGroup array id write ⟨3, ⟨.var 1, 1⟩, none⟩ 1

def windowGroups : List Group := [windowGroup "A" 0 false, windowGroup "B" 1 true]

def windowBody : Body := fusedBody [
  ⟨.copy 0 "shared_A" .copyIn .shared [0], [.slot 2, .const 0, .slot 2, .dim 1, .slot 0, .const 0]⟩,
  ⟨.copy 1 "shared_B" .copyOut .shared [1],
    [.slot 2, .const 1, .slot 2, .dim 1, .slot 4, .const 1]⟩,
  ⟨.sync, [.slot 2, .const 0, .slot 2, .dim 1, .slot 1]⟩,
  ⟨.sync, [.slot 2, .const 1, .slot 2, .dim 1, .slot 3]⟩,
  ⟨.sync, [.slot 2, .const 1, .slot 2, .dim 1, .slot 5]⟩]

def windowTree : Tree := .block [
  .loop ⟨1, .tileLoop, false⟩ (.block [.copy "shared_A" .copyIn .shared [0], .sync,
    .loop ⟨2, .pointLoop, false⟩ (.block [.user 0 "S"])]),
  .loop ⟨1, .tileLoop, false⟩ (.block [.loop ⟨2, .pointLoop, false⟩ (.block [.user 1 "T"]), .sync,
    .copy "shared_B" .copyOut .shared [1], .sync])]

/-- `S` starts first and is behind the copy of `A`; `T` runs last and is before that of `B`, with a
barrier at the end of each pass of its loop. -/
theorem window_copies_are_fenced :
    (KernelSchedule.build (fusedProgram .write window) ⟨[0, 1], 1, 1, [false]⟩ fusedOptions =
      .ok fusedSchedule ∧
      Group.all windowScope = .ok windowGroups ∧
      Group.checkUnroll windowScope windowGroups = .ok (windowGroups, []) ∧
      Group.enforceBudget windowScope windowGroups = .ok windowGroups ∧
      build windowScope windowGroups = .ok windowBody) ∧
      Tree.ofBody windowBody = .ok windowTree ∧
      (∃ works, windowTree.leaves = works.map Tree.ofWork ∧
        Fenced works (Moves 0 .copyIn) (Uses windowScope (windowGroup "A" 0 false))) ∧
      ∃ works, windowTree.leaves = works.map Tree.ofWork ∧
        Fenced works (Uses windowScope (windowGroup "B" 1 true)) (Moves 1 .copyOut) ∧
        ∃ info loop inner, (info, loop) ∈ windowTree.loops ∧ info.level = 1 ∧
        loop.leaves = inner.map Tree.ofWork ∧
          .copy 1 "shared_B" .copyOut .shared [1] ∈ inner ∧
          Followed inner fun w => Uses windowScope (windowGroup "B" 1 true) w ∨
          Moves 1 .copyOut w := by
  have hstages :
      KernelSchedule.build (fusedProgram .write window) ⟨[0, 1], 1, 1, [false]⟩ fusedOptions =
        .ok fusedSchedule ∧
      Group.all windowScope = .ok windowGroups ∧
      Group.checkUnroll windowScope windowGroups = .ok (windowGroups, []) ∧
      Group.enforceBudget windowScope windowGroups = .ok windowGroups ∧
      build windowScope windowGroups = .ok windowBody := by decide +kernel
  have hp : (fusedProgram .write window).validate = .ok () := by decide +kernel
  have ho : fusedOptions.validate = .ok () := by decide +kernel
  obtain ⟨hk, hall, hunroll, hbudget, hbody⟩ := id hstages
  have hmoved : (windowBody.interchange [] : Outcome MapError Body) = .ok windowBody := rfl
  have htree : Tree.ofBody windowBody = .ok windowTree := rfl
  have hA : windowGroups[0]? = some (windowGroup "A" 0 false) := rfl
  have hB : windowGroups[1]? = some (windowGroup "B" 1 true) := rfl
  -- The constants of `S` are the least, and those of `T` the greatest.
  have hconst : ∀ g ∈ windowGroups, ∀ s ∈ statementsOf windowScope g, ∀ j < 2,
      fusedSchedule.isConstantDim j = true →
      fusedSchedule.constantAt 0 j ≤ fusedSchedule.constantAt s j ∧
        fusedSchedule.constantAt s j ≤ fusedSchedule.constantAt 1 j := by decide
  have hserved : ∀ {works level s}, Served windowScope windowGroups works level s → ∀ j < 2,
      fusedSchedule.isConstantDim j = true →
      fusedSchedule.constantAt 0 j ≤ fusedSchedule.constantAt s j ∧
        fusedSchedule.constantAt s j ≤ fusedSchedule.constantAt 1 j := by
    rintro works level s ⟨gi, g, hg, -, -, -, hs⟩
    exact hconst g (List.mem_of_getElem? hg) s hs
  refine ⟨hstages, htree, ?_, ?_⟩
  · obtain ⟨works, -, hleaves, hin, -⟩ :=
      barriers_fence_shared_copies hp ho (by decide) hk rfl hall hunroll hbudget hbody hmoved
        htree hA rfl
    exact ⟨works, hleaves, hin fun j hj hc s hs => ⟨0, by decide, (hserved hs j hj hc).1⟩⟩
  · obtain ⟨works, hperm, hleaves, -, hout, hloops⟩ :=
      barriers_fence_shared_copies hp ho (by decide) hk rfl hall hunroll hbudget hbody hmoved
        htree hB rfl
    have hcopy : .copy 1 "shared_B" .copyOut .shared [1] ∈ works := hperm.mem_iff.mpr (by decide)
    have hlast : RunsLast windowScope windowGroups works (windowGroup "B" 1 true) 1 := by
      intro j hj hc s hs s' hs'
      obtain rfl : s' = 1 := List.mem_singleton.mp hs'
      exact (hserved hs j (by omega) hc).2
    refine ⟨works, hleaves, hout fun j hj hc s hs => ⟨1, by decide, (hserved hs j hj hc).2⟩, ?_⟩
    obtain ⟨info, loop, inner, hmem, hlevel, hinner, hworks, hfollowed⟩ :=
      hloops 1 (by decide) (by decide) (by decide) (by decide) hlast ⟨.copyOut, _, hcopy, rfl, rfl⟩
    exact ⟨info, loop, inner, hmem, hlevel, hinner,
      hworks _ hcopy (Or.inr ⟨.copyOut, rfl, rfl⟩), hfollowed⟩

/-! ### an element for each loop -/

def cornerScope : Scope := fusedScope .read (.single (.const 0))

def cornerGroup (array : String) (id : Nat) : Group :=
  fusedGroup array id false ⟨1, ⟨.const 0, 1⟩, none⟩ 0

def cornerGroups : List Group := [cornerGroup "A" 0, cornerGroup "B" 1]

def cornerBody : Body := fusedBody [
  ⟨.copy 0 "shared_A" .copyIn .shared [0], [.slot 2, .const 0, .slot 0, .const 0]⟩,
  ⟨.copy 1 "shared_B" .copyIn .shared [1], [.slot 2, .const 1, .slot 0, .const 1]⟩,
  ⟨.sync, [.slot 2, .const 0, .slot 1]⟩]

/-- The leaves of the kernel: the only barrier is before `S`. -/
def cornerWorks : List Work := [.copy 0 "shared_A" .copyIn .shared [0], .sync, .statement 0 "S",
  .copy 1 "shared_B" .copyIn .shared [1], .statement 1 "T"]

/-- The second loop starts after the first, whose barrier both share: `T` may use `B[0]` before it
is copied. -/
theorem second_copy_is_not_fenced :
    ((fusedProgram .read (.single (.const 0))).validate = .ok () ∧ fusedOptions.validate = .ok () ∧
      KernelSchedule.build (fusedProgram .read (.single (.const 0))) ⟨[0, 1],
        1, 1, [false]⟩ fusedOptions = .ok fusedSchedule) ∧
      (Group.all cornerScope = .ok cornerGroups ∧ Group.checkUnroll cornerScope cornerGroups =
        .ok (cornerGroups, []) ∧
        Group.enforceBudget cornerScope cornerGroups = .ok cornerGroups ∧
        build cornerScope cornerGroups = .ok cornerBody ∧
        (cornerBody.interchange [] : Outcome MapError Body) = .ok cornerBody) ∧
      (∃ tree, Tree.ofBody cornerBody = .ok tree ∧ tree.leaves = cornerWorks.map Tree.ofWork) ∧
      ∃ g, cornerGroups[1]? = some g ∧ g.memory = .shared ∧
        ¬ Fenced cornerWorks (Moves 1 .copyIn) (Uses cornerScope g) := by
  refine ⟨by decide +kernel, by decide +kernel, ⟨_, rfl, rfl⟩, _, rfl, rfl, fun hfenced => ?_⟩
  obtain ⟨c, hlt, hgt, -⟩ := hfenced 3 4 _ _ rfl rfl ⟨rfl, rfl⟩
    ⟨⟨1, ⟨1, "B", .read, true, [.single (.const 0)]⟩⟩, by decide, rfl, by decide⟩
  omega

end KernelMap.Body
