import KernelMap.Proofs.Arrangement
import KernelMap.Proofs.Isolation

/-!
# KernelMap.Proofs.Stability

Whether grouping is done when it stops.

Coalescing shared tiles ends with groups of which no two coalesce.  The rounds of merging before it
need more.  Groups that the engine finds apart for fixed outer loops it need not find apart for more
fixed loops or in the other order; where it always does (`Scope.Steady`), groups of which one writes
stay apart inside of the loops around their copies (`Group.Clear`).  And the depth at which groups
were first told apart leaves out tile loops at the end that are constant, while a union without a
tile is copied inside of them.

Main statements: `Group.grouping_is_stable`, `Group.grouping_again_merges_more`.
-/

namespace KernelMap

/-! ## joining nothing -/

section Join

variable {ε α β : Type} {join : α → α → Outcome ε (Option (α × β))}

theorem joinWith_of_none {a : α} {bs : List α} (h : ∀ b ∈ bs, join a b = .ok none) :
    joinWith join a bs = .ok none := by
  induction bs with
  | nil => rfl
  | cons b bs ih =>
      obtain ⟨hb, hbs⟩ := List.forall_mem_cons.mp h
      rw [joinWith, hb, ih hbs]
      rfl

/-- Nothing is joined in a list where no two elements can be. -/
theorem joinFirst_of_pairwise {as : List α} (h : as.Pairwise fun a b => join a b = .ok none) :
    joinFirst join as = .ok none := by
  induction as with
  | nil => rfl
  | cons a as ih =>
      obtain ⟨ha, has⟩ := List.pairwise_cons.mp h
      rw [joinFirst, joinWith_of_none ha, ih has]
      rfl

end Join

namespace Outcome

/-- No element is found exactly if the test answers so for each of them. -/
theorem anyM_eq_false_iff {ε α : Type} {f : α → Outcome ε Bool} {xs : List α} :
    xs.anyM f = .ok false ↔ ∀ x ∈ xs, f x = .ok false := by
  refine ⟨eq_ok_of_anyM, fun h => ?_⟩
  induction xs with
  | nil => rfl
  | cons x xs ih =>
      obtain ⟨hx, hxs⟩ := List.forall_mem_cons.mp h
      rw [List.anyM, hx]
      exact ih hxs

end Outcome

theorem List.exists_forall₂_of_forall {α β : Type} {R : α → β → Prop} {xs : List α}
    (h : ∀ x ∈ xs, ∃ y, R x y) : ∃ ys, List.Forall₂ R xs ys := by
  induction xs with
  | nil => exact ⟨[], .nil⟩
  | cons x xs ih =>
      obtain ⟨⟨y, hy⟩, hxs⟩ := List.forall_mem_cons.mp h
      obtain ⟨ys, hys⟩ := ih hxs
      exact ⟨y :: ys, .cons hy hys⟩

/-! ## references that are apart -/

/-- Accesses are found apart exactly if all their pieces are. -/
theorem Access.overlaps_eq_false_iff {a b : Access} :
    a.overlaps b = .ok false ↔
      (a.nIn = b.nIn ∧ a.nOut = b.nOut) ∧ ∀ x ∈ a.pieces, ∀ y ∈ b.pieces,
        a.meet x y = .ok false := by
  unfold overlaps
  split
  · next hshape => simp only [hshape, true_and, and_self, anyPair, Outcome.anyM_eq_false_iff]
  · next hshape => simp [hshape]

namespace Scope

variable {sc : Scope} {depth : Nat} {refs refs' : List Nat}

/-- The engine finds no point of the first `depth` coordinates at which both lists of references
touch one element. -/
def Apart (sc : Scope) (depth : Nat) (refs refs' : List Nat) : Prop :=
  (do (← sc.access refs depth).overlaps (← sc.access refs' depth)) = .ok false

instance (sc : Scope) (depth : Nat) (refs refs' : List Nat) :
    Decidable (sc.Apart depth refs refs') :=
  inferInstanceAs (Decidable (_ = _))

/-- A reference has one piece at a depth. -/
theorem HasPiece.unique {nOut nOut' id : Nat} {x y : Access.Piece}
    (hx : sc.HasPiece depth nOut id x) (hy : sc.HasPiece depth nOut' id y) :
    nOut = nOut' ∧ x = y := by
  obtain ⟨item, hitem, hx⟩ := hx
  obtain ⟨item', hitem', hy⟩ := hy
  obtain rfl := Except.ok.inj (hitem.symm.trans hitem')
  have hlen : ∀ {n : Nat} {z : Access.Piece},
      Access.pieceOf sc.schedule.nProgramParam sc.schedule.context depth n item = .ok z →
        item.2.subscripts.length = n := by
    intro n z h
    unfold Access.pieceOf at h
    dsimp only at h
    split at h
    · simp at h
    · next hlen => exact not_not.mp hlen
  obtain rfl : nOut = nOut' := (hlen hx).symm.trans (hlen hy)
  exact ⟨rfl, Except.ok.inj (hx.symm.trans hy)⟩

/-- Two relations with `nOut` outputs do not meet. -/
def PiecesApart (sc : Scope) (depth nOut : Nat) (x y : Access.Piece) : Prop :=
  (⟨sc.schedule.nProgramParam, depth, nOut, []⟩ : Access).meet x y = .ok false

/-- References are apart exactly if they have pieces that are. -/
theorem apart_iff_pieces (h : refs ≠ []) (h' : refs' ≠ []) :
    sc.Apart depth refs refs' ↔ ∃ nOut xs ys, List.Forall₂ (sc.HasPiece depth nOut) refs xs ∧
      List.Forall₂ (sc.HasPiece depth nOut) refs' ys ∧ ∀ x ∈ xs, ∀ y ∈ ys,
        sc.PiecesApart depth nOut x y := by
  simp only [Apart, Outcome.bind_eq_ok, Access.overlaps_eq_false_iff, access_eq_ok_iff]
  constructor
  · rintro ⟨a, ⟨hparam, hin, -, hxs⟩, b, ⟨-, -, -, hys⟩, ⟨-, hout⟩, hmeet⟩
    refine ⟨a.nOut, a.pieces, b.pieces, hxs, hout ▸ hys, fun x hx y hy => ?_⟩
    rw [PiecesApart, ← hparam, ← hin]
    exact hmeet x hx y hy
  · rintro ⟨nOut, xs, ys, hxs, hys, hmeet⟩
    exact ⟨⟨_, _, nOut, xs⟩, ⟨rfl, rfl, (absurd · h), hxs⟩, ⟨_, _, nOut, ys⟩,
      ⟨rfl, rfl, (absurd · h'), hys⟩, ⟨rfl, rfl⟩, hmeet⟩

/-- Two references are apart exactly if their pieces are. -/
theorem apart_singleton_iff {r s : Nat} :
    sc.Apart depth [r] [s] ↔
      ∃ nOut x y, sc.HasPiece depth nOut r x ∧ sc.HasPiece depth nOut s y ∧
      sc.PiecesApart depth nOut x y := by
  rw [apart_iff_pieces (by simp) (by simp)]
  simp only [List.forall₂_cons_left_iff, List.forall₂_nil_left_iff]
  constructor
  · rintro ⟨nOut, _, _, ⟨x, _, hx, rfl, rfl⟩, ⟨y, _, hy, rfl, rfl⟩, hmeet⟩
    exact ⟨nOut, x, y, hx, hy, hmeet x (by simp) y (by simp)⟩
  · rintro ⟨nOut, x, y, hx, hy, hmeet⟩
    exact ⟨nOut, [x], [y], ⟨x, [], hx, rfl, rfl⟩, ⟨y, [], hy, rfl, rfl⟩, by simpa using hmeet⟩

/-- Lists of references are apart if each reference of one is apart from each of the other. -/
theorem apart_iff (h : refs ≠ []) (h' : refs' ≠ []) :
    sc.Apart depth refs refs' ↔ ∀ r ∈ refs, ∀ s ∈ refs', sc.Apart depth [r] [s] := by
  rw [apart_iff_pieces h h']
  simp only [apart_singleton_iff]
  constructor
  · rintro ⟨nOut, xs, ys, hxs, hys, hmeet⟩ r hr s hs
    obtain ⟨x, hx, hrx⟩ := hxs.exists_of_mem_left hr
    obtain ⟨y, hy, hsy⟩ := hys.exists_of_mem_left hs
    exact ⟨nOut, x, y, hrx, hsy, hmeet x hx y hy⟩
  · intro hapart
    obtain ⟨r₀, hr₀⟩ := List.exists_mem_of_ne_nil _ h
    obtain ⟨s₀, hs₀⟩ := List.exists_mem_of_ne_nil _ h'
    obtain ⟨nOut, x₀, y₀, hx₀, hy₀, -⟩ := hapart r₀ hr₀ s₀ hs₀
    -- all references have as many outputs as the first one
    have hxs : ∀ r ∈ refs, ∃ x, sc.HasPiece depth nOut r x := by
      intro r hr
      obtain ⟨n, x, y, hx, hy, -⟩ := hapart r hr s₀ hs₀
      obtain rfl := (hy.unique hy₀).1
      exact ⟨x, hx⟩
    have hys : ∀ s ∈ refs', ∃ y, sc.HasPiece depth nOut s y := by
      intro s hs
      obtain ⟨n, x, y, hx, hy, -⟩ := hapart r₀ hr₀ s hs
      obtain rfl := (hx.unique hx₀).1
      exact ⟨y, hy⟩
    obtain ⟨xs, hxs⟩ := List.exists_forall₂_of_forall hxs
    obtain ⟨ys, hys⟩ := List.exists_forall₂_of_forall hys
    refine ⟨nOut, xs, ys, hxs, hys, fun x hx y hy => ?_⟩
    obtain ⟨r, hr, hrx⟩ := hxs.exists_of_mem_right hx
    obtain ⟨s, hs, hsy⟩ := hys.exists_of_mem_right hy
    obtain ⟨n, x', y', hx', hy', hmeet⟩ := hapart r hr s hs
    obtain ⟨rfl, rfl⟩ := hx'.unique hrx
    obtain ⟨-, rfl⟩ := hy'.unique hsy
    exact hmeet

/-- For the references to an array, what the engine finds apart for fixed outer loops it also finds
apart for more fixed loops, up to the tile loops, and in either order.  This is so of the accesses
themselves; an engine that does not settle every question need not follow them. -/
def Steady (sc : Scope) (name : String) : Prop :=
  ∀ r ∈ sc.referencesTo name, ∀ s ∈ sc.referencesTo name, ∀ d' ≤ sc.schedule.sharedLen, ∀ d ≤ d',
    sc.Apart d [r] [s] → sc.Apart d' [r] [s] ∧ sc.Apart d' [s] [r]

instance (sc : Scope) (name : String) : Decidable (sc.Steady name) := by
  unfold Steady
  infer_instance

/-- The effective depth is not more than the depth. -/
theorem effectiveDepth_le (sc : Scope) (d : Nat) : sc.effectiveDepth d ≤ d := by
  induction d with
  | zero => exact le_rfl
  | succ d ih =>
      unfold effectiveDepth
      split
      · exact ih.trans (Nat.le_succ d)
      · exact le_rfl

/-- A coordinate that varies is within the effective depth. -/
theorem lt_effectiveDepth {d j : Nat} (hj : j < d) (hvaries : sc.schedule.isConstantDim j = false) :
    j < sc.effectiveDepth d := by
  induction d with
  | zero => omega
  | succ d ih =>
      unfold effectiveDepth
      split
      · next hconst =>
        have hne : j ≠ d := fun heq => by simp [← heq, hvaries] at hconst
        exact ih (by omega)
      · exact hj

end Scope

namespace Group

variable {sc : Scope} {name : String} {gs gs' : List Group} {a b c g g' : Group} {d d' : Nat}

theorem overlap_eq_false_iff : overlap sc d a b = .ok false ↔ sc.Apart d a.refs b.refs := Iff.rfl

/-! ## members -/

/-- The group has references, and they are to the array. -/
structure Member (sc : Scope) (name : String) (g : Group) : Prop where
  nonempty : g.refs ≠ []
  refs : ∀ id ∈ g.refs, id ∈ sc.referencesTo name

/-- Whether a group is one of the array depends on its references only. -/
theorem Member.of_core (h : Member sc name g) (hcore : g'.core = g.core) : Member sc name g' := by
  have hrefs := refs_of_core hcore
  exact ⟨hrefs ▸ h.nonempty, hrefs ▸ h.refs⟩

/-- A merged group has the references of both. -/
theorem mem_refs_of_merge (hc : c.core = (merge sc a b).core) {id : Nat} :
    id ∈ c.refs ↔ id ∈ a.refs ∨ id ∈ b.refs := by
  have hperm : c.refs.Perm (a.refs ++ b.refs) := refs_of_core hc ▸ Sorted.perm_sortBy _ _
  rw [hperm.mem_iff, List.mem_append]

/-- Merged groups of an array are one of the array. -/
theorem Member.merge (ha : Member sc name a) (hb : Member sc name b)
    (hc : c.core = (Group.merge sc a b).core) : Member sc name c := by
  obtain ⟨id, hid⟩ := List.exists_mem_of_ne_nil _ ha.nonempty
  refine ⟨List.ne_nil_of_mem ((mem_refs_of_merge hc).mpr (Or.inl hid)), fun id hid => ?_⟩
  exact ((mem_refs_of_merge hc).mp hid).elim (ha.refs id) (hb.refs id)

/-- A reference to the array makes a group of it. -/
theorem member_of_ofReference {id : Nat} (hid : id ∈ sc.referencesTo name)
    (h : ofReference sc id = .ok g) : Member sc name g := by
  simp only [ofReference, Outcome.bind_eq_ok, Outcome.pure_eq_ok] at h
  obtain ⟨r, -, array, -, rfl⟩ := h
  exact ⟨by simp, by simpa using hid⟩

/-- Steady answers for references give steady answers for groups. -/
theorem Member.apart (ha : Member sc name a) (hb : Member sc name b) (hsteady : sc.Steady name)
    (hd : d ≤ d') (hd' : d' ≤ sc.schedule.sharedLen) (h : sc.Apart d a.refs b.refs) :
    sc.Apart d' a.refs b.refs ∧ sc.Apart d' b.refs a.refs := by
  rw [Scope.apart_iff ha.nonempty hb.nonempty] at h ⊢
  rw [Scope.apart_iff hb.nonempty ha.nonempty]
  have hsingle : ∀ r ∈ a.refs, ∀ s ∈ b.refs, sc.Apart d' [r] [s] ∧
      sc.Apart d' [s] [r] := fun r hr s hs =>
    hsteady r (ha.refs r hr) s (hb.refs s hs) d' hd' d hd (h r hr s hs)
  exact ⟨fun r hr s hs => (hsingle r hr s hs).1, fun s hs r hr => (hsingle r hr s hs).2⟩

/-- A merged group is apart from what both of its parts are apart from. -/
theorem Member.apart_merge (ha : Member sc name a) (hb : Member sc name b) (hg : Member sc name g)
    (hc : c.core = (Group.merge sc a b).core) (hag : sc.Apart d a.refs g.refs)
    (hbg : sc.Apart d b.refs g.refs) : sc.Apart d c.refs g.refs := by
  rw [Scope.apart_iff ha.nonempty hg.nonempty] at hag
  rw [Scope.apart_iff hb.nonempty hg.nonempty] at hbg
  rw [Scope.apart_iff (ha.merge hb hc).nonempty hg.nonempty]
  exact fun r hr => ((mem_refs_of_merge hc).mp hr).elim (hag r) (hbg r)

/-! ## levels of copies -/

theorem copyLevel_of_lastOf {n : Nat} (h : g.lastShared = lastOf n) : g.copyLevel = n := by
  simp only [copyLevel, h, lastOf]
  split
  · next hzero => rw [hzero, Option.elim_none]
  · simp only [Option.elim_some]
    omega

/-- Copies are inside of the host loops and outside of the thread loops.  Copies of a shared tile
are outside of the tile loops at the end that are constant. -/
structure Leveled (sc : Scope) (g : Group) : Prop where
  tileFirst_le : sc.schedule.tileFirst ≤ g.copyLevel
  le_sharedLen : g.copyLevel ≤ sc.schedule.sharedLen
  tiled : g.sharedTile.isSome = true →
    g.copyLevel ≤ max sc.schedule.tileFirst (sc.effectiveDepth sc.schedule.sharedLen)

/-- The level of the copies is chosen with the shared tile. -/
theorem lastShared_of_computeBounds (h : computeBounds sc g = .ok g') :
    g'.lastShared = lastSharedOf sc g'.sharedTile := by
  simp only [computeBounds, Outcome.bind_eq_ok] at h
  obtain ⟨array, -, h⟩ := h
  split at h
  · rw [Outcome.pure_eq_ok] at h
    rw [← h]
    rfl
  split at h
  · rw [Outcome.pure_eq_ok] at h
    rw [← h]
    rfl
  simp only [Outcome.bind_eq_ok] at h
  obtain ⟨reuse, -, sharedTile, -, privateTile, -, h⟩ := h
  split at h
  · simp at h
  · rw [Outcome.pure_eq_ok] at h
    rw [← h]

/-- After choosing tiles, the copies of a group are where they can be. -/
theorem leveled_of_computeBounds (h : computeBounds sc g = .ok g') : Leveled sc g' := by
  have htile := (placed_of_computeBounds h).sharedTile
  have hlast := lastShared_of_computeBounds h
  have hshared : sc.schedule.tileFirst ≤ sc.schedule.sharedLen := by
    unfold KernelSchedule.sharedLen
    omega
  cases ht : g'.sharedTile with
  | none =>
      rw [ht] at hlast
      have hlevel := copyLevel_of_lastOf hlast
      exact ⟨hlevel ▸ hshared, hlevel.le, by simp [ht]⟩
  | some t =>
      obtain ⟨-, -, acc, hacc, hinfer⟩ := htile t ht
      rw [ht] at hlast
      cases hdeepest : t.deepestOuter? sc.schedule.tileFirst fun _ => true with
      | none =>
          have hlevel := copyLevel_of_lastOf (g := g') (n := sc.schedule.tileFirst)
            (by simp [hlast, lastSharedOf, hdeepest])
          exact ⟨hlevel.ge, hlevel ▸ hshared, fun _ => hlevel ▸ le_max_left _ _⟩
      | some j =>
          have hlevel : g'.copyLevel = j + 1 := by simp [copyLevel, hlast, lastSharedOf, hdeepest]
          obtain ⟨hge, hlt, -⟩ := Tile.deepestOuter?_eq_some hdeepest
          rw [(Tile.infer?_eq_ok hinfer).2, (Scope.access_eq_ok_iff.mp hacc).2.1] at hlt
          have hvaries : sc.schedule.isConstantDim j = false := by
            by_contra hconst
            have hinvolves := Tile.involves_of_deepestOuter? hdeepest
            rw [Scope.not_involves_constant hacc hinfer hlt (by simpa using hconst)] at hinvolves
            cases hinvolves
          have := Scope.lt_effectiveDepth hlt hvaries
          exact ⟨by omega, by omega, fun _ => by omega⟩

/-! ## groups that keep clear of writes -/

/-- The depth at which groups are told apart in the end: inside of the loops around both copies, or,
where no tile loop varies, at the depth of the first round. -/
def clearDepth (sc : Scope) (a b : Group) : Nat :=
  if sc.effectiveDepth sc.schedule.sharedLen ≤ sc.schedule.tileFirst then
    sc.effectiveDepth sc.schedule.sharedLen
  else min a.copyLevel b.copyLevel

/-- If one of the groups writes, they are apart, in either order. -/
def Clear (sc : Scope) (a b : Group) : Prop := (a.write || b.write) = true →
  sc.Apart (clearDepth sc a b) a.refs b.refs ∧ sc.Apart (clearDepth sc a b) b.refs a.refs

theorem clearDepth_comm (sc : Scope) (a b : Group) : clearDepth sc a b = clearDepth sc b a := by
  rw [clearDepth, clearDepth, min_comm]

/-- Groups are told apart inside of loops that are around both copies. -/
theorem clearDepth_le (ha : Leveled sc a) (hb : Leveled sc b) :
    clearDepth sc a b ≤ min a.copyLevel b.copyLevel := by
  unfold clearDepth
  split
  · next hle => exact hle.trans (le_min ha.tileFirst_le hb.tileFirst_le)
  · exact le_rfl

/-- Groups are told apart outside of the thread loops. -/
theorem clearDepth_le_sharedLen (ha : Leveled sc a) (hb : Leveled sc b) :
    clearDepth sc a b ≤ sc.schedule.sharedLen :=
  (clearDepth_le ha hb).trans ((min_le_left _ _).trans ha.le_sharedLen)

/-- A group with a shared tile is told apart outside of the constant tile loops at the end. -/
theorem clearDepth_le_effective (ha : Leveled sc a) (htile : a.sharedTile.isSome = true)
    (b : Group) : clearDepth sc a b ≤ sc.effectiveDepth sc.schedule.sharedLen := by
  have htiled := ha.tiled htile
  unfold clearDepth
  split <;> omega

/-- A group of the array whose copies are where they can be. -/
structure Fits (sc : Scope) (name : String) (g : Group) : Prop
    extends Member sc name g, Leveled sc g

/-- Merged groups that fit make one that fits. -/
theorem Fits.merge (ha : Fits sc name a) (hb : Fits sc name b)
    (h : computeBounds sc (Group.merge sc a b) = .ok c) : Fits sc name c :=
  ⟨ha.toMember.merge hb.toMember (core_of_computeBounds h), leveled_of_computeBounds h⟩

theorem Clear.symm (h : Clear sc a b) : Clear sc b a := fun hwrite =>
  clearDepth_comm sc a b ▸ (h (Bool.or_comm _ _ ▸ hwrite)).symm

/-- In a steady scope, groups that are apart in one order are clear of each other. -/
theorem Clear.of_apart (hsteady : sc.Steady name) (ha : Fits sc name a) (hb : Fits sc name b)
    (h : (a.write || b.write) = true → sc.Apart (clearDepth sc a b) a.refs b.refs) :
    Clear sc a b := fun hwrite =>
  ha.toMember.apart hb.toMember hsteady le_rfl
    (clearDepth_le_sharedLen ha.toLeveled hb.toLeveled) (h hwrite)

/-- Clear groups stay apart further in. -/
theorem Clear.apart (hsteady : sc.Steady name) (ha : Fits sc name a) (hb : Fits sc name b)
    (h : Clear sc a b) (hwrite : (a.write || b.write) = true) (hd : clearDepth sc a b ≤ d)
    (hle : d ≤ sc.schedule.sharedLen) : sc.Apart d a.refs b.refs :=
  (ha.toMember.apart hb.toMember hsteady hd hle (h hwrite).1).1

/-- Groups with overlapping shared tiles do not write. -/
theorem Clear.write_eq_false (hsteady : sc.Steady name) (ha : Fits sc name a) (hb : Fits sc name b)
    (h : Clear sc a b) (htile : a.sharedTile.isSome = true)
    (hoverlap : overlap sc (sc.effectiveDepth sc.schedule.sharedLen) a b = .ok true) :
    (a.write || b.write) = false := by
  by_contra hwrite
  have hapart := h.apart hsteady ha hb (Bool.eq_true_of_not_eq_false hwrite)
    (clearDepth_le_effective ha.toLeveled htile b) (sc.effectiveDepth_le _)
  rw [← overlap_eq_false_iff, hoverlap] at hapart
  cases hapart

/-- Groups with deeper copies are told apart at a depth that is not smaller. -/
theorem clearDepth_mono
    (h : sc.effectiveDepth sc.schedule.sharedLen ≤ sc.schedule.tileFirst ∨
      a.copyLevel ≤ c.copyLevel)
    (g : Group) : clearDepth sc a g ≤ clearDepth sc c g := by
  unfold clearDepth
  split <;> omega

/-- The union of groups that do not write is clear of what both are clear of, if its copies are no
further out. -/
theorem Clear.merge (hsteady : sc.Steady name) (ha : Fits sc name a) (hb : Fits sc name b)
    (hg : Fits sc name g) (hc : Fits sc name c) (hcore : c.core = (Group.merge sc a b).core)
    (hread : (a.write || b.write) = false) (hlevel : clearDepth sc a g ≤ clearDepth sc c g)
    (hlevel' : clearDepth sc b g ≤ clearDepth sc c g) (hag : Clear sc a g) (hbg : Clear sc b g) :
    Clear sc c g := by
  refine .of_apart hsteady hc hg fun hwrite => ?_
  have hcwrite : c.write = (a.write || b.write) := (congrArg Group.write hcore :)
  have hgwrite : g.write = true := by simpa [hcwrite, hread] using hwrite
  have hle := clearDepth_le_sharedLen hc.toLeveled hg.toLeveled
  exact ha.toMember.apart_merge hb.toMember hg.toMember hcore
    (hag.apart hsteady ha hg (by simp [hgwrite]) hlevel hle)
    (hbg.apart hsteady hb hg (by simp [hgwrite]) hlevel' hle)

/-! ## rounds of merging -/

/-- Merging ends where no pair can be merged. -/
theorem mergeRounds_of_joinFirst {join : Group → Group → Outcome MapError (Option (Group × Unit))}
    (n : Nat) (h : joinFirst join gs = .ok none) : mergeRounds join n gs = .ok gs := by
  cases n with
  | zero => rfl
  | succ n =>
      rw [mergeRounds, h]
      rfl

/-- Groups are not merged if none of them writes or they do not overlap. -/
theorem mergeWriting_eq_none {depthOf : Group → Group → Nat}
    {finish : Group → Outcome MapError Group}
    (h : (a.write || b.write) = true → overlap sc (depthOf a b) a b = .ok false) :
    mergeWriting sc depthOf finish a b = .ok none := by
  unfold mergeWriting
  split
  · rfl
  · next hwrite =>
    rw [h (by simpa only [Bool.not_eq_true', Bool.not_eq_false] using hwrite)]
    rfl

/-- Groups of the array that are clear of each other. -/
structure Settled (sc : Scope) (name : String) (gs : List Group) : Prop where
  fits : ∀ g ∈ gs, Fits sc name g
  clear : gs.Pairwise (Clear sc)

/-- Settled groups at different positions are clear of each other, in either order. -/
theorem Settled.clear_of_ne (h : Settled sc name gs) {i j : Nat} (hi : gs[i]? = some a)
    (hj : gs[j]? = some b) (hne : i ≠ j) : Clear sc a b := by
  have hpairwise := List.pairwise_iff_getElem.mp h.clear
  obtain ⟨hilt, rfl⟩ := List.getElem?_eq_some_iff.mp hi
  obtain ⟨hjlt, rfl⟩ := List.getElem?_eq_some_iff.mp hj
  rcases Nat.lt_or_gt_of_ne hne with hlt | hgt
  · exact hpairwise i j hilt hjlt hlt
  · exact (hpairwise j i hjlt hilt hgt).symm

/-- Merging leaves settled groups alone. -/
theorem Settled.mergeOnLastShared_eq (hsteady : sc.Steady name) (h : Settled sc name gs) :
    mergeOnLastShared sc gs = .ok gs := by
  refine mergeRounds_of_joinFirst _
    (joinFirst_of_pairwise (h.clear.imp_of_mem fun ha hb hclear => ?_))
  refine mergeWriting_eq_none fun hwrite => ?_
  have hfa := h.fits _ ha
  have hfb := h.fits _ hb
  exact hclear.apart hsteady hfa hfb hwrite (clearDepth_le hfa.toLeveled hfb.toLeveled)
    ((min_le_left _ _).trans hfa.le_sharedLen)

/-- Merging on copy levels keeps groups fitting. -/
theorem fits_of_mergeOnLastShared (hfits : ∀ g ∈ gs, Fits sc name g)
    (h : mergeOnLastShared sc gs = .ok gs') : ∀ g ∈ gs', Fits sc name g :=
  keeps_of_mergeRounds (Q := fun gs => ∀ g ∈ gs, Fits sc name g)
    (fun _ _ _ hfits => forall_of_joinFirst
      (fun _ _ _ _ ha hb hc => ha.merge hb (mergeWriting_eq_ok hc)) hfits) hfits h

/-- Groups are settled when merging stops.  Where no tile loop varies, they have to be clear
before. -/
theorem settled_of_mergeOnLastShared (hsteady : sc.Steady name) (hfits : ∀ g ∈ gs, Fits sc name g)
    (hstart : sc.effectiveDepth sc.schedule.sharedLen ≤ sc.schedule.tileFirst →
      gs.Pairwise (Clear sc))
    (h : mergeOnLastShared sc gs = .ok gs') : Settled sc name gs' := by
  by_cases hconst : sc.effectiveDepth sc.schedule.sharedLen ≤ sc.schedule.tileFirst
  · have hsettled : Settled sc name gs := ⟨hfits, hstart hconst⟩
    rw [hsettled.mergeOnLastShared_eq hsteady] at h
    exact Except.ok.inj h ▸ hsettled
  · have hfits' := fits_of_mergeOnLastShared hfits h
    refine ⟨hfits', (pairwise_of_mergeOnLastShared h).imp_of_mem fun ha hb hab => ?_⟩
    refine .of_apart hsteady (hfits' _ ha) (hfits' _ hb) fun hwrite => ?_
    rw [clearDepth, if_neg hconst]
    exact hab hwrite

/-! ## rounds of coalescing -/

/-- Groups are merged for a smaller tile only if they have shared tiles and overlap. -/
theorem overlap_of_coalescePair {elementSize : Nat} {moved : Bool}
    (h : coalescePair sc elementSize d a b = .ok (some (c, moved))) :
    a.sharedTile.isSome = true ∧ overlap sc d a b = .ok true := by
  unfold coalescePair at h
  split at h
  · next ha _ =>
    simp only [Outcome.bind_eq_ok, Outcome.ofEngine_eq_ok] at h
    obtain ⟨overlapping, hoverlap, h⟩ := h
    cases overlapping with
    | true => exact ⟨by simp [ha], hoverlap⟩
    | false => simp at h
  · simp at h

/-- Merging a pair for a smaller tile keeps groups fitting. -/
theorem fits_of_coalescePair {elementSize : Nat} {moved : Bool} (hfits : ∀ g ∈ gs, Fits sc name g)
    (h : joinFirst (coalescePair sc elementSize d) gs = .ok (some (gs', moved))) :
    ∀ g ∈ gs', Fits sc name g :=
  forall_of_joinFirst (fun _ _ _ _ ha hb hc => ha.merge hb (coalescePair_eq_ok hc).1) hfits h

/-- A union of shared tiles keeps groups clear, if copies do not move or no tile loop varies. -/
theorem Settled.coalescePair {elementSize : Nat} {moved : Bool} (hsteady : sc.Steady name)
    (h : Settled sc name gs)
    (hgs' : joinFirst (coalescePair sc elementSize (sc.effectiveDepth sc.schedule.sharedLen)) gs =
      .ok (some (gs', moved)))
    (hmoved : sc.effectiveDepth sc.schedule.sharedLen ≤ sc.schedule.tileFirst ∨ moved = false) :
    Settled sc name gs' := by
  have hfits' := fits_of_coalescePair h.fits hgs'
  obtain ⟨a, b, c, rest, hperm, hperm', hc⟩ := joinFirst_eq_ok hgs'
  obtain ⟨hbounds, -, hlevels⟩ := coalescePair_eq_ok hc
  obtain ⟨htile, hoverlap⟩ := overlap_of_coalescePair hc
  have hsymm : ∀ {a b : Group}, Clear sc a b → Clear sc b a := fun h => h.symm
  have hclear := h.clear
  rw [hperm.pairwise_iff hsymm, List.pairwise_cons, List.pairwise_cons] at hclear
  obtain ⟨ha, hb, hrest⟩ := hclear
  have hfa := h.fits a (hperm.mem_iff.mpr (by simp))
  have hfb := h.fits b (hperm.mem_iff.mpr (by simp))
  have hread := (ha b (by simp)).write_eq_false hsteady hfa hfb htile hoverlap
  refine ⟨hfits', ?_⟩
  rw [hperm'.pairwise_iff hsymm, List.pairwise_cons]
  refine ⟨fun g hg => ?_, hrest⟩
  exact .merge hsteady hfa hfb (h.fits g (hperm.mem_iff.mpr (by simp [hg])))
    (hfits' c (hperm'.mem_iff.mpr (by simp))) (core_of_computeBounds hbounds) hread
    (clearDepth_mono (hmoved.imp_right fun h => (hlevels h).1) g)
    (clearDepth_mono (hmoved.imp_right fun h => (hlevels h).2) g) (ha g (by simp [hg])) (hb g hg)

/-- In a steady scope, merging for smaller tiles keeps groups settled. -/
theorem Settled.coalesceShared (hsteady : sc.Steady name) (h : Settled sc name gs)
    (hgs' : coalesceShared sc gs = .ok gs') : Settled sc name gs' := by
  unfold Group.coalesceShared at hgs'
  split at hgs'
  · exact Except.ok.inj hgs' ▸ h
  · simp only [Outcome.bind_eq_ok] at hgs'
    obtain ⟨array, -, hgs'⟩ := hgs'
    refine keeps_of_coalesceRounds
      (fun _ _ h hround => h.coalescePair hsteady hround (Or.inr rfl)) ?_ h hgs'
    intro gs gs₁ gs' h hround hmerged
    refine settled_of_mergeOnLastShared hsteady (fits_of_coalescePair h.fits hround)
      (fun hconst => ?_) hmerged
    exact (h.coalescePair hsteady hround (Or.inl hconst)).clear

/-- As many rounds as there are groups are enough. -/
theorem joinFirst_of_coalesceRounds {elementSize n : Nat} (hn : gs.length ≤ n)
    (h : coalesceRounds sc elementSize d n gs = .ok gs') :
    joinFirst (coalescePair sc elementSize d) gs' = .ok none := by
  induction n generalizing gs with
  | zero =>
      simp only [coalesceRounds, Except.ok.injEq] at h
      rw [← h, List.length_eq_zero_iff.mp (Nat.le_zero.mp hn)]
      rfl
  | succ n ih =>
      simp only [coalesceRounds, Outcome.bind_eq_ok] at h
      obtain ⟨joined, hjoined, h⟩ := h
      cases joined with
      | none =>
          rw [Outcome.pure_eq_ok] at h
          exact h ▸ hjoined
      | some round =>
          obtain ⟨gs₁, moved⟩ := round
          have hlen := length_of_joinFirst hjoined
          cases moved with
          | false => exact ih (by omega) h
          | true =>
              simp only [Outcome.bind_eq_ok] at h
              obtain ⟨gs₂, hgs₂, h⟩ := h
              have hmerged : gs₂.length ≤ gs₁.length :=
                keeps_of_mergeRounds (Q := fun gs => gs.length ≤ gs₁.length)
                  (fun _ _ _ hle hround => by have := length_of_joinFirst hround; omega) le_rfl hgs₂
              exact ih (by omega) h

/-- Whether groups coalesce does not depend on their numbers. -/
theorem coalescePair_number {elementSize : Nat} (i j : Nat)
    (h : coalescePair sc elementSize d a b = .ok none) :
    coalescePair sc elementSize d { a with nr := i } { b with nr := j } = .ok none := by
  unfold coalescePair at h ⊢
  dsimp only
  split
  · next ha hb =>
    simp only [ha, hb, Outcome.bind_eq_ok] at h ⊢
    obtain ⟨overlapping, hoverlap, h⟩ := h
    refine ⟨overlapping, hoverlap, ?_⟩
    cases overlapping with
    | false => exact h
    | true =>
        simp only [if_true, Outcome.bind_eq_ok] at h ⊢
        obtain ⟨merged, hmerged, h⟩ := h
        refine ⟨_, computeBounds_of_core (g := merge sc a b) rfl hmerged, ?_⟩
        dsimp only
        split
        · next ht =>
          simp only [ht] at h
          split
          · next hlt => simp [hlt] at h
          · rfl
        · rfl
  · rfl

/-- Coalescing the groups again changes nothing. -/
theorem coalesceShared_number (hname : ∀ g ∈ gs, g.array = name)
    (hname' : ∀ g ∈ gs', g.array = name) (h : coalesceShared sc gs = .ok gs') :
    coalesceShared sc (number gs') = .ok (number gs') := by
  unfold coalesceShared at h
  split at h
  · rw [← Except.ok.inj h]
    rfl
  · next g gs =>
    simp only [Outcome.bind_eq_ok] at h
    obtain ⟨array, harray, h⟩ := h
    rw [hname g (by simp)] at harray
    have hnone := joinFirst_of_pairwise
      (pairwise_number (fun _ _ i j hab => coalescePair_number i j hab)
        (pairwise_of_joinFirst_eq_none (joinFirst_of_coalesceRounds le_rfl h)))
    unfold coalesceShared
    split
    · next hnil => rw [hnil]
    · next g' rest hcons =>
      have hg' : g'.array = name := by
        have hmem : g'.core ∈ (number gs').map core := List.mem_map_of_mem (by simp [hcons])
        rw [map_core_number] at hmem
        obtain ⟨g'', hg'', hcore⟩ := List.mem_map.mp hmem
        exact (congrArg Group.array hcore :).symm.trans (hname' g'' hg'')
      simp only [hg', Outcome.bind_eq_ok]
      refine ⟨array, harray, ?_⟩
      cases (number gs').length with
      | zero => rfl
      | succ n =>
          rw [coalesceRounds, hnone]
          rfl

/-! ## groups of an array -/

theorem fits_of_computeBounds (hg : Member sc name g) (h : computeBounds sc g = .ok g') :
    Fits sc name g' :=
  ⟨hg.of_core (core_of_computeBounds h), leveled_of_computeBounds h⟩

/-- The groups that merging inside of the loops around the copies starts from. -/
theorem fits_of_mergeOverlapping {gs₁ gs₂ : List Group}
    (h₁ : (sc.referencesTo name).mapM (ofReference sc) = .ok gs₁)
    (h₂ : mergeOverlapping sc gs₁ = .ok gs₂) (h₃ : gs₂.mapM (computeBounds sc) = .ok gs) :
    ∀ g ∈ gs, Fits sc name g := by
  have hstart : ∀ g ∈ gs₁, Member sc name g := by
    intro g hg
    obtain ⟨id, hid, hofRef⟩ := Outcome.exists_of_mem_of_mapM h₁ hg
    exact member_of_ofReference hid hofRef
  have hmerged : ∀ g ∈ gs₂, Member sc name g :=
    keeps_of_mergeRounds (Q := fun gs => ∀ g ∈ gs, Member sc name g)
      (fun _ _ _ hmember => forall_of_joinFirst
        (fun _ _ _ _ ha hb hc =>
          ha.merge hb (core_of_mergeWriting (fun g g' hg => by rw [Except.ok.inj hg]) hc)) hmember)
      hstart h₂
  intro g hg
  obtain ⟨g₀, hg₀, hbounds⟩ := Outcome.exists_of_mem_of_mapM h₃ hg
  exact fits_of_computeBounds (hmerged g₀ hg₀) hbounds

/-- Where no tile loop varies, the groups are clear from the first round on. -/
theorem clear_of_mergeOverlapping {gs₁ gs₂ : List Group} (hsteady : sc.Steady name)
    (hfits : ∀ g ∈ gs, Fits sc name g) (h₂ : mergeOverlapping sc gs₁ = .ok gs₂)
    (h₃ : gs₂.mapM (computeBounds sc) = .ok gs)
    (hconst : sc.effectiveDepth sc.schedule.sharedLen ≤ sc.schedule.tileFirst) :
    gs.Pairwise (Clear sc) := by
  have hround : gs₂.Pairwise fun a b => (a.write || b.write) = true →
      sc.Apart (sc.effectiveDepth sc.schedule.sharedLen) a.refs b.refs :=
    (pairwise_of_joinFirst_eq_none (joinFirst_of_mergeRounds le_rfl h₂)).imp
      overlap_of_mergeWriting_eq_none
  -- tiles have no part in it
  have hcores : (gs.map core).Pairwise fun a b => (a.write || b.write) = true →
      sc.Apart (sc.effectiveDepth sc.schedule.sharedLen) a.refs b.refs := by
    rw [map_core_of_computeBounds h₃]
    exact List.pairwise_map.mpr hround
  refine (List.pairwise_map.mp hcores).imp_of_mem fun ha hb hab => ?_
  refine .of_apart hsteady (hfits _ ha) (hfits _ hb) ?_
  rw [clearDepth, if_pos hconst]
  exact hab

theorem Settled.number (h : Settled sc name gs) : Settled sc name (number gs) := by
  refine ⟨fun g hg => ?_, pairwise_number (fun _ _ _ _ hab => hab) h.clear⟩
  obtain ⟨⟨nr, g₀⟩, hmem, rfl⟩ := List.mem_map.mp hg
  have hg₀ := h.fits g₀ (List.of_mem_zip hmem).2
  exact ⟨⟨hg₀.nonempty, hg₀.refs⟩, ⟨hg₀.tileFirst_le, hg₀.le_sharedLen, hg₀.tiled⟩⟩

/-- In a steady scope, the groups made from the references to an array are settled. -/
theorem settled_of_ofReferences (hsteady : sc.Steady name)
    (h : ofReferences sc (sc.referencesTo name) = .ok gs) : Settled sc name gs := by
  simp only [ofReferences, Outcome.bind_eq_ok, Outcome.pure_eq_ok] at h
  obtain ⟨gs₁, h₁, gs₂, h₂, gs₃, h₃, gs₄, h₄, gs₅, h₅, rfl⟩ := h
  have hfits := fits_of_mergeOverlapping h₁ h₂ h₃
  have hmerged := settled_of_mergeOnLastShared hsteady hfits
    (clear_of_mergeOverlapping hsteady hfits h₂ h₃) h₄
  exact (hmerged.coalesceShared hsteady h₅).number

/-- Merging the final groups for smaller tiles once more changes nothing. -/
theorem coalesceShared_of_ofReferences (hnodup : (sc.refs.map (·.reference.id)).Nodup)
    (h : ofReferences sc (sc.referencesTo name) = .ok gs) : coalesceShared sc gs = .ok gs := by
  simp only [ofReferences, Outcome.bind_eq_ok, Outcome.pure_eq_ok] at h
  obtain ⟨gs₁, h₁, gs₂, h₂, gs₃, h₃, gs₄, h₄, gs₅, h₅, rfl⟩ := h
  have hmerged :=
    (Partitions.bounded (Scope.exists_of_mem_referencesTo hnodup) h₁ h₂ h₃).mergeOnLastShared h₄
  exact coalesceShared_number (fun g hg => (hmerged.describes g hg).array)
    (fun g hg => ((hmerged.coalesceShared h₅).describes g hg).array) h₅

/-- Clear groups are apart at the depth of the first round, unless both are copied inside of
constant tile loops while an outer one varies. -/
theorem clearDepth_le_effective_of (ha : Leveled sc a) (hb : Leveled sc b)
    (h : a.sharedTile.isSome = true ∨ b.sharedTile.isSome = true ∨
      sc.effectiveDepth sc.schedule.sharedLen = sc.schedule.sharedLen ∨
        sc.effectiveDepth sc.schedule.sharedLen ≤ sc.schedule.tileFirst) :
    clearDepth sc a b ≤ sc.effectiveDepth sc.schedule.sharedLen := by
  rcases h with htile | htile | hvaries | hconst
  · exact clearDepth_le_effective ha htile b
  · exact clearDepth_comm sc a b ▸ clearDepth_le_effective hb htile a
  · rw [hvaries]
    exact clearDepth_le_sharedLen ha hb
  · rw [clearDepth, if_pos hconst]

/-- Coalescing the shared tiles of the groups of an array again changes nothing.  If the answers of
the engine are steady, neither does merging inside of the loops around the copies, and groups of
which one writes are apart there.  They are apart for fixed tile loops too, if one of them has a
shared tile, the last tile loop varies or none does; in the last two cases merging them for fixed
tile loops changes nothing either. -/
theorem grouping_is_stable {p : Program} {o : Options} {k : KernelSchedule} {formed : List Group}
    (hsc : sc = Scope.ofSchedule p o k) (hnodup : (sc.refs.map (·.reference.id)).Nodup)
    (hall : all sc = .ok formed) (hgs : gs = formed.filter (·.array == name)) :
    coalesceShared sc gs = .ok gs ∧ (sc.Steady name → mergeOnLastShared sc gs = .ok gs ∧
      (∀ (i j : Nat) (a b : Group), gs[i]? = some a → gs[j]? = some b → i ≠ j →
        (a.write || b.write) = true →
        overlap sc (min a.copyLevel b.copyLevel) a b = .ok false ∧
          (a.sharedTile.isSome = true ∨ b.sharedTile.isSome = true ∨
            sc.effectiveDepth sc.schedule.sharedLen = sc.schedule.sharedLen ∨
              sc.effectiveDepth sc.schedule.sharedLen ≤ sc.schedule.tileFirst →
            overlap sc (sc.effectiveDepth sc.schedule.sharedLen) a b = .ok false)) ∧
      (sc.effectiveDepth sc.schedule.sharedLen = sc.schedule.sharedLen ∨
        sc.effectiveDepth sc.schedule.sharedLen ≤ sc.schedule.tileFirst →
        mergeOverlapping sc gs = .ok gs)) := by
  have hofRefs : ofReferences sc (sc.referencesTo name) = .ok gs :=
    hgs ▸ ofReferences_of_all hsc hnodup hall name
  refine ⟨coalesceShared_of_ofReferences hnodup hofRefs, fun hsteady => ?_⟩
  have hsettled := settled_of_ofReferences hsteady hofRefs
  refine ⟨hsettled.mergeOnLastShared_eq hsteady, ?_, fun hdepth => ?_⟩
  · intro i j a b hi hj hne hwrite
    have ha := hsettled.fits a (List.mem_of_getElem? hi)
    have hb := hsettled.fits b (List.mem_of_getElem? hj)
    have hclear := hsettled.clear_of_ne hi hj hne
    refine ⟨?_, fun hdepth => ?_⟩
    · exact hclear.apart hsteady ha hb hwrite (clearDepth_le ha.toLeveled hb.toLeveled)
        ((min_le_left _ _).trans ha.le_sharedLen)
    · exact hclear.apart hsteady ha hb hwrite
        (clearDepth_le_effective_of ha.toLeveled hb.toLeveled hdepth) (sc.effectiveDepth_le _)
  · refine mergeRounds_of_joinFirst _
      (joinFirst_of_pairwise (hsettled.clear.imp_of_mem fun ha hb hclear => ?_))
    refine mergeWriting_eq_none fun hwrite => ?_
    have hfa := hsettled.fits _ ha
    have hfb := hsettled.fits _ hb
    exact hclear.apart hsteady hfa hfb hwrite
      (clearDepth_le_effective_of hfa.toLeveled hfb.toLeveled (Or.inr (Or.inr hdepth)))
      (sc.effectiveDepth_le _)

/-- The groups of `alternating` stay two groups. -/
theorem alternating_grouping_is_stable :
    all alternatingScope = .ok [sourceGroup ⟨[2], 0⟩, targetGroup] ∧ alternatingScope.Steady "A" ∧
      coalesceShared alternatingScope [sourceGroup ⟨[2], 0⟩, targetGroup] =
        .ok [sourceGroup ⟨[2], 0⟩, targetGroup] ∧
      mergeOnLastShared alternatingScope [sourceGroup ⟨[2], 0⟩, targetGroup] =
        .ok [sourceGroup ⟨[2], 0⟩, targetGroup] ∧
      overlap alternatingScope 1 (sourceGroup ⟨[2], 0⟩) targetGroup = .ok false ∧
      mergeOverlapping alternatingScope [sourceGroup ⟨[2], 0⟩, targetGroup] =
        .ok [sourceGroup ⟨[2], 0⟩, targetGroup] := by
  have hsteady : alternatingScope.Steady "A" := by decide +kernel
  have hdepth : alternatingScope.effectiveDepth alternatingScope.schedule.sharedLen =
      alternatingScope.schedule.sharedLen := by decide +kernel
  obtain ⟨hcoalesce, hrest⟩ := grouping_is_stable rfl nodup_alternatingScope all_alternatingScope
    (show [sourceGroup ⟨[2], 0⟩, targetGroup] = List.filter (·.array == "A") _ by decide)
  obtain ⟨hmerge, hapart, hfixed⟩ := hrest hsteady
  have hapart := (hapart 0 1 _ _ rfl rfl (by decide) rfl).1
  exact ⟨all_alternatingScope, hsteady, hcoalesce, hmerge, hapart, hfixed (Or.inl hdepth)⟩

/-! ### groups that merge again -/

/-- A statement with one reference to `A`. -/
def touching (name : String) (iters : List String) (domain : List Constraint)
    (schedule : List Affine) (id : Nat) (use : Use) (index : Affine) : Statement :=
  ⟨name, iters, domain, schedule, [⟨id, "A", use, use == .read, [.single index]⟩]⟩

/-- One kernel for the three statements. -/
def threeSteps (s t u : Statement) (bandLen : Nat) : Program where
  params := []
  context := []
  arrays := [.ofShape "A" "float" 4 1]
  statements := [s, t, u]
  regions := [⟨[0, 1, 2], 0, bandLen, List.replicate bandLen false⟩]

/-- Tiles of one iteration in a single thread. -/
def threeStepsOptions (bandLen : Nat) : Options :=
  { Options.default with tileSizes := List.replicate bandLen 1, usePrivateMemory := false }

def threeStepsSchedule (bandLen : Nat) (statements : List StmtSchedule) : KernelSchedule where
  paramNames := []
  nProgramParam := 0
  context := []
  tileFirst := 0
  tileLen := bandLen
  nGrid := 0
  nBlock := 0
  tileSizes := List.replicate bandLen 1
  gridSizes := []
  blockSizes := []
  gridMapping := .wrap
  threadMapping := .wrap
  levels := List.replicate bandLen .tileLoop ++ List.replicate bandLen .pointLoop ++ [.inner]
  coincident := List.replicate bandLen false
  statements := statements
  stage := .scaled

def groupOfA (nr : Nat) (refs : List Nat) (write : Bool) (sharedTile : Option Tile)
    (lastShared : Nat) : Group where
  array := "A"
  nr := nr
  refs := refs
  write := write
  definiteWrite := !write
  forcePrivate := false
  sharedTile := sharedTile
  privateTile := none
  lastShared := some lastShared

/-- `S` may write `A[0]` for `i = 0`, and `T` and `U` read it for `i = 1`, `U` in a second step. -/
def staggered : Program := threeSteps
  (touching "S" ["i"] [.eq (.var 0)] [.var 0, .const 0, .const 0] 0 .write (.const 0))
  (touching "T" ["i", "j"] [.eq ⟨[1], -1⟩, .ge (.var 1), .ge ⟨[0, -1], 1⟩]
    [.var 0, .const 0, .var 1] 1 .read (.const 0))
  (touching "U" ["i"] [.eq ⟨[1], -1⟩] [.var 0, .const 1, .const 0] 2 .read (.const 0)) 2

/-- The second tile loop is constant in each statement. -/
def staggeredSchedule : KernelSchedule := threeStepsSchedule 2
  [⟨0, 0, ⟨0, 1, []⟩, [.eq (.var 0)], [.var 0, .const 0, .const 0, .const 0, .const 0]⟩,
    ⟨1, 0, ⟨0, 2, []⟩, [.eq ⟨[1], -1⟩, .ge (.var 1), .ge ⟨[0, -1], 1⟩],
      [.var 0, .const 0, .const 0, .const 0, .var 1]⟩,
    ⟨2, 0, ⟨0, 1, []⟩, [.eq ⟨[1], -1⟩], [.var 0, .const 1, .const 0, .const 0, .const 0]⟩]

def staggeredScope : Scope := .ofSchedule staggered (threeStepsOptions 2) staggeredSchedule

/-- `S` and `U` read `A[t / 2]` at even times `t`, and `T` may write `A[j - 4·i]` at time
`3·i + 1`. -/
def straddling : Program := threeSteps
  (touching "S" ["i", "k"] [.ge (.var 0), .ge ⟨[-1], 0⟩, .ge (.var 1), .ge ⟨[0, -1], 1⟩]
    [.var 0, .var 1] 0 .read ⟨[2], 0⟩)
  (touching "T" ["i", "j"] [.ge (.var 0), .ge (.var 1), .ge ⟨[0, -1], 1⟩]
    [⟨[3], 1⟩, .const 0] 1 .write ⟨[-4, 1], 0⟩)
  (touching "U" ["j", "k"] [.ge (.var 0), .ge ⟨[-1], 2⟩, .ge (.var 1), .ge ⟨[0, -1], 1⟩]
    [⟨[2], 0⟩, .var 1] 2 .read (.var 0)) 1

def straddlingSchedule : KernelSchedule := threeStepsSchedule 1
  [⟨0, 0, ⟨0, 2, []⟩, [.ge (.var 0), .ge ⟨[-1], 0⟩, .ge (.var 1), .ge ⟨[0, -1], 1⟩],
      [.var 0, .const 0, .var 1]⟩,
    ⟨1, 0, ⟨0, 2, []⟩, [.ge (.var 0), .ge (.var 1), .ge ⟨[0, -1], 1⟩],
      [⟨[3], 1⟩, .const 0, .const 0]⟩,
    ⟨2, 0, ⟨0, 2, []⟩, [.ge (.var 0), .ge ⟨[-1], 2⟩, .ge (.var 1), .ge ⟨[0, -1], 1⟩],
      [⟨[2], 0⟩, .const 0, .var 1]⟩]

def straddlingScope : Scope := .ofSchedule straddling (threeStepsOptions 1) straddlingSchedule

def straddlingReads : Group := groupOfA 0 [0, 2] false (some ⟨[⟨1, ⟨.var 0, 2⟩, none⟩], 0, 1⟩) 0

/-- Groups can merge again for two reasons.  In `staggered` the read of `T` had a copy around all
loops and so was merged with the write of `S`; the union has no tile, and its level is inside of the
constant loop, where the read of `U` is apart from it.  For fixed `i` it is not.  In `straddling`
the write of `T` was found apart from the read of `U` that comes after it; since the reads of `S`
and `U` are one group they come before the write, and the engine does not find them apart in that
order. -/
theorem grouping_again_merges_more :
    ((staggered.validate = .ok () ∧ (threeStepsOptions 2).validate = .ok () ∧
      (staggeredScope.refs.map (·.reference.id)).Nodup ∧
      KernelSchedule.build staggered ⟨[0, 1, 2], 0, 2, [false, false]⟩ (threeStepsOptions 2) =
        .ok staggeredSchedule ∧
      all staggeredScope = .ok [groupOfA 0 [0, 1] true none 1, groupOfA 1 [2] false none 1]) ∧
      staggeredScope.Steady "A" ∧ staggeredScope.effectiveDepth staggeredSchedule.sharedLen = 1 ∧
      overlap staggeredScope 1 (groupOfA 0 [0, 1] true none 1) (groupOfA 1 [2] false none 1) =
        .ok true ∧
      mergeOverlapping staggeredScope [groupOfA 0 [0, 1] true none 1, groupOfA 1 [2] false none 1] =
        .ok [groupOfA 0 [0, 1, 2] true none 1]) ∧
    ((straddling.validate = .ok () ∧ (threeStepsOptions 1).validate = .ok () ∧
      (straddlingScope.refs.map (·.reference.id)).Nodup ∧
      KernelSchedule.build straddling ⟨[0, 1, 2], 0, 1, [false]⟩ (threeStepsOptions 1) =
        .ok straddlingSchedule ∧
      all straddlingScope = .ok [straddlingReads, groupOfA 1 [1] true none 0]) ∧
      ¬ straddlingScope.Steady "A" ∧
      straddlingScope.effectiveDepth straddlingSchedule.sharedLen = 1 ∧
      overlap straddlingScope 1 straddlingReads (groupOfA 1 [1] true none 0) = .ok true ∧
      mergeOnLastShared straddlingScope [straddlingReads, groupOfA 1 [1] true none 0] =
        .ok [groupOfA 0 [0, 1, 2] true none 0]) := by
  refine ⟨by decide +kernel, by decide +kernel, fun hsteady => ?_, by decide +kernel⟩
  -- the write of `T` is apart from the read of `U`, but not the other way round
  have hapart : straddlingScope.Apart 1 [1] [2] ∧ ¬ straddlingScope.Apart 1 [2] [1] := by
    decide +kernel
  exact hapart.2 (hsteady 1 (by decide) 2 (by decide) 1 (by decide) 1 le_rfl hapart.1).2

end Group

end KernelMap
