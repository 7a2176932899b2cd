import KernelMap.Group.Budget
import KernelMap.Group.Merge
import KernelMap.Group.Unroll
import KernelMap.Proofs.References
import KernelMap.Proofs.Sorting
import Mathlib.Data.List.Perm.Lattice

/-!
# KernelMap.Proofs.Grouping

What grouping keeps.

Every round of merging replaces two groups by their union, so that the groups of an array always
are a partition of its references whose fields agree with them (`Group.Partitions`).  The other
steps only choose tiles or give them up: they leave the `core` of every group alone
(`Group.demoted_of_stages`).
-/

namespace KernelMap

/-! ## joining -/

section Join

variable {ε α β : Type} {join : α → α → Outcome ε (Option (α × β))}

/-- The second of a joined pair is taken out of the list. -/
theorem exists_append_of_joinWith {a c : α} {bs rest : List α} {x : β}
    (h : joinWith join a bs = .ok (some ((c, x), rest))) :
    ∃ mid b post, bs = mid ++ b :: post ∧ rest = mid ++ post ∧ join a b = .ok (some (c, x)) := by
  induction bs generalizing rest with
  | nil => simp [joinWith] at h
  | cons b bs ih =>
      simp only [joinWith, Outcome.bind_eq_ok] at h
      obtain ⟨joined, hjoined, h⟩ := h
      cases joined with
      | some d =>
          simp only [Outcome.pure_eq_ok, Option.some.injEq, Prod.mk.injEq] at h
          obtain ⟨rfl, rfl⟩ := h
          exact ⟨[], b, bs, rfl, rfl, hjoined⟩
      | none =>
          simp only [Outcome.bind_eq_ok] at h
          obtain ⟨found, hfound, h⟩ := h
          cases found with
          | none => simp at h
          | some d =>
              obtain ⟨⟨c', x'⟩, rest'⟩ := d
              simp only [Outcome.pure_eq_ok, Option.some.injEq, Prod.mk.injEq] at h
              obtain ⟨⟨rfl, rfl⟩, rfl⟩ := h
              obtain ⟨mid, b', post, rfl, rfl, hb'⟩ := ih hfound
              exact ⟨b :: mid, b', post, rfl, rfl, hb'⟩

/-- The result of joining a pair takes the place of the first of the two. -/
theorem exists_append_of_joinFirst {as bs : List α} {x : β}
    (h : joinFirst join as = .ok (some (bs, x))) :
    ∃ pre a mid b post c, as = pre ++ a :: (mid ++ b :: post) ∧ bs = pre ++ c :: (mid ++ post) ∧
      join a b = .ok (some (c, x)) := by
  induction as generalizing bs with
  | nil => simp [joinFirst] at h
  | cons a as ih =>
      simp only [joinFirst, Outcome.bind_eq_ok] at h
      obtain ⟨joined, hjoined, h⟩ := h
      cases joined with
      | some d =>
          simp only [Outcome.pure_eq_ok, Option.some.injEq, Prod.mk.injEq] at h
          obtain ⟨rfl, rfl⟩ := h
          obtain ⟨mid, b, post, rfl, hrest, hb⟩ := exists_append_of_joinWith hjoined
          exact ⟨[], a, mid, b, post, _, rfl, by rw [hrest]; rfl, hb⟩
      | none =>
          simp only [Outcome.bind_eq_ok] at h
          obtain ⟨found, hfound, h⟩ := h
          cases found with
          | none => simp at h
          | some d =>
              simp only [Outcome.pure_eq_ok, Option.some.injEq, Prod.mk.injEq] at h
              obtain ⟨rfl, rfl⟩ := h
              obtain ⟨pre, a', mid, b, post, c, rfl, hbs, hc⟩ := ih hfound
              exact ⟨a :: pre, a', mid, b, post, c, rfl, by rw [hbs]; rfl, hc⟩

/-- A joined pair is replaced by the result. -/
theorem joinFirst_eq_ok {as bs : List α} {x : β} (h : joinFirst join as = .ok (some (bs, x))) :
    ∃ a b c rest, as.Perm (a :: b :: rest) ∧ bs.Perm (c :: rest) ∧
      join a b = .ok (some (c, x)) := by
  obtain ⟨pre, a, mid, b, post, c, rfl, rfl, hc⟩ := exists_append_of_joinFirst h
  refine ⟨a, b, c, pre ++ (mid ++ post), ?_, List.perm_middle, hc⟩
  have hsecond : (pre ++ (mid ++ b :: post)).Perm (b :: (pre ++ (mid ++ post))) :=
    (List.perm_middle.append_left pre).trans List.perm_middle
  exact List.perm_middle.trans (hsecond.cons a)

/-- Joining one pair makes the list one shorter. -/
theorem length_of_joinFirst {as bs : List α} {x : β} (h : joinFirst join as = .ok (some (bs, x))) :
    as.length = bs.length + 1 := by
  obtain ⟨a, b, c, rest, hperm, hperm', -⟩ := joinFirst_eq_ok h
  rw [hperm.length_eq, hperm'.length_eq, List.length_cons, List.length_cons, List.length_cons]

end Join

namespace Group

variable {sc : Scope}

/-! ## choosing tiles -/

/-- The group without its number and its tiles. -/
def core (g : Group) : Group :=
  { g with nr := 0, sharedTile := none, privateTile := none, lastShared := none }

/-- Groups with the same core have the same references. -/
theorem refs_of_core {g g' : Group} (h : g'.core = g.core) : g'.refs = g.refs :=
  (congrArg Group.refs h :)

/-- Choosing tiles leaves the rest of the group as it is. -/
theorem core_of_computeBounds {g g' : Group} (h : computeBounds sc g = .ok g') :
    g'.core = g.core := by
  simp only [computeBounds, Outcome.bind_eq_ok] at h
  obtain ⟨array, -, h⟩ := h
  split at h
  · rw [Outcome.pure_eq_ok] at h
    rw [← h]
    rfl
  split at h
  · rw [Outcome.pure_eq_ok] at h
    rw [← h]
    rfl
  simp only [Outcome.bind_eq_ok] at h
  obtain ⟨reuse, -, sharedTile, -, privateTile, -, h⟩ := h
  split at h
  · simp at h
  · rw [Outcome.pure_eq_ok] at h
    rw [← h]
    rfl

/-- Choosing the tiles of all groups changes nothing else in any of them. -/
theorem map_core_of_computeBounds {gs gs' : List Group} (h : gs.mapM (computeBounds sc) = .ok gs') :
    gs'.map core = gs.map core := by
  rw [← List.forall₂_eq_eq_eq, List.forall₂_map_left_iff, List.forall₂_map_right_iff]
  exact (Outcome.mapM_eq_ok.mp h).flip.imp fun g' g hg => core_of_computeBounds hg

/-- With equal cores in order, every group on one side has one with its core on the other. -/
theorem exists_of_map_core {gs gs' : List Group} (h : gs'.map core = gs.map core) {g' : Group}
    (hg' : g' ∈ gs') : ∃ g ∈ gs, g'.core = g.core := by
  obtain ⟨g, hg, hsame⟩ := List.mem_map.mp (h ▸ List.mem_map_of_mem hg' : core g' ∈ gs.map core)
  exact ⟨g, hg, hsame.symm⟩

theorem map_core_number (gs : List Group) : (number gs).map core = gs.map core := by
  have hcore : (core ∘ fun e : Nat × Group => { e.2 with nr := e.1 }) = core ∘ Prod.snd := rfl
  have hsnd : ((List.range gs.length).zip gs).map Prod.snd = gs := List.map_snd_zip (by simp)
  rw [number, List.map_map]
  exact (congrArg (List.map · _) hcore).trans (by rw [← List.map_map, hsnd])

/-! ## giving up tiles -/

/-- The second group is the first one, but may have given up tiles. -/
structure Demoted (g g' : Group) : Prop where
  core : g'.core = g.core
  nr : g'.nr = g.nr
  lastShared : g'.lastShared = g.lastShared
  sharedTile : ∀ t, g'.sharedTile = some t → g.sharedTile = some t
  privateTile : ∀ t, g'.privateTile = some t → g.privateTile = some t

namespace Demoted

theorem refl (g : Group) : Demoted g g := ⟨rfl, rfl, rfl, fun _ => id, fun _ => id⟩

/-- Tiles given up in two steps are given up. -/
theorem trans {g g₁ g₂ : Group} (h : Demoted g g₁) (h' : Demoted g₁ g₂) : Demoted g g₂ :=
  ⟨h'.core.trans h.core, h'.nr.trans h.nr, h'.lastShared.trans h.lastShared,
    fun t ht => h.sharedTile t (h'.sharedTile t ht),
    fun t ht => h.privateTile t (h'.privateTile t ht)⟩

theorem withoutShared (g : Group) : Demoted g { g with sharedTile := none } :=
  ⟨rfl, rfl, rfl, fun _ => nofun, fun _ => id⟩

theorem withoutPrivate (g : Group) : Demoted g { g with privateTile := none } :=
  ⟨rfl, rfl, rfl, fun _ => id, fun _ => nofun⟩

end Demoted

/-- The check of unrolled loops only takes tiles away from the groups, one by one. -/
theorem demoted_of_checkEach {gs : List Group} {c : UnrollCheck} (h : checkEach sc gs = .ok c) :
    List.Forall₂ Demoted gs c.groups := by
  induction gs generalizing c with
  | nil =>
      simp only [checkEach, Except.ok.injEq] at h
      rw [← h]
      exact .nil
  | cons g gs ih =>
      simp only [checkEach] at h
      split at h
      · simp only [Outcome.bind_eq_ok, Outcome.pure_eq_ok] at h
        obtain ⟨d, hd, rfl⟩ := h
        exact .cons (.refl g) (ih hd)
      · simp only [Outcome.bind_eq_ok] at h
        obtain ⟨deps, -, parallel, -, d, hd, h⟩ := h
        split at h
        · rw [Outcome.pure_eq_ok] at h
          rw [← h]
          exact .cons (.refl g) (ih hd)
        split at h
        · rw [Outcome.pure_eq_ok] at h
          rw [← h]
          exact .cons (.refl g) (ih hd)
        · rw [Outcome.pure_eq_ok] at h
          rw [← h]
          exact .cons (.withoutPrivate g) (ih hd)

/-- What the check of unrolled loops returns are the same groups, some without tiles. -/
theorem demoted_of_checkUnroll {gs gs' : List Group} {positions : List Nat}
    (h : checkUnroll sc gs = .ok (gs', positions)) : List.Forall₂ Demoted gs gs' := by
  simp only [checkUnroll, Outcome.bind_eq_ok] at h
  obtain ⟨c, hc, h⟩ := h
  have hdemoted := demoted_of_checkEach hc
  split at h
  · simp only [Outcome.pure_eq_ok, Prod.mk.injEq] at h
    rw [← h.1, List.forall₂_map_right_iff]
    exact hdemoted.imp fun _ g' hg => hg.trans (.withoutPrivate g')
  · simp only [Outcome.pure_eq_ok, Prod.mk.injEq] at h
    exact h.1 ▸ hdemoted

/-- Fitting the groups into the shared memory that is left only takes tiles away. -/
theorem demoted_of_fitInto {left : Int} {gs gs' : List Group} (h : fitInto sc left gs = .ok gs') :
    List.Forall₂ Demoted gs gs' := by
  induction gs generalizing left gs' with
  | nil =>
      simp only [fitInto, Except.ok.injEq] at h
      rw [← h]
      exact .nil
  | cons g gs ih =>
      simp only [fitInto] at h
      split at h
      · simp only [Outcome.bind_eq_ok] at h
        obtain ⟨array, -, h⟩ := h
        split at h
        · simp only [Outcome.bind_eq_ok, Outcome.pure_eq_ok] at h
          obtain ⟨rest, hrest, rfl⟩ := h
          exact .cons (.withoutShared g) (ih hrest)
        · simp only [Outcome.bind_eq_ok, Outcome.pure_eq_ok] at h
          obtain ⟨left', -, rest, hrest, rfl⟩ := h
          exact .cons (.refl g) (ih hrest)
      · simp only [Outcome.bind_eq_ok, Outcome.pure_eq_ok] at h
        obtain ⟨rest, hrest, rfl⟩ := h
        exact .cons (.refl g) (ih hrest)

/-- The steps after grouping only give up tiles. -/
theorem demoted_of_stages {formed checked groups : List Group} {unroll : List Nat}
    (hunroll : checkUnroll sc formed = .ok (checked, unroll))
    (hbudget : enforceBudget sc checked = .ok groups) : List.Forall₂ Demoted formed groups :=
  ((demoted_of_checkUnroll hunroll).comp (demoted_of_fitInto hbudget)).imp fun _ _
    ⟨_, h, h'⟩ => h.trans h'

/-! ## groups of an array -/

/-- The references of the group are to the array, and its fields say what they do. -/
structure Describes (sc : Scope) (name : String) (g : Group) : Prop where
  array : g.array = name
  refs : ∀ id ∈ g.refs, ∃ r, sc.reference? id = some r ∧ r.reference.array = name
  write : g.write = g.refs.any fun id => (sc.reference? id).any (·.reference.isWrite)
  definiteWrite : g.definiteWrite =
    g.refs.all fun id =>
      (sc.reference? id).all fun r => !r.reference.isWrite || r.reference.definite
  forcePrivate : ∀ array, sc.program.array? name = some array → g.forcePrivate = array.forcePrivate

/-- The groups describe the references `refs` to the array, each in one place. -/
structure Partitions (sc : Scope) (name : String) (refs : List Nat) (gs : List Group) : Prop where
  describes : ∀ g ∈ gs, g.Describes sc name
  perm : (gs.flatMap (·.refs)).Perm refs

variable {name : String} {refs : List Nat} {gs gs' : List Group} {a b c g g' : Group}

/-- Whether a group describes its references does not depend on its tiles and its number. -/
theorem Describes.core_iff : g.core.Describes sc name ↔ g.Describes sc name :=
  ⟨fun h => ⟨h.array, h.refs, h.write, h.definiteWrite, h.forcePrivate⟩,
    fun h => ⟨h.array, h.refs, h.write, h.definiteWrite, h.forcePrivate⟩⟩

/-- A group with the core of one that describes its references does so too. -/
theorem Describes.of_core (h : g.Describes sc name) (hcore : g'.core = g.core) :
    g'.Describes sc name :=
  core_iff.mp (hcore ▸ core_iff.mpr h)

/-- The fields of a merged group describe the references of both. -/
theorem Describes.merge (ha : a.Describes sc name) (hb : b.Describes sc name) :
    (Group.merge sc a b).Describes sc name := by
  have hperm : (Group.merge sc a b).refs.Perm (a.refs ++ b.refs) := Sorted.perm_sortBy _ _
  refine ⟨ha.array, fun id hid => ?_, ?_, ?_, fun array harray => ?_⟩
  · exact (List.mem_append.mp (hperm.mem_iff.mp hid)).elim (ha.refs id) (hb.refs id)
  · rw [hperm.any_eq, List.any_append, ← ha.write, ← hb.write]
    rfl
  · rw [hperm.all_eq, List.all_append, ← ha.definiteWrite, ← hb.definiteWrite]
    rfl
  · exact (congrArg₂ or (ha.forcePrivate array harray) (hb.forcePrivate array harray)).trans
      (Bool.or_self _)

/-- The group of a single reference describes it. -/
theorem Describes.ofReference {id : Nat} {r : Located} (hr : sc.reference? id = some r)
    (h : Group.ofReference sc id = .ok g) : g.Describes sc r.reference.array ∧ g.refs = [id] := by
  simp only [Group.ofReference, Scope.array, Outcome.bind_eq_ok, Outcome.orRaise_eq_ok,
    Outcome.pure_eq_ok, hr, Option.some.injEq, exists_eq_left'] at h
  obtain ⟨array, harray, rfl⟩ := h
  refine ⟨⟨rfl, by simp [hr], by simp [hr], by simp [hr], fun array' harray' => ?_⟩, rfl⟩
  rw [Option.some.inj (harray.symm.trans harray')]

namespace Partitions

/-- Groups with the cores of a partition are a partition. -/
theorem of_core (h : Partitions sc name refs gs) (hcore : gs'.map core = gs.map core) :
    Partitions sc name refs gs' := by
  have hrefs : gs'.flatMap (·.refs) = gs.flatMap (·.refs) := by
    have hmap := congrArg (List.flatMap (·.refs)) hcore
    rwa [List.flatMap_map, List.flatMap_map] at hmap
  refine ⟨fun g' hg' => ?_, hrefs ▸ h.perm⟩
  obtain ⟨g, hg, hsame⟩ := exists_of_map_core hcore hg'
  exact (h.describes g hg).of_core hsame

/-- Replacing two groups by their union keeps a partition. -/
theorem join {rest : List Group} (h : Partitions sc name refs gs) (hgs : gs.Perm (a :: b :: rest))
    (hgs' : gs'.Perm (c :: rest)) (hc : c.core = (Group.merge sc a b).core) :
    Partitions sc name refs gs' := by
  have hdescribes : ∀ g ∈ a :: b :: rest, g.Describes sc name :=
    fun g hg => h.describes g (hgs.mem_iff.mpr hg)
  simp only [List.forall_mem_cons] at hdescribes
  obtain ⟨ha, hb, hrest⟩ := hdescribes
  refine ⟨fun g hg => ?_, ?_⟩
  · rcases List.mem_cons.mp (hgs'.mem_iff.mp hg) with rfl | hg
    · exact (ha.merge hb).of_core hc
    · exact hrest g hg
  · have hrefs : c.refs.Perm (a.refs ++ b.refs) := refs_of_core hc ▸ Sorted.perm_sortBy _ _
    calc (gs'.flatMap (·.refs)).Perm ((c :: rest).flatMap (·.refs)) := hgs'.flatMap_right _
      _ = c.refs ++ rest.flatMap (·.refs) := List.flatMap_cons
      List.Perm _ ((a.refs ++ b.refs) ++ rest.flatMap (·.refs)) := hrefs.append_right _
      _ = (a :: b :: rest).flatMap (·.refs) := by simp
      List.Perm _ (gs.flatMap (·.refs)) := (hgs.flatMap_right _).symm
      List.Perm _ refs := h.perm

end Partitions

/-! ## rounds -/

/-- What every round of merging keeps holds in the end. -/
theorem keeps_of_mergeRounds {Q : List Group → Prop}
    {join : Group → Group → Outcome MapError (Option (Group × Unit))} {n : Nat}
    (hround : ∀ gs gs' x, Q gs → joinFirst join gs = .ok (some (gs', x)) → Q gs') (h : Q gs)
    (hgs' : mergeRounds join n gs = .ok gs') : Q gs' := by
  induction n generalizing gs with
  | zero =>
      simp only [mergeRounds, Except.ok.injEq] at hgs'
      exact hgs' ▸ h
  | succ n ih =>
      simp only [mergeRounds, Outcome.bind_eq_ok] at hgs'
      obtain ⟨joined, hjoined, hgs'⟩ := hgs'
      cases joined with
      | none =>
          rw [Outcome.pure_eq_ok] at hgs'
          exact hgs' ▸ h
      | some round => exact ih (hround _ _ _ h hjoined) hgs'

/-- What every round of merging shared tiles keeps holds in the end.  A round that moves copies out
of a loop ends with another merging of overlapping groups. -/
theorem keeps_of_coalesceRounds {Q : List Group → Prop} {elementSize depth n : Nat}
    (hstay : ∀ gs gs', Q gs → joinFirst (coalescePair sc elementSize depth) gs =
      .ok (some (gs', false)) → Q gs')
    (hmove : ∀ gs gs₁ gs', Q gs → joinFirst (coalescePair sc elementSize depth) gs =
      .ok (some (gs₁, true)) →
      mergeOnLastShared sc gs₁ = .ok gs' → Q gs')
    (h : Q gs) (hgs' : coalesceRounds sc elementSize depth n gs = .ok gs') : Q gs' := by
  induction n generalizing gs with
  | zero =>
      simp only [coalesceRounds, Except.ok.injEq] at hgs'
      exact hgs' ▸ h
  | succ n ih =>
      simp only [coalesceRounds, Outcome.bind_eq_ok] at hgs'
      obtain ⟨joined, hjoined, hgs'⟩ := hgs'
      cases joined with
      | none =>
          rw [Outcome.pure_eq_ok] at hgs'
          exact hgs' ▸ h
      | some round =>
          obtain ⟨gs₁, moved⟩ := round
          cases moved with
          | false => exact ih (hstay _ _ h hjoined) hgs'
          | true =>
              simp only [Outcome.bind_eq_ok] at hgs'
              obtain ⟨gs₂, hgs₂, hgs'⟩ := hgs'
              exact ih (hmove _ _ _ h hjoined hgs₂) hgs'

/-- A merged pair is the finished union. -/
theorem mergeWriting_eq_ok {depthOf : Group → Group → Nat}
    {finish : Group → Outcome MapError Group} {u : Unit}
    (h : mergeWriting sc depthOf finish a b = .ok (some (c, u))) :
    finish (merge sc a b) = .ok c := by
  unfold mergeWriting at h
  split at h
  · simp at h
  simp only [Outcome.bind_eq_ok] at h
  obtain ⟨overlapping, -, h⟩ := h
  split at h
  · simp only [Outcome.bind_eq_ok, Outcome.pure_eq_ok, Option.some.injEq, Prod.mk.injEq] at h
    obtain ⟨g, hg, rfl, -⟩ := h
    exact hg
  · simp at h

/-- A pair that coalesces is the union with its tiles, one of them shared; if no copies move, they
are no further out than those of either group. -/
theorem coalescePair_eq_ok {elementSize depth : Nat} {moved : Bool}
    (h : coalescePair sc elementSize depth a b = .ok (some (c, moved))) :
    computeBounds sc (merge sc a b) = .ok c ∧ c.sharedTile.isSome = true ∧
      (moved = false → a.copyLevel ≤ c.copyLevel ∧ b.copyLevel ≤ c.copyLevel) := by
  unfold coalescePair at h
  split at h
  · simp only [Outcome.bind_eq_ok] at h
    obtain ⟨overlapping, -, h⟩ := h
    split at h
    · simp only [Outcome.bind_eq_ok] at h
      obtain ⟨merged, hmerged, h⟩ := h
      split at h
      · next htile =>
        split at h
        · simp only [Outcome.pure_eq_ok, Option.some.injEq, Prod.mk.injEq] at h
          obtain ⟨rfl, rfl⟩ := h
          exact ⟨hmerged, by simp [htile], by simp⟩
        · simp at h
      · simp at h
    · simp at h
  · simp at h

/-- A merge because of a write gives the merged group, up to its tiles. -/
theorem core_of_mergeWriting {depthOf : Group → Group → Nat}
    {finish : Group → Outcome MapError Group} {u : Unit}
    (hfinish : ∀ g g', finish g = .ok g' → g'.core = g.core)
    (h : mergeWriting sc depthOf finish a b = .ok (some (c, u))) : c.core = (merge sc a b).core :=
  hfinish _ _ (mergeWriting_eq_ok h)

/-- A merge because of a smaller tile gives the merged group, up to its tiles. -/
theorem core_of_coalescePair {elementSize depth : Nat} {moved : Bool}
    (h : coalescePair sc elementSize depth a b = .ok (some (c, moved))) :
    c.core = (merge sc a b).core :=
  core_of_computeBounds (coalescePair_eq_ok h).1

namespace Partitions

/-- Joining the first pair that can be merged keeps the partition. -/
theorem joinFirst {β : Type} {join : Group → Group → Outcome MapError (Option (Group × β))} {x : β}
    (hjoin : ∀ a b c x, join a b = .ok (some (c, x)) → c.core = (Group.merge sc a b).core)
    (h : Partitions sc name refs gs) (hgs' : KernelMap.joinFirst join gs = .ok (some (gs', x))) :
    Partitions sc name refs gs' := by
  obtain ⟨a, b, c, rest, hperm, hperm', hc⟩ := joinFirst_eq_ok hgs'
  exact h.join hperm hperm' (hjoin a b c x hc)

/-- Merging until no pair can be merged keeps the partition. -/
theorem mergeRounds {join : Group → Group → Outcome MapError (Option (Group × Unit))} {n : Nat}
    (hjoin : ∀ a b c x, join a b = .ok (some (c, x)) → c.core = (Group.merge sc a b).core)
    (h : Partitions sc name refs gs) (hgs' : Group.mergeRounds join n gs = .ok gs') :
    Partitions sc name refs gs' :=
  keeps_of_mergeRounds (fun _ _ _ h => h.joinFirst hjoin) h hgs'

/-- Merging the groups that write at their copy levels keeps the partition. -/
theorem mergeOnLastShared (h : Partitions sc name refs gs)
    (hgs' : Group.mergeOnLastShared sc gs = .ok gs') : Partitions sc name refs gs' :=
  h.mergeRounds (fun _ _ _ _ => core_of_mergeWriting fun _ _ => core_of_computeBounds) hgs'

/-- Rounds of merging for smaller tiles keep the partition. -/
theorem coalesceRounds {elementSize depth n : Nat} (h : Partitions sc name refs gs)
    (hgs' : Group.coalesceRounds sc elementSize depth n gs = .ok gs') :
    Partitions sc name refs gs' :=
  keeps_of_coalesceRounds (fun _ _ h => h.joinFirst fun _ _ _ _ => core_of_coalescePair)
    (fun _ _ _ h hround =>
      (h.joinFirst (fun _ _ _ _ => core_of_coalescePair) hround).mergeOnLastShared) h hgs'

/-- Merging groups with shared tiles keeps the partition. -/
theorem coalesceShared (h : Partitions sc name refs gs)
    (hgs' : Group.coalesceShared sc gs = .ok gs') : Partitions sc name refs gs' := by
  unfold Group.coalesceShared at hgs'
  split at hgs'
  · rw [← Except.ok.inj hgs']
    exact h
  · simp only [Outcome.bind_eq_ok] at hgs'
    obtain ⟨array, -, hgs'⟩ := hgs'
    exact h.coalesceRounds hgs'

/-- The groups of single references. -/
theorem singletons (hrefs : ∀ id ∈ refs, ∃ r, sc.reference? id = some r ∧ r.reference.array = name)
    (h : refs.mapM (ofReference sc) = .ok gs) : Partitions sc name refs gs := by
  have hgroups : List.Forall₂ (fun id g => g.Describes sc name ∧ g.refs = [id]) refs gs := by
    refine ((List.forall₂_and_left _ _).mpr ⟨hrefs, Outcome.mapM_eq_ok.mp h⟩).imp ?_
    rintro id g ⟨⟨r, hr, rfl⟩, hg⟩
    exact Describes.ofReference hr hg
  refine ⟨fun g hg => ?_, ?_⟩
  · obtain ⟨id, -, hdescribes, -⟩ := hgroups.exists_of_mem_right hg
    exact hdescribes
  · clear hrefs h
    induction hgroups with
    | nil => exact .refl _
    | cons hg _ ih =>
        rw [List.flatMap_cons, hg.2]
        exact ih.cons _

/-- The groups with their first tiles. -/
theorem bounded {gs₁ gs₂ : List Group}
    (hrefs : ∀ id ∈ refs, ∃ r, sc.reference? id = some r ∧ r.reference.array = name)
    (h₁ : refs.mapM (ofReference sc) = .ok gs₁) (h₂ : mergeOverlapping sc gs₁ = .ok gs₂)
    (h : gs₂.mapM (computeBounds sc) = .ok gs) : Partitions sc name refs gs := by
  have hoverlap : Partitions sc name refs gs₂ :=
    (singletons hrefs h₁).mergeRounds
      (fun _ _ _ _ => core_of_mergeWriting fun g g' hg => by rw [Except.ok.inj hg]) h₂
  exact hoverlap.of_core (map_core_of_computeBounds h)

/-- The groups made from the references to an array partition them. -/
theorem ofReferences
    (hrefs : ∀ id ∈ refs, ∃ r, sc.reference? id = some r ∧ r.reference.array = name)
    (h : Group.ofReferences sc refs = .ok gs) : Partitions sc name refs gs := by
  simp only [Group.ofReferences, Outcome.bind_eq_ok, Outcome.pure_eq_ok] at h
  obtain ⟨gs₁, h₁, gs₂, h₂, gs₃, h₃, gs₄, h₄, gs₅, h₅, rfl⟩ := h
  exact (((bounded hrefs h₁ h₂ h₃).mergeOnLastShared h₄).coalesceShared h₅).of_core
    (map_core_number gs₅)

end Partitions

/-! ## groups of a kernel -/

/-- Every group belongs to the partition of the references to one array. -/
theorem exists_partition_of_ofArrays {arrays : List ArrayDecl}
    (hrefs : ∀ name, ∀ id ∈ sc.referencesTo name, ∃ r, sc.reference? id = some r ∧
      r.reference.array = name)
    (h : ofArrays sc arrays = .ok gs) (hg : g ∈ gs) :
    ∃ name part, Partitions sc name (sc.referencesTo name) part ∧ g ∈ part := by
  induction arrays generalizing gs with
  | nil =>
      simp only [ofArrays, Except.ok.injEq] at h
      simp [← h] at hg
  | cons array arrays ih =>
      simp only [ofArrays, Outcome.bind_eq_ok, Outcome.pure_eq_ok] at h
      obtain ⟨part, hpart, rest, hrest, rfl⟩ := h
      rcases List.mem_append.mp hg with hg | hg
      · exact ⟨array.name, part, .ofReferences (hrefs array.name) hpart, hg⟩
      · exact ih hrest hg

end Group

namespace Scope

variable {sc : Scope} {name : String}

/-- The references to an array, looked up by number, are to that array. -/
theorem exists_of_mem_referencesTo (hnodup : (sc.refs.map (·.reference.id)).Nodup) :
    ∀ id ∈ sc.referencesTo name, ∃ r, sc.reference? id = some r ∧ r.reference.array = name := by
  intro id hid
  obtain ⟨r, hr, rfl⟩ := List.mem_map.mp hid
  obtain ⟨hr, harray⟩ := List.mem_filter.mp hr
  exact ⟨r, reference?_of_mem hnodup hr, by simpa using harray⟩

theorem nodup_referencesTo (hnodup : (sc.refs.map (·.reference.id)).Nodup) :
    (sc.referencesTo name).Nodup :=
  hnodup.sublist (List.filter_sublist.map _)

end Scope

/-- After all steps, a group of a kernel describes references to its array and has each once. -/
theorem Group.describes_of_stages {sc : Scope} {formed checked groups : List Group}
    {unroll : List Nat} (hnodup : (sc.refs.map (·.reference.id)).Nodup)
    (hall : Group.all sc = .ok formed)
    (hunroll : Group.checkUnroll sc formed = .ok (checked, unroll))
    (hbudget : Group.enforceBudget sc checked = .ok groups) :
    ∀ g ∈ groups, g.Describes sc g.array ∧ g.refs.Nodup := by
  intro g hg
  obtain ⟨g₀, hg₀, hdemoted⟩ := (demoted_of_stages hunroll hbudget).exists_of_mem_right hg
  obtain ⟨name, part, hpart, hmem⟩ :=
    exists_partition_of_ofArrays (fun _ => Scope.exists_of_mem_referencesTo hnodup) hall hg₀
  have hdescribes := (hpart.describes g₀ hmem).of_core hdemoted.core
  have hparts : (part.flatMap (·.refs)).Nodup :=
    hpart.perm.nodup_iff.mpr (Scope.nodup_referencesTo hnodup)
  refine ⟨hdescribes.array ▸ hdescribes, ?_⟩
  rw [refs_of_core hdemoted.core]
  exact (List.nodup_flatMap.mp hparts).1 g₀ hmem

end KernelMap
