import KernelMap.Group.Unroll
import KernelMap.Proofs.Outcome

/-!
# KernelMap.Proofs.Unrolling

Which private tiles stay, and which point loops are unrolled for them.

A private tile may only move along point loops of members without dependences.  Groups are checked
one after the other, but neither their order nor the mix of groups matters: a group loses its
private tile if its own elements move along a loop that carries dependences (`Group.MovesCarried`),
and all groups lose theirs if that happens to one that must be private (`Group.Abandoned`).  The
loops to unroll are those that the remaining private tiles move along.

Main statement: `Group.unrolled_loops_carry_no_dependence`.
-/

namespace KernelMap.Group

variable {sc : Scope} {g : Group} {gs : List Group}

/-! ## loops that carry dependences -/

theorem mem_pointLoops {k : KernelSchedule} {pos : Nat} :
    pos ∈ pointLoops k ↔ ∃ m, m < k.tileLen ∧ pos = k.pointLoopPos m := by
  rw [pointLoops, List.mem_range']
  simp only [KernelSchedule.pointLoopPos, Nat.one_mul]

theorem bandMember?_pointLoopPos {k : KernelSchedule} {m : Nat} (hm : m < k.tileLen) :
    k.bandMember? (k.pointLoopPos m) = some m := by
  rw [KernelSchedule.bandMember?, KernelSchedule.pointLoopPos,
    if_pos ⟨Nat.le_add_right .., by omega⟩, Nat.add_sub_cancel_left]

/-- The elements of the group move along the point loop of a member that carries dependences. -/
def MovesCarried (sc : Scope) (g : Group) : Prop :=
  ∃ m, m < sc.schedule.tileLen ∧ sc.schedule.coincident[m]? = some false ∧
    sc.dependsOn g.refs (sc.schedule.pointLoopPos m) = .ok true

/-- A group that must be private has a private tile along a loop that carries dependences. -/
def Abandoned (sc : Scope) (gs : List Group) : Prop :=
  ∃ g ∈ gs, g.forcePrivate = true ∧ g.privateTile.isSome = true ∧ MovesCarried sc g

/-! ## one group -/

/-- The positions that are found are those which the access depends on. -/
theorem mem_of_dependentPositions {refs ps deps : List Nat}
    (h : dependentPositions (sc.access refs sc.schedule.depth) ps = .ok deps) (pos : Nat) :
    pos ∈ deps ↔ pos ∈ ps ∧ sc.dependsOn refs pos = .ok true := by
  induction ps generalizing deps with
  | nil =>
      simp only [dependentPositions, Except.ok.injEq] at h
      simp [← h]
  | cons p ps ih =>
      simp only [dependentPositions, Outcome.bind_eq_ok] at h
      obtain ⟨acc, hacc, b, hb, h⟩ := h
      have hp : sc.dependsOn refs p = .ok b := by
        simp only [Scope.dependsOn, Outcome.bind_eq_ok]
        exact ⟨acc, hacc, hb⟩
      cases b with
      | true =>
          simp only [if_true, Outcome.bind_eq_ok, Outcome.pure_eq_ok] at h
          obtain ⟨rest, hrest, rfl⟩ := h
          rw [List.mem_cons, List.mem_cons, ih hrest]
          constructor
          · rintro (rfl | ⟨hpos, hdep⟩)
            · exact ⟨Or.inl rfl, hp⟩
            · exact ⟨Or.inr hpos, hdep⟩
          · rintro ⟨rfl | hpos, hdep⟩
            · exact Or.inl rfl
            · exact Or.inr ⟨hpos, hdep⟩
      | false =>
          simp only [Bool.false_eq_true, if_false] at h
          rw [ih h, List.mem_cons]
          constructor
          · exact And.imp_left Or.inr
          · rintro ⟨rfl | hpos, hdep⟩
            · simp [hp] at hdep
            · exact ⟨hpos, hdep⟩

/-- Point loops are all free of dependences, or one of them carries some. -/
theorem allCoincident_eq_ok {k : KernelSchedule} {deps : List Nat} {parallel : Bool}
    (hdeps : ∀ pos ∈ deps, pos ∈ pointLoops k) (h : allCoincident k deps = .ok parallel) :
    if parallel then ∀ m, m < k.tileLen → k.pointLoopPos m ∈ deps → k.coincident[m]? = some true
    else ∃ m, m < k.tileLen ∧ k.pointLoopPos m ∈ deps ∧ k.coincident[m]? = some false := by
  induction deps with
  | nil =>
      simp only [allCoincident, Except.ok.injEq] at h
      simp [← h]
  | cons pos deps ih =>
      obtain ⟨hpos, hdeps'⟩ := List.forall_mem_cons.mp hdeps
      obtain ⟨m, hm, rfl⟩ := mem_pointLoops.mp hpos
      simp only [allCoincident, bandMember?_pointLoopPos hm, Outcome.bind_eq_ok,
        Outcome.orFault_eq_ok] at h
      obtain ⟨b, hb, h⟩ := h
      cases b with
      | false =>
          simp only [Bool.false_eq_true, if_false, Outcome.pure_eq_ok] at h
          rw [← h]
          exact ⟨m, hm, List.mem_cons_self, hb⟩
      | true =>
          have hrest := ih hdeps' h
          cases parallel with
          | false =>
              obtain ⟨n, hn, hmem, hfalse⟩ := hrest
              exact ⟨n, hn, List.mem_cons_of_mem _ hmem, hfalse⟩
          | true =>
              intro n hn hmem
              rcases List.mem_cons.mp hmem with heq | hmem
              · obtain rfl : n = m := Nat.add_left_cancel heq
                exact hb
              · exact hrest n hn hmem

/-- The answers about one group: the point loops that its elements move along, and whether all of
them belong to members without dependences. -/
structure Answers (sc : Scope) (g : Group) (deps : List Nat) (parallel : Bool) : Prop where
  mem_deps : ∀ pos, pos ∈ deps ↔ pos ∈ pointLoops sc.schedule ∧ sc.dependsOn g.refs pos = .ok true
  coincident : parallel = true → ∀ m, m < sc.schedule.tileLen → sc.schedule.pointLoopPos m ∈ deps →
    sc.schedule.coincident[m]? = some true
  movesCarried_iff : MovesCarried sc g ↔ parallel = false

/-- The two questions about a group are answered as they should be. -/
theorem answers_of_eq_ok {deps : List Nat} {parallel : Bool}
    (hdeps : dependentPositions (sc.access g.refs sc.schedule.depth)
      (pointLoops sc.schedule) = .ok deps)
    (hparallel : allCoincident sc.schedule deps = .ok parallel) : Answers sc g deps parallel := by
  have hmem := mem_of_dependentPositions hdeps
  have hverdict := allCoincident_eq_ok (fun pos hpos => ((hmem pos).mp hpos).1) hparallel
  refine ⟨hmem, fun htrue => by rwa [if_pos htrue] at hverdict, ?_, ?_⟩
  · rintro ⟨m, hm, hfalse, hdep⟩
    rw [← Bool.not_eq_true]
    intro htrue
    rw [if_pos htrue] at hverdict
    have hfree := hverdict m hm ((hmem _).mpr ⟨mem_pointLoops.mpr ⟨m, hm, rfl⟩, hdep⟩)
    rw [hfalse] at hfree
    cases hfree
  · rintro rfl
    obtain ⟨m, hm, hdep, hfalse⟩ := hverdict
    exact ⟨m, hm, hfalse, ((hmem _).mp hdep).2⟩

/-! ## all groups -/

/-- What the check of all groups finds: which groups give up their tiles on their own, which loops
the others move along, and whether a group that must be private is in the way. -/
structure Finds (sc : Scope) (gs : List Group) (c : UnrollCheck) : Prop where
  groups : List.Forall₂ (fun g g' =>
    (MovesCarried sc g ∧ g.forcePrivate = false → g' = { g with privateTile := none }) ∧
      (¬ (MovesCarried sc g ∧ g.forcePrivate = false) → g' = g)) gs c.groups
  mem_positions : ∀ pos, pos ∈ c.positions ↔ pos ∈ pointLoops sc.schedule ∧
    ∃ g ∈ gs, g.privateTile.isSome = true ∧ ¬ MovesCarried sc g ∧ sc.dependsOn g.refs pos = .ok true
  coincident : ∀ m, m < sc.schedule.tileLen → sc.schedule.pointLoopPos m ∈ c.positions →
    sc.schedule.coincident[m]? = some true
  abandoned : c.abandoned = true ↔ Abandoned sc gs

namespace Finds

variable {c : UnrollCheck} {deps : List Nat} {parallel : Bool}

/-- A group without a private tile is left alone. -/
theorem skip (h : Finds sc gs c) (hg : g.privateTile = none) :
    Finds sc (g :: gs) { c with groups := g :: c.groups } where
  groups := by
    have hsame : { g with privateTile := none } = g := by rw [← hg]
    exact .cons ⟨fun _ => hsame.symm, fun _ => rfl⟩ h.groups
  mem_positions pos := by simp [h.mem_positions, hg]
  coincident := h.coincident
  abandoned := by simp [h.abandoned, Abandoned, hg]

/-- A group along loops without dependences keeps its tile, and the loops are noted. -/
theorem keep (h : Finds sc gs c) (hg : g.privateTile.isSome = true) (ha : Answers sc g deps true) :
    Finds sc (g :: gs) { c with groups := g :: c.groups, positions := deps ++ c.positions } := by
  have hfree : ¬ MovesCarried sc g := by simp [ha.movesCarried_iff]
  refine ⟨.cons ⟨fun hmoves => absurd hmoves.1 hfree, fun _ => rfl⟩ h.groups, fun pos => ?_,
    fun m hm hpos => ?_, ?_⟩
  · simp only [List.mem_append, ha.mem_deps, h.mem_positions, List.exists_mem_cons_iff, hg, hfree,
      not_false_eq_true, true_and, ← and_or_left]
  · exact (List.mem_append.mp hpos).elim (ha.coincident rfl m hm) (h.coincident m hm)
  · simp [h.abandoned, Abandoned, hfree]

/-- A group along a loop that carries dependences does not count towards the loops to unroll. -/
theorem mem_positions_cons (h : Finds sc gs c) (hmoves : MovesCarried sc g) (pos : Nat) :
    pos ∈ c.positions ↔ pos ∈ pointLoops sc.schedule ∧ ∃ f ∈ g :: gs, f.privateTile.isSome = true ∧
      ¬ MovesCarried sc f ∧ sc.dependsOn f.refs pos = .ok true := by
  simp [h.mem_positions, hmoves]

/-- A group that must be private and cannot be stands in the way of all. -/
theorem force (h : Finds sc gs c) (hg : g.privateTile.isSome = true) (ha : Answers sc g deps false)
    (hforce : g.forcePrivate = true) :
    Finds sc (g :: gs) { c with groups := g :: c.groups, abandoned := true } where
  groups := .cons ⟨fun hmoves => absurd hmoves.2 (by simp [hforce]), fun _ => rfl⟩ h.groups
  mem_positions := h.mem_positions_cons (ha.movesCarried_iff.mpr rfl)
  coincident := h.coincident
  abandoned := iff_of_true rfl ⟨g, List.mem_cons_self, hforce, hg, ha.movesCarried_iff.mpr rfl⟩

/-- Any other group that cannot be private gives up its tile. -/
theorem lose (h : Finds sc gs c) (ha : Answers sc g deps false) (hforce : g.forcePrivate = false) :
    Finds sc (g :: gs) { c with groups := { g with privateTile := none } :: c.groups } where
  groups := .cons
    ⟨fun _ => rfl, fun hstays => absurd ⟨ha.movesCarried_iff.mpr rfl, hforce⟩ hstays⟩ h.groups
  mem_positions := h.mem_positions_cons (ha.movesCarried_iff.mpr rfl)
  coincident := h.coincident
  abandoned := by simp [h.abandoned, Abandoned, hforce]

end Finds

/-- The check of all groups finds what it should. -/
theorem finds_of_checkEach {c : UnrollCheck} (h : checkEach sc gs = .ok c) : Finds sc gs c := by
  induction gs generalizing c with
  | nil =>
      simp only [checkEach, Except.ok.injEq] at h
      subst h
      exact ⟨.nil, by simp, by simp, by simp [Abandoned]⟩
  | cons g gs ih =>
      simp only [checkEach] at h
      split at h
      · next hnone =>
        simp only [Outcome.bind_eq_ok, Outcome.pure_eq_ok] at h
        obtain ⟨d, hd, rfl⟩ := h
        exact (ih hd).skip (Option.isNone_iff_eq_none.mp hnone)
      · next hsome =>
        have hg : g.privateTile.isSome = true :=
          Option.isSome_iff_ne_none.mpr (by simpa using hsome)
        simp only [Outcome.bind_eq_ok] at h
        obtain ⟨deps, hdeps, parallel, hparallel, d, hd, h⟩ := h
        have hanswers := answers_of_eq_ok hdeps hparallel
        split at h
        · next htrue =>
          rw [Outcome.pure_eq_ok] at h
          exact h ▸ (ih hd).keep hg (htrue ▸ hanswers)
        next hfalse =>
        obtain rfl : parallel = false := by simpa using hfalse
        split at h
        · next hforce =>
          rw [Outcome.pure_eq_ok] at h
          exact h ▸ (ih hd).force hg hanswers hforce
        · next hforce =>
          rw [Outcome.pure_eq_ok] at h
          exact h ▸ (ih hd).lose hanswers (by simpa using hforce)

/-! ## the groups in the end -/

/-- The group in the end, without its private tile if that cannot stay. -/
def Settles (sc : Scope) (gs : List Group) (g g' : Group) : Prop :=
  (MovesCarried sc g ∨ Abandoned sc gs → g' = { g with privateTile := none }) ∧
    (¬ (MovesCarried sc g ∨ Abandoned sc gs) → g' = g)

/-- If a group that must be private is in the way, giving up all private tiles settles every
group. -/
theorem Finds.settles_of_abandoned {c : UnrollCheck} (h : Finds sc gs c) (hall : Abandoned sc gs) :
    List.Forall₂ (Settles sc gs) gs (c.groups.map fun g => { g with privateTile := none }) := by
  rw [List.forall₂_map_right_iff]
  refine h.groups.imp fun g g' hg => ⟨fun _ => ?_, fun hstays => absurd (Or.inr hall) hstays⟩
  by_cases hloses : MovesCarried sc g ∧ g.forcePrivate = false
  · rw [hg.1 hloses]
  · rw [hg.2 hloses]

/-- Otherwise the check of each group has settled it. -/
theorem Finds.settles_of_not_abandoned {c : UnrollCheck} (h : Finds sc gs c)
    (hnone : ¬ Abandoned sc gs) : List.Forall₂ (Settles sc gs) gs c.groups := by
  refine h.groups.flip.mem_right.flip.imp fun g g' ⟨hmem, hloses, hstays⟩ => ⟨?_, ?_⟩
  · rintro (hmoves | hall)
    · by_cases hforce : g.forcePrivate = true
      · -- such a group has no private tile, or it would be in the way
        have htile : g.privateTile = none := by
          rw [← Option.not_isSome_iff_eq_none]
          exact fun hsome => hnone ⟨g, hmem, hforce, hsome, hmoves⟩
        rw [hstays (by simp [hforce]), ← htile]
      · exact hloses ⟨hmoves, by simpa using hforce⟩
    · exact absurd hall hnone
  · exact fun hfree => hstays fun hmoves => hfree (Or.inl hmoves.1)

/-- A loop is noted for a group that keeps its tile exactly if some group that is left with a tile
moves along it. -/
theorem exists_keeps_iff {gs' : List Group} (h : List.Forall₂ (Settles sc gs) gs gs')
    (hnone : ¬ Abandoned sc gs) (pos : Nat) :
    (∃ g ∈ gs, g.privateTile.isSome = true ∧ ¬ MovesCarried sc g ∧
      sc.dependsOn g.refs pos = .ok true) ↔
      ∃ g ∈ gs', g.privateTile.isSome = true ∧ sc.dependsOn g.refs pos = .ok true := by
  constructor
  · rintro ⟨g, hg, htile, hfree, hdep⟩
    obtain ⟨g', hg', -, hstays⟩ := h.exists_of_mem_left hg
    obtain rfl := hstays (not_or.mpr ⟨hfree, hnone⟩)
    exact ⟨g', hg', htile, hdep⟩
  · rintro ⟨g', hg', htile, hdep⟩
    obtain ⟨g, hg, hloses, hstays⟩ := h.exists_of_mem_right hg'
    have hfree : ¬ MovesCarried sc g := by
      intro hmoves
      rw [hloses (Or.inl hmoves)] at htile
      simp at htile
    obtain rfl := hstays (not_or.mpr ⟨hfree, hnone⟩)
    exact ⟨g', hg, htile, hfree, hdep⟩

/-- The positions to unroll are in ascending order, and they are those of the point loops that the
elements of a group with a remaining private tile move along; each belongs to a member without
dependences.  A group loses its private tile exactly if its elements move along a loop that carries
dependences, or if those of some group do that must be private and has a private tile; then no
private tile remains and nothing is unrolled.  Nothing else about the groups changes. -/
theorem unrolled_loops_carry_no_dependence {gs' : List Group} {positions : List Nat}
    (h : checkUnroll sc gs = .ok (gs', positions)) :
    positions.Pairwise (· < ·) ∧
      (∀ pos, pos ∈ positions ↔ (∃ m, m < sc.schedule.tileLen ∧ pos = sc.schedule.pointLoopPos m) ∧
        ∃ g ∈ gs', g.privateTile.isSome = true ∧ sc.dependsOn g.refs pos = .ok true) ∧
      (∀ pos ∈ positions, ∃ m, sc.schedule.bandMember? pos = some m ∧
        sc.schedule.coincident[m]? = some true) ∧
      List.Forall₂ (Settles sc gs) gs gs' ∧
      (Abandoned sc gs → (∀ g ∈ gs', g.privateTile = none) ∧ positions = []) := by
  simp only [checkUnroll, Outcome.bind_eq_ok] at h
  obtain ⟨c, hc, h⟩ := h
  have hfinds := finds_of_checkEach hc
  split at h
  · next habandoned =>
    simp only [Outcome.pure_eq_ok, Prod.mk.injEq] at h
    obtain ⟨rfl, rfl⟩ := h
    have hall := hfinds.abandoned.mp habandoned
    exact ⟨.nil, by simp, by simp, hfinds.settles_of_abandoned hall, fun _ => by simp⟩
  · next habandoned =>
    simp only [Outcome.pure_eq_ok, Prod.mk.injEq] at h
    obtain ⟨rfl, rfl⟩ := h
    have hnone : ¬ Abandoned sc gs := fun hall => habandoned (hfinds.abandoned.mpr hall)
    have hsettles := hfinds.settles_of_not_abandoned hnone
    have hmem : ∀ pos, pos ∈ (pointLoops sc.schedule).filter (c.positions.contains ·) ↔
        pos ∈ pointLoops sc.schedule ∧ pos ∈ c.positions := by simp
    refine ⟨List.Pairwise.filter _ (List.pairwise_lt_range' ..), fun pos => ?_,
      fun pos hpos => ?_, hsettles, fun hall => absurd hall hnone⟩
    · rw [hmem, hfinds.mem_positions, exists_keeps_iff hsettles hnone, mem_pointLoops,
        and_self_left]
    · obtain ⟨hloop, hpos⟩ := (hmem pos).mp hpos
      obtain ⟨m, hm, rfl⟩ := mem_pointLoops.mp hloop
      exact ⟨m, bandMember?_pointLoopPos hm, hfinds.coincident m hm hpos⟩

/-! ### rows and columns -/

/-- Iteration `(i, j)` reads `A[i]` and `A[j]`; only the inner loop is free of dependences. -/
def crossProgram : Program where
  params := []
  context := []
  arrays := [.ofShape "A" "float" 4 1]
  statements := [⟨"S", ["i", "j"], [], [.var 0, .var 1],
    [⟨0, "A", .read, true, [.single (.var 0)]⟩, ⟨1, "A", .read, true, [.single (.var 1)]⟩]⟩]
  regions := [⟨[0], 0, 2, [false, true]⟩]

/-- All iterations in one tile. -/
def crossSchedule : KernelSchedule where
  paramNames := []
  nProgramParam := 0
  context := []
  tileFirst := 0
  tileLen := 2
  nGrid := 0
  nBlock := 0
  tileSizes := [4, 4]
  gridSizes := []
  blockSizes := []
  gridMapping := .wrap
  threadMapping := .wrap
  levels := [.tileLoop, .tileLoop, .pointLoop, .pointLoop]
  coincident := [false, true]
  statements := [⟨0, 0, ⟨0, 2, []⟩, [], [.const 0, .const 0, .var 0, .var 1]⟩]
  stage := .scaled

def crossScope : Scope := .ofSchedule crossProgram .default crossSchedule

/-- The group of reference `id`, with a private copy of four elements. -/
def crossGroup (id : Nat) : Group where
  array := "A"
  nr := id
  refs := [id]
  write := false
  definiteWrite := true
  forcePrivate := false
  sharedTile := none
  privateTile := some ⟨[⟨4, ⟨.const 0, 1⟩, none⟩], 0, 2⟩
  lastShared := none

/-- The elements `A[i]` lose their private copy, and the inner loop is unrolled for the elements
`A[j]`. -/
theorem cross_unrolls_inner_loop :
    checkUnroll crossScope [crossGroup 0, crossGroup 1] =
        .ok ([{ crossGroup 0 with privateTile := none }, crossGroup 1], [3]) ∧
      crossScope.dependsOn [1] 3 = .ok true ∧
      ∃ m, crossSchedule.bandMember? 3 = some m ∧ crossSchedule.coincident[m]? = some true := by
  have hunroll : checkUnroll crossScope [crossGroup 0, crossGroup 1] =
      .ok ([{ crossGroup 0 with privateTile := none }, crossGroup 1], [3]) := by decide +kernel
  obtain ⟨-, hpositions, hcoincident, -⟩ := unrolled_loops_carry_no_dependence hunroll
  refine ⟨hunroll, ?_, hcoincident 3 (List.mem_singleton_self 3)⟩
  obtain ⟨-, g, hg, htile, hdep⟩ := (hpositions 3).mp (List.mem_singleton_self 3)
  simp only [List.mem_cons, List.not_mem_nil, or_false] at hg
  rcases hg with rfl | rfl
  · simp at htile
  · exact hdep

end KernelMap.Group
