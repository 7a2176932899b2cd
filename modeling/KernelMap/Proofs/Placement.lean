import KernelMap.Proofs.Grouping
import KernelMap.Proofs.Tile
import KernelMap.Proofs.Visits

/-!
# KernelMap.Proofs.Placement

The tiles of a group belong to the references it has in the end.

Merging recomputes the tiles of the union, so that every tile that a group has after all steps was
inferred from the access of its final references, and the level of its copies goes with its shared
tile (`Group.Placed`).  A tile of the group admits each element that the group visits
(`KernelSchedule.Visit.admits`).
-/

namespace KernelMap

namespace Group

variable {sc : Scope} {g g' : Group}

/-! ## tiles of the final references -/

/-- Each tile of the group is inferred from the access of its references and has a reason, and the
level of the copies goes with the shared tile. -/
structure Placed (sc : Scope) (g : Group) : Prop where
  sharedTile : ∀ t, g.sharedTile = some t → g.lastShared = lastSharedOf sc (some t) ∧
    sc.options.useSharedMemory = true ∧ ∃ acc, sc.access g.refs sc.schedule.sharedLen = .ok acc ∧
    Tile.infer? acc = .ok (some t)
  privateTile : ∀ t, g.privateTile = some t →
    (g.forcePrivate = true ∨ sc.isBijective g.refs = .ok true) ∧
    ∃ acc, sc.access g.refs sc.schedule.privateLen = .ok acc ∧ Tile.infer? acc = .ok (some t)

/-- A shared tile is inferred from the access at the shared level, where shared memory is in use. -/
theorem inferShared_eq_ok {refs : List Nat} {reuse : Bool} {t : Tile}
    (h : inferShared sc refs reuse = .ok (some t)) :
    sc.options.useSharedMemory = true ∧
      ∃ acc, sc.access refs sc.schedule.sharedLen = .ok acc ∧ Tile.infer? acc = .ok (some t) := by
  simp only [inferShared, Outcome.bind_eq_ok] at h
  obtain ⟨wanted, hwanted, h⟩ := h
  split at h
  · next htrue =>
    subst htrue
    refine ⟨?_, by simpa only [Outcome.bind_eq_ok] using h⟩
    unfold wantsShared at hwanted
    split at hwanted
    · simp at hwanted
    · next hon => simpa using hon
  · simp at h

/-- A private tile is inferred from the access at the private level, for a group that is forced or
whose elements belong to one thread each. -/
theorem inferPrivate_eq_ok {reuse : Bool} {t : Tile} (h : inferPrivate sc g reuse = .ok (some t)) :
    (g.forcePrivate = true ∨ sc.isBijective g.refs = .ok true) ∧
      ∃ acc, sc.access g.refs sc.schedule.privateLen = .ok acc ∧
      Tile.infer? acc = .ok (some t) := by
  simp only [inferPrivate, Outcome.bind_eq_ok] at h
  obtain ⟨wanted, hwanted, h⟩ := h
  split at h
  · next htrue =>
    subst htrue
    refine ⟨?_, by simpa only [Outcome.bind_eq_ok] using h⟩
    unfold wantsPrivate at hwanted
    split at hwanted
    · next hforce => exact Or.inl hforce
    split at hwanted
    · exact Or.inr hwanted
    · simp at hwanted
  · simp at h

/-- A group whose tiles have just been computed is placed. -/
theorem placed_of_computeBounds (h : computeBounds sc g = .ok g') : Placed sc g' := by
  simp only [computeBounds, Outcome.bind_eq_ok] at h
  obtain ⟨array, -, h⟩ := h
  split at h
  · rw [Outcome.pure_eq_ok] at h
    exact h ▸ ⟨nofun, nofun⟩
  split at h
  · rw [Outcome.pure_eq_ok] at h
    exact h ▸ ⟨nofun, nofun⟩
  simp only [Outcome.bind_eq_ok, Outcome.ofEngine_eq_ok] at h
  obtain ⟨reuse, -, sharedTile, hshared, privateTile, hprivate, h⟩ := h
  split at h
  · simp at h
  · rw [Outcome.pure_eq_ok] at h
    subst h
    refine ⟨fun t ht => ?_, fun t ht => ?_⟩
    · dsimp only at ht
      exact ⟨by rw [ht], inferShared_eq_ok (ht ▸ hshared)⟩
    · dsimp only at ht
      exact inferPrivate_eq_ok (ht ▸ hprivate)

/-- A group that gives up tiles keeps the reasons for those that it has. -/
theorem Placed.of_demoted (h : Placed sc g) (hg : Demoted g g') : Placed sc g' := by
  have hrefs := refs_of_core hg.core
  have hforce : g'.forcePrivate = g.forcePrivate := (congrArg Group.forcePrivate hg.core :)
  refine ⟨fun t ht => ?_, fun t ht => ?_⟩
  · rw [hg.lastShared, hrefs]
    exact h.sharedTile t (hg.sharedTile t ht)
  · rw [hforce, hrefs]
    exact h.privateTile t (hg.privateTile t ht)

/-! ## all steps -/

variable {gs gs' : List Group} {refs : List Nat}

/-- Joining keeps a property of all groups that the joined groups have. -/
theorem forall_of_joinFirst {β : Type} {P : Group → Prop}
    {join : Group → Group → Outcome MapError (Option (Group × β))} {x : β}
    (hjoin : ∀ a b c x, P a → P b → join a b = .ok (some (c, x)) → P c) (h : ∀ g ∈ gs, P g)
    (hgs' : joinFirst join gs = .ok (some (gs', x))) : ∀ g ∈ gs', P g := by
  obtain ⟨a, b, c, rest, hperm, hperm', hc⟩ := joinFirst_eq_ok hgs'
  intro g hg
  rcases List.mem_cons.mp (hperm'.mem_iff.mp hg) with rfl | hg
  · exact hjoin a b g x (h a (hperm.mem_iff.mpr (by simp))) (h b (hperm.mem_iff.mpr (by simp))) hc
  · exact h g (hperm.mem_iff.mpr (by simp [hg]))

section Bounds

variable {P : Group → Prop} (hbounds : ∀ g g', computeBounds sc g = .ok g' → P g')
include hbounds

/-- What holds of the groups and of every merged one holds after merging on copy levels. -/
theorem forall_of_mergeOnLastShared (h : ∀ g ∈ gs, P g) (hgs' : mergeOnLastShared sc gs = .ok gs') :
    ∀ g ∈ gs', P g :=
  keeps_of_mergeRounds (fun _ _ _ h => forall_of_joinFirst
    (fun _ _ _ _ _ _ hc => hbounds _ _ (mergeWriting_eq_ok hc)) h) h hgs'

/-- What holds of the groups and of every merged one holds after merging for smaller tiles. -/
theorem forall_of_coalesceShared (h : ∀ g ∈ gs, P g) (hgs' : coalesceShared sc gs = .ok gs') :
    ∀ g ∈ gs', P g := by
  have hround : ∀ {elementSize depth : Nat} {gs gs' : List Group} {moved : Bool}, (∀ g ∈ gs, P g) →
      joinFirst (coalescePair sc elementSize depth) gs = .ok (some (gs', moved)) → ∀ g ∈ gs', P g :=
    fun h => forall_of_joinFirst (fun _ _ _ _ _ _ hc => hbounds _ _ (coalescePair_eq_ok hc).1) h
  unfold coalesceShared at hgs'
  split at hgs'
  · rw [← Except.ok.inj hgs']
    exact h
  · simp only [Outcome.bind_eq_ok] at hgs'
    obtain ⟨array, -, hgs'⟩ := hgs'
    exact keeps_of_coalesceRounds (fun _ _ h => hround h)
      (fun _ _ _ h hjoined => forall_of_mergeOnLastShared hbounds (hround h hjoined)) h hgs'

/-- What holds of every group whose tiles have just been computed holds of the groups in the end. -/
theorem forall_of_ofReferences (hnumber : ∀ (g : Group) nr, P g → P { g with nr })
    (h : ofReferences sc refs = .ok gs) : ∀ g ∈ gs, P g := by
  simp only [ofReferences, Outcome.bind_eq_ok, Outcome.pure_eq_ok] at h
  obtain ⟨gs₁, -, gs₂, -, gs₃, h₃, gs₄, h₄, gs₅, h₅, rfl⟩ := h
  have hfirst : ∀ g ∈ gs₃, P g := by
    intro g hg
    obtain ⟨g₀, -, hg₀⟩ := Outcome.exists_of_mem_of_mapM h₃ hg
    exact hbounds g₀ g hg₀
  have hlast := forall_of_coalesceShared hbounds (forall_of_mergeOnLastShared hbounds hfirst h₄) h₅
  intro g hg
  obtain ⟨⟨nr, g₀⟩, hmem, rfl⟩ := List.mem_map.mp hg
  exact hnumber g₀ nr (hlast g₀ (List.of_mem_zip hmem).2)

/-- What holds of a new group, of every merged one and under numbering holds of all groups. -/
theorem forall_of_ofArrays (hnumber : ∀ (g : Group) nr, P g → P { g with nr })
    {arrays : List ArrayDecl} (h : ofArrays sc arrays = .ok gs) : ∀ g ∈ gs, P g := by
  induction arrays generalizing gs with
  | nil =>
      simp only [ofArrays, Except.ok.injEq] at h
      simp [← h]
  | cons array arrays ih =>
      simp only [ofArrays, Outcome.bind_eq_ok, Outcome.pure_eq_ok] at h
      obtain ⟨part, hpart, rest, hrest, rfl⟩ := h
      exact List.forall_mem_append.mpr ⟨forall_of_ofReferences hbounds hnumber hpart, ih hrest⟩

end Bounds

/-- The groups of a kernel are placed, and stay so when they give up tiles. -/
theorem placed_of_all {formed : List Group} (hall : all sc = .ok formed)
    (hdemoted : List.Forall₂ Demoted formed gs) : ∀ g ∈ gs, Placed sc g := by
  intro g hg
  obtain ⟨g₀, hg₀, hd⟩ := hdemoted.exists_of_mem_right hg
  have hplaced : Placed sc g₀ := forall_of_ofArrays (fun _ _ => placed_of_computeBounds)
    (fun _ _ h => ⟨h.sharedTile, h.privateTile⟩) hall g₀ hg₀
  exact hplaced.of_demoted hd

end Group

/-! ## visited elements -/

/-- A tile has the parameters and the inputs of the access that it is inferred from. -/
theorem Tile.infer?_eq_ok {acc : Access} {t : Tile} (h : infer? acc = .ok (some t)) :
    t.nParam = acc.nParam ∧ t.nOuter = acc.nIn := by
  simp only [infer?, Outcome.bind_eq_ok, Outcome.pure_eq_ok, Option.map_eq_some_iff] at h
  obtain ⟨_, -, bs, -, rfl⟩ := h
  exact ⟨rfl, rfl⟩

namespace KernelSchedule.Visit

variable {p : Program} {o : Options} {k : KernelSchedule} {params : List Int} {refs : List Nat}
  {acc : Access} {depth : Nat} {t : Tile}

/-- The values that the bounds of a tile depend on. -/
def outer (v : k.Visit p params refs) (t : Tile) : List Int := params ++ v.coords.take t.nOuter

/-- A tile inferred from the access of the references admits the element of each visit. -/
theorem admits (hk : k.Valid p) (hparams : p.Admits params) (v : k.Visit p params refs)
    (hacc : (Scope.ofSchedule p o k).access refs depth = .ok acc)
    (ht : Tile.infer? acc = .ok (some t)) :
    (∀ b ∈ t.bounds, b.Regular (t.nParam + t.nOuter)) ∧ t.nParam = p.nParam ∧ t.nOuter = depth ∧
      depth ≤ v.coords.length ∧
      List.Forall₂ (fun b i => b.Admits (.ofList (v.outer t)) i) t.bounds v.element := by
  obtain ⟨hnParam, hnOuter⟩ := Tile.infer?_eq_ok ht
  obtain ⟨hparam, hin, hout, hdepth, -⟩ := v.exists_piece hk hparams hacc
  obtain ⟨piece, hpiece, w, hw, hwparam, hwin, hwout⟩ := v.exists_contains hk hparams hacc
  have hadmits := Tile.admits_of_infer? (Scope.access_eq_ok hacc).1 ht
  have houter : ∀ i, i < acc.nParam + acc.nIn → w i = Valuation.ofList (v.outer t) i := by
    intro i hi
    rw [outer, hnOuter]
    by_cases hlt : i < acc.nParam
    · rw [hwparam i hlt, Valuation.ofList_append_left (hparam ▸ hlt)]
    · obtain ⟨j, rfl⟩ : ∃ j, i = acc.nParam + j := ⟨i - acc.nParam, by omega⟩
      have hj : j < acc.nIn := by omega
      rw [hwin j hj, hparam, Valuation.ofList_append_right, Valuation.ofList, Valuation.ofList,
        List.getD_eq_getElem?_getD, List.getD_eq_getElem?_getD, List.getElem?_take_of_lt hj]
  have helement : v.element = (List.range acc.nOut).map (Valuation.ofList v.element) := by
    refine List.ext_getElem (by simp [hout]) fun d hd _ => ?_
    rw [List.getElem_map, List.getElem_range, Valuation.ofList, List.getD_eq_getElem _ _ hd]
  refine ⟨fun b hb => ?_, by rw [hnParam, hparam, hparams.1], hnOuter.trans hin, hdepth, ?_⟩
  · obtain ⟨d, -, hb, -⟩ := hadmits.exists_of_mem_right hb
    rwa [hnParam, hnOuter]
  · rw [helement, List.forall₂_map_right_iff]
    have hrange : ∀ d ∈ List.range acc.nOut, d < acc.nOut := fun d => List.mem_range.mp
    refine ((List.forall₂_and_left _ _).mpr ⟨hrange, hadmits⟩).flip.imp fun b d hb => ?_
    obtain ⟨hd, hregular, hholds⟩ := hb
    exact hwout d hd ▸ (hholds piece hpiece w hw).congr hregular houter

end KernelSchedule.Visit

end KernelMap
