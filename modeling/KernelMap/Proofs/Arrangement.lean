import KernelMap.Proofs.Separation

/-!
# KernelMap.Proofs.Arrangement

The groups of a kernel are in order, and their fields say what their references are.

A union takes the place of the first of its two groups and starts with the same reference, so the
groups of an array stay in the order of their first references (`Group.Arranged`).  What all unions
keep holds of the groups in the end (`Group.keeps_of_ofReferences`), and tiles are computed anew for
every union.

Main statement: `Group.groups_summarize_the_references`.
-/

namespace KernelMap

/-! ## the order of references -/

namespace Scope

variable {sc : Scope} {name : String}

/-- The references to an array are listed in the order of the kernel. -/
theorem pairwise_referencesTo (hnodup : (sc.refs.map (·.reference.id)).Nodup) :
    (sc.referencesTo name).Pairwise fun i j => sc.order i < sc.order j := by
  have hall : (sc.refs.map (·.reference.id)).Pairwise fun i j => sc.order i < sc.order j := by
    refine List.pairwise_map.mpr (List.pairwise_iff_getElem.mpr fun i j hi hj hij => ?_)
    rwa [order_of_getElem? hnodup (List.getElem?_eq_getElem hi),
      order_of_getElem? hnodup (List.getElem?_eq_getElem hj)]
  exact hall.sublist (List.filter_sublist.map _)

/-- References to one array have different places. -/
theorem order_inj (hnodup : (sc.refs.map (·.reference.id)).Nodup) {i j : Nat}
    (hi : i ∈ sc.referencesTo name) (hj : j ∈ sc.referencesTo name)
    (h : sc.order i = sc.order j) : i = j := by
  by_contra hne
  have hsymm : Std.Symm fun i j => sc.order i ≠ sc.order j := ⟨fun _ _ h => h.symm⟩
  exact ((pairwise_referencesTo hnodup).imp fun hlt => hlt.ne).forall hi hj hne h

/-- Every reference of a kernel is to an array that is declared. -/
theorem exists_array_of_mem_refs {p : Program} {o : Options} {k : KernelSchedule} {r : Located}
    (h : r ∈ (ofSchedule p o k).refs) : ∃ x ∈ p.arrays, r.reference.array = x.name := by
  obtain ⟨x, hx, hr⟩ := List.mem_flatMap.mp h
  exact ⟨x, hx, array_of_mem_locate hr⟩

/-- The references of a kernel are those to its arrays. -/
theorem perm_referencesTo {p : Program} {o : Options} {k : KernelSchedule}
    (hnodup : ((ofSchedule p o k).refs.map (·.reference.id)).Nodup) :
    (p.arrays.flatMap fun x => (ofSchedule p o k).referencesTo x.name).Perm
      ((ofSchedule p o k).refs.map (·.reference.id)) := by
  refine (List.perm_ext_iff_of_nodup ?_ hnodup).mpr fun id => ?_
  · refine List.nodup_flatMap.mpr ⟨fun x _ => nodup_referencesTo hnodup,
      (pairwise_arrays hnodup).imp ?_⟩
    intro x y hname id hx hy
    obtain ⟨r, hr, harray, hid⟩ := mem_referencesTo.mp hx
    obtain ⟨r', hr', harray', hid'⟩ := mem_referencesTo.mp hy
    obtain rfl : r = r' := List.inj_on_of_nodup_map hnodup hr hr' (hid.trans hid'.symm)
    simp [hname (harray.symm.trans harray')] at hx
  · simp only [List.mem_flatMap, mem_referencesTo, List.mem_map]
    constructor
    · rintro ⟨x, -, r, hr, -, hid⟩
      exact ⟨r, hr, hid⟩
    · rintro ⟨r, hr, hid⟩
      obtain ⟨x, hx, harray⟩ := exists_array_of_mem_refs hr
      exact ⟨x, hx, r, hr, harray, hid⟩

end Scope

namespace Group

variable {sc : Scope} {name : String} {refs : List Nat} {gs gs' : List Group} {a b c g g' : Group}

/-! ## what unions keep -/

/-- What depends on the references only and is kept by every union holds of the groups in the
end. -/
theorem keeps_of_ofReferences {Q : List Group → Prop}
    (hcore : ∀ gs gs', Q gs → gs'.map core = gs.map core → Q gs')
      (hunion : ∀ pre a mid b post c, Q (pre ++ a :: (mid ++ b :: post)) →
        c.core = (merge sc a b).core →
      Q (pre ++ c :: (mid ++ post)))
    (hstart : ∀ gs, refs.mapM (ofReference sc) = .ok gs → Q gs)
      (h : ofReferences sc refs = .ok gs) : Q gs := by
  simp only [ofReferences, Outcome.bind_eq_ok, Outcome.pure_eq_ok] at h
  obtain ⟨gs₁, h₁, gs₂, h₂, gs₃, h₃, gs₄, h₄, gs₅, h₅, rfl⟩ := h
  have hround : ∀ {β : Type} {join : Group → Group → Outcome MapError (Option (Group × β))}
      {gs gs' : List Group} {x : β},
      (∀ a b c x, join a b = .ok (some (c, x)) → c.core = (merge sc a b).core) → Q gs →
        joinFirst join gs = .ok (some (gs', x)) → Q gs' := by
    intro β join gs gs' x hjoin hQ hgs'
    obtain ⟨pre, a, mid, b, post, c, rfl, rfl, hc⟩ := exists_append_of_joinFirst hgs'
    exact hunion pre a mid b post c hQ (hjoin a b c x hc)
  have hwriting : ∀ {gs gs' : List Group}, Q gs → mergeOnLastShared sc gs = .ok gs' →
      Q gs' := fun hQ hgs' =>
    keeps_of_mergeRounds
      (fun _ _ _ => hround fun _ _ _ _ => core_of_mergeWriting fun _ _ =>
        core_of_computeBounds) hQ hgs'
  have hQ₂ : Q gs₂ := keeps_of_mergeRounds (fun _ _ _ => hround fun _ _ _ _ =>
    core_of_mergeWriting fun g g' hg => by rw [Except.ok.inj hg]) (hstart gs₁ h₁) h₂
  have hQ₄ : Q gs₄ := hwriting (hcore _ _ hQ₂ (map_core_of_computeBounds h₃)) h₄
  refine hcore _ _ ?_ (map_core_number gs₅)
  unfold coalesceShared at h₅
  split at h₅
  · exact Except.ok.inj h₅ ▸ hQ₄
  · simp only [Outcome.bind_eq_ok] at h₅
    obtain ⟨array, -, h₅⟩ := h₅
    exact keeps_of_coalesceRounds (fun _ _ => hround fun _ _ _ _ => core_of_coalescePair)
      (fun _ _ _ hQ hjoined => hwriting (hround (fun _ _ _ _ => core_of_coalescePair) hQ hjoined))
      hQ₄ h₅

/-! ## groups in order -/

/-- The place of the first reference of the group. -/
def firstPlace (sc : Scope) (g : Group) : Nat := (g.refs.map sc.order).headD 0

/-- The references of every group are in order, and the groups in the order of their first
references. -/
structure Arranged (sc : Scope) (gs : List Group) : Prop where
  nonempty : ∀ g ∈ gs, g.refs ≠ []
  sorted : ∀ g ∈ gs, g.refs.Pairwise fun i j => sc.order i ≤ sc.order j
  first : (gs.map (firstPlace sc)).Pairwise (· < ·)

/-- The first place of a group is that of one of its references. -/
theorem exists_firstPlace (sc : Scope) (h : g.refs ≠ []) :
    ∃ id ∈ g.refs, firstPlace sc g = sc.order id := by
  obtain ⟨id, rest, hrefs⟩ := List.exists_cons_of_ne_nil h
  exact ⟨id, by simp [hrefs], by simp [firstPlace, hrefs]⟩

/-- If the references are in order, none is before the first place. -/
theorem firstPlace_le (h : g.refs.Pairwise fun i j => sc.order i ≤ sc.order j) {id : Nat}
    (hid : id ∈ g.refs) : firstPlace sc g ≤ sc.order id := by
  obtain ⟨first, rest, hrefs⟩ := List.exists_cons_of_ne_nil (List.ne_nil_of_mem hid)
  rw [hrefs] at h hid
  rw [firstPlace, hrefs, List.map_cons, List.headD_cons]
  rcases List.mem_cons.mp hid with rfl | hid
  · exact le_rfl
  · exact (List.pairwise_cons.mp h).1 id hid

/-- A merged group begins where the earlier one of the two does. -/
theorem firstPlace_merge (ha : a.refs ≠ [])
    (hsa : a.refs.Pairwise fun i j => sc.order i ≤ sc.order j)
    (hsb : b.refs.Pairwise fun i j => sc.order i ≤ sc.order j)
    (hlt : firstPlace sc a < firstPlace sc b) : firstPlace sc (merge sc a b) = firstPlace sc a := by
  have hperm : (merge sc a b).refs.Perm (a.refs ++ b.refs) := Sorted.perm_sortBy _ _
  have hsorted : (merge sc a b).refs.Pairwise fun i j => sc.order i ≤ sc.order j :=
    Sorted.pairwise_sortBy _ _
  refine le_antisymm ?_ ?_
  · obtain ⟨id, hid, heq⟩ := exists_firstPlace sc ha
    rw [heq]
    exact firstPlace_le hsorted (hperm.mem_iff.mpr (List.mem_append_left _ hid))
  · have hne : (merge sc a b).refs ≠ [] := fun hnil => by simp [hnil, ha] at hperm
    obtain ⟨id, hid, heq⟩ := exists_firstPlace sc hne
    rw [heq]
    rcases List.mem_append.mp (hperm.mem_iff.mp hid) with hid | hid
    · exact firstPlace_le hsa hid
    · exact hlt.le.trans (firstPlace_le hsb hid)

/-- The first place depends on the references only. -/
theorem firstPlace_of_core (h : g'.core = g.core) : firstPlace sc g' = firstPlace sc g := by
  rw [firstPlace, refs_of_core h, firstPlace]

namespace Arranged

/-- Groups with the cores of arranged ones are arranged. -/
theorem of_core (h : Arranged sc gs) (hcore : gs'.map core = gs.map core) : Arranged sc gs' := by
  refine ⟨fun g' hg' => ?_, fun g' hg' => ?_, ?_⟩
  · obtain ⟨g, hg, heq⟩ := exists_of_map_core hcore hg'
    exact refs_of_core heq ▸ h.nonempty g hg
  · obtain ⟨g, hg, heq⟩ := exists_of_map_core hcore hg'
    exact refs_of_core heq ▸ h.sorted g hg
  · have hfirst (gs : List Group) : gs.map (firstPlace sc) = (gs.map core).map (firstPlace sc) := by
      rw [List.map_map]
      exact List.map_congr_left fun g _ => firstPlace_of_core rfl
    rw [hfirst, hcore, ← hfirst]
    exact h.first

/-- Groups stay arranged if two are replaced by their union, at the place of the first. -/
theorem union {pre mid post : List Group} (h : Arranged sc (pre ++ a :: (mid ++ b :: post)))
    (hc : c.core = (merge sc a b).core) : Arranged sc (pre ++ c :: (mid ++ post)) := by
  have hrefs : c.refs = (merge sc a b).refs := refs_of_core hc
  have hperm : c.refs.Perm (a.refs ++ b.refs) := hrefs ▸ Sorted.perm_sortBy _ _
  have hsub : ∀ g ∈ pre ++ c :: (mid ++ post), g = c ∨ g ∈ pre ++ a :: (mid ++ b :: post) := by
    simp only [List.mem_append, List.mem_cons]
    tauto
  have hmem : a ∈ pre ++ a :: (mid ++ b :: post) ∧ b ∈ pre ++ a :: (mid ++ b :: post) := by simp
  have hfirst := h.first
  simp only [List.map_append, List.map_cons] at hfirst
  have hlt : firstPlace sc a < firstPlace sc b :=
    (List.pairwise_cons.mp (List.pairwise_append.mp hfirst).2.1).1 _ (by simp)
  have hplace : firstPlace sc c = firstPlace sc a := (firstPlace_of_core hc).trans
    (firstPlace_merge (h.nonempty a hmem.1) (h.sorted a hmem.1) (h.sorted b hmem.2) hlt)
  refine ⟨fun g hg => ?_, fun g hg => ?_, ?_⟩
  · rcases hsub g hg with rfl | hg
    · intro hnil
      simp [hnil, h.nonempty a hmem.1] at hperm
    · exact h.nonempty g hg
  · rcases hsub g hg with rfl | hg
    · exact hrefs ▸ Sorted.pairwise_sortBy _ _
    · exact h.sorted g hg
  · refine hfirst.sublist ?_
    simp only [List.map_append, List.map_cons, hplace]
    exact (List.Sublist.refl _).append
      (((List.Sublist.refl _).append (List.sublist_cons_self _ _)).cons_cons _)

/-- Groups of one reference each, in order, are arranged. -/
theorem singletons (hrefs : refs.Pairwise fun i j => sc.order i < sc.order j)
    (h : refs.mapM (ofReference sc) = .ok gs) : Arranged sc gs := by
  have hgroups : List.Forall₂ (fun id g => g.refs = [id]) refs gs := by
    refine (Outcome.mapM_eq_ok.mp h).imp fun id g hg => ?_
    simp only [ofReference, Outcome.bind_eq_ok, Outcome.pure_eq_ok] at hg
    obtain ⟨r, -, array, -, rfl⟩ := hg
    rfl
  have hplaces : gs.map (firstPlace sc) = refs.map sc.order := by
    rw [← List.forall₂_eq_eq_eq, List.forall₂_map_left_iff, List.forall₂_map_right_iff]
    exact hgroups.flip.imp fun g id hg => by rw [firstPlace, hg]; rfl
  refine ⟨fun g hg => ?_, fun g hg => ?_, hplaces ▸ List.pairwise_map.mpr hrefs⟩
  · obtain ⟨id, -, hid⟩ := hgroups.exists_of_mem_right hg
    simp [hid]
  · obtain ⟨id, -, hid⟩ := hgroups.exists_of_mem_right hg
    simp [hid]

/-- The groups made from references in order are arranged. -/
theorem ofReferences (hrefs : refs.Pairwise fun i j => sc.order i < sc.order j)
    (h : Group.ofReferences sc refs = .ok gs) : Arranged sc gs :=
  keeps_of_ofReferences (fun _ _ => of_core) (fun _ _ _ _ _ _ => union)
    (fun _ => singletons hrefs) h

end Arranged

/-! ## tiles and numbers -/

/-- Tiles are computed from the references alone. -/
theorem computeBounds_of_core (hcore : g'.core = g.core) (h : computeBounds sc g = .ok b) :
    computeBounds sc g' = .ok { b with nr := g'.nr } := by
  obtain ⟨array, nr, refs, write, definiteWrite, forcePrivate, sharedTile,
    privateTile, lastShared⟩ := g'
  simp only [core, Group.mk.injEq, true_and] at hcore
  obtain ⟨rfl, rfl, rfl, rfl, rfl, -⟩ := hcore
  simp only [computeBounds, Outcome.bind_eq_ok] at h ⊢
  obtain ⟨array, harray, h⟩ := h
  refine ⟨array, harray, ?_⟩
  split
  · next hscalar =>
    rw [if_pos hscalar, Outcome.pure_eq_ok] at h
    rw [← h]
    rfl
  next hscalar =>
  rw [if_neg hscalar] at h
  split
  · next hinexact =>
    rw [if_pos hinexact, Outcome.pure_eq_ok] at h
    rw [← h]
    rfl
  next hinexact =>
  rw [if_neg hinexact] at h
  simp only [Outcome.bind_eq_ok] at h ⊢
  obtain ⟨reuse, hreuse, sharedTile, hshared, privateTile, hprivate, h⟩ := h
  refine ⟨reuse, hreuse, sharedTile, hshared, privateTile, hprivate, ?_⟩
  split
  · next hfail =>
    rw [if_pos hfail] at h
    simp at h
  · next hfail =>
    rw [if_neg hfail, Outcome.pure_eq_ok] at h
    rw [← h]
    rfl

/-- Choosing the tiles of a group again changes nothing. -/
theorem computeBounds_idem (h : computeBounds sc g = .ok g') : computeBounds sc g' = .ok g' :=
  computeBounds_of_core (core_of_computeBounds h) h

theorem map_nr_number (gs : List Group) : (number gs).map (·.nr) = List.range gs.length := by
  rw [number, List.map_map]
  exact List.map_fst_zip (by simp)

/-! ## groups of one array -/

theorem ofReferences_nil (sc : Scope) : ofReferences sc [] = .ok [] := rfl

/-- The groups made from the references to an array are groups of that array. -/
theorem array_of_ofReferences (hnodup : (sc.refs.map (·.reference.id)).Nodup)
    (h : ofReferences sc (sc.referencesTo name) = .ok gs) : ∀ g ∈ gs, g.array = name :=
  fun g hg => ((Partitions.ofReferences
    (Scope.exists_of_mem_referencesTo hnodup) h).describes g hg).array

/-- The groups of an array are made from its references alone. -/
theorem ofReferences_of_ofArrays (hnodup : (sc.refs.map (·.reference.id)).Nodup)
    {arrays : List ArrayDecl} (harrays : arrays.Pairwise fun x y => x.name = y.name →
      sc.referencesTo x.name = [])
    (h : ofArrays sc arrays = .ok gs) :
    (∀ name, (∀ x ∈ arrays, x.name ≠ name) → gs.filter (·.array == name) = []) ∧
      ∀ x ∈ arrays, ofReferences sc (sc.referencesTo x.name) =
        .ok (gs.filter (·.array == x.name)) := by
  induction arrays generalizing gs with
  | nil =>
      simp only [ofArrays, Except.ok.injEq] at h
      simp [← h]
  | cons y arrays ih =>
      simp only [ofArrays, Outcome.bind_eq_ok, Outcome.pure_eq_ok] at h
      obtain ⟨part, hpart, rest, hrest, rfl⟩ := h
      obtain ⟨hy, harrays⟩ := List.pairwise_cons.mp harrays
      obtain ⟨hother, hsame⟩ := ih harrays hrest
      have hname := array_of_ofReferences hnodup hpart
      have hall : part.filter (·.array == y.name) = part := List.filter_eq_self.mpr fun g hg => by
        simp [hname g hg]
      have hnone : ∀ name, y.name ≠ name → part.filter (·.array == name) = [] := fun name hne =>
        List.filter_eq_nil_iff.mpr fun g hg => by simp [hname g hg, hne]
      have hempty : sc.referencesTo y.name = [] → part = [] := fun hnil => by
        rw [hnil, ofReferences_nil] at hpart
        exact (Except.ok.inj hpart).symm
      refine ⟨fun name hne => ?_, List.forall_mem_cons.mpr ⟨?_, fun x hx => ?_⟩⟩
      · obtain ⟨hne, hrestne⟩ := List.forall_mem_cons.mp hne
        rw [List.filter_append, hnone name hne, hother name hrestne, List.append_nil]
      · -- another declaration of the array has no references and no groups
        have hlater : rest.filter (·.array == y.name) = [] := by
          by_cases hdup : ∃ x ∈ arrays, x.name = y.name
          · obtain ⟨x, hx, heq⟩ := hdup
            have hrefs := hsame x hx
            rw [heq, hy x hx heq.symm, ofReferences_nil] at hrefs
            exact (Except.ok.inj hrefs).symm
          · exact hother y.name fun x hx heq => hdup ⟨x, hx, heq⟩
        rw [List.filter_append, hall, hlater, List.append_nil, hpart]
      · rw [List.filter_append, hsame x hx]
        by_cases heq : y.name = x.name
        · rw [hempty (hy x hx heq), List.filter_nil, List.nil_append]
        · rw [hnone _ heq, List.nil_append]

/-- The groups of an array are those made from its references. -/
theorem ofReferences_of_all {p : Program} {o : Options} {k : KernelSchedule}
    (hsc : sc = Scope.ofSchedule p o k) (hnodup : (sc.refs.map (·.reference.id)).Nodup)
    (h : all sc = .ok gs) (name : String) :
    ofReferences sc (sc.referencesTo name) = .ok (gs.filter (·.array == name)) := by
  have harrays : sc.program.arrays.Pairwise fun x y => x.name = y.name →
      sc.referencesTo x.name = [] := by
    subst hsc
    exact Scope.pairwise_arrays hnodup
  obtain ⟨hother, hsame⟩ := ofReferences_of_ofArrays hnodup harrays h
  by_cases hname : ∃ x ∈ sc.program.arrays, x.name = name
  · obtain ⟨x, hx, rfl⟩ := hname
    exact hsame x hx
  · have hnone : sc.referencesTo name = [] := by
      refine List.eq_nil_iff_forall_not_mem.mpr fun id hid => hname ?_
      obtain ⟨r, hr, harray, -⟩ := Scope.mem_referencesTo.mp hid
      subst hsc
      obtain ⟨x, hx, heq⟩ := Scope.exists_array_of_mem_refs hr
      exact ⟨x, hx, heq.symm.trans harray⟩
    rw [hnone, ofReferences_nil, hother name fun x hx heq => hname ⟨x, hx, heq⟩]

/-! ## groups of a kernel -/

/-- The position of the declaration of the group's array. -/
def arrayPlace (sc : Scope) (g : Group) : Nat := sc.program.arrays.findIdx (·.name == g.array)

/-- The order of groups: by the declarations of their arrays, then by first references. -/
def Precedes (sc : Scope) (g h : Group) : Prop :=
  arrayPlace sc g < arrayPlace sc h ∨ arrayPlace sc g = arrayPlace sc h ∧
    firstPlace sc g < firstPlace sc h

/-- The group has references to its array, in order; its fields say what they do, and its tiles are
those of the references. -/
structure Summarizes (sc : Scope) (g : Group) : Prop extends g.Describes sc g.array where
  nonempty : g.refs ≠ []
  sorted : g.refs.Pairwise fun i j => sc.order i < sc.order j
  declared : ∃ array, sc.program.array? g.array = some array ∧ g.forcePrivate = array.forcePrivate
  tiles : computeBounds sc g = .ok g

/-- The groups of some arrays have exactly the references to these arrays. -/
theorem perm_of_ofArrays (hnodup : (sc.refs.map (·.reference.id)).Nodup) {arrays : List ArrayDecl}
    (h : ofArrays sc arrays = .ok gs) :
    (gs.flatMap (·.refs)).Perm (arrays.flatMap fun x => sc.referencesTo x.name) := by
  induction arrays generalizing gs with
  | nil =>
      simp only [ofArrays, Except.ok.injEq] at h
      simp [← h]
  | cons x arrays ih =>
      simp only [ofArrays, Outcome.bind_eq_ok, Outcome.pure_eq_ok] at h
      obtain ⟨part, hpart, rest, hrest, rfl⟩ := h
      rw [List.flatMap_append, List.flatMap_cons]
      exact (Partitions.ofReferences (Scope.exists_of_mem_referencesTo hnodup) hpart).perm.append
        (ih hrest)

/-- A group with references belongs to the first declaration of its array. -/
theorem arrayPlace_eq {pre post : List ArrayDecl} {x : ArrayDecl}
    (harrays : sc.program.arrays = pre ++ x :: post) (hfirst : ∀ y ∈ pre, y.name ≠ x.name)
    (hg : g.array = x.name) : arrayPlace sc g = pre.length := by
  have hnone : pre.findIdx (·.name == x.name) = pre.length :=
    List.findIdx_eq_length.mpr fun y hy => by simpa using hfirst y hy
  rw [arrayPlace, harrays, hg, List.findIdx_append, hnone, if_neg (lt_irrefl _), List.findIdx_cons]
  simp

/-- The groups of arrays are in the order of the declarations, and within one array of the first
references. -/
theorem pairwise_precedes (hnodup : (sc.refs.map (·.reference.id)).Nodup)
    {pre arrays : List ArrayDecl} (harrays : sc.program.arrays = pre ++ arrays)
    (hdistinct : (pre ++ arrays).Pairwise fun x y => x.name = y.name → sc.referencesTo x.name = [])
    (h : ofArrays sc arrays = .ok gs) :
    gs.Pairwise (Precedes sc) ∧ ∀ g ∈ gs, pre.length ≤ arrayPlace sc g := by
  induction arrays generalizing pre gs with
  | nil =>
      simp only [ofArrays, Except.ok.injEq] at h
      simp [← h]
  | cons x arrays ih =>
      simp only [ofArrays, Outcome.bind_eq_ok, Outcome.pure_eq_ok] at h
      obtain ⟨part, hpart, rest, hrest, rfl⟩ := h
      have hshift : pre ++ x :: arrays = (pre ++ [x]) ++ arrays := by simp
      obtain ⟨hpairwise, hlater⟩ := ih (harrays.trans hshift) (hshift ▸ hdistinct) hrest
      simp only [List.length_append, List.length_singleton] at hlater
      have harranged := Arranged.ofReferences (Scope.pairwise_referencesTo hnodup) hpart
      have hplace : ∀ g ∈ part, arrayPlace sc g = pre.length := by
        intro g hg
        refine arrayPlace_eq harrays (fun y hy heq => ?_) (array_of_ofReferences hnodup hpart g hg)
        have hnil := (List.pairwise_append.mp hdistinct).2.2 y hy x (by simp) heq
        rw [← heq, hnil, ofReferences_nil] at hpart
        simp [← Except.ok.inj hpart] at hg
      refine ⟨List.pairwise_append.mpr ⟨?_, hpairwise, fun g hg g' hg' => Or.inl ?_⟩, ?_⟩
      · exact (List.pairwise_map.mp harranged.first).imp_of_mem fun hg hg' hlt =>
          Or.inr ⟨(hplace _ hg).trans (hplace _ hg').symm, hlt⟩
      · exact hplace g hg ▸ hlater g' hg'
      · refine List.forall_mem_append.mpr ⟨fun g hg => (hplace g hg).ge, fun g hg => ?_⟩
        exact (Nat.le_succ _).trans (hlater g hg)

/-- Each group made from the references to an array summarizes its own. -/
theorem summarizes_of_ofReferences (hnodup : (sc.refs.map (·.reference.id)).Nodup)
    (h : ofReferences sc (sc.referencesTo name) = .ok gs) : ∀ g ∈ gs, g.Summarizes sc := by
  intro g hg
  have hpartition := Partitions.ofReferences (Scope.exists_of_mem_referencesTo hnodup) h
  have harranged := Arranged.ofReferences (Scope.pairwise_referencesTo hnodup) h
  have hdescribes := hpartition.describes g hg
  have hnumber : ∀ (g : Group) nr, computeBounds sc g = .ok g →
      computeBounds sc { g with nr } = .ok { g with nr } :=
    fun g nr => computeBounds_of_core (g := g) rfl
  have htiles : computeBounds sc g = .ok g :=
    forall_of_ofReferences (fun _ _ => computeBounds_idem) hnumber h g hg
  have hsub : ∀ id ∈ g.refs, id ∈ sc.referencesTo name := fun id hid =>
    hpartition.perm.mem_iff.mp (List.mem_flatMap.mpr ⟨g, hg, hid⟩)
  have hdistinct : g.refs.Nodup :=
    (List.nodup_flatMap.mp (hpartition.perm.nodup_iff.mpr (Scope.nodup_referencesTo hnodup))).1 g hg
  refine ⟨hdescribes.array ▸ hdescribes, harranged.nonempty g hg, ?_, ?_, htiles⟩
  · refine ((harranged.sorted g hg).and hdistinct).imp_of_mem fun hi hj hij =>
      lt_of_le_of_ne hij.1 fun heq => ?_
    exact hij.2 (Scope.order_inj hnodup (hsub _ hi) (hsub _ hj) heq)
  · simp only [computeBounds, Scope.array, Outcome.bind_eq_ok, Outcome.orRaise_eq_ok] at htiles
    obtain ⟨array, harray, -⟩ := htiles
    exact ⟨array, harray, hdescribes.forcePrivate array (hdescribes.array ▸ harray)⟩

/-- Every reference of the kernel is in one group, once.  A group has references to its array, in
the order of the kernel, and its fields and tiles are theirs.  The groups are in the order of the
arrays and of their first references, and those of each array are numbered from `0` on. -/
theorem groups_summarize_the_references {p : Program} {o : Options} {k : KernelSchedule}
    {formed : List Group} (hsc : sc = Scope.ofSchedule p o k)
    (hnodup : (sc.refs.map (·.reference.id)).Nodup) (hall : all sc = .ok formed) :
    (formed.flatMap (·.refs)).Perm (sc.refs.map (·.reference.id)) ∧
      (formed.flatMap (·.refs)).Nodup ∧
      (∀ g ∈ formed, g.Summarizes sc) ∧ formed.Pairwise (Precedes sc) ∧
      ∀ name, (formed.filter (·.array == name)).map (·.nr) = List.range (countOf formed name) := by
  have hperm : (formed.flatMap (·.refs)).Perm (sc.refs.map (·.reference.id)) := by
    subst hsc
    exact (perm_of_ofArrays hnodup hall).trans (Scope.perm_referencesTo hnodup)
  have hdistinct : sc.program.arrays.Pairwise fun x y => x.name = y.name →
      sc.referencesTo x.name = [] := by
    subst hsc
    exact Scope.pairwise_arrays hnodup
  refine ⟨hperm, hperm.nodup_iff.mpr hnodup, fun g hg => ?_, ?_, fun name => ?_⟩
  · have hpart := ofReferences_of_all hsc hnodup hall g.array
    exact summarizes_of_ofReferences hnodup hpart g (List.mem_filter.mpr ⟨hg, by simp⟩)
  · exact (pairwise_precedes hnodup (List.nil_append _).symm hdistinct hall).1
  · have hpart := ofReferences_of_all hsc hnodup hall name
    simp only [ofReferences, Outcome.bind_eq_ok, Outcome.pure_eq_ok] at hpart
    obtain ⟨_, -, _, -, _, -, _, -, gs, -, hgs⟩ := hpart
    rw [countOf, List.countP_eq_length_filter, ← hgs, map_nr_number]
    congr 1
    simp [number]

/-- The groups of `alternating`: the references `0` and `1` of `S`, which are one group, and `2` of
`T`. -/
theorem alternating_groups_summarize :
    all alternatingScope = .ok [sourceGroup ⟨[2], 0⟩, targetGroup] ∧
      (sourceGroup ⟨[2], 0⟩).Summarizes alternatingScope ∧ targetGroup.Summarizes alternatingScope ∧
      Precedes alternatingScope (sourceGroup ⟨[2], 0⟩) targetGroup := by
  obtain ⟨-, -, hsummarizes, hprecedes, -⟩ :=
    groups_summarize_the_references rfl nodup_alternatingScope all_alternatingScope
  exact ⟨all_alternatingScope, hsummarizes _ (by simp), hsummarizes _ (by simp),
    (List.pairwise_cons.mp hprecedes).1 _ (by simp)⟩

end Group

end KernelMap
