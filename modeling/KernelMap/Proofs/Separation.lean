import KernelMap.Proofs.Granule

/-!
# KernelMap.Proofs.Separation

Groups of one array keep out of each other's way.

Merging goes on until no two groups overlap of which one writes, inside of the loops around the
copies of their shared tiles.  A later union of shared tiles whose copies stay inside of these loops
keeps writes apart from other references (`Group.Separated`).

Private copies are not made at that level: they sit just below the loops that the private tile
depends on, which may be further out.  So a private copy is up to date only if its level is no
further out than the level at which the groups were told apart.

Reads of two groups of which one writes may still meet inside of these loops, as the test of overlap
may change its mind when it is given the groups the other way around (`Group.coalesced_reads_meet`).

Main statement: `Group.local_copies_do_not_conflict`.
-/

namespace KernelMap

/-! ## joining to the end -/

section Join

variable {ε α β : Type} {join : α → α → Outcome ε (Option (α × β))}

/-- Where nothing was joined, the element joins with none of the list. -/
theorem joinWith_eq_none {a : α} {bs : List α} (h : joinWith join a bs = .ok none) :
    ∀ b ∈ bs, join a b = .ok none := by
  induction bs with
  | nil => simp
  | cons b bs ih =>
      simp only [joinWith, Outcome.bind_eq_ok] at h
      obtain ⟨joined, hjoined, h⟩ := h
      cases joined with
      | some c => simp at h
      | none =>
          simp only [Outcome.bind_eq_ok] at h
          obtain ⟨found, hfound, h⟩ := h
          cases found with
          | some c => simp at h
          | none => exact List.forall_mem_cons.mpr ⟨hjoined, ih hfound⟩

/-- Where nothing is joined, no pair lets it. -/
theorem pairwise_of_joinFirst_eq_none {as : List α} (h : joinFirst join as = .ok none) :
    as.Pairwise fun a b => join a b = .ok none := by
  induction as with
  | nil => exact .nil
  | cons a as ih =>
      simp only [joinFirst, Outcome.bind_eq_ok] at h
      obtain ⟨joined, hjoined, h⟩ := h
      cases joined with
      | some c => simp at h
      | none =>
          simp only [Outcome.bind_eq_ok] at h
          obtain ⟨found, hfound, h⟩ := h
          cases found with
          | some c => simp at h
          | none => exact .cons (joinWith_eq_none hjoined) (ih hfound)

end Join

namespace Group

variable {sc : Scope} {gs gs' : List Group} {a b c : Group}

/-- As many rounds as there are groups are enough. -/
theorem joinFirst_of_mergeRounds {join : Group → Group → Outcome MapError (Option (Group × Unit))}
    {n : Nat} (hn : gs.length ≤ n) (h : mergeRounds join n gs = .ok gs') :
    joinFirst join gs' = .ok none := by
  induction n generalizing gs with
  | zero =>
      simp only [mergeRounds, Except.ok.injEq] at h
      rw [← h, List.length_eq_zero_iff.mp (Nat.le_zero.mp hn)]
      rfl
  | succ n ih =>
      simp only [mergeRounds, Outcome.bind_eq_ok] at h
      obtain ⟨joined, hjoined, h⟩ := h
      cases joined with
      | none =>
          rw [Outcome.pure_eq_ok] at h
          exact h ▸ hjoined
      | some round =>
          have hlen := length_of_joinFirst hjoined
          exact ih (by omega) h

/-- Groups that are not merged although one of them writes do not overlap. -/
theorem overlap_of_mergeWriting_eq_none {depthOf : Group → Group → Nat}
    {finish : Group → Outcome MapError Group} (h : mergeWriting sc depthOf finish a b = .ok none)
    (hwrite : (a.write || b.write) = true) : overlap sc (depthOf a b) a b = .ok false := by
  simp only [mergeWriting, hwrite, Bool.not_true, Bool.false_eq_true, if_false, Outcome.bind_eq_ok,
    Outcome.ofEngine_eq_ok] at h
  obtain ⟨overlapping, hoverlap, h⟩ := h
  cases overlapping with
  | false => exact hoverlap
  | true =>
      simp only [if_true, Outcome.bind_eq_ok, Outcome.pure_eq_ok] at h
      obtain ⟨_, -, h⟩ := h
      cases h

/-- In the end no two groups overlap of which one writes. -/
theorem pairwise_of_mergeOnLastShared (h : mergeOnLastShared sc gs = .ok gs') :
    gs'.Pairwise fun a b => (a.write || b.write) = true →
      overlap sc (min a.copyLevel b.copyLevel) a b = .ok false :=
  (pairwise_of_joinFirst_eq_none (joinFirst_of_mergeRounds le_rfl h)).imp fun hnone =>
    overlap_of_mergeWriting_eq_none hnone

end Group

/-! ## meetings -/

namespace KernelSchedule.Visit

variable {p : Program} {o : Options} {k : KernelSchedule} {params : List Int}
  {refs refs' : List Nat} {v : k.Visit p params refs} {v' : k.Visit p params refs'} {depth : Nat}

/-- The visits touch one element at one point of the first `depth` coordinates. -/
def Meets (depth : Nat) (v : k.Visit p params refs) (v' : k.Visit p params refs') : Prop :=
  v.element = v'.element ∧ v.coords.take depth = v'.coords.take depth

theorem Meets.symm (h : v.Meets depth v') : v'.Meets depth v := ⟨h.1.symm, h.2.symm⟩

/-- Visits that meet also meet inside of fewer loops. -/
theorem Meets.mono (h : v.Meets depth v') {depth' : Nat} (hle : depth' ≤ depth) :
    v.Meets depth' v' := by
  refine ⟨h.1, ?_⟩
  have htake := congrArg (List.take depth') h.2
  rwa [List.take_take, List.take_take, min_eq_left hle] at htake

/-- Groups without overlap do not meet. -/
theorem not_meets_of_overlap (hk : k.Valid p) (hparams : p.Admits params) {a b : Group}
    (h : Group.overlap (Scope.ofSchedule p o k) depth a b = .ok false) (v : k.Visit p params a.refs)
    (v' : k.Visit p params b.refs) : ¬ v.Meets depth v' := by
  simp only [Group.overlap, Outcome.bind_eq_ok] at h
  obtain ⟨x, hx, y, hy, h⟩ := h
  obtain ⟨hparam, hin, hout, -⟩ := v.exists_piece hk hparams hx
  obtain ⟨hparam', hin', hout', -⟩ := v'.exists_piece hk hparams hy
  obtain ⟨piece, hpiece, hc⟩ := v.exists_contains hk hparams hx
  obtain ⟨piece', hpiece', w, hw, hwparam, hwin, hwout⟩ := v'.exists_contains hk hparams hy
  rintro ⟨helement, hagree⟩
  rw [← helement] at hout' hwout
  -- the second visit, at the first coordinates of `v`
  have hc' : y.Contains piece' (.ofList params) (.ofList v.coords) (.ofList v.element) :=
    ⟨w, hw, hwparam,
      fun j hj => (hwin j hj).trans (Valuation.ofList_eq_of_take hagree.symm (hin' ▸ hj)), hwout⟩
  exact Access.not_contains_of_overlaps (Scope.access_eq_ok hx).1 (Scope.access_eq_ok hy).1
    ⟨hparam'.trans hparam.symm, hin'.trans hin.symm, hout'.trans hout.symm⟩ h hpiece
    hpiece' ⟨hc, hc'⟩

end KernelSchedule.Visit

/-- Where no number occurs twice, no array with references is declared twice. -/
theorem Scope.pairwise_arrays {p : Program} {o : Options} {k : KernelSchedule}
    (hnodup : ((ofSchedule p o k).refs.map (·.reference.id)).Nodup) :
    p.arrays.Pairwise fun x y => x.name = y.name → (ofSchedule p o k).referencesTo x.name = [] := by
  rw [ofSchedule, List.map_flatMap, List.nodup_flatMap] at hnodup
  refine hnodup.2.imp fun {x y} hdisjoint hname => ?_
  have hempty : locate p k x.name = [] := by
    replace hdisjoint : List.Disjoint ((locate p k x.name).map fun l => l.reference.id)
        ((locate p k y.name).map fun l => l.reference.id) := hdisjoint
    rw [← hname, List.disjoint_left] at hdisjoint
    by_contra hne
    obtain ⟨r, hr⟩ := List.exists_mem_of_ne_nil _ hne
    have hid := List.mem_map_of_mem (f := fun l : Located => l.reference.id) hr
    exact hdisjoint hid hid
  simp only [referencesTo, List.map_eq_nil_iff, List.filter_eq_nil_iff]
  intro r hr harray
  obtain ⟨z, -, hr⟩ := List.mem_flatMap.mp hr
  have hz : r.reference.array = z.name := array_of_mem_locate hr
  rw [← hz, beq_iff_eq.mp harray, hempty] at hr
  simp at hr

namespace Group

variable {p : Program} {o : Options} {region : Region} {k : KernelSchedule} {sc : Scope}
  {params : List Int} {formed checked groups gs gs' : List Group} {unroll refs : List Nat}
  {a a' b b' c g h : Group} {name : String}

/-! ## separated groups -/

/-- One of the visits is a write, or one of the groups writes and no memory is shared. -/
def Clash (o : Options) (a b : Group) (v : k.Visit p params a.refs)
    (v' : k.Visit p params b.refs) : Prop :=
  v.reference.isWrite = true ∨ v'.reference.isWrite = true ∨
    o.useSharedMemory = false ∧ (a.write || b.write) = true

/-- Clashing visits of the groups do not meet inside of the loops around the copies of both. -/
def Separated (p : Program) (o : Options) (k : KernelSchedule) (a b : Group) : Prop :=
  ∀ params, p.Admits params → ∀ (v : k.Visit p params a.refs) (v' : k.Visit p params b.refs),
    Clash o a b v v' → ¬ v.Meets (min a.copyLevel b.copyLevel) v'

theorem Separated.symm (h : Separated p o k a b) : Separated p o k b a := by
  intro params hparams v v' hclash hmeets
  refine h params hparams v' v ?_ (min_comm b.copyLevel a.copyLevel ▸ hmeets.symm)
  rcases hclash with hwrite | hwrite | ⟨hoff, hwrite⟩
  · exact Or.inr (Or.inl hwrite)
  · exact Or.inl hwrite
  · exact Or.inr (Or.inr ⟨hoff, Bool.or_comm b.write a.write ▸ hwrite⟩)

/-- Groups that give up tiles stay separated. -/
theorem Separated.of_demoted (h : Separated p o k a b) (ha : Demoted a a') (hb : Demoted b b') :
    Separated p o k a' b' := by
  have hrefs := refs_of_core ha.core
  have hrefs' := refs_of_core hb.core
  have hwrite : a'.write = a.write := (congrArg Group.write ha.core :)
  have hwrite' : b'.write = b.write := (congrArg Group.write hb.core :)
  intro params hparams v v' hclash hmeets
  rw [copyLevel, copyLevel, ha.lastShared, hb.lastShared] at hmeets
  rw [Clash, hwrite, hwrite'] at hclash
  exact h params hparams (v.widen (hrefs ▸ v.id_mem)) (v'.widen (hrefs' ▸ v'.id_mem)) hclash hmeets

/-- A group with a visit that writes is one that writes. -/
theorem Describes.write_of_visit (hk : k.Valid p) (ha : a.Describes (Scope.ofSchedule p o k) name)
    (v : k.Visit p params a.refs) (h : v.reference.isWrite = true) : a.write = true := by
  obtain ⟨l, hl, -⟩ := ha.refs _ v.id_mem
  rw [ha.write, List.any_eq_true]
  refine ⟨v.reference.id, v.id_mem, ?_⟩
  rw [hl, Option.any_some, v.reference_eq hk hl]
  exact h

/-- Groups are separated if they do not overlap where one of them writes. -/
theorem separated_of_overlap (hk : k.Valid p) (ha : a.Describes (Scope.ofSchedule p o k) name)
    (hb : b.Describes (Scope.ofSchedule p o k) name)
    (h : (a.write || b.write) = true →
      overlap (Scope.ofSchedule p o k) (min a.copyLevel b.copyLevel) a b = .ok false) :
    Separated p o k a b := by
  intro params hparams v v' hclash
  have hwrite : (a.write || b.write) = true := by
    rcases hclash with hwrite | hwrite | ⟨-, hwrite⟩
    · rw [ha.write_of_visit hk v hwrite, Bool.true_or]
    · rw [hb.write_of_visit hk v' hwrite, Bool.or_true]
    · exact hwrite
  exact KernelSchedule.Visit.not_meets_of_overlap hk hparams (h hwrite) v v'

/-- With shared memory, the union of two groups is separated from a third group that both are
separated from, if its copies are no further out. -/
theorem Separated.merge (ha : Separated p o k a b) (ha' : Separated p o k a' b)
    (hc : c.refs.Perm (a.refs ++ a'.refs)) (hlevel : a.copyLevel ≤ c.copyLevel)
    (hlevel' : a'.copyLevel ≤ c.copyLevel) (hshared : o.useSharedMemory = true) :
    Separated p o k c b := by
  intro params hparams v v' hclash hmeets
  have hwrite : v.reference.isWrite = true ∨ v'.reference.isWrite = true := by
    rcases hclash with hwrite | hwrite | ⟨hoff, -⟩
    · exact Or.inl hwrite
    · exact Or.inr hwrite
    · simp [hshared] at hoff
  rcases List.mem_append.mp (hc.mem_iff.mp v.id_mem) with hid | hid
  · exact ha params hparams (v.widen hid) v' (hwrite.imp_right Or.inl)
      (hmeets.mono (min_le_min_right _ hlevel))
  · exact ha' params hparams (v.widen hid) v' (hwrite.imp_right Or.inl)
      (hmeets.mono (min_le_min_right _ hlevel'))

/-! ## all steps -/

/-- After merging on copy levels, the groups are separated from each other. -/
theorem separated_of_mergeOnLastShared (hk : k.Valid p)
    (h : Partitions (Scope.ofSchedule p o k) name refs gs)
    (hgs' : mergeOnLastShared (Scope.ofSchedule p o k) gs = .ok gs') :
    gs'.Pairwise (Separated p o k) := by
  have hdescribes := (h.mergeOnLastShared hgs').describes
  exact (pairwise_of_mergeOnLastShared hgs').imp_of_mem fun ha hb =>
    separated_of_overlap hk (hdescribes _ ha) (hdescribes _ hb)

/-- A union of shared tiles whose copies do not move keeps groups separated. -/
theorem separated_of_coalescePair {elementSize depth : Nat} (hgs : gs.Pairwise (Separated p o k))
    (hgs' : joinFirst (coalescePair (Scope.ofSchedule p o k) elementSize depth) gs =
      .ok (some (gs', false))) :
    gs'.Pairwise (Separated p o k) := by
  have hsymm : ∀ {a b : Group}, Separated p o k a b → Separated p o k b a := fun h => h.symm
  obtain ⟨a, a', c, rest, hperm, hperm', hc⟩ := joinFirst_eq_ok hgs'
  obtain ⟨hbounds, htile, hlevels⟩ := coalescePair_eq_ok hc
  obtain ⟨hlevel, hlevel'⟩ := hlevels rfl
  obtain ⟨t, ht⟩ := Option.isSome_iff_exists.mp htile
  have hshared := ((placed_of_computeBounds hbounds).sharedTile t ht).2.1
  have hrefs : c.refs.Perm (a.refs ++ a'.refs) :=
    refs_of_core (core_of_coalescePair hc) ▸ Sorted.perm_sortBy _ _
  rw [hperm.pairwise_iff hsymm, List.pairwise_cons, List.pairwise_cons] at hgs
  obtain ⟨ha, ha', hrest⟩ := hgs
  rw [hperm'.pairwise_iff hsymm, List.pairwise_cons]
  refine ⟨fun b hb => ?_, hrest⟩
  exact (ha b (List.mem_cons_of_mem _ hb)).merge (ha' b hb) hrefs hlevel hlevel' hshared

/-- The groups stay a partition, which is what the rounds of merging start from. -/
theorem separated_of_coalesceRounds (hk : k.Valid p) {elementSize depth n : Nat}
    (h : Partitions (Scope.ofSchedule p o k) name refs gs ∧ gs.Pairwise (Separated p o k))
    (hgs' : coalesceRounds (Scope.ofSchedule p o k) elementSize depth n gs = .ok gs') :
    Partitions (Scope.ofSchedule p o k) name refs gs' ∧ gs'.Pairwise (Separated p o k) := by
  refine keeps_of_coalesceRounds
    (Q := fun gs => Partitions (Scope.ofSchedule p o k) name refs gs ∧
      gs.Pairwise (Separated p o k)) ?_ ?_ h hgs'
  · intro gs gs' h hround
    exact ⟨h.1.joinFirst (fun _ _ _ _ => core_of_coalescePair) hround,
      separated_of_coalescePair h.2 hround⟩
  · intro gs gs₁ gs' h hround hmerged
    have hpartitions := h.1.joinFirst (fun _ _ _ _ => core_of_coalescePair) hround
    exact ⟨hpartitions.mergeOnLastShared hmerged,
      separated_of_mergeOnLastShared hk hpartitions hmerged⟩

/-- Merging for smaller tiles keeps the groups separated. -/
theorem separated_of_coalesceShared (hk : k.Valid p)
    (h : Partitions (Scope.ofSchedule p o k) name refs gs) (hgs : gs.Pairwise (Separated p o k))
    (hgs' : coalesceShared (Scope.ofSchedule p o k) gs = .ok gs') :
    gs'.Pairwise (Separated p o k) := by
  unfold coalesceShared at hgs'
  split at hgs'
  · rw [← Except.ok.inj hgs']
    exact hgs
  · simp only [Outcome.bind_eq_ok] at hgs'
    obtain ⟨array, -, hgs'⟩ := hgs'
    exact (separated_of_coalesceRounds hk ⟨h, hgs⟩ hgs').2

/-- A relation that does not depend on numbers. -/
theorem pairwise_number {R : Group → Group → Prop}
    (hR : ∀ a b i j, R a b → R { a with nr := i } { b with nr := j }) (h : gs.Pairwise R) :
    (number gs).Pairwise R := by
  have hsnd : ((List.range gs.length).zip gs).map Prod.snd = gs := List.map_snd_zip (by simp)
  rw [← hsnd, List.pairwise_map] at h
  rw [number, List.pairwise_map]
  exact h.imp fun {x y} hxy => hR x.2 y.2 x.1 y.1 hxy

/-- The groups made from the references to an array are separated from each other. -/
theorem separated_of_ofReferences (hk : k.Valid p)
    (hrefs : ∀ id ∈ refs, ∃ r, (Scope.ofSchedule p o k).reference? id = some r ∧
      r.reference.array = name)
    (h : ofReferences (Scope.ofSchedule p o k) refs = .ok gs) : gs.Pairwise (Separated p o k) := by
  simp only [ofReferences, Outcome.bind_eq_ok, Outcome.pure_eq_ok] at h
  obtain ⟨gs₁, h₁, gs₂, h₂, gs₃, h₃, gs₄, h₄, gs₅, h₅, rfl⟩ := h
  have hbounds : Partitions (Scope.ofSchedule p o k) name refs gs₃ :=
    Partitions.bounded hrefs h₁ h₂ h₃
  exact pairwise_number (fun _ _ _ _ h => h)
    (separated_of_coalesceShared hk (hbounds.mergeOnLastShared h₄)
      (separated_of_mergeOnLastShared hk hbounds h₄) h₅)

/-- Groups of different declarations of one array have nothing to share. -/
theorem separated_of_ofArrays (hk : k.Valid p) {arrays : List ArrayDecl}
    (harrays : arrays.Pairwise fun x y => x.name = y.name →
      (Scope.ofSchedule p o k).referencesTo x.name = [])
    (h : ofArrays (Scope.ofSchedule p o k) arrays = .ok gs) :
    gs.Pairwise (fun a b => a.array = b.array → Separated p o k a b) ∧ ∀ g ∈ gs, ∃ x ∈ arrays,
      g.array = x.name := by
  induction arrays generalizing gs with
  | nil =>
      simp only [ofArrays, Except.ok.injEq] at h
      simp [← h]
  | cons x arrays ih =>
      simp only [ofArrays, Outcome.bind_eq_ok, Outcome.pure_eq_ok] at h
      obtain ⟨part, hpart, rest, hrest, rfl⟩ := h
      obtain ⟨hx, harrays⟩ := List.pairwise_cons.mp harrays
      obtain ⟨hpairwise, hnames⟩ := ih harrays hrest
      have hrefs : ∀ id ∈ (Scope.ofSchedule p o k).referencesTo x.name,
          ∃ r, (Scope.ofSchedule p o k).reference? id = some r ∧ r.reference.array = x.name :=
        Scope.exists_of_mem_referencesTo_of_validate hk.program
      have hpartition := Partitions.ofReferences hrefs hpart
      have hname : ∀ g ∈ part, g.array = x.name := fun g hg => (hpartition.describes g hg).array
      have hsame : part.Pairwise fun a b => a.array = b.array → Separated p o k a b :=
        (separated_of_ofReferences hk hrefs hpart).imp fun {a b} hsep
          (_ : a.array = b.array) => hsep
      constructor
      · rw [List.pairwise_append]
        refine ⟨hsame, hpairwise, ?_⟩
        intro a ha b hb harray params hparams v
        obtain ⟨y, hy, hb⟩ := hnames b hb
        have hempty := hx y hy ((hname a ha).symm.trans (harray.trans hb))
        have hid := hpartition.perm.mem_iff.mp (List.mem_flatMap_of_mem ha v.id_mem)
        simp [hempty] at hid
      · intro g hg
        rcases List.mem_append.mp hg with hg | hg
        · exact ⟨x, List.mem_cons_self, hname g hg⟩
        · obtain ⟨y, hy, hg⟩ := hnames g hg
          exact ⟨y, List.mem_cons_of_mem _ hy, hg⟩

/-- Giving up tiles keeps groups of the same array separated. -/
theorem separated_of_demoted
    (h : formed.Pairwise fun a b => a.array = b.array → Separated p o k a b)
    (hdemoted : List.Forall₂ Demoted formed groups) :
    groups.Pairwise fun a b => a.array = b.array → Separated p o k a b := by
  induction hdemoted with
  | nil => exact .nil
  | cons ha hrest ih =>
      obtain ⟨hhead, htail⟩ := List.pairwise_cons.mp h
      refine .cons (fun b' hb' harray => ?_) (ih htail)
      obtain ⟨b, hb, hdemoted⟩ := hrest.exists_of_mem_right hb'
      have hname := (congrArg Group.array ha.core :)
      have hname' := (congrArg Group.array hdemoted.core :)
      exact (hhead b hb (hname.symm.trans (harray.trans hname'))).of_demoted ha hdemoted

/-- Clashing visits of different groups of an array touch different elements, if they agree on the
coordinates around the copies of the first group and these are inside of the loops around the copies
of both shared tiles.  Copies of a shared tile always are. -/
theorem local_copies_do_not_conflict (hp : p.validate = .ok ()) (ho : o.validate = .ok ())
    (hword : o.Representable) (hk : KernelSchedule.build p region o = .ok k)
    (hsc : sc = Scope.ofSchedule p o k) (hnodup : (sc.refs.map (·.reference.id)).Nodup)
    (hall : all sc = .ok formed) (hunroll : checkUnroll sc formed = .ok (checked, unroll))
    (hbudget : enforceBudget sc checked = .ok groups) {i j level : Nat} (hi : groups[i]? = some g)
    (hj : groups[j]? = some h) (hne : i ≠ j) (harray : g.array = h.array)
    (hlevel : Body.copyLevel? k g = some level)
    (hinside : g.memory = .priv → min g.copyLevel h.copyLevel ≤ level) (hparams : p.Admits params)
      (v : k.Visit p params g.refs) (v' : k.Visit p params h.refs)
        (hclash : v.reference.isWrite = true ∨ v'.reference.isWrite = true ∨
      o.useSharedMemory = false ∧ (g.write || h.write) = true)
    (hagree : v.coords.take level = v'.coords.take level) : v.element ≠ v'.element := by
  subst hsc
  have hvalid := KernelSchedule.valid_of_build hp ho hword hk
  have hformed := (separated_of_ofArrays hvalid (Scope.pairwise_arrays hnodup) hall).1
  have hpairwise :=
    List.pairwise_iff_getElem.mp (separated_of_demoted hformed (demoted_of_stages hunroll hbudget))
  obtain ⟨hilt, rfl⟩ := List.getElem?_eq_some_iff.mp hi
  obtain ⟨hjlt, rfl⟩ := List.getElem?_eq_some_iff.mp hj
  have hseparated : Separated p o k groups[i] groups[j] := by
    rcases Nat.lt_or_gt_of_ne hne with hlt | hgt
    · exact hpairwise i j hilt hjlt hlt harray
    · exact (hpairwise j i hjlt hilt hgt harray.symm).symm
  have hle : min groups[i].copyLevel groups[j].copyLevel ≤ level := by
    cases hmemory : groups[i].memory with
    | global => simp [Body.copyLevel?, hmemory] at hlevel
    | shared =>
        simp only [Body.copyLevel?, hmemory, Option.some.injEq] at hlevel
        exact hlevel ▸ min_le_left _ _
    | priv => exact hinside hmemory
  exact fun helement => hseparated params hparams v v' hclash
    (KernelSchedule.Visit.Meets.mono ⟨helement, hagree⟩ hle)

/-! ### from one statement to the next -/

def sourceStatement (domain : List Constraint) (index : Affine) : Statement :=
  ⟨"S", ["i"], domain, [.var 0],
    [⟨0, "A", .read, true, [.single index]⟩, ⟨1, "A", .write, true, [.single index]⟩]⟩

def targetStatement (domain : List Constraint) (index : Affine) : Statement :=
  ⟨"T", ["i"], domain, [.var 0], [⟨2, "A", .read, true, [.single index]⟩]⟩

/-- `for i: { S: if first: A[source] += …; T: if second: … = A[target] }` -/
def handover (first second : List Constraint) (source target : Affine) : Program where
  params := []
  context := []
  arrays := [.ofShape "A" "float" 4 1]
  statements := [sourceStatement first source, targetStatement second target]
  regions := [⟨[0, 1], 0, 1, [false]⟩]

def handoverOptions : Options := { Options.default with tileSizes := [1], useSharedMemory := false }

/-- Tiles of one iteration in a single thread: the coordinates are `[i, 0]`. -/
def handoverSchedule (first second : List Constraint) : KernelSchedule where
  paramNames := []
  nProgramParam := 0
  context := []
  tileFirst := 0
  tileLen := 1
  nGrid := 0
  nBlock := 0
  tileSizes := [1]
  gridSizes := []
  blockSizes := []
  gridMapping := .wrap
  threadMapping := .wrap
  levels := [.tileLoop, .pointLoop]
  coincident := [false]
  statements := [⟨0, 0, ⟨0, 1, []⟩, first, [.var 0, .const 0]⟩,
    ⟨1, 0, ⟨0, 1, []⟩, second, [.var 0, .const 0]⟩]
  stage := .scaled

/-- The references of `S`, with a private copy of one element. -/
def sourceGroup (lower : Affine) : Group where
  array := "A"
  nr := 0
  refs := [0, 1]
  write := true
  definiteWrite := true
  forcePrivate := false
  sharedTile := none
  privateTile := some ⟨[⟨1, ⟨lower, 1⟩, none⟩], 0, 1⟩
  lastShared := some 0

/-- The reference of `T`, in global memory. -/
def targetGroup : Group where
  array := "A"
  nr := 1
  refs := [2]
  write := false
  definiteWrite := true
  forcePrivate := false
  sharedTile := none
  privateTile := none
  lastShared := some 0

section Handover

variable {first second : List Constraint} {source target : Affine}

/-- The write of `S` in an iteration. -/
def sourceVisit (x element : List Int) (hx : (sourceStatement first source).IsInstance [] x)
    (hruns : (handoverSchedule first second).RunsAt ⟨0, 0, ⟨0, 1, []⟩, first,
      [.var 0, .const 0]⟩ [] [] x)
    (helement : Reference.Touches ⟨1, "A", .write, true, [.single source]⟩ [] x element) :
    (handoverSchedule first second).Visit (handover first second source target) [] [0, 1] where
  inst := ⟨_, sourceStatement first source, x, List.mem_cons_self, rfl, hx⟩
  ids := []
  reference := ⟨1, "A", .write, true, [.single source]⟩
  element := element
  runsAt := hruns
  mem_references := List.mem_cons_of_mem _ (List.mem_singleton_self _)
  id_mem := List.mem_cons_of_mem _ (List.mem_singleton_self _)
  touches := helement

/-- The read of `T` in an iteration. -/
def targetVisit (x element : List Int) (hx : (targetStatement second target).IsInstance [] x)
    (hruns : (handoverSchedule first second).RunsAt ⟨1, 0, ⟨0, 1, []⟩, second,
      [.var 0, .const 0]⟩ [] [] x)
    (helement : Reference.Touches ⟨2, "A", .read, true, [.single target]⟩ [] x element) :
    (handoverSchedule first second).Visit (handover first second source target) [] [2] where
  inst := ⟨_, targetStatement second target, x,
    List.mem_cons_of_mem _ (List.mem_singleton_self _), rfl, hx⟩
  ids := []
  reference := ⟨2, "A", .read, true, [.single target]⟩
  element := element
  runsAt := hruns
  mem_references := List.mem_singleton_self _
  id_mem := List.mem_singleton_self _
  touches := helement

end Handover

/-- `S` works on `A[2·i]` and `T` on `A[2·i + 1]`, in every iteration. -/
def alternating : Program := handover [] [] ⟨[2], 0⟩ ⟨[2], 1⟩

def alternatingScope : Scope := .ofSchedule alternating handoverOptions (handoverSchedule [] [])

theorem nodup_alternatingScope : (alternatingScope.refs.map (·.reference.id)).Nodup := by
  decide +kernel

theorem all_alternatingScope : all alternatingScope = .ok [sourceGroup ⟨[2], 0⟩, targetGroup] := by
  decide +kernel

/-- The private copy is made anew in each iteration, in which `T` reads another element than `S`
writes. -/
theorem alternating_does_not_conflict :
    (KernelSchedule.build alternating ⟨[0, 1], 0, 1, [false]⟩ handoverOptions =
      .ok (handoverSchedule [] []) ∧
      all alternatingScope = .ok [sourceGroup ⟨[2], 0⟩, targetGroup] ∧
      Body.copyLevel? (handoverSchedule [] []) (sourceGroup ⟨[2], 0⟩) = some 1) ∧
      ∃ (v : (handoverSchedule [] []).Visit alternating [] [0, 1])
        (v' : (handoverSchedule [] []).Visit alternating [] [2]),
        v.reference.isWrite = true ∧ v.coords = [5, 0] ∧ v'.coords = [5, 0] ∧
        v.element ≠ v'.element := by
  have hk : KernelSchedule.build alternating ⟨[0, 1], 0, 1, [false]⟩ handoverOptions =
      .ok (handoverSchedule [] []) := by
    decide +kernel
  have hunroll : checkUnroll alternatingScope [sourceGroup ⟨[2], 0⟩, targetGroup] =
      .ok ([sourceGroup ⟨[2], 0⟩, targetGroup], []) := by decide +kernel
  have hbudget : enforceBudget alternatingScope [sourceGroup ⟨[2], 0⟩, targetGroup] =
      .ok [sourceGroup ⟨[2], 0⟩, targetGroup] := by decide +kernel
  have hlevel : Body.copyLevel? (handoverSchedule [] []) (sourceGroup ⟨[2], 0⟩) = some 1 := by
    decide +kernel
  have hparams : alternating.Admits [] := by decide
  let v : (handoverSchedule [] []).Visit alternating [] [0, 1] :=
    sourceVisit [5] [10] ⟨rfl, nofun⟩ ⟨.nil, nofun⟩ (.cons rfl .nil)
  let v' : (handoverSchedule [] []).Visit alternating [] [2] :=
    targetVisit [5] [11] ⟨rfl, nofun⟩ ⟨.nil, nofun⟩ (.cons rfl .nil)
  refine ⟨⟨hk, all_alternatingScope, hlevel⟩, v, v', rfl, by decide, by decide, ?_⟩
  exact local_copies_do_not_conflict (by decide +kernel) (by decide +kernel)
    (by decide) hk rfl nodup_alternatingScope all_alternatingScope hunroll hbudget (i := 0)
    (j := 1) rfl rfl (by decide) rfl hlevel (fun _ => le_rfl) hparams v v'
    (Or.inl rfl) (by decide)

/-- `S` writes `A[0]` in iteration `0`, and `T` reads it in iteration `1`. -/
def carried : Program := handover [.eq (.var 0)] [.eq ⟨[1], -1⟩] (.const 0) (.const 0)

def carriedSchedule : KernelSchedule := handoverSchedule [.eq (.var 0)] [.eq ⟨[1], -1⟩]

def carriedScope : Scope := .ofSchedule carried handoverOptions carriedSchedule

/-- The private copy is made once around all iterations, while the groups were told apart one level
further in: `T` reads what the element was before `S`. -/
theorem carried_write_is_hidden :
    (carried.validate = .ok () ∧ handoverOptions.validate = .ok () ∧ carried.Admits [] ∧
      (carriedScope.refs.map (·.reference.id)).Nodup ∧
      KernelSchedule.build carried ⟨[0, 1], 0, 1, [false]⟩ handoverOptions = .ok carriedSchedule) ∧
      (all carriedScope = .ok [sourceGroup (.const 0), targetGroup] ∧
        checkUnroll carriedScope [sourceGroup (.const 0), targetGroup] =
          .ok ([sourceGroup (.const 0), targetGroup], []) ∧
        enforceBudget carriedScope [sourceGroup (.const 0), targetGroup] =
          .ok [sourceGroup (.const 0), targetGroup] ∧
        (Body.build carriedScope [sourceGroup (.const 0), targetGroup]).toOption.isSome = true ∧
        Body.copyLevel? carriedSchedule (sourceGroup (.const 0)) = some 0) ∧
      ∃ (v : carriedSchedule.Visit carried [] [0, 1]) (v' : carriedSchedule.Visit carried [] [2]),
        v.reference.isWrite = true ∧ v.coords = [0, 0] ∧ v'.coords = [1, 0] ∧
        v.element = v'.element := by
  refine ⟨by decide +kernel, by decide +kernel, ?_⟩
  let v : carriedSchedule.Visit carried [] [0, 1] :=
    sourceVisit [0] [0] ⟨rfl, by decide⟩ ⟨.nil, by decide⟩ (.cons rfl .nil)
  let v' : carriedSchedule.Visit carried [] [2] :=
    targetVisit [1] [0] ⟨rfl, by decide⟩ ⟨.nil, by decide⟩ (.cons rfl .nil)
  exact ⟨v, v', rfl, by decide, by decide, rfl⟩

/-! ### reads of different groups -/

/-- Iterations along `k`, at a time given by `i`, that read an element given by `i`. -/
def timedRead (name : String) (id : Nat) (domain : List Constraint) (time index : Affine) :
    Statement :=
  ⟨name, ["i", "k"], domain, [time, .var 1], [⟨id, "A", .read, true, [.single index]⟩]⟩

/-- The read of `A[6]` at time `3`. -/
def readSix : Statement :=
  timedRead "S0" 0 [.ge (.var 0), .ge ⟨[-1], 0⟩] ⟨[1], 3⟩ ⟨[1], 6⟩

/-- The writes of `A[5·i + 2·j]` at time `2·i + 1`, for `0 ≤ i` and `0 ≤ j ≤ 2`. -/
def writeThree : Statement :=
  ⟨"S1", ["i", "j", "k"], [.ge (.var 0), .ge (.var 1), .ge ⟨[0, -1], 2⟩],
    [⟨[2], 1⟩, .var 2], [⟨1, "A", .write, true, [.single ⟨[5, 2], 0⟩]⟩]⟩

/-- The reads of `A[4·i + 2]` at time `3·i`, for `0 ≤ i ≤ 1`. -/
def readTwo : Statement :=
  timedRead "S2" 2 [.ge (.var 0), .ge ⟨[-1], 1⟩] ⟨[3], 0⟩ ⟨[4], 2⟩

/-- The reads of all `A[2·i]` at time `3`. -/
def readEven : Statement := timedRead "S3" 3 [] (.const 3) ⟨[2], 0⟩

/-- At time `3`, every read is of an element with an even number, and the writes are to `A[5]`,
`A[7]` and `A[9]`. -/
def coalesced : Program where
  params := []
  context := []
  arrays := [.ofShape "A" "float" 4 1]
  statements := [readSix, writeThree, readTwo, readEven]
  regions := [⟨[0, 1, 2, 3], 0, 1, [false]⟩]

def coalescedOptions : Options :=
  { Options.default with tileSizes := [1], usePrivateMemory := false }

/-- Tiles of one point in time in a single thread: the coordinates are `[time, 0, k]`. -/
def coalescedSchedule : KernelSchedule where
  paramNames := []
  nProgramParam := 0
  context := []
  tileFirst := 0
  tileLen := 1
  nGrid := 0
  nBlock := 0
  tileSizes := [1]
  gridSizes := []
  blockSizes := []
  gridMapping := .wrap
  threadMapping := .wrap
  levels := [.tileLoop, .pointLoop, .inner]
  coincident := [false]
  statements :=
    [⟨0, 0, ⟨0, 2, []⟩, readSix.domain, [⟨[1], 3⟩, .const 0, .var 1]⟩,
      ⟨1, 0, ⟨0, 3, []⟩, writeThree.domain, [⟨[2], 1⟩, .const 0, .var 2]⟩,
      ⟨2, 0, ⟨0, 2, []⟩, readTwo.domain, [⟨[3], 0⟩, .const 0, .var 1]⟩,
      ⟨3, 0, ⟨0, 2, []⟩, readEven.domain, [.const 3, .const 0, .var 1]⟩]
  stage := .scaled

def coalescedScope : Scope := .ofSchedule coalesced coalescedOptions coalescedSchedule

/-- The write with the reads of `S0` and `S2`, in a shared copy of five elements. -/
def writingGroup : Group where
  array := "A"
  nr := 0
  refs := [0, 1, 2]
  write := true
  definiteWrite := true
  forcePrivate := false
  sharedTile := some ⟨[⟨5, ⟨⟨[5], -5⟩, 2⟩, none⟩], 0, 1⟩
  privateTile := none
  lastShared := some 0

/-- The two groups: the read of `S3` stays in global memory. -/
def coalescedGroups : List Group := [writingGroup, { targetGroup with refs := [3] }]

/-- A write is told apart from the read of `S2`, and coalesced with it once `S0` and `S2` are one
group: the test of overlap depends on the order of its arguments.  The group then writes, and no one
compares it with the read of `S3`, which meets that of `S0` around the shared copy. -/
theorem coalesced_reads_meet :
    (coalesced.validate = .ok () ∧ coalescedOptions.validate = .ok () ∧ coalesced.Admits [] ∧
      (coalescedScope.refs.map (·.reference.id)).Nodup ∧
      KernelSchedule.build coalesced ⟨[0, 1, 2, 3], 0, 1, [false]⟩ coalescedOptions =
        .ok coalescedSchedule) ∧
      (all coalescedScope = .ok coalescedGroups ∧
        checkUnroll coalescedScope coalescedGroups = .ok (coalescedGroups, []) ∧
        enforceBudget coalescedScope coalescedGroups = .ok coalescedGroups ∧
        (Body.build coalescedScope coalescedGroups).toOption.isSome = true ∧
        Body.copyLevel? coalescedSchedule writingGroup = some 1) ∧
      ∃ (v : coalescedSchedule.Visit coalesced [] [0, 1, 2])
        (v' : coalescedSchedule.Visit coalesced [] [3]),
        v.coords = [3, 0, 0] ∧ v'.coords = [3, 0, 0] ∧ v.element = v'.element := by
  refine ⟨by decide +kernel, ⟨by decide +kernel, by decide +kernel, by decide +kernel,
    by decide +kernel, by decide⟩, ?_⟩
  let v : coalescedSchedule.Visit coalesced [] [0, 1, 2] :=
    { inst := ⟨_, readSix, [0, 0], List.mem_cons_self, rfl, rfl, by decide⟩
      ids := []
      reference := ⟨0, "A", .read, true, [.single ⟨[1], 6⟩]⟩
      element := [6]
      runsAt := ⟨.nil, by decide⟩
      mem_references := List.mem_singleton_self _
      id_mem := List.mem_cons_self
      touches := .cons rfl .nil }
  let v' : coalescedSchedule.Visit coalesced [] [3] :=
    { inst := ⟨_, readEven, [3, 0], List.mem_of_getElem? (i := 3) rfl, rfl, rfl, by decide⟩
      ids := []
      reference := ⟨3, "A", .read, true, [.single ⟨[2], 0⟩]⟩
      element := [6]
      runsAt := ⟨.nil, by decide⟩
      mem_references := List.mem_singleton_self _
      id_mem := List.mem_singleton_self _
      touches := .cons rfl .nil }
  exact ⟨v, v', by decide, by decide, rfl⟩

end Group

end KernelMap
