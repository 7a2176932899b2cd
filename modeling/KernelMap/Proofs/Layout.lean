import KernelMap.Proofs.Instances

/-!
# KernelMap.Proofs.Layout

The coordinates of a kernel schedule and their roles.

The coordinates of the kernel of a region are laid out by role (`KernelSchedule.laidOut_of_build`),
so that the position of a coordinate up to the thread ids tells its role (`LaidOut.level_eq`).
Where an instance runs, its coordinates at the positions of the thread ids are the thread ids
(`Realizes.threads_eq`).  A statement that a region lists twice has one schedule
(`KernelSchedule.eq_of_stmt_eq`).
-/

namespace KernelMap.KernelSchedule

/-! ## roles -/

/-- The schedule has the parameters of the program, and its coordinates are in the order of
`layout`. -/
structure LaidOut (p : Program) (k : KernelSchedule) : Prop where
  nProgramParam : k.nProgramParam = p.nParam
  levels : ∃ nInner, k.levels = layout k.tileFirst k.nGrid k.tileLen k.nBlock nInner

variable {p : Program} {k : KernelSchedule}

/-- The kernel of a region is laid out by role. -/
theorem laidOut_of_build {region : Region} {o : Options} (hk : build p region o = .ok k) :
    k.LaidOut p := by
  obtain ⟨_, _, _, _, _, k₀, ss, stage, hassembles, -, rfl⟩ := exists_assembles_of_build hk
  exact ⟨hassembles.nProgramParam, _, hassembles.levels⟩

/-- Up to the thread ids the position of a coordinate tells its role. -/
theorem LaidOut.level_eq (h : k.LaidOut p) {j : Nat} (hj : j < k.privateLen) :
    k.levels[j]? = some (if j < k.tileFirst then .host else if j < k.tileFirst + k.nGrid then
      .blockId else if j < k.sharedLen then .tileLoop else .threadId) := by
  obtain ⟨nInner, hlevels⟩ := h.levels
  rw [privateLen, sharedLen] at hj
  simp only [hlevels, layout, sharedLen, List.getElem?_append, List.getElem?_replicate,
    List.length_append, List.length_replicate]
  grind

/-- The coordinates up to the thread loops are among those of the schedule. -/
theorem LaidOut.privateLen_le_depth (h : k.LaidOut p) : k.privateLen ≤ k.depth := by
  obtain ⟨nInner, hlevels⟩ := h.levels
  simp only [depth, hlevels, layout, List.length_append, List.length_replicate,
    privateLen, sharedLen]
  omega

theorem sharedLen_le_privateLen (k : KernelSchedule) : k.sharedLen ≤ k.privateLen :=
  Nat.le_add_right ..

theorem tileFirst_le_sharedLen (k : KernelSchedule) : k.tileFirst ≤ k.sharedLen := by
  rw [sharedLen]
  omega

/-! ## thread ids -/

/-- The thread that runs an instance is read off its coordinates, after the block and tile loops. -/
theorem Realizes.threads_eq {numbers : List Nat} {m : Mapping} (hp : p.validate = .ok ())
    (hk : k.Realizes p numbers m) {params : List Int} (hparams : p.Admits params)
    {a : k.Instance p params} {ids : List Int} (hrun : a.RunsAt ids) :
    ids.drop k.nGrid = ((a.coords ids).drop k.sharedLen).take k.nBlock := by
  obtain ⟨hfits, hruns, hcoords⟩ := hk.instance_eq hp hparams a
  obtain rfl := (hruns ids).mp hrun
  have hblocks := Mapping.length_blocks hfits
  have hthreads := Mapping.length_threads hfits
  have hbegin : (a.time.take m.tileFirst ++ m.blocks a.time ++ m.loops a.time).length =
      k.sharedLen := by
    rw [List.length_append, List.length_append, Mapping.length_host hfits, hblocks,
      Mapping.length_loops hfits, sharedLen, hk.tileFirst, hk.nGrid, hk.tileLen]
  have hsplit : m.coords a.time = (a.time.take m.tileFirst ++ m.blocks a.time ++ m.loops a.time) ++
      (m.threads a.time ++ (m.points a.time ++ m.post a.time)) := by
    simp only [Mapping.coords, List.append_assoc]
  rw [hcoords, hsplit, ← hbegin, List.drop_left, hk.nBlock, ← hthreads, List.take_left,
    Mapping.ids, hk.nGrid, ← hblocks, List.drop_left]

/-! ## repeated statements -/

/-- The schedules of a kernel are a function of the statements of the region. -/
theorem follows_of_build {region : Region} {o : Options} (hk : build p region o = .ok k) :
    Follows region.statements k.statements := by
  obtain ⟨_, _, _, _, _, k₀, ss, stage, hassembles, hss, rfl⟩ := exists_assembles_of_build hk
  have htiled := follows_of_mapM hassembles.cut
  have hspread := (follows_of_mapM hassembles.dealTiles).trans
    (follows_of_mapM hassembles.dealPoints)
  exact ((htiled.trans hspread).trans (follows_of_mapM hassembles.parametrize)).trans hss.follows

/-- A statement that is listed twice has one schedule. -/
theorem eq_of_stmt_eq {region : Region} {o : Options} (hp : p.validate = .ok ())
    (ho : o.validate = .ok ()) (hword : o.Representable) (hk : build p region o = .ok k) {i j : Nat}
    {st st' : StmtSchedule} (hi : k.statements[i]? = some st) (hj : k.statements[j]? = some st')
    (h : st.stmt = st'.stmt) : st = st' := by
  obtain ⟨m, hm⟩ := exists_realizes hp ho hword hk
  obtain ⟨hlen, hget⟩ := List.forall₂_iff_get.mp hm.statements
  have hnumber : ∀ {i : Nat} {st : StmtSchedule}, k.statements[i]? = some st →
      region.statements[i]? = some st.stmt := by
    intro i st hst
    obtain ⟨hlt, rfl⟩ := List.getElem?_eq_some_iff.mp hst
    rw [List.getElem?_eq_getElem (hlen ▸ hlt)]
    exact congrArg some (hget i (hlen ▸ hlt) hlt).1.symm
  have hsame := follows_of_build hk i j (by rw [hnumber hi, hnumber hj, h])
  exact Option.some.inj (hi.symm.trans (hsame.trans hj))

end KernelMap.KernelSchedule
