import KernelMap.Proofs.Outcome
import KernelMap.Schedule.Build

/-!
# KernelMap.Proofs.Assembly

How the kernel schedule of a region comes about.

The schedule is assembled in stages, which `KernelSchedule.Assembles` lists with what each
of them is given and gives.  Then the tile loops may be scaled, one after the other
(`KernelSchedule.scaleFrom_induction`).  Scaling replaces coordinates of the statements and
nothing else (`KernelSchedule.Rescales`), so what does not depend on the coordinates can be
read off the stages.

Main statement: `KernelSchedule.exists_assembles_of_build`.
-/

namespace KernelMap

/-! ## lists computed from lists -/

/-- Equal entries of the first list are next to equal entries of the second. -/
def Follows {α β : Type} (xs : List α) (ys : List β) : Prop :=
  ∀ i j : Nat, xs[i]? = xs[j]? → ys[i]? = ys[j]?

theorem Follows.refl {α : Type} (xs : List α) : Follows xs xs := fun _ _ hij => hij

theorem Follows.trans {α β γ : Type} {xs : List α} {ys : List β} {zs : List γ} (h : Follows xs ys)
    (h' : Follows ys zs) : Follows xs zs :=
  fun i j hij => h' i j (h i j hij)

/-- Entries that are a function of those of the first list follow them. -/
theorem follows_of_forall₂ {α β : Type} {R : α → β → Prop} (hR : ∀ x y y', R x y → R x y' → y = y')
    {xs : List α} {ys : List β} (h : List.Forall₂ R xs ys) : Follows xs ys := by
  obtain ⟨hlen, hget⟩ := List.forall₂_iff_get.mp h
  intro i j hij
  by_cases hi : i < xs.length
  · have hj : j < xs.length := by
      rw [List.getElem?_eq_getElem hi] at hij
      exact (List.getElem?_eq_some_iff.mp hij.symm).1
    rw [List.getElem?_eq_getElem hi, List.getElem?_eq_getElem hj, Option.some.injEq] at hij
    rw [List.getElem?_eq_getElem (hlen ▸ hi), List.getElem?_eq_getElem (hlen ▸ hj),
      Option.some.injEq]
    exact hR _ _ _ (hget i hi (hlen ▸ hi)) (by simpa [hij] using hget j hj (hlen ▸ hj))
  · have hj : ¬ j < xs.length := fun hj => by
      rw [List.getElem?_eq_getElem hj] at hij
      exact hi (List.getElem?_eq_some_iff.mp hij).1
    rw [List.getElem?_eq_none (by omega), List.getElem?_eq_none (by omega)]

/-- Results of a list follow its elements. -/
theorem follows_of_mapM {ε α β : Type} {f : α → Outcome ε β} {xs : List α} {ys : List β}
    (h : xs.mapM f = .ok ys) : Follows xs ys :=
  follows_of_forall₂ (fun _ _ _ hy hy' => Except.ok.inj (hy.symm.trans hy'))
    (Outcome.mapM_eq_ok.mp h)

namespace KernelSchedule

variable {p : Program} {region : Region} {o : Options} {k k' : KernelSchedule}

/-! ## scaling -/

/-- Of every statement one coordinate is multiplied. -/
theorem scaleDim_eq_ok {pos : Nat} {f : Int} {ss ss' : List StmtSchedule}
    (h : scaleDim pos f ss = .ok ss') :
    List.Forall₂ (fun s s' => ∃ d d', s.dims[pos]? = some d ∧ d.scale f = .ok d' ∧
      s' = { s with dims := s.dims.set pos d' }) ss ss' := by
  induction ss generalizing ss' with
  | nil =>
      simp only [scaleDim, Except.ok.injEq] at h
      exact h ▸ .nil
  | cons s ss ih =>
      simp only [scaleDim, Outcome.bind_eq_ok, Outcome.orFault_eq_ok, Outcome.pure_eq_ok] at h
      obtain ⟨d, hd, d', hd', rest, hrest, rfl⟩ := h
      exact .cons ⟨d, d', hd, hd', rfl⟩ (ih hrest)

/-- What scaling one tile loop after the other comes to: `P m ts k` is what is known when the
loops from member `m` on are left, whose tiles have the sizes `ts`. -/
theorem scaleFrom_induction {P : Nat → List Int → KernelSchedule → Prop}
    (hstep : ∀ m t ts k factor statements, P m (t :: ts) k → k.tileFactor m t = .ok factor →
      scaleDim (k.tileLoopPos m) factor k.statements = .ok statements →
      P (m + 1) ts { k with statements })
    {m : Nat} {ts : List Int} (hk : P m ts k) (h : scaleFrom m ts k = .ok k') :
    P (m + ts.length) [] k' := by
  induction ts generalizing m k with
  | nil => exact Except.ok.inj h ▸ hk
  | cons t ts ih =>
      simp only [scaleFrom, Outcome.bind_eq_ok] at h
      obtain ⟨factor, hfactor, statements, hscale, h⟩ := h
      have hrest := ih (hstep m t ts k factor statements hk hfactor hscale) h
      rwa [Nat.add_right_comm, Nat.add_assoc] at hrest

/-- The second list has the statements of the first with as many coordinates, and equal
statements are still equal. -/
structure Rescales (ss ss' : List StmtSchedule) : Prop where
  each : List.Forall₂ (fun s s' => ∃ dims, dims.length = s.dims.length ∧
    s' = { s with dims }) ss ss'
  follows : Follows ss ss'

theorem Rescales.refl (ss : List StmtSchedule) : Rescales ss ss :=
  ⟨List.forall₂_same.mpr fun s _ => ⟨s.dims, rfl, rfl⟩, .refl ss⟩

theorem Rescales.trans {ss ss' ss'' : List StmtSchedule} (h : Rescales ss ss')
    (h' : Rescales ss' ss'') : Rescales ss ss'' := by
  refine ⟨(h.each.comp h'.each).imp ?_, h.follows.trans h'.follows⟩
  rintro s _ ⟨_, ⟨dims, hlen, rfl⟩, dims', hlen', rfl⟩
  exact ⟨dims', hlen'.trans hlen, rfl⟩

/-- Scaling one coordinate rescales the schedules. -/
theorem rescales_of_scaleDim {pos : Nat} {f : Int} {ss ss' : List StmtSchedule}
    (h : scaleDim pos f ss = .ok ss') : Rescales ss ss' := by
  have heach := scaleDim_eq_ok h
  refine ⟨heach.imp ?_, follows_of_forall₂ ?_ heach⟩
  · rintro s _ ⟨d, d', -, -, rfl⟩
    exact ⟨_, List.length_set, rfl⟩
  · rintro s _ _ ⟨d, d', hd, hd', rfl⟩ ⟨e, e', he, he', rfl⟩
    obtain rfl : d = e := Option.some.inj (hd.symm.trans he)
    rw [Except.ok.inj (hd'.symm.trans he')]

/-- Scaling changes the statements and the stage only. -/
theorem rescales_of_scaleTileLoops (h : k.scaleTileLoops = .ok k') :
    ∃ ss stage, Rescales k.statements ss ∧ k' = { k with statements := ss, stage } := by
  simp only [scaleTileLoops, Outcome.bind_eq_ok, Outcome.pure_eq_ok] at h
  obtain ⟨k₁, hscale, stage, -, rfl⟩ := h
  obtain ⟨ss, hss, rfl⟩ := scaleFrom_induction
    (P := fun _ _ u => ∃ ss, Rescales k.statements ss ∧ u = { k with statements := ss })
    (fun m t ts u factor statements hu _ hdim => by
      obtain ⟨ss, hss, rfl⟩ := hu
      exact ⟨statements, hss.trans (rescales_of_scaleDim hdim), rfl⟩)
    ⟨k.statements, .refl _, rfl⟩ hscale
  exact ⟨ss, stage, hss, rfl⟩

/-! ## launch sizes -/

/-- Only members of the band can be coincident. -/
theorem nCoincident_le (region : Region) : region.nCoincident ≤ region.tileLen :=
  (List.takeWhile_sublist id).length_le.trans (List.length_take_le ..)

/-- Sizes are put in another order, and no new ones come in. -/
theorem mem_outermostFirst {n : Nat} {sizes : List Int} {x : Int} (h : x ∈ outermostFirst n sizes) :
    x ∈ sizes :=
  List.mem_of_mem_take (List.mem_reverse.mp h)

theorem length_outermostFirst (n : Nat) (sizes : List Int) :
    (outermostFirst n sizes).length = min n sizes.length := by
  rw [outermostFirst, List.length_reverse, List.length_take]

/-- What holds of every minimum of a size asked for and a tile size holds of the sizes of
the blocks. -/
theorem forall_mem_fittingSizes {P : Int → Prop} {n : Nat} {sizes ts : List Int}
    (h : ∀ b ∈ sizes, ∀ t ∈ ts, P (min b t)) : ∀ x ∈ fittingSizes n sizes ts, P x := by
  intro x hx
  obtain ⟨⟨b, t⟩, hbt, rfl⟩ := List.mem_map.mp hx
  obtain ⟨hb, ht⟩ := List.of_mem_zip hbt
  exact h b (mem_outermostFirst hb) t ht

/-- There are as many sizes as coincident members allow, and no more than given or than tiles. -/
theorem length_fittingSizes (n : Nat) (sizes ts : List Int) :
    (fittingSizes n sizes ts).length = min (min n sizes.length) ts.length := by
  rw [fittingSizes, List.length_map, List.length_zip, length_outermostFirst]

/-! ## assembly -/

/-- The stages of the assembly of a kernel: the statements are cut into tiles (`tiled`), the
tiles are dealt out over the blocks as the `shares` say (`parts`) and the points over the
threads (`spread`), the launch sizes are reduced to what is used, and units become ids. -/
structure Assembles (p : Program) (region : Region) (o : Options) (schedLen : Nat)
    (tiled : List TiledStmt) (shares : List Share) (parts : List (TiledStmt × Dealt))
    (spread : List SpreadStmt) (k : KernelSchedule) : Prop where
  nProgramParam : k.nProgramParam = p.nParam
  tileFirst : k.tileFirst = region.tileFirst
  tileLen : k.tileLen = region.tileLen
  nGrid : k.nGrid = min region.nCoincident o.gridSizes.length
  nBlock : k.nBlock = min region.nCoincident o.blockSizes.length
  tileSizes : k.tileSizes = (List.range k.tileLen).map o.tileSize
  paramNames : k.paramNames = p.params ++ idNames "b" k.nGrid ++ idNames "t" k.nBlock
  levels : k.levels =
    layout k.tileFirst k.nGrid k.tileLen k.nBlock (schedLen - k.tileFirst - k.tileLen)
  cut : region.statements.mapM (TiledStmt.build p k.paramNames.length k.tileFirst k.tileSizes) =
    .ok tiled
  share : gridShares o.gridMapping p.context tiled (outermostFirst k.nGrid o.gridSizes) =
    .ok (k.gridMapping, shares)
  dealTiles : tiled.mapM (SpreadStmt.dealTiles shares) = .ok parts
  dealPoints : parts.mapM (SpreadStmt.dealPoints (blockShares o.threadMapping k.tileSizes
    (fittingSizes k.nBlock o.blockSizes k.tileSizes))) = .ok spread
  clampGrid : clampSizes (spread.map (·.sched.tightened p.context)) (spread.map (·.blocks)) 0
    (outermostFirst k.nGrid o.gridSizes) = .ok k.gridSizes
  clampBlock : clampSizes (spread.map (·.sched.tightened p.context)) (spread.map (·.threads)) 0
    (fittingSizes k.nBlock o.blockSizes k.tileSizes) = .ok k.blockSizes
  parametrize : spread.mapM (SpreadStmt.parametrize p.nParam) = .ok k.statements
  context : ∃ gridBounds blockBounds, idBounds p.nParam k.gridSizes = .ok gridBounds ∧
    idBounds (p.nParam + k.nGrid) k.blockSizes = .ok blockBounds ∧
    k.context = p.context ++ gridBounds ++ blockBounds

variable {schedLen : Nat}

variable {tiled : List TiledStmt} {shares : List Share} {parts : List (TiledStmt × Dealt)}
  {spread : List SpreadStmt}

/-- There is a tile size for each coordinate of the band, and a launch size for each one that
is distributed. -/
theorem Assembles.length_sizes (h : Assembles p region o schedLen tiled shares parts spread k) :
    k.tileSizes.length = k.tileLen ∧ (outermostFirst k.nGrid o.gridSizes).length = k.nGrid ∧
      (fittingSizes k.nBlock o.blockSizes k.tileSizes).length = k.nBlock ∧ k.nGrid ≤ k.tileLen ∧
      k.nBlock ≤ k.tileLen := by
  have hts : k.tileSizes.length = k.tileLen := by
    rw [h.tileSizes, List.length_map, List.length_range]
  have hcoincident := nCoincident_le region
  have hgrid := h.nGrid
  have hblock := h.nBlock
  have hlen := h.tileLen
  refine ⟨hts, ?_, ?_, by omega, by omega⟩
  · rw [length_outermostFirst]
    omega
  · rw [length_fittingSizes, hts]
    omega

/-- The parameters are those of the program and an id for each block and thread dimension. -/
theorem Assembles.length_paramNames
    (h : Assembles p region o schedLen tiled shares parts spread k) :
    k.paramNames.length = p.nParam + (k.nGrid + k.nBlock) := by
  simp only [h.paramNames, List.length_append, idNames, List.length_map, List.length_range,
    Program.nParam, Nat.add_assoc]

/-- A kernel schedule that was assembled went through all steps. -/
theorem assembles_of_assemble (h : assemble p region o schedLen = .ok k) :
    ∃ tiled shares parts spread, Assembles p region o schedLen tiled shares parts spread k := by
  unfold assemble at h
  dsimp only at h
  split at h
  · simp at h
  simp only [Outcome.bind_eq_ok, Outcome.pure_eq_ok] at h
  obtain ⟨tiled, htiled, ⟨mapping, shares⟩, hshares, parts, hparts, spread, hspread, gridSizes,
    hgrid, blockSizes, hblock, statements, hparam, gridBounds, hgridBounds, blockBounds,
    hblockBounds, rfl⟩ := h
  exact ⟨tiled, shares, parts, spread, rfl, rfl, rfl, rfl, rfl, rfl, rfl, rfl, htiled, hshares,
    hparts, hspread, hgrid, hblock, hparam, gridBounds, blockBounds, hgridBounds, hblockBounds, rfl⟩

/-- The kernel of a band is an assembled one, rescaled if the options ask for it. -/
theorem exists_assembles_of_buildBand (h : buildBand p region o schedLen = .ok k) :
    ∃ tiled shares parts spread k₀ ss stage,
      Assembles p region o schedLen tiled shares parts spread k₀ ∧ Rescales k₀.statements ss ∧
      k = { k₀ with statements := ss, stage } := by
  simp only [buildBand, Outcome.bind_eq_ok] at h
  obtain ⟨k₀, hk₀, h⟩ := h
  obtain ⟨tiled, shares, parts, spread, hassembles⟩ := assembles_of_assemble hk₀
  split at h
  · obtain ⟨ss, stage, hss, rfl⟩ := rescales_of_scaleTileLoops h
    exact ⟨tiled, shares, parts, spread, k₀, ss, stage, hassembles, hss, rfl⟩
  · obtain rfl := Outcome.pure_eq_ok.mp h
    exact ⟨tiled, shares, parts, spread, k₀, _, _, hassembles, .refl _, rfl⟩

/-- The kernel of a region is an assembled one, rescaled if the options ask for it. -/
theorem exists_assembles_of_build (h : build p region o = .ok k) :
    ∃ schedLen tiled shares parts spread k₀ ss stage,
      Assembles p region o schedLen tiled shares parts spread k₀ ∧ Rescales k₀.statements ss ∧
      k = { k₀ with statements := ss, stage } := by
  unfold build at h
  split at h
  · simp at h
  · exact ⟨_, exists_assembles_of_buildBand (Outcome.ofEngine_eq_ok.mp h)⟩

end KernelSchedule

end KernelMap
