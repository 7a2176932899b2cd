import KernelMap.Proofs.EngineCauses
import KernelMap.Proofs.Layout

/-!
# KernelMap.Proofs.ScheduleCauses

What the construction of a kernel schedule reports, and the shape of the schedules it makes.

All spaces are made by the construction itself, so nothing in it can fail to fit together
(`KernelSchedule.noMismatch_buildBand`).  Every statement of the schedule has the parameters of the
program and all coordinates of the kernel (`KernelSchedule.shaped_of_build`): cutting a band into
tiles and dealing out tiles and points adds coordinates by the same counts for all statements, and
the statements of a region start from equally many.
-/

namespace KernelMap

open Outcome

/-! ## causes -/

@[simp] theorem Stage.reportsOnly_advance {ε : Type} {P : ε → Prop} (s next : Stage) :
    ReportsOnly P (s.advance next) := by
  simp [advance]

@[simp] theorem Cut.noMismatch_ofBand (ts : List Int) (bs : List Affine) (s : Space) :
    NoMismatch (ofBand ts bs s) := by
  fun_induction ofBand ts bs s <;> simp_all

/-- Tiling a statement reports no mismatch. -/
@[simp] theorem TiledStmt.noMismatch_build (p : Program) (nParam tileFirst : Nat)
    (ts : List Int) (i : Nat) : NoMismatch (build p nParam tileFirst ts i) := by
  have hforms : ∀ (s : StmtSchedule) (as : List Affine), NoMismatch (as.mapM s.lift) :=
    fun s _ => reportsOnly_mapM fun _ _ => s.noMismatch_lift _
  have hdomain : ∀ (s : StmtSchedule) (cs : List Constraint),
      NoMismatch (cs.mapM s.liftConstraint) :=
    fun s _ => reportsOnly_mapM fun _ _ => s.noMismatch_liftConstraint _
  simp [build, hforms, hdomain]

/-! ### ranges -/

/-- The points of each statement are found without a mismatch. -/
theorem noMismatch_of_mem_column {points : List (Outcome EngineError Polyhedron)}
    {coords : List (List Affine)} {k : Nat} (h : ∀ x ∈ points, NoMismatch x) :
    ∀ q ∈ column points coords k, NoMismatch q.1 :=
  fun _ hq => h _ (List.of_mem_zip hq).1

/-- The range of forms is found without a mismatch if the systems are. -/
theorem noMismatch_formRange {forms : List (Outcome EngineError Polyhedron × Affine)}
    {range : Option (Int × Int)} (h : ∀ q ∈ forms, NoMismatch q.1) :
    NoMismatch (formRange forms range) := by
  induction forms generalizing range with
  | nil => simp [formRange]
  | cons q forms ih =>
      obtain ⟨points, a⟩ := q
      obtain ⟨hpoints, hforms⟩ := List.forall_mem_cons.mp h
      simp only [formRange, reportsOnly_bind, Polyhedron.noMismatch_minimize,
        Polyhedron.noMismatch_maximize, true_and]
      refine ⟨hpoints, fun s _ lo _ hi _ => ?_⟩
      cases lo <;> cases hi <;> cases range <;> simp [ih hforms]

/-- The maximum of forms is found without a mismatch if the systems are. -/
theorem noMismatch_formMax {forms : List (Outcome EngineError Polyhedron × Affine)}
    {best : Option Int} (h : ∀ q ∈ forms, NoMismatch q.1) : NoMismatch (formMax forms best) := by
  induction forms generalizing best with
  | nil => simp [formMax]
  | cons q forms ih =>
      obtain ⟨points, a⟩ := q
      obtain ⟨hpoints, hforms⟩ := List.forall_mem_cons.mp h
      simp only [formMax, reportsOnly_bind, Polyhedron.noMismatch_maximize, true_and]
      refine ⟨hpoints, fun s _ m _ => ?_⟩
      cases m <;> simp [ih hforms]

/-- The chunks of the grid are chosen without a mismatch if the systems are found so. -/
theorem noMismatch_gridChunks {points : List (Outcome EngineError Polyhedron)}
    {outers : List (List Affine)} {k : Nat} {sizes : List Int} (h : ∀ x ∈ points, NoMismatch x) :
    NoMismatch (gridChunks points outers k sizes) := by
  induction sizes generalizing k with
  | nil => simp [gridChunks]
  | cons g sizes ih =>
      simp only [gridChunks, reportsOnly_bind,
        noMismatch_formRange (noMismatch_of_mem_column h), true_and]
      rintro (_ | ⟨lo, hi⟩) -
      · simp
      · simp only [reportsOnly_bind, noMismatch_orOverflow, reportsOnly_orFault, ih, true_and]
        rintro _ - _ - _ - (_ | shares) - <;> simp

/-- The sizes of the grid are clamped without a mismatch if the systems are found so. -/
theorem noMismatch_clampSizes {points : List (Outcome EngineError Polyhedron)}
    {units : List (List Affine)} {k : Nat} {sizes : List Int} (h : ∀ x ∈ points, NoMismatch x) :
    NoMismatch (clampSizes points units k sizes) := by
  induction sizes generalizing k with
  | nil => simp [clampSizes]
  | cons n sizes ih =>
      simp only [clampSizes, reportsOnly_bind,
        noMismatch_formMax (noMismatch_of_mem_column h), true_and]
      rintro (_ | m) - <;> simp [ih]

/-! ### distribution -/

/-- Sharing the tile loops out to the grid reports no mismatch. -/
@[simp] theorem noMismatch_gridShares (mapping : Distribution) (context : List Constraint)
    (parts : List TiledStmt) (sizes : List Int) :
    NoMismatch (gridShares mapping context parts sizes) := by
  cases mapping with
  | wrap => simp [gridShares]
  | tile =>
      have hpoints : ∀ x ∈ parts.map (·.sched.tightened context), NoMismatch x :=
        List.forall_mem_map.mpr fun part _ => by simp
      simp only [gridShares, reportsOnly_bind, noMismatch_gridChunks hpoints, true_and]
      rintro (_ | shares) - <;> simp

namespace Share

@[simp] theorem noMismatch_dealChunks (a : Affine) (size : Int) (s : Space) :
    NoMismatch (dealChunks a size s) := by
  simp [dealChunks]

@[simp] theorem noMismatch_deal (share : Share) (a : Affine) (s : Space) :
    NoMismatch (share.deal a s) := by
  cases share <;> simp [deal]

@[simp] theorem noMismatch_dealAll (shares : List Share) (as : List Affine) (s : Space) :
    NoMismatch (dealAll shares as s) := by
  fun_induction dealAll shares as s <;> simp_all

end Share

@[simp] theorem noMismatch_idEquations (v : Nat) (units : List Affine) :
    NoMismatch (idEquations v units) := by
  induction units generalizing v with
  | nil => simp [idEquations]
  | cons unit units ih => simp [idEquations, ih]

@[simp] theorem noMismatch_idBounds (v : Nat) (sizes : List Int) :
    NoMismatch (idBounds v sizes) := by
  induction sizes generalizing v with
  | nil => simp [idBounds]
  | cons n sizes ih => simp [idBounds, ih]

namespace KernelSchedule

@[simp] theorem noMismatch_scaleDim (pos : Nat) (factor : Int) (ss : List StmtSchedule) :
    NoMismatch (scaleDim pos factor ss) := by
  induction ss with
  | nil => simp [scaleDim]
  | cons s ss ih => simp [scaleDim, ih]

@[simp] theorem noMismatch_tileFactor (k : KernelSchedule) (m : Nat) (t : Int) :
    NoMismatch (k.tileFactor m t) := by
  unfold tileFactor
  split <;> simp

/-- Scaling the tile loops reports no mismatch. -/
@[simp] theorem noMismatch_scaleTileLoops (k : KernelSchedule) : NoMismatch k.scaleTileLoops := by
  have hscale : ∀ m ts k, NoMismatch (scaleFrom m ts k) := by
    intro m ts
    induction ts generalizing m with
    | nil => simp [scaleFrom]
    | cons t ts ih => simp [scaleFrom, ih]
  simp [scaleTileLoops, hscale]

/-- The construction makes all spaces itself and finds them to fit together. -/
@[simp] theorem noMismatch_buildBand (p : Program) (region : Region) (o : Options)
    (schedLen : Nat) : NoMismatch (buildBand p region o schedLen) := by
  have htiled : ∀ nParam ts,
      NoMismatch (region.statements.mapM (TiledStmt.build p nParam region.tileFirst ts)) :=
    fun _ _ => reportsOnly_mapM fun _ _ => by simp
  have hparts : ∀ shares (tiled : List TiledStmt),
      NoMismatch (tiled.mapM (SpreadStmt.dealTiles shares)) :=
    fun _ _ => reportsOnly_mapM fun _ _ => by simp [SpreadStmt.dealTiles]
  have hspread : ∀ shares (parts : List (TiledStmt × Dealt)),
      NoMismatch (parts.mapM (SpreadStmt.dealPoints shares)) :=
    fun _ _ => reportsOnly_mapM fun _ _ => by simp [SpreadStmt.dealPoints]
  have hclamp : ∀ (spread : List SpreadStmt) units k sizes,
      NoMismatch (clampSizes (spread.map (·.sched.tightened p.context)) units k sizes) :=
    fun _ _ _ _ => noMismatch_clampSizes (List.forall_mem_map.mpr fun _ _ => by simp)
  have hparam : ∀ spread : List SpreadStmt,
      NoMismatch (spread.mapM (SpreadStmt.parametrize p.nParam)) :=
    fun _ => reportsOnly_mapM fun _ _ => by simp [SpreadStmt.parametrize]
  simp [buildBand, assemble, htiled, hparts, hspread, hclamp, hparam]

end KernelSchedule

/-! ## shapes -/

/-- Asking for a quotient leaves the parameters as they are. -/
theorem Space.nParam_of_floor {ε : Type} {s s' : Space} {a q : Affine} {den : Int}
    (h : (s.floor a den : Outcome ε (Affine × Space)) = .ok (q, s')) : s'.nParam = s.nParam := by
  rcases floor_cases h with ⟨rfl, -⟩ | ⟨v, hv, -⟩
  · rfl
  · rcases addDivision_cases hv with ⟨_, _, -, -, -, -, rfl⟩ | ⟨-, -, rfl⟩
    · rfl
    · rfl

/-- Cutting takes a coordinate for each tile size. -/
theorem Cut.length_of_ofBand {ts : List Int} {bs : List Affine} {s : Space} {r : Cut}
    (h : ofBand ts bs s = .ok r) :
    r.outer.length = ts.length ∧ r.inner.length = ts.length ∧
      ts.length + r.post.length = bs.length ∧
      r.space.nParam = s.nParam := by
  induction ts generalizing bs s r with
  | nil =>
      simp only [ofBand, Except.ok.injEq] at h
      simp [← h]
  | cons t ts ih =>
      cases bs with
      | nil => simp [ofBand] at h
      | cons b bs =>
          simp only [ofBand, bind_eq_ok, pure_eq_ok, Prod.exists] at h
          obtain ⟨o, u, ho, m, hm, i, hi, rest, hrest, rfl⟩ := h
          obtain ⟨houter, hinner, hpost, hparam⟩ := ih hrest
          refine ⟨by simp [houter], by simp [hinner], ?_, hparam.trans (Space.nParam_of_floor ho)⟩
          simp only [List.length_cons]
          omega

/-- Dealing out splits a coordinate for each share. -/
theorem Share.length_of_dealAll {shares : List Share} {as : List Affine} {s : Space} {r : Dealt}
    (h : dealAll shares as s = .ok r) :
    r.units.length = min shares.length as.length ∧ r.loops.length = as.length ∧
      r.space.nParam = s.nParam := by
  have hchunks : ∀ {a size s unit loop t}, dealChunks a size s = .ok (unit, loop, t) →
      t.nParam = s.nParam := by
    intro a size s unit loop t h
    simp only [dealChunks, bind_eq_ok, pure_eq_ok, Prod.mk.injEq, Prod.exists] at h
    obtain ⟨q, t, hfloor, -, -, -, -, -, -, rfl⟩ := h
    exact Space.nParam_of_floor hfloor
  have hdeal : ∀ {share : Share} {a s unit loop t}, share.deal a s = .ok (unit, loop, t) →
      t.nParam = s.nParam := by
    intro share a s unit loop t h
    cases share with
    | wrap units =>
        simp only [deal, Space.modulo, bind_eq_ok, pure_eq_ok, Prod.mk.injEq, Prod.exists] at h
        obtain ⟨_, _, ⟨_, _, hfloor, _, -, _, -, -, rfl⟩, _, _, hfloor', -, -, rfl⟩ := h
        exact (Space.nParam_of_floor hfloor').trans (Space.nParam_of_floor hfloor)
    | chunk start size =>
        simp only [deal, bind_eq_ok] at h
        obtain ⟨_, -, h⟩ := h
        exact hchunks h
    | split total units =>
        simp only [deal, bind_eq_ok] at h
        obtain ⟨_, -, h⟩ := h
        exact hchunks h
  induction shares generalizing as s r with
  | nil =>
      simp only [dealAll, Except.ok.injEq] at h
      simp [← h]
  | cons share shares ih =>
      cases as with
      | nil =>
          simp only [dealAll, Except.ok.injEq] at h
          simp [← h]
      | cons a as =>
          simp only [dealAll, bind_eq_ok, pure_eq_ok, Prod.exists] at h
          obtain ⟨unit, loop, t, ht, rest, hrest, rfl⟩ := h
          obtain ⟨hunits, hloops, hparam⟩ := ih hrest
          refine ⟨?_, by simp [hloops], hparam.trans (hdeal ht)⟩
          simp only [List.length_cons, hunits]
          omega

/-- The coordinates of a statement that is cut into tiles. -/
theorem TiledStmt.length_of_build {p : Program} {nParam tileFirst i : Nat} {ts : List Int}
    {t : TiledStmt} (h : build p nParam tileFirst ts i = .ok t) :
    t.outer.length = ts.length ∧ t.inner.length = ts.length ∧ t.sched.space.nParam = nParam ∧
      ∃ stmt, p.statements[i]? = some stmt ∧ t.host.length + ts.length + t.post.length =
        stmt.schedule.length := by
  simp only [build, bind_eq_ok, orFault_eq_ok] at h
  obtain ⟨stmt, hstmt, lifted, hlifted, h⟩ := h
  have hlen := (mapM_eq_ok.mp hlifted).length_eq
  split at h
  · simp at h
  next hlength =>
  simp only [bind_eq_ok, pure_eq_ok] at h
  obtain ⟨cut, hcut, _, -, rfl⟩ := h
  obtain ⟨houter, hinner, hpost, hparam⟩ := Cut.length_of_ofBand hcut
  refine ⟨houter, hinner, hparam, stmt, hstmt, ?_⟩
  simp only [List.length_drop, List.length_take] at hpost ⊢
  omega

/-- If the grid is given chunks, there is a share for each of its dimensions. -/
theorem length_gridChunks {points : List (Outcome EngineError Polyhedron)}
    {outers : List (List Affine)} {k : Nat} {sizes : List Int} {shares : List Share}
    (h : gridChunks points outers k sizes = .ok (some shares)) : shares.length = sizes.length := by
  induction sizes generalizing k shares with
  | nil =>
      simp only [gridChunks, Except.ok.injEq, Option.some.injEq] at h
      subst h
      rfl
  | cons g sizes ih =>
      simp only [gridChunks, bind_eq_ok] at h
      obtain ⟨_ | ⟨lo, hi⟩, -, h⟩ := h
      · simp at h
      simp only [bind_eq_ok] at h
      obtain ⟨_, -, _, -, _, -, _ | rest, hrest, h⟩ := h
      · simp at h
      · simp only [pure_eq_ok, Option.some.injEq] at h
        rw [← h, List.length_cons, List.length_cons, ih hrest]

/-- There is a share for each dimension of the grid. -/
theorem length_gridShares {mapping mapping' : Distribution} {context : List Constraint}
    {parts : List TiledStmt} {sizes : List Int} {shares : List Share}
    (h : gridShares mapping context parts sizes = .ok (mapping', shares)) :
    shares.length = sizes.length := by
  cases mapping with
  | wrap =>
      simp only [gridShares, Except.ok.injEq, Prod.mk.injEq] at h
      rw [← h.2, List.length_map]
  | tile =>
      simp only [gridShares, bind_eq_ok] at h
      obtain ⟨_ | chunks, hchunks, h⟩ := h
      · simp only [pure_eq_ok, Prod.mk.injEq] at h
        rw [← h.2, List.length_map]
      · simp only [pure_eq_ok, Prod.mk.injEq] at h
        rw [← h.2, length_gridChunks hchunks]

/-- Equating units with ids makes a coordinate of each id. -/
theorem SpreadStmt.length_of_parametrize {n : Nat} {r : SpreadStmt} {st : StmtSchedule}
    (h : r.parametrize n = .ok st) :
    st.space = r.sched.space ∧ st.dims.length = r.host.length + r.blocks.length + r.loops.length +
      r.threads.length + r.points.length + r.post.length := by
  simp only [parametrize, bind_eq_ok, pure_eq_ok] at h
  obtain ⟨_, -, _, -, rfl⟩ := h
  refine ⟨rfl, ?_⟩
  simp only [idParams, List.length_append, List.length_map, List.length_range']

namespace KernelSchedule

/-- Every statement has the parameters of the program and the coordinates of the kernel. -/
structure Shaped (k : KernelSchedule) : Prop where
  nParam : ∀ st ∈ k.statements, k.nProgramParam ≤ st.space.nParam
  dims : ∀ st ∈ k.statements, st.dims.length = k.depth

variable {p : Program} {k : KernelSchedule}

/-- The coordinates of a statement, given how many of them are dealt out. -/
theorem length_dims {tileFirst nParam i : Nat} {ts : List Int} {grid block : List Share}
    {t : TiledStmt} {part : TiledStmt × Dealt} {r : SpreadStmt} {st : StmtSchedule}
    (hgrid : grid.length ≤ ts.length) (hblock : block.length ≤ ts.length)
    (ht : TiledStmt.build p nParam tileFirst ts i = .ok t)
    (hpart : SpreadStmt.dealTiles grid t = .ok part) (hr : SpreadStmt.dealPoints block part = .ok r)
    (hst : r.parametrize p.nParam = .ok st) :
    st.space.nParam = nParam ∧ ∃ stmt, p.statements[i]? = some stmt ∧
      st.dims.length = stmt.schedule.length + grid.length + block.length + ts.length := by
  obtain ⟨houter, hinner, hparam, stmt, hstmt, hschedule⟩ := TiledStmt.length_of_build ht
  simp only [SpreadStmt.dealTiles, bind_eq_ok, pure_eq_ok] at hpart
  obtain ⟨tiles, htiles, rfl⟩ := hpart
  simp only [SpreadStmt.dealPoints, bind_eq_ok, pure_eq_ok] at hr
  obtain ⟨dealt, hdealt, rfl⟩ := hr
  obtain ⟨hblocks, hloops, hspace⟩ := Share.length_of_dealAll htiles
  obtain ⟨hthreads, hpoints, hspace'⟩ := Share.length_of_dealAll hdealt
  obtain ⟨hst, hdims⟩ := SpreadStmt.length_of_parametrize hst
  dsimp only at hspace' hst hdims
  refine ⟨by rw [hst, hspace', hspace, hparam], stmt, hstmt, ?_⟩
  rw [hdims, hblocks, hloops, hthreads, hpoints, houter, hinner, min_eq_left hgrid,
    min_eq_left hblock]
  omega

/-- Statements whose schedules have the same length stay alike. -/
theorem shaped_of_buildBand {region : Region} {o : Options} {schedLen : Nat}
    (hfits : region.tileFirst + region.tileLen ≤ schedLen)
    (hlen : ∀ i ∈ region.statements, ∀ stmt, p.statements[i]? = some stmt →
      stmt.schedule.length = schedLen)
    (hk : buildBand p region o schedLen = .ok k) : k.Shaped := by
  obtain ⟨tiled, shares, parts, spread, k₀, ss, stage, hassembles, hss, rfl⟩ :=
    exists_assembles_of_buildBand hk
  obtain ⟨htsLen, hgsLen, hbsLen, hgridLe, hblockLe⟩ := hassembles.length_sizes
  have hgrid : shares.length = k₀.nGrid := (length_gridShares hassembles.share).trans hgsLen
  have hblock := length_blockShares o.threadMapping
    (hbsLen.trans_le (hblockLe.trans_eq htsLen.symm))
  have hstatement : ∀ st ∈ ss, k₀.nProgramParam ≤ st.space.nParam ∧ st.dims.length = k₀.depth := by
    intro st hst
    obtain ⟨st₀, hst₀, dims, hlength, rfl⟩ := hss.each.exists_of_mem_right hst
    obtain ⟨r, hr, hst₀⟩ := exists_of_mem_of_mapM hassembles.parametrize hst₀
    obtain ⟨part, hpart, hr⟩ := exists_of_mem_of_mapM hassembles.dealPoints hr
    obtain ⟨t, ht, hpart⟩ := exists_of_mem_of_mapM hassembles.dealTiles hpart
    obtain ⟨i, hi, ht⟩ := exists_of_mem_of_mapM hassembles.cut ht
    obtain ⟨hspace, stmt, hstmt, hdims⟩ :=
      length_dims (by omega) (by omega) ht hpart hr hst₀
    rw [hlen i hi stmt hstmt, hblock, hbsLen, hgrid, htsLen] at hdims
    constructor
    · rw [hassembles.nProgramParam, hspace, hassembles.length_paramNames]
      omega
    · have hfirst := hassembles.tileFirst
      have htile := hassembles.tileLen
      simp only [hlength, hdims, depth, hassembles.levels, layout, List.length_append,
        List.length_replicate]
      omega
  exact ⟨fun st hst => (hstatement st hst).1, fun st hst => (hstatement st hst).2⟩

end KernelSchedule

/-! ## regions of valid programs -/

namespace Program

variable {p : Program}

/-- All statements found by the numbers have schedules of one length. -/
theorem commonLength_eq_ok {r : Nat} {len len' : Option Nat} {numbers : List Nat}
    (h : p.commonLength r len numbers = .ok len') :
    (∀ n, len = some n → len' = some n) ∧
      ∀ i ∈ numbers, ∃ stmt, p.statements[i]? = some stmt ∧ len' = some stmt.schedule.length := by
  induction numbers generalizing len with
  | nil =>
      simp only [commonLength, Except.ok.injEq] at h
      simp [h]
  | cons i numbers ih =>
      simp only [commonLength, bind_eq_ok, orRaise_eq_ok, ensure_eq_ok] at h
      obtain ⟨stmt, hstmt, _, hlen, h⟩ := h
      obtain ⟨hfirst, hrest⟩ := ih h
      refine ⟨fun n hn => ?_, List.forall_mem_cons.mpr ⟨⟨stmt, hstmt, hfirst _ rfl⟩, hrest⟩⟩
      obtain rfl : n = stmt.schedule.length := by simpa [hn] using hlen
      exact hfirst _ rfl

/-- The statements of a region have schedules of one length, which the band is part of. -/
theorem checkRegion_eq_ok {r : Nat} {region : Region} (h : p.checkRegion r region = .ok ()) :
    region.statements ≠ [] ∧ ∃ len, region.tileFirst + region.tileLen ≤ len ∧
      ∀ i ∈ region.statements, ∃ stmt, p.statements[i]? = some stmt ∧
      stmt.schedule.length = len := by
  simp only [checkRegion, bind_eq_ok, ensure_eq_ok, orFault_eq_ok] at h
  obtain ⟨_, hne, _, -, len, hlen, stop, hstop, hband⟩ := h
  have hne : region.statements ≠ [] := by simpa using hne
  obtain ⟨i, hi⟩ := List.exists_mem_of_ne_nil _ hne
  have hall := (commonLength_eq_ok hlen).2
  obtain ⟨stmt, hstmt, rfl⟩ := hall i hi
  refine ⟨hne, stmt.schedule.length, ?_, fun j hj => ?_⟩
  · simp only [Index.add?, Option.ite_none_right_eq_some, Option.some.injEq] at hstop
    rw [hstop.2]
    simpa using hband
  · obtain ⟨stmt', hstmt', heq⟩ := hall j hj
    exact ⟨stmt', hstmt', (Option.some.inj heq).symm⟩

/-- In a valid program, the statements of a region exist, and their schedules have one length that
the band is within. -/
theorem regions_of_validate (h : p.validate = .ok ()) {region : Region}
    (hregion : region ∈ p.regions) :
    region.statements ≠ [] ∧ ∃ len, region.tileFirst + region.tileLen ≤ len ∧
      ∀ i ∈ region.statements, ∃ stmt, p.statements[i]? = some stmt ∧
      stmt.schedule.length = len := by
  simp only [validate, widen_eq_ok, bind_eq_ok] at h
  obtain ⟨_, -, _, -, h⟩ := h
  have hall : ∀ r regions, p.checkRegions r regions = .ok () → region ∈ regions →
      ∃ r, p.checkRegion r region = .ok () := by
    intro r regions
    induction regions generalizing r with
    | nil => simp
    | cons first regions ih =>
        intro h hmem
        simp only [checkRegions, bind_eq_ok] at h
        obtain ⟨_, hfirst, h⟩ := h
        rcases List.mem_cons.mp hmem with rfl | hmem
        · exact ⟨r, hfirst⟩
        · exact ih (r + 1) h hmem
  obtain ⟨r, hr⟩ := hall 0 p.regions h hregion
  exact checkRegion_eq_ok hr

end Program

namespace KernelSchedule

variable {p : Program} {region : Region} {o : Options} {k : KernelSchedule}

/-- The region of a valid program has a first statement, whose schedule is as long as those of the
others. -/
theorem build_eq_ofEngine (hp : p.validate = .ok ()) (hregion : region ∈ p.regions) (o : Options) :
    ∃ len, region.tileFirst + region.tileLen ≤ len ∧
      (∀ i ∈ region.statements, ∀ stmt, p.statements[i]? = some stmt → stmt.schedule.length = len) ∧
      build p region o = .ofEngine (buildBand p region o len) := by
  obtain ⟨hne, len, hband, hstatements⟩ := Program.regions_of_validate hp hregion
  have hlen : ∀ i ∈ region.statements, ∀ stmt, p.statements[i]? = some stmt →
      stmt.schedule.length = len := by
    intro i hi stmt hstmt
    obtain ⟨stmt', hstmt', hlen⟩ := hstatements i hi
    rwa [Option.some.inj (hstmt.symm.trans hstmt')]
  obtain ⟨i, rest, hcons⟩ := List.exists_cons_of_ne_nil hne
  obtain ⟨first, hfirst, hfirstLen⟩ := hstatements i (by simp [hcons])
  exact ⟨len, hband, hlen, by simp [build, hcons, hfirst, hfirstLen]⟩

/-- The kernel of a region of a valid program has statements of the right shape. -/
theorem shaped_of_build (hp : p.validate = .ok ()) (hregion : region ∈ p.regions)
    (hk : build p region o = .ok k) : k.Shaped := by
  obtain ⟨len, hband, hlen, hbuild⟩ := build_eq_ofEngine hp hregion o
  rw [hbuild, ofEngine_eq_ok] at hk
  exact shaped_of_buildBand hband hlen hk

end KernelSchedule

end KernelMap
