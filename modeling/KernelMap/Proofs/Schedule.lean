import KernelMap.Program.Validity
import KernelMap.Proofs.Assembly
import KernelMap.Proofs.Spread

/-!
# KernelMap.Proofs.Schedule

The kernel schedule of a valid program realizes a mapping.

The construction is followed step by step, for all statements of the kernel at
once: tiles and points are dealt out (`SpreadStmt.covers_of_mapM`), launch sizes are
reduced (`SpreadStmt.covers_clamp`), units become ids (`SpreadStmt.realizes_of_mapM`)
and tile loops are scaled (`KernelSchedule.obeys_scaleTileLoops`).  The main statement is
`KernelSchedule.realizes_buildBand`.
-/

namespace KernelMap

/-! ## valid programs and options -/

@[simp] theorem Outcome.ensure_eq_ok {ε : Type} {condition : Bool} {cause : ε} {u : Unit} :
    (ensure condition cause : Outcome ε Unit) = .ok u ↔ condition = true := by
  unfold ensure
  split <;> simp_all

namespace Program

/-- Statements that pass the check have their variables in place. -/
theorem wellFormed_of_checkStatements {p : Program} {names : List String} {ids : List Nat}
    {stmts : List Statement} (h : p.checkStatements names ids stmts = .ok ()) :
    ∀ stmt ∈ stmts, stmt.WellFormed p.nParam := by
  induction stmts generalizing names ids with
  | nil => simp
  | cons stmt stmts ih =>
      simp only [checkStatements, Outcome.bind_eq_ok, Outcome.ensure_eq_ok, Bool.and_eq_true,
        List.all_eq_true, decide_eq_true_eq] at h
      obtain ⟨_, -, _, ⟨hdomain, hschedule⟩, ids', -, h⟩ := h
      exact List.forall_mem_cons.mpr ⟨⟨fun c hc => Affine.within_of_width (hdomain c hc),
        fun a ha => Affine.within_of_width (hschedule a ha)⟩, ih h⟩

/-- A valid program only uses variables that it has. -/
theorem wellFormed_of_validate {p : Program} (h : p.validate = .ok ()) :
    (∀ c ∈ p.context, c.expr.Within p.nParam) ∧ ∀ stmt ∈ p.statements,
      stmt.WellFormed p.nParam := by
  simp only [validate, Outcome.widen_eq_ok, Outcome.bind_eq_ok, Outcome.ensure_eq_ok,
    List.all_eq_true, decide_eq_true_eq] at h
  obtain ⟨_, hcontext, _, hstatements, -⟩ := h
  exact ⟨fun c hc => Affine.within_of_width (hcontext c hc),
    wellFormed_of_checkStatements hstatements⟩

end Program

namespace Options

/-- The launch sizes are words, as every number is that options are read with. -/
def Representable (o : Options) : Prop := ∀ n ∈ o.gridSizes ++ o.blockSizes, Word.fits n = true

instance (o : Options) : Decidable o.Representable := inferInstanceAs (Decidable (∀ _ ∈ _, _))

/-- Valid options have positive sizes. -/
theorem pos_of_validate {o : Options} (h : o.validate = .ok ()) :
    (∀ k, 0 < o.tileSize k) ∧ (∀ n ∈ o.gridSizes, 0 < n) ∧ ∀ n ∈ o.blockSizes, 0 < n := by
  have hflaw : o.flaw? = none := by
    unfold validate at h
    split at h
    · simp at h
    · assumption
  unfold flaw? at hflaw
  split at hflaw
  · simp at hflaw
  next htile =>
  split at hflaw
  · simp at hflaw
  split at hflaw
  · simp at hflaw
  split at hflaw
  · simp at hflaw
  next hlaunch =>
  simp only [List.any_eq_true, decide_eq_true_eq, not_or, not_exists,
    not_and, not_le] at htile hlaunch
  refine ⟨fun k => ?_, hlaunch.1, hlaunch.2⟩
  rw [tileSize, List.getD_eq_getElem?_getD]
  cases hk : o.tileSizes[k]? with
  | none => exact htile.1
  | some t => exact htile.2 t (List.mem_of_getElem? hk)

end Options

/-! ## dealing out -/

variable {p : Program}

/-- Statement `i` is dealt out as the mapping says, and its units are below the
sizes. -/
def SpreadStmt.Covers (p : Program) (m : Mapping) (gridSizes blockSizes : List Int) (i : Nat)
    (r : SpreadStmt) : Prop :=
  r.sched.stmt = i ∧ ∃ stmt, p.statements[i]? = some stmt ∧
    r.Follows p (m.grid.length + m.block.length) m stmt ∧
    ∀ w, r.sched.Contains p.context w →
      InRange (m.blocks (stmt.timeAt (r.sched.restrict w))) gridSizes ∧
      InRange (m.threads (stmt.timeAt (r.sched.restrict w))) blockSizes

/-- Blocks and threads computed from a tiled statement are below the sizes that the
shares were made for. -/
theorem SpreadStmt.covers_of_deal {m : Mapping} {i : Nat} {t : TiledStmt} {part : TiledStmt × Dealt}
    {r : SpreadStmt} {stmt : Statement} {mapping : Distribution} {gridSizes blockSizes : List Int}
    (hi : t.sched.stmt = i) (hstmt : p.statements[i]? = some stmt)
    (ht : t.Follows p (m.grid.length + m.block.length) m stmt)
    (hgrid : m.grid.length = gridSizes.length) (hrange : ∀ w, t.sched.Contains p.context w →
      InRange (List.zipWith Share.unit m.grid (columnValues t.outer w 0 gridSizes.length))
      gridSizes)
    (hblock : m.block = blockShares mapping m.tileSizes blockSizes)
      (hlen : blockSizes.length ≤ m.tileSizes.length)
    (hpos : ∀ n ∈ blockSizes, 0 < n) (hpart : dealTiles m.grid t = .ok part)
      (hr : dealPoints m.block part = .ok r) :
    r.Covers p m gridSizes blockSizes i := by
  obtain ⟨hnumber, hconstraints, hext, hfollows⟩ := dealPoints_eq_ok ht hpart hr
  refine ⟨hnumber.trans hi, stmt, hstmt, hfollows, fun w hw => ?_⟩
  have hfits := Mapping.fits_timeAt hfollows.fits (r.sched.restrict w)
  have hdefines := hw.defines.of_extends hext
  have hsame : r.sched.restrict = t.sched.restrict :=
    StmtSchedule.restrict_congr
      (hfollows.sched.nProgramParam.trans ht.sched.nProgramParam.symm) hext.nParam
  have houter : t.outer.map (·.value w) = m.outer (stmt.timeAt (r.sched.restrict w)) := by
    rw [hsame, ht.outer w hdefines]
  constructor
  · have hle : gridSizes.length ≤ t.outer.length := by
      have hlen := congrArg List.length houter
      rw [List.length_map, Mapping.length_outer hfits] at hlen
      rw [hlen, ← hgrid]
      exact m.length_grid
    have hunits := hrange w ⟨hdefines, hconstraints ▸ hw.constraints, hw.context⟩
    rw [columnValues_zero w hle, ← hgrid, ← zipWith_take_length, houter] at hunits
    exact hunits
  · rw [Mapping.threads, hblock]
    exact inRange_blockShares mapping hlen (Mapping.inRange_inner hfits) hpos

/-- Statements that are tiled and dealt out are covered by the sizes asked for. -/
theorem SpreadStmt.covers_of_mapM {numbers : List Nat} {nParam tileFirst : Nat}
    {ts gridSizes blockSizes : List Int} {tiled : List TiledStmt}
    {mapping mapping' threadMapping : Distribution} {shares : List Share}
    {parts : List (TiledStmt × Dealt)} {spread : List SpreadStmt}
    (hcontext : ∀ c ∈ p.context, c.expr.Within p.nParam)
    (hstatements : ∀ stmt ∈ p.statements, stmt.WellFormed p.nParam)
    (hnParam : nParam = p.nParam + (gridSizes.length + blockSizes.length)) (hts : ∀ t ∈ ts, 0 < t)
    (hgrid : gridSizes.length ≤ ts.length) (hblock : blockSizes.length ≤ ts.length)
    (hpos : (∀ n ∈ gridSizes, 0 < n) ∧ ∀ n ∈ blockSizes, 0 < n)
    (htiled : numbers.mapM (TiledStmt.build p nParam tileFirst ts) = .ok tiled)
    (hshares : gridShares mapping p.context tiled gridSizes = .ok (mapping', shares))
    (hparts : tiled.mapM (dealTiles shares) = .ok parts)
    (hspread : parts.mapM (dealPoints (blockShares threadMapping ts blockSizes)) = .ok spread) :
    ∃ m : Mapping, m.tileFirst = tileFirst ∧ m.tileSizes = ts ∧ m.grid = shares ∧
      m.grid.length = gridSizes.length ∧
      m.block.length = blockSizes.length ∧ m.factors = List.replicate m.tileSizes.length 1 ∧
      List.Forall₂ (Covers p m gridSizes blockSizes) numbers spread := by
  have htiles : List.Forall₂ (fun i t => t.sched.stmt = i ∧ ∃ stmt, p.statements[i]? = some stmt ∧
      t.Follows p (gridSizes.length + blockSizes.length)
      (.tiling tileFirst ts hts) stmt) numbers tiled := by
    subst hnParam
    exact (Outcome.mapM_eq_ok.mp htiled).imp fun i t ht => TiledStmt.build_eq_ok hstatements ht
  have hposed : Parts p.context tiled (·.sched) (·.outer) := by
    intro t ht
    obtain ⟨i, -, -, stmt, -, hfollows⟩ := htiles.exists_of_mem_right ht
    exact ⟨hfollows.sched.wellFormed hcontext,
      fun a ha => hfollows.forms a (List.mem_append_left _ ha)⟩
  obtain ⟨hlen, hrange⟩ := gridShares_eq_ok hposed hpos.1 hshares
  have hblockLen := length_blockShares threadMapping hblock
  let m : Mapping := { Mapping.tiling tileFirst ts hts with
    grid := shares
    block := blockShares threadMapping ts blockSizes
    length_grid := hlen.symm ▸ hgrid
    length_block := hblockLen.symm ▸ hblock }
  refine ⟨m, rfl, rfl, rfl, hlen, hblockLen, rfl, ?_⟩
  refine ((htiles.mem_right.comp (Outcome.mapM_eq_ok.mp hparts)).comp
    (Outcome.mapM_eq_ok.mp hspread)).imp ?_
  rintro i r ⟨part, ⟨t, ⟨ht, hi, stmt, hstmt, hfollows⟩, hpart⟩, hr⟩
  have hm : t.Follows p (m.grid.length + m.block.length) m stmt := by
    rw [hlen, hblockLen]
    exact ⟨hfollows.sched, hfollows.fits, hfollows.forms, hfollows.host, hfollows.post,
      hfollows.outer, hfollows.inner⟩
  exact covers_of_deal hi hstmt hm hlen (hrange t ht) rfl hblock hpos.2 hpart hr

/-! ## clamping -/

/-- Units stay in range when the launch is clamped. -/
theorem SpreadStmt.inRange_of_clamp {spread : List SpreadStmt} {forms : SpreadStmt → List Affine}
    {ns sizes : List Int} (hparts : Parts p.context spread (·.sched) forms) (hpos : ∀ n ∈ ns, 0 < n)
    (hword : ∀ n ∈ ns, n ≤ Word.greatest)
    (hclamp : clampSizes (spread.map (·.sched.tightened p.context)) (spread.map forms) 0 ns =
      .ok sizes)
    {r : SpreadStmt} (hr : r ∈ spread) {w : Valuation} (hw : r.sched.Contains p.context w)
    (hlen : (forms r).length = ns.length) (h : InRange ((forms r).map (·.value w)) ns) :
    InRange ((forms r).map (·.value w)) sizes := by
  have hcolumn : columnValues (forms r) w 0 ns.length = (forms r).map (·.value w) := by
    rw [columnValues_zero w hlen.ge, List.take_of_length_le (by rw [List.length_map, hlen])]
  obtain ⟨-, -, hclamped⟩ := clampSizes_eq_ok hparts hpos hword hclamp
  have hrange := hclamped r hr w hw
  rw [hcolumn] at hrange
  exact hrange h

/-- Statements are still covered by the reduced sizes. -/
theorem SpreadStmt.covers_clamp {m : Mapping} {numbers : List Nat} {spread : List SpreadStmt}
    {gridSizes blockSizes gridSizes' blockSizes' : List Int}
    (hcontext : ∀ c ∈ p.context, c.expr.Within p.nParam)
    (h : List.Forall₂ (Covers p m gridSizes blockSizes) numbers spread)
    (hgrid : m.grid.length = gridSizes.length) (hblock : m.block.length = blockSizes.length)
    (hpos : (∀ n ∈ gridSizes, 0 < n) ∧ ∀ n ∈ blockSizes, 0 < n)
    (hword : (∀ n ∈ gridSizes, n ≤ Word.greatest) ∧ ∀ n ∈ blockSizes, n ≤ Word.greatest)
    (hgrid' : clampSizes (spread.map (·.sched.tightened p.context)) (spread.map (·.blocks))
      0 gridSizes = .ok gridSizes')
    (hblock' : clampSizes (spread.map (·.sched.tightened p.context))
      (spread.map (·.threads)) 0 blockSizes = .ok blockSizes') :
    gridSizes'.length = m.grid.length ∧ blockSizes'.length = m.block.length ∧
      (∀ n ∈ gridSizes', 0 < n) ∧
      List.Forall₂ (Covers p m gridSizes' blockSizes') numbers spread := by
  have hparts : Parts p.context spread (·.sched) (·.blocks) ∧
      Parts p.context spread (·.sched) (·.threads) := by
    constructor <;> intro r hr <;> obtain ⟨i, -, -, stmt, -, hfollows, -⟩ :=
      h.exists_of_mem_right hr
    · exact ⟨hfollows.sched.wellFormed hcontext,
        fun a ha => hfollows.forms a (List.mem_append_left _ ha)⟩
    · exact ⟨hfollows.sched.wellFormed hcontext,
        fun a ha => hfollows.forms a (List.mem_append_right _ ha)⟩
  obtain ⟨hgridLen, hgridPos, -⟩ := clampSizes_eq_ok hparts.1 hpos.1 hword.1 hgrid'
  obtain ⟨hblockLen, -, -⟩ := clampSizes_eq_ok hparts.2 hpos.2 hword.2 hblock'
  refine ⟨hgridLen.trans hgrid.symm, hblockLen.trans hblock.symm, hgridPos,
    h.mem_right.imp fun i r hr => ?_⟩
  obtain ⟨hmem, hi, stmt, hstmt, hfollows, hrange⟩ := hr
  refine ⟨hi, stmt, hstmt, hfollows, fun w hw => ?_⟩
  obtain ⟨hblocks, hthreads⟩ := hrange w hw
  obtain ⟨hblocksLen, hthreadsLen⟩ := hfollows.length_units
  rw [← hfollows.blocks w hw.defines] at hblocks ⊢
  rw [← hfollows.threads w hw.defines] at hthreads ⊢
  exact ⟨inRange_of_clamp hparts.1 hpos.1 hword.1 hgrid' hmem hw (hblocksLen.trans hgrid) hblocks,
    inRange_of_clamp hparts.2 hpos.2 hword.2 hblock' hmem hw (hthreadsLen.trans hblock) hthreads⟩

/-- Statements that are covered realize the mapping once units are ids. -/
theorem SpreadStmt.realizes_of_mapM {m : Mapping} {numbers : List Nat} {spread : List SpreadStmt}
    {gridSizes blockSizes : List Int} {ss : List StmtSchedule}
    (hgrid : gridSizes.length = m.grid.length)
    (hm : m.factors = List.replicate m.tileSizes.length 1)
    (h : List.Forall₂ (Covers p m gridSizes blockSizes) numbers spread)
    (hss : spread.mapM (parametrize p.nParam) = .ok ss) :
    List.Forall₂ (fun i s => s.stmt = i ∧ ∃ stmt, p.statements[i]? = some stmt ∧
      s.Realizes p m (gridSizes ++ blockSizes) stmt) numbers ss := by
  refine (h.comp (Outcome.mapM_eq_ok.mp hss)).imp ?_
  rintro i s ⟨r, ⟨hi, stmt, hstmt, hfollows, hrange⟩, hs⟩
  have hids : ∀ w, r.sched.Contains p.context w →
      InRange (m.ids (stmt.timeAt (r.sched.restrict w))) (gridSizes ++ blockSizes) := by
    intro w hw
    have hlen := Mapping.length_blocks (Mapping.fits_timeAt hfollows.fits (r.sched.restrict w))
    exact (InRange.append_iff (hlen.trans hgrid.symm)).mpr (hrange w hw)
  obtain ⟨hnumber, hrealizes⟩ := parametrize_eq_ok hfollows hm hids hs
  exact ⟨hnumber.trans hi, stmt, hstmt, hrealizes⟩

/-! ## kernels -/

namespace KernelSchedule

/-- The kernel runs the statements `numbers` of the program as the mapping says. -/
structure Realizes (p : Program) (numbers : List Nat) (m : Mapping)
    (k : KernelSchedule) : Prop where
  tileFirst : k.tileFirst = m.tileFirst
  tileLen : k.tileLen = m.tileSizes.length
  tileSizes : k.tileSizes = m.tileSizes
  nGrid : k.nGrid = m.grid.length
  nBlock : k.nBlock = m.block.length
  gridSizes : k.gridSizes.length = m.grid.length
  blockSizes : k.blockSizes.length = m.block.length
  gridSizes_pos : ∀ n ∈ k.gridSizes, 0 < n
  context : ∀ w, (∀ c ∈ k.context, c.Holds w) ↔ (∀ c ∈ p.context, c.Holds w) ∧
    InRange ((List.range' p.nParam m.grid.length).map w ++
      (List.range' (p.nParam + m.grid.length) m.block.length).map w) (k.gridSizes ++ k.blockSizes)
  statements : List.Forall₂ (fun i s => s.stmt = i ∧ ∃ stmt, p.statements[i]? = some stmt ∧
    s.Realizes p m (k.gridSizes ++ k.blockSizes) stmt) numbers k.statements

variable {numbers : List Nat} {m : Mapping} {k k' : KernelSchedule}

/-! ### scaling -/

/-- A tile loop is scaled by a positive factor. -/
theorem pos_of_tileFactor {j : Nat} {t f : Int} (ht : 0 < t) (hgrid : ∀ n ∈ k.gridSizes, 0 < n)
    (h : k.tileFactor j t = .ok f) : 0 < f := by
  unfold tileFactor at h
  split at h
  · next g _ hg =>
    simp only [Outcome.orOverflow_eq_ok, Word.mul?_eq_some] at h
    exact h.2 ▸ mul_pos ht (hgrid g (List.mem_of_getElem? hg))
  · simp only [Except.ok.injEq] at h
    exact h ▸ ht

/-- A statement whose tile loop is scaled realizes the scaled mapping. -/
theorem realizes_scaleLoop {s : StmtSchedule} {stmt : Statement} {sizes : List Int}
    {j : Nat} {f : Int} {d d' : Affine} (hf : 0 < f) (h : s.Realizes p m sizes stmt)
    (hj : j < m.tileSizes.length) (hd : s.dims[m.tileFirst + m.grid.length + j]? = some d)
    (hd' : d.scale f = .ok d') :
    { s with dims := s.dims.set (m.tileFirst + m.grid.length + j) d' }.Realizes p
      (m.scaleLoop j f hf) sizes stmt where
  toFrames := ⟨h.nProgramParam, h.nParam, h.nIter, h.space⟩
  fits := h.fits
  instances := h.instances
  inRange := h.inRange
  coords w hw heq := by
    have hcoords := h.coords w hw heq
    have hx : (m.coords (stmt.timeAt (s.restrict w)))[m.tileFirst + m.grid.length + j]? =
        some (d.value w) := by
      rw [← hcoords, List.getElem?_map, hd]
      rfl
    have hscaled := Mapping.coords_scaleLoop hf (Mapping.fits_timeAt h.fits (s.restrict w)) hj hx
    rw [← Affine.value_scale hd', ← hcoords, ← List.map_set] at hscaled
    exact hscaled.symm

/-- Scaling a tile loop of all statements scales the mapping. -/
theorem realizes_scaleDim {j : Nat} {f : Int} {ss : List StmtSchedule} (hf : 0 < f)
    (hk : k.Realizes p numbers m) (hj : j < m.tileSizes.length)
    (h : scaleDim (k.tileLoopPos j) f k.statements = .ok ss) :
    { k with statements := ss }.Realizes p numbers (m.scaleLoop j f hf) where
  tileFirst := hk.tileFirst
  tileLen := hk.tileLen
  tileSizes := hk.tileSizes
  nGrid := hk.nGrid
  nBlock := hk.nBlock
  gridSizes := hk.gridSizes
  blockSizes := hk.blockSizes
  gridSizes_pos := hk.gridSizes_pos
  context := hk.context
  statements := by
    rw [tileLoopPos, hk.tileFirst, hk.nGrid] at h
    refine (hk.statements.comp (scaleDim_eq_ok h)).imp ?_
    rintro i _ ⟨s, ⟨hi, stmt, hstmt, hs⟩, d, d', hd, hd', rfl⟩
    exact ⟨hi, stmt, hstmt, realizes_scaleLoop hf hs hj hd hd'⟩

/-- Mapping `m'` is `m` with the tile loops of the first `j` members multiplied by the
factors of the kernel. -/
structure Scales (k : KernelSchedule) (j : Nat) (m m' : Mapping) : Prop where
  grid : m'.grid = m.grid
  scaled : ∀ i < j, ∀ t, k.tileSizes[i]? = some t →
    ∃ f, k.tileFactor i t = .ok f ∧ m'.factors[i]? = m.factors[i]?.map (f * ·)
  rest : ∀ i, j ≤ i → m'.factors[i]? = m.factors[i]?

theorem Scales.zero (k : KernelSchedule) (m : Mapping) : k.Scales 0 m m :=
  ⟨rfl, fun _ hi => absurd hi (Nat.not_lt_zero _), fun _ _ => rfl⟩

theorem Scales.succ {j : Nat} {t f : Int} {m' : Mapping} (hf : 0 < f) (h : k.Scales j m m')
    (ht : k.tileSizes[j]? = some t) (hj : j < m'.tileSizes.length)
    (hfactor : k.tileFactor j t = .ok f) : k.Scales (j + 1) m (m'.scaleLoop j f hf) where
  grid := h.grid
  scaled i hi u hu := by
    by_cases hij : i = j
    · subst hij
      obtain rfl : t = u := Option.some.inj (ht.symm.trans hu)
      have hlt : i < m'.factors.length := m'.length_factors ▸ hj
      refine ⟨f, hfactor, ?_⟩
      rw [← h.rest i le_rfl, List.getElem?_eq_getElem hlt, Option.map_some]
      simp only [Mapping.scaleLoop, List.getElem?_set_self hlt, List.getD_eq_getElem _ _ hlt]
    · obtain ⟨g, hg, hscaled⟩ := h.scaled i (by omega) u hu
      exact ⟨g, hg, (List.getElem?_set_ne (Ne.symm hij)).trans hscaled⟩
  rest i hi := (List.getElem?_set_ne (by omega)).trans (h.rest i (by omega))

/-- Scaling the tile loops changes the statements only, and scales the mapping. -/
theorem realizes_scaleFrom (hk : k.Realizes p numbers m)
    (h : scaleFrom 0 k.tileSizes k = .ok k') :
    ∃ ss, k' = { k with statements := ss } ∧
      ∃ m', k'.Realizes p numbers m' ∧ k.Scales k.tileSizes.length m m' := by
  have hscaled := scaleFrom_induction (P := fun j ts u => k.tileSizes.drop j = ts ∧
    ∃ ss, u = { k with statements := ss } ∧ ∃ m', u.Realizes p numbers m' ∧ k.Scales j m m')
    (fun j t ts u f ss hu hfactor hdim => ?_) ⟨List.drop_zero, _, rfl, m, hk, .zero k m⟩ h
  · rw [Nat.zero_add] at hscaled
    exact hscaled.2
  · obtain ⟨hts, _, rfl, m', hm', hscales⟩ := hu
    have ht : k.tileSizes[j]? = some t := by
      rw [← List.head?_drop, hts]
      rfl
    have hj : j < m'.tileSizes.length := hm'.tileSizes ▸ (List.getElem?_eq_some_iff.mp ht).1
    have hf := pos_of_tileFactor
      (m'.tileSizes_pos t (hm'.tileSizes ▸ List.mem_of_getElem? ht)) hm'.gridSizes_pos hfactor
    refine ⟨?_, ss, rfl, _, realizes_scaleDim hf hm' hj hdim, hscales.succ hf ht hj hfactor⟩
    rw [← List.tail_drop, hts, List.tail_cons]

/-- The mapping deals out tiles and scales tile loops as the options ask for, and no
more blocks are launched than asked for. -/
structure Obeys (o : Options) (m : Mapping) (k : KernelSchedule) : Prop where
  grid : k.gridMapping = .wrap → m.grid = (outermostFirst k.nGrid o.gridSizes).map .wrap
  launch : List.Forall₂ (· ≤ ·) k.gridSizes (outermostFirst k.nGrid o.gridSizes)
  factors : o.scaleTileLoops = true → ∀ j t, k.tileSizes[j]? = some t →
    ∃ f, k.tileFactor j t = .ok f ∧ m.factors[j]? = some f

/-- A kernel with scaled tile loops obeys the options with a scaled mapping. -/
theorem obeys_scaleTileLoops {o : Options} (hk : k.Realizes p numbers m)
    (hgrid : k.gridMapping = .wrap → m.grid = (outermostFirst k.nGrid o.gridSizes).map .wrap)
    (hlaunch : List.Forall₂ (· ≤ ·) k.gridSizes (outermostFirst k.nGrid o.gridSizes))
    (hm : m.factors = List.replicate m.tileSizes.length 1) (h : k.scaleTileLoops = .ok k') :
    ∃ m', k'.Realizes p numbers m' ∧ k'.Obeys o m' := by
  simp only [scaleTileLoops, Outcome.bind_eq_ok, Outcome.pure_eq_ok] at h
  obtain ⟨k₁, hscale, stage, -, rfl⟩ := h
  obtain ⟨ss, rfl, m', hm', hscales⟩ := realizes_scaleFrom hk hscale
  refine ⟨m', ⟨hm'.tileFirst, hm'.tileLen, hm'.tileSizes, hm'.nGrid, hm'.nBlock, hm'.gridSizes,
    hm'.blockSizes, hm'.gridSizes_pos, hm'.context, hm'.statements⟩,
    fun hwrap => hscales.grid.trans (hgrid hwrap), hlaunch, fun _ j t ht => ?_⟩
  obtain ⟨hlt, -⟩ := List.getElem?_eq_some_iff.mp ht
  obtain ⟨f, hf, hscaled⟩ := hscales.scaled j hlt t ht
  rw [hm, List.getElem?_replicate_of_lt (hk.tileSizes ▸ hlt), Option.map_some, mul_one] at hscaled
  exact ⟨f, hf, hscaled⟩

theorem obeys_of_scaling {o : Options} (hk : k.Realizes p numbers m)
    (hgrid : k.gridMapping = .wrap → m.grid = (outermostFirst k.nGrid o.gridSizes).map .wrap)
    (hlaunch : List.Forall₂ (· ≤ ·) k.gridSizes (outermostFirst k.nGrid o.gridSizes))
    (hm : m.factors = List.replicate m.tileSizes.length 1)
    (h : (if o.scaleTileLoops then k.scaleTileLoops else pure k) = .ok k') :
    ∃ m', k'.Realizes p numbers m' ∧ k'.Obeys o m' := by
  split at h
  · exact obeys_scaleTileLoops hk hgrid hlaunch hm h
  · next hunscaled =>
    obtain rfl := Outcome.pure_eq_ok.mp h
    exact ⟨m, hk, hgrid, hlaunch, fun hscale => absurd hscale hunscaled⟩

/-! ### construction -/

/-- Interleaved tiles go to as many blocks as are asked for. -/
theorem eq_wrap_of_gridShares {mapping : Distribution} {context : List Constraint}
    {parts : List TiledStmt} {gridSizes : List Int} {shares : List Share}
    (h : gridShares mapping context parts gridSizes = .ok (.wrap, shares)) :
    shares = gridSizes.map .wrap := by
  unfold gridShares at h
  split at h
  · simpa using h.symm
  · simp only [Outcome.bind_eq_ok] at h
    obtain ⟨chunks, -, h⟩ := h
    cases chunks with
    | none =>
        simp only [Outcome.pure_eq_ok, Prod.mk.injEq, true_and] at h
        exact h.symm
    | some chunks => simp at h

/-- The assembled kernel of a valid program realizes a mapping that deals out tiles and
points as the options ask for. -/
theorem Assembles.exists_realizes {region : Region} {o : Options} {schedLen : Nat}
    {tiled : List TiledStmt} {shares : List Share} {parts : List (TiledStmt × Dealt)}
    {spread : List SpreadStmt} (hp : p.validate = .ok ()) (ho : o.validate = .ok ())
    (hword : o.Representable)
    (h : Assembles p region o schedLen tiled shares parts spread k) :
    ∃ m, k.Realizes p region.statements m ∧ m.factors = List.replicate m.tileSizes.length 1 ∧
      (k.gridMapping = .wrap → m.grid = (outermostFirst k.nGrid o.gridSizes).map .wrap) ∧
      List.Forall₂ (· ≤ ·) k.gridSizes (outermostFirst k.nGrid o.gridSizes) := by
  obtain ⟨hcontext, hstatements⟩ := Program.wellFormed_of_validate hp
  obtain ⟨htile, hgridPos, hblockPos⟩ := Options.pos_of_validate ho
  have htsPos : ∀ t ∈ k.tileSizes, 0 < t := by
    rw [h.tileSizes]
    exact List.forall_mem_map.mpr fun j _ => htile j
  have hpos : (∀ n ∈ outermostFirst k.nGrid o.gridSizes, 0 < n) ∧
      ∀ n ∈ fittingSizes k.nBlock o.blockSizes k.tileSizes, 0 < n :=
    ⟨fun n hn => hgridPos n (mem_outermostFirst hn),
      forall_mem_fittingSizes fun b hb t ht => lt_min (hblockPos b hb) (htsPos t ht)⟩
  have hwords : (∀ n ∈ outermostFirst k.nGrid o.gridSizes, n ≤ Word.greatest) ∧
      ∀ n ∈ fittingSizes k.nBlock o.blockSizes k.tileSizes, n ≤ Word.greatest :=
    ⟨fun n hn => (Word.fits_iff.mp (hword n (List.mem_append_left _ (mem_outermostFirst hn)))).2,
      forall_mem_fittingSizes fun b hb t _ =>
        (min_le_left b t).trans (Word.fits_iff.mp (hword b (List.mem_append_right _ hb))).2⟩
  obtain ⟨htsLen, hgsLen, hbsLen, hgrid, hblock⟩ := h.length_sizes
  obtain ⟨m, hfirst, hsizes, rfl, hgridLen, hblockLen, hfactors, hcovers⟩ :=
    SpreadStmt.covers_of_mapM hcontext hstatements (by rw [hgsLen, hbsLen, h.length_paramNames])
      htsPos (by omega) (by omega) hpos h.cut h.share h.dealTiles h.dealPoints
  obtain ⟨hgridLen', hblockLen', hgridPos', hcovers'⟩ :=
    SpreadStmt.covers_clamp hcontext hcovers hgridLen hblockLen hpos hwords h.clampGrid h.clampBlock
  obtain ⟨gridBounds, blockBounds, hgridBounds, hblockBounds, hbounds⟩ := h.context
  have hcontext' : ∀ w, (∀ c ∈ k.context, c.Holds w) ↔ (∀ c ∈ p.context, c.Holds w) ∧
      InRange ((List.range' p.nParam m.grid.length).map w ++
        (List.range' (p.nParam + m.grid.length) m.block.length).map w)
        (k.gridSizes ++ k.blockSizes) := by
    intro w
    rw [hbounds, List.forall_mem_append, List.forall_mem_append, idBounds_eq_ok hgridBounds,
      idBounds_eq_ok hblockBounds, hgridLen', hblockLen', ← hgsLen, ← hgridLen,
      InRange.append_iff (by rw [List.length_map, List.length_range', hgridLen']), and_assoc]
  refine ⟨m, ?_, hfactors, fun hwrap => ?_, clampSizes_le hpos.1 h.clampGrid⟩
  · exact ⟨hfirst.symm, by rw [hsizes, htsLen], hsizes.symm,
      by rw [hgridLen, hgsLen], by rw [hblockLen, hbsLen], hgridLen', hblockLen', hgridPos',
      hcontext', SpreadStmt.realizes_of_mapM hgridLen' hfactors hcovers' h.parametrize⟩
  · exact eq_wrap_of_gridShares (hwrap ▸ h.share)

/-- The kernel of a valid program realizes a mapping that obeys the options. -/
theorem realizes_buildBand {region : Region} {o : Options} {schedLen : Nat}
    (hp : p.validate = .ok ()) (ho : o.validate = .ok ()) (hword : o.Representable)
    (h : buildBand p region o schedLen = .ok k) :
    ∃ m, k.Realizes p region.statements m ∧ k.Obeys o m := by
  simp only [buildBand, Outcome.bind_eq_ok] at h
  obtain ⟨k₀, hk₀, h⟩ := h
  obtain ⟨tiled, shares, parts, spread, hassembles⟩ := assembles_of_assemble hk₀
  obtain ⟨m, hm, hfactors, hgrid, hlaunch⟩ := hassembles.exists_realizes hp ho hword
  exact obeys_of_scaling hm hgrid hlaunch hfactors h

end KernelSchedule

end KernelMap
