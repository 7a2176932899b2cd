import KernelMap.Schedule.Kernel
import KernelMap.Schedule.Share

/-!
# KernelMap.Schedule.Build

Construction of kernel schedules.

The band coordinates of every statement are cut into tiles, tiles are dealt out
to blocks and the points of a tile to threads.  Block and thread coordinates are
then equated with fresh parameters `b0, b1, …` and `t0, t1, …`.
-/

namespace KernelMap

/-! ## Tiling -/

/-- Band coordinates cut into tile coordinates `outer` and offsets `inner` inside
of the tile; `post` are the coordinates after the band. -/
structure Cut where
  outer : List Affine
  inner : List Affine
  post : List Affine
  space : Space

/-- Cut one coordinate for each tile size. -/
def Cut.ofBand : List Int → List Affine → Space → Outcome EngineError Cut
  | [], post, s => .ok ⟨[], [], post, s⟩
  | _ :: _, [], _ => .fault
  | t :: ts, b :: bs, s => do
    let (o, s) ← s.floor b t
    let i ← b.sub (← o.scale t)
    let rest ← ofBand ts bs s
    return { rest with outer := o :: rest.outer, inner := i :: rest.inner }

/-- A statement whose band has been cut into tiles. -/
structure TiledStmt where
  sched : StmtSchedule
  host : List Affine
  outer : List Affine
  inner : List Affine
  post : List Affine

/-- Cut the band of statement number `i` into tiles. -/
def TiledStmt.build (p : Program) (nParam tileFirst : Nat) (tileSizes : List Int) (i : Nat) :
    Outcome EngineError TiledStmt := do
  let stmt ← .orFault p.statements[i]?
  let sched : StmtSchedule := ⟨i, p.nParam, .ofSizes nParam stmt.iterators.length, [], []⟩
  let lifted ← stmt.schedule.mapM sched.lift
  if lifted.length < tileFirst then
    .fault
  else
    let cut ← Cut.ofBand tileSizes (lifted.drop tileFirst) sched.space
    let constraints ← stmt.domain.mapM sched.liftConstraint
    return {
      sched := { sched with space := cut.space, constraints }
      host := lifted.take tileFirst
      outer := cut.outer
      inner := cut.inner
      post := cut.post }

/-! ## Ranges -/

/-- The range of a form over the points of all statements, or `none` if it may be
unbounded.  Each form comes with the points of its statement. -/
def formRange : List (Outcome EngineError Polyhedron × Affine) → Option (Int × Int) →
    Outcome EngineError (Option (Int × Int))
  | [], range => .ok range
  | (points, a) :: rest, range => do
    let points ← points
    let lo ← points.minimize a
    let hi ← points.maximize a
    match lo, hi with
    | .empty, _ => formRange rest range
    | _, .empty => formRange rest range
    | .value l, .value h =>
      match range with
      | none => formRange rest (some (l, h))
      | some (l', h') => formRange rest (some (min l' l, max h' h))
    | _, _ => return none

/-- The maximum of a form over the points of all statements, or `none` if it may
be unbounded or there are no points. -/
def formMax : List (Outcome EngineError Polyhedron × Affine) → Option Int →
    Outcome EngineError (Option Int)
  | [], best => .ok best
  | (points, a) :: rest, best => do
    match ← (← points).maximize a with
    | .value v => formMax rest (some (best.elim v (max · v)))
    | .unbounded => return none
    | .empty => formMax rest best

/-- Coordinate `k` of every statement, next to the points of the statement. -/
def column {α : Type} (points : List α) (coords : List (List Affine)) (k : Nat) :
    List (α × Affine) :=
  points.zip (coords.map (·.getD k (.const 0)))

/-! ## Distribution -/

/-- The shares of the grid when tiles are dealt out in chunks, or `none` if the
number of tiles of some member is unbounded. -/
def gridChunks (points : List (Outcome EngineError Polyhedron)) (outers : List (List Affine)) :
    Nat → List Int → Outcome EngineError (Option (List Share))
  | _, [] => .ok (some [])
  | k, g :: gs => do
    match ← formRange (column points outers k) none with
    | none => return none
    | some (lo, hi) =>
      let span ← .orOverflow (Word.sub? hi lo)
      let count ← .orOverflow (Word.add? span 1)
      let size ← .orFault (Word.ceilDiv? count g)
      match ← gridChunks points outers (k + 1) gs with
      | none => return none
      | some shares => return some (.chunk lo (max size 1) :: shares)

/-- How the tiles are dealt out over the grid.  Chunks need a bounded number of
tiles; without one the tiles are interleaved. -/
def gridShares (mapping : Distribution) (context : List Constraint) (parts : List TiledStmt)
    (gridSizes : List Int) : Outcome EngineError (Distribution × List Share) :=
  match mapping with
  | .wrap => .ok (.wrap, gridSizes.map .wrap)
  | .tile => do
    let points := parts.map (·.sched.tightened context)
    match ← gridChunks points (parts.map (·.outer)) 0 gridSizes with
    | some shares => return (.tile, shares)
    | none => return (.wrap, gridSizes.map .wrap)

/-- How the points of a tile are dealt out over the threads. -/
def blockShares (mapping : Distribution) (tileSizes blockSizes : List Int) : List Share :=
  match mapping with
  | .wrap => blockSizes.map .wrap
  | .tile => (tileSizes.zip blockSizes).map fun (t, b) => .split t b

/-- A statement whose tiles and points have been dealt out. -/
structure SpreadStmt where
  sched : StmtSchedule
  host : List Affine
  blocks : List Affine
  loops : List Affine
  threads : List Affine
  points : List Affine
  post : List Affine

namespace SpreadStmt

/-- Deal out the tiles of a statement. -/
def dealTiles (shares : List Share) (t : TiledStmt) : Outcome EngineError (TiledStmt × Dealt) := do
  let dealt ← Share.dealAll shares t.outer t.sched.space
  return ({ t with sched := { t.sched with space := dealt.space } }, dealt)

/-- Deal out the points of a statement whose tiles have been dealt out. -/
def dealPoints (shares : List Share) (part : TiledStmt × Dealt) :
    Outcome EngineError SpreadStmt := do
  let (t, tiles) := part
  let dealt ← Share.dealAll shares t.inner t.sched.space
  return {
    sched := { t.sched with space := dealt.space }
    host := t.host
    blocks := tiles.units
    loops := tiles.loops
    threads := dealt.units
    points := dealt.loops
    post := t.post }

end SpreadStmt

/-- Reduce launch sizes to what is used: one more than the largest unit that
occurs, but at least one. -/
def clampSizes (points : List (Outcome EngineError Polyhedron)) (units : List (List Affine)) :
    Nat → List Int → Outcome EngineError (List Int)
  | _, [] => .ok []
  | k, n :: ns => do
    let size ← match ← formMax (column points units k) none with
      | none => .ok n
      | some m => .ok (max (min n (Word.satAdd m 1)) 1)
    return size :: (← clampSizes points units (k + 1) ns)

/-! ## Ids as parameters -/

/-- Equate each unit with its parameter, the first of which is variable `v`. -/
def idEquations : Nat → List Affine → Outcome EngineError (List Constraint)
  | _, [] => .ok []
  | v, unit :: units => do
    let e ← (Affine.var v).sub unit
    return .eq e :: (← idEquations (v + 1) units)

/-- The parameters of `n` units, the first of which is variable `v`. -/
def idParams (v n : Nat) : List Affine := (List.range' v n).map .var

/-- Parameter `v` and the following ones lie between zero and their sizes. -/
def idBounds : Nat → List Int → Outcome EngineError (List Constraint)
  | _, [] => .ok []
  | v, n :: ns => do
    let last ← .orFault (Word.sub? n 1)
    let above ← (Affine.term v (-1)).addConst last
    return .ge (.var v) :: .ge above :: (← idBounds (v + 1) ns)

/-- The schedule of a statement over the kernel's parameters, given that the
program has `p` parameters. -/
def SpreadStmt.parametrize (p : Nat) (s : SpreadStmt) : Outcome EngineError StmtSchedule := do
  let nGrid := s.blocks.length
  let blockEqs ← idEquations p s.blocks
  let threadEqs ← idEquations (p + nGrid) s.threads
  return { s.sched with
    constraints := s.sched.constraints ++ blockEqs ++ threadEqs
    dims := s.host ++ idParams p nGrid ++ s.loops ++ idParams (p + nGrid) s.threads.length ++
      s.points ++ s.post }

/-- How many coordinates of the band, from the first one on, carry no dependence. -/
def Region.nCoincident (region : Region) : Nat :=
  ((region.coincident.take region.tileLen).takeWhile id).length

namespace KernelSchedule

/-! ## Scaling -/

/-- Multiply coordinate `pos` of every statement by `factor`. -/
def scaleDim (pos : Nat) (factor : Int) :
    List StmtSchedule → Outcome EngineError (List StmtSchedule)
  | [] => .ok []
  | s :: ss => do
    let dim ← .orFault s.dims[pos]?
    let dim ← dim.scale factor
    return { s with dims := s.dims.set pos dim } :: (← scaleDim pos factor ss)

/-- The factor of the tile loop of member `m`: the tile size, times the number of
blocks where tiles are interleaved. -/
def tileFactor (k : KernelSchedule) (m : Nat) (tileSize : Int) : Outcome EngineError Int :=
  match k.gridMapping, k.gridSizes[m]? with
  | .wrap, some g => .orOverflow (Word.mul? tileSize g)
  | _, _ => .ok tileSize

/-- Multiply the tile loops of the members from `m` on by their factors. -/
def scaleFrom : Nat → List Int → KernelSchedule → Outcome EngineError KernelSchedule
  | _, [], k => .ok k
  | m, t :: ts, k => do
    let factor ← k.tileFactor m t
    let statements ← scaleDim (k.tileLoopPos m) factor k.statements
    scaleFrom (m + 1) ts { k with statements }

/-- Let the counters of the tile loops be element offsets. -/
def scaleTileLoops (k : KernelSchedule) : Outcome EngineError KernelSchedule := do
  let k ← scaleFrom 0 k.tileSizes k
  return { k with stage := ← k.stage.advance .scaled }

/-! ## Construction -/

/-- The roles of the coordinates. -/
def layout (tileFirst nGrid tileLen nBlock nInner : Nat) : List Level :=
  List.replicate tileFirst .host ++ List.replicate nGrid .blockId ++
    List.replicate tileLen .tileLoop ++ List.replicate nBlock .threadId ++
    List.replicate tileLen .pointLoop ++ List.replicate nInner .inner

/-- The first `n` sizes, outermost first. -/
def outermostFirst (n : Nat) (sizes : List Int) : List Int := (sizes.take n).reverse

/-- Names `c0, c1, …` of `n` ids. -/
def idNames (letter : String) (n : Nat) : List String :=
  (List.range n).map fun k => letter ++ toString k

/-- The first `n` block sizes, outermost first, none larger than its tile. -/
def fittingSizes (n : Nat) (sizes tileSizes : List Int) : List Int :=
  ((outermostFirst n sizes).zip tileSizes).map fun (b, t) => min b t

/-- The schedule of a region whose statements have schedules of length
`schedLen`, with tile loops that count tiles. -/
def assemble (p : Program) (region : Region) (o : Options) (schedLen : Nat) :
    Outcome EngineError KernelSchedule := do
  let nGrid := min region.nCoincident o.gridSizes.length
  let nBlock := min region.nCoincident o.blockSizes.length
  if Index.maxLength < region.tileLen then
    .fault
  else
    let tileSizes := (List.range region.tileLen).map o.tileSize
    let gridSizes := outermostFirst nGrid o.gridSizes
    let blockSizes := fittingSizes nBlock o.blockSizes tileSizes
    let paramNames := p.params ++ idNames "b" nGrid ++ idNames "t" nBlock
    let tiled ← region.statements.mapM
      (TiledStmt.build p paramNames.length region.tileFirst tileSizes)
    let (gridMapping, shares) ← gridShares o.gridMapping p.context tiled gridSizes
    let parts ← tiled.mapM (SpreadStmt.dealTiles shares)
    let spread ← parts.mapM
      (SpreadStmt.dealPoints (blockShares o.threadMapping tileSizes blockSizes))
    let points := spread.map (·.sched.tightened p.context)
    let gridSizes ← clampSizes points (spread.map (·.blocks)) 0 gridSizes
    let blockSizes ← clampSizes points (spread.map (·.threads)) 0 blockSizes
    let statements ← spread.mapM (SpreadStmt.parametrize p.nParam)
    let gridBounds ← idBounds p.nParam gridSizes
    let blockBounds ← idBounds (p.nParam + nGrid) blockSizes
    return {
      paramNames
      nProgramParam := p.nParam
      context := p.context ++ gridBounds ++ blockBounds
      tileFirst := region.tileFirst
      tileLen := region.tileLen
      nGrid
      nBlock
      tileSizes
      gridSizes
      blockSizes
      gridMapping
      threadMapping := o.threadMapping
      levels := layout region.tileFirst nGrid region.tileLen nBlock
        (schedLen - region.tileFirst - region.tileLen)
      coincident := region.coincident
      statements
      stage := .parametrized }

/-- The schedule of a region whose statements have schedules of length
`schedLen`. -/
def buildBand (p : Program) (region : Region) (o : Options) (schedLen : Nat) :
    Outcome EngineError KernelSchedule := do
  let k ← assemble p region o schedLen
  if o.scaleTileLoops then k.scaleTileLoops else return k

/-- The kernel schedule of a region. -/
def build (p : Program) (region : Region) (o : Options) : Outcome MapError KernelSchedule :=
  match region.statements.head?.bind (p.statements[·]?) with
  | none => .raise (.program .emptyKernel)
  | some first => .ofEngine (buildBand p region o first.schedule.length)

end KernelSchedule

end KernelMap
