import KernelMap.Proofs.Schedule

/-!
# KernelMap.Proofs.Instances

Statement instances and the points of a kernel where they run.

An instance of a statement is a point of its domain; it runs at ids if they lie
within the launch sizes and all constraints of the kernel hold there
(`KernelSchedule.RunsAt`).  In the kernel of a valid program every instance runs at
exactly one choice of ids, and kernel coordinates tell apart exactly the instances that
the schedule tells apart (`KernelSchedule.instance_has_one_kernel_point`).  The order
of instances that are legal to run in one thread is kept
(`KernelSchedule.kernel_order_is_legal`).
-/

namespace KernelMap

/-! ## instances -/

/-- The parameters satisfy the context. -/
def Program.Admits (p : Program) (params : List Int) : Prop :=
  params.length = p.nParam ∧ ∀ c ∈ p.context, c.Holds (.ofList params)

instance (p : Program) (params : List Int) : Decidable (p.Admits params) :=
  inferInstanceAs (Decidable (_ ∧ _))

namespace Statement

/-- `x` has a value for each iterator and lies in the domain. -/
def IsInstance (stmt : Statement) (params x : List Int) : Prop :=
  x.length = stmt.iterators.length ∧ ∀ c ∈ stmt.domain, c.Holds (.ofList (params ++ x))

instance (stmt : Statement) (params x : List Int) : Decidable (stmt.IsInstance params x) :=
  inferInstanceAs (Decidable (_ ∧ _))

/-- The schedule vector of an instance. -/
def time (stmt : Statement) (params x : List Int) : List Int := stmt.timeAt (.ofList (params ++ x))

end Statement

namespace StmtSchedule

/-- The values of all variables at an instance, with integers of any size. -/
def point (s : StmtSchedule) (params ids x : List Int) : List Int :=
  s.space.point (params ++ ids ++ x)

/-- The schedule coordinates of an instance. -/
def coords (s : StmtSchedule) (params ids x : List Int) : List Int :=
  s.dims.map (·.value (.ofList (s.point params ids x)))

/-- The lists have a value for each parameter, each of the `n` ids and each
iterator of the statement. -/
structure Places (p : Program) (n : Nat) (stmt : Statement) (s : StmtSchedule)
    (params ids x : List Int) : Prop extends Frames p n stmt s where
  length_params : params.length = p.nParam
  length_ids : ids.length = n
  length_x : x.length = stmt.iterators.length

namespace Places

variable {p : Program} {n : Nat} {stmt : Statement} {s : StmtSchedule} {params ids x : List Int}

/-- Parameters, ids and iterators are the variables before the divisions. -/
theorem length_base (h : s.Places p n stmt params ids x) :
    (params ++ ids ++ x).length = p.nParam + n + stmt.iterators.length := by
  rw [List.length_append, List.length_append, h.length_params, h.length_ids, h.length_x]

theorem defines_point (h : s.Places p n stmt params ids x) :
    s.space.Defines (.ofList (s.point params ids x)) :=
  Space.defines_point h.space (h.length_base.trans h.toFrames.divOffset.symm)

/-- The point has the values of the parameters and iterators where they belong. -/
theorem restrict_point (h : s.Places p n stmt params ids x) {i : Nat}
    (hi : i < p.nParam + stmt.iterators.length) :
    s.restrict (.ofList (s.point params ids x)) i = Valuation.ofList (params ++ x) i := by
  have hlen := h.length_base
  have hparams := h.length_params
  rw [restrict, h.nProgramParam, h.toFrames.nIds]
  split
  · next hlt =>
    rw [point, Space.point_base _ (by omega), List.append_assoc,
      Valuation.ofList_append_left (by omega), Valuation.ofList_append_left (by omega)]
  · next hle =>
    obtain ⟨j, rfl⟩ : ∃ j, i = params.length + j := ⟨i - params.length, by omega⟩
    have hshift : params.length + j + n = (params ++ ids).length + j := by
      rw [List.length_append, h.length_ids]
      omega
    rw [point, Space.point_base _ (by omega), hshift, Valuation.ofList_append_right,
      Valuation.ofList_append_right]

/-- The ids of a point are those it was made from. -/
theorem ids_point (h : s.Places p n stmt params ids x) :
    s.ids (.ofList (s.point params ids x)) = ids := by
  have hlen := h.length_base
  have hids := h.length_ids
  refine List.ext_getElem ?_ fun j _ hj => ?_
  · rw [StmtSchedule.ids, List.length_map, List.length_range', h.toFrames.nIds, hids]
  · simp only [StmtSchedule.ids, List.getElem_map, List.getElem_range', h.nProgramParam,
      one_mul, point]
    rw [Space.point_base _ (by omega), ← h.length_params, List.append_assoc,
      Valuation.ofList_append_right, Valuation.ofList_append_left hj]
    exact List.getD_eq_getElem _ _ hj

/-- At a point, the schedule of the statement has the time of the iteration. -/
theorem timeAt_point (h : s.Places p n stmt params ids x) (hstmt : stmt.WellFormed p.nParam) :
    stmt.timeAt (s.restrict (.ofList (s.point params ids x))) = stmt.time params x :=
  List.map_congr_left fun a ha => (hstmt.schedule a ha).value_congr fun _ hi => h.restrict_point hi

/-- At a point, the domain of the statement holds if it does for the iteration. -/
theorem domain_point (h : s.Places p n stmt params ids x) (hstmt : stmt.WellFormed p.nParam) :
    (∀ c ∈ stmt.domain, c.Holds (s.restrict (.ofList (s.point params ids x)))) ↔
      ∀ c ∈ stmt.domain, c.Holds (.ofList (params ++ x)) := by
  refine forall₂_congr fun c hc => ?_
  rw [Constraint.Holds, (hstmt.domain c hc).value_congr fun _ hi => h.restrict_point hi,
    Constraint.Holds]

/-- At a point, the context of the program holds if it does for the parameters. -/
theorem context_point (h : s.Places p n stmt params ids x)
    (hcontext : ∀ c ∈ p.context, c.expr.Within p.nParam) :
    (∀ c ∈ p.context, c.Holds (.ofList (s.point params ids x))) ↔ ∀ c ∈ p.context,
      c.Holds (.ofList params) := by
  have hlen := h.length_base
  have hparams := h.length_params
  have hvalue : ∀ i, i < p.nParam → Valuation.ofList (s.point params ids x) i =
      Valuation.ofList params i := by
    intro i hi
    rw [point, Space.point_base _ (by omega), List.append_assoc,
      Valuation.ofList_append_left (by omega)]
  refine forall₂_congr fun c hc => ?_
  rw [Constraint.Holds, (hcontext c hc).value_congr hvalue, Constraint.Holds]

end Places

end StmtSchedule

namespace KernelSchedule

/-- Instance `x` of the statement runs at the block and thread ids `ids`: each id
lies between zero and its launch size, and the constraints of the statement and of
the kernel hold. -/
structure RunsAt (k : KernelSchedule) (s : StmtSchedule) (params ids x : List Int) : Prop where
  inRange : InRange ids (k.gridSizes ++ k.blockSizes)
  constraints : ∀ c ∈ s.constraints ++ k.context, c.Holds (.ofList (s.point params ids x))

/-- The coordinates of a schedule vector that belong to the host. -/
def host (k : KernelSchedule) (v : List Int) : List Int := v.take k.tileFirst

/-- The coordinates of a schedule vector that belong to the band. -/
def band (k : KernelSchedule) (v : List Int) : List Int := (v.drop k.tileFirst).take k.tileLen

section Runs

variable {p : Program} {numbers : List Nat} {m : Mapping} {k : KernelSchedule} {s : StmtSchedule}
  {stmt : Statement} {params ids x : List Int}

/-- Ids in range have a value for each block and thread dimension. -/
theorem Realizes.length_ids (hk : k.Realizes p numbers m)
    (h : InRange ids (k.gridSizes ++ k.blockSizes)) :
    ids.length = m.grid.length + m.block.length := by
  rw [h.length_eq, List.length_append, hk.gridSizes, hk.blockSizes]

/-- An instance runs at the ids of the mapping and at no others. -/
theorem Realizes.runsAt_iff (hk : k.Realizes p numbers m)
    (hs : s.Realizes p m (k.gridSizes ++ k.blockSizes) stmt)
    (hcontext : ∀ c ∈ p.context, c.expr.Within p.nParam) (hstmt : stmt.WellFormed p.nParam)
    (hparams : p.Admits params) (hx : stmt.IsInstance params x) :
    k.RunsAt s params ids x ↔ ids = m.ids (stmt.time params x) := by
  constructor
  · rintro ⟨hrange, hall⟩
    have hplaces : s.Places p _ stmt params ids x :=
      ⟨hs.toFrames, hparams.1, hk.length_ids hrange, hx.1⟩
    obtain ⟨-, hids⟩ := (hs.instances _ hplaces.defines_point).mp fun c hc =>
      hall c (List.mem_append_left _ hc)
    rw [hplaces.ids_point, hplaces.timeAt_point hstmt] at hids
    exact hids
  · intro hids
    have hlen : ids.length = m.grid.length + m.block.length := by
      have hfits := Mapping.fits_timeAt hs.fits (.ofList (params ++ x))
      rw [hids, Mapping.ids, List.length_append]
      exact congrArg₂ _ (Mapping.length_blocks hfits) (Mapping.length_threads hfits)
    have hplaces : s.Places p _ stmt params ids x := ⟨hs.toFrames, hparams.1, hlen, hx.1⟩
    have htime := hplaces.timeAt_point hstmt
    have hdomain := (hplaces.domain_point hstmt).mpr hx.2
    have hctx := (hplaces.context_point hcontext).mpr hparams.2
    have hrange := hs.inRange _ hplaces.defines_point hdomain hctx
    rw [htime, ← hids] at hrange
    refine ⟨hrange, fun c hc => ?_⟩
    rcases List.mem_append.mp hc with hc | hc
    · exact (hs.instances _ hplaces.defines_point).mpr
        ⟨hdomain, by rw [hplaces.ids_point, htime, hids]⟩ c hc
    · refine (hk.context _).mpr ⟨hctx, ?_⟩ c hc
      rw [← hs.toFrames.ids_eq, hplaces.ids_point]
      exact hrange

/-- Where an instance runs, it has the coordinates of the mapping. -/
theorem Realizes.coords_eq (hk : k.Realizes p numbers m)
    (hs : s.Realizes p m (k.gridSizes ++ k.blockSizes) stmt) (hstmt : stmt.WellFormed p.nParam)
    (hparams : p.Admits params) (hx : stmt.IsInstance params x)
    (hids : ids = m.ids (stmt.time params x)) (hrun : k.RunsAt s params ids x) :
    s.coords params ids x = m.coords (stmt.time params x) := by
  have hplaces : s.Places p _ stmt params ids x :=
    ⟨hs.toFrames, hparams.1, hk.length_ids hrun.inRange, hx.1⟩
  have hcoords := hs.coords _ hplaces.defines_point
  rw [hplaces.timeAt_point hstmt, hplaces.ids_point] at hcoords
  exact hcoords hids

end Runs

/-! ## kernels of valid programs -/

/-- An instance of a statement of the kernel. -/
structure Instance (k : KernelSchedule) (p : Program) (params : List Int) where
  schedule : StmtSchedule
  statement : Statement
  /-- The values of the iterators. -/
  iteration : List Int
  mem_statements : schedule ∈ k.statements
  statement_eq : p.statements[schedule.stmt]? = some statement
  isInstance : statement.IsInstance params iteration

namespace Instance

variable {k : KernelSchedule} {p : Program} {params : List Int} (a : k.Instance p params)

/-- The schedule vector. -/
def time : List Int := a.statement.time params a.iteration

/-- The instance runs at these ids. -/
def RunsAt (ids : List Int) : Prop := k.RunsAt a.schedule params ids a.iteration

/-- The kernel coordinates at the given ids. -/
def coords (ids : List Int) : List Int := a.schedule.coords params ids a.iteration

end Instance

variable {p : Program} {region : Region} {o : Options} {k : KernelSchedule}

/-- A kernel schedule built from a valid program realizes a mapping that obeys the options. -/
theorem exists_obeys (hp : p.validate = .ok ()) (ho : o.validate = .ok ()) (hword : o.Representable)
    (hk : build p region o = .ok k) : ∃ m, k.Realizes p region.statements m ∧ k.Obeys o m := by
  unfold build at hk
  split at hk
  · simp at hk
  · exact realizes_buildBand hp ho hword (Outcome.ofEngine_eq_ok.mp hk)

theorem exists_realizes (hp : p.validate = .ok ()) (ho : o.validate = .ok ())
    (hword : o.Representable) (hk : build p region o = .ok k) :
    ∃ m, k.Realizes p region.statements m :=
  (exists_obeys hp ho hword hk).imp fun _ => And.left

/-- The mapping says where the instances of a valid program run and what
coordinates they have there. -/
theorem Realizes.instance_eq {numbers : List Nat} {m : Mapping} (hp : p.validate = .ok ())
    (hk : k.Realizes p numbers m) {params : List Int} (hparams : p.Admits params)
    (a : k.Instance p params) :
    m.Fits a.time ∧ (∀ ids, a.RunsAt ids ↔ ids = m.ids a.time) ∧
      a.coords (m.ids a.time) = m.coords a.time := by
  obtain ⟨hcontext, hstatements⟩ := Program.wellFormed_of_validate hp
  obtain ⟨i, -, rfl, stmt, hstmt, hs⟩ := hk.statements.exists_of_mem_right a.mem_statements
  obtain rfl : stmt = a.statement := Option.some.inj (hstmt.symm.trans a.statement_eq)
  have hwf := hstatements _ (List.mem_of_getElem? hstmt)
  have hruns : ∀ ids, a.RunsAt ids ↔ ids = m.ids a.time := fun _ =>
    hk.runsAt_iff hs hcontext hwf hparams a.isInstance
  exact ⟨Mapping.fits_timeAt hs.fits _, hruns,
    hk.coords_eq hs hwf hparams a.isInstance rfl ((hruns _).mpr rfl)⟩

/-- Where an instance runs, evaluation of its space gives the exact point or
fails. -/
theorem Realizes.eval_eq {numbers : List Nat} {m : Mapping} (hk : k.Realizes p numbers m)
    {params : List Int} (hparams : p.Admits params) {a : k.Instance p params}
    {ids values : List Int} (hrun : a.RunsAt ids)
    (h : a.schedule.space.eval (params ++ ids ++ a.iteration) = .ok values) :
    values = a.schedule.point params ids a.iteration := by
  obtain ⟨i, -, rfl, stmt, hstmt, hs⟩ := hk.statements.exists_of_mem_right a.mem_statements
  obtain rfl : stmt = a.statement := Option.some.inj (hstmt.symm.trans a.statement_eq)
  have hplaces : a.schedule.Places p _ a.statement params ids a.iteration :=
    ⟨hs.toFrames, hparams.1, hk.length_ids hrun.inRange, a.isInstance.1⟩
  have hlen := hplaces.length_base.trans hs.toFrames.divOffset.symm
  rw [Space.eval_eq_ok h, List.take_of_length_le hlen.le, StmtSchedule.point]

/-- The statements of a kernel are those of its region, in order. -/
theorem Realizes.map_stmt {numbers : List Nat} {m : Mapping} (hk : k.Realizes p numbers m) :
    k.statements.map (·.stmt) = numbers := by
  rw [← List.forall₂_eq_eq_eq, List.forall₂_map_left_iff]
  exact hk.statements.flip.imp fun _ _ h => h.1

/-- Every instance of a statement of the region is one of the kernel. -/
theorem Realizes.exists_instance {numbers : List Nat} {m : Mapping}
    (hk : k.Realizes p numbers m) {i : Nat} {stmt : Statement} {params x : List Int}
    (hi : i ∈ numbers) (hstmt : p.statements[i]? = some stmt) (hx : stmt.IsInstance params x) :
    ∃ a : k.Instance p params, a.statement = stmt ∧ a.iteration = x := by
  obtain ⟨s, hs, hnumber, -⟩ := hk.statements.exists_of_mem_left hi
  exact ⟨⟨s, stmt, x, hs, by rw [hnumber, hstmt], hx⟩, rfl, rfl⟩

/-- Every instance runs at exactly one choice of block and thread ids, and two
instances have the same kernel coordinates exactly if they have the same schedule
vector. -/
theorem instance_has_one_kernel_point (hp : p.validate = .ok ()) (ho : o.validate = .ok ())
    (hword : o.Representable) (hk : build p region o = .ok k) {params : List Int}
    (hparams : p.Admits params) :
    (k.statements.map (·.stmt) = region.statements ∧ ∀ i ∈ region.statements, ∃ stmt,
      p.statements[i]? = some stmt) ∧
      (∀ a : k.Instance p params, ∃! ids, a.RunsAt ids) ∧
      (∀ (a b : k.Instance p params) (ids ids' : List Int), a.RunsAt ids → b.RunsAt ids' →
        (a.coords ids = b.coords ids' ↔ a.time = b.time)) ∧
      ∀ (a : k.Instance p params) (ids values : List Int), a.RunsAt ids →
        a.schedule.space.eval (params ++ ids ++ a.iteration) = .ok values →
        values = a.schedule.point params ids a.iteration := by
  obtain ⟨m, hm⟩ := exists_realizes hp ho hword hk
  refine ⟨⟨hm.map_stmt, fun i hi => ?_⟩, fun a => ?_, fun a b ids ids' ha hb => ?_,
    fun a ids values => hm.eval_eq hparams⟩
  · obtain ⟨s, -, -, stmt, hstmt, -⟩ := hm.statements.exists_of_mem_left hi
    exact ⟨stmt, hstmt⟩
  · obtain ⟨-, hruns, -⟩ := hm.instance_eq hp hparams a
    exact ⟨m.ids a.time, (hruns _).mpr rfl, fun ids => (hruns ids).mp⟩
  · obtain ⟨hfits, hruns, hcoords⟩ := hm.instance_eq hp hparams a
    obtain ⟨hfits', hruns', hcoords'⟩ := hm.instance_eq hp hparams b
    rw [(hruns ids).mp ha, (hruns' ids').mp hb, hcoords, hcoords']
    exact Mapping.coords_inj hfits hfits'

/-- Three loops.  The first belongs to the host; of the band only the first
member is dealt out, and the second has no bounds. -/
def stripStatement : Statement :=
  ⟨"S", ["i", "j", "k"], [.ge ⟨[0, 1], 0⟩, .ge ⟨[0, -1], 9⟩], [.var 0, .var 1, .var 2], []⟩

def stripProgram : Program := { Program.empty with statements := [stripStatement] }

def stripRegion : Region := ⟨[0], 1, 2, [true, false]⟩

/-- Tiles of four, in chunks for two blocks of three threads. -/
def stripOptions : Options :=
  { Options.default with tileSizes := [4], gridSizes := [2], blockSizes := [3],
                         gridMapping := .tile }

theorem exists_stripKernel : ∃ k, build stripProgram stripRegion stripOptions = .ok k ∧
    k.tileFirst = 1 ∧ k.tileLen = 2 ∧ k.nGrid = 1 ∧ k.nBlock = 1 := by
  have hshape : (build stripProgram stripRegion stripOptions).toOption.map
      (fun k => (k.tileFirst, k.tileLen, k.nGrid, k.nBlock)) = some (1, 2, 1, 1) := by
    decide +kernel
  obtain ⟨k, hk, hshape⟩ := Option.map_eq_some_iff.mp hshape
  simp only [Prod.mk.injEq] at hshape
  exact ⟨k, Outcome.toOption_eq_some.mp hk, hshape⟩

theorem strip_valid : stripProgram.validate = .ok () ∧ stripOptions.validate = .ok () ∧
    stripOptions.Representable ∧
    stripProgram.Admits [] := by
  decide +kernel

/-- The iterations of `stripProgram` are instances of its kernel. -/
theorem exists_stripInstance {k : KernelSchedule}
    (hk : build stripProgram stripRegion stripOptions = .ok k) {x : List Int}
    (hx : stripStatement.IsInstance [] x) :
    ∃ a : k.Instance stripProgram [], a.time = stripStatement.time [] x := by
  obtain ⟨hp, ho, hword, -⟩ := strip_valid
  obtain ⟨m, hm⟩ := exists_realizes hp ho hword hk
  obtain ⟨a, hstmt, hiter⟩ := hm.exists_instance (List.mem_singleton_self 0) rfl hx
  exact ⟨a, by rw [Instance.time, hstmt, hiter]⟩

/-- The iteration `[0, 5, 7]` of `stripProgram` runs at one point of the kernel. -/
theorem strip_has_one_kernel_point :
    stripProgram.validate = .ok () ∧ stripOptions.validate = .ok () ∧ stripOptions.Representable ∧
      stripProgram.Admits [] ∧ ∃ k, build stripProgram stripRegion stripOptions = .ok k ∧
        ∃ a : k.Instance stripProgram [], a.time = stripStatement.time [] [0, 5, 7] ∧ ∃! ids,
          a.RunsAt ids := by
  obtain ⟨hp, ho, hword, hparams⟩ := strip_valid
  obtain ⟨k, hk, -⟩ := exists_stripKernel
  obtain ⟨a, ha⟩ := exists_stripInstance (x := [0, 5, 7]) hk (by decide)
  exact ⟨hp, ho, hword, hparams, k, hk, a, ha,
    (instance_has_one_kernel_point hp ho hword hk hparams).2.1 a⟩

/-- Instances that agree on the host and on the members that are dealt out, and are
ordered on every member of the band, run at the same ids in their order; and the order of
the host coordinates is the order of the kernel coordinates. -/
theorem kernel_order_is_legal (hp : p.validate = .ok ()) (ho : o.validate = .ok ())
    (hword : o.Representable) (hk : build p region o = .ok k) {params : List Int}
    (hparams : p.Admits params) (a b : k.Instance p params) :
    ∃ ids ids', (∀ i, a.RunsAt i ↔ i = ids) ∧ (∀ i, b.RunsAt i ↔ i = ids') ∧
      (a.time < b.time → k.host a.time = k.host b.time →
        List.Forall₂ (· ≤ ·) (k.band a.time) (k.band b.time) →
        (k.band a.time).take (max k.nGrid k.nBlock) = (k.band b.time).take (max k.nGrid k.nBlock) →
        ids = ids' ∧ a.coords ids < b.coords ids') ∧
      (k.host a.time < k.host b.time → a.coords ids < b.coords ids') := by
  obtain ⟨m, hm⟩ := exists_realizes hp ho hword hk
  obtain ⟨hfits, hruns, hcoords⟩ := hm.instance_eq hp hparams a
  obtain ⟨hfits', hruns', hcoords'⟩ := hm.instance_eq hp hparams b
  refine ⟨_, _, hruns, hruns', ?_, ?_⟩
  · intro hlt hhost hband hdealt
    rw [host, host, hm.tileFirst] at hhost
    rw [band, band, hm.tileFirst, hm.tileLen] at hband hdealt
    rw [hm.nGrid, hm.nBlock] at hdealt
    rw [hcoords, hcoords']
    exact Mapping.coords_lt_of_band hfits hfits' hlt hhost hband hdealt
  · intro hhost
    rw [host, host, hm.tileFirst] at hhost
    rw [hcoords, hcoords']
    exact Mapping.coords_lt_of_host hfits hfits' hhost

/-- Two iterations of `stripProgram` in one thread run in their order. -/
theorem strip_runs_in_order :
    stripProgram.validate = .ok () ∧ stripOptions.validate = .ok () ∧ stripOptions.Representable ∧
      stripProgram.Admits [] ∧ ∃ k, build stripProgram stripRegion stripOptions = .ok k ∧
        ∃ a b : k.Instance stripProgram [],
          a.time = stripStatement.time [] [0, 5, 7] ∧ b.time = stripStatement.time [] [0, 5, 9] ∧
          ∃ ids, a.RunsAt ids ∧ b.RunsAt ids ∧ a.coords ids < b.coords ids := by
  obtain ⟨hp, ho, hword, hparams⟩ := strip_valid
  obtain ⟨k, hk, hfirst, hlen, hgrid, hblock⟩ := exists_stripKernel
  obtain ⟨a, ha⟩ := exists_stripInstance (x := [0, 5, 7]) hk (by decide)
  obtain ⟨b, hb⟩ := exists_stripInstance (x := [0, 5, 9]) hk (by decide)
  obtain ⟨ids, ids', hruns, hruns', hlegal, -⟩ := kernel_order_is_legal hp ho hword hk hparams a b
  rw [host, host, band, band, hfirst, hlen, hgrid, hblock, ha, hb] at hlegal
  obtain ⟨rfl, hlt⟩ := hlegal (by decide) rfl (by decide) rfl
  exact ⟨hp, ho, hword, hparams, k, hk, a, b, ha, hb, ids, (hruns _).mpr rfl,
    (hruns' _).mpr rfl, hlt⟩

end KernelSchedule

end KernelMap
