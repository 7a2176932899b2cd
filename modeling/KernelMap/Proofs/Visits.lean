import KernelMap.Proofs.Layout
import KernelMap.Proofs.Relation

/-!
# KernelMap.Proofs.Visits

Visits: single accesses of a kernel to array elements.

A visit is an instance of a statement at the ids where it runs, with one of its references and an
element that the reference touches there.  The access built for a set of references contains every
visit of one of them (`KernelSchedule.Visit.exists_contains`), also if the region lists a statement
more than once, since all copies of it run alike.
-/

namespace KernelMap

/-! ## kernels of valid programs -/

namespace Program

variable {p : Program}

/-- The subscripts of references that pass the check use known variables only. -/
theorem within_of_checkReferences {dim : Nat} {ids ids' : List Nat} {rs : List Reference}
    (h : p.checkReferences dim ids rs = .ok ids') :
    ∀ r ∈ rs, ∀ i ∈ r.subscripts, i.within dim = true := by
  induction rs generalizing ids with
  | nil => simp
  | cons r rs ih =>
      simp only [checkReferences, checkReference, Outcome.bind_eq_ok, Outcome.ensure_eq_ok,
        List.all_eq_true] at h
      obtain ⟨_, ⟨_, -, _, -, _, -, _, hwithin, -⟩, h⟩ := h
      exact List.forall_mem_cons.mpr ⟨hwithin, ih h⟩

/-- In statements that pass the check, subscripts use parameters and iterators only. -/
theorem within_of_checkStatements {names : List String} {ids : List Nat} {stmts : List Statement}
    (h : p.checkStatements names ids stmts = .ok ()) :
    ∀ stmt ∈ stmts, ∀ r ∈ stmt.references, ∀ i ∈ r.subscripts,
      i.within (p.nParam + stmt.iterators.length) = true := by
  induction stmts generalizing names ids with
  | nil => simp
  | cons stmt stmts ih =>
      simp only [checkStatements, Outcome.bind_eq_ok] at h
      obtain ⟨_, -, _, -, ids', hrefs, h⟩ := h
      exact List.forall_mem_cons.mpr ⟨within_of_checkReferences hrefs, ih h⟩

/-- The subscripts of a valid program only use the variables of their statement. -/
theorem subscripts_within_of_validate (h : p.validate = .ok ()) :
    ∀ stmt ∈ p.statements, ∀ r ∈ stmt.references, ∀ i ∈ r.subscripts,
      i.within (p.nParam + stmt.iterators.length) = true := by
  simp only [validate, Outcome.widen_eq_ok, Outcome.bind_eq_ok] at h
  obtain ⟨_, -, _, hstatements, -⟩ := h
  exact within_of_checkStatements hstatements

end Program

namespace KernelSchedule

/-- The kernel of a valid program. -/
structure Valid (p : Program) (k : KernelSchedule) : Prop where
  program : p.validate = .ok ()
  laidOut : k.LaidOut p
  realizes : ∃ numbers m, k.Realizes p numbers m

/-- The schedule that is built for a valid program under valid options is valid. -/
theorem valid_of_build {p : Program} {region : Region} {o : Options} {k : KernelSchedule}
    (hp : p.validate = .ok ()) (ho : o.validate = .ok ()) (hword : o.Representable)
    (hk : build p region o = .ok k) : k.Valid p :=
  ⟨hp, laidOut_of_build hk, region.statements, exists_realizes hp ho hword hk⟩

/-! ## visits -/

/-- An instance at the ids where it runs touches an element through a reference out of those with
the numbers `refs`. -/
structure Visit (k : KernelSchedule) (p : Program) (params : List Int) (refs : List Nat) where
  inst : k.Instance p params
  ids : List Int
  reference : Reference
  element : List Int
  runsAt : inst.RunsAt ids
  mem_references : reference ∈ inst.statement.references
  id_mem : reference.id ∈ refs
  touches : reference.Touches params inst.iteration element

namespace Visit

variable {p : Program} {k : KernelSchedule} {params : List Int} {refs : List Nat}

/-- The kernel coordinates. -/
def coords (v : k.Visit p params refs) : List Int := v.inst.coords v.ids

/-- The thread ids. -/
def threads (v : k.Visit p params refs) : List Int := v.ids.drop k.nGrid

/-- The same visit, for numbers that include that of its reference. -/
def widen (v : k.Visit p params refs) {refs' : List Nat} (h : v.reference.id ∈ refs') :
    k.Visit p params refs' :=
  { v with id_mem := h }

/-- The thread of a visit is read off its coordinates, after the block and tile loops. -/
theorem threads_eq (hk : k.Valid p) (hparams : p.Admits params) (v : k.Visit p params refs) :
    v.threads = (v.coords.drop k.sharedLen).take k.nBlock := by
  obtain ⟨numbers, m, hm⟩ := hk.realizes
  exact hm.threads_eq hk.program hparams v.runsAt

end Visit

end KernelSchedule

/-! ## accesses of references -/

namespace Scope

variable {sc : Scope} {refs : List Nat} {depth : Nat} {acc : Access}

/-- An access has a piece for each of its references. -/
theorem access_eq_ok (h : sc.access refs depth = .ok acc) :
    acc.WellFormed ∧ acc.nParam = sc.schedule.nProgramParam ∧ acc.nIn = depth ∧
      ∀ id ∈ refs, ∃ l st relation, sc.reference? id = some l ∧
      sc.schedule.statements[l.position]? = some st ∧
        l.reference.subscripts.length = acc.nOut ∧ depth ≤ st.dims.length ∧
        Access.relationOf sc.schedule.nProgramParam sc.schedule.context st l.reference depth =
          .ok relation ∧
        ⟨l.reference.id, relation⟩ ∈ acc.pieces := by
  simp only [access, Outcome.bind_eq_ok] at h
  obtain ⟨items, hitems, h⟩ := h
  obtain ⟨hparam, hin, hpieces⟩ := Access.build_eq_ok h
  refine ⟨Access.wellFormed_build h, hparam, hin, fun id hid => ?_⟩
  obtain ⟨⟨st, r⟩, hmem, hitem⟩ := Outcome.exists_of_mem_mapM hitems hid
  obtain ⟨piece, hpiece, h⟩ := hpieces.exists_of_mem_left hmem
  obtain ⟨hcount, hdepth, relation, hrelation, rfl⟩ := Access.pieceOf_eq_ok h
  simp only [item, Outcome.bind_eq_ok, Outcome.orRaise_eq_ok, Outcome.orFault_eq_ok,
    Outcome.pure_eq_ok, Prod.mk.injEq] at hitem
  obtain ⟨l, hl, st, hst, rfl, rfl⟩ := hitem
  exact ⟨l, st, relation, hl, hst, hcount, hdepth, hrelation, hpiece⟩

end Scope

namespace KernelSchedule.Visit

variable {p : Program} {o : Options} {k : KernelSchedule} {params : List Int} {refs : List Nat}
  {depth : Nat} {acc : Access}

/-- The reference of a visit is the one that its number finds. -/
theorem reference_eq (hk : k.Valid p) (v : k.Visit p params refs) {l : Located}
    (hl : (Scope.ofSchedule p o k).reference? v.reference.id = some l) :
    l.reference = v.reference := by
  obtain ⟨hmem, hid⟩ := Scope.mem_refs_of_reference? hl
  have hstmt : v.inst.statement ∈ p.statements := List.mem_of_getElem? v.inst.statement_eq
  exact Program.eq_of_id_eq hk.program (Scope.has_of_mem_refs hmem).mem_references
    (Program.mem_references.mpr ⟨_, hstmt, v.mem_references⟩) hid

/-- A visit happens in the same way at each place where the kernel lists its statement. -/
theorem exists_instance (hk : k.Valid p) (hparams : p.Admits params) (v : k.Visit p params refs)
    {l : Located} {st : StmtSchedule}
    (hl : (Scope.ofSchedule p o k).reference? v.reference.id = some l)
    (hst : k.statements[l.position]? = some st) :
    l.reference = v.reference ∧ ∃ a :
    k.Instance p params, a.schedule = st ∧ a.statement = v.inst.statement ∧
      a.iteration = v.inst.iteration ∧ a.RunsAt v.ids ∧ a.coords v.ids = v.coords := by
  obtain ⟨numbers, m, hm⟩ := hk.realizes
  have hhas := Scope.has_of_mem_refs (Scope.mem_refs_of_reference? hl).1
  have hstmt : v.inst.statement ∈ p.statements := List.mem_of_getElem? v.inst.statement_eq
  have hsame := v.reference_eq hk hl
  obtain ⟨st', stmt, hst', hstmt', href⟩ := hhas
  obtain rfl : st = st' := Option.some.inj (hst.symm.trans hst')
  obtain rfl : stmt = v.inst.statement := Program.eq_of_mem_references hk.program
    (List.mem_of_getElem? hstmt') hstmt href (hsame ▸ v.mem_references)
  let a : k.Instance p params :=
    ⟨st, v.inst.statement, v.inst.iteration, List.mem_of_getElem? hst, hstmt', v.inst.isInstance⟩
  obtain ⟨-, hruns, hcoords⟩ := hm.instance_eq hk.program hparams v.inst
  obtain ⟨-, hruns', hcoords'⟩ := hm.instance_eq hk.program hparams a
  -- where an instance runs is settled by its schedule vector, and the two have the same
  have hids := (hruns _).mp v.runsAt
  have htime : a.time = v.inst.time := rfl
  refine ⟨hsame, a, rfl, rfl, rfl, (hruns' _).mpr (htime ▸ hids), ?_⟩
  rw [coords, hids, hcoords, ← htime, hcoords']

/-- The access of the references contains the visit. -/
theorem exists_piece (hk : k.Valid p) (hparams : p.Admits params) (v : k.Visit p params refs)
    (h : (Scope.ofSchedule p o k).access refs depth = .ok acc) :
    acc.nParam = params.length ∧ acc.nIn = depth ∧ acc.nOut = v.element.length ∧
      depth ≤ v.coords.length ∧
      ∃ piece ∈ acc.pieces, ∃ rest,
        piece.relation.Holds (.ofList (params ++ v.coords.take depth ++ v.element ++ rest)) := by
  obtain ⟨-, hnParam, hnIn, hpieces⟩ := Scope.access_eq_ok h
  obtain ⟨l, st, relation, hl, hst, hnOut, hdepth, hrelation, hpiece⟩ := hpieces _ v.id_mem
  obtain ⟨hsame, a, rfl, hstmt, hiter, hrun, hcoords⟩ := v.exists_instance hk hparams hl hst
  obtain ⟨numbers, m, hm⟩ := hk.realizes
  obtain ⟨i, -, rfl, stmt, hstmt', hs⟩ := hm.statements.exists_of_mem_right a.mem_statements
  obtain rfl : stmt = a.statement := Option.some.inj (hstmt'.symm.trans a.statement_eq)
  have hplaces : a.schedule.Places p _ a.statement params v.ids a.iteration :=
    ⟨hs.toFrames, hparams.1, hm.length_ids hrun.inRange, a.isInstance.1⟩
  have hlength := v.touches.length_eq
  rw [← hsame, hnOut] at hlength
  have hparam : k.nProgramParam = p.nParam := hk.laidOut.nProgramParam
  refine ⟨hnParam.trans (hparam.trans hparams.1.symm), hnIn, hlength, ?_, _, hpiece,
    (a.schedule.point params v.ids a.iteration).drop p.nParam, ?_⟩
  · rw [← hcoords, Instance.coords, StmtSchedule.coords, List.length_map]
    exact hdepth
  · change Access.relationOf k.nProgramParam k.context a.schedule l.reference depth =
      .ok relation at hrelation
    rw [hparam] at hrelation
    have hwithin := Program.subscripts_within_of_validate hk.program a.statement
      (List.mem_of_getElem? a.statement_eq) l.reference
      (by rw [hsame, hstmt]; exact v.mem_references)
    have htouches : l.reference.Touches params a.iteration v.element := by
      rw [hsame, hiter]
      exact v.touches
    have hpoint := hplaces.holds_relationOf hrelation hdepth hwithin hrun.constraints htouches
    rw [Access.point, hplaces.take_point] at hpoint
    rw [← hcoords]
    exact hpoint

/-- The inputs and outputs of an access contain the coordinates and the element of a visit. -/
theorem exists_contains (hk : k.Valid p) (hparams : p.Admits params) (v : k.Visit p params refs)
    (h : (Scope.ofSchedule p o k).access refs depth = .ok acc) :
    ∃ piece ∈ acc.pieces,
      acc.Contains piece (.ofList params) (.ofList v.coords) (.ofList v.element) := by
  obtain ⟨hnParam, hnIn, hnOut, hdepth, piece, hpiece, rest, hholds⟩ := v.exists_piece hk hparams h
  refine ⟨piece, hpiece, _, hholds, fun i hi => ?_, fun j hj => ?_, fun d hd => ?_⟩
  · rw [List.append_assoc, List.append_assoc, Valuation.ofList_append_left (hnParam ▸ hi)]
  · have hlt : j < (v.coords.take depth).length := by
      rw [List.length_take]
      omega
    rw [List.append_assoc, List.append_assoc, hnParam, Valuation.ofList_append_right,
      Valuation.ofList_append_left hlt, Valuation.ofList, Valuation.ofList,
      List.getD_eq_getElem?_getD, List.getElem?_take_of_lt (hnIn ▸ hj), List.getD_eq_getElem?_getD]
  · have hhead : acc.nParam + acc.nIn = (params ++ v.coords.take depth).length := by
      rw [List.length_append, List.length_take, hnParam, hnIn]
      omega
    rw [hhead, List.append_assoc (_ ++ _), Valuation.ofList_append_right,
      Valuation.ofList_append_left (hnOut ▸ hd)]

end KernelSchedule.Visit

end KernelMap
