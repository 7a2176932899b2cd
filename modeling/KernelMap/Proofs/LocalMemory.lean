import KernelMap.Body.Basic
import KernelMap.Proofs.Placement

/-!
# KernelMap.Proofs.LocalMemory

Private memory belongs to one thread.

A group gets a private tile if the analysis found, for fixed tile loops, each element in one thread
and one element at each point of a thread.  The answers were given for the union of the group's
references, so they hold for any two visits.

Main statement: `Group.private_elements_have_one_thread`.
-/

namespace KernelMap

/-! ## lists of values -/

/-- Lists that agree on a beginning give its variables the same values. -/
theorem Valuation.ofList_eq_of_take {us vs : List Int} {n : Nat} (h : us.take n = vs.take n)
    {j : Nat} (hj : j < n) : ofList us j = ofList vs j := by
  have hget := congrArg (·[j]?) h
  simp only [List.getElem?_take_of_lt hj] at hget
  rw [ofList, ofList, List.getD_eq_getElem?_getD, List.getD_eq_getElem?_getD, hget]

theorem Valuation.eq_of_ofList {us vs : List Int} (hlen : us.length = vs.length)
    (h : ∀ j, j < us.length → ofList us j = ofList vs j) : us = vs := by
  refine List.ext_getElem hlen fun j hj hj' => ?_
  have hget := h j hj
  rwa [ofList, ofList, List.getD_eq_getElem _ _ hj, List.getD_eq_getElem _ _ hj'] at hget

namespace Scope

variable {p : Program} {o : Options} {k : KernelSchedule} {params : List Int} {refs : List Nat}

/-- The test finds one thread for each element and one element for each point. -/
theorem isBijective_eq_ok {sc : Scope} (h : sc.isBijective refs = .ok true) :
    ∃ threads points, sc.access refs sc.schedule.privateLen = .ok threads ∧
      threads.isExclusive sc.schedule.sharedLen sc.schedule.sharedLen sc.schedule.privateLen =
        .ok true ∧
      sc.access refs (sc.schedule.privateLen + sc.schedule.tileLen) = .ok points ∧
      points.isSingleValued = .ok true := by
  simp only [isBijective, Outcome.bind_eq_ok] at h
  obtain ⟨threads, hthreads, exclusive, hexclusive, h⟩ := h
  cases exclusive with
  | false => simp at h
  | true =>
      simp only [if_true, Outcome.bind_eq_ok] at h
      obtain ⟨points, hpoints, hsingle⟩ := h
      exact ⟨threads, points, hthreads, hexclusive, hpoints, hsingle⟩

/-- In a valid program the numbers of the references to an array find references to it,
however often the kernel lists them. -/
theorem exists_of_mem_referencesTo_of_validate (hp : p.validate = .ok ()) {name : String} :
    ∀ id ∈ (ofSchedule p o k).referencesTo name,
      ∃ r, (ofSchedule p o k).reference? id = some r ∧ r.reference.array = name := by
  intro id hid
  obtain ⟨r, hr, harray, rfl⟩ := mem_referencesTo.mp hid
  obtain ⟨first, hfirst⟩ : ∃ l, (ofSchedule p o k).reference? r.reference.id = some l := by
    rw [← Option.isSome_iff_exists, reference?, List.find?_isSome]
    exact ⟨r, hr, by simp⟩
  obtain ⟨hmem, hid⟩ := mem_refs_of_reference? hfirst
  have hsame : first.reference = r.reference := Program.eq_of_id_eq hp
    (has_of_mem_refs hmem).mem_references (has_of_mem_refs hr).mem_references hid
  exact ⟨first, hfirst, hsame ▸ harray⟩

end Scope

/-! ## private elements -/

namespace KernelSchedule.Visit

variable {p : Program} {o : Options} {k : KernelSchedule} {params : List Int} {refs : List Nat}

/-- Visits of one element inside of the same shared loops are in one thread. -/
theorem threads_eq_of_isBijective (hk : k.Valid p) (hparams : p.Admits params)
    (h : (Scope.ofSchedule p o k).isBijective refs = .ok true) {v v' : k.Visit p params refs}
    (helement : v.element = v'.element)
    (hagree : v.coords.take k.sharedLen = v'.coords.take k.sharedLen) : v.threads = v'.threads := by
  obtain ⟨acc, _, hacc, hexclusive, -⟩ := Scope.isBijective_eq_ok h
  obtain ⟨hwf, -, hin, -⟩ := Scope.access_eq_ok hacc
  obtain ⟨-, -, -, hlen, -⟩ := v.exists_piece hk hparams hacc
  obtain ⟨-, -, -, hlen', -⟩ := v'.exists_piece hk hparams hacc
  obtain ⟨x, hx, hc⟩ := v.exists_contains hk hparams hacc
  obtain ⟨y, hy, hc'⟩ := v'.exists_contains hk hparams hacc
  rw [← helement] at hc'
  have hinputs : ∀ j, k.sharedLen ≤ j → j < k.privateLen →
      Valuation.ofList v.coords j = Valuation.ofList v'.coords j := fun j hlo hhi =>
    Access.inputs_eq_of_isExclusive hwf (hin ▸ k.sharedLen_le_privateLen) hin.ge hexclusive
      hx hy hc hc' (fun _ => Valuation.ofList_eq_of_take hagree) hlo hhi
  have hend : k.privateLen = k.sharedLen + k.nBlock := rfl
  change k.privateLen ≤ v.coords.length at hlen
  change k.privateLen ≤ v'.coords.length at hlen'
  rw [v.threads_eq hk hparams, v'.threads_eq hk hparams]
  refine Valuation.eq_of_ofList (by simp only [List.length_take, List.length_drop]; omega)
    fun j hj => ?_
  have hj : j < k.nBlock := by
    rw [List.length_take] at hj
    omega
  have hcoord := hinputs (k.sharedLen + j) (Nat.le_add_right ..) (by omega)
  simpa only [Valuation.ofList, List.getD_eq_getElem?_getD, List.getElem?_take_of_lt hj,
    List.getElem?_drop] using hcoord

/-- Visits at one point of the tile loops touch one element. -/
theorem element_eq_of_isBijective (hk : k.Valid p) (hparams : p.Admits params)
    (h : (Scope.ofSchedule p o k).isBijective refs = .ok true) {v v' : k.Visit p params refs}
    (hagree : v.coords.take (k.privateLen + k.tileLen) =
      v'.coords.take (k.privateLen + k.tileLen)) :
    v.element = v'.element := by
  obtain ⟨_, acc, -, -, hacc, hsingle⟩ := Scope.isBijective_eq_ok h
  obtain ⟨hwf, -, hin, -⟩ := Scope.access_eq_ok hacc
  obtain ⟨-, -, hout, -⟩ := v.exists_piece hk hparams hacc
  obtain ⟨-, -, hout', -⟩ := v'.exists_piece hk hparams hacc
  obtain ⟨x, hx, hc⟩ := v.exists_contains hk hparams hacc
  obtain ⟨y, hy, w, hw, hwparam, hwin, hwout⟩ := v'.exists_contains hk hparams hacc
  -- both visits are at the first coordinates of `v`
  have hc' : acc.Contains y (.ofList params) (.ofList v.coords) (.ofList v'.element) :=
    ⟨w, hw, hwparam,
      fun j hj => (hwin j hj).trans (Valuation.ofList_eq_of_take hagree.symm (hin ▸ hj)), hwout⟩
  have houtputs := Access.outputs_eq_of_isSingleValued hwf hsingle hx hy hc hc'
  exact Valuation.eq_of_ofList (hout.symm.trans hout') fun d hd => houtputs d (hout ▸ hd)

end KernelSchedule.Visit

namespace Group

variable {p : Program} {o : Options} {region : Region} {k : KernelSchedule} {sc : Scope}
  {params : List Int} {formed checked groups : List Group} {unroll : List Nat} {g : Group}

/-- An array that need not be private has groups that need not be. -/
theorem forcePrivate_eq (hp : p.validate = .ok ())
    (hall : all (Scope.ofSchedule p o k) = .ok formed)
    (hunroll : checkUnroll (Scope.ofSchedule p o k) formed = .ok (checked, unroll))
    (hg : g ∈ checked) {array : ArrayDecl} (harray : p.array? g.array = some array) :
    g.forcePrivate = array.forcePrivate := by
  obtain ⟨g₀, hg₀, hdemoted⟩ := (demoted_of_checkUnroll hunroll).exists_of_mem_right hg
  obtain ⟨name, part, hpart, hmem⟩ :=
    exists_partition_of_ofArrays (fun _ => Scope.exists_of_mem_referencesTo_of_validate hp) hall hg₀
  have hdescribes := (hpart.describes g₀ hmem).of_core hdemoted.core
  exact hdescribes.forcePrivate array (hdescribes.array ▸ harray)

/-- A group with a private tile, whose array need not be private, touches an element in one thread
only, for fixed tile loops; and at one point of a thread it touches one element. -/
theorem private_elements_have_one_thread (hp : p.validate = .ok ()) (ho : o.validate = .ok ())
    (hword : o.Representable) (hk : KernelSchedule.build p region o = .ok k)
    (hsc : sc = Scope.ofSchedule p o k) (hall : all sc = .ok formed)
    (hunroll : checkUnroll sc formed = .ok (checked, unroll)) (hg : g ∈ checked)
    (htile : g.privateTile.isSome = true) {array : ArrayDecl}
    (harray : p.array? g.array = some array) (hforce : array.forcePrivate = false)
    (hparams : p.Admits params) : (∀ v v' : k.Visit p params g.refs, v.element = v'.element →
      v.coords.take k.sharedLen = v'.coords.take k.sharedLen → v.threads = v'.threads) ∧
    ∀ v v' : k.Visit p params g.refs,
      v.coords.take (k.privateLen + k.tileLen) = v'.coords.take (k.privateLen + k.tileLen) →
        v.element = v'.element := by
  subst hsc
  have hvalid := KernelSchedule.valid_of_build hp ho hword hk
  obtain ⟨t, ht⟩ := Option.isSome_iff_exists.mp htile
  have hplaced := placed_of_all hall (demoted_of_checkUnroll hunroll) g hg
  have hbijective : (Scope.ofSchedule p o k).isBijective g.refs = .ok true := by
    refine (hplaced.privateTile t ht).1.resolve_left fun htrue => ?_
    rw [forcePrivate_eq hp hall hunroll hg harray, hforce] at htrue
    cases htrue
  exact ⟨fun v v' => KernelSchedule.Visit.threads_eq_of_isBijective hvalid hparams hbijective,
    fun v v' => KernelSchedule.Visit.element_eq_of_isBijective hvalid hparams hbijective⟩

/-! ### a sum -/

def sumStatement : Statement :=
  ⟨"S", ["j"], [], [.const 3, .var 0], [⟨0, "A", .write, true, [.single (.const 7)]⟩]⟩

/-- `for j: A[7] = …`, at coordinate `3` of the band. -/
def sumProgram : Program where
  params := []
  context := []
  arrays := [.ofShape "A" "float" 4 1]
  statements := [sumStatement]
  regions := [⟨[0], 0, 1, [true]⟩]

/-- Tiles of two coordinates, one for each of two threads. -/
def sumOptions : Options :=
  { Options.default with tileSizes := [2], gridSizes := [1], blockSizes := [2],
                         useSharedMemory := false }

/-- All iterations belong to the second thread of the second tile. -/
def sumStmtSchedule : StmtSchedule where
  stmt := 0
  nProgramParam := 0
  space := ⟨2, 1, []⟩
  constraints := [.eq (.var 0), .eq ⟨[0, 1], -1⟩]
  dims := [.var 0, .const 2, .var 1, .const 0, .var 2]

def sumSchedule : KernelSchedule where
  paramNames := ["b0", "t0"]
  nProgramParam := 0
  context := [.ge (.var 0), .ge ⟨[-1], 0⟩, .ge (.var 1), .ge ⟨[0, -1], 1⟩]
  tileFirst := 0
  tileLen := 1
  nGrid := 1
  nBlock := 1
  tileSizes := [2]
  gridSizes := [1]
  blockSizes := [2]
  gridMapping := .wrap
  threadMapping := .wrap
  levels := [.blockId, .tileLoop, .threadId, .pointLoop, .inner]
  coincident := [true]
  statements := [sumStmtSchedule]
  stage := .scaled

def sumScope : Scope := .ofSchedule sumProgram sumOptions sumSchedule

def sumGroup : Group where
  array := "A"
  nr := 0
  refs := [0]
  write := true
  definiteWrite := true
  forcePrivate := false
  sharedTile := none
  privateTile := some ⟨[⟨1, ⟨.const 7, 1⟩, none⟩], 0, 3⟩
  lastShared := some 1

/-- The write of `A[7]` in iteration `j`. -/
def sumVisit (j : Int) : sumSchedule.Visit sumProgram [] sumGroup.refs where
  inst := ⟨sumStmtSchedule, sumStatement, [j], List.mem_singleton_self _, rfl, ⟨rfl, nofun⟩⟩
  ids := [0, 1]
  reference := ⟨0, "A", .write, true, [.single (.const 7)]⟩
  element := [7]
  runsAt := by
    refine ⟨.cons (by decide) (.cons (by decide) .nil), ?_⟩
    simp [sumStmtSchedule, sumSchedule, StmtSchedule.point, Space.point, Space.pointOnto,
      Affine.value_mk, Valuation.ofList]
  mem_references := List.mem_singleton_self _
  id_mem := List.mem_singleton_self _
  touches := .cons (by simp [Subscript.Selects]) .nil

/-- Two iterations write the element in one thread. -/
theorem sum_has_one_thread :
    (KernelSchedule.build sumProgram ⟨[0], 0, 1, [true]⟩ sumOptions = .ok sumSchedule ∧
      all sumScope = .ok [sumGroup] ∧ checkUnroll sumScope [sumGroup] = .ok ([sumGroup], [])) ∧
      (sumVisit 0).coords = [0, 2, 1, 0, 0] ∧ (sumVisit 5).coords = [0, 2, 1, 0, 5] ∧
      (sumVisit 0).threads = (sumVisit 5).threads := by
  have hk : KernelSchedule.build sumProgram ⟨[0], 0, 1, [true]⟩ sumOptions = .ok sumSchedule := by
    decide +kernel
  have hall : all sumScope = .ok [sumGroup] := by decide +kernel
  have hunroll : checkUnroll sumScope [sumGroup] = .ok ([sumGroup], []) := by decide +kernel
  have hparams : sumProgram.Admits [] := by decide
  have hthreads := private_elements_have_one_thread (by decide +kernel) (by decide +kernel)
    (by decide) hk rfl hall hunroll (List.mem_singleton_self sumGroup) rfl rfl rfl hparams
  exact ⟨⟨hk, hall,
    hunroll⟩, by decide, by decide, hthreads.1 (sumVisit 0) (sumVisit 5) rfl (by decide)⟩

end Group

end KernelMap
