import KernelMap.Proofs.Pairing
import KernelMap.Proofs.References

/-!
# KernelMap.Proofs.Relation

The relation of a reference contains every access of the kernel.

The points of a relation are described exactly by `Access.holds_relationOf`: the constraints hold
where the statement's variables live, the inputs are the schedule coordinates and the outputs are
selected by the subscripts.  So wherever an instance runs, its coordinates and each element that it
touches are a point of the relation (`StmtSchedule.Places.holds_relationOf`).
-/

namespace KernelMap

/-! ## renumbered forms -/

namespace Affine

/-- A form that is renamed has no coefficients outside of the map. -/
theorem get_of_remapOnto {ε : Type} {cs : List Int} {map : List Nat} {out r : Affine}
    (h : (remapOnto cs map out : Outcome ε Affine) = .ok r) {i : Nat} (hi : map.length ≤ i) :
    Coeffs.get cs i = 0 := by
  fun_induction @remapOnto ε cs map out generalizing i with
  | case1 => rfl
  | case2 cs out ih =>
      cases i with
      | zero => rfl
      | succ i => exact ih h (Nat.zero_le i)
  | case3 => simp at h
  | case4 cs k is out ih =>
      cases i with
      | zero => simp at hi
      | succ i => exact ih h (by simpa using hi)
  | case5 c cs k is out hc ih =>
      simp only [Outcome.bind_eq_ok] at h
      obtain ⟨_, -, next, -, h⟩ := h
      cases i with
      | zero => simp at hi
      | succ i => exact ih next h (by simpa using hi)

/-- A form that can be renumbered has no variables past the map. -/
theorem within_of_remapped {ε : Type} {a r : Affine} {map : List Nat}
    (h : (a.remapped map : Outcome ε Affine) = .ok r) : a.Within map.length :=
  fun _ hi => get_of_remapOnto h hi

end Affine

/-- Terms that are all placed have no coefficients outside of the map. -/
theorem Constraint.get_of_placeTerms {ε : Type} {cs : List Int} {map : List Nat}
    {terms : List (Nat × Int)} (h : (placeTerms cs map : Outcome ε (List (Nat × Int))) = .ok terms)
    {i : Nat} (hi : map.length ≤ i) : Coeffs.get cs i = 0 := by
  fun_induction @placeTerms ε cs map generalizing terms i with
  | case1 => rfl
  | case2 cs ih =>
      cases i with
      | zero => rfl
      | succ i => exact ih h (Nat.zero_le i)
  | case3 => simp at h
  | case4 c cs k is ih =>
      simp only [Outcome.bind_eq_ok] at h
      obtain ⟨rest, hrest, -⟩ := h
      cases i with
      | zero => simp at hi
      | succ i => exact ih hrest (by simpa using hi)

/-- Constraints that can be renumbered have no variables past the map. -/
theorem Polyhedron.within_of_addAllLowered {ε : Type} {s t : Polyhedron} {map : List Nat}
    {cs : List Constraint} (h : (s.addAllLowered map cs : Outcome ε Polyhedron) = .ok t) :
    ∀ c ∈ cs, c.expr.Within map.length := by
  induction cs generalizing s with
  | nil => simp
  | cons c cs ih =>
      simp only [addAllLowered, addLowered, Constraint.lower, Outcome.bind_eq_ok] at h
      obtain ⟨_, ⟨_, ⟨terms, hterms, -⟩, -⟩, h⟩ := h
      exact List.forall_mem_cons.mpr ⟨fun i hi => Constraint.get_of_placeTerms hterms hi, ih h⟩

/-! ## the points of a relation -/

namespace Access

variable {sched : StmtSchedule} {map : List Nat} {s t : Polyhedron}

/-- The system gains one equation for each form, between it and the next variable. -/
theorem holds_equateFrom {v : Nat} {as : List Affine} (h : equateFrom map v as s = .ok t)
    (w : Valuation) :
    t.Holds w ↔ s.Holds w ∧
      (List.range' v as.length).map w = as.map (·.value fun i => w (map.getD i 0)) := by
  induction as generalizing v s with
  | nil =>
      simp only [equateFrom, Except.ok.injEq] at h
      simp [h]
  | cons a as ih =>
      simp only [equateFrom, Outcome.bind_eq_ok] at h
      obtain ⟨b, hb, e, he, u, hu, h⟩ := h
      rw [ih h, Polyhedron.holds_add hu, Constraint.holds_eq, Affine.value_sub he,
        Affine.value_remapped hb, Affine.value_var, List.length_cons, List.range'_succ,
        List.map_cons, List.map_cons, List.cons.injEq, and_assoc]
      refine and_congr_right fun _ => and_congr_left fun _ => ?_
      omega

/-- Forms that are equated with variables only use what the map covers. -/
theorem within_of_equateFrom {v : Nat} {as : List Affine} (h : equateFrom map v as s = .ok t) :
    ∀ a ∈ as, a.Within map.length := by
  induction as generalizing v s with
  | nil => simp
  | cons a as ih =>
      simp only [equateFrom, Outcome.bind_eq_ok] at h
      obtain ⟨b, hb, _, -, _, -, h⟩ := h
      exact List.forall_mem_cons.mpr ⟨Affine.within_of_remapped hb, ih h⟩

/-- The system gains that the subscript selects the value of the variable. -/
theorem holds_constrainOutput {v : Nat} {i : Subscript}
    (h : constrainOutput sched map v s i = .ok t) (w : Valuation) :
    t.Holds w ↔ s.Holds w ∧ i.Selects (sched.restrict fun i => w (map.getD i 0)) (w v) := by
  cases i with
  | single a =>
      simp only [constrainOutput, Outcome.bind_eq_ok] at h
      obtain ⟨l, hl, b, hb, e, he, h⟩ := h
      rw [Polyhedron.holds_add h, Constraint.holds_eq, Affine.value_sub he,
        Affine.value_remapped hb, StmtSchedule.value_lift hl, Affine.value_var, Subscript.Selects,
        sub_eq_zero]
  | range lower upper =>
      simp only [constrainOutput, Outcome.bind_eq_ok] at h
      obtain ⟨l, hl, lo, hlo, k, hk, hi, hhi, e, he, u, hu, e', he', h⟩ := h
      rw [Polyhedron.holds_add h, Polyhedron.holds_add hu, Constraint.holds_ge, Constraint.holds_ge,
        Affine.value_sub he, Affine.value_sub he', Affine.value_remapped hlo,
        Affine.value_remapped hhi, StmtSchedule.value_lift hl, StmtSchedule.value_lift hk,
        Affine.value_var, Subscript.Selects, sub_nonneg, sub_nonneg, and_assoc]

/-- The system gains that each subscript selects the value of its variable. -/
theorem holds_constrainOutputs {v : Nat} {is : List Subscript}
    (h : constrainOutputs sched map v is s = .ok t) (w : Valuation) :
    t.Holds w ↔ s.Holds w ∧
      List.Forall₂ (fun i index => i.Selects (sched.restrict fun i => w (map.getD i 0)) index) is
        ((List.range' v is.length).map w) := by
  induction is generalizing v s with
  | nil =>
      simp only [constrainOutputs, Except.ok.injEq] at h
      simp [h]
  | cons i is ih =>
      simp only [constrainOutputs, Outcome.bind_eq_ok] at h
      obtain ⟨u, hu, h⟩ := h
      rw [ih h, holds_constrainOutput hu, List.length_cons, List.range'_succ, List.map_cons,
        List.forall₂_cons, and_assoc]

/-- The values of the statement's variables at a point of the relation of a reference. -/
def source (nParam depth : Nat) (sched : StmtSchedule) (r : Reference) (w : Valuation) :
    Valuation :=
  fun i => w ((placement nParam (nParam + depth + r.subscripts.length) sched.space.dim).getD i 0)

/-- A point is in the relation of a reference if the statement's constraints, the definitions of its
divisions and the context hold, the inputs are the schedule coordinates and the subscripts select
the outputs. -/
theorem holds_relationOf {nParam depth : Nat} {context : List Constraint} {r : Reference}
    (h : relationOf nParam context sched r depth = .ok t) :
    ∃ defining, sched.space.constraints = .ok defining ∧
      (∀ c ∈ sched.constraints ++ defining ++ context, c.expr.Within sched.space.dim) ∧
      (∀ a ∈ sched.dims.take depth, a.Within sched.space.dim) ∧
      ∀ w, t.Holds w ↔
        (∀ c ∈ sched.constraints ++ defining ++ context, c.Holds (source nParam depth sched r w)) ∧
        (List.range' nParam (sched.dims.take depth).length).map w =
          (sched.dims.take depth).map (·.value (source nParam depth sched r w)) ∧
        List.Forall₂ (fun i index =>
          i.Selects (sched.restrict (source nParam depth sched r w)) index) r.subscripts
            ((List.range' (nParam + depth) r.subscripts.length).map w) := by
  simp only [relationOf, StmtSchedule.allConstraints, Outcome.bind_eq_ok, Outcome.pure_eq_ok] at h
  obtain ⟨_, ⟨defining, hdefining, rfl⟩, s₁, h₁, s₂, h₂, h⟩ := h
  have hconstraints := Polyhedron.within_of_addAllLowered h₁
  have hdims := within_of_equateFrom h₂
  rw [placement, List.length_map, List.length_range] at hconstraints hdims
  refine ⟨defining, hdefining, hconstraints, hdims, fun w => ?_⟩
  rw [holds_constrainOutputs h, holds_equateFrom h₂, Polyhedron.holds_addAllLowered h₁,
    and_iff_right (Polyhedron.holds_empty _ w), and_assoc]
  rfl

/-- The point of a relation with the given values of the statement's variables, schedule coordinates
and element. -/
def point (nParam depth : Nat) (values coords element : List Int) : List Int :=
  values.take nParam ++ coords.take depth ++ element ++ values.drop nParam

/-- The statement's variables are read back from a point of the relation. -/
theorem source_point {nParam depth : Nat} {r : Reference} {values coords element : List Int}
    (hvalues : values.length = sched.space.dim) (hparam : nParam ≤ values.length)
    (hdepth : depth ≤ coords.length) (helement : element.length = r.subscripts.length) {i : Nat}
    (hi : i < sched.space.dim) :
    source nParam depth sched r (.ofList (point nParam depth values coords element)) i =
      Valuation.ofList values i := by
  have hplace : (placement nParam (nParam + depth + r.subscripts.length) sched.space.dim).getD i 0 =
      if i < nParam then i else nParam + depth + r.subscripts.length + (i - nParam) := by
    rw [placement, List.getD_eq_getElem?_getD, List.getElem?_map, List.getElem?_range hi]
    rfl
  have hbegin : (values.take nParam).length = nParam := by
    rw [List.length_take]
    omega
  have hhead : (values.take nParam ++ coords.take depth ++ element).length =
      nParam + depth + r.subscripts.length := by
    rw [List.length_append, List.length_append, hbegin, List.length_take, helement]
    omega
  rw [source, hplace, point]
  split
  · next hlt =>
    rw [List.append_assoc, List.append_assoc, Valuation.ofList_append_left (by omega)]
    simp only [Valuation.ofList, List.getD_eq_getElem?_getD, List.getElem?_take_of_lt hlt]
  · next hle =>
    obtain ⟨j, rfl⟩ : ∃ j, i = nParam + j := ⟨i - nParam, by omega⟩
    rw [Nat.add_sub_cancel_left, ← hhead, Valuation.ofList_append_right]
    simp only [Valuation.ofList, List.getD_eq_getElem?_getD, List.getElem?_drop]

end Access

/-- A stretch of a list is read back from the variables at its positions. -/
theorem Valuation.map_range'_ofList (as bs cs : List Int) :
    (List.range' as.length bs.length).map (ofList (as ++ (bs ++ cs))) = bs := by
  refine List.ext_getElem (by simp) fun i hi hi' => ?_
  rw [List.getElem_map, List.getElem_range', one_mul, ofList_append_right,
    ofList_append_left hi', ofList, List.getD_eq_getElem _ _ hi']

namespace Access

variable {nParam depth : Nat} {values coords : List Int} (hparam : nParam ≤ values.length)
  (hdepth : depth ≤ coords.length) (element : List Int)

include hparam hdepth

/-- The schedule coordinates are read back from a point of the relation. -/
theorem map_inputs_point : (List.range' nParam depth).map
    (Valuation.ofList (point nParam depth values coords element)) = coords.take depth := by
  have hread := Valuation.map_range'_ofList (values.take nParam) (coords.take depth)
    (element ++ values.drop nParam)
  rw [List.length_take, List.length_take, min_eq_left hparam, min_eq_left hdepth] at hread
  rw [point, List.append_assoc, List.append_assoc, hread]

/-- The element is read back from a point of the relation. -/
theorem map_element_point : (List.range' (nParam + depth) element.length).map
    (Valuation.ofList (point nParam depth values coords element)) = element := by
  have hread := Valuation.map_range'_ofList (values.take nParam ++ coords.take depth) element
    (values.drop nParam)
  rw [List.length_append, List.length_take, List.length_take, min_eq_left hparam,
    min_eq_left hdepth] at hread
  rw [point, List.append_assoc, hread]

end Access

/-! ## accesses of a kernel -/

/-- What a subscript selects depends on its own variables only. -/
theorem Subscript.selects_congr {s : Subscript} {n : Nat} (hs : s.within n = true)
    {w w' : Valuation} (hw : ∀ i, i < n → w i = w' i) (index : Int) :
    s.Selects w index ↔ s.Selects w' index := by
  cases s with
  | single a =>
      simp only [within, decide_eq_true_eq] at hs
      rw [Selects, Selects, (Affine.within_of_width hs).value_congr hw]
  | range lo hi =>
      simp only [within, Bool.and_eq_true, decide_eq_true_eq] at hs
      rw [Selects, Selects, (Affine.within_of_width hs.1).value_congr hw,
        (Affine.within_of_width hs.2).value_congr hw]

namespace StmtSchedule.Places

variable {p : Program} {n : Nat} {stmt : Statement} {s : StmtSchedule} {params ids x : List Int}

/-- The point of a placed iteration has a value for each variable of the statement. -/
theorem length_point (h : s.Places p n stmt params ids x) :
    (s.point params ids x).length = s.space.dim := by
  rw [point, Space.point, Space.length_pointOnto, h.length_base, Space.dim, h.toFrames.divOffset]

/-- The point of a placed iteration begins with the program's parameters. -/
theorem take_point (h : s.Places p n stmt params ids x) :
    (s.point params ids x).take p.nParam = params := by
  obtain ⟨qs, hqs⟩ := Space.exists_pointOnto s.space.divs (params ++ ids ++ x)
  rw [point, Space.point, hqs, List.append_assoc, List.append_assoc, ← h.length_params,
    List.take_left]

/-- Where the constraints of a statement hold, its coordinates and each element that it touches are
a point of the relation. -/
theorem holds_relationOf (h : s.Places p n stmt params ids x) {context : List Constraint}
    {r : Reference} {depth : Nat} {relation : Polyhedron} {element : List Int}
    (hrelation : Access.relationOf p.nParam context s r depth = .ok relation)
    (hdepth : depth ≤ s.dims.length)
    (hr : ∀ i ∈ r.subscripts, i.within (p.nParam + stmt.iterators.length) = true)
    (hcs : ∀ c ∈ s.constraints ++ context, c.Holds (.ofList (s.point params ids x)))
    (htouches : r.Touches params x element) :
    relation.Holds (.ofList
      (Access.point p.nParam depth (s.point params ids x) (s.coords params ids x) element)) := by
  obtain ⟨defining, hdefining, hwithin, hdims, hholds⟩ := Access.holds_relationOf hrelation
  have hlen := h.length_point
  have hoffset := h.toFrames.divOffset
  have hdim : s.space.divOffset ≤ s.space.dim := Nat.le_add_right ..
  have hcoords : (s.coords params ids x).length = s.dims.length := List.length_map _
  have helement : element.length = r.subscripts.length := htouches.length_eq.symm
  have hsource : ∀ i, i < s.space.dim →
      Access.source p.nParam depth s r (.ofList
        (Access.point p.nParam depth (s.point params ids x) (s.coords params ids x) element)) i =
        Valuation.ofList (s.point params ids x) i :=
    fun i => Access.source_point hlen (by omega) (by omega) helement
  refine (hholds _).mpr ⟨fun c hc => ?_, ?_, ?_⟩
  · rw [Constraint.Holds, (hwithin c hc).value_congr hsource, ← Constraint.Holds]
    rcases List.mem_append.mp hc with hc | hc
    · rcases List.mem_append.mp hc with hc | hc
      · exact hcs c (List.mem_append_left _ hc)
      · exact (Space.holds_constraints h.space hdefining).2 _ h.defines_point c hc
    · exact hcs c (List.mem_append_right _ hc)
  · have hvalues : (s.dims.take depth).map (·.value (Access.source p.nParam depth s r
        (.ofList (Access.point p.nParam depth (s.point params ids x)
          (s.coords params ids x) element)))) =
          (s.coords params ids x).take depth := by
      rw [coords, ← List.map_take]
      exact List.map_congr_left fun a ha => (hdims a ha).value_congr hsource
    rw [hvalues, List.length_take, min_eq_left hdepth,
      Access.map_inputs_point (by omega) (by omega)]
  · rw [← helement, Access.map_element_point (by omega) (by omega)]
    refine ((List.forall₂_and_left _ _).mpr ⟨hr, htouches⟩).imp fun i index hi => ?_
    refine (Subscript.selects_congr hi.1 (fun j hj => ?_) index).mpr hi.2
    rw [← h.restrict_point hj, restrict, restrict, h.toFrames.nIds, h.nProgramParam]
    split <;> exact hsource _ (by omega)

end StmtSchedule.Places

end KernelMap
