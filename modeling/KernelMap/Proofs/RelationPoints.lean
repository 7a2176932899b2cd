import KernelMap.Proofs.Divisions
import KernelMap.Proofs.Relation

/-!
# KernelMap.Proofs.RelationPoints

The relation of a reference has exactly the points at which the reference is accessed.

The defining constraints of a space pin its division variables down: where they hold, all
variables have the values that evaluation gives them (`Space.holds_constraints_iff`).  So the
existentials of a point of the relation are the ids, iterators and divisions of one evaluation,
and the point describes an access of the reference there (`StmtSchedule.Accesses`).

Main statement: `Access.relation_has_exactly_the_accesses`.
-/

namespace KernelMap

/-! ## the variables of a relation -/

theorem Coeffs.length_trim_le (cs : List Int) : (trim cs).length ≤ cs.length := by
  fun_induction trim cs with
  | case1 => exact le_rfl
  | case2 => exact Nat.zero_le _
  | case3 => simp
  | case4 c cs _ ih => simpa using ih

namespace Affine

variable {ε : Type} {a b c : Affine} {n : Nat}

/-- Setting a coefficient of a known variable brings in no other variables. -/
theorem length_setCoeff_le {i : Nat} (k : Int) (ha : a.coeffs.length ≤ n) (hi : i < n) :
    (a.setCoeff i k).coeffs.length ≤ n := by
  unfold setCoeff
  split
  · exact (Coeffs.length_trim_le _).trans (by simpa using ha)
  split
  · exact ha
  · simp only [List.length_append, Coeffs.length_pad, List.length_singleton]
    omega

theorem length_var_le {i : Nat} (hi : i < n) : (var i).coeffs.length ≤ n :=
  length_setCoeff_le 1 (Nat.zero_le n) hi

/-- The difference of two forms has no other variables than they have. -/
theorem length_sub_le (ha : a.coeffs.length ≤ n) (hb : b.coeffs.length ≤ n) (h : a.sub b = .ok c) :
    c.coeffs.length ≤ n := by
  simp only [sub, add, scale, Outcome.bind_eq_ok, Outcome.orOverflow_eq_ok, Option.bind_eq_bind,
    Option.bind_eq_some_iff, Option.pure_def, Option.some.injEq] at h
  obtain ⟨_, ⟨ms, hms, _, -, rfl⟩, cs, hcs, _, -, rfl⟩ := h
  have hm : ms.length = b.coeffs.length := (Coeffs.map?_eq_some.mp hms).length_eq.symm
  have hc := Coeffs.length_of_zipPad? hcs
  have hlt := Coeffs.length_trim_le ms
  refine (Coeffs.length_trim_le cs).trans ?_
  simp only [trimmed] at hc
  omega

/-- Renaming into known variables brings in no other ones. -/
theorem length_remapOnto_le {cs : List Int} {map : List Nat} {out r : Affine}
    (hout : out.coeffs.length ≤ n) (hmap : ∀ i ∈ map, i < n)
    (h : (remapOnto cs map out : Outcome ε Affine) = .ok r) : r.coeffs.length ≤ n := by
  fun_induction @remapOnto ε cs map out with
  | case1 =>
      simp only [Except.ok.injEq] at h
      exact h ▸ hout
  | case2 cs out ih => exact ih hout hmap h
  | case3 => simp at h
  | case4 cs i is out ih => exact ih hout (List.forall_mem_cons.mp hmap).2 h
  | case5 c cs i is out hc ih =>
      simp only [Outcome.bind_eq_ok, Outcome.orFault_eq_ok, setCoeff?, Option.ite_none_left_eq_some,
        Option.some.injEq] at h
      obtain ⟨sum, -, _, ⟨-, rfl⟩, h⟩ := h
      obtain ⟨hi, htail⟩ := List.forall_mem_cons.mp hmap
      exact ih _ (length_setCoeff_le sum hout hi) htail h

/-- A renamed form uses the variables of the map only. -/
theorem length_remapped_le {map : List Nat} (hmap : ∀ i ∈ map, i < n)
    (h : (a.remapped map : Outcome ε Affine) = .ok b) : b.coeffs.length ≤ n :=
  have hconst : (const a.constant).coeffs.length ≤ n := Nat.zero_le n
  length_remapOnto_le hconst hmap h

end Affine

/-- Terms that are placed use the variables of the map only. -/
theorem Constraint.termsLength_le_of_placeTerms {ε : Type} {cs : List Int}
    {map : List Nat} {n : Nat} {terms : List (Nat × Int)} (hmap : ∀ i ∈ map, i < n)
    (h : (placeTerms cs map : Outcome ε (List (Nat × Int))) = .ok terms) :
    termsLength terms ≤ n := by
  fun_induction @placeTerms ε cs map generalizing terms with
  | case1 =>
      simp only [Except.ok.injEq] at h
      exact h ▸ Nat.zero_le n
  | case2 cs ih => exact ih hmap h
  | case3 => simp at h
  | case4 c cs i is ih =>
      simp only [Outcome.bind_eq_ok, Outcome.pure_eq_ok] at h
      obtain ⟨rest, hrest, rfl⟩ := h
      obtain ⟨hi, htail⟩ := List.forall_mem_cons.mp hmap
      have := ih htail hrest
      split
      · exact this
      · exact max_le hi this

namespace Polyhedron

variable {ε : Type} {s t : Polyhedron}

/-- A constraint on the variables of a system adds no variable to it. -/
theorem nVars_add_of_le {c : Constraint} (hc : c.coeffs.length ≤ s.nVars)
    (h : (s.add c : Outcome ε Polyhedron) = .ok t) : t.nVars = s.nVars := by
  rw [(add_eq_ok h).1, max_eq_left hc]

/-- Constraints lowered to the variables of a system add no variable to it. -/
theorem nVars_addAllLowered {map : List Nat} {cs : List Constraint} (hmap : ∀ i ∈ map, i < s.nVars)
    (h : (s.addAllLowered map cs : Outcome ε Polyhedron) = .ok t) : t.nVars = s.nVars := by
  induction cs generalizing s with
  | nil =>
      simp only [addAllLowered, Except.ok.injEq] at h
      rw [h]
  | cons c cs ih =>
      simp only [addAllLowered, addLowered, Constraint.lower, Outcome.bind_eq_ok] at h
      obtain ⟨u, ⟨d, ⟨terms, hterms, hd⟩, hu⟩, h⟩ := h
      have hle : d.coeffs.length ≤ s.nVars := by
        rw [(Constraint.ofTerms_eq_ok hd).2.1]
        exact Constraint.termsLength_le_of_placeTerms hmap hterms
      have hsame := nVars_add_of_le hle hu
      rw [ih (hsame.symm ▸ hmap) h, hsame]

end Polyhedron

namespace Access

variable {sched : StmtSchedule} {map : List Nat} {s t : Polyhedron}

/-- Equations between forms and variables of a system add no variable to it. -/
theorem nVars_equateFrom {v : Nat} {as : List Affine} (hmap : ∀ i ∈ map, i < s.nVars)
    (hv : v + as.length ≤ s.nVars) (h : equateFrom map v as s = .ok t) : t.nVars = s.nVars := by
  induction as generalizing v s with
  | nil =>
      simp only [equateFrom, Except.ok.injEq] at h
      rw [h]
  | cons a as ih =>
      simp only [equateFrom, Outcome.bind_eq_ok] at h
      obtain ⟨b, hb, e, he, u, hu, h⟩ := h
      rw [List.length_cons] at hv
      have hsame : u.nVars = s.nVars := Polyhedron.nVars_add_of_le
        (Affine.length_sub_le (Affine.length_remapped_le hmap hb)
          (Affine.length_var_le (by omega)) he) hu
      rw [ih (hsame.symm ▸ hmap) (by omega) h, hsame]

/-- A subscript for an output of a system adds no variable to it. -/
theorem nVars_constrainOutput {v : Nat} {i : Subscript} (hmap : ∀ i ∈ map, i < s.nVars)
    (hv : v < s.nVars) (h : constrainOutput sched map v s i = .ok t) : t.nVars = s.nVars := by
  have hvar := Affine.length_var_le hv
  cases i with
  | single a =>
      simp only [constrainOutput, Outcome.bind_eq_ok] at h
      obtain ⟨_, -, b, hb, e, he, h⟩ := h
      exact Polyhedron.nVars_add_of_le
        (Affine.length_sub_le (Affine.length_remapped_le hmap hb) hvar he) h
  | range lower upper =>
      simp only [constrainOutput, Outcome.bind_eq_ok] at h
      obtain ⟨_, -, lo, hlo, _, -, hi, hhi, e, he, u, hu, e', he', h⟩ := h
      have hsame : u.nVars = s.nVars := Polyhedron.nVars_add_of_le
        (Affine.length_sub_le hvar (Affine.length_remapped_le hmap hlo) he) hu
      rw [Polyhedron.nVars_add_of_le (hsame.symm ▸
        Affine.length_sub_le (Affine.length_remapped_le hmap hhi) hvar he') h, hsame]

/-- Subscripts for the outputs of a system add no variable to it. -/
theorem nVars_constrainOutputs {v : Nat} {is : List Subscript} (hmap : ∀ i ∈ map, i < s.nVars)
    (hv : v + is.length ≤ s.nVars) (h : constrainOutputs sched map v is s = .ok t) :
    t.nVars = s.nVars := by
  induction is generalizing v s with
  | nil =>
      simp only [constrainOutputs, Except.ok.injEq] at h
      rw [h]
  | cons i is ih =>
      simp only [constrainOutputs, Outcome.bind_eq_ok] at h
      obtain ⟨u, hu, h⟩ := h
      rw [List.length_cons] at hv
      have hsame := nVars_constrainOutput hmap (by omega) hu
      rw [ih (hsame.symm ▸ hmap) (by omega) h, hsame]

/-- The existentials are the variables of the statement's space that are not shared. -/
theorem nVars_relationOf {nParam depth : Nat} {context : List Constraint} {r : Reference}
    (h : relationOf nParam context sched r depth = .ok t) :
    t.nVars = nParam + depth + r.subscripts.length + (sched.space.dim - nParam) := by
  simp only [relationOf, Outcome.bind_eq_ok] at h
  obtain ⟨cs, -, s₁, h₁, s₂, h₂, h₃⟩ := h
  have hmap : ∀ i ∈ placement nParam (nParam + depth + r.subscripts.length) sched.space.dim,
      i < nParam + depth + r.subscripts.length + (sched.space.dim - nParam) := by
    intro i hi
    obtain ⟨k, hk, rfl⟩ := List.mem_map.mp hi
    have := List.mem_range.mp hk
    split <;> omega
  have hn₁ : s₁.nVars = nParam + depth + r.subscripts.length + (sched.space.dim - nParam) :=
    Polyhedron.nVars_addAllLowered hmap h₁
  have hdims : (sched.dims.take depth).length ≤ depth := List.length_take_le ..
  have hn₂ := (nVars_equateFrom (hn₁.symm ▸ hmap) (by omega) h₂).trans hn₁
  exact (nVars_constrainOutputs (hn₂.symm ▸ hmap) (by omega) h₃).trans hn₂

end Access

/-! ## accesses of a reference -/

namespace StmtSchedule

/-- Does a subscript select `index`, if the variables of the schedule have the values `w`? -/
def Selects (s : StmtSchedule) (w : Valuation) : Subscript → Int → Prop
  | .single a, index => ∃ b, s.lift a = .ok b ∧ index = b.value w
  | .range lower upper, index => ∃ l u, s.lift lower = .ok l ∧ s.lift upper = .ok u ∧
      l.value w ≤ index ∧ index ≤ u.value w

/-- With these values of its variables, the statement runs under the context at the schedule point
`inputs` and the reference touches `element`. -/
structure Accesses (s : StmtSchedule) (context : List Constraint) (r : Reference)
    (values inputs element : List Int) : Prop where
  constraints : ∀ c ∈ s.constraints ++ context, c.Holds (.ofList values)
  inputs : inputs = (s.dims.take inputs.length).map (·.value (.ofList values))
  element : List.Forall₂ (s.Selects (.ofList values)) r.subscripts element

end StmtSchedule

namespace Access

variable {sched : StmtSchedule} {map : List Nat} {s t : Polyhedron}

/-- The subscripts of a relation select the same indices in the schedule's variables as in the
program's, and read only variables that have a place in the relation. -/
theorem selects_iff_of_constrainOutputs {v : Nat} {is : List Subscript}
    (h : constrainOutputs sched map v is s = .ok t) {w w' : Valuation}
    (hw : ∀ i, i < map.length → w i = w' i) :
    ∀ i ∈ is, ∀ index, i.Selects (sched.restrict w) index ↔ sched.Selects w' i index := by
  induction is generalizing v s with
  | nil => simp
  | cons i is ih =>
      simp only [constrainOutputs, Outcome.bind_eq_ok] at h
      obtain ⟨u, hu, h⟩ := h
      refine List.forall_mem_cons.mpr ⟨fun index => ?_, ih h⟩
      cases i with
      | single a =>
          simp only [constrainOutput, Outcome.bind_eq_ok] at hu
          obtain ⟨b, hb, e, he, -⟩ := hu
          have hvalue := (Affine.within_of_remapped he).value_congr hw
          rw [StmtSchedule.value_lift hb] at hvalue
          simp [Subscript.Selects, StmtSchedule.Selects, hb, hvalue, eq_comm]
      | range lower upper =>
          simp only [constrainOutput, Outcome.bind_eq_ok] at hu
          obtain ⟨l, hl, lo, hlo, k, hk, hi, hhi, -⟩ := hu
          have hlower := (Affine.within_of_remapped hlo).value_congr hw
          have hupper := (Affine.within_of_remapped hhi).value_congr hw
          rw [StmtSchedule.value_lift hl] at hlower
          rw [StmtSchedule.value_lift hk] at hupper
          simp [Subscript.Selects, StmtSchedule.Selects, hl, hk, hlower, hupper]

/-- The points of the relation, by the values of the statement's variables. -/
theorem holds_relationOf_point {nParam depth : Nat} {context : List Constraint} {r : Reference}
    (h : relationOf nParam context sched r depth = .ok t) (hdepth : depth ≤ sched.dims.length)
    {values inputs element : List Int} (hvalues : values.length = sched.space.dim)
    (hparam : nParam ≤ values.length) (hinputs : inputs.length = depth)
    (helement : element.length = r.subscripts.length) :
    ∃ defining, sched.space.constraints = .ok defining ∧
      (t.Holds (.ofList (point nParam depth values inputs element)) ↔
        (∀ c ∈ defining, c.Holds (.ofList values)) ∧
        sched.Accesses context r values inputs element) := by
  obtain ⟨defining, hdefining, hwithin, hdims, hholds⟩ := holds_relationOf h
  simp only [relationOf, Outcome.bind_eq_ok] at h
  obtain ⟨_, -, s₁, -, s₂, -, hout⟩ := h
  have hsource : ∀ i, i < sched.space.dim →
      source nParam depth sched r (.ofList (point nParam depth values inputs element)) i =
        Valuation.ofList values i :=
    fun i => source_point hvalues hparam hinputs.ge helement
  have hconstraints : (∀ c ∈ sched.constraints ++ defining ++ context,
      c.Holds (source nParam depth sched r (.ofList (point nParam depth values inputs element)))) ↔
        ∀ c ∈ sched.constraints ++ defining ++ context, c.Holds (.ofList values) :=
    forall₂_congr fun c hc => by
      rw [Constraint.Holds, (hwithin c hc).value_congr hsource, Constraint.Holds]
  have hforms : (sched.dims.take depth).map
      (·.value (source nParam depth sched r (.ofList (point nParam depth values inputs element)))) =
        (sched.dims.take depth).map (·.value (.ofList values)) :=
    List.map_congr_left fun a ha => (hdims a ha).value_congr hsource
  have hin : (List.range' nParam (sched.dims.take depth).length).map
      (Valuation.ofList (point nParam depth values inputs element)) = inputs := by
    rw [List.length_take, min_eq_left hdepth, map_inputs_point hparam hinputs.ge, ← hinputs,
      List.take_length]
  have hindices : (List.range' (nParam + depth) r.subscripts.length).map
      (Valuation.ofList (point nParam depth values inputs element)) = element := by
    rw [← helement, map_element_point hparam hinputs.ge]
  have hselects : List.Forall₂ (fun i index => i.Selects
      (sched.restrict
        (source nParam depth sched r (.ofList (point nParam depth values inputs element)))) index)
        r.subscripts element ↔
          List.Forall₂ (sched.Selects (.ofList values)) r.subscripts element := by
    have hsame : ∀ i ∈ r.subscripts, ∀ index, i.Selects (sched.restrict
        (source nParam depth sched r (.ofList (point nParam depth values inputs element)))) index ↔
          sched.Selects (.ofList values) i index :=
      selects_iff_of_constrainOutputs hout fun i hi => hsource i (by simpa [placement] using hi)
    constructor <;> intro hforall
    · exact ((List.forall₂_and_left _ _).mpr ⟨hsame, hforall⟩).imp fun i index hi =>
        (hi.1 index).mp hi.2
    · exact ((List.forall₂_and_left _ _).mpr ⟨hsame, hforall⟩).imp fun i index hi =>
        (hi.1 index).mpr hi.2
  refine ⟨defining, hdefining, ?_⟩
  rw [hholds, hconstraints, hforms, hin, hindices, hselects]
  simp only [List.forall_mem_append]
  constructor
  · rintro ⟨⟨⟨hcs, hdefine⟩, hcontext⟩, hcoords, helements⟩
    exact ⟨hdefine, List.forall_mem_append.mpr ⟨hcs, hcontext⟩, hinputs ▸ hcoords, helements⟩
  · rintro ⟨hdefine, haccess⟩
    obtain ⟨hcs, hcontext⟩ := List.forall_mem_append.mp haccess.constraints
    exact ⟨⟨⟨hcs, hdefine⟩, hcontext⟩, hinputs ▸ haccess.inputs, haccess.element⟩

/-- The access of a single reference has its relation for the only piece. -/
theorem build_single_eq_ok {nParam depth : Nat} {context : List Constraint} {r : Reference}
    {a : Access} (h : build nParam context [(sched, r)] depth = .ok a) :
    ∃ relation, relationOf nParam context sched r depth = .ok relation ∧
      nParam ≤ sched.space.nParam ∧
      depth ≤ sched.dims.length ∧ a = ⟨nParam, depth, r.subscripts.length, [⟨r.id, relation⟩]⟩ := by
  simp only [build, List.head?_cons, Option.elim_some, Outcome.bind_eq_ok, Outcome.pure_eq_ok,
    Outcome.mapM_eq_ok, List.forall₂_cons_left_iff, List.forall₂_nil_left_iff, pieceOf, ne_eq,
    not_true_eq_false, if_false] at h
  obtain ⟨_, ⟨piece, _, hpiece, rfl, rfl⟩, rfl⟩ := h
  split at hpiece
  · simp at hpiece
  · next hshape =>
    simp only [Outcome.bind_eq_ok, Outcome.pure_eq_ok] at hpiece
    obtain ⟨relation, hrelation, rfl⟩ := hpiece
    exact ⟨relation, hrelation, by omega, by omega, rfl⟩

/-- The relation of a reference contains a point, for some values of its existentials, if and only
if there are values of the ids and iterators at which the statement runs under the context, at the
schedule point of the inputs, and the reference touches the element of the outputs. -/
theorem relation_has_exactly_the_accesses {nParam depth : Nat} {context : List Constraint}
    {r : Reference} {a : Access} (hspace : sched.space.WellFormed)
    (h : build nParam context [(sched, r)] depth = .ok a) :
    ∃ relation, a = ⟨nParam, depth, r.subscripts.length, [⟨r.id, relation⟩]⟩ ∧
      relation.nVars = nParam + depth + r.subscripts.length + (sched.space.dim - nParam) ∧
      ∀ params inputs element : List Int, params.length = nParam → inputs.length = depth →
        element.length = r.subscripts.length →
        ((∃ existentials, existentials.length = sched.space.dim - nParam ∧
            relation.Holds (.ofList (params ++ inputs ++ element ++ existentials))) ↔
          ∃ ids iteration, ids.length = sched.space.nParam - nParam ∧
          iteration.length = sched.space.nIter ∧
            sched.Accesses context r (sched.space.point (params ++ ids ++ iteration)) inputs
            element) := by
  obtain ⟨relation, hrelation, hparam, hdepth, rfl⟩ := build_single_eq_ok h
  refine ⟨relation, rfl, nVars_relationOf hrelation,
    fun params inputs element hparams hinputs helement => ?_⟩
  have hoffset : nParam ≤ sched.space.divOffset := hparam.trans (Nat.le_add_right ..)
  have hdim : sched.space.divOffset ≤ sched.space.dim := Nat.le_add_right ..
  constructor
  · rintro ⟨existentials, hlen, hholds⟩
    have hvalues : (params ++ existentials).length = sched.space.dim := by
      rw [List.length_append, hparams, hlen]
      omega
    obtain ⟨defining, hdefining, hpoint⟩ := holds_relationOf_point hrelation hdepth hvalues
      (by omega) hinputs helement
    rw [point, ← hparams, List.take_left, List.drop_left, ← hinputs, List.take_length] at hpoint
    obtain ⟨hdefine, haccess⟩ := hpoint.mp hholds
    have hbase := (Space.holds_constraints_iff hspace hdefining hvalues).mp hdefine
    have hsplit : sched.space.divOffset = params.length +
        (sched.space.nParam - nParam + sched.space.nIter) := by
      rw [Space.divOffset]
      omega
    rw [hsplit, List.take_length_add_append, List.take_add, ← List.append_assoc] at hbase
    refine ⟨existentials.take (sched.space.nParam - nParam),
      (existentials.drop (sched.space.nParam - nParam)).take sched.space.nIter, ?_, ?_,
      hbase ▸ haccess⟩
    · rw [List.length_take]
      omega
    · rw [List.length_take, List.length_drop]
      omega
  · rintro ⟨ids, iteration, hids, hiteration, haccess⟩
    have hbase : (params ++ ids ++ iteration).length = sched.space.divOffset := by
      rw [List.length_append, List.length_append, hparams, hids, hiteration, Space.divOffset]
      omega
    have hvalues := Space.length_point hbase
    have htake : (sched.space.point (params ++ ids ++ iteration)).take nParam = params := by
      obtain ⟨qs, hqs⟩ := Space.exists_pointOnto sched.space.divs (params ++ ids ++ iteration)
      rw [Space.point, hqs, List.append_assoc, List.append_assoc, ← hparams, List.take_left]
    obtain ⟨defining, hdefining, hpoint⟩ := holds_relationOf_point hrelation hdepth hvalues
      (by omega) hinputs helement
    have hdefine := (Space.holds_constraints hspace hdefining).2 _
      (Space.defines_point hspace hbase)
    refine ⟨(sched.space.point (params ++ ids ++ iteration)).drop nParam,
      by rw [List.length_drop, hvalues], ?_⟩
    have hholds := hpoint.mpr ⟨hdefine, haccess⟩
    rwa [point, htake, ← hinputs, List.take_length] at hholds

/-- Iterations `0 ≤ i < n` in tiles of four, dealt out to the blocks `b = ⌊i/4⌋`: the coordinates
are `[b, i - 4·⌊i/4⌋]`. -/
def dealtTiles : StmtSchedule where
  stmt := 0
  nProgramParam := 1
  space := ⟨2, 1, [⟨.var 2, 4⟩]⟩
  constraints := [.ge (.var 2), .ge ⟨[1, 0, -1], -1⟩, .eq ⟨[0, 1, 0, -1], 0⟩]
  dims := [.var 1, ⟨[0, 0, 1, -4], 0⟩]

/-- The elements `[i, j]` with `i ≤ j < n`. -/
def rowEnds : Reference where
  id := 0
  array := "A"
  use := .read
  definite := true
  subscripts := [.single (.var 1), .range (.var 1) ⟨[1], -1⟩]

/-- Block `1` reads `[6, 7]` at point `2` of its tile, and never `[5, 7]`. -/
theorem dealtTiles_reads_own_rows :
    dealtTiles.space.WellFormed ∧ ∃ relation,
      build 1 [.ge ⟨[1], -1⟩] [(dealtTiles, rowEnds)] 2 = .ok ⟨1, 2, 2, [⟨0, relation⟩]⟩ ∧
      (∃ existentials, existentials.length = 3 ∧
        relation.Holds (.ofList ([8] ++ [1, 2] ++ [6, 7] ++ existentials))) ∧
      ¬ ∃ existentials, existentials.length = 3 ∧
        relation.Holds (.ofList ([8] ++ [1, 2] ++ [5, 7] ++ existentials)) := by
  have hspace : dealtTiles.space.WellFormed := by
    rintro (_ | j) d hd
    · obtain rfl : (⟨.var 2, 4⟩ : Division) = d := by simpa [dealtTiles] using hd
      exact ⟨by decide, Affine.within_var (by decide)⟩
    · simp [dealtTiles] at hd
  obtain ⟨a, ha⟩ : ∃ a, build 1 [.ge ⟨[1], -1⟩] [(dealtTiles, rowEnds)] 2 = .ok a := ⟨_, rfl⟩
  obtain ⟨relation, rfl, -, hpoints⟩ := relation_has_exactly_the_accesses hspace ha
  refine ⟨hspace, relation, ha, (hpoints [8] [1, 2] [6, 7] rfl rfl rfl).mpr
    ⟨[1], [6], rfl, rfl, ?_⟩, fun hread => ?_⟩
  · exact ⟨by decide, by decide, .cons ⟨_, rfl, by decide⟩
      (.cons ⟨_, _, rfl, rfl, by decide, by decide⟩ .nil)⟩
  · obtain ⟨ids, iteration, hids, hiteration, haccess⟩ :=
      (hpoints [8] [1, 2] [5, 7] rfl rfl rfl).mp hread
    obtain ⟨b, rfl⟩ := List.length_eq_one_iff.mp hids
    obtain ⟨i, rfl⟩ := List.length_eq_one_iff.mp hiteration
    have hrow : 5 = i := by
      obtain ⟨row, hrow, hselects⟩ := (List.forall₂_cons.mp haccess.element).1
      rwa [StmtSchedule.value_lift hrow, Affine.value_var] at hselects
    have hcoords := haccess.inputs
    simp [dealtTiles, ← hrow, Space.point, Space.pointOnto, Affine.value_var,
      Affine.value_mk, Coeffs.dot, Valuation.ofList, Int.fdiv] at hcoords

end Access

end KernelMap
