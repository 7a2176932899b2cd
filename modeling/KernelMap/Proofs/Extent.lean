import KernelMap.Compile
import KernelMap.Proofs.Visits

/-!
# KernelMap.Proofs.Extent

Extents bound every access.

A side of an extent is a form in the parameters that bounds the index in every relation of the
access (`Extent.bounds_of_sideOf`), although it is taken from a single constraint of a single
relation.  So an inferred extent contains the outputs of every point of the access
(`Extent.encloses_of_infer`).  The relations of the references contain every access of an
instance, and both the arrays of a program and the arrays of a kernel get their extents from them.

Main statement: `Kernel.extents_bound_accesses`.
-/

namespace KernelMap

namespace Extent

/-! ## what an extent promises -/

/-- The index lies between the bounds that are known. -/
def Contains (e : Extent) (w : Valuation) (index : Int) : Prop :=
  (∀ l, e.lower = some l → l.value w ≤ index) ∧ ∀ u, e.upper = some u → index ≤ u.value w

/-- The bounds are forms in the first `n` variables. -/
def Within (n : Nat) (e : Extent) : Prop :=
  (∀ l, e.lower = some l → l.Within n) ∧ ∀ u, e.upper = some u → u.Within n

/-- The element has an index for each extent, and lies within it. -/
def Encloses (es : List Extent) (w : Valuation) (element : List Int) : Prop :=
  List.Forall₂ (fun e index => e.Contains w index) es element

/-- Whether an index is within an extent depends on the variables of the bounds only. -/
theorem Contains.congr {e : Extent} {n : Nat} {w w' : Valuation} {index : Int}
    (h : e.Contains w index) (he : e.Within n) (hw : ∀ i, i < n → w i = w' i) :
    e.Contains w' index := by
  refine ⟨fun l hl => ?_, fun u hu => ?_⟩
  · rw [← (he.1 l hl).value_congr hw]
    exact h.1 l hl
  · rw [← (he.2 u hu).value_congr hw]
    exact h.2 u hu

/-! ## sides -/

/-- A form that is found valid bounds the output from its side, on every piece. -/
theorem nonneg_of_isValid {x : Nat} {side : Side} {relations : List Polyhedron} {rest : Affine}
    (hwf : ∀ s ∈ relations, s.WellFormed) (h : isValid x side relations rest = .ok true) :
    ∀ s ∈ relations, ∀ w, s.Holds w → 0 ≤ side.sign * w x + rest.value w := by
  simp only [isValid, Outcome.bind_eq_ok] at h
  obtain ⟨e, he, violated, hviolated, h⟩ := h
  intro s hs w hw
  have hneg := Polyhedron.neg_of_allM_isEmpty hwf h s hs w hw
  rw [Affine.value_addConst hviolated, Affine.value_sub he, Affine.value_term] at hneg
  linarith

theorem sign_mul_sign (side : Side) : side.sign * side.sign = 1 := by cases side <;> rfl

/-- A side is a form in the variables before `x`, and the index lies on the right side of it in
every relation. -/
theorem bounds_of_sideOf {x : Nat} {side : Side} {relations : List Polyhedron}
    {cs : List Constraint} {f : Affine} (hwf : ∀ s ∈ relations, s.WellFormed)
    (hcs : ∀ c ∈ cs, ∀ v, x < v → c.coeff v = 0) (h : sideOf x side relations cs = .ok (some f)) :
    f.Within x ∧ ∀ s ∈ relations, ∀ w, s.Holds w → 0 ≤ side.sign * (w x - f.value w) := by
  induction cs with
  | nil => simp [sideOf] at h
  | cons c cs ih =>
      obtain ⟨hc, hcs⟩ := List.forall_mem_cons.mp hcs
      rw [sideOf] at h
      cases hsign : orientation? x side c with
      | none =>
          rw [hsign] at h
          exact ih hcs h
      | some sign =>
          simp only [hsign, Outcome.bind_eq_ok] at h
          obtain ⟨e, he, valid, hvalid, h⟩ := h
          cases valid with
          | false => exact ih hcs h
          | true =>
              simp only [if_true, Outcome.bind_eq_ok, Outcome.pure_eq_ok, Option.some.injEq] at h
              obtain ⟨g, hg, rfl⟩ := h
              have hrest : ∀ i, x ≤ i → (e.setCoeff x 0).coeff i = 0 := by
                intro i hi
                rw [Affine.coeff_setCoeff]
                by_cases hix : i = x
                · rw [if_pos hix]
                · rw [if_neg hix, (Affine.scale_eq_ok he).1,
                    show c.expr.coeff i = 0 from hc i (by omega), mul_zero]
              have hzero : ∀ i, x ≤ i → g.coeff i = 0 := fun i hi => by
                rw [(Affine.scale_eq_ok hg).1, hrest i hi, mul_zero]
              refine ⟨fun i hi => by rw [Affine.coeff_truncated,
                if_neg (by omega)], fun s hs w hw => ?_⟩
              have hnonneg := nonneg_of_isValid hwf hvalid s hs w hw
              rw [Affine.value_truncated hzero, Affine.value_scale hg]
              calc 0 ≤ side.sign * w x + (e.setCoeff x 0).value w := hnonneg
                _ = side.sign * w x + side.sign * side.sign * (e.setCoeff x 0).value w := by
                  rw [sign_mul_sign, one_mul]
                _ = side.sign * (w x - -side.sign * (e.setCoeff x 0).value w) := by ring

/-! ## inferred extents -/

/-- The projected relations have no variables past `x`, and no point is lost with the relations
that are left out. -/
theorem projectAll_eq_ok {x : Nat} {relations projected : List Polyhedron}
    (hwf : ∀ s ∈ relations, s.WellFormed) (h : projectAll x relations = .ok projected) :
    (∀ t ∈ projected, t.WellFormed ∧ ∀ v, x < v → t.involves v = false) ∧
      ∀ s ∈ relations, ∀ w, s.Holds w → ∃ t ∈ projected, t.Holds w := by
  induction relations generalizing projected with
  | nil =>
      simp only [projectAll, Except.ok.injEq] at h
      simp [← h]
  | cons s ss ih =>
      obtain ⟨hs, hss⟩ := List.forall_mem_cons.mp hwf
      simp only [projectAll, Outcome.bind_eq_ok] at h
      obtain ⟨t, ht, empty, hempty, h⟩ := h
      have hproj := Polyhedron.projects_project hs ht
      have hwft := hproj.wellFormed hs
      cases empty with
      | true =>
          -- an empty relation has no points that could be lost
          obtain ⟨hshape, hpoints⟩ := ih hss h
          refine ⟨hshape, List.forall_mem_cons.mpr ⟨fun w hw => ?_, hpoints⟩⟩
          exact absurd (hproj.sound w hw) (Polyhedron.not_holds_of_isEmpty hwft hempty w)
      | false =>
          simp only [Bool.false_eq_true, if_false, Outcome.bind_eq_ok, Outcome.pure_eq_ok] at h
          obtain ⟨ts, hts, rfl⟩ := h
          obtain ⟨hshape, hpoints⟩ := ih hss hts
          have hclear : ∀ v, x < v → t.involves v = false := by
            intro v hv
            by_cases hlt : v < s.nVars
            · exact hproj.clears v (List.mem_range'_1.mpr ⟨hv, by omega⟩)
            · exact hwft.involves_eq_false (by rw [hproj.nVars]; omega)
          refine ⟨List.forall_mem_cons.mpr ⟨⟨hwft, hclear⟩, hshape⟩,
            List.forall_mem_cons.mpr ⟨fun w hw => ?_, ?_⟩⟩
          · exact ⟨t, List.mem_cons_self, hproj.sound w hw⟩
          · intro r hr w hw
            obtain ⟨u, hu, huw⟩ := hpoints r hr w hw
            exact ⟨u, List.mem_cons_of_mem t hu, huw⟩

/-- The extent of an output has bounds in parameters and inputs, and contains the output on every
piece. -/
theorem contains_of_ofOutput {a : Access} {d : Nat} {e : Extent} (ha : a.WellFormed)
    (hd : d < a.nOut) (h : ofOutput a d = .ok e) :
    e.Within (a.nParam + a.nIn) ∧
      ∀ p ∈ a.pieces, ∀ w, p.relation.Holds w → e.Contains w (w (a.nParam + a.nIn + d)) := by
  simp only [ofOutput, Outcome.bind_eq_ok, Outcome.pure_eq_ok] at h
  obtain ⟨selected, hselected, relations, hrelations, lower, hlower, upper, hupper, rfl⟩ := h
  obtain ⟨hwf, -, -, -, hmoved⟩ := Access.selectOut_eq_ok ha hd hselected
  have hpieces : ∀ s ∈ selected.pieces.map (·.relation), s.WellFormed := by
    intro s hs
    obtain ⟨q, hq, rfl⟩ := List.mem_map.mp hs
    exact (hwf q hq).1
  obtain ⟨hshape, hpoints⟩ := projectAll_eq_ok hpieces hrelations
  have hcs : ∀ c ∈ relations.flatMap (·.constraints), ∀ v, a.nParam + a.nIn < v →
      c.coeff v = 0 := by
    intro c hc v hv
    obtain ⟨t, ht, hct⟩ := List.mem_flatMap.mp hc
    exact Polyhedron.involves_eq_false.mp ((hshape t ht).2 v hv) c hct
  have hside : ∀ {side : Side} {f : Affine},
      sideOf (a.nParam + a.nIn) side relations (relations.flatMap (·.constraints)) = .ok (some f) →
      f.Within (a.nParam + a.nIn) ∧ ∀ s ∈ relations, ∀ w, s.Holds w →
        0 ≤ side.sign * (w (a.nParam + a.nIn) - f.value w) :=
    fun hf => bounds_of_sideOf (fun t ht => (hshape t ht).1) hcs hf
  have hwithin : (⟨lower, upper⟩ : Extent).Within (a.nParam + a.nIn) :=
    ⟨fun l hl => (hside (hlower.trans (congrArg _ hl))).1,
      fun u hu => (hside (hupper.trans (congrArg _ hu))).1⟩
  refine ⟨hwithin, fun p hp w hw => ?_⟩
  -- follow the point through selection and projection, where the sides bound it
  obtain ⟨q, hq, w', hw', hsame, hindex⟩ := hmoved p hp w hw
  obtain ⟨t, ht, htw⟩ := hpoints q.relation (List.mem_map_of_mem hq) w' hw'
  rw [← hindex]
  refine Contains.congr ⟨fun l hl => ?_, fun u hu => ?_⟩ hwithin hsame
  · have hbound := (hside (hlower.trans (congrArg _ hl))).2 t ht w' htw
    rw [Side.sign] at hbound
    omega
  · have hbound := (hside (hupper.trans (congrArg _ hu))).2 t ht w' htw
    rw [Side.sign] at hbound
    omega

/-- The outputs of every point of an access lie within the inferred extents. -/
theorem encloses_of_infer {a : Access} {es : List Extent} (ha : a.WellFormed)
    (h : infer a = .ok es) : (∀ e ∈ es, e.Within (a.nParam + a.nIn)) ∧
      ∀ p ∈ a.pieces, ∀ w, p.relation.Holds w →
      Encloses es w ((List.range' (a.nParam + a.nIn) a.nOut).map w) := by
  have heach := Outcome.mapM_eq_ok.mp h
  constructor
  · intro e he
    obtain ⟨d, hd, hed⟩ := heach.exists_of_mem_right he
    exact (contains_of_ofOutput ha (List.mem_range.mp hd) hed).1
  · intro p hp w hw
    rw [List.range'_eq_map_range, List.map_map, Encloses, List.forall₂_map_right_iff]
    refine (heach.flip.mem_right).imp fun e d hed => ?_
    exact (contains_of_ofOutput ha (List.mem_range.mp hed.1) hed.2).2 p hp w hw

/-- An element at a point of an access without inputs lies within the extents. -/
theorem encloses_of_holds {a : Access} {es : List Extent} {p : Access.Piece}
    {params element rest : List Int} (ha : a.WellFormed) (h : infer a = .ok es)
    (hparam : a.nParam = params.length) (hin : a.nIn = 0) (hout : a.nOut = element.length)
    (hp : p ∈ a.pieces) (hholds : p.relation.Holds (.ofList (params ++ element ++ rest))) :
    Encloses es (.ofList params) element := by
  obtain ⟨hwithin, hpoints⟩ := encloses_of_infer ha h
  have henclosed := hpoints p hp _ hholds
  rw [hparam, hin, Nat.add_zero, hout, List.append_assoc, Valuation.map_range'_ofList] at henclosed
  rw [hparam, hin, Nat.add_zero] at hwithin
  refine ((List.forall₂_and_left _ _).mpr ⟨hwithin, henclosed⟩).imp fun e index he => ?_
  exact he.2.congr he.1 fun i hi => Valuation.ofList_append_left hi

end Extent

/-! ## arrays of a program -/

namespace Program

variable {p p' : Program} {params x element : List Int} {stmt : Statement} {r : Reference}

/-- Each array gets the extent of its own references, and nothing else changes. -/
theorem arraysWithExtents_eq_ok {arrays arrays' : List ArrayDecl}
    (h : p.arraysWithExtents arrays = .ok arrays') :
    List.Forall₂ (fun a b => ∃ extent, p.extentOf (p.untiledReferences a.name) = .ok extent ∧
      b = { a with extent })
      arrays arrays' := by
  induction arrays generalizing arrays' with
  | nil =>
      simp only [arraysWithExtents, Except.ok.injEq] at h
      exact h ▸ .nil
  | cons a as ih =>
      simp only [arraysWithExtents, Outcome.bind_eq_ok, Outcome.pure_eq_ok] at h
      obtain ⟨extent, hextent, bs, hbs, rfl⟩ := h
      exact .cons ⟨extent, hextent, rfl⟩ (ih hbs)

/-- A reference of a statement is among those to its array. -/
theorem mem_untiledReferences {i : Nat} (hstmt : p.statements[i]? = some stmt)
    (hr : r ∈ stmt.references) :
    (StmtSchedule.untiled p i stmt, r) ∈ p.untiledReferences r.array := by
  obtain ⟨hi, rfl⟩ := List.getElem?_eq_some_iff.mp hstmt
  have hpair : (i, p.statements[i]) ∈ (List.range p.statements.length).zip p.statements := by
    refine List.mem_iff_getElem.mpr ⟨i, by simpa using hi, ?_⟩
    rw [List.getElem_zip, List.getElem_range]
  have hall : (i, p.statements[i], r) ∈ p.allReferences :=
    List.mem_flatMap.mpr ⟨_, hpair, List.mem_map_of_mem hr⟩
  exact List.mem_map.mpr ⟨_, List.mem_filter.mpr ⟨hall, by simp⟩, rfl⟩

/-- Before tiling, the relation of a reference contains every access of an instance. -/
theorem holds_relationOf_untiled {i : Nat} {relation : Polyhedron} (hp : p.validate = .ok ())
    (hparams : p.Admits params) (hstmt : p.statements[i]? = some stmt)
    (hx : stmt.IsInstance params x) (hr : r ∈ stmt.references)
    (htouches : r.Touches params x element)
    (h : Access.relationOf p.nParam p.context (.untiled p i stmt) r 0 = .ok relation) :
    relation.Holds (.ofList (params ++ element ++ x)) := by
  have hmem : stmt ∈ p.statements := List.mem_of_getElem? hstmt
  have hplaces : (StmtSchedule.untiled p i stmt).Places p 0 stmt params [] x :=
    ⟨⟨rfl, rfl, rfl, Space.wellFormed_ofSizes _ _⟩, hparams.1, rfl, hx.1⟩
  have hpoint : (StmtSchedule.untiled p i stmt).point params [] x = params ++ x := by
    show params ++ [] ++ x = params ++ x
    rw [List.append_nil]
  have hcs : ∀ c ∈ (StmtSchedule.untiled p i stmt).constraints ++ p.context,
      c.Holds (.ofList ((StmtSchedule.untiled p i stmt).point params [] x)) := by
    intro c hc
    rcases List.mem_append.mp hc with hc | hc
    · rw [hpoint]
      exact hx.2 c hc
    · exact (hplaces.context_point (wellFormed_of_validate hp).1).mpr hparams.2 c hc
  have hholds := hplaces.holds_relationOf h (Nat.zero_le _)
    (subscripts_within_of_validate hp stmt hmem r hr) hcs htouches
  rw [Access.point, hpoint, List.take_zero, List.append_nil, ← hparams.1, List.take_left,
    List.drop_left] at hholds
  exact hholds

/-- The extents of a program's arrays contain every access of an instance. -/
theorem encloses_of_recomputeExtents (hp : p.validate = .ok ()) (h : p.recomputeExtents = .ok p')
    (hparams : p.Admits params) (hstmt : stmt ∈ p.statements) (hx : stmt.IsInstance params x)
    (hr : r ∈ stmt.references) (htouches : r.Touches params x element) :
    (∃ a ∈ p'.arrays, a.name = r.array) ∧
      ∀ a ∈ p'.arrays, a.name = r.array → ∃ es, a.extent = some es ∧
      Extent.Encloses es (.ofList params) element := by
  simp only [recomputeExtents, Outcome.bind_eq_ok, Outcome.ofEngine_eq_ok, Outcome.pure_eq_ok] at h
  obtain ⟨arrays, harrays, rfl⟩ := h
  have heach := arraysWithExtents_eq_ok harrays
  obtain ⟨i, hi⟩ := List.mem_iff_getElem?.mp hstmt
  constructor
  · obtain ⟨array, harray, -⟩ :=
      (references_of_validate hp).2 r (mem_references.mpr ⟨stmt, hstmt, hr⟩)
    obtain ⟨b, hb, extent, -, rfl⟩ := heach.exists_of_mem_left (List.mem_of_find?_eq_some harray)
    have hname : array.name = r.array := by simpa using List.find?_some harray
    exact ⟨_, hb, hname⟩
  · intro b hb hname
    obtain ⟨a, -, extent, hextent, rfl⟩ := heach.exists_of_mem_right hb
    have hitem := mem_untiledReferences hi hr
    rw [← show a.name = r.array from hname] at hitem
    rw [extentOf, if_neg (by simpa using List.ne_nil_of_mem hitem)] at hextent
    simp only [Outcome.bind_eq_ok, Outcome.pure_eq_ok] at hextent
    obtain ⟨acc, hacc, es, hes, rfl⟩ := hextent
    obtain ⟨hparam, hin, hpieces⟩ := Access.build_eq_ok hacc
    obtain ⟨piece, hpiece, hbuilt⟩ := hpieces.exists_of_mem_left hitem
    obtain ⟨hcount, -, relation, hrelation, rfl⟩ := Access.pieceOf_eq_ok hbuilt
    refine ⟨es, rfl, Extent.encloses_of_holds (Access.wellFormed_build hacc) hes
      (hparam.trans hparams.1.symm) hin (hcount.symm.trans htouches.length_eq) hpiece
      (holds_relationOf_untiled hp hparams hi hx hr htouches hrelation)⟩

end Program

/-! ## arrays of a kernel -/

namespace Kernel

/-- A kernel has the arrays that it refers to, each with the extents of its own references. -/
theorem localize_eq_ok {sc : Scope} {arrays : List ArrayDecl} {found : List LocalizedArray}
    (h : localize sc arrays = .ok found) :
    (∀ a ∈ arrays, sc.referencesTo a.name ≠ [] → ∃ l ∈ found, l.name = a.name) ∧
      ∀ l ∈ found, ∃ acc, sc.access (sc.referencesTo l.name) 0 = .ok acc ∧
      Extent.infer acc = .ok l.extent := by
  induction arrays generalizing found with
  | nil =>
      simp only [localize, Except.ok.injEq] at h
      simp [← h]
  | cons a as ih =>
      simp only [localize] at h
      by_cases hnone : (sc.referencesTo a.name).isEmpty = true
      · rw [if_pos hnone] at h
        obtain ⟨hlisted, hextents⟩ := ih h
        exact ⟨List.forall_mem_cons.mpr ⟨fun hne => absurd (by simpa using hnone) hne, hlisted⟩,
          hextents⟩
      · simp only [if_neg hnone, Outcome.bind_eq_ok, Outcome.pure_eq_ok] at h
        obtain ⟨acc, hacc, extent, hextent, ls, hls, rfl⟩ := h
        obtain ⟨hlisted, hextents⟩ := ih hls
        refine ⟨List.forall_mem_cons.mpr ⟨fun _ => ⟨_, List.mem_cons_self, rfl⟩,
          fun b hb hne => ?_⟩, List.forall_mem_cons.mpr ⟨⟨acc, hacc, hextent⟩, hextents⟩⟩
        obtain ⟨l, hl, hname⟩ := hlisted b hb hne
        exact ⟨l, List.mem_cons_of_mem _ hl, hname⟩

variable {p : Program} {o : Options} {k : KernelSchedule} {params element : List Int}
  {r : Reference}

/-- The extents of a kernel's arrays contain every access of an instance. -/
theorem encloses_of_localize {found : List LocalizedArray} (hk : k.Valid p)
    (hparams : p.Admits params) (h : localize (Scope.ofSchedule p o k) p.arrays = .ok found)
    (a : k.Instance p params) (hr : r ∈ a.statement.references)
    (htouches : r.Touches params a.iteration element) : (∃ l ∈ found, l.name = r.array) ∧
      ∀ l ∈ found, l.name = r.array → Extent.Encloses l.extent (.ofList params) element := by
  obtain ⟨hlisted, hextents⟩ := localize_eq_ok h
  have hstmt : a.statement ∈ p.statements := List.mem_of_getElem? a.statement_eq
  have hdeclared := (Program.references_of_validate hk.program).2 r
    (Program.mem_references.mpr ⟨_, hstmt, hr⟩)
  have hid : r.id ∈ (Scope.ofSchedule p o k).referencesTo r.array := by
    obtain ⟨l, hl, rfl⟩ :=
      Scope.exists_mem_refs (o := o) a.mem_statements a.statement_eq hr hdeclared
    exact Scope.mem_referencesTo.mpr ⟨l, hl, rfl, rfl⟩
  constructor
  · obtain ⟨array, harray, -⟩ := hdeclared
    have hname : array.name = r.array := by simpa using List.find?_some harray
    rw [← hname] at hid ⊢
    exact hlisted array (List.mem_of_find?_eq_some harray) (List.ne_nil_of_mem hid)
  · intro l hl hname
    obtain ⟨acc, hacc, hinfer⟩ := hextents l hl
    obtain ⟨numbers, m, hm⟩ := hk.realizes
    obtain ⟨-, hruns, -⟩ := hm.instance_eq hk.program hparams a
    let v : k.Visit p params ((Scope.ofSchedule p o k).referencesTo l.name) :=
      ⟨a, m.ids a.time, r, element, (hruns _).mpr rfl, hr, hname ▸ hid, htouches⟩
    obtain ⟨hparam, hin, hout, -, piece, hpiece, rest, hholds⟩ := v.exists_piece hk hparams hacc
    rw [List.take_zero, List.append_nil] at hholds
    exact Extent.encloses_of_holds (Scope.access_eq_ok hacc).1 hinfer hparam hin hout hpiece hholds

/-- Inferred extents are forms in the parameters between which all outputs of an access without
inputs lie.  So in a valid program, for parameters of the context, the extents of the arrays contain
every element that an instance touches, and so do those of the arrays of a kernel for the instances
of the kernel; every array that is touched has them. -/
theorem extents_bound_accesses :
    (∀ (a : Access) (es : List Extent), a.WellFormed → a.nIn = 0 → Extent.infer a = .ok es →
      (∀ e ∈ es, e.Within a.nParam) ∧
        ∀ piece ∈ a.pieces, ∀ w, piece.relation.Holds w →
          Extent.Encloses es w ((List.range' a.nParam a.nOut).map w)) ∧
    (∀ (p p' : Program) (params : List Int), p.validate = .ok () → p.recomputeExtents = .ok p' →
      p.Admits params →
      ∀ stmt ∈ p.statements, ∀ x, stmt.IsInstance params x → ∀ r ∈ stmt.references, ∀ element,
        r.Touches params x element →
          (∃ a ∈ p'.arrays, a.name = r.array) ∧
            ∀ a ∈ p'.arrays, a.name = r.array →
              ∃ es, a.extent = some es ∧ Extent.Encloses es (.ofList params) element) ∧
    ∀ (p : Program) (region : Region) (o : Options) (k : KernelSchedule) (id : Nat)
      (groups : List Group) (body : Body) (kernel : Kernel) (params : List Int),
        p.validate = .ok () → o.validate = .ok () → o.Representable →
      KernelSchedule.build p region o = .ok k → assemble id (Scope.ofSchedule p o k) groups body =
        .ok kernel →
      p.Admits params →
        ∀ a : k.Instance p params, ∀ r ∈ a.statement.references, ∀ element,
          r.Touches params a.iteration element →
            (∃ l ∈ kernel.arrays, l.name = r.array) ∧
              ∀ l ∈ kernel.arrays, l.name = r.array →
              Extent.Encloses l.extent (.ofList params) element := by
  refine ⟨fun a es ha hin h => ?_,
    fun p p' params hp h hparams stmt hstmt x hx r hr element htouches => ?_,
    fun p region o k id groups body kernel params hp ho hword hk h hparams a r hr element
      htouches => ?_⟩
  · have henclosed := Extent.encloses_of_infer ha h
    rw [hin, Nat.add_zero] at henclosed
    exact henclosed
  · exact Program.encloses_of_recomputeExtents hp h hparams hstmt hx hr htouches
  · simp only [assemble, Outcome.bind_eq_ok, Outcome.ofEngine_eq_ok, Outcome.pure_eq_ok] at h
    obtain ⟨tree, -, arrays, harrays, locals, -, rfl⟩ := h
    exact encloses_of_localize (KernelSchedule.valid_of_build hp ho hword hk) hparams harrays
      a hr htouches

/-! ### a shifted copy -/

/-- Each iteration `0 ≤ i < n` reads `A[i]` and writes `A[i + 1]`. -/
def shiftStatement : Statement :=
  ⟨"S", ["i"], [.ge ⟨[0, 1], 0⟩, .ge ⟨[1, -1], -1⟩], [.var 1],
    [⟨0, "A", .read, true, [.single (.var 1)]⟩, ⟨1, "A", .write, true, [.single ⟨[0, 1], 1⟩]⟩]⟩

def shiftProgram : Program :=
  ⟨["n"], [.ge ⟨[1], -1⟩], [.ofShape "A" "float" 4 1], [shiftStatement], [⟨[0], 0, 1, [false]⟩]⟩

def shiftOptions : Options :=
  { Options.default with tileSizes := [2], useSharedMemory := false, usePrivateMemory := false }

/-- From zero to `n`. -/
def shiftExtent : Extent := ⟨some (.const 0), some (.var 0)⟩

/-- The elements that are read, and those that are written. -/
def shiftAccess : Access :=
  ⟨1, 0, 1, [⟨0, ⟨2, [.ge ⟨[0, 1], 0⟩, .ge ⟨[1, -1], -1⟩], false⟩⟩,
    ⟨1, ⟨3, [.ge ⟨[0, 0, 1], 0⟩, .ge ⟨[1, 0, -1], -1⟩, .eq ⟨[0, -1, 1], 1⟩], false⟩⟩]⟩

theorem exists_shiftKernel :
    ∃ k groups body kernel,
      KernelSchedule.build shiftProgram ⟨[0], 0, 1, [false]⟩ shiftOptions = .ok k ∧
      assemble 0 (Scope.ofSchedule shiftProgram shiftOptions k) groups body = .ok kernel ∧
      kernel.arrays = [⟨"A", "float", 4, [shiftExtent], false⟩] := by
  have harrays : (ofRegion shiftProgram shiftOptions 0 ⟨[0], 0, 1, [false]⟩).toOption.map
      (·.arrays) = some [⟨"A", "float", 4, [shiftExtent], false⟩] := by decide +kernel
  obtain ⟨kernel, hkernel, harrays⟩ := Option.map_eq_some_iff.mp harrays
  have hpipeline := Outcome.toOption_eq_some.mp hkernel
  simp only [ofRegion, Outcome.bind_eq_ok] at hpipeline
  obtain ⟨k, hk, groups, -, checked, -, budget, -, body, -, moved, -, hassemble⟩ := hpipeline
  exact ⟨k, budget, moved, kernel, hk, hassemble, harrays⟩

/-- With three iterations the last element that is written is the last one of the extents. -/
theorem shift_stays_in_extents :
    (Extent.infer shiftAccess = .ok [shiftExtent] ∧
      Extent.Encloses [shiftExtent] (.ofList [3, 3, 2]) [3]) ∧
      (∃ p', shiftProgram.recomputeExtents = .ok p' ∧
        p'.arrays.map (·.extent) = [some [shiftExtent]]) ∧
      (∃ k groups body kernel,
        KernelSchedule.build shiftProgram ⟨[0], 0, 1, [false]⟩ shiftOptions = .ok k ∧
        assemble 0 (Scope.ofSchedule shiftProgram shiftOptions k) groups body = .ok kernel ∧
        kernel.arrays.map (·.extent) = [[shiftExtent]] ∧
        ∀ l ∈ kernel.arrays, Extent.Encloses l.extent (.ofList [3]) [3]) ∧
      Extent.Encloses [shiftExtent] (.ofList [3]) [3] := by
  obtain ⟨haccess, hprogram, hkernels⟩ := extents_bound_accesses
  have hinfer : Extent.infer shiftAccess = .ok [shiftExtent] := by decide +kernel
  have hp : shiftProgram.validate = .ok () := by decide +kernel
  have ho : shiftOptions.validate = .ok () ∧ shiftOptions.Representable := by decide +kernel
  have hparams : shiftProgram.Admits [3] := by decide
  have hx : shiftStatement.IsInstance [3] [2] := by decide
  have hr : (⟨1, "A", .write, true, [.single ⟨[0, 1], 1⟩]⟩ : Reference) ∈
      shiftStatement.references := by decide
  have htouches : (⟨1, "A", .write, true, [.single ⟨[0, 1], 1⟩]⟩ : Reference).Touches [3] [2] [3] :=
    .cons rfl .nil
  have hextents : shiftProgram.recomputeExtents =
      .ok { shiftProgram with arrays :=
                                [{ ArrayDecl.ofShape "A" "float" 4 1 with extent := some
                                                                            [shiftExtent] }] } := by
    decide +kernel
  refine ⟨⟨hinfer, ?_⟩, ⟨_, hextents, rfl⟩, ?_, ?_⟩
  · have hpoints := (haccess shiftAccess _ (by decide) rfl hinfer).2
    exact hpoints _ (List.mem_cons_of_mem _ (List.mem_singleton_self _))
      (.ofList [3, 3, 2]) (by decide)
  · obtain ⟨k, groups, body, kernel, hk, hkernel, harrays⟩ := exists_shiftKernel
    obtain ⟨m, hm⟩ := KernelSchedule.exists_realizes hp ho.1 ho.2 hk
    obtain ⟨a, hstmt, hiter⟩ := hm.exists_instance (List.mem_singleton_self 0) rfl hx
    rw [← hstmt] at hr
    rw [← hiter] at htouches
    refine ⟨k, groups, body, kernel, hk, hkernel, by rw [harrays]; rfl, fun l hl => ?_⟩
    have hname : l.name = "A" := by
      rw [harrays, List.mem_singleton] at hl
      rw [hl]
    exact (hkernels _ _ _ _ _ _ _ _ _ hp ho.1 ho.2 hk hkernel hparams a _ hr _ htouches).2 l hl
      hname
  · have hall :=
      (hprogram _ _ _ hp hextents hparams _ (List.mem_singleton_self _) _ hx _ hr _ htouches).2
    obtain ⟨es, hes, henclosed⟩ := hall _ (List.mem_singleton_self _) rfl
    rw [Option.some.inj hes]
    exact henclosed

end Kernel

end KernelMap
