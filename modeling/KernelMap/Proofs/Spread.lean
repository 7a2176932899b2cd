import KernelMap.Proofs.Launch
import KernelMap.Proofs.Mapping

/-!
# KernelMap.Proofs.Spread

The schedule of a statement follows the mapping of its kernel.

A statement schedule `Describes` a statement if its constraints are those of the
domain, read through the variables of the program (`StmtSchedule.restrict`).  Cutting
the band and dealing out tiles and points keep that, and their forms have the
values that the mapping says (`TiledStmt.Follows`, `SpreadStmt.Follows`).  Once units
are equated with ids the schedule `Realizes` the mapping: it runs an instance at
exactly one choice of ids, with exactly the coordinates of the mapping.
-/

namespace KernelMap

/-! ## lifted forms -/

namespace Affine

/-- New variables have no coefficients, and those after them move. -/
theorem coeff_insertVars (a : Affine) (start extra i : Nat) :
    (a.insertVars start extra).coeff i =
      if i < start then a.coeff i else if i < start + extra then 0 else a.coeff (i - extra) := by
  rw [coeff_eq, insertVars, Coeffs.get_trim, Coeffs.get_append, Coeffs.get_append,
    Coeffs.get_replicate_zero]
  simp only [coeff_eq, Coeffs.get, List.length_append, List.length_take, List.length_replicate,
    List.getD_eq_getElem?_getD, List.getElem?_take, List.getElem?_drop]
  grind

/-- The value of a form does not depend on new variables. -/
theorem value_insertVars (a : Affine) (start extra : Nat) (w : Valuation) :
    (a.insertVars start extra).value w = a.value fun i => if i < start then w i
      else w (i + extra) := by
  have hfirst : Coeffs.dot (a.coeffs.take start) w =
      Coeffs.dot (a.coeffs.take start) fun i => if i < start then w i else w (i + extra) := by
    refine Coeffs.dot_congr fun i hi => ?_
    rw [if_pos]
    by_contra hle
    exact hi (Coeffs.get_of_length_le (by rw [List.length_take]; omega))
  have hlast : (Coeffs.dot (a.coeffs.drop start) fun i =>
      w ((a.coeffs.take start).length + extra + i)) = Coeffs.dot (a.coeffs.drop start) fun i =>
        if (a.coeffs.take start).length + i < start then w ((a.coeffs.take start).length + i)
        else w ((a.coeffs.take start).length + i + extra) := by
    refine Coeffs.dot_congr fun i hi => ?_
    have hlen : start < a.coeffs.length := by
      by_contra hle
      rw [List.drop_eq_nil_of_le (by omega)] at hi
      exact hi rfl
    rw [List.length_take, if_neg (by omega), Nat.add_right_comm]
  have hsplit : a.value (fun i => if i < start then w i else w (i + extra)) =
      Coeffs.dot (a.coeffs.take start ++ a.coeffs.drop start)
      (fun i => if i < start then w i else w (i + extra)) +
        a.constant := by
    rw [List.take_append_drop]
    rfl
  rw [hsplit, insertVars, value_mk, Coeffs.dot_trim, Coeffs.dot_append, Coeffs.dot_append,
    Coeffs.dot_append, Coeffs.dot_replicate_zero, List.length_append, List.length_replicate, hfirst,
    hlast, add_zero]

end Affine

namespace StmtSchedule

/-- The number of ids, which are the parameters beyond those of the program. -/
def nIds (s : StmtSchedule) : Nat := s.space.nParam - s.nProgramParam

/-- The values of the program's parameters and the iterators. -/
def restrict (s : StmtSchedule) (w : Valuation) : Valuation :=
  fun i => if i < s.nProgramParam then w i else w (i + s.nIds)

/-- The values of the ids. -/
def ids (s : StmtSchedule) (w : Valuation) : List Int := (List.range' s.nProgramParam s.nIds).map w

/-- A form is lifted by inserting the ids, if there are no fewer parameters than in the program. -/
theorem lift_eq_ok {s : StmtSchedule} {a b : Affine} :
    s.lift a = .ok b ↔ s.nProgramParam ≤ s.space.nParam ∧
      b = if s.nIds = 0 then a else a.insertVars s.nProgramParam s.nIds := by
  simp only [lift, extraParams?, Outcome.bind_eq_ok, Outcome.orFault_eq_ok, Index.sub?,
    Option.ite_none_right_eq_some, Option.some.injEq, Outcome.pure_eq_ok]
  constructor
  · rintro ⟨_, ⟨hle, rfl⟩, rfl⟩
    exact ⟨hle, rfl⟩
  · rintro ⟨hle, rfl⟩
    exact ⟨_, ⟨hle, rfl⟩, rfl⟩

/-- A lifted form has the value of the form at the parameters of the program and the
iterators. -/
theorem value_lift {s : StmtSchedule} {a b : Affine} (h : s.lift a = .ok b) (w : Valuation) :
    b.value w = a.value (s.restrict w) := by
  obtain ⟨-, rfl⟩ := lift_eq_ok.mp h
  split
  · next hnone =>
    refine Affine.value_congr fun i _ => ?_
    rw [restrict, hnone, Nat.add_zero, ite_self]
  · exact Affine.value_insertVars ..

/-- A lifted constraint holds where the original one does without the ids. -/
theorem holds_liftConstraint {s : StmtSchedule} {c d : Constraint} (h : s.liftConstraint c = .ok d)
    (w : Valuation) : d.Holds w ↔ c.Holds (s.restrict w) := by
  simp only [liftConstraint, Outcome.bind_eq_ok, Outcome.pure_eq_ok] at h
  obtain ⟨b, hb, rfl⟩ := h
  rw [Constraint.Holds, value_lift hb, Constraint.Holds]

/-- Lifting makes room for the ids. -/
theorem within_lift {s : StmtSchedule} {a b : Affine} {n : Nat}
    (ha : a.Within (s.nProgramParam + n)) (h : s.lift a = .ok b) :
    b.Within (s.space.nParam + n) := by
  obtain ⟨hle, rfl⟩ := lift_eq_ok.mp h
  have hextra : s.nIds = s.space.nParam - s.nProgramParam := rfl
  split
  · exact ha.mono (by omega)
  · intro i hi
    rw [Affine.coeff_insertVars, if_neg (by omega), if_neg (by omega)]
    exact ha _ (by omega)

end StmtSchedule

/-! ## schedules of a statement -/

/-- The schedule vector at a valuation of the program's parameters and the
iterators. -/
def Statement.timeAt (stmt : Statement) (w : Valuation) : List Int := stmt.schedule.map (·.value w)

/-- The forms of a statement are over the `nParam` parameters and the
iterators. -/
structure Statement.WellFormed (nParam : Nat) (stmt : Statement) : Prop where
  domain : ∀ c ∈ stmt.domain, c.expr.Within (nParam + stmt.iterators.length)
  schedule : ∀ a ∈ stmt.schedule, a.Within (nParam + stmt.iterators.length)

namespace StmtSchedule

/-- The space of the schedule has the parameters of the program, `n` ids, the
iterators of the statement and divisions. -/
structure Frames (p : Program) (n : Nat) (stmt : Statement) (s : StmtSchedule) : Prop where
  nProgramParam : s.nProgramParam = p.nParam
  nParam : s.space.nParam = p.nParam + n
  nIter : s.space.nIter = stmt.iterators.length
  space : s.space.WellFormed

/-- The constraints of the schedule are those of the domain. -/
structure Describes (p : Program) (n : Nat) (stmt : Statement) (s : StmtSchedule) : Prop extends
    Frames p n stmt s where
  within : ∀ c ∈ s.constraints, c.expr.Within s.space.dim
  domain : ∀ w, (∀ c ∈ s.constraints, c.Holds w) ↔ ∀ c ∈ stmt.domain, c.Holds (s.restrict w)

variable {p : Program} {n : Nat} {stmt : Statement} {s : StmtSchedule}

theorem Frames.nIds (h : s.Frames p n stmt) : s.nIds = n := by
  rw [StmtSchedule.nIds, h.nParam, h.nProgramParam, Nat.add_sub_cancel_left]

/-- Before the divisions there are the parameters, the ids and the iterators. -/
theorem Frames.divOffset (h : s.Frames p n stmt) :
    s.space.divOffset = p.nParam + n + stmt.iterators.length := by
  rw [Space.divOffset, h.nParam, h.nIter]

/-- A lifted form of the program has its variables in the space. -/
theorem Frames.within_lift {a b : Affine} (h : s.Frames p n stmt)
    (ha : a.Within (p.nParam + stmt.iterators.length)) (hb : s.lift a = .ok b) :
    b.Within s.space.dim := by
  rw [← h.nProgramParam, ← h.nIter] at ha
  exact (StmtSchedule.within_lift ha hb).mono (Nat.le_add_right ..)

theorem restrict_congr {t : StmtSchedule} (hp : t.nProgramParam = s.nProgramParam)
    (hn : t.space.nParam = s.space.nParam) : t.restrict = s.restrict := by
  funext w i
  rw [restrict, restrict, StmtSchedule.nIds, StmtSchedule.nIds, hp, hn]

/-- A schedule with the lifted constraints of the domain describes the statement. -/
theorem Frames.describes {cs : List Constraint} (h : s.Frames p n stmt)
    (hstmt : stmt.WellFormed p.nParam) (hcs : stmt.domain.mapM s.liftConstraint = .ok cs) :
    { s with constraints := cs }.Describes p n stmt where
  toFrames := ⟨h.nProgramParam, h.nParam, h.nIter, h.space⟩
  within := by
    intro c hc
    obtain ⟨d, hd, hdc⟩ := Outcome.exists_of_mem_of_mapM hcs hc
    simp only [liftConstraint, Outcome.bind_eq_ok, Outcome.pure_eq_ok] at hdc
    obtain ⟨b, hb, rfl⟩ := hdc
    exact h.within_lift (hstmt.domain d hd) hb
  domain w := by
    have hsame : List.Forall₂ (fun c d => c.Holds (s.restrict w) ↔ d.Holds w) stmt.domain cs :=
      (Outcome.mapM_eq_ok.mp hcs).imp fun c d hd => (holds_liftConstraint hd w).symm
    constructor
    · intro hall c hc
      obtain ⟨d, hd, hcd⟩ := hsame.exists_of_mem_left hc
      exact hcd.mpr (hall d hd)
    · intro hall d hd
      obtain ⟨c, hc, hcd⟩ := hsame.exists_of_mem_right hd
      exact hcd.mp (hall c hc)

/-- A schedule still describes its statement when divisions are added. -/
theorem Describes.of_extends {t : Space} (h : s.Describes p n stmt) (hext : s.space.Extends t)
    (ht : t.WellFormed) : { s with space := t }.Describes p n stmt where
  nProgramParam := h.nProgramParam
  nParam := hext.nParam.trans h.nParam
  nIter := hext.nIter.trans h.nIter
  space := ht
  within c hc := (h.within c hc).mono hext.dim_le
  domain w := by
    have hsame : { s with space := t }.restrict = s.restrict := restrict_congr rfl hext.nParam
    rw [hsame]
    exact h.domain w

/-- A schedule that describes a statement is well-formed in the context of the program. -/
theorem Describes.wellFormed {context : List Constraint} (h : s.Describes p n stmt)
    (hcontext : ∀ c ∈ context, c.expr.Within p.nParam) : s.WellFormed context where
  space := h.space
  constraints := h.within
  context c hc := (hcontext c hc).mono (by rw [Space.dim, h.divOffset]; omega)

end StmtSchedule

/-! ## tiles -/

/-- Cutting a band into tiles adds divisions for the tiles and makes forms for them and for the
points. -/
theorem Cut.ofBand_eq_ok {ts : List Int} {bs : List Affine} {s : Space} {r : Cut}
    (hs : s.WellFormed) (hbs : ∀ b ∈ bs, b.Within s.dim) (h : Cut.ofBand ts bs s = .ok r) :
    ts.length ≤ bs.length ∧ s.Extends r.space ∧ r.space.WellFormed ∧
      (∀ a ∈ r.outer ++ r.inner, a.Within r.space.dim) ∧ r.post = bs.drop ts.length ∧
      ∀ w, r.space.Defines w →
        r.outer.map (·.value w) = List.zipWith (fun t x => x.fdiv t) ts (bs.map (·.value w)) ∧
        r.inner.map (·.value w) = List.zipWith (fun t x => x.fmod t) ts (bs.map (·.value w)) := by
  induction ts generalizing bs s r with
  | nil =>
      simp only [ofBand, Except.ok.injEq] at h
      subst h
      exact ⟨by simp, .refl s, hs, by simp, rfl, fun w _ => by simp⟩
  | cons t ts ih =>
      cases bs with
      | nil => simp [ofBand] at h
      | cons b bs =>
          simp only [ofBand, Outcome.bind_eq_ok, Outcome.pure_eq_ok] at h
          obtain ⟨⟨o, u⟩, ho, m, hm, i, hi, rest, hrest, rfl⟩ := h
          obtain ⟨hb, hbs⟩ := List.forall_mem_cons.mp hbs
          obtain ⟨hext, hwf, howithin, hoval⟩ := Space.floor_eq_ok hs hb ho
          have hiwithin : i.Within u.dim := (hb.mono hext.dim_le).sub (howithin.scale hm) hi
          obtain ⟨hlen, hext', hwf', hforms, hpost, hvals⟩ :=
            ih hwf (fun a ha => (hbs a ha).mono hext.dim_le) hrest
          refine ⟨by simpa using hlen, hext.trans hext', hwf', fun a ha => ?_, hpost,
            fun w hw => ?_⟩
          · simp only [List.cons_append, List.mem_cons, List.mem_append] at ha hforms
            rcases ha with rfl | ha | rfl | ha
            · exact howithin.mono hext'.dim_le
            · exact hforms a (Or.inl ha)
            · exact hiwithin.mono hext'.dim_le
            · exact hforms a (Or.inr ha)
          · have hoval := hoval w (hw.of_extends hext')
            have hival : i.value w = (b.value w).fmod t := by
              rw [Affine.value_sub hi, Affine.value_scale hm, hoval, Int.fmod_def]
            obtain ⟨houter, hinner⟩ := hvals w hw
            simp only [List.map_cons, List.zipWith_cons_cons, hoval, hival, houter,
              hinner, and_self]

theorem zipWith_take_length {α : Type} (f : α → Int → Int) (ts : List α) (us : List Int) :
    List.zipWith f ts us = List.zipWith f ts (us.take ts.length) := by
  induction ts generalizing us with
  | nil => rfl
  | cons t ts ih =>
      cases us with
      | nil => rfl
      | cons u us =>
          rw [List.length_cons, List.take_succ_cons, List.zipWith_cons_cons,
            List.zipWith_cons_cons, ← ih]

variable {p : Program} {n : Nat} {stmt : Statement} {m : Mapping}

/-- The statement is cut into the tiles of the mapping. -/
structure TiledStmt.Follows (p : Program) (n : Nat) (m : Mapping) (stmt : Statement)
    (t : TiledStmt) : Prop where
  sched : t.sched.Describes p n stmt
  fits : m.tileFirst + m.tileSizes.length ≤ stmt.schedule.length
  forms : ∀ a ∈ t.outer ++ t.inner, a.Within t.sched.space.dim
  host : ∀ w, t.host.map (·.value w) = (stmt.timeAt (t.sched.restrict w)).take m.tileFirst
  post : ∀ w, t.post.map (·.value w) = m.post (stmt.timeAt (t.sched.restrict w))
  outer : ∀ w, t.sched.space.Defines w →
    t.outer.map (·.value w) = m.outer (stmt.timeAt (t.sched.restrict w))
  inner : ∀ w, t.sched.space.Defines w →
    t.inner.map (·.value w) = m.inner (stmt.timeAt (t.sched.restrict w))

/-- A statement that was cut into tiles follows its mapping. -/
theorem TiledStmt.build_eq_ok {i : Nat} {t : TiledStmt}
    (hp : ∀ stmt ∈ p.statements, stmt.WellFormed p.nParam)
    (h : TiledStmt.build p (p.nParam + n) m.tileFirst m.tileSizes i = .ok t) :
    t.sched.stmt = i ∧ ∃ stmt, p.statements[i]? = some stmt ∧ t.Follows p n m stmt := by
  simp only [TiledStmt.build, Outcome.bind_eq_ok, Outcome.orFault_eq_ok] at h
  obtain ⟨stmt, hstmt, lifted, hlifted, h⟩ := h
  have hvalid := hp stmt (List.mem_of_getElem? hstmt)
  have heach := Outcome.mapM_eq_ok.mp hlifted
  split at h
  · simp at h
  next hlength =>
  simp only [Outcome.bind_eq_ok, Outcome.pure_eq_ok] at h
  obtain ⟨cut, hcut, cs, hcs, rfl⟩ := h
  set s : StmtSchedule := ⟨i, p.nParam, .ofSizes (p.nParam + n) stmt.iterators.length, [], []⟩
  have hframes : s.Frames p n stmt := ⟨rfl, rfl, rfl, Space.wellFormed_ofSizes _ _⟩
  have hlift : ∀ w, lifted.map (·.value w) = stmt.timeAt (s.restrict w) := by
    intro w
    rw [Statement.timeAt, ← List.forall₂_eq_eq_eq, List.forall₂_map_left_iff,
      List.forall₂_map_right_iff]
    exact heach.flip.imp fun b a hb => StmtSchedule.value_lift hb w
  have hband : ∀ b ∈ lifted.drop m.tileFirst, b.Within s.space.dim := by
    intro b hb
    obtain ⟨a, ha, hab⟩ := heach.exists_of_mem_right (List.mem_of_mem_drop hb)
    exact hframes.within_lift (hvalid.schedule a ha) hab
  obtain ⟨hlen, hext, hwf, hforms, hpost, hvals⟩ := Cut.ofBand_eq_ok hframes.space hband hcut
  rw [List.length_drop, ← heach.length_eq] at hlen
  rw [← heach.length_eq] at hlength
  have hvals : ∀ w, cut.space.Defines w →
      cut.outer.map (·.value w) = m.outer (stmt.timeAt (s.restrict w)) ∧
      cut.inner.map (·.value w) = m.inner (stmt.timeAt (s.restrict w)) := by
    intro w hw
    obtain ⟨houter, hinner⟩ := hvals w hw
    rw [List.map_drop, hlift, zipWith_take_length] at houter hinner
    exact ⟨houter, hinner⟩
  have hrestrict : { s with space := cut.space, constraints := cs }.restrict = s.restrict :=
    StmtSchedule.restrict_congr rfl hext.nParam
  refine ⟨rfl, stmt, hstmt, (hframes.describes hvalid hcs).of_extends hext hwf, by omega, hforms,
    ?_, ?_, ?_, ?_⟩
  · intro w
    rw [hrestrict, List.map_take, hlift]
  · intro w
    rw [hrestrict, hpost, List.map_drop, List.map_drop, hlift, List.drop_drop]
    rfl
  · intro w hw
    rw [hrestrict]
    exact (hvals w hw).1
  · intro w hw
    rw [hrestrict]
    exact (hvals w hw).2

/-! ## units -/

/-- Tiles and points are dealt out as the mapping says. -/
structure SpreadStmt.Follows (p : Program) (n : Nat) (m : Mapping) (stmt : Statement)
    (r : SpreadStmt) : Prop where
  sched : r.sched.Describes p n stmt
  fits : m.tileFirst + m.tileSizes.length ≤ stmt.schedule.length
  forms : ∀ a ∈ r.blocks ++ r.threads, a.Within r.sched.space.dim
  host : ∀ w, r.host.map (·.value w) = (stmt.timeAt (r.sched.restrict w)).take m.tileFirst
  post : ∀ w, r.post.map (·.value w) = m.post (stmt.timeAt (r.sched.restrict w))
  blocks : ∀ w, r.sched.space.Defines w →
    r.blocks.map (·.value w) = m.blocks (stmt.timeAt (r.sched.restrict w))
  loops : ∀ w, r.sched.space.Defines w →
    r.loops.map (·.value w) = Share.loops m.grid (m.outer (stmt.timeAt (r.sched.restrict w)))
  threads : ∀ w, r.sched.space.Defines w →
    r.threads.map (·.value w) = m.threads (stmt.timeAt (r.sched.restrict w))
  points : ∀ w, r.sched.space.Defines w →
    r.points.map (·.value w) = m.points (stmt.timeAt (r.sched.restrict w))

/-- Dealing tiles and points goes on with the mapping, and adds divisions only. -/
theorem SpreadStmt.dealPoints_eq_ok {t : TiledStmt} {part : TiledStmt × Dealt} {r : SpreadStmt}
    (ht : t.Follows p n m stmt) (hpart : dealTiles m.grid t = .ok part)
    (h : dealPoints m.block part = .ok r) :
    r.sched.stmt = t.sched.stmt ∧ r.sched.constraints = t.sched.constraints ∧
      t.sched.space.Extends r.sched.space ∧ r.Follows p n m stmt := by
  simp only [dealTiles, Outcome.bind_eq_ok, Outcome.pure_eq_ok] at hpart
  obtain ⟨tiles, htiles, rfl⟩ := hpart
  simp only [dealPoints, Outcome.bind_eq_ok, Outcome.pure_eq_ok] at h
  obtain ⟨dealt, hdealt, rfl⟩ := h
  have houter : ∀ a ∈ t.outer, a.Within t.sched.space.dim :=
    fun a ha => ht.forms a (List.mem_append_left _ ha)
  obtain ⟨hext₁, hwf₁, hforms₁, hvals₁⟩ := Share.dealAll_eq_ok ht.sched.space houter htiles
  have hinner : ∀ a ∈ t.inner, a.Within tiles.space.dim := fun a ha =>
    (ht.forms a (List.mem_append_right _ ha)).mono hext₁.dim_le
  obtain ⟨hext₂, hwf₂, hforms₂, hvals₂⟩ := Share.dealAll_eq_ok hwf₁ hinner hdealt
  have hext := hext₁.trans hext₂
  have hrestrict : { t.sched with space := dealt.space }.restrict = t.sched.restrict :=
    StmtSchedule.restrict_congr rfl hext.nParam
  refine ⟨rfl, rfl, hext, ht.sched.of_extends hext hwf₂, ht.fits, fun a ha => ?_, fun w => ?_,
    fun w => ?_, fun w hw => ?_, fun w hw => ?_, fun w hw => ?_, fun w hw => ?_⟩
  · rcases List.mem_append.mp ha with ha | ha
    · exact (hforms₁ a (List.mem_append_left _ ha)).mono hext₂.dim_le
    · exact hforms₂ a (List.mem_append_left _ ha)
  · rw [hrestrict]
    exact ht.host w
  · rw [hrestrict]
    exact ht.post w
  · rw [hrestrict, (hvals₁ w (hw.of_extends hext₂)).1, ht.outer w (hw.of_extends hext)]
    rfl
  · rw [hrestrict, (hvals₁ w (hw.of_extends hext₂)).2, ht.outer w (hw.of_extends hext)]
  · rw [hrestrict, (hvals₂ w hw).1, ht.inner w (hw.of_extends hext)]
    rfl
  · rw [hrestrict, (hvals₂ w hw).2, ht.inner w (hw.of_extends hext)]
    rfl

/-! ## ids -/

/-- The equations of the ids say that each is the unit of its form. -/
theorem idEquations_eq_ok {v : Nat} {units : List Affine} {cs : List Constraint}
    (h : idEquations v units = .ok cs) (w : Valuation) :
    (∀ c ∈ cs, c.Holds w) ↔ (List.range' v units.length).map w = units.map (·.value w) := by
  induction units generalizing v cs with
  | nil =>
      simp only [idEquations, Except.ok.injEq] at h
      simp [← h]
  | cons u units ih =>
      simp only [idEquations, Outcome.bind_eq_ok, Outcome.pure_eq_ok] at h
      obtain ⟨e, he, rest, hrest, rfl⟩ := h
      rw [List.forall_mem_cons, ih hrest, Constraint.holds_eq, Affine.value_sub he,
        Affine.value_var, sub_eq_zero, List.length_cons, List.range'_succ, List.map_cons,
        List.map_cons, List.cons.injEq]

/-- The bounds of the ids say that they are in the range of the launch. -/
theorem idBounds_eq_ok {v : Nat} {ns : List Int} {cs : List Constraint} (h : idBounds v ns = .ok cs)
    (w : Valuation) : (∀ c ∈ cs, c.Holds w) ↔ InRange ((List.range' v ns.length).map w) ns := by
  induction ns generalizing v cs with
  | nil =>
      simp only [idBounds, Except.ok.injEq] at h
      simp [← h, InRange]
  | cons k ns ih =>
      simp only [idBounds, Outcome.bind_eq_ok, Outcome.pure_eq_ok, Outcome.orFault_eq_ok,
        Word.sub?_eq_some] at h
      obtain ⟨_, ⟨-, rfl⟩, above, habove, rest, hrest, rfl⟩ := h
      rw [List.forall_mem_cons, List.forall_mem_cons, ih hrest, Constraint.holds_ge,
        Constraint.holds_ge, Affine.value_addConst habove, Affine.value_var, Affine.value_term,
        List.length_cons, List.range'_succ, List.map_cons, InRange, InRange, List.forall₂_cons,
        ← and_assoc]
      refine and_congr_left fun _ => and_congr_right fun _ => ?_
      constructor <;> intro <;> linarith

/-- The forms of the ids have the values of their variables. -/
theorem value_idParams (v n : Nat) (w : Valuation) :
    (idParams v n).map (·.value w) = (List.range' v n).map w := by
  rw [idParams, List.map_map]
  exact List.map_congr_left fun i _ => Affine.value_var i w

/-! ## realized mappings -/

/-- The schedule runs every instance of the statement at the ids of the mapping,
which are below `sizes`, with the coordinates of the mapping. -/
structure StmtSchedule.Realizes (p : Program) (m : Mapping) (sizes : List Int) (stmt : Statement)
    (s : StmtSchedule) : Prop extends Frames p (m.grid.length + m.block.length) stmt s where
  fits : m.tileFirst + m.tileSizes.length ≤ stmt.schedule.length
  instances : ∀ w, s.space.Defines w → ((∀ c ∈ s.constraints, c.Holds w) ↔
    (∀ c ∈ stmt.domain, c.Holds (s.restrict w)) ∧ s.ids w = m.ids (stmt.timeAt (s.restrict w)))
  inRange : ∀ w, s.space.Defines w → (∀ c ∈ stmt.domain, c.Holds (s.restrict w)) →
    (∀ c ∈ p.context, c.Holds w) →
    InRange (m.ids (stmt.timeAt (s.restrict w))) sizes
  coords : ∀ w, s.space.Defines w → s.ids w = m.ids (stmt.timeAt (s.restrict w)) →
    s.dims.map (·.value w) = m.coords (stmt.timeAt (s.restrict w))

/-- A schedule with enough rows fits the mapping. -/
theorem Mapping.fits_timeAt (h : m.tileFirst + m.tileSizes.length ≤ stmt.schedule.length)
    (w : Valuation) : m.Fits (stmt.timeAt w) := by
  rw [Fits, Statement.timeAt, List.length_map]
  exact h

/-- The place in a tile is within its size. -/
theorem Mapping.inRange_inner {m : Mapping} {v : List Int} (hv : m.Fits v) :
    InRange (m.inner v) m.tileSizes := by
  have hzip : ∀ {ts us : List Int}, (∀ t ∈ ts, 0 < t) → us.length = ts.length →
      InRange (List.zipWith (fun t x => x.fmod t) ts us) ts := by
    intro ts us hts hlen
    induction ts generalizing us with
    | nil => exact .nil
    | cons t ts ih =>
        obtain ⟨ht, hts⟩ := List.forall_mem_cons.mp hts
        cases us with
        | nil => simp at hlen
        | cons u us =>
            exact .cons ⟨Int.fmod_nonneg_of_pos u ht, Int.fmod_lt_of_pos u ht⟩
              (ih hts (by simpa using hlen))
  exact hzip m.tileSizes_pos (length_band hv)

theorem SpreadStmt.Follows.length_units {r : SpreadStmt} (hr : r.Follows p n m stmt) :
    r.blocks.length = m.grid.length ∧ r.threads.length = m.block.length := by
  obtain ⟨w, hw⟩ := Space.exists_defines hr.sched.space
  have hv := Mapping.fits_timeAt hr.fits (r.sched.restrict w)
  have hblocks := congrArg List.length (hr.blocks w hw)
  have hthreads := congrArg List.length (hr.threads w hw)
  rw [List.length_map, Mapping.length_blocks hv] at hblocks
  rw [List.length_map, Mapping.length_threads hv] at hthreads
  exact ⟨hblocks, hthreads⟩

/-- The ids are the block ids followed by the thread ids. -/
theorem StmtSchedule.Frames.ids_eq {s : StmtSchedule} {a b : Nat} (h : s.Frames p (a + b) stmt)
    (w : Valuation) :
    s.ids w = (List.range' p.nParam a).map w ++ (List.range' (p.nParam + a) b).map w := by
  rw [ids, h.nIds, h.nProgramParam, ← List.map_append, List.range'_append_1]

/-- With equations for its ids, a statement that follows the mapping realizes it. -/
theorem SpreadStmt.parametrize_eq_ok {r : SpreadStmt} {s : StmtSchedule} {sizes : List Int}
    (hr : r.Follows p (m.grid.length + m.block.length) m stmt)
    (hm : m.factors = List.replicate m.tileSizes.length 1)
    (hrange : ∀ w, r.sched.Contains p.context w →
      InRange (m.ids (stmt.timeAt (r.sched.restrict w))) sizes)
    (h : r.parametrize p.nParam = .ok s) : s.stmt = r.sched.stmt ∧ s.Realizes p m sizes stmt := by
  simp only [parametrize, Outcome.bind_eq_ok, Outcome.pure_eq_ok] at h
  obtain ⟨blockEqs, hblockEqs, threadEqs, hthreadEqs, rfl⟩ := h
  obtain ⟨hgrid, hblock⟩ := hr.length_units
  have hframes := hr.sched.toFrames
  -- the new schedule has the space of the old one, so the same variables are ids
  have hids : ∀ w, r.sched.ids w = m.ids (stmt.timeAt (r.sched.restrict w)) ↔
      (List.range' p.nParam m.grid.length).map w = m.blocks (stmt.timeAt (r.sched.restrict w)) ∧
      (List.range' (p.nParam + m.grid.length) m.block.length).map w =
        m.threads (stmt.timeAt (r.sched.restrict w)) := by
    intro w
    have hlen := Mapping.length_blocks (Mapping.fits_timeAt hr.fits (r.sched.restrict w))
    rw [hframes.ids_eq, Mapping.ids]
    exact ⟨fun h => List.append_inj h (by rw [hlen, List.length_map, List.length_range']),
      fun h => by rw [h.1, h.2]⟩
  refine ⟨rfl, ⟨hframes.nProgramParam, hframes.nParam, hframes.nIter, hframes.space⟩,
    hr.fits, ?_, ?_, ?_⟩
  · intro w hw
    have hblocks := idEquations_eq_ok hblockEqs w
    have hthreads := idEquations_eq_ok hthreadEqs w
    rw [hgrid, hr.blocks w hw] at hblocks
    rw [hgrid, hblock, hr.threads w hw] at hthreads
    refine Iff.trans ?_ (and_congr (hr.sched.domain w) (hids w).symm)
    rw [← hblocks, ← hthreads, List.forall_mem_append, List.forall_mem_append, and_assoc]
  · intro w hw hdomain hcontext
    exact hrange w ⟨hw, (hr.sched.domain w).mpr hdomain, hcontext⟩
  · intro w hw heq
    obtain ⟨hblocks, hthreads⟩ := (hids w).mp heq
    have hloops := Mapping.loops_of_unscaled (Mapping.fits_timeAt hr.fits (r.sched.restrict w)) hm
    have hvalue : (r.host ++ idParams p.nParam r.blocks.length ++ r.loops ++
        idParams (p.nParam + r.blocks.length) r.threads.length ++ r.points ++
          r.post).map (·.value w) = m.coords (stmt.timeAt (r.sched.restrict w)) := by
      simp only [List.map_append, value_idParams, hgrid, hblock, hr.host, hr.post, hr.loops w hw,
        hr.points w hw, hblocks, hthreads, Mapping.coords, hloops]
    exact hvalue

end KernelMap
