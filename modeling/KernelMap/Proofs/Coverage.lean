import KernelMap.Scope.Coverage
import KernelMap.Proofs.Inclusion
import KernelMap.Proofs.References

/-!
# KernelMap.Proofs.Coverage

Covered reads: what the comparison of a read with a write proves.

A positive answer holds at every instance of the read.  The same iteration is an instance of the
write, it touches the same element, and its schedule vector agrees on the host and the band and
comes first (`Scope.instance_of_covers`).  So the write runs in the same thread and in the same
iteration of all tile and point loops, before the read (`KernelSchedule.Realizes.precedes`).
-/

namespace KernelMap

/-! ## answers of the engine -/

namespace Polyhedron

/-- A system made from constraints has the points where all of them hold. -/
theorem ofConstraints_eq_ok {n : Nat} {cs : List Constraint} {s : Polyhedron}
    (h : ofConstraints n cs = .ok s) (hcs : ∀ c ∈ cs, c.expr.Within n) :
    s.WellFormed ∧ ∀ w, s.Holds w ↔ ∀ c ∈ cs, c.Holds w := by
  refine ⟨(grows_addAllLowered h).wellFormed (wellFormed_empty n), fun w => ?_⟩
  rw [holds_addAllLowered h, and_iff_right (holds_empty n w)]
  refine forall₂_congr fun c hc => Constraint.holds_congr fun i hi => ?_
  have hlt : i < n := Nat.lt_of_not_le fun hle => hi (hcs c hc i hle)
  simp [List.getD_eq_getElem?_getD, hlt]

/-- A form that is reported to vanish is zero at every point. -/
theorem value_eq_zero_of_vanishes {s : Polyhedron} {a : Affine} (hs : s.WellFormed)
    (h : s.vanishes a = .ok true) {w : Valuation} (hw : s.Holds w) : a.value w = 0 := by
  have hsign : ∀ sign ∈ [1, -1], ¬ 0 ≤ sign * a.value w + -1 := by
    intro sign hmem
    have hempty := Outcome.eq_ok_of_allM h sign hmem
    simp only [Outcome.bind_eq_ok] at hempty
    obtain ⟨e, he, e', he', t, ht, hempty⟩ := hempty
    rw [← Affine.value_scale he, ← Affine.value_addConst he', ← Constraint.holds_ge]
    exact fun hc => not_holds_of_isEmpty (hs.add ht) hempty w ((holds_add ht w).mpr ⟨hw, hc⟩)
  have hpos := hsign 1 (by simp)
  have hneg := hsign (-1) (by simp)
  omega

end Polyhedron

namespace Scope

variable {domain : Polyhedron} {w : Valuation}

/-- Subscripts that are reported to agree select the same elements. -/
theorem selects_of_sameSubscripts (hdomain : domain.WellFormed) (hw : domain.Holds w)
    {as bs : List Subscript} (hlen : as.length = bs.length)
    (h : sameSubscripts domain as bs = .ok true) (element : List Int) :
    List.Forall₂ (Subscript.Selects w) as element ↔
      List.Forall₂ (Subscript.Selects w) bs element := by
  fun_induction sameSubscripts domain as bs generalizing element with
  | case1 a as b bs ih =>
      simp only [Outcome.bind_eq_ok] at h
      obtain ⟨diff, hdiff, zero, hzero, h⟩ := h
      cases zero with
      | false => simp at h
      | true =>
          have hvalue := Polyhedron.value_eq_zero_of_vanishes hdomain hzero hw
          rw [Affine.value_sub hdiff] at hvalue
          have hhead : a.value w = b.value w := by omega
          have htail := ih (by simpa using hlen) h
          simp only [List.forall₂_cons_left_iff, Subscript.Selects, hhead, htail]
  | case2 => simp at h
  | case3 as bs hne hne' =>
      cases as with
      | nil => rw [List.length_eq_zero_iff.mp hlen.symm]
      | cons a as =>
          cases bs with
          | nil => simp at hlen
          | cons b bs => exact absurd rfl (hne' a as b bs rfl)

/-- A write that is reported to come first agrees with the read on the band and is less. -/
theorem time_lt_of_writeFirst (hdomain : domain.WellFormed) (hw : domain.Holds w)
    {bandEnd shift level c : Nat} {rs ws : List Affine}
    (h : writeFirst domain bandEnd shift level c rs ws = .ok true) :
    (ws.map (·.value w)).take (bandEnd - c) = (rs.map (·.value w)).take (bandEnd - c) ∧
      ws.map (·.value w) < rs.map (·.value w) := by
  fun_induction writeFirst domain bandEnd shift level c rs ws with
  | case1 => simp at h
  | case2 => simp at h
  | case3 c r rs a ws ih =>
      simp only [Outcome.bind_eq_ok] at h
      obtain ⟨diff, hdiff, zero, hzero, h⟩ := h
      have hvalue := Affine.value_sub hdiff w
      simp only [List.map_cons, List.cons_lt_cons_iff]
      cases zero with
      | true =>
          obtain ⟨hband, hlt⟩ := ih h
          rw [Polyhedron.value_eq_zero_of_vanishes hdomain hzero hw] at hvalue
          have hhead : a.value w = r.value w := by omega
          refine ⟨?_, Or.inr ⟨hhead, hlt⟩⟩
          by_cases hle : bandEnd ≤ c
          · simp [Nat.sub_eq_zero_of_le hle]
          · obtain ⟨n, hn⟩ : ∃ n, bandEnd - c = n + 1 := ⟨bandEnd - c - 1, by omega⟩
            have hn' : bandEnd - (c + 1) = n := by omega
            rw [hn'] at hband
            rw [hn, List.take_succ_cons, List.take_succ_cons, hhead, hband]
      | false =>
          simp only [Bool.false_eq_true, if_false] at h
          split at h
          · simp at h
          · next hpast =>
            have hle : bandEnd ≤ c := by
              simp only [Bool.or_eq_true, decide_eq_true_eq, not_or] at hpast
              omega
            simp only [Outcome.bind_eq_ok] at h
            obtain ⟨t, ht, h⟩ := h
            have hneg : ¬ 0 ≤ diff.value w := fun hge =>
              Polyhedron.not_holds_of_isEmpty (hdomain.add ht) h w
                ((Polyhedron.holds_add ht w).mpr ⟨hw, Constraint.holds_ge.mpr hge⟩)
            refine ⟨by simp [Nat.sub_eq_zero_of_le hle], Or.inl ?_⟩
            omega

variable {sc : Scope} {read write : Located} {level : Nat}

theorem statementOf_eq_ok {r : Located} {stmt : Statement} : sc.statementOf r = .ok stmt ↔
    ∃ st, sc.schedule.statements[r.position]? = some st ∧
    sc.program.statements[st.stmt]? = some stmt := by
  simp only [statementOf, Outcome.bind_eq_ok, Outcome.orFault_eq_ok]

/-- The statement of a listed reference is known, and has it. -/
theorem Has.statement {r : Located} (h : sc.Has r) :
    ∃ stmt ∈ sc.program.statements, sc.statementOf r = .ok stmt ∧
      r.reference ∈ stmt.references := by
  obtain ⟨st, stmt, hst, hstmt, hr⟩ := h
  exact ⟨stmt, List.mem_of_getElem? hstmt, statementOf_eq_ok.mpr ⟨st, hst, hstmt⟩, hr⟩

/-- Every condition of a covered read. -/
theorem covers_eq_ok (h : sc.covers read write level = .ok true) :
    (write.reference.isWrite = true ∧ write.reference.definite = true) ∧
      ∃ rs ws, sc.statementOf read = .ok rs ∧ sc.statementOf write = .ok ws ∧
        rs.iterators.length = ws.iterators.length ∧
        ∃ domain target,
          Polyhedron.ofConstraints (sc.program.nParam + rs.iterators.length)
            (rs.domain ++ sc.program.context) = .ok domain ∧
          Polyhedron.ofConstraints (sc.program.nParam + rs.iterators.length) ws.domain =
            .ok target ∧
          domain.subset target = .ok true ∧
          sameSubscripts domain read.reference.subscripts write.reference.subscripts = .ok true ∧
          ∃ shift, writeFirst domain (sc.schedule.tileFirst + sc.schedule.tileLen) shift level 0
            rs.schedule ws.schedule = .ok true := by
  unfold covers at h
  split at h
  · simp at h
  next hdefinite =>
  simp only [Outcome.bind_eq_ok] at h
  obtain ⟨rs, hrs, ws, hws, h⟩ := h
  split at h
  · simp at h
  next hiter =>
  simp only [Outcome.bind_eq_ok] at h
  obtain ⟨domain, hdomain, target, htarget, subset, hsubset, h⟩ := h
  split at h
  · simp at h
  next hcontained =>
  simp only [Outcome.bind_eq_ok] at h
  obtain ⟨same, hsame, h⟩ := h
  split at h
  · simp at h
  next hequal =>
  simp only [Bool.not_eq_true, Bool.or_eq_false_iff, Bool.not_eq_false', ne_eq, not_not]
    at hdefinite hiter hcontained hequal
  subst hcontained hequal
  exact ⟨hdefinite, rs, ws, hrs, hws, hiter, domain, target, hdomain, htarget, hsubset, hsame, _, h⟩

/-- Every instance of a covered read is an instance of the write, which touches the same elements
and comes first after the band. -/
theorem instance_of_covers (hp : sc.program.validate = .ok ())
    (hlen : read.reference.subscripts.length = write.reference.subscripts.length)
    (h : sc.covers read write level = .ok true) :
    ∃ rs ws, sc.statementOf read = .ok rs ∧ sc.statementOf write = .ok ws ∧
      ∀ params x, sc.program.Admits params → rs.IsInstance params x →
        ws.IsInstance params x ∧
          (∀ element, read.reference.Touches params x element ↔
            write.reference.Touches params x element) ∧
          (ws.time params x).take (sc.schedule.tileFirst + sc.schedule.tileLen) =
            (rs.time params x).take (sc.schedule.tileFirst + sc.schedule.tileLen) ∧
          ws.time params x < rs.time params x := by
  obtain ⟨-, rs, ws, hrs, hws, hiter, domain, target, hdomain, htarget, hsubset,
    hsame, _, hfirst⟩ := covers_eq_ok h
  obtain ⟨hcontext, hstatements⟩ := Program.wellFormed_of_validate hp
  have hwithin : ∀ {r stmt}, sc.statementOf r = .ok stmt → stmt.WellFormed sc.program.nParam := by
    intro r stmt hstmt
    obtain ⟨st, -, hst⟩ := statementOf_eq_ok.mp hstmt
    exact hstatements stmt (List.mem_of_getElem? hst)
  obtain ⟨hwf, hholds⟩ := Polyhedron.ofConstraints_eq_ok hdomain (List.forall_mem_append.mpr
    ⟨(hwithin hrs).domain, fun c hc => (hcontext c hc).mono (Nat.le_add_right ..)⟩)
  obtain ⟨-, hholds'⟩ := Polyhedron.ofConstraints_eq_ok htarget (hiter ▸ (hwithin hws).domain)
  refine ⟨rs, ws, hrs, hws, fun params x hparams hx => ?_⟩
  have hctx : ∀ c ∈ sc.program.context, c.Holds (.ofList (params ++ x)) := by
    intro c hc
    rw [Constraint.Holds, (hcontext c hc).value_congr fun i hi => Valuation.ofList_append_left
      (hparams.1 ▸ hi)]
    exact hparams.2 c hc
  have hpoint : domain.Holds (.ofList (params ++ x)) :=
    (hholds _).mpr (List.forall_mem_append.mpr ⟨hx.2, hctx⟩)
  have hinstance := (hholds' _).mp (Polyhedron.holds_of_subset hwf hsubset hpoint)
  obtain ⟨hband, hlt⟩ := time_lt_of_writeFirst hwf hpoint hfirst
  exact ⟨⟨hx.1.trans hiter, hinstance⟩, selects_of_sameSubscripts hwf hpoint hlen hsame, hband, hlt⟩

end Scope

/-! ## covered reads -/

namespace KernelSchedule

variable {p : Program} {k : KernelSchedule} {params : List Int}

/-- Instance `b` runs in the same thread and in the same iteration of all tile and point loops as
`a`, and before it. -/
def Instance.Precedes (b a : k.Instance p params) : Prop :=
  ∃ ids, b.RunsAt ids ∧ a.RunsAt ids ∧
    (b.coords ids).take (k.privateLen + k.tileLen) =
      (a.coords ids).take (k.privateLen + k.tileLen) ∧
    b.coords ids < a.coords ids

/-- Whenever the kernel reads through `r`, a definite write out of those with the numbers `refs` has
produced the element: in the same thread, in the same iteration of all tile and point loops, before
the read. -/
def Covered (k : KernelSchedule) (p : Program) (params : List Int) (refs : List Nat)
    (r : Reference) : Prop :=
  ∀ a : k.Instance p params, r ∈ a.statement.references →
    ∃ (b : k.Instance p params) (w : Reference), w ∈ b.statement.references ∧ w.id ∈ refs ∧
    w.array = r.array ∧
      w.isWrite = true ∧ w.definite = true ∧
      (∀ element, r.Touches params a.iteration element ↔ w.Touches params b.iteration element) ∧
      b.Precedes a

/-- An instance that is earlier at the same point of the band runs earlier, in the same thread. -/
theorem Realizes.precedes {numbers : List Nat} {m : Mapping} (hp : p.validate = .ok ())
    (hk : k.Realizes p numbers m) (hparams : p.Admits params) {a b : k.Instance p params}
    (hband : b.time.take (k.tileFirst + k.tileLen) = a.time.take (k.tileFirst + k.tileLen))
    (hlt : b.time < a.time) : b.Precedes a := by
  obtain ⟨hfits, hruns, hcoords⟩ := hk.instance_eq hp hparams b
  obtain ⟨-, hruns', hcoords'⟩ := hk.instance_eq hp hparams a
  rw [hk.tileFirst, hk.tileLen] at hband
  obtain ⟨hids, hless, hbegin⟩ := Mapping.coords_lt_of_post hfits hlt hband
  refine ⟨m.ids b.time, (hruns _).mpr rfl, (hruns' _).mpr hids, ?_, ?_⟩
  · rw [hcoords, hids, hcoords']
    refine hbegin _ ?_
    rw [privateLen, sharedLen, hk.tileFirst, hk.tileLen, hk.nGrid, hk.nBlock]
  · rw [hcoords, hids, hcoords']
    exact hless

/-- A read that is reported to be covered by a write is so at every instance. -/
theorem Realizes.covered {o : Options} {numbers : List Nat} {m : Mapping} (hp : p.validate = .ok ())
    (hk : k.Realizes p numbers m) (hparams : p.Admits params) {read write : Located} {level : Nat}
    {refs : List Nat} (hread : (Scope.ofSchedule p o k).Has read)
    (hwrite : (Scope.ofSchedule p o k).Has write)
    (harray : write.reference.array = read.reference.array) (hrefs : write.reference.id ∈ refs)
    (h : (Scope.ofSchedule p o k).covers read write level = .ok true) :
    k.Covered p params refs read.reference := by
  intro a ha
  have hlen := Program.length_subscripts_eq hp hread.mem_references
    hwrite.mem_references harray.symm
  obtain ⟨rs, ws, hrs, hws, hinstances⟩ := Scope.instance_of_covers hp hlen h
  obtain ⟨hwrites, hdefinite⟩ := (Scope.covers_eq_ok h).1
  obtain rfl : rs = a.statement := by
    obtain ⟨stmt, hmem, hstmt, hr⟩ := hread.statement
    obtain rfl : stmt = rs := Except.ok.inj (hstmt.symm.trans hrs)
    exact Program.eq_of_mem_references hp hmem (List.mem_of_getElem? a.statement_eq) hr ha
  obtain ⟨hx, htouches, hband, hlt⟩ := hinstances params a.iteration hparams a.isInstance
  obtain ⟨st, hst, hstmt⟩ := Scope.statementOf_eq_ok.mp hws
  obtain ⟨stmt, -, hstmt', hw⟩ := hwrite.statement
  obtain rfl : stmt = ws := Except.ok.inj (hstmt'.symm.trans hws)
  exact ⟨⟨st, stmt, a.iteration, List.mem_of_getElem? hst, hstmt, hx⟩, write.reference, hw, hrefs,
    harray, hwrites, hdefinite, htouches, hk.precedes hp hparams hband hlt⟩

end KernelSchedule

end KernelMap
