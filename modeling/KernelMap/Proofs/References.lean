import KernelMap.Scope.Basic
import KernelMap.Proofs.Instances
import Mathlib.Data.List.Nodup
import Mathlib.Data.List.Pairwise

/-!
# KernelMap.Proofs.References

The references of valid programs and of kernels.

In a valid program a reference is known by its number (`Program.eq_of_id_eq`), and references to one
array have equally many subscripts (`Program.length_subscripts_eq`).  A kernel lists references of
its own statements (`Scope.has_of_mem_refs`); if it lists none twice, a number finds the reference
that has it (`Scope.reference?_of_mem`).
-/

namespace KernelMap

/-! ## elements -/

/-- The subscript selects the index where the variables have the given values. -/
def Subscript.Selects (w : Valuation) : Subscript → Int → Prop
  | single a, index => a.value w = index
  | range lo hi, index => lo.value w ≤ index ∧ index ≤ hi.value w

/-- Iteration `x` touches the element through the reference. -/
def Reference.Touches (r : Reference) (params x element : List Int) : Prop :=
  List.Forall₂ (fun s index => s.Selects (.ofList (params ++ x)) index) r.subscripts element

theorem Reference.isRead_eq_not_isWrite (r : Reference) : r.isRead = !r.isWrite := by
  unfold isRead isWrite
  cases r.use <;> rfl

/-! ## valid programs -/

namespace Program

/-- All references of the program. -/
def references (p : Program) : List Reference := p.statements.flatMap (·.references)

/-- The array of the reference is declared, with a dimension for each subscript. -/
def Declares (p : Program) (r : Reference) : Prop :=
  ∃ array, p.array? r.array = some array ∧ r.subscripts.length = array.nIndex

variable {p : Program}

/-- References that pass the check have new numbers and are declared. -/
theorem checkReferences_eq_ok {dim : Nat} {ids ids' : List Nat} {rs : List Reference}
    (h : p.checkReferences dim ids rs = .ok ids') (hids : ids.Nodup) :
    ids' = (rs.map (·.id)).reverse ++ ids ∧ ids'.Nodup ∧ ∀ r ∈ rs, p.Declares r := by
  induction rs generalizing ids with
  | nil =>
      simp only [checkReferences, Except.ok.injEq] at h
      subst h
      simpa using hids
  | cons r rs ih =>
      simp only [checkReferences, checkReference, Outcome.bind_eq_ok, Outcome.ensure_eq_ok,
        Outcome.orRaise_eq_ok, Outcome.pure_eq_ok, Bool.not_eq_true', beq_iff_eq] at h
      obtain ⟨_, ⟨_, hnew, array, harray, _, hlen, _, -, rfl⟩, h⟩ := h
      have hnew : r.id ∉ ids := by simpa using hnew
      obtain ⟨hids', hnodup, hdeclared⟩ := ih h (List.nodup_cons.mpr ⟨hnew, hids⟩)
      refine ⟨?_, hnodup, List.forall_mem_cons.mpr ⟨⟨array, harray, hlen⟩, hdeclared⟩⟩
      rw [hids']
      simp

/-- So have those of all statements. -/
theorem checkStatements_eq_ok {names : List String} {ids : List Nat} {stmts : List Statement}
    (h : p.checkStatements names ids stmts = .ok ()) (hids : ids.Nodup) :
    (((stmts.flatMap (·.references)).map (·.id)).reverse ++ ids).Nodup ∧
      ∀ r ∈ stmts.flatMap (·.references), p.Declares r := by
  induction stmts generalizing names ids with
  | nil => simpa using hids
  | cons stmt stmts ih =>
      simp only [checkStatements, Outcome.bind_eq_ok] at h
      obtain ⟨_, -, _, -, ids', hrefs, h⟩ := h
      obtain ⟨rfl, hnodup, hdeclared⟩ := checkReferences_eq_ok hrefs hids
      obtain ⟨hall, hrest⟩ := ih h hnodup
      refine ⟨by simpa using hall, fun r hr => ?_⟩
      rw [List.flatMap_cons, List.mem_append] at hr
      exact hr.elim (hdeclared r) (hrest r)

/-- The references of a valid program have numbers of their own and fit their arrays. -/
theorem references_of_validate (h : p.validate = .ok ()) :
    (p.references.map (·.id)).Nodup ∧ ∀ r ∈ p.references, p.Declares r := by
  simp only [validate, Outcome.widen_eq_ok, Outcome.bind_eq_ok] at h
  obtain ⟨_, -, _, hstatements, -⟩ := h
  obtain ⟨hnodup, hdeclared⟩ := checkStatements_eq_ok hstatements List.nodup_nil
  rw [List.append_nil, List.nodup_reverse] at hnodup
  exact ⟨hnodup, hdeclared⟩

theorem mem_references {r : Reference} :
    r ∈ p.references ↔ ∃ stmt ∈ p.statements, r ∈ stmt.references :=
  List.mem_flatMap

/-- Numbers tell references apart. -/
theorem eq_of_id_eq (h : p.validate = .ok ()) {r r' : Reference} (hr : r ∈ p.references)
    (hr' : r' ∈ p.references) (hid : r.id = r'.id) : r = r' :=
  List.inj_on_of_nodup_map (references_of_validate h).1 hr hr' hid

/-- A reference belongs to one statement. -/
theorem eq_of_mem_references (h : p.validate = .ok ()) {s t : Statement} (hs : s ∈ p.statements)
    (ht : t ∈ p.statements) {r : Reference} (hr : r ∈ s.references)
    (hr' : r ∈ t.references) : s = t := by
  by_contra hne
  have hnodup : p.references.Nodup := (references_of_validate h).1.of_map _
  have hsymm : Std.Symm (Function.onFun List.Disjoint Statement.references) :=
    ⟨fun _ _ hd _ ha hb => hd hb ha⟩
  exact (List.nodup_flatMap.mp hnodup).2.forall hs ht hne hr hr'

/-- A reference belongs to one number of a statement. -/
theorem number_eq_of_mem_references (h : p.validate = .ok ()) {i j : Nat} {s t : Statement}
    (hs : p.statements[i]? = some s) (ht : p.statements[j]? = some t) {r : Reference}
    (hr : r ∈ s.references) (hr' : r ∈ t.references) : i = j := by
  obtain ⟨hi, rfl⟩ := List.getElem?_eq_some_iff.mp hs
  obtain ⟨hj, rfl⟩ := List.getElem?_eq_some_iff.mp ht
  have hnodup : p.references.Nodup := (references_of_validate h).1.of_map _
  have hdisjoint := List.pairwise_iff_getElem.mp (List.nodup_flatMap.mp hnodup).2
  rcases lt_trichotomy i j with hlt | heq | hlt
  · exact absurd hr' (hdisjoint i j hi hj hlt hr)
  · exact heq
  · exact absurd hr (hdisjoint j i hj hi hlt hr')

/-- References to one array have equally many subscripts. -/
theorem length_subscripts_eq (h : p.validate = .ok ()) {r r' : Reference} (hr : r ∈ p.references)
    (hr' : r' ∈ p.references) (harray : r.array = r'.array) :
    r.subscripts.length = r'.subscripts.length := by
  obtain ⟨a, ha, hlen⟩ := (references_of_validate h).2 r hr
  obtain ⟨a', ha', hlen'⟩ := (references_of_validate h).2 r' hr'
  rw [harray, ha'] at ha
  rw [hlen, hlen', Option.some.inj ha]

end Program

/-! ## references of a kernel -/

namespace Scope

/-- The statement at the position of the reference has it. -/
def Has (sc : Scope) (r : Located) : Prop :=
  ∃ st stmt, sc.schedule.statements[r.position]? = some st ∧
    sc.program.statements[st.stmt]? = some stmt ∧
    r.reference ∈ stmt.references

/-- A reference that was located is one of the kernel. -/
theorem has_of_mem_locate {p : Program} {o : Options} {k : KernelSchedule} {array : String}
    {r : Located} (h : r ∈ locate p k array) : (ofSchedule p o k).Has r := by
  obtain ⟨⟨i, st⟩, hst, h⟩ := List.mem_flatMap.mp h
  have hi : k.statements[i]? = some st := by
    obtain ⟨j, hj, hget⟩ := List.mem_iff_getElem.mp hst
    simp only [List.getElem_zip, List.getElem_range, Prod.mk.injEq] at hget
    obtain ⟨rfl, rfl⟩ := hget
    exact List.getElem?_eq_getElem _
  dsimp only at h
  split at h
  · simp at h
  · next stmt hstmt =>
    obtain ⟨q, hq, rfl⟩ := List.mem_map.mp h
    exact ⟨st, stmt, hi, hstmt, List.mem_of_mem_filter hq⟩

theorem array_of_mem_locate {p : Program} {k : KernelSchedule} {array : String} {r : Located}
    (h : r ∈ locate p k array) : r.reference.array = array := by
  obtain ⟨⟨i, st⟩, -, h⟩ := List.mem_flatMap.mp h
  dsimp only at h
  split at h
  · simp at h
  · obtain ⟨q, hq, rfl⟩ := List.mem_map.mp h
    simpa using (List.mem_filter.mp hq).2

/-- A kernel lists references of its own statements. -/
theorem has_of_mem_refs {p : Program} {o : Options} {k : KernelSchedule} {r : Located}
    (h : r ∈ (ofSchedule p o k).refs) : (ofSchedule p o k).Has r := by
  obtain ⟨a, -, h⟩ := List.mem_flatMap.mp h
  exact has_of_mem_locate h

/-- A kernel lists every reference of its statements to a declared array. -/
theorem exists_mem_refs {p : Program} {o : Options} {k : KernelSchedule} {st : StmtSchedule}
    {stmt : Statement} {r : Reference} (hst : st ∈ k.statements)
    (hstmt : p.statements[st.stmt]? = some stmt) (hr : r ∈ stmt.references) (hr' : p.Declares r) :
    ∃ l ∈ (ofSchedule p o k).refs, l.reference = r := by
  obtain ⟨array, harray, -⟩ := hr'
  have hname : array.name = r.array := by simpa using List.find?_some harray
  obtain ⟨i, hi, rfl⟩ := List.mem_iff_getElem.mp hst
  have hpair : (i, k.statements[i]) ∈ (List.range k.statements.length).zip k.statements := by
    refine List.mem_iff_getElem.mpr ⟨i, by simpa using hi, ?_⟩
    rw [List.getElem_zip, List.getElem_range]
  refine ⟨⟨i, r⟩, List.mem_flatMap.mpr ⟨array, List.mem_of_find?_eq_some harray, ?_⟩, rfl⟩
  refine List.mem_flatMap.mpr ⟨_, hpair, ?_⟩
  simp only [hstmt]
  exact List.mem_map_of_mem (List.mem_filter.mpr ⟨hr, by simp [hname]⟩)

variable {sc : Scope} {r : Located} {id : Nat}

/-- References of the kernel are references of the program. -/
theorem Has.mem_references (h : sc.Has r) : r.reference ∈ sc.program.references := by
  obtain ⟨st, stmt, -, hstmt, hr⟩ := h
  exact Program.mem_references.mpr ⟨stmt, List.mem_of_getElem? hstmt, hr⟩

/-- A reference that is found by number is listed and has it. -/
theorem mem_refs_of_reference? (h : sc.reference? id = some r) :
    r ∈ sc.refs ∧ r.reference.id = id := by
  refine ⟨List.mem_of_find?_eq_some h, ?_⟩
  have hid := List.find?_some h
  simpa using hid

theorem mem_referencesTo {name : String} :
    id ∈ sc.referencesTo name ↔ ∃ r ∈ sc.refs, r.reference.array = name ∧ r.reference.id = id := by
  simp only [referencesTo, List.mem_map, List.mem_filter, beq_iff_eq, and_assoc]

/-- If no number occurs twice, it finds its reference. -/
theorem reference?_of_mem (hnodup : (sc.refs.map (·.reference.id)).Nodup) (hr : r ∈ sc.refs) :
    sc.reference? r.reference.id = some r := by
  cases h : sc.reference? r.reference.id with
  | none =>
      have hnone := List.find?_eq_none.mp h r hr
      simp at hnone
  | some r' =>
      obtain ⟨hr', hid⟩ := mem_refs_of_reference? h
      rw [List.inj_on_of_nodup_map hnodup hr' hr hid]

/-- If no number occurs twice, a reference is at the place that its number has. -/
theorem order_of_getElem? (hnodup : (sc.refs.map (·.reference.id)).Nodup) {j : Nat}
    (hr : sc.refs[j]? = some r) : sc.order r.reference.id = j := by
  obtain ⟨hj, rfl⟩ := List.getElem?_eq_some_iff.mp hr
  have hfind : sc.orderOf? sc.refs[j].reference.id = some j := by
    refine List.findIdx?_eq_some_iff_getElem.mpr ⟨hj, by simp, fun i hi => ?_⟩
    have hne := List.pairwise_iff_getElem.mp hnodup i j (by rw [List.length_map]; omega)
      (by simpa using hj) hi
    simpa using hne
  rw [order, hfind, Option.getD_some]

end Scope

end KernelMap
