import KernelMap.Compile
import KernelMap.Proofs.GroupCauses
import KernelMap.Proofs.ItemTimes

/-!
# KernelMap.Proofs.CompileCauses

What compiling a valid program reports.

Once program and options are valid, compiling fails for three reasons only: a number leaves the word
range, an elimination makes too many constraints, or an array that must be private has no private
tile (`Program.compile_reports_only`).  The checks of validity are made on the program as it is
declared, while kernels are built from the program with recomputed flags and extents; both pass the
same checks (`Program.Redeclares.validate_eq`).  A loop tree is built from times in which every
other entry is a slot (`Item.Alternates`), which moving loops keeps.
-/

namespace KernelMap

/-- Applying a function to the result does not change a failure. -/
theorem Outcome.eq_error_of_map {ε α β : Type} {f : α → β} {x : Outcome ε α} {e : Failure ε}
    (h : f <$> x = .error e) : x = .error e := by
  cases x with
  | ok a => simp [Functor.map, Except.map] at h
  | error e' => simpa [Functor.map, Except.map] using h

open Outcome

/-! ## bodies -/

namespace Scope

/-- The test for covered reads reports no mismatch. -/
@[simp] theorem noMismatch_isCovered (sc : Scope) (read write level : Nat) :
    NoMismatch (sc.isCovered read write level) := by
  have hsubscripts : ∀ domain is js, NoMismatch (sameSubscripts domain is js) := by
    intro domain is js
    fun_induction sameSubscripts domain is js <;> simp_all
  have hfirst : ∀ domain bandEnd shift level c rs ws,
      NoMismatch (writeFirst domain bandEnd shift level c rs ws) := by
    intro domain bandEnd shift level c rs ws
    fun_induction writeFirst domain bandEnd shift level c rs ws <;> simp_all
  unfold isCovered
  split
  · simp [covers, statementOf, hsubscripts, hfirst]
  · simp

end Scope

/-- The entries of the time at even positions are slots. -/
def Item.Alternates (i : Item) : Prop := ∀ pos m, i.time[2 * pos]? = some m → ∃ n, m = .slot n

namespace Body

variable {sc : Scope} {groups gs : List Group} {k : KernelSchedule}

/-- A time that leads statements to a slot alternates. -/
theorem alternates_of_leadTime {i : Item} {level : Nat} {ss : List Nat} {pick : Pick} {slot : Int}
    {rest : List Moment} (hrest : rest.length ≤ 1)
    (h : i.time = leadTime k level ss pick ++ .slot slot :: rest) : i.Alternates := by
  intro pos m hm
  rcases Nat.lt_trichotomy pos level with hlt | rfl | hgt
  · rw [h, List.getElem?_append_left (by rw [length_leadTime]; omega),
      (getElem?_leadTime hlt).1] at hm
    exact ⟨_, (Option.some.inj hm).symm⟩
  · rw [h, List.getElem?_append_right (by rw [length_leadTime]),
      length_leadTime, Nat.sub_self] at hm
    exact ⟨slot, (Option.some.inj hm).symm⟩
  · rw [h, List.getElem?_eq_none (by simp [length_leadTime]; omega)] at hm
    simp at hm

/-- The times of all items of a body alternate. -/
theorem alternates_of_build {body : Body} (h : build sc groups = .ok body) :
    ∀ i ∈ body.items, i.Alternates := by
  intro i hi
  cases made_of_build h i hi with
  | statement => exact alternates_of_leadTime (by simp) rfl
  | copy => exact alternates_of_leadTime (by simp) rfl
  | sync => exact alternates_of_leadTime (by simp) rfl

/-- A body is built unless numbers get too large. -/
theorem reportsOnly_build (hsc : sc.Regular)
    (hgroups : ∀ g ∈ groups, ∃ name, Group.Ready sc name g) :
    ReportsOnly (MapError.Remains sc.program) (build sc groups) := by
  have hstatements : ReportsOnly (MapError.Remains sc.program) (statementItems sc) :=
    reportsOnly_mapM fun q _ => by
      simp only [statementItem, reportsOnly_bind, reportsOnly_orFault, reportsOnly_pure,
        implies_true, and_true, true_and]
      exact fun _ _ => reportsOnly_mapM fun j _ => by simp [statementMoment]
  have huncovered : ∀ writes level reads, NoMismatch (uncovered sc writes level reads) := by
    intro writes level reads
    induction reads with
    | nil => simp [uncovered]
    | cons r reads ih =>
        have hany : NoMismatch (writes.anyM fun w => sc.isCovered r w level) :=
          reportsOnly_anyM fun w _ => by simp
        simp [uncovered, hany, ih]
  have hcopies : ∀ gs ⊆ groups, ∀ gi barriers,
      ReportsOnly (MapError.Remains sc.program) (copyItems sc groups gi gs barriers) := by
    intro gs
    induction gs with
    | nil => simp [copyItems]
    | cons g gs ih =>
        intro hsub gi barriers
        obtain ⟨hg, hgs⟩ := List.cons_subset.mp hsub
        obtain ⟨name, hready⟩ := hgroups g hg
        have hneeds : ∀ level,
            ReportsOnly (MapError.Remains sc.program) (copyNeeds sc g level) := by
          intro level
          simp [copyNeeds, huncovered, hready.reportsOnly_array hsc]
        unfold copyItems
        split
        · exact ih hgs _ _
        · simp [hneeds, ih hgs]
  simp [build, hstatements, hcopies groups (List.Subset.refl _)]

/-! ### moved loops -/

/-- A time that alternates still does after reordering coordinates. -/
theorem ends_reorderItem {ε : Type} {P : ε → Prop} {i : Item} (hi : i.Alternates)
    (start depth : Nat) (order : List Nat) :
    Ends P Item.Alternates (reorderItem start depth order i) := by
  have hmoved : ∀ pos, ReportsOnly P (movedEntry start depth order i.time pos) := by
    intro pos
    unfold movedEntry
    dsimp only
    split
    · simp only [reportsOnly_bind, reportsOnly_orFault, true_and]
      intro m _
      cases m <;> simp [moveMoment]
    · simp
  unfold reorderItem
  split
  · refine Ends.bind (Q := fun time => (⟨i.work, time⟩ : Item).Alternates)
      ⟨reportsOnly_mapM fun pos _ => hmoved pos, fun time htime pos m hm => hi pos m ?_⟩ fun time
      htime => by simpa using htime
    -- slots stay where they are
    obtain ⟨hlen, hget⟩ := List.forall₂_iff_get.mp (mapM_eq_ok.mp htime)
    obtain ⟨hlt, rfl⟩ := List.getElem?_eq_some_iff.mp hm
    have hentry := hget (2 * pos) (hlen ▸ hlt) hlt
    have heven : ¬ (2 * pos % 2 = 1 ∧ start ≤ 2 * pos / 2) := by omega
    simpa only [List.get_eq_getElem, List.getElem_range, movedEntry, if_neg heven,
      orFault_eq_ok] using hentry
  · exact ends_ok.mpr hi

/-- Interchanging loops keeps all times alternating. -/
theorem ends_interchange {ε : Type} {P : ε → Prop} {b : Body} (hb : ∀ i ∈ b.items, i.Alternates)
    (unroll : List Nat) :
    Ends P (fun body => ∀ i ∈ body.items, i.Alternates) (b.interchange unroll) := by
  unfold interchange
  split
  · exact ends_ok.mpr hb
  dsimp only
  split
  · exact ends_fault
  refine (reportsOnly_mapM fun st _ => by simp [reorderStatement]).bind fun statements => ?_
  refine (ends_mapM fun i hi => ends_reorderItem (hb i hi) _ _ _).bind fun items hitems => ?_
  exact (Stage.reportsOnly_advance _ _).bind fun stage => ends_pure.mpr hitems

end Body

/-! ## trees -/

namespace Tree

variable {items : List Item}

/-- Where times alternate, the slots at an even position can be listed. -/
theorem exists_slotsAt {pos : Nat} (heven : pos % 2 = 0) (h : ∀ i ∈ items, i.Alternates) :
    ∃ slots, slotsAt pos items = .ok slots := by
  induction items with
  | nil => exact ⟨[], rfl⟩
  | cons i items ih =>
      obtain ⟨hi, hitems⟩ := List.forall_mem_cons.mp h
      obtain ⟨slots, hslots⟩ := ih hitems
      unfold slotsAt
      split
      · next n _ => exact ⟨n :: slots, by rw [hslots]; rfl⟩
      · next m hslot hm =>
        have hpos : 2 * (pos / 2) = pos := by omega
        obtain ⟨n, rfl⟩ := hi (pos / 2) m (by rw [hpos]; exact hm)
        exact absurd rfl (hslot n)
      · exact ⟨slots, hslots⟩

/-- If there are trees for each list of items, there are for all. -/
theorem exists_concat {f : List Item → Outcome EngineError (List Tree)} {lists : List (List Item)}
    (h : ∀ is ∈ lists, ∃ ts, f is = .ok ts) : ∃ ts, concat f lists = .ok ts := by
  induction lists with
  | nil => exact ⟨[], rfl⟩
  | cons is lists ih =>
      obtain ⟨⟨ts, hts⟩, hlists⟩ := List.forall_mem_cons.mp h
      obtain ⟨rest, hrest⟩ := ih hlists
      exact ⟨ts ++ rest, by rw [concat, hts, hrest]; rfl⟩

/-- Items whose times alternate have trees. -/
theorem exists_nodes (b : Body) (n pos : Nat) (h : ∀ i ∈ items, i.Alternates) :
    ∃ ts, nodes b n pos items = .ok ts := by
  induction n generalizing pos items with
  | zero => exact ⟨_, rfl⟩
  | succ n ih =>
      have hrest : ∀ q : Item → Bool, ∀ i ∈ items.filter q, i.Alternates := fun q i hi =>
        h i (List.mem_of_mem_filter hi)
      have hconcat : ∀ q (vs : List Int) (m : Int → Moment), ∃ ts,
          concat (nodes b n (pos + 1)) (vs.map fun v => itemsAt pos (m v) (items.filter q)) =
            .ok ts := fun q vs m =>
        exists_concat (List.forall_mem_map.mpr fun v _ => ih _ fun i hi =>
          hrest q i (List.mem_of_mem_filter hi))
      rw [nodes]
      dsimp only
      split
      · exact ⟨_, rfl⟩
      split
      · next heven =>
        obtain ⟨slots, hslots⟩ := exists_slotsAt heven (hrest fun i => decide (pos < i.time.length))
        obtain ⟨inner, hinner⟩ := hconcat (fun i => decide (pos < i.time.length))
          (Sorted.distinct slots) .slot
        exact ⟨_, bind_eq_ok.mpr ⟨slots, hslots, bind_eq_ok.mpr ⟨inner, hinner, rfl⟩⟩⟩
      · obtain ⟨fixed, hfixed⟩ := hconcat (fun i => decide (pos < i.time.length)) _ .const
        obtain ⟨inner, hinner⟩ := ih (pos + 1) fun i (hi : i ∈ itemsVarying pos (items.filter _)) =>
          hrest (fun i => decide (pos < i.time.length)) i (List.mem_of_mem_filter hi)
        by_cases hvarying :
          (itemsVarying pos (items.filter fun i => decide (pos < i.time.length))).isEmpty = true
        · exact ⟨_, bind_eq_ok.mpr ⟨fixed, hfixed, by rw [if_pos hvarying]; rfl⟩⟩
        · exact ⟨_, bind_eq_ok.mpr ⟨fixed,
            hfixed, by rw [if_neg hvarying]; exact bind_eq_ok.mpr ⟨inner, hinner, rfl⟩⟩⟩

/-- Slots at all even positions are all that the tree of a body needs. -/
theorem exists_ofBody {b : Body} (h : ∀ i ∈ b.items, i.Alternates) : ∃ t, ofBody b = .ok t := by
  obtain ⟨ts, hts⟩ := exists_nodes b (maxLength b.items) 0 h
  exact ⟨block ts, by rw [ofBody, hts]; rfl⟩

/-- A body whose times alternate has a tree, so that nothing is reported. -/
theorem noMismatch_ofBody {b : Body} (h : ∀ i ∈ b.items, i.Alternates) : NoMismatch (ofBody b) := by
  obtain ⟨t, ht⟩ := exists_ofBody h
  simp [ht]

end Tree

/-! ## kernels -/

namespace Kernel

variable {sc : Scope} {p : Program} {o : Options}

/-- Assembling a kernel from groups that are ready reports what can remain. -/
theorem reportsOnly_assemble (hsc : sc.Regular) {groups : List Group}
    (hgroups : ∀ g ∈ groups, ∃ name, Group.Ready sc name g) {body : Body}
    (hbody : ∀ i ∈ body.items, i.Alternates) (id : Nat) :
    ReportsOnly (MapError.Remains sc.program) (assemble id sc groups body) := by
  have hlocalize : ∀ arrays, NoMismatch (localize sc arrays) := by
    intro arrays
    induction arrays with
    | nil => simp [localize]
    | cons array arrays ih =>
        have haccess := Scope.noMismatch_access hsc (hsc.finds array.name) (Nat.zero_le _)
        simp [localize, haccess, ih]
  have hlocals : ∀ gs ⊆ groups,
      ReportsOnly (MapError.Remains sc.program) (localsOf sc groups gs) := by
    intro gs
    induction gs with
    | nil => simp [localsOf]
    | cons g gs ih =>
        intro hsub
        obtain ⟨hg, hgs⟩ := List.cons_subset.mp hsub
        obtain ⟨name, hready⟩ := hgroups g hg
        unfold localsOf
        split
        · exact ih hgs
        · simp [hready.reportsOnly_array hsc, ih hgs]
  simp [assemble, Tree.noMismatch_ofBody hbody, hlocalize, hlocals groups (List.Subset.refl _)]

/-- Mapping a region of a valid program reports what can remain. -/
theorem reportsOnly_ofRegion (hp : p.validate = .ok ()) {region : Region}
    (hregion : region ∈ p.regions) (o : Options) (id : Nat) :
    ReportsOnly (MapError.Remains p) (ofRegion p o id region) := by
  unfold ofRegion
  refine reportsOnly_bind.mpr ⟨KernelSchedule.reportsOnly_build hp hregion o, fun k hk => ?_⟩
  have hsc : (Scope.ofSchedule p o k).Regular := Scope.regular_of_build hp hregion hk
  obtain ⟨hall, hformed⟩ := Group.ends_all hsc
  refine reportsOnly_bind.mpr ⟨hall, fun formed hformedEq => ?_⟩
  have hready := hformed formed hformedEq
  refine reportsOnly_bind.mpr
    ⟨reportsOnly_ofEngine.mpr (Group.noMismatch_checkUnroll hsc hready), ?_⟩
  rintro ⟨checked, unroll⟩ hunroll
  rw [ofEngine_eq_ok] at hunroll
  have hchecked : ∀ g ∈ checked, ∃ name, Group.Ready (Scope.ofSchedule p o k) name g := by
    intro g hg
    obtain ⟨g₀, hg₀, hdemoted⟩ := (Group.demoted_of_checkUnroll hunroll).exists_of_mem_right hg
    exact (hready g₀ hg₀).imp fun name h => h.of_demoted hdemoted
  refine reportsOnly_bind.mpr ⟨Group.reportsOnly_enforceBudget hsc hchecked,
    fun groups hbudget => ?_⟩
  have hgroups : ∀ g ∈ groups, ∃ name, Group.Ready (Scope.ofSchedule p o k) name g := by
    intro g hg
    obtain ⟨g₀, hg₀, hdemoted⟩ := (Group.demoted_of_stages hunroll hbudget).exists_of_mem_right hg
    exact (hready g₀ hg₀).imp fun name h => h.of_demoted hdemoted
  refine reportsOnly_bind.mpr ⟨Body.reportsOnly_build hsc hgroups, fun body hbody => ?_⟩
  obtain ⟨hmove, hmoved⟩ := Body.ends_interchange (P := MapError.Remains p)
    (Body.alternates_of_build hbody) unroll
  exact reportsOnly_bind.mpr
    ⟨hmove, fun moved hmovedEq => reportsOnly_assemble hsc hgroups (hmoved moved hmovedEq) id⟩

/-- Mapping regions of a valid program reports what can remain. -/
theorem reportsOnly_ofRegions (hp : p.validate = .ok ()) {regions : List Region}
    (hregions : regions ⊆ p.regions) (o : Options) (id : Nat) :
    ReportsOnly (MapError.Remains p) (ofRegions p o id regions) := by
  induction regions generalizing id with
  | nil => simp [ofRegions]
  | cons region regions ih =>
      obtain ⟨hregion, hregions⟩ := List.cons_subset.mp hregions
      simp [ofRegions, reportsOnly_ofRegion hp hregion, ih hregions]

end Kernel

/-! ## programs -/

/-- What the declaration of an array says before the references are looked at. -/
def ArrayDecl.stated (a : ArrayDecl) : ArrayDecl :=
  { a with extent := none, scalar := false, readOnly := false }

namespace Program

variable {p p' : Program}

/-- The programs differ only in what the references say about the arrays. -/
structure Redeclares (p p' : Program) : Prop where
  arrays : p'.arrays.map ArrayDecl.stated = p.arrays.map ArrayDecl.stated
  others : p' = { p with arrays := p'.arrays }

/-- Both programs find the same declaration by a name, up to what references say. -/
theorem Redeclares.array? (h : p.Redeclares p') (name : String) :
    (p'.array? name).map ArrayDecl.stated = (p.array? name).map ArrayDecl.stated := by
  have hfind : ∀ arrays : List ArrayDecl, (arrays.find? (·.name == name)).map ArrayDecl.stated =
      (arrays.map ArrayDecl.stated).find? (·.name == name) := fun arrays => by
    rw [List.find?_map]; rfl
  rw [Program.array?, Program.array?, hfind, hfind, h.arrays]

theorem redeclares_recomputeFlags (p : Program) : p.Redeclares p.recomputeFlags :=
  ⟨by rw [recomputeFlags, List.map_map]; rfl, rfl⟩

/-- Inferring extents changes only what the references say about the arrays. -/
theorem redeclares_of_recomputeExtents (h : p.recomputeExtents = .ok p') : p.Redeclares p' := by
  simp only [recomputeExtents, bind_eq_ok, ofEngine_eq_ok, pure_eq_ok] at h
  obtain ⟨arrays, harrays, rfl⟩ := h
  have hstated : ∀ as as', p.arraysWithExtents as = .ok as' →
      as'.map ArrayDecl.stated = as.map ArrayDecl.stated := by
    intro as
    induction as with
    | nil =>
        intro as' h
        simp only [arraysWithExtents, Except.ok.injEq] at h
        simp [← h]
    | cons a as ih =>
        intro as' h
        simp only [arraysWithExtents, bind_eq_ok, pure_eq_ok] at h
        obtain ⟨extent, -, rest, hrest, rfl⟩ := h
        rw [List.map_cons, List.map_cons, ih rest hrest]
        rfl
  exact ⟨hstated _ _ harrays, rfl⟩

theorem Redeclares.trans {p'' : Program} (h : p.Redeclares p') (h' : p'.Redeclares p'') :
    p.Redeclares p'' where
  arrays := h'.arrays.trans h.arrays
  others := by
    rw [h'.others, h.others]

/-- Both programs accept the same references. -/
theorem Redeclares.checkReference (h : p.Redeclares p') (dim : Nat) (ids : List Nat)
    (r : Reference) : p'.checkReference dim ids r = p.checkReference dim ids r := by
  have harray := h.array? r.array
  unfold Program.checkReference
  cases hfound : p.array? r.array with
  | none =>
      rw [hfound, Option.map_none, Option.map_eq_none_iff] at harray
      rw [harray]
  | some a =>
      rw [hfound, Option.map_some, Option.map_eq_some_iff] at harray
      obtain ⟨a', hfound', hstated⟩ := harray
      have hname : a'.name = a.name := (congrArg ArrayDecl.name hstated :)
      have hindex : a'.nIndex = a.nIndex := (congrArg ArrayDecl.nIndex hstated :)
      have hsome : ∀ x : ArrayDecl, orRaise (ProgramFlaw.unknownArray r.array) (some x) = pure x :=
        fun _ => rfl
      simp only [hfound', hsome, pure_bind, hname, hindex]

/-- What the references say does not matter for validity. -/
theorem Redeclares.validate_eq (h : p.Redeclares p') : p'.validate = p.validate := by
  have hreferences : ∀ dim ids rs, p'.checkReferences dim ids rs =
      p.checkReferences dim ids rs := by
    intro dim ids rs
    induction rs generalizing ids with
    | nil => rfl
    | cons r rs ih => simp only [checkReferences, h.checkReference, ih]
  have hnParam : p'.nParam = p.nParam := (congrArg nParam h.others :)
  have hstatements : ∀ names ids stmts, p'.checkStatements names ids stmts =
      p.checkStatements names ids stmts := by
    intro names ids stmts
    induction stmts generalizing names ids with
    | nil => rfl
    | cons stmt stmts ih => simp only [checkStatements, hreferences, hnParam, ih]
  have hlength : ∀ r len numbers, p'.commonLength r len numbers = p.commonLength r len numbers := by
    intro r len numbers
    have hsame : p'.statements = p.statements := (congrArg Program.statements h.others :)
    induction numbers generalizing len with
    | nil => rfl
    | cons i numbers ih => simp only [commonLength, hsame, ih]
  have hregions : ∀ r regions, p'.checkRegions r regions = p.checkRegions r regions := by
    intro r regions
    induction regions generalizing r with
    | nil => rfl
    | cons region regions ih => simp only [checkRegions, checkRegion, hlength, ih]
  unfold validate
  rw [hstatements, hregions, hnParam, h.others]

theorem mem_references_of_mem_allReferences {x : Nat × Statement × Reference}
    (h : x ∈ p.allReferences) : x.2.2 ∈ p.references := by
  obtain ⟨⟨i, stmt⟩, hstmt, hx⟩ := List.mem_flatMap.mp h
  obtain ⟨r, hr, rfl⟩ := List.mem_map.mp hx
  exact mem_references.mpr ⟨stmt, (List.of_mem_zip hstmt).2, hr⟩

/-- Inferring the extents of a valid program reports what can remain. -/
theorem reportsOnly_recomputeExtents (hp : p.validate = .ok ()) :
    ReportsOnly (MapError.Remains p) p.recomputeExtents := by
  have hextent : ∀ name, NoMismatch (p.extentOf (p.untiledReferences name)) := by
    intro name
    have hbuild : NoMismatch (Access.build p.nParam p.context (p.untiledReferences name) 0) := by
      refine Access.noMismatch_build ((p.array? name).elim 0 (·.nIndex)) fun item hitem => ?_
      obtain ⟨⟨i, stmt, r⟩, hlisted, rfl⟩ := List.mem_map.mp hitem
      obtain ⟨hmem, hname⟩ := List.mem_filter.mp hlisted
      obtain ⟨array, harray, hlen⟩ :=
        (references_of_validate hp).2 r (mem_references_of_mem_allReferences hmem)
      rw [eq_of_beq hname] at harray
      exact ⟨by simp [harray, hlen], le_rfl, Nat.zero_le _⟩
    simp [extentOf, hbuild]
  have harrays : ∀ arrays, NoMismatch (p.arraysWithExtents arrays) := by
    intro arrays
    induction arrays with
    | nil => simp [arraysWithExtents]
    | cons array arrays ih => simp [arraysWithExtents, hextent, ih]
  simp [recomputeExtents, harrays]

/-- Arrays must be private in one program if they must in the other. -/
theorem Redeclares.remains (h : p.Redeclares p') {e : MapError} (he : e.Remains p') :
    e.Remains p := by
  cases e with
  | engine cause => exact he
  | placement name =>
      obtain ⟨a', ha', hforce⟩ := he
      have harray := h.array? name
      rw [ha', Option.map_some, eq_comm, Option.map_eq_some_iff] at harray
      obtain ⟨a, ha, hstated⟩ := harray
      exact ⟨a, ha, ((congrArg ArrayDecl.forcePrivate hstated :) : a.forcePrivate =
        a'.forcePrivate).trans hforce⟩
  | text _ => exact he
  | program _ => exact he
  | options _ => exact he
  | json => exact he

/-- Compiling a valid program under valid options reports what can remain. -/
theorem reportsOnly_compile {o : Options} (hp : p.validate = .ok ()) (ho : o.validate = .ok ()) :
    ReportsOnly (MapError.Remains p) (p.compile o) := by
  have hflags := p.redeclares_recomputeFlags
  have hvalid : p.recomputeFlags.validate = .ok () := hflags.validate_eq.trans hp
  simp only [compile, ho, hp, reportsOnly_bind, reportsOnly_ok, reportsOnly_pure, implies_true,
    and_true, true_and, forall_const]
  refine ⟨(reportsOnly_recomputeExtents hvalid).imp fun _ => hflags.remains, fun p' hp' => ?_⟩
  have hredeclares := hflags.trans (redeclares_of_recomputeExtents hp')
  have hvalid' : p'.validate = .ok () := hredeclares.validate_eq.trans hp
  exact (Kernel.reportsOnly_ofRegions hvalid' (List.Subset.refl _) o 0).imp fun _ =>
    hredeclares.remains

/-- After validation, compiling reports an overflow, too many constraints, or an array that must be
private and cannot be. -/
theorem compile_reports_only {o : Options} {e : MapError} (hp : p.validate = .ok ())
    (ho : o.validate = .ok ()) (h : p.compile o = .error (.error e)) :
    e = .engine .overflow ∨ (∃ n, e = .engine (.tooComplex n)) ∨
      ∃ array, p.array? array.name = some array ∧ array.forcePrivate = true ∧
      e = .placement array.name := by
  have hremains := reportsOnly_compile hp ho e h
  cases e with
  | engine cause =>
      cases cause with
      | overflow => exact Or.inl rfl
      | tooComplex n => exact Or.inr (Or.inl ⟨n, rfl⟩)
      | spaceMismatch what => exact hremains.elim
  | placement name =>
      obtain ⟨array, harray, hforce⟩ := hremains
      have hname : array.name = name := by simpa using List.find?_some harray
      exact Or.inr (Or.inr ⟨array, hname ▸ harray, hforce, by rw [hname]⟩)
  | text _ => exact hremains.elim
  | program _ => exact hremains.elim
  | options _ => exact hremains.elim
  | json => exact hremains.elim

/-- A kernel without a band writes `N` elements of `T`, which must be private. -/
def row : Program where
  params := ["N"]
  context := []
  arrays := [{ ArrayDecl.ofShape "T" "int" 4 1 with forcePrivate := true }]
  statements := [{
    name := "S"
    iterators := ["i"]
    domain := [.ge ⟨[0, 1], 0⟩, .ge ⟨[1, -1], -1⟩]
    schedule := [.var 1]
    references := [⟨0, "T", .write, true, [.single (.var 1)]⟩] }]
  regions := [⟨[0], 0, 0, []⟩]

/-- No tile of a fixed size has `N` elements. -/
theorem row_cannot_be_private :
    (row.validate = .ok () ∧ Options.default.validate = .ok () ∧
      row.compile .default = .error (.error (.placement "T"))) ∧
      ∃ array, row.array? array.name = some array ∧ array.forcePrivate = true ∧
      array.name = "T" := by
  have hvalid : row.validate = .ok () ∧ Options.default.validate = .ok () := by decide +kernel
  have hreport : (fun _ => ()) <$> row.compile .default = .error (.error (.placement "T")) := by
    decide +kernel
  have hcompile : row.compile .default = .error (.error (.placement "T")) := eq_error_of_map hreport
  refine ⟨⟨hvalid.1, hvalid.2, hcompile⟩, ?_⟩
  rcases compile_reports_only hvalid.1 hvalid.2 hcompile with h | ⟨n, h⟩ |
    ⟨array, harray, hforce, h⟩
  · cases h
  · cases h
  · exact ⟨array, harray, hforce, (MapError.placement.inj h).symm⟩

end Program

end KernelMap
