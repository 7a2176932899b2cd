import KernelMap.Proofs.ScheduleCauses
import KernelMap.Proofs.Stability

/-!
# KernelMap.Proofs.GroupCauses

What forming the groups of a kernel reports.

For a kernel of a valid program the only causes left are those of large numbers and an array that
must be private (`MapError.Remains`).  A group that is under construction has references, all of
them to its array, and is copied outside of the thread loops (`Group.Ready`); this is all that the
next step needs to compare accesses of one shape, and it is what every step returns.  The steps are
therefore followed with a condition on causes and one on results at once (`Outcome.Ends`).
-/

namespace KernelMap

/-! ## causes and results -/

namespace Outcome

variable {ε α β : Type} {P : ε → Prop} {Q : α → Prop} {R : β → Prop}

/-- Causes that are reported satisfy `P`, and results satisfy `Q`. -/
def Ends (P : ε → Prop) (Q : α → Prop) (x : Outcome ε α) : Prop :=
  ReportsOnly P x ∧ ∀ a, x = .ok a → Q a

@[simp] theorem ends_ok {a : α} : Ends P Q (.ok a) ↔ Q a := by simp [Ends]

@[simp] theorem ends_pure {a : α} : Ends P Q (pure a) ↔ Q a := ends_ok

@[simp] theorem ends_fault : Ends P Q (fault : Outcome ε α) := by simp [Ends]

/-- Two steps end well if the second does on every good result of the first. -/
theorem Ends.bind {x : Outcome ε α} {f : α → Outcome ε β} (hx : Ends P Q x)
    (hf : ∀ a, Q a → Ends P R (f a)) : Ends P R (x >>= f) := by
  refine ⟨reportsOnly_bind.mpr ⟨hx.1, fun a ha => (hf a (hx.2 a ha)).1⟩, fun b hb => ?_⟩
  obtain ⟨a, ha, hb⟩ := bind_eq_ok.mp hb
  exact (hf a (hx.2 a ha)).2 b hb

/-- Nothing has to be known about the result of the first step. -/
theorem ReportsOnly.bind {x : Outcome ε α} {f : α → Outcome ε β} (hx : ReportsOnly P x)
    (hf : ∀ a, Ends P R (f a)) : Ends P R (x >>= f) :=
  Ends.bind (Q := fun _ => True) ⟨hx, fun _ _ => trivial⟩ fun a _ => hf a

/-- A computation that ends well on each element gives good results only. -/
theorem ends_mapM {f : α → Outcome ε β} {xs : List α} (h : ∀ x ∈ xs, Ends P R (f x)) :
    Ends P (fun ys => ∀ y ∈ ys, R y) (xs.mapM f) := by
  refine ⟨reportsOnly_mapM fun x hx => (h x hx).1, fun ys hys y hy => ?_⟩
  obtain ⟨x, hx, hy⟩ := exists_of_mem_of_mapM hys hy
  exact (h x hx).2 y hy

end Outcome

open Outcome

/-- What can be left to report about a valid program. -/
def MapError.Remains (p : Program) : MapError → Prop
  | .engine cause => cause.IsArithmetic
  | .placement name => ∃ array, p.array? name = some array ∧ array.forcePrivate = true
  | _ => False

/-- Of the causes of the engine, those without a mismatch can remain. -/
@[simp] theorem reportsOnly_ofEngine {α : Type} {p : Program} {x : Outcome EngineError α} :
    ReportsOnly (MapError.Remains p) (.ofEngine x) ↔ NoMismatch x :=
  reportsOnly_widen

/-! ## kernels -/

namespace KernelSchedule

variable {p : Program} {k : KernelSchedule}

/-- The thread loops and the point loops are among the coordinates. -/
theorem LaidOut.pointLoops_le_depth (h : k.LaidOut p) : k.privateLen + k.tileLen ≤ k.depth := by
  obtain ⟨nInner, hlevels⟩ := h.levels
  simp only [depth, hlevels, layout, List.length_append, List.length_replicate,
    privateLen, sharedLen]
  omega

/-- Building the schedule of a region of a valid program reports what can remain. -/
theorem reportsOnly_build {region : Region} (hp : p.validate = .ok ())
    (hregion : region ∈ p.regions) (o : Options) :
    ReportsOnly (MapError.Remains p) (build p region o) := by
  obtain ⟨len, -, -, hbuild⟩ := build_eq_ofEngine hp hregion o
  simp [hbuild]

end KernelSchedule

namespace Scope

/-- The numbers find references to the array. -/
def Finds (sc : Scope) (name : String) (refs : List Nat) : Prop :=
  ∀ id ∈ refs, ∃ r, sc.reference? id = some r ∧ r.reference.array = name

/-- A kernel of a valid program, with the references of its own statements, all of which have its
coordinates. -/
structure Regular (sc : Scope) : Prop where
  program : sc.program.validate = .ok ()
  laidOut : sc.schedule.LaidOut sc.program
  shaped : sc.schedule.Shaped
  has : ∀ r ∈ sc.refs, sc.Has r
  finds : ∀ name, sc.Finds name (sc.referencesTo name)

/-- The scope of a schedule that is built for a valid program is regular. -/
theorem regular_of_build {p : Program} {region : Region} {o : Options} {k : KernelSchedule}
    (hp : p.validate = .ok ()) (hregion : region ∈ p.regions)
    (hk : KernelSchedule.build p region o = .ok k) : (ofSchedule p o k).Regular where
  program := hp
  laidOut := KernelSchedule.laidOut_of_build hk
  shaped := KernelSchedule.shaped_of_build hp hregion hk
  has _ := has_of_mem_refs
  finds _ := exists_of_mem_referencesTo_of_validate hp

variable {sc : Scope} {name : String} {refs : List Nat} {depth : Nat}

theorem Regular.sharedLen_le_depth (hsc : sc.Regular) : sc.schedule.sharedLen ≤ sc.schedule.depth :=
  sc.schedule.sharedLen_le_privateLen.trans hsc.laidOut.privateLen_le_depth

/-- The effective depth is within the coordinates. -/
theorem Regular.effectiveDepth_le_depth (hsc : sc.Regular) :
    sc.effectiveDepth sc.schedule.sharedLen ≤ sc.schedule.depth :=
  (effectiveDepth_le sc _).trans hsc.sharedLen_le_depth

/-! ## accesses -/

/-- A reference of the kernel has a subscript for each dimension of its array. -/
theorem Regular.declares (hsc : sc.Regular) {id : Nat} {r : Located}
    (hr : sc.reference? id = some r) : sc.program.Declares r.reference :=
  (Program.references_of_validate hsc.program).2 _
    (hsc.has r (mem_refs_of_reference? hr).1).mem_references

/-- References to one array are accessed without a mismatch at every depth of the schedule. -/
theorem noMismatch_access (hsc : sc.Regular) (hrefs : sc.Finds name refs)
    (hdepth : depth ≤ sc.schedule.depth) : NoMismatch (sc.access refs depth) := by
  refine reportsOnly_bind.mpr ⟨reportsOnly_mapM fun id hid => ?_, fun items hitems => ?_⟩
  · obtain ⟨r, hr, -⟩ := hrefs id hid
    simp [item, hr]
  · refine Access.noMismatch_build ((sc.program.array? name).elim 0 (·.nIndex)) fun x hx => ?_
    obtain ⟨id, hid, hx⟩ := exists_of_mem_of_mapM hitems hx
    obtain ⟨r, hr, rfl⟩ := hrefs id hid
    simp only [item, hr, bind_eq_ok, orRaise_eq_ok, orFault_eq_ok, pure_eq_ok, Option.some.injEq,
      exists_eq_left'] at hx
    obtain ⟨st, hst, rfl⟩ := hx
    have hmem : st ∈ sc.schedule.statements := List.mem_of_getElem? hst
    obtain ⟨array, harray, hlen⟩ := hsc.declares hr
    exact ⟨by simp [harray,
      hlen], hsc.shaped.nParam st hmem, hdepth.trans (hsc.shaped.dims st hmem).ge⟩

/-- The access of references to an array has an output for each of its indices. -/
theorem nOut_of_access (hsc : sc.Regular) (hrefs : sc.Finds name refs) (hne : refs ≠ [])
    {acc : Access} (h : sc.access refs depth = .ok acc) :
    acc.nOut = (sc.program.array? name).elim 0 (·.nIndex) := by
  obtain ⟨id, hid⟩ := List.exists_mem_of_ne_nil _ hne
  obtain ⟨r, hr, rfl⟩ := hrefs id hid
  obtain ⟨array, harray, hlen⟩ := hsc.declares hr
  obtain ⟨-, -, -, hpieces⟩ := access_eq_ok h
  obtain ⟨r', -, -, hr', -, hout, -⟩ := hpieces id hid
  obtain rfl := Option.some.inj (hr.symm.trans hr')
  rw [← hout, hlen, harray, Option.elim_some]

section Questions

variable (hsc : sc.Regular) (hrefs : sc.Finds name refs)
include hsc hrefs

/-- The test for reuse reports no mismatch on references to one array. -/
theorem noMismatch_hasReuse : NoMismatch (sc.hasReuse refs) := by
  simp [hasReuse, noMismatch_access hsc hrefs le_rfl]

/-- The test for coalesced accesses reports no mismatch on references to one array. -/
theorem noMismatch_isCoalesced : NoMismatch (sc.isCoalesced refs) := by
  simp [isCoalesced, noMismatch_access hsc hrefs hsc.laidOut.pointLoops_le_depth]

/-- The test for one thread per element reports no mismatch on references to one array. -/
theorem noMismatch_isBijective : NoMismatch (sc.isBijective refs) := by
  simp [isBijective, noMismatch_access hsc hrefs hsc.laidOut.pointLoops_le_depth,
    noMismatch_access hsc hrefs hsc.laidOut.privateLen_le_depth]

end Questions

end Scope

/-! ## joining -/

section Join

variable {ε α β : Type} {P : ε → Prop} {R : α → Prop} {join : α → α → Outcome ε (Option (α × β))}

/-- Joining one element with a list ends well if joining it with each of them does. -/
theorem ends_joinWith {a : α} {bs : List α}
    (hjoin : ∀ b ∈ bs, Ends P (fun found => ∀ c ∈ found, R c.1) (join a b)) (hbs : ∀ b ∈ bs, R b) :
    Ends P (fun found => ∀ c ∈ found, R c.1.1 ∧ ∀ b ∈ c.2, R b) (joinWith join a bs) := by
  induction bs with
  | nil => simp [joinWith]
  | cons b bs ih =>
      obtain ⟨hfirst, hrest⟩ := List.forall_mem_cons.mp hjoin
      obtain ⟨hb, hbs⟩ := List.forall_mem_cons.mp hbs
      refine hfirst.bind ?_
      rintro (_ | ⟨c, x⟩) hfound
      · refine (ih hrest hbs).bind ?_
        rintro (_ | ⟨⟨c, x⟩, rest⟩) hfound
        · simp
        · simpa [hb] using hfound
      · simpa using ⟨hfound (c, x) rfl, hbs⟩

/-- If pairs of elements in `R` join to elements in `R`, so do all rounds of joining. -/
theorem ends_joinFirst {as : List α}
    (hjoin : ∀ a b, R a → R b → Ends P (fun found => ∀ c ∈ found, R c.1) (join a b))
    (has : ∀ a ∈ as, R a) :
    Ends P (fun found => ∀ c ∈ found, ∀ a ∈ c.1, R a) (joinFirst join as) := by
  induction as with
  | nil => simp [joinFirst]
  | cons a as ih =>
      obtain ⟨ha, has⟩ := List.forall_mem_cons.mp has
      refine (ends_joinWith (fun b hb => hjoin a b ha (has b hb)) has).bind ?_
      rintro (_ | ⟨⟨c, x⟩, rest⟩) hfound
      · refine (ih has).bind ?_
        rintro (_ | ⟨rest, x⟩) hfound
        · simp
        · simpa [ha] using hfound
      · simpa using hfound

end Join

/-! ## groups -/

namespace Group

variable {sc : Scope} {name : String} {gs : List Group} {a b g g' : Group} {id depth : Nat}

/-- The group has references, all of them to the array, and is copied outside of the thread
loops. -/
structure Ready (sc : Scope) (name : String) (g : Group) : Prop where
  nonempty : g.refs ≠ []
  describes : g.Describes sc name
  copyLevel_le : g.copyLevel ≤ sc.schedule.sharedLen

namespace Ready

/-- The union of groups that are ready is ready. -/
theorem merge (ha : Ready sc name a) (hb : Ready sc name b) :
    Ready sc name (Group.merge sc a b) where
  nonempty hnil := by
    have hperm : (Group.merge sc a b).refs.Perm (a.refs ++ b.refs) := Sorted.perm_sortBy _ _
    simp [hnil, ha.nonempty] at hperm
  describes := ha.describes.merge hb.describes
  copyLevel_le := by
    have hlast : (Group.merge sc a b).lastShared = if a.copyLevel < b.copyLevel then b.lastShared
        else a.lastShared :=
      rfl
    rw [copyLevel, hlast]
    split
    · exact hb.copyLevel_le
    · exact ha.copyLevel_le

/-- A group with the core of one that is ready is so too, if it is copied outside of the thread
loops. -/
theorem of_core (h : Ready sc name g) (hcore : g'.core = g.core)
    (hlevel : g'.copyLevel ≤ sc.schedule.sharedLen) : Ready sc name g' :=
  ⟨refs_of_core hcore ▸ h.nonempty, h.describes.of_core hcore, hlevel⟩

/-- The array of a group is declared. -/
theorem exists_array (hsc : sc.Regular) (h : Ready sc name g) :
    ∃ array, sc.program.array? g.array = some array ∧ g.forcePrivate = array.forcePrivate := by
  obtain ⟨id, hid⟩ := List.exists_mem_of_ne_nil _ h.nonempty
  obtain ⟨r, hr, harray⟩ := h.describes.refs id hid
  obtain ⟨array, hfound, -⟩ := hsc.declares hr
  rw [harray] at hfound
  exact ⟨array, h.describes.array ▸ hfound, h.describes.forcePrivate array hfound⟩

/-- The array of a group that is ready is found. -/
theorem reportsOnly_array (hsc : sc.Regular) (h : Ready sc name g) :
    ReportsOnly (MapError.Remains sc.program) (sc.array g.array) := by
  obtain ⟨array, harray, -⟩ := h.exists_array hsc
  simp [Scope.array, harray]

end Ready

/-- A reference to an array makes a group that is ready. -/
theorem ends_ofReference (hsc : sc.Regular) (hid : id ∈ sc.referencesTo name) :
    Ends (MapError.Remains sc.program) (Ready sc name) (ofReference sc id) := by
  obtain ⟨r, hr, rfl⟩ := hsc.finds name id hid
  obtain ⟨array, harray, -⟩ := hsc.declares hr
  refine ⟨by simp [ofReference, Scope.array, hr, harray], fun g hg => ?_⟩
  obtain ⟨hdescribes, hrefs⟩ := Describes.ofReference hr hg
  refine ⟨by simp [hrefs], hdescribes, (copyLevel_of_lastOf ?_).le⟩
  simp only [ofReference, bind_eq_ok, pure_eq_ok] at hg
  obtain ⟨_, -, _, -, rfl⟩ := hg
  rfl

/-! ### tiles -/

/-- Tiles are missing only where the array must be private. -/
theorem ends_computeBounds (hsc : sc.Regular) (hg : Ready sc name g) :
    Ends (MapError.Remains sc.program) (Ready sc name) (computeBounds sc g) := by
  refine ⟨?_, fun g' hg' => hg.of_core (core_of_computeBounds hg')
    (leveled_of_computeBounds hg').le_sharedLen⟩
  have hrefs : sc.Finds name g.refs := hg.describes.refs
  have hshared : ∀ reuse, NoMismatch (inferShared sc g.refs reuse) := by
    intro reuse
    simp [inferShared, wantsShared, Scope.noMismatch_isCoalesced hsc hrefs,
      Scope.noMismatch_access hsc hrefs hsc.sharedLen_le_depth]
  have hprivate : ∀ reuse, NoMismatch (inferPrivate sc g reuse) := by
    intro reuse
    simp [inferPrivate, wantsPrivate, Scope.noMismatch_isBijective hsc hrefs,
      Scope.noMismatch_access hsc hrefs hsc.laidOut.privateLen_le_depth]
  obtain ⟨array, harray, hforce⟩ := hg.exists_array hsc
  have hplacement : g.forcePrivate = true → MapError.Remains sc.program (.placement g.array) :=
    fun h => ⟨array, harray, hforce ▸ h⟩
  simp only [computeBounds, reportsOnly_bind, reportsOnly_ite, reportsOnly_pure, reportsOnly_raise,
    reportsOnly_ofEngine, hg.reportsOnly_array hsc, Scope.noMismatch_hasReuse hsc hrefs,
    hshared, hprivate, Bool.and_eq_true, implies_true, true_and, and_true]
  exact fun _ _ _ _ _ _ _ _ _ _ hforced => hplacement hforced.1

/-! ### merging -/

/-- Groups of one array have accesses of one shape. -/
theorem noMismatch_overlap (hsc : sc.Regular) (ha : Ready sc name a) (hb : Ready sc name b)
    (hdepth : depth ≤ sc.schedule.depth) : NoMismatch (overlap sc depth a b) := by
  simp only [overlap, reportsOnly_bind, Scope.noMismatch_access hsc ha.describes.refs hdepth,
    Scope.noMismatch_access hsc hb.describes.refs hdepth, true_and]
  intro x hx y hy
  have hin : x.nIn = y.nIn := (Scope.access_eq_ok hx).2.2.1.trans (Scope.access_eq_ok hy).2.2.1.symm
  have hout : x.nOut = y.nOut := (Scope.nOut_of_access hsc ha.describes.refs ha.nonempty hx).trans
    (Scope.nOut_of_access hsc hb.describes.refs hb.nonempty hy).symm
  exact Access.noMismatch_overlaps x hin hout

/-- Merging groups that are ready gives such groups, if finishing a union does. -/
theorem ends_mergeRounds (hsc : sc.Regular) {depthOf : Group → Group → Nat}
    {finish : Group → Outcome MapError Group} (hdepth : ∀ a b, Ready sc name a → Ready sc name b →
      depthOf a b ≤ sc.schedule.depth)
    (hfinish : ∀ g, Ready sc name g → Ends (MapError.Remains sc.program) (Ready sc name) (finish g))
    (hgs : ∀ g ∈ gs, Ready sc name g) (n : Nat) :
    Ends (MapError.Remains sc.program) (fun gs => ∀ g ∈ gs, Ready sc name g)
      (mergeRounds (mergeWriting sc depthOf finish) n gs) := by
  have hjoin : ∀ a b, Ready sc name a → Ready sc name b →
      Ends (MapError.Remains sc.program) (fun found => ∀ c ∈ found, Ready sc name c.1)
        (mergeWriting sc depthOf finish a b) := by
    intro a b ha hb
    unfold mergeWriting
    split
    · simp
    refine (reportsOnly_ofEngine.mpr (noMismatch_overlap hsc ha hb (hdepth a b ha hb))).bind
      fun overlapping => ?_
    split
    · exact (hfinish _ (ha.merge hb)).bind fun c hc => by simpa using hc
    · simp
  induction n generalizing gs with
  | zero => simpa [mergeRounds] using hgs
  | succ n ih =>
      refine (ends_joinFirst hjoin hgs).bind ?_
      rintro (_ | ⟨gs', x⟩) hfound
      · simpa using hgs
      · exact ih (hfound (gs', x) rfl)

/-- Merging on copy levels keeps groups ready. -/
theorem ends_mergeOnLastShared (hsc : sc.Regular) (hgs : ∀ g ∈ gs, Ready sc name g) :
    Ends (MapError.Remains sc.program) (fun gs => ∀ g ∈ gs, Ready sc name g)
      (mergeOnLastShared sc gs) :=
  ends_mergeRounds hsc
    (fun _ _ ha _ => (min_le_left _ _).trans (ha.copyLevel_le.trans hsc.sharedLen_le_depth))
    (fun _ => ends_computeBounds hsc) hgs _

/-- Two groups that are ready may become one that is ready. -/
theorem ends_coalescePair (hsc : sc.Regular) (elementSize : Nat) (ha : Ready sc name a)
    (hb : Ready sc name b) (hdepth : depth ≤ sc.schedule.depth) :
    Ends (MapError.Remains sc.program) (fun found => ∀ c ∈ found, Ready sc name c.1)
      (coalescePair sc elementSize depth a b) := by
  unfold coalescePair
  split
  · refine (reportsOnly_ofEngine.mpr (noMismatch_overlap hsc ha hb hdepth)).bind
      fun overlapping => ?_
    split
    · refine (ends_computeBounds hsc (ha.merge hb)).bind fun c hc => ?_
      split
      · split
        · rw [ends_pure]
          rintro _ ⟨⟩
          exact hc
        · simp
      · simp
    · simp
  · simp

/-- Merging for smaller tiles keeps groups ready. -/
theorem ends_coalesceShared (hsc : sc.Regular) (hgs : ∀ g ∈ gs, Ready sc name g) :
    Ends (MapError.Remains sc.program) (fun gs => ∀ g ∈ gs, Ready sc name g)
      (coalesceShared sc gs) := by
  have hrounds : ∀ elementSize n gs, (∀ g ∈ gs, Ready sc name g) →
      Ends (MapError.Remains sc.program) (fun gs => ∀ g ∈ gs, Ready sc name g)
        (coalesceRounds sc elementSize (sc.effectiveDepth sc.schedule.sharedLen) n gs) := by
    intro elementSize n
    induction n with
    | zero => exact fun gs hgs => by simpa [coalesceRounds] using hgs
    | succ n ih =>
        intro gs hgs
        refine (ends_joinFirst (fun a b ha hb =>
          ends_coalescePair hsc elementSize ha hb hsc.effectiveDepth_le_depth) hgs).bind ?_
        rintro (_ | ⟨gs', moved⟩) hfound
        · simpa using hgs
        · have hgs' := hfound (gs', moved) rfl
          cases moved with
          | true => exact (ends_mergeOnLastShared hsc hgs').bind ih
          | false => exact ih gs' hgs'
  unfold coalesceShared
  split
  · simp
  next g _ =>
  exact ((hgs g (by simp)).reportsOnly_array hsc).bind fun array => hrounds _ _ _ hgs

/-! ### all groups -/

/-- The groups made from the references to an array are ready. -/
theorem ends_ofReferences (hsc : sc.Regular) (name : String) :
    Ends (MapError.Remains sc.program) (fun gs => ∀ g ∈ gs, Ready sc name g)
      (ofReferences sc (sc.referencesTo name)) := by
  refine (ends_mapM fun id hid => ends_ofReference hsc hid).bind fun gs₁ h₁ => ?_
  refine (ends_mergeRounds hsc (fun _ _ _ _ => hsc.effectiveDepth_le_depth)
    (fun g hg => ends_ok.mpr hg) h₁ _).bind fun gs₂ h₂ => ?_
  refine (ends_mapM fun g hg => ends_computeBounds hsc (h₂ g hg)).bind fun gs₃ h₃ => ?_
  refine (ends_mergeOnLastShared hsc h₃).bind fun gs₄ h₄ =>
    (ends_coalesceShared hsc h₄).bind fun gs₅ h₅ => ?_
  rw [ends_pure]
  intro g hg
  obtain ⟨⟨nr, g₀⟩, hmem, rfl⟩ := List.mem_map.mp hg
  have hg₀ := h₅ g₀ (List.of_mem_zip hmem).2
  exact hg₀.of_core rfl hg₀.copyLevel_le

/-- The groups of a kernel are formed unless numbers get too large or an array cannot be private. -/
theorem ends_all (hsc : sc.Regular) :
    Ends (MapError.Remains sc.program) (fun gs => ∀ g ∈ gs, ∃ name, Ready sc name g) (all sc) := by
  have harrays : ∀ arrays, Ends (MapError.Remains sc.program)
      (fun gs => ∀ g ∈ gs, ∃ name, Ready sc name g) (ofArrays sc arrays) := by
    intro arrays
    induction arrays with
    | nil => simp [ofArrays]
    | cons array arrays ih =>
        refine (ends_ofReferences hsc array.name).bind fun gs hgs => ih.bind fun rest hrest => ?_
        rw [ends_pure]
        intro g hg
        exact (List.mem_append.mp hg).elim (fun hg => ⟨array.name, hgs g hg⟩) (hrest g)
  exact harrays _

/-! ### stages after grouping -/

/-- The check of unrolled loops reports no mismatch on groups that are ready. -/
theorem noMismatch_checkUnroll (hsc : sc.Regular) (hgs : ∀ g ∈ gs, ∃ name, Ready sc name g) :
    NoMismatch (checkUnroll sc gs) := by
  have hpositions : ∀ {acc : Outcome EngineError Access}, NoMismatch acc →
      ∀ js, NoMismatch (dependentPositions acc js) := by
    intro acc hacc js
    induction js with
    | nil => simp [dependentPositions]
    | cons j js ih => simp [dependentPositions, hacc, ih]
  have hcoincident : ∀ js, NoMismatch (allCoincident sc.schedule js) := by
    intro js
    induction js with
    | nil => simp [allCoincident]
    | cons j js ih =>
        unfold allCoincident
        split <;> simp [ih]
  have heach : NoMismatch (checkEach sc gs) := by
    induction gs with
    | nil => simp [checkEach]
    | cons g gs ih =>
        obtain ⟨⟨name, hg⟩, hgs⟩ := List.forall_mem_cons.mp hgs
        have hacc := Scope.noMismatch_access hsc hg.describes.refs le_rfl
        simp [checkEach, ih hgs, hpositions hacc, hcoincident]
  simp [checkUnroll, heach]

/-- Fitting groups that are ready into shared memory reports what can remain. -/
theorem reportsOnly_enforceBudget (hsc : sc.Regular) (hgs : ∀ g ∈ gs, ∃ name, Ready sc name g) :
    ReportsOnly (MapError.Remains sc.program) (enforceBudget sc gs) := by
  have hfit : ∀ left, ReportsOnly (MapError.Remains sc.program) (fitInto sc left gs) := by
    induction gs with
    | nil => simp [fitInto]
    | cons g gs ih =>
        obtain ⟨⟨name, hg⟩, hgs⟩ := List.forall_mem_cons.mp hgs
        intro left
        unfold fitInto
        split <;> simp [ih hgs, hg.reportsOnly_array hsc]
  exact hfit _

/-- A group that gives up tiles stays ready. -/
theorem Ready.of_demoted (h : Ready sc name g) (hg : Demoted g g') : Ready sc name g' := by
  refine h.of_core hg.core ?_
  rw [copyLevel, hg.lastShared]
  exact h.copyLevel_le

end Group

end KernelMap
