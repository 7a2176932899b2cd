import KernelMap.Proofs.References
import Mathlib.Algebra.Group.Nat.Units

/-!
# KernelMap.Proofs.ReferenceList

How often a kernel lists its references.

The references are found by array, then statement, then position, each matched by name or number.
The kernel of a region has its statements, as often as the region lists them
(`KernelSchedule.reflects_of_build`). A reference of a valid program is known by its number, so it
is listed once for each pair of a declaration of its array and a place of its statement in the
region (`Scope.count_ids`).  Valid programs may repeat both: nothing is listed twice exactly if the
region and the declarations repeat nothing that the references of the kernel need
(`Scope.nodup_ids_iff`).
-/

namespace KernelMap

/-! ## statements and parameters of a kernel -/

namespace KernelSchedule

/-- The kernel has the statements of the region, in order, and the parameters of the program
followed by those of its ids. -/
structure Reflects (k : KernelSchedule) (p : Program) (region : Region) : Prop where
  numbers : k.statements.map (·.stmt) = region.statements
  isSome : ∀ i ∈ region.statements, p.statements[i]?.isSome
  nProgramParam : k.nProgramParam = p.params.length
  paramNames : k.paramNames = p.params ++ idNames "b" k.nGrid ++ idNames "t" k.nBlock

variable {p : Program} {region : Region} {o : Options} {k : KernelSchedule}

/-- Cutting into tiles and dealing out keep the number of the statement. -/
theorem stmt_of_parametrize {nParam tileFirst i : Nat} {ts : List Int} {grid block : List Share}
    {t : TiledStmt} {part : TiledStmt × Dealt} {r : SpreadStmt} {st : StmtSchedule}
    (ht : TiledStmt.build p nParam tileFirst ts i = .ok t)
    (hpart : SpreadStmt.dealTiles grid t = .ok part) (hr : SpreadStmt.dealPoints block part = .ok r)
    (hst : r.parametrize p.nParam = .ok st) : st.stmt = i ∧ p.statements[i]?.isSome := by
  simp only [TiledStmt.build, Outcome.bind_eq_ok, Outcome.orFault_eq_ok] at ht
  obtain ⟨stmt, hstmt, _, -, ht⟩ := ht
  split at ht
  · simp at ht
  simp only [Outcome.bind_eq_ok, Outcome.pure_eq_ok] at ht
  obtain ⟨cut, -, _, -, rfl⟩ := ht
  simp only [SpreadStmt.dealTiles, Outcome.bind_eq_ok, Outcome.pure_eq_ok] at hpart
  obtain ⟨tiles, -, rfl⟩ := hpart
  simp only [SpreadStmt.dealPoints, Outcome.bind_eq_ok, Outcome.pure_eq_ok] at hr
  obtain ⟨dealt, -, rfl⟩ := hr
  simp only [SpreadStmt.parametrize, Outcome.bind_eq_ok, Outcome.pure_eq_ok] at hst
  obtain ⟨blockEqs, -, threadEqs, -, rfl⟩ := hst
  exact ⟨rfl, by rw [hstmt]; rfl⟩

/-- The kernel of a region has its statements. -/
theorem reflects_of_build (hk : build p region o = .ok k) : k.Reflects p region := by
  obtain ⟨_, tiled, shares, parts, spread, k₀, ss, stage, hassembles, hss, rfl⟩ :=
    exists_assembles_of_build hk
  have hchain : List.Forall₂ (fun i (st : StmtSchedule) => st.stmt = i ∧ p.statements[i]?.isSome)
      region.statements ss := by
    refine (((((Outcome.mapM_eq_ok.mp hassembles.cut).comp
      (Outcome.mapM_eq_ok.mp hassembles.dealTiles)).comp
      (Outcome.mapM_eq_ok.mp hassembles.dealPoints)).comp
      (Outcome.mapM_eq_ok.mp hassembles.parametrize)).comp hss.each).imp ?_
    rintro i _ ⟨st, ⟨r, ⟨part, ⟨t, ht, hpart⟩, hr⟩, hst⟩, dims, -, rfl⟩
    have hnumber := stmt_of_parametrize ht hpart hr hst
    exact hnumber
  refine ⟨?_, fun i hi => ?_, hassembles.nProgramParam, hassembles.paramNames⟩
  · rw [← List.forall₂_eq_eq_eq, List.forall₂_map_left_iff]
    exact hchain.flip.imp fun _ _ h => h.1
  · obtain ⟨st, -, -, hsome⟩ := hchain.exists_of_mem_left hi
    exact hsome

end KernelSchedule

/-! ## counting references -/

theorem sum_map_ite {α : Type} (q : α → Bool) (n : Nat) (xs : List α) :
    (xs.map fun x => if q x then n else 0).sum = xs.countP q * n := by
  induction xs with
  | nil => simp
  | cons x xs ih =>
      rw [List.map_cons, List.sum_cons, ih, List.countP_cons]
      split <;> ring

namespace Program

variable {p : Program}

/-- The numbers of the references of statement `i` to an array. -/
def idsOf (p : Program) (array : String) (i : Nat) : List Nat :=
  (((p.statements[i]?.map (·.references)).getD []).filter (·.array == array)).map (·.id)

/-- The numbers listed for a statement are those of its references to the array. -/
theorem mem_idsOf {array : String} {i id : Nat} :
    id ∈ p.idsOf array i ↔ ∃ stmt, p.statements[i]? = some stmt ∧ ∃ r ∈ stmt.references,
      r.array = array ∧ r.id = id := by
  cases h : p.statements[i]? with
  | none => simp [idsOf, h]
  | some stmt => simp [idsOf, h, and_assoc]

/-- In a valid program, no number is listed twice for a statement. -/
theorem nodup_idsOf (hp : p.validate = .ok ()) (array : String) (i : Nat) :
    (p.idsOf array i).Nodup := by
  cases h : p.statements[i]? with
  | none => simp [idsOf, h]
  | some stmt =>
      have hnodup := (references_of_validate hp).1
      rw [references, List.map_flatMap, List.nodup_flatMap] at hnodup
      have hsub : (p.idsOf array i).Sublist (stmt.references.map (·.id)) := by
        simpa [idsOf, h] using (List.filter_sublist (l := stmt.references)).map _
      exact (hnodup.1 stmt (List.mem_of_getElem? h)).sublist hsub

/-- A number occurs once in the statement and array of its reference, and nowhere else. -/
theorem count_idsOf (hp : p.validate = .ok ()) {i : Nat} {stmt : Statement} {r : Reference}
    (hstmt : p.statements[i]? = some stmt) (hr : r ∈ stmt.references) (array : String) (j : Nat) :
    (p.idsOf array j).count r.id = if array == r.array && j == i then 1 else 0 := by
  have hmem : r.id ∈ p.idsOf array j ↔ array = r.array ∧ j = i := by
    rw [mem_idsOf]
    constructor
    · rintro ⟨stmt', hstmt', r', hr', rfl, hid⟩
      obtain rfl : r' = r :=
        eq_of_id_eq hp (mem_references.mpr ⟨stmt', List.mem_of_getElem? hstmt', hr'⟩)
          (mem_references.mpr ⟨stmt, List.mem_of_getElem? hstmt, hr⟩) hid
      exact ⟨rfl, number_eq_of_mem_references hp hstmt' hstmt hr' hr⟩
    · rintro ⟨rfl, rfl⟩
      exact ⟨stmt, hstmt, r, hr, rfl, rfl⟩
  by_cases h : array = r.array ∧ j = i
  · rw [List.count_eq_one_of_mem (nodup_idsOf hp array j) (hmem.mpr h)]
    simp [h]
  · rw [List.count_eq_zero_of_not_mem (hmem.not.mpr h)]
    simp only [Bool.and_eq_true, beq_iff_eq, h, if_false]

end Program

namespace Scope

variable {p : Program} {region : Region} {o : Options} {k : KernelSchedule}

/-- The numbers of the references to an array, statement by statement of the region. -/
theorem ids_locate (hk : k.Reflects p region) (array : String) :
    (locate p k array).map (·.reference.id) = region.statements.flatMap (p.idsOf array) := by
  have hstatements : k.statements =
      ((List.range k.statements.length).zip k.statements).map Prod.snd :=
    (List.map_snd_zip (by simp)).symm
  rw [locate, List.map_flatMap, ← hk.numbers, List.flatMap_map]
  conv_rhs => rw [hstatements, List.flatMap_map]
  congr 1
  funext ⟨i, st⟩
  cases h : p.statements[st.stmt]? with
  | none => simp [Program.idsOf, h]
  | some stmt => simp [Program.idsOf, h]

/-- The references of a kernel are listed by array, statement and position. -/
theorem ids_ofSchedule (hk : k.Reflects p region) : (ofSchedule p o k).refs.map (·.reference.id) =
    p.arrays.flatMap fun a => region.statements.flatMap (p.idsOf a.name) := by
  simp only [ofSchedule, List.map_flatMap, ids_locate hk]

/-- A reference is listed once for each declaration of its array and each mention of its
statement. -/
theorem count_ids (hp : p.validate = .ok ()) (hk : k.Reflects p region) {i : Nat} {stmt : Statement}
    {r : Reference} (hstmt : p.statements[i]? = some stmt) (hr : r ∈ stmt.references) :
    ((ofSchedule p o k).refs.map (·.reference.id)).count r.id =
      p.arrays.countP (·.name == r.array) * region.statements.count i := by
  have hstatements : ∀ a : ArrayDecl, (region.statements.flatMap (p.idsOf a.name)).count r.id =
      if a.name == r.array then region.statements.count i else 0 := by
    intro a
    rw [List.count_flatMap]
    by_cases h : a.name = r.array
    · have hcount := sum_map_ite (· == i) 1 region.statements
      simpa [Function.comp_def, Program.count_idsOf hp hstmt hr, h,
        ← List.count_eq_countP'] using hcount
    · simp [Function.comp_def, Program.count_idsOf hp hstmt hr, h]
  rw [ids_ofSchedule hk, List.count_flatMap, ← sum_map_ite]
  simp only [Function.comp_def, hstatements]

/-- The references of a kernel are those of the statements in its region. -/
theorem mem_ids (hp : p.validate = .ok ()) (hk : k.Reflects p region) {id : Nat} :
    id ∈ (ofSchedule p o k).refs.map (·.reference.id) ↔
      ∃ i ∈ region.statements, ∃ stmt, p.statements[i]? = some stmt ∧ ∃ r ∈ stmt.references,
        r.id = id := by
  simp only [ids_ofSchedule hk, List.mem_flatMap, Program.mem_idsOf]
  constructor
  · rintro ⟨a, -, i, hi, stmt, hstmt, r, hr, -, hid⟩
    exact ⟨i, hi, stmt, hstmt, r, hr, hid⟩
  · rintro ⟨i, hi, stmt, hstmt, r, hr, hid⟩
    obtain ⟨a, ha, -⟩ := (Program.references_of_validate hp).2 r
      (Program.mem_references.mpr ⟨stmt, List.mem_of_getElem? hstmt, hr⟩)
    have hname : a.name = r.array := by simpa using List.find?_some ha
    exact ⟨a, List.mem_of_find?_eq_some ha, i, hi, stmt, hstmt, r, hr, hname.symm, hid⟩

/-- The region lists every statement with references once, and their arrays are declared once. -/
def ListsOnce (p : Program) (region : Region) : Prop :=
  ∀ i ∈ region.statements, ∀ stmt ∈ p.statements[i]?, ∀ r ∈ stmt.references,
    p.arrays.countP (·.name == r.array) = 1 ∧ region.statements.count i = 1

instance (p : Program) (region : Region) : Decidable (ListsOnce p region) :=
  inferInstanceAs
    (Decidable (∀ i ∈ region.statements, ∀ stmt ∈ p.statements[i]?, ∀ r ∈ stmt.references,
      p.arrays.countP (·.name == r.array) = 1 ∧ region.statements.count i = 1))

/-- No number occurs twice exactly if nothing that leads to it does. -/
theorem nodup_ids_iff (hp : p.validate = .ok ()) (hk : k.Reflects p region) :
    ((ofSchedule p o k).refs.map (·.reference.id)).Nodup ↔ ListsOnce p region := by
  rw [List.nodup_iff_count_eq_one]
  constructor
  · intro h i hi stmt hstmt r hr
    rw [← mul_eq_one, ← count_ids hp hk hstmt hr]
    exact h _ ((mem_ids hp hk).mpr ⟨i, hi, stmt, hstmt, r, hr, rfl⟩)
  · intro h id hid
    obtain ⟨i, hi, stmt, hstmt, r, hr, rfl⟩ := (mem_ids hp hk).mp hid
    rw [count_ids hp hk hstmt hr, mul_eq_one]
    exact h i hi stmt hstmt r hr

/-- The references to an array are found once for each of its declarations. -/
theorem referencesTo_ofSchedule (name : String) : (ofSchedule p o k).referencesTo name =
    (p.arrays.filter (·.name == name)).flatMap fun _ => (locate p k name).map (·.reference.id) := by
  have hfilter : ∀ a : ArrayDecl, (locate p k a.name).filter (·.reference.array == name) =
      if a.name == name then locate p k name else [] := by
    intro a
    split
    · next h =>
      rw [beq_iff_eq] at h
      rw [h, List.filter_eq_self]
      intro l hl
      simp [array_of_mem_locate hl]
    · next h =>
      rw [List.filter_eq_nil_iff]
      intro l hl
      rwa [array_of_mem_locate hl]
  simp only [referencesTo, ofSchedule, List.filter_flatMap, hfilter]
  induction p.arrays with
  | nil => rfl
  | cons a arrays ih =>
      rw [List.flatMap_cons, List.map_append, ih, List.filter_cons]
      split <;> simp

/-- If nothing is listed twice, the references to the declared arrays are the list of the kernel. -/
theorem flatMap_referencesTo (hk : k.Reflects p region) (h : ListsOnce p region) :
    (p.arrays.flatMap fun a => (ofSchedule p o k).referencesTo a.name) =
      (ofSchedule p o k).refs.map (·.reference.id) := by
  have harray : ∀ a ∈ p.arrays, (ofSchedule p o k).referencesTo a.name =
      (locate p k a.name).map (·.reference.id) := by
    intro a ha
    rw [referencesTo_ofSchedule]
    cases hlocate : locate p k a.name with
    | nil => simp
    | cons l ls =>
        have hl : l ∈ locate p k a.name := by simp [hlocate]
        obtain ⟨st, stmt, hst, hstmt, hr⟩ : (ofSchedule p o k).Has l := has_of_mem_locate hl
        have hnumber : st.stmt ∈ region.statements :=
          hk.numbers ▸ List.mem_map_of_mem (List.mem_of_getElem? hst)
        obtain ⟨hcount, -⟩ := h st.stmt hnumber stmt hstmt l.reference hr
        rw [array_of_mem_locate hl, List.countP_eq_length_filter, List.length_eq_one_iff] at hcount
        obtain ⟨a', ha'⟩ := hcount
        simp [ha']
  rw [List.flatMap_congr harray]
  simp only [ofSchedule, List.map_flatMap]

/-- A kernel lists a reference of its statements once for each time that the region lists the
statement and each declaration of the array.  So no number occurs twice exactly if both are one for
every reference; numbers then find their references and the places of these in the list, and the
references to the declared arrays make up the list. -/
theorem references_are_listed_by_declaration (hp : p.validate = .ok ())
    (hk : KernelSchedule.build p region o = .ok k) :
    (∀ l ∈ (ofSchedule p o k).refs, (ofSchedule p o k).Has l) ∧
      (∀ i ∈ region.statements, ∃ stmt, p.statements[i]? = some stmt ∧ ∀ r ∈ stmt.references,
        ((ofSchedule p o k).refs.map (·.reference.id)).count r.id =
          p.arrays.countP (·.name == r.array) * region.statements.count i) ∧
      (((ofSchedule p o k).refs.map (·.reference.id)).Nodup ↔ ListsOnce p region) ∧
      (ListsOnce p region →
        (∀ j l, (ofSchedule p o k).refs[j]? = some l →
          (ofSchedule p o k).reference? l.reference.id = some l ∧
          (ofSchedule p o k).order l.reference.id = j) ∧
        (p.arrays.flatMap fun a => (ofSchedule p o k).referencesTo a.name) =
          (ofSchedule p o k).refs.map (·.reference.id)) := by
  have hreflects := KernelSchedule.reflects_of_build hk
  refine ⟨fun l => has_of_mem_refs, fun i hi => ?_, nodup_ids_iff hp hreflects,
    fun h => ⟨fun j l hl => ?_, ?_⟩⟩
  · obtain ⟨stmt, hstmt⟩ := Option.isSome_iff_exists.mp (hreflects.isSome i hi)
    exact ⟨stmt, hstmt, fun r => count_ids hp hreflects hstmt⟩
  · have hnodup := (nodup_ids_iff (o := o) hp hreflects).mpr h
    exact ⟨reference?_of_mem hnodup (List.mem_of_getElem? hl), order_of_getElem? hnodup hl⟩
  · exact flatMap_referencesTo hreflects h

/-! ### repeated declarations and statements -/

def scanRegion (numbers : List Nat) : Region := ⟨numbers, 0, 1, [false]⟩

/-- `for i: S reads A[i]`, with arrays of the given names, in a region that lists `S` as given. -/
def scanProgram (names : List String) (numbers : List Nat) : Program where
  params := []
  context := []
  arrays := names.map (.ofShape · "float" 4 1)
  statements := [⟨"S", ["i"], [.ge (.var 0), .ge ⟨[-1], 7⟩], [.var 0],
    [⟨0, "A", .read, true, [.single (.var 0)]⟩]⟩]
  regions := [scanRegion numbers]

def scanOptions : Options := { Options.default with tileSizes := [2] }

/-- The numbers of the references of the kernel, if there is one. -/
def scanIds (p : Program) (region : Region) : Option (List Nat) :=
  (KernelSchedule.build p region scanOptions).toOption.map fun k =>
    (ofSchedule p scanOptions k).refs.map (·.reference.id)

theorem exists_scanKernel {ids : List Nat} (h : scanIds p region = some ids) :
    ∃ k, KernelSchedule.build p region scanOptions = .ok k ∧
      (ofSchedule p scanOptions k).refs.map (·.reference.id) = ids := by
  obtain ⟨k, hk, hids⟩ := Option.map_eq_some_iff.mp h
  exact ⟨k, Outcome.toOption_eq_some.mp hk, hids⟩

def repeatedScan : Program := scanProgram ["A", "A"] [0, 0]

def singleScan : Program := scanProgram ["B", "A", "B"] [0]

/-- Two declarations of `A` and two runs of `S` make four entries of one reference; two declarations
of an array without references change nothing. -/
theorem scan_lists_by_declaration :
    (repeatedScan.validate = .ok () ∧ ∃ k,
      KernelSchedule.build repeatedScan (scanRegion [0, 0]) scanOptions = .ok k ∧
        ((ofSchedule repeatedScan scanOptions k).refs.map (·.reference.id)).count 0 = 2 * 2) ∧
      singleScan.validate = .ok () ∧ ∃ k,
        KernelSchedule.build singleScan (scanRegion [0]) scanOptions = .ok k ∧
        ((ofSchedule singleScan scanOptions k).refs.map (·.reference.id)).Nodup := by
  have hrepeated : repeatedScan.validate = .ok () ∧ scanIds repeatedScan (scanRegion [0, 0]) =
      some [0, 0, 0, 0] := by
    decide +kernel
  have hsingle : singleScan.validate = .ok () ∧ scanIds singleScan (scanRegion [0]) = some [0] := by
    decide +kernel
  obtain ⟨k, hk, -⟩ := exists_scanKernel hrepeated.2
  obtain ⟨k', hk', -⟩ := exists_scanKernel hsingle.2
  refine ⟨⟨hrepeated.1, k, hk, ?_⟩, hsingle.1, k', hk', ?_⟩
  · obtain ⟨stmt, hstmt, hcount⟩ :=
      (references_are_listed_by_declaration hrepeated.1 hk).2.1 0 (by decide)
    obtain rfl := Option.some.inj hstmt
    exact hcount _ (List.mem_singleton_self _)
  · exact (references_are_listed_by_declaration hsingle.1 hk').2.2.1.mpr (by decide)

def declaredTwice : Program := scanProgram ["A", "A"] [0]

def runTwice : Program := scanProgram ["A"] [0, 0]

/-- A valid program can declare an array twice, and a region can list a statement twice.  The kernel
then lists a reference twice. -/
theorem reference_is_listed_twice :
    scanOptions.validate = .ok () ∧
      (declaredTwice.validate = .ok () ∧ ∃ k,
        KernelSchedule.build declaredTwice (scanRegion [0]) scanOptions = .ok k ∧
        ¬ ((ofSchedule declaredTwice scanOptions k).refs.map (·.reference.id)).Nodup) ∧
      runTwice.validate = .ok () ∧ ∃ k,
        KernelSchedule.build runTwice (scanRegion [0, 0]) scanOptions = .ok k ∧
        ¬ ((ofSchedule runTwice scanOptions k).refs.map (·.reference.id)).Nodup := by
  have hdeclared : declaredTwice.validate = .ok () ∧ scanIds declaredTwice (scanRegion [0]) =
      some [0, 0] := by
    decide +kernel
  have hrun : runTwice.validate = .ok () ∧ scanIds runTwice (scanRegion [0, 0]) = some [0, 0] := by
    decide +kernel
  obtain ⟨k, hk, hids⟩ := exists_scanKernel hdeclared.2
  obtain ⟨k', hk', hids'⟩ := exists_scanKernel hrun.2
  refine ⟨by decide, ⟨hdeclared.1, k, hk, ?_⟩, hrun.1, k', hk', ?_⟩
  · rw [hids]
    decide
  · rw [hids']
    decide

end Scope

end KernelMap
