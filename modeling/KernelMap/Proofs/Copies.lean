import KernelMap.Body.Basic
import KernelMap.Proofs.Coverage
import KernelMap.Proofs.Grouping
import Mathlib.Data.List.Perm.Subperm

/-!
# KernelMap.Proofs.Copies

The copies of a kernel body have every value that is needed and lose none.

A read of a group is copied in or finds its value in the local copy, and a write is copied out
unless nothing else reads the array.  That nothing else reads it is decided by counting: the group
has as many reads as the program has of the array, so it has them all
(`Body.mem_refsWhere_of_count`).

Main statement: `Body.copies_keep_values`.
-/

namespace KernelMap

namespace Body

variable {sc : Scope} {g : Group} {level : Nat}

/-! ## needs -/

/-- Each of the reads is left over unless one of the writes is found to cover it. -/
theorem uncovered_eq_ok {writes reads needed : List Nat}
    (h : uncovered sc writes level reads = .ok needed) :
    ∀ r ∈ reads, r ∈ needed ∨ ∃ w ∈ writes, sc.isCovered r w level = .ok true := by
  induction reads generalizing needed with
  | nil => simp
  | cons r reads ih =>
      simp only [uncovered, Outcome.bind_eq_ok] at h
      obtain ⟨found, hfound, h⟩ := h
      cases found with
      | true => exact List.forall_mem_cons.mpr ⟨Or.inr (Outcome.exists_of_anyM hfound), ih h⟩
      | false =>
          simp only [Bool.false_eq_true, if_false, Outcome.bind_eq_ok, Outcome.pure_eq_ok] at h
          obtain ⟨rest, hrest, rfl⟩ := h
          exact List.forall_mem_cons.mpr
            ⟨by simp, fun x hx => (ih hrest x hx).imp_left (List.mem_cons_of_mem r)⟩

/-- The references to copy: reads are copied in or covered, writes that may leave out elements are
copied in, and writes are copied out unless the array is internal and the covered reads of the group
are all there are. -/
theorem copyNeeds_eq_ok {name : String} (hg : g.Describes sc name) {needs : CopyNeeds}
    (h : copyNeeds sc g level = .ok needs) :
    (∀ r ∈ refsWhere sc g (!·.isWrite), r ∈ needs.into ∨
      ∃ w ∈ refsWhere sc g (·.isWrite), sc.isCovered r w level = .ok true) ∧
    (g.definiteWrite = false → ∀ w ∈ refsWhere sc g (·.isWrite), w ∈ needs.into) ∧
    ∀ w ∈ refsWhere sc g (·.isWrite), w ∈ needs.out ∨
      (∃ array, sc.program.array? g.array = some array ∧ array.internal = true) ∧
      sc.program.references.countP (fun r => r.array == g.array && r.isRead) ≤
        (refsWhere sc g (!·.isWrite)).length ∧
      ∀ r ∈ refsWhere sc g (!·.isWrite), ∃ w ∈ refsWhere sc g (·.isWrite),
        sc.isCovered r w level = .ok true := by
  simp only [copyNeeds, Outcome.bind_eq_ok, Outcome.ofEngine_eq_ok] at h
  obtain ⟨needed, hneeded, h⟩ := h
  have hcovered := uncovered_eq_ok hneeded
  have hinto : needs.into = (if g.definiteWrite then needed else
      Sorted.sortBy sc.order (needed ++ refsWhere sc g (·.isWrite))) := by
    split at h
    · simp only [Outcome.bind_eq_ok] at h
      obtain ⟨array, -, h⟩ := h
      split at h <;> rw [← Outcome.pure_eq_ok.mp h]
    · rw [← Outcome.pure_eq_ok.mp h]
  have hmem : ∀ id, id ∈ needed ∨ (g.definiteWrite = false ∧ id ∈ refsWhere sc g (·.isWrite)) →
      id ∈ needs.into := by
    intro id hid
    rw [hinto]
    split
    · next hdefinite => simpa [hdefinite] using hid
    · rw [(Sorted.perm_sortBy _ _).mem_iff, List.mem_append]
      exact hid.imp_right And.right
  refine ⟨fun r hr => (hcovered r hr).imp_left fun hr => hmem r (Or.inl hr), fun hdefinite w hw =>
    hmem w (Or.inr ⟨hdefinite, hw⟩), fun w hw => ?_⟩
  have hwrite : g.write = true := by
    rw [hg.write, List.any_eq_true]
    exact ⟨w, (List.mem_filter.mp hw).1, (List.mem_filter.mp hw).2⟩
  simp only [hwrite, if_true, Outcome.bind_eq_ok, Scope.array, Outcome.orRaise_eq_ok] at h
  obtain ⟨array, harray, h⟩ := h
  split at h
  · next hskip =>
    simp only [Bool.and_eq_true, decide_eq_true_eq, List.isEmpty_iff] at hskip
    obtain ⟨⟨hinternal, rfl⟩, hcount⟩ := hskip
    exact Or.inr ⟨⟨array, harray, hinternal⟩, hcount,
      fun r hr => (hcovered r hr).resolve_left List.not_mem_nil⟩
  · rw [← Outcome.pure_eq_ok.mp h]
    exact Or.inl hw

/-! ## items -/

/-- The work copies the reference for group number `gi`. -/
def Copies (gi : Nat) (memory : Memory) (direction : Direction) (id : Nat) : Work → Prop
  | .copy group _ d m refs => group = gi ∧ m = memory ∧ d = direction ∧ id ∈ refs
  | _ => False

instance (gi : Nat) (memory : Memory) (direction : Direction) (id : Nat) (work : Work) :
    Decidable (Copies gi memory direction id work) :=
  match work with
  | .copy .. => inferInstanceAs (Decidable (_ ∧ _))
  | .statement .. => inferInstanceAs (Decidable False)
  | .sync => inferInstanceAs (Decidable False)

/-- Some item copies the reference for group number `gi`. -/
def Copied (items : List Item) (gi : Nat) (memory : Memory) (direction : Direction)
    (id : Nat) : Prop :=
  ∃ item ∈ items, Copies gi memory direction id item.work

instance (items : List Item) (gi : Nat) (memory : Memory) (direction : Direction) (id : Nat) :
    Decidable (Copied items gi memory direction id) :=
  inferInstanceAs (Decidable (∃ _ ∈ _, _))

theorem Copied.mono {items items' : List Item} {gi : Nat} {memory : Memory}
    {direction : Direction} {id : Nat} (h : Copied items gi memory direction id)
    (hsub : items ⊆ items') : Copied items' gi memory direction id := by
  obtain ⟨item, hitem, hwork⟩ := h
  exact ⟨item, hsub hitem, hwork⟩

theorem copied_copyItem {k : KernelSchedule} {gi : Nat} {var : String} {memory : Memory}
    {statements : List Nat} {direction : Direction} {refs : List Nat} {id : Nat} (hid : id ∈ refs) :
    Copied (copyItem k gi var memory level statements direction refs) gi memory direction id := by
  unfold copyItem
  split
  · next hempty =>
    rw [List.isEmpty_iff.mp hempty] at hid
    simp at hid
  · exact ⟨_, List.mem_singleton_self _, rfl, rfl, rfl, hid⟩

/-- The items have the copies that each group outside of global memory needs at its level. -/
theorem copyItems_eq_ok {groups gs : List Group} {gi j : Nat} {bs bs' : List Barrier}
    {items : List Item} (h : copyItems sc groups gi gs bs = .ok (items, bs')) (hj : gs[j]? = some g)
    (hlevel : copyLevel? sc.schedule g = some level) :
    ∃ needs, copyNeeds sc g level = .ok needs ∧
      (∀ id ∈ needs.into, Copied items (gi + j) g.memory .copyIn id) ∧
      ∀ id ∈ needs.out, Copied items (gi + j) g.memory .copyOut id := by
  induction gs generalizing gi j bs items with
  | nil => simp at hj
  | cons g' gs ih =>
      have hnext : ∀ i, gi + 1 + i = gi + (i + 1) := fun i => by omega
      simp only [copyItems] at h
      split at h
      · next hnone =>
        cases j with
        | zero =>
            obtain rfl : g' = g := by simpa using hj
            rw [hlevel] at hnone
            cases hnone
        | succ j =>
            obtain ⟨needs, hneeds, hcopies⟩ := ih h (by simpa using hj)
            exact ⟨needs, hneeds, hnext j ▸ hcopies⟩
      · next l hl =>
        simp only [Outcome.bind_eq_ok] at h
        obtain ⟨needs, hneeds, ⟨rest, bs₁⟩, hrest, h⟩ := h
        simp only [Outcome.pure_eq_ok, Prod.mk.injEq] at h
        obtain ⟨rfl, rfl⟩ := h
        cases j with
        | zero =>
            obtain rfl : g' = g := by simpa using hj
            obtain rfl : l = level := Option.some.inj (hl.symm.trans hlevel)
            refine ⟨needs, hneeds, fun id hid => ?_, fun id hid => ?_⟩
            · exact (copied_copyItem hid).mono fun _ hi =>
                List.mem_append_left _ (List.mem_append_left _ hi)
            · exact (copied_copyItem hid).mono fun _ hi =>
                List.mem_append_left _ (List.mem_append_right _ hi)
        | succ j =>
            obtain ⟨needs', hneeds', hinto, hout⟩ := ih hrest (by simpa using hj)
            rw [hnext j] at hinto hout
            exact ⟨needs', hneeds', fun id hid => (hinto id hid).mono fun _ hi =>
              List.mem_append_right _ hi, fun id hid => (hout id hid).mono fun _ hi =>
                List.mem_append_right _ hi⟩

/-- A group that is not in global memory has a level for its copies. -/
theorem exists_copyLevel (k : KernelSchedule) (h : g.memory ≠ .global) :
    ∃ level, copyLevel? k g = some level := by
  unfold copyLevel?
  cases hmemory : g.memory with
  | global => exact absurd hmemory h
  | shared => exact ⟨_, rfl⟩
  | priv => exact ⟨_, rfl⟩

/-- The body copies what each group with a local copy needs. -/
theorem build_eq_ok {groups : List Group} {body : Body} {gi : Nat} (h : build sc groups = .ok body)
    (hgi : groups[gi]? = some g) (hlocal : g.memory ≠ .global) :
    ∃ level needs, copyNeeds sc g level = .ok needs ∧
      (∀ id ∈ needs.into, Copied body.items gi g.memory .copyIn id) ∧
      ∀ id ∈ needs.out, Copied body.items gi g.memory .copyOut id := by
  simp only [build, Outcome.bind_eq_ok, Outcome.pure_eq_ok] at h
  obtain ⟨statements, -, ⟨copies, barriers⟩, hcopies, stage, -, rfl⟩ := h
  obtain ⟨level, hlevel⟩ := exists_copyLevel sc.schedule hlocal
  obtain ⟨needs, hneeds, hinto, hout⟩ := copyItems_eq_ok hcopies hgi hlevel
  rw [Nat.zero_add] at hinto hout
  have hsub : copies ⊆ statements ++ copies ++ barriers.flatMap (barrierItems sc.schedule) :=
    fun _ hi => List.mem_append_left _ (List.mem_append_right _ hi)
  exact ⟨level, needs, hneeds, fun id hid => (hinto id hid).mono hsub,
    fun id hid => (hout id hid).mono hsub⟩

/-! ## reads of the program -/

/-- A reference of the program with a number of the group is listed in the kernel as it is. -/
theorem exists_located {name : String} (hp : sc.program.validate = .ok ())
    (hhas : ∀ r ∈ sc.refs, sc.Has r) (hg : g.Describes sc name) {r : Reference}
    (hr : r ∈ sc.program.references) (hid : r.id ∈ g.refs) :
    ∃ l, sc.reference? r.id = some l ∧ sc.Has l ∧ l.reference = r ∧ r.array = name := by
  obtain ⟨l, hl, harray⟩ := hg.refs r.id hid
  obtain ⟨hmem, hnumber⟩ := Scope.mem_refs_of_reference? hl
  obtain rfl : l.reference = r := Program.eq_of_id_eq hp (hhas l hmem).mem_references hr hnumber
  exact ⟨l, hl, hhas l hmem, rfl, harray⟩

theorem mem_refsWhere_of_mem {name : String} (hp : sc.program.validate = .ok ())
    (hhas : ∀ r ∈ sc.refs, sc.Has r) (hg : g.Describes sc name) {q : Reference → Bool}
    {r : Reference} (hr : r ∈ sc.program.references) (hid : r.id ∈ g.refs) (hq : q r = true) :
    r.id ∈ refsWhere sc g q := by
  obtain ⟨l, hl, -, rfl, -⟩ := exists_located hp hhas hg hr hid
  rw [refsWhere, List.mem_filter, hl]
  exact ⟨hid, hq⟩

/-- A group with a write that may leave out elements knows it. -/
theorem definiteWrite_eq_false {name : String} (hp : sc.program.validate = .ok ())
    (hhas : ∀ r ∈ sc.refs, sc.Has r) (hg : g.Describes sc name) {w : Reference}
    (hw : w ∈ sc.program.references) (hid : w.id ∈ g.refs) (hwrite : w.isWrite = true)
    (hpartial : w.definite = false) : g.definiteWrite = false := by
  obtain ⟨l, hl, -, rfl, -⟩ := exists_located hp hhas hg hw hid
  rw [hg.definiteWrite, List.all_eq_false]
  exact ⟨_, hid, by simp [hl, hwrite, hpartial]⟩

/-- A group with as many reads as the program has of the array has them all. -/
theorem mem_refsWhere_of_count {name : String} (hhas : ∀ r ∈ sc.refs, sc.Has r)
    (hg : g.Describes sc name) (hnodup : g.refs.Nodup)
    (hcount : sc.program.references.countP (fun r => r.array == name && r.isRead) ≤
      (refsWhere sc g (!·.isWrite)).length) {r : Reference} (hr : r ∈ sc.program.references)
    (harray : r.array = name) (hread : r.isRead = true) : r.id ∈ refsWhere sc g (!·.isWrite) := by
  let reads := (sc.program.references.filter fun r => r.array == name && r.isRead).map (·.id)
  have hsub : refsWhere sc g (!·.isWrite) ⊆ reads := by
    intro id hid
    obtain ⟨hid, hreads⟩ := List.mem_filter.mp hid
    obtain ⟨l, hl, hname⟩ := hg.refs id hid
    obtain ⟨hmem, rfl⟩ := Scope.mem_refs_of_reference? hl
    have hreads : l.reference.isRead = true := by
      rw [Reference.isRead_eq_not_isWrite]
      simpa [hl] using hreads
    exact List.mem_map_of_mem
      (List.mem_filter.mpr ⟨(hhas l hmem).mem_references, by simp [hname, hreads]⟩)
  have hlen : reads.length ≤ (refsWhere sc g (!·.isWrite)).length := by
    rwa [List.length_map, ← List.countP_eq_length_filter]
  have hperm := ((hnodup.filter _).subperm hsub).perm_of_length_le hlen
  exact hperm.mem_iff.mpr (List.mem_map_of_mem (List.mem_filter.mpr ⟨hr, by simp [harray, hread]⟩))

/-! ## kernels of valid programs -/

section Kernel

variable {p : Program} {o : Options} {k : KernelSchedule} {params : List Int}

/-- A read of the group that a write of the group is reported to cover is so at every instance. -/
theorem covered_of_isCovered {numbers : List Nat} {m : Mapping} {name : String}
    (hp : p.validate = .ok ()) (hm : k.Realizes p numbers m) (hparams : p.Admits params)
    (hg : g.Describes (Scope.ofSchedule p o k) name) {r : Reference} (hr : r ∈ p.references)
    (hid : r.id ∈ g.refs) (h : ∃ w ∈ refsWhere (Scope.ofSchedule p o k) g (·.isWrite),
      (Scope.ofSchedule p o k).isCovered r.id w level = .ok true) :
    k.Covered p params g.refs r := by
  obtain ⟨w, hw, hcovered⟩ := h
  obtain ⟨l, hl, hhas, rfl, harray⟩ := exists_located hp (fun _ => Scope.has_of_mem_refs) hg hr hid
  have hw := List.mem_of_mem_filter hw
  obtain ⟨lw, hlw, harray'⟩ := hg.refs w hw
  obtain ⟨hmem, rfl⟩ := Scope.mem_refs_of_reference? hlw
  rw [Scope.isCovered, hl, hlw] at hcovered
  exact hm.covered hp hparams hhas (Scope.has_of_mem_refs hmem)
    (harray'.trans harray.symm) hw hcovered

/-- What the copies of a group with a local copy do.  A read is copied in, or at every instance it
finds the element written before by the same group; if a write may leave out elements, all writes
are copied in; and a write is copied out, unless the array is internal and all its reads in the
program are such reads of the group. -/
theorem copies_keep_values {region : Region} (hp : p.validate = .ok ()) (ho : o.validate = .ok ())
    (hword : o.Representable) (hk : KernelSchedule.build p region o = .ok k)
    (hsc : sc = Scope.ofSchedule p o k) (hnodup : (sc.refs.map (·.reference.id)).Nodup)
    {formed checked groups : List Group} {unroll : List Nat} {body : Body}
    (hall : Group.all sc = .ok formed)
    (hunroll : Group.checkUnroll sc formed = .ok (checked, unroll))
    (hbudget : Group.enforceBudget sc checked = .ok groups) (hbody : build sc groups = .ok body)
    {gi : Nat} (hgi : groups[gi]? = some g) (hlocal : g.memory ≠ .global)
    (hparams : p.Admits params) :
    (∀ id ∈ g.refs, ∃ st ∈ k.statements, ∃ stmt, p.statements[st.stmt]? = some stmt ∧
      ∃ r ∈ stmt.references, r.id = id ∧ r.array = g.array) ∧
    (∀ r ∈ p.references, r.id ∈ g.refs → r.isRead = true →
      Copied body.items gi g.memory .copyIn r.id ∨ k.Covered p params g.refs r) ∧
    (∀ w ∈ p.references, w.id ∈ g.refs → w.isWrite = true → w.definite = false →
      ∀ w' ∈ p.references, w'.id ∈ g.refs → w'.isWrite = true →
      Copied body.items gi g.memory .copyIn w'.id) ∧
    ∀ w ∈ p.references, w.id ∈ g.refs → w.isWrite = true →
      Copied body.items gi g.memory .copyOut w.id ∨
      (∃ array, p.array? g.array = some array ∧ array.internal = true) ∧
      ∀ r ∈ p.references, r.array = g.array → r.isRead = true → r.id ∈ g.refs ∧
      k.Covered p params g.refs r := by
  subst hsc
  have hhas : ∀ r ∈ (Scope.ofSchedule p o k).refs, (Scope.ofSchedule p o k).Has r :=
    fun _ => Scope.has_of_mem_refs
  obtain ⟨m, hm⟩ := KernelSchedule.exists_realizes hp ho hword hk
  obtain ⟨hg, hrefs⟩ := Group.describes_of_stages hnodup hall hunroll hbudget g
    (List.mem_of_getElem? hgi)
  obtain ⟨level, needs, hneeds, hinto, hout⟩ := build_eq_ok hbody hgi hlocal
  obtain ⟨hreads, hinexact, hwrites⟩ := copyNeeds_eq_ok hg hneeds
  refine ⟨fun id hid => ?_, fun r hr hid hread => ?_,
    fun w hw hid hwrite hpartial w' hw' hid' hwrite' => ?_, fun w hw hid hwrite => ?_⟩
  · obtain ⟨l, hl, harray⟩ := hg.refs id hid
    obtain ⟨hmem, hnumber⟩ := Scope.mem_refs_of_reference? hl
    obtain ⟨st, stmt, hst, hstmt, hr⟩ := hhas l hmem
    exact ⟨st, List.mem_of_getElem? hst, stmt, hstmt, l.reference, hr, hnumber, harray⟩
  · rw [Reference.isRead_eq_not_isWrite] at hread
    have hmem := mem_refsWhere_of_mem hp hhas hg (q := (!·.isWrite)) hr hid hread
    exact (hreads r.id hmem).imp (hinto r.id) (covered_of_isCovered hp hm hparams hg hr hid)
  · have hmem := mem_refsWhere_of_mem hp hhas hg (q := (·.isWrite)) hw' hid' hwrite'
    exact hinto w'.id
      (hinexact (definiteWrite_eq_false hp hhas hg hw hid hwrite hpartial) w'.id hmem)
  · have hmem := mem_refsWhere_of_mem hp hhas hg (q := (·.isWrite)) hw hid hwrite
    refine (hwrites w.id hmem).imp (hout w.id) ?_
    rintro ⟨hinternal, hcount, hcovered⟩
    refine ⟨hinternal, fun r hr harray hread => ?_⟩
    have hmem := mem_refsWhere_of_count hhas hg hrefs hcount hr harray hread
    have hid := List.mem_of_mem_filter hmem
    exact ⟨hid, covered_of_isCovered hp hm hparams hg hr hid (hcovered r.id hmem)⟩

end Kernel

/-- A reference to `T[i]`. -/
def bufferRef (id : Nat) (use : Use) (definite : Bool) : Reference :=
  ⟨id, "T", use, definite, [.single (.var 0)]⟩

/-- `for i ≥ 0: { S: perhaps write T[i], write T[i]; U: read T[i] }`, where every thread has its own
`T`. -/
def bufferProgram : Program where
  params := []
  context := []
  arrays := [{ ArrayDecl.ofShape "T" "float" 4 1 with forcePrivate := true }]
  statements := [
    ⟨"S", ["i"], [.ge (.var 0)], [.var 0, .const 0],
      [bufferRef 0 .write false, bufferRef 1 .write true]⟩,
    ⟨"U", ["i"], [.ge (.var 0)], [.var 0, .const 1], [bufferRef 2 .read true]⟩]
  regions := [⟨[0, 1], 0, 1, [false]⟩]

def bufferOptions : Options := { Options.default with tileSizes := [1], useSharedMemory := false }

/-- Tiles of one iteration in a single thread. -/
def bufferSchedule : KernelSchedule where
  paramNames := []
  nProgramParam := 0
  context := []
  tileFirst := 0
  tileLen := 1
  nGrid := 0
  nBlock := 0
  tileSizes := [1]
  gridSizes := []
  blockSizes := []
  gridMapping := .wrap
  threadMapping := .wrap
  levels := [.tileLoop, .pointLoop, .inner]
  coincident := [false]
  statements := [0, 1].map fun i : Nat =>
    ⟨i, 0, ⟨0, 1, []⟩, [.ge (.var 0)], [.var 0, .const 0, .const i]⟩
  stage := .scaled

def bufferScope : Scope := .ofSchedule bufferProgram bufferOptions bufferSchedule

/-- All references, with one element for each thread. -/
def bufferGroup : Group where
  array := "T"
  nr := 0
  refs := [0, 1, 2]
  write := true
  definiteWrite := false
  forcePrivate := true
  sharedTile := none
  privateTile := some ⟨[⟨1, ⟨.var 0, 1⟩, none⟩], 0, 1⟩
  lastShared := some 0

/-- The read is not copied in, as the second write covers it; both writes are copied in, as the
first one may leave out its element, and both are copied out. -/
theorem buffer_copies :
    KernelSchedule.build bufferProgram ⟨[0, 1], 0, 1, [false]⟩ bufferOptions = .ok bufferSchedule ∧
      Group.all bufferScope = .ok [bufferGroup] ∧ ∃ body,
        build bufferScope [bufferGroup] = .ok body ∧
        ¬ Copied body.items 0 .priv .copyIn 2 ∧
        bufferSchedule.Covered bufferProgram [] bufferGroup.refs (bufferRef 2 .read true) ∧
        ∀ id ∈ [0, 1], Copied body.items 0 .priv .copyIn id ∧
        Copied body.items 0 .priv .copyOut id := by
  have hp : bufferProgram.validate = .ok () := by decide +kernel
  have ho : bufferOptions.validate = .ok () := by decide +kernel
  have hk : KernelSchedule.build bufferProgram ⟨[0, 1], 0, 1, [false]⟩ bufferOptions =
      .ok bufferSchedule := by
    decide +kernel
  have hall : Group.all bufferScope = .ok [bufferGroup] := by decide +kernel
  have hunroll : Group.checkUnroll bufferScope [bufferGroup] = .ok ([bufferGroup], []) := by
    decide +kernel
  have hbudget : Group.enforceBudget bufferScope [bufferGroup] = .ok [bufferGroup] := by
    decide +kernel
  have hcopied : (build bufferScope [bufferGroup]).toOption.map
      (fun body => decide (Copied body.items 0 .priv .copyIn 2)) = some false := by decide +kernel
  obtain ⟨body, hbody, hread⟩ := Option.map_eq_some_iff.mp hcopied
  have hbody := Outcome.toOption_eq_some.mp hbody
  have hread : ¬ Copied body.items 0 .priv .copyIn 2 := of_decide_eq_false hread
  have hparams : bufferProgram.Admits [] := by decide
  obtain ⟨-, hreads, hinexact, hwrites⟩ := copies_keep_values hp ho (by decide) hk rfl
    (by decide +kernel) hall hunroll hbudget hbody (rfl : [bufferGroup][0]? = some bufferGroup)
    (by decide) hparams
  have hcovered :=
    (hreads (bufferRef 2 .read true) (by decide +kernel) (by decide) rfl).resolve_left hread
  have hinto := hinexact (bufferRef 0 .write false) (by decide +kernel) (by decide) rfl rfl
  have hout : ∀ w ∈ bufferProgram.references, w.id ∈ bufferGroup.refs → w.isWrite = true →
      Copied body.items 0 .priv .copyOut w.id := by
    intro w hw hid hwrite
    refine (hwrites w hw hid hwrite).resolve_right fun hskip => ?_
    -- `T` is not internal to the program
    obtain ⟨⟨array, harray, hinternal⟩, -⟩ := hskip
    obtain rfl := Option.some.inj harray
    cases hinternal
  have hboth : ∀ w ∈ [bufferRef 0 .write false, bufferRef 1 .write true],
      w ∈ bufferProgram.references ∧ w.id ∈ bufferGroup.refs ∧ w.isWrite = true := by decide +kernel
  refine ⟨hk, hall, body, hbody, hread, hcovered, fun id hid => ?_⟩
  obtain ⟨w, hw, rfl⟩ : ∃ w ∈ [bufferRef 0 .write false, bufferRef 1 .write true], w.id = id := by
    simpa [bufferRef, eq_comm] using hid
  obtain ⟨hmem, hrefs, hwrite⟩ := hboth w hw
  exact ⟨hinto w hmem hrefs hwrite, hout w hmem hrefs hwrite⟩

end Body

end KernelMap
