import KernelMap.Json.Program
import KernelMap.Proofs.JsonText
import KernelMap.Proofs.Stuck

/-!
# KernelMap.Proofs.JsonProgram

Programs are read back from their JSON text.

A writer and a reader of one type are `Faithful` for the values whose numbers are in range: these
are read back, and no others are ever read.  Lists, optional values and records keep this, so that
it goes from numbers and strings up to whole programs (`Program.faithful`).
-/

namespace KernelMap

namespace Json

variable {α : Type}

/-- Everything that is written is legible.  The values with `P` are read back, and only they are
ever read. -/
structure Faithful (write : α → Json) (read : Json → Option α) (P : α → Prop) : Prop where
  legible : ∀ a, (write a).Legible
  read_write : ∀ {a}, P a → read (write a) = some a
  of_read : ∀ {j a}, read j = some a → P a

/-! ## scalars and lists -/

/-- Numbers are read back if they are words. -/
theorem faithful_word : Faithful .int word? (Word.fits · = true) where
  legible := .int
  read_write h := Word.check_eq_some_iff.mpr ⟨h, rfl⟩
  of_read {j n} h := by
    cases j with
    | int m =>
        obtain ⟨hfits, rfl⟩ := Word.check_eq_some_iff.mp h
        exact hfits
    | _ => cases h

/-- Positions are read back if they are below the limit. -/
theorem faithful_index : Faithful .nat index? (· < Index.limit) where
  legible n := .int n
  read_write {n} h := by simp [nat, index?, h]
  of_read {j n} h := by
    cases j with
    | int m =>
        simp only [index?, Option.ite_none_right_eq_some, Option.some.injEq] at h
        exact h.2 ▸ h.1.2
    | _ => cases h

theorem faithful_bool : Faithful .bool bool? fun _ => True :=
  ⟨.bool, fun _ => rfl, fun _ => trivial⟩

theorem faithful_string : Faithful .str string? fun _ => True :=
  ⟨.str, fun _ => rfl, fun _ => trivial⟩

namespace Faithful

variable {write : α → Json} {read : Json → Option α} {P : α → Prop}

/-- A list is read back if each of its elements is. -/
theorem list (h : Faithful write read P) :
    Faithful (.list write) (list? read) fun as => ∀ a ∈ as, P a where
  legible as := .arr (List.forall_mem_map.mpr fun a _ => h.legible a)
  read_write {as} has := by
    induction as with
    | nil => rfl
    | cons a as ih =>
        obtain ⟨ha, has⟩ := List.forall_mem_cons.mp has
        have htail : mapElems? read (as.map write) = some as := ih has
        simp [Json.list, list?, mapElems?, h.read_write ha, htail]
  of_read {j as} has := by
    cases j with
    | arr xs =>
        simp only [list?] at has
        induction xs generalizing as with
        | nil =>
            obtain rfl := Option.some.inj has
            simp
        | cons x xs ih =>
            simp only [mapElems?, Option.bind_eq_bind, Option.bind_eq_some_iff, Option.pure_def,
              Option.some.injEq] at has
            obtain ⟨a, ha, as, has, rfl⟩ := has
            exact List.forall_mem_cons.mpr ⟨h.of_read ha, ih has⟩
    | _ => cases has

/-- What is read for an optional value has the property, if there is something. -/
theorem of_option (h : Faithful write read P) {j : Json} {a : Option α}
    (ha : option? read j = some a) : ∀ x ∈ a, P x := by
  unfold option? at ha
  split at ha
  · obtain rfl := Option.some.inj ha
    simp
  · obtain ⟨x, hx, rfl⟩ := Option.map_eq_some_iff.mp ha
    simpa using h.of_read hx

/-- What is written for a value must not look like a missing one. -/
theorem option (h : Faithful write read P) (hnull : ∀ a, write a ≠ .null) :
    Faithful (.option write) (option? read) fun a => ∀ x ∈ a, P x where
  legible
    | none => .null
    | some a => h.legible a
  read_write {a} ha := by
    cases a with
    | none => rfl
    | some a =>
        simp only [Json.option, option?]
        split
        · next hw => exact absurd hw (hnull a)
        · rw [h.read_write (ha a rfl), Option.map_some]
  of_read := h.of_option

end Faithful

/-! ## records -/

/-- The test for distinct keys answers whether there is none twice. -/
theorem distinctKeys_iff {ms : List (String × Json)} :
    distinctKeys ms = true ↔ (ms.map Prod.fst).Nodup := by
  induction ms with
  | nil => simp [distinctKeys]
  | cons m ms ih =>
      simp only [distinctKeys, Bool.and_eq_true, ih, List.map_cons, List.nodup_cons,
        List.all_eq_true, bne_iff_ne, List.mem_map, not_exists, not_and]

/-- Among distinct keys, every member is found by its own. -/
theorem lookup_of_mem {ms : List (String × Json)} (h : (ms.map Prod.fst).Nodup) {m : String × Json}
    (hm : m ∈ ms) : ms.lookup m.1 = some m.2 := by
  induction ms with
  | nil => cases hm
  | cons m' ms ih =>
      obtain ⟨key, value⟩ := m'
      obtain ⟨hnew, hrest⟩ := List.nodup_cons.mp h
      rcases List.mem_cons.mp hm with rfl | hm
      · exact List.lookup_cons_self
      · have hkey : m.1 ∈ ms.map Prod.fst := List.mem_map_of_mem hm
        have hne : (m.1 == key) = false := beq_false_of_ne fun heq => hnew (heq ▸ hkey)
        simp only [List.lookup_cons, hne, ih hrest hm]

/-- In an object with exactly the fields of the record, each field is found. -/
theorem record?_bind {β : Type} {ms : List (String × Json)} {names : List String}
    (hnames : ms.map Prod.fst = names) (h : names.Nodup) {f : Record → Option β} {b : β}
    (hf : ∀ r : Record, (∀ m ∈ ms, r.fields.lookup m.1 = some m.2) → f r = some b) :
    (record? names (.obj ms) >>= f) = some b := by
  subst hnames
  have hknown : ms.filter (fun m => (ms.map Prod.fst).contains m.1) = ms :=
    List.filter_eq_self.mpr fun m hm => List.elem_eq_true_of_mem (List.mem_map_of_mem hm)
  simp only [record?, hknown, distinctKeys_iff.mpr h, if_true]
  exact hf _ fun m hm => lookup_of_mem h hm

namespace Faithful

variable {write : α → Json} {read : Json → Option α} {P : α → Prop} {r : Record} {name : String}
  {a : α}

/-- What is read for a required field has the property. -/
theorem of_required (h : Faithful write read P) (hr : r.required name read = some a) : P a := by
  obtain ⟨j, -, hj⟩ := Option.bind_eq_some_iff.mp hr
  exact h.of_read hj

/-- What is read for a field with a default has the property, if the default has it. -/
theorem of_withDefault (h : Faithful write read P) {d : α} (hd : P d)
    (hr : r.withDefault name d read = some a) : P a := by
  unfold Record.withDefault at hr
  split at hr
  · exact h.of_read hr
  · exact Option.some.inj hr ▸ hd

/-- What is read for an optional field has the property, if there is something. -/
theorem of_optional (h : Faithful write read P) {a : Option α}
    (hr : r.optional name read = some a) : ∀ x ∈ a, P x := by
  have hor : (∃ j, option? read j = some a) ∨ a = none := by
    unfold Record.optional at hr
    split at hr
    · exact .inl ⟨_, hr⟩
    · split at hr
      · cases hr
      · exact .inr (Option.some.inj hr).symm
  rcases hor with ⟨j, hj⟩ | rfl
  · exact h.of_option hj
  · simp

end Faithful

end Json

/-! ## affine forms and constraints -/

open Json (faithful_word faithful_index faithful_bool faithful_string)

/-- Forms are read back if their numbers are words. -/
theorem Affine.faithful : Json.Faithful toJson ofJson? Representable where
  legible a := .obj (by simp [faithful_word.list.legible, faithful_word.legible])
  read_write {a} h := by
    rw [toJson, ofJson?]
    refine Json.record?_bind (by rfl) (by decide) fun r hr => ?_
    simp only [List.forall_mem_cons] at hr
    simp [hr, Json.Record.required, faithful_word.list.read_write h.1, faithful_word.read_write h.2]
  of_read {j a} h := by
    simp only [ofJson?, Option.bind_eq_bind, Option.bind_eq_some_iff, Option.pure_def,
      Option.some.injEq] at h
    obtain ⟨r, -, cs, hcs, k, hk, rfl⟩ := h
    exact ⟨faithful_word.list.of_required hcs, faithful_word.of_required hk⟩

namespace Constraint

theorem Kind.faithful : Json.Faithful toJson ofJson? fun _ => True where
  legible
    | .equality => .str _
    | .inequality => .str _
  read_write {kind} _ := by cases kind <;> rfl
  of_read _ := trivial

theorem faithful : Json.Faithful toJson ofJson? Representable where
  legible c := .obj (by simp [Affine.faithful.legible, Kind.faithful.legible])
  read_write {c} h := by
    rw [toJson, ofJson?]
    refine Json.record?_bind (by rfl) (by decide) fun r hr => ?_
    simp only [List.forall_mem_cons] at hr
    simp [hr, Json.Record.required, Affine.faithful.read_write h, Kind.faithful.read_write]
  of_read {j c} h := by
    simp only [ofJson?, Option.bind_eq_bind, Option.bind_eq_some_iff, Option.pure_def,
      Option.some.injEq] at h
    obtain ⟨r, -, a, ha, kind, -, rfl⟩ := h
    exact Affine.faithful.of_required ha

end Constraint

/-! ## references and statements -/

theorem Use.faithful : Json.Faithful toJson ofJson? fun _ => True where
  legible
    | .read => .str _
    | .write => .str _
  read_write {use} _ := by cases use <;> rfl
  of_read _ := trivial

namespace Subscript

/-- All numbers are words. -/
def Representable : Subscript → Prop
  | .single a => a.Representable
  | .range lo hi => lo.Representable ∧ hi.Representable

instance : (u : Subscript) → Decidable u.Representable
  | .single a => inferInstanceAs (Decidable a.Representable)
  | .range _ _ => inferInstanceAs (Decidable (_ ∧ _))

theorem faithful : Json.Faithful toJson ofJson? Representable where
  legible
    | .single a => .obj (by simp [Affine.faithful.legible])
    | .range lo hi => .obj (by simpa using .obj (by simp [Affine.faithful.legible]))
  read_write {u} h := by
    cases u with
    | single a => simp [toJson, ofJson?, Json.tagged, Json.case?, Affine.faithful.read_write h]
    | range lo hi =>
        simp only [toJson, ofJson?, Json.tagged, Json.case?, Option.bind_eq_bind, Option.bind_some]
        refine Json.record?_bind (by rfl) (by decide) fun r hr => ?_
        simp only [List.forall_mem_cons] at hr
        simp [hr, Json.Record.required, Affine.faithful.read_write h.1,
          Affine.faithful.read_write h.2]
  of_read {j u} h := by
    simp only [ofJson?, Option.bind_eq_bind, Option.bind_eq_some_iff] at h
    obtain ⟨case, -, h⟩ := h
    split at h
    · simp only [Option.bind_eq_some_iff, Option.pure_def, Option.some.injEq] at h
      obtain ⟨a, ha, rfl⟩ := h
      exact Affine.faithful.of_read ha
    · simp only [Option.bind_eq_some_iff, Option.pure_def, Option.some.injEq] at h
      obtain ⟨r, -, lo, hlo, hi, hhi, rfl⟩ := h
      exact ⟨Affine.faithful.of_required hlo, Affine.faithful.of_required hhi⟩
    · cases h

end Subscript

namespace Reference

/-- All numbers are words or positions. -/
def Representable (r : Reference) : Prop := r.id < Index.limit ∧ ∀ u ∈ r.subscripts, u.Representable

instance (r : Reference) : Decidable r.Representable := inferInstanceAs (Decidable (_ ∧ _))

theorem faithful : Json.Faithful toJson ofJson? Representable where
  legible r := .obj (by simp [faithful_index.legible, faithful_string.legible, Use.faithful.legible,
    faithful_bool.legible, Subscript.faithful.list.legible])
  read_write {r} h := by
    rw [toJson, ofJson?]
    refine Json.record?_bind (by rfl) (by decide) fun fields hr => ?_
    simp only [List.forall_mem_cons] at hr
    simp [hr, Json.Record.required, faithful_index.read_write h.1, faithful_string.read_write,
      Use.faithful.read_write, faithful_bool.read_write, Subscript.faithful.list.read_write h.2]
  of_read {j r} h := by
    simp only [ofJson?, Option.bind_eq_bind, Option.bind_eq_some_iff, Option.pure_def,
      Option.some.injEq] at h
    obtain ⟨r, -, id, hid, array, -, use, -, definite, -, subs, hsubs, rfl⟩ := h
    exact ⟨faithful_index.of_required hid, Subscript.faithful.list.of_required hsubs⟩

end Reference

namespace Statement

/-- All numbers are words or positions. -/
def Representable (s : Statement) : Prop :=
  (∀ c ∈ s.domain, c.Representable) ∧ (∀ a ∈ s.schedule, a.Representable) ∧ ∀ r ∈ s.references,
    r.Representable

instance (s : Statement) : Decidable s.Representable := inferInstanceAs (Decidable (_ ∧ _))

theorem faithful : Json.Faithful toJson ofJson? Representable where
  legible s := .obj (by simp [faithful_string.legible, faithful_string.list.legible,
    Constraint.faithful.list.legible, Affine.faithful.list.legible,
    Reference.faithful.list.legible])
  read_write {s} h := by
    rw [toJson, ofJson?]
    refine Json.record?_bind (by rfl) (by decide) fun r hr => ?_
    simp only [List.forall_mem_cons] at hr
    simp [hr, Json.Record.required, faithful_string.read_write, faithful_string.list.read_write,
      Constraint.faithful.list.read_write h.1, Affine.faithful.list.read_write h.2.1,
      Reference.faithful.list.read_write h.2.2]
  of_read {j s} h := by
    simp only [ofJson?, Option.bind_eq_bind, Option.bind_eq_some_iff, Option.pure_def,
      Option.some.injEq] at h
    obtain ⟨r, -, name, -, iterators, -, domain, hdomain, schedule, hschedule, references,
      hreferences, rfl⟩ := h
    exact ⟨Constraint.faithful.list.of_required hdomain, Affine.faithful.list.of_required hschedule,
      Reference.faithful.list.of_required hreferences⟩

end Statement

/-! ## arrays and regions -/

namespace Extent

/-- All numbers are words. -/
def Representable (e : Extent) : Prop :=
  (∀ a ∈ e.lower, a.Representable) ∧ ∀ a ∈ e.upper, a.Representable

instance (e : Extent) : Decidable e.Representable := inferInstanceAs (Decidable (_ ∧ _))

/-- A bound that may be missing is read back if its numbers are words. -/
theorem faithful_bound : Json.Faithful (.option Affine.toJson) (Json.option? Affine.ofJson?)
    fun a => ∀ x ∈ a, x.Representable :=
  Affine.faithful.option fun _ => Json.noConfusion

theorem faithful : Json.Faithful toJson ofJson? Representable where
  legible e := .obj (by simp [faithful_bound.legible])
  read_write {e} h := by
    rw [toJson, ofJson?]
    refine Json.record?_bind (by rfl) (by decide) fun r hr => ?_
    simp only [List.forall_mem_cons] at hr
    simp [hr, Json.Record.optional, faithful_bound.read_write h.1, faithful_bound.read_write h.2]
  of_read {j e} h := by
    simp only [ofJson?, Option.bind_eq_bind, Option.bind_eq_some_iff, Option.pure_def,
      Option.some.injEq] at h
    obtain ⟨r, -, lower, hlower, upper, hupper, rfl⟩ := h
    exact ⟨Affine.faithful.of_optional hlower, Affine.faithful.of_optional hupper⟩

theorem faithful_dims :
    Json.Faithful listToJson listOfJson? fun es => ∀ e ∈ es, e.Representable where
  legible es := .obj (by simp [faithful.list.legible])
  read_write {es} h := by
    rw [listToJson, listOfJson?]
    refine Json.record?_bind (by rfl) (by decide) fun r hr => ?_
    simp only [List.forall_mem_cons] at hr
    simp [hr, Json.Record.required, faithful.list.read_write h]
  of_read {j es} h := by
    simp only [listOfJson?, Option.bind_eq_bind, Option.bind_eq_some_iff] at h
    obtain ⟨r, -, hes⟩ := h
    exact faithful.list.of_required hes

end Extent

namespace ArrayDecl

/-- All numbers are words or positions. -/
def Representable (a : ArrayDecl) : Prop :=
  a.elementSize < Index.limit ∧ a.nIndex < Index.limit ∧ ∀ es ∈ a.extent, ∀ e ∈ es, e.Representable

instance (a : ArrayDecl) : Decidable a.Representable := inferInstanceAs (Decidable (_ ∧ _))

theorem faithful_extent :
    Json.Faithful (.option Extent.listToJson) (Json.option? Extent.listOfJson?) fun extent =>
      ∀ es ∈ extent, ∀ e ∈ es, e.Representable :=
  Extent.faithful_dims.option fun _ => Json.noConfusion

theorem faithful : Json.Faithful toJson ofJson? Representable where
  legible a := .obj
    (by simp [faithful_string.legible, faithful_index.legible, faithful_extent.legible,
      faithful_bool.legible])
  read_write {a} h := by
    rw [toJson, ofJson?]
    refine Json.record?_bind (by rfl) (by decide) fun r hr => ?_
    simp only [List.forall_mem_cons] at hr
    simp [hr, Json.Record.required, Json.Record.withDefault, faithful_string.read_write,
      faithful_index.read_write h.1, faithful_index.read_write h.2.1,
      faithful_extent.read_write h.2.2, faithful_bool.read_write]
  of_read {j a} h := by
    simp only [ofJson?, Option.bind_eq_bind, Option.bind_eq_some_iff, Option.pure_def,
      Option.some.injEq] at h
    obtain ⟨r, -, name, -, type, -, size, hsize, nIndex, hnIndex, extent, hextent, scalar, -,
      compound, -, internal, -, readOnly, -, forcePrivate, -, rfl⟩ := h
    exact ⟨faithful_index.of_required hsize, faithful_index.of_required hnIndex,
      faithful_extent.of_withDefault (by simp) hextent⟩

end ArrayDecl

namespace Region

/-- All numbers are positions. -/
def Representable (r : Region) : Prop :=
  (∀ i ∈ r.statements, i < Index.limit) ∧ r.tileFirst < Index.limit ∧ r.tileLen < Index.limit

instance (r : Region) : Decidable r.Representable := inferInstanceAs (Decidable (_ ∧ _))

theorem faithful : Json.Faithful toJson ofJson? Representable where
  legible r := .obj
    (by simp [faithful_index.list.legible, faithful_index.legible, faithful_bool.list.legible])
  read_write {r} h := by
    rw [toJson, ofJson?]
    refine Json.record?_bind (by rfl) (by decide) fun fields hr => ?_
    simp only [List.forall_mem_cons] at hr
    simp [hr, Json.Record.required, faithful_index.list.read_write h.1,
      faithful_index.read_write h.2.1, faithful_index.read_write h.2.2,
      faithful_bool.list.read_write]
  of_read {j r} h := by
    simp only [ofJson?, Option.bind_eq_bind, Option.bind_eq_some_iff, Option.pure_def,
      Option.some.injEq] at h
    obtain ⟨r, -, statements, hstatements, first, hfirst, len, hlen, coincident, -, rfl⟩ := h
    exact ⟨faithful_index.list.of_required hstatements, faithful_index.of_required hfirst,
      faithful_index.of_required hlen⟩

end Region

/-! ## programs -/

namespace Program

/-- All numbers are words or positions. -/
def Representable (p : Program) : Prop :=
  (∀ c ∈ p.context, c.Representable) ∧ (∀ a ∈ p.arrays, a.Representable) ∧
    (∀ s ∈ p.statements, s.Representable) ∧ ∀ r ∈ p.regions, r.Representable

instance (p : Program) : Decidable p.Representable := inferInstanceAs (Decidable (_ ∧ _))

/-- Programs are read back if their numbers are words or positions. -/
theorem faithful : Json.Faithful toJson ofJson? Representable where
  legible p := .obj (by simp [faithful_string.list.legible, Constraint.faithful.list.legible,
    ArrayDecl.faithful.list.legible, Statement.faithful.list.legible, Region.faithful.list.legible])
  read_write {p} h := by
    rw [toJson, ofJson?]
    refine Json.record?_bind (by rfl) (by decide) fun r hr => ?_
    simp only [List.forall_mem_cons] at hr
    simp [hr, Json.Record.required, Json.Record.withDefault, faithful_string.list.read_write,
      Constraint.faithful.list.read_write h.1, ArrayDecl.faithful.list.read_write h.2.1,
      Statement.faithful.list.read_write h.2.2.1, Region.faithful.list.read_write h.2.2.2]
  of_read {j p} h := by
    simp only [ofJson?, Option.bind_eq_bind, Option.bind_eq_some_iff, Option.pure_def,
      Option.some.injEq] at h
    obtain ⟨r, -, params, -, context, hcontext, arrays, harrays, statements, hstatements, regions,
      hregions, rfl⟩ := h
    exact ⟨Constraint.faithful.list.of_withDefault (by simp) hcontext,
      ArrayDecl.faithful.list.of_required harrays, Statement.faithful.list.of_required hstatements,
      Region.faithful.list.of_required hregions⟩

/-- A text is read as a program exactly if it is a value that describes one. -/
theorem ofText_eq_ok {text : String} {p : Program} :
    ofText text = .ok p ↔ ∃ j, Json.read? text = some j ∧ ofJson? j = some p := by
  rw [ofText, Outcome.orRaise_eq_ok, Option.bind_eq_some_iff]

/-- A program is read back from its text exactly if all its numbers are words and positions; then
the program that is read has the same text again. -/
theorem read_back_from_text (p : Program) :
    p.Representable ↔ ∃ q, ofText p.toText = .ok q ∧ q = p ∧ q.toText = p.toText := by
  constructor
  · intro h
    refine ⟨p, ofText_eq_ok.mpr ⟨p.toJson, ?_, faithful.read_write h⟩, rfl, rfl⟩
    exact Json.read?_pretty (faithful.legible p)
  · rintro ⟨q, hq, rfl, -⟩
    obtain ⟨j, -, hj⟩ := ofText_eq_ok.mp hq
    exact faithful.of_read hj

example : Representable {
    params := ["N"]
    context := [⟨.inequality, ⟨[1, 0], Word.least⟩⟩]
    arrays := [{ ArrayDecl.ofShape "A" "a \"quoted\" type" 4 1 with
      extent := some [⟨none, some ⟨[1], -1⟩⟩] }]
    statements := [⟨"S", ["i"], [], [⟨[0, 1], Word.greatest⟩],
      [⟨0, "A", .read, true, [.range ⟨[], 0⟩ ⟨[0, 1], 0⟩]⟩]⟩]
    regions := [⟨[0], 0, 1, [true]⟩] } := by
  decide

end Program

end KernelMap
