import KernelMap.Proofs.DraftSteps
import KernelMap.Proofs.Renumbering

/-!
# KernelMap.Proofs.DraftTexts

What the forms of a finished draft say over the names of the program.

The program holds what the requests that succeed have asked for, in order, each text read against
the names of its moment (`Records`).  Parameters that are declared later come after those and before
the iterators.  They leave the context as it is, but over the names of the finished program the
iterators have moved behind them: the text then denotes the stored form with as many variables
inserted.  So a stored form is still the one that its text denotes only if no parameter was declared
after it, or no iterator is used in it.
-/

namespace KernelMap.Draft

/-! ## texts -/

/-- A statement as it is asked for. -/
structure StatementText where
  name : String
  iterators : List String
  domain : String
  schedule : List String
deriving DecidableEq

namespace Request

def context? : Request → Option String
  | .context text => some text
  | _ => none

def statement? : Request → Option StatementText
  | .statement name iterators domain schedule => some ⟨name, iterators, domain, schedule⟩
  | _ => none

end Request

/-- What has been asked for, each with the parameters that were declared at that moment. -/
def texts {α : Type} (pick : Request → Option α) (log : List (Draft × Request)) :
    List (List String × α) :=
  log.filterMap fun e => (pick e.2).map (e.1.program.params, ·)

/-- The references to statement `i` that have been asked for. -/
def textsOf (i : Nat) (log : List (Draft × Request)) : List (List String × Asked) :=
  (texts Request.reference? log).filter (·.2.stmt == i)

/-- The text, read with the parameters of its moment, has given the statement. -/
structure StatementText.Read (t : List String × StatementText) (s : Statement) : Prop where
  name : s.name = t.2.name
  iterators : s.iterators = t.2.iterators
  domain : Constraint.parse t.2.domain (t.1 ++ s.iterators) = .ok s.domain
  schedule : List.Forall₂ (fun text a => Affine.parse text (t.1 ++ s.iterators) = .ok a)
    t.2.schedule s.schedule

/-- The text, read with the parameters of its moment, has given the reference of a statement with
these iterators. -/
structure Asked.Read (iterators : List String) (t : List String × Asked)
    (r : Reference) : Prop where
  array : r.array = t.2.array
  use : r.use = t.2.use
  definite : r.definite = t.2.definite
  subscripts : List.Forall₂ (fun text u => subscript (t.1 ++ iterators) text = .ok u) t.2.index
    r.subscripts

/-- The draft holds what has been asked for, in order. -/
structure Records (log : List (Draft × Request)) (d : Draft) : Prop where
  params : ∀ e ∈ log, e.1.program.params <+: d.program.params
  context : ∃ css,
    List.Forall₂ (fun t cs => Constraint.parse t.2 t.1 = .ok cs) (texts Request.context? log) css ∧
    d.program.context = css.flatten
  statements : List.Forall₂ StatementText.Read (texts Request.statement? log) d.program.statements
  references : ∀ i s, d.program.statements[i]? = some s →
    List.Forall₂ (Asked.Read s.iterators) (textsOf i log) s.references
  /-- References are asked for statements that exist. -/
  known : ∀ t ∈ texts Request.reference? log, t.2.stmt < d.program.statements.length

/-- A further request adds its text, with the parameters of its moment. -/
theorem texts_append {α : Type} (pick : Request → Option α) (log : List (Draft × Request))
    (d : Draft) (r : Request) :
    texts pick (log ++ [(d, r)]) = texts pick log ++
      ((pick r).map (d.program.params, ·)).toList := by
  rw [texts, List.filterMap_append]
  cases h : pick r <;> simp [texts, h]

/-- An empty draft holds that nothing has been asked for. -/
theorem records_empty : Records [] empty where
  params := by simp
  context := ⟨[], .nil, rfl⟩
  statements := .nil
  references := by simp [empty, Program.empty]
  known := by simp [texts]

/-- Parameters are only added, at the end. -/
theorem Request.Served.params_prefix {d d' : Draft} {r : Request} {a : Option Nat}
    (h : Served d r a d') : d.program.params <+: d'.program.params := by
  cases h with
  | param name => exact List.prefix_append ..
  | _ => exact List.prefix_refl _

/-- Changing one element keeps a relation to another list, if the change does. -/
theorem forall₂_modify {α β : Type} {R : α → β → Prop} {xs : List α} {ys : List β}
    (h : List.Forall₂ R xs ys) {f : β → β} (hf : ∀ x y, R x y → R x (f y)) (i : Nat) :
    List.Forall₂ R xs (ys.modify i f) := by
  induction h generalizing i with
  | nil => simp
  | cons hxy hrest ih =>
      cases i with
      | zero => exact .cons (hf _ _ hxy) hrest
      | succ i => exact .cons hxy (ih i)

theorem getElem?_append_singleton {α : Type} {xs : List α} {x y : α} {i : Nat}
    (h : (xs ++ [y])[i]? = some x) : xs[i]? = some x ∨ i = xs.length ∧ x = y := by
  grind

namespace Records

variable {log : List (Draft × Request)} {d d' : Draft} {r : Request}

/-- The parameters of every request so far are the first ones of the draft. -/
theorem params_append (h : Records log d) (hparams : d.program.params <+: d'.program.params) :
    ∀ e ∈ log ++ [(d, r)], e.1.program.params <+: d'.program.params := by
  intro e he
  rcases List.mem_append.mp he with he | he
  · exact (h.params e he).trans hparams
  · obtain rfl := List.mem_singleton.mp he
    exact hparams

/-- The parameters of an earlier moment come first. -/
theorem declared {α : Type} {pick : Request → Option α} {t : List String × α} (h : Records log d)
    (ht : t ∈ texts pick log) : t.1 <+: d.program.params := by
  obtain ⟨e, he, hpick⟩ := List.mem_filterMap.mp ht
  obtain ⟨x, -, rfl⟩ := Option.map_eq_some_iff.mp hpick
  exact h.params e he

/-- A request that is not about texts leaves them alone. -/
theorem of_eq (h : Records log d) (hparams : d.program.params <+: d'.program.params)
    (hcontext : d'.program.context = d.program.context)
    (hstatements : d'.program.statements = d.program.statements) (hc : r.context? = none)
    (hs : r.statement? = none) (hr : r.reference? = none) : Records (log ++ [(d, r)]) d' where
  params := h.params_append hparams
  context := by simpa [texts_append, hc, hcontext] using h.context
  statements := by simpa [texts_append, hs, hstatements] using h.statements
  references := by simpa [textsOf, texts_append, hr, hstatements] using h.references
  known := by simpa [texts_append, hr, hstatements] using h.known

/-- No reference has been asked for on behalf of a statement that is yet to come. -/
theorem textsOf_length (h : Records log d) : textsOf d.program.statements.length log = [] := by
  refine List.filter_eq_nil_iff.mpr fun t ht => ?_
  have := h.known t ht
  simp only [beq_iff_eq]
  omega

/-- What a request that succeeds asks for is recorded behind what was there before. -/
theorem served (h : Records log d) {a : Option Nat} (hserved : Request.Served d r a d') :
    Records (log ++ [(d, r)]) d' := by
  have hparams := hserved.params_prefix
  cases hserved with
  | param | array | region | coincident => exact h.of_eq hparams rfl rfl rfl rfl rfl
  | @context text cs hcs =>
      obtain ⟨css, hcss, hflat⟩ := h.context
      refine ⟨h.params_append hparams, ⟨css ++ [cs], ?_, by simp [hflat]⟩, ?_, ?_, ?_⟩
      · rw [texts_append]
        exact List.rel_append hcss (.cons hcs .nil)
      · simpa [texts_append, Request.statement?] using h.statements
      · simpa [textsOf, texts_append, Request.reference?] using h.references
      · simpa [texts_append, Request.reference?] using h.known
  | statement hcs hdims =>
      refine ⟨h.params_append hparams, ?_, ?_, ?_, ?_⟩
      · simpa [texts_append, Request.context?] using h.context
      · rw [texts_append]
        exact List.rel_append h.statements (.cons ⟨rfl, rfl, hcs, hdims⟩ .nil)
      · intro i s hs
        simp only [textsOf, texts_append, Request.reference?, Option.map_none, Option.toList_none,
          List.append_nil]
        -- the new statement has no references, and none can have been asked for it
        rcases getElem?_append_singleton hs with hs | ⟨rfl, rfl⟩
        · exact h.references i s hs
        · rw [← textsOf, h.textsOf_length]
          exact .nil
      · intro t ht
        have := h.known t (by simpa [texts_append, Request.reference?] using ht)
        simp only [List.length_append]
        omega
  | @reference r x s subs hr hs hsubs =>
      have hc : r.context? = none := by cases r <;> first | rfl | cases hr
      have ht : r.statement? = none := by cases r <;> first | rfl | cases hr
      refine ⟨h.params_append hparams, ?_, ?_, ?_, ?_⟩
      · simpa [texts_append, hc] using h.context
      · rw [texts_append, ht, Option.map_none, Option.toList_none, List.append_nil]
        refine forall₂_modify h.statements (fun t s hread => ?_) x.stmt
        exact ⟨hread.name, hread.iterators, hread.domain, hread.schedule⟩
      · intro i s' hs'
        rw [textsOf, texts_append, hr, List.filter_append, ← textsOf]
        by_cases hi : x.stmt = i
        · subst hi
          rw [List.getElem?_modify_eq, hs] at hs'
          obtain rfl := Option.some.inj hs'
          simp only [Option.map_some, Option.toList_some, List.filter_cons, beq_self_eq_true,
            if_true, List.filter_nil]
          exact List.rel_append (h.references _ s hs) (.cons ⟨rfl, rfl, rfl, hsubs⟩ .nil)
        · rw [List.getElem?_modify_ne _ _ hi] at hs'
          simpa [hi] using h.references i s' hs'
      · intro t ht
        rw [texts_append, hr] at ht
        rw [List.length_modify]
        rcases List.mem_append.mp ht with ht | ht
        · exact h.known t ht
        · obtain rfl := List.mem_singleton.mp ht
          exact (List.getElem?_eq_some_iff.mp hs).1

/-- What the requests of a run that succeed have asked for is there at its end. -/
theorem serve (rs : List Request) : Records (empty.accepted rs) (empty.serve rs).2 :=
  serve_invariant (P := Records) (fun _ _ _ _ _ h hserved => h.served hserved) rs [] records_empty

end Records

/-! ## texts over the names of the program -/

/-- Over the parameters of the program, the text of a statement denotes the forms that are stored
with the later parameters inserted before the iterators. -/
structure StatementText.Denotes (params : List String) (t : List String × StatementText)
    (s : Statement) : Prop where
  declared : t.1 <+: params
  name : s.name = t.2.name
  iterators : s.iterators = t.2.iterators
  domain : ∃ cs, Constraint.parse t.2.domain (params ++ s.iterators) = .ok cs ∧
    List.Forall₂ (Constraint.Moved t.1.length (params.length - t.1.length)) s.domain cs
  schedule : List.Forall₂ (fun text a => ∃ b, Affine.parse text (params ++ s.iterators) = .ok b ∧
    a.Moved t.1.length (params.length - t.1.length) b) t.2.schedule s.schedule

/-- Over the parameters of the program, the texts of a reference denote the subscripts that are
stored with the later parameters inserted before the iterators. -/
structure Asked.Denotes (params iterators : List String) (t : List String × Asked)
    (r : Reference) : Prop where
  declared : t.1 <+: params
  array : r.array = t.2.array
  use : r.use = t.2.use
  definite : r.definite = t.2.definite
  subscripts : List.Forall₂ (fun text u => ∃ v, subscript (params ++ iterators) text = .ok v ∧
    u.Moved t.1.length (params.length - t.1.length) v) t.2.index r.subscripts

/-- The iterators move by the number of the parameters that are declared later. -/
theorem inserts_of_prefix {early params iterators : List String} (h : early <+: params)
    (hdistinct : (params ++ iterators).Nodup) :
    Inserts early.length (params.length - early.length) (early ++ iterators)
      (params ++ iterators) := by
  obtain ⟨later, rfl⟩ := h
  rw [List.length_append, Nat.add_sub_cancel_left]
  exact inserts_append_middle hdistinct

/-- What a text gave at its moment it denotes over the parameters of the program, if no name is used
twice. -/
theorem StatementText.Read.denotes {params : List String} {t : List String × StatementText}
    {s : Statement} (h : Read t s) (ht : t.1 <+: params)
    (hdistinct : (params ++ s.iterators).Nodup) : Denotes params t s := by
  have hinserts := inserts_of_prefix ht hdistinct
  refine ⟨ht, h.name, h.iterators, ⟨_, Constraint.parse_of_inserts hinserts h.domain, ?_⟩, ?_⟩
  · exact Constraint.forall₂_moved_insertVars ..
  · exact h.schedule.imp fun text a ha =>
      ⟨_, Affine.parse_of_inserts hinserts ha, Affine.moved_insertVars ..⟩

/-- What the texts of a reference gave at their moment they denote over the parameters of the
program, if no name is used twice. -/
theorem Asked.Read.denotes {params iterators : List String} {t : List String × Asked}
    {r : Reference} (h : Read iterators t r) (ht : t.1 <+: params)
    (hdistinct : (params ++ iterators).Nodup) : Denotes params iterators t r := by
  have hinserts := inserts_of_prefix ht hdistinct
  exact ⟨ht, h.array, h.use, h.definite, h.subscripts.imp fun text u hu =>
    subscript_of_inserts hinserts hu⟩

/-- Completion is about the arrays only. -/
theorem finish_eq_ok {d : Draft} {p : Program} (h : d.finish = .ok p) :
    p.params = d.program.params ∧ p.context = d.program.context ∧
      p.statements = d.program.statements := by
  simp only [finish, Program.recomputeExtents, Program.recomputeFlags, Outcome.bind_eq_ok,
    Outcome.pure_eq_ok] at h
  obtain ⟨-, -, arrays, -, rfl⟩ := h
  exact ⟨rfl, rfl, rfl⟩

/-- The context, the statements and the references of a finished program are those that were asked
for, in order. Over the names of the program the texts of the context denote what is stored.  Those
of a statement or reference denote what is stored with the parameters that were declared later
inserted before the iterators: the stored form is the same only if there are none, or it uses no
iterator. -/
theorem later_parameters_move_iterators (rs : List Request) (p : Program)
    (hp : (empty.serve rs).2.finish = .ok p)
    (hdistinct : ∀ s ∈ p.statements, (p.params ++ s.iterators).Nodup) :
    (∃ css, List.Forall₂ (fun t cs => Constraint.parse t.2 p.params = .ok cs)
        (texts Request.context? (empty.accepted rs)) css ∧ p.context = css.flatten) ∧
      List.Forall₂ (StatementText.Denotes p.params) (texts Request.statement? (empty.accepted rs))
        p.statements ∧
      ∀ i s, p.statements[i]? = some s →
        List.Forall₂ (Asked.Denotes p.params s.iterators) (textsOf i (empty.accepted rs))
        s.references := by
  obtain ⟨hparams, hcontext, hstatements⟩ := finish_eq_ok hp
  have hrecords := Records.serve rs
  rw [hparams] at hdistinct ⊢
  rw [hstatements] at hdistinct ⊢
  refine ⟨?_, ?_, fun i s hs => ?_⟩
  · obtain ⟨css, hcss, hflat⟩ := hrecords.context
    refine ⟨css, ?_, hcontext.trans hflat⟩
    refine hcss.mem_left.imp fun t cs ⟨ht, hcs⟩ => ?_
    obtain ⟨later, hlater⟩ := hrecords.declared ht
    exact hlater ▸ Constraint.parse_append_right hcs later
  · refine hrecords.statements.mem_left.mem_right.imp fun t s ⟨hs, ht, hread⟩ => ?_
    exact hread.denotes (hrecords.declared ht) (hdistinct s hs)
  · refine (hrecords.references i s hs).mem_left.imp fun t r ⟨ht, hread⟩ => ?_
    exact hread.denotes (hrecords.declared (List.mem_of_mem_filter ht))
      (hdistinct s (List.mem_of_getElem? hs))

/-- A parameter is declared between a statement and its reference. -/
def lateRequests : List Request :=
  [.param "N", .array (.ofShape "A" "float" 4 1),
    .statement "S" ["i"] "0 <= i < N" ["i"], .param "M", .context "M >= 1", .read 0 "A" ["i + M"]]

def lateProgram : Program where
  params := ["N", "M"]
  context := [⟨.inequality, ⟨[0, 1], -1⟩⟩]
  arrays := [{ ArrayDecl.ofShape "A" "float" 4 1 with extent := some [⟨none, none⟩],
                                                      readOnly := true }]
  statements := [{
    name := "S"
    iterators := ["i"]
    domain := [⟨.inequality, ⟨[0, 1], 0⟩⟩, ⟨.inequality, ⟨[1, -1], -1⟩⟩]
    schedule := [⟨[0, 1], 0⟩]
    references := [⟨0, "A", .read, true, [.single ⟨[0, 1, 1], 0⟩]⟩] }]
  regions := []

theorem late_requests_move_iterators :
    (empty.serve lateRequests).2.finish = .ok lateProgram ∧
      (∀ s ∈ lateProgram.statements, (lateProgram.params ++ s.iterators).Nodup) ∧
      (∃ css, List.Forall₂ (fun t cs => Constraint.parse t.2 lateProgram.params = .ok cs)
        [(["N", "M"], "M >= 1")] css ∧
        lateProgram.context = css.flatten) ∧
      List.Forall₂ (StatementText.Denotes lateProgram.params)
        [(["N"], ⟨"S", ["i"], "0 <= i < N", ["i"]⟩)] lateProgram.statements ∧
      ∀ s, lateProgram.statements[0]? = some s →
        List.Forall₂ (Asked.Denotes lateProgram.params s.iterators)
        [(["N", "M"], ⟨0, "A", .read, true, ["i + M"]⟩)]
          s.references := by
  have hp : (empty.serve lateRequests).2.finish = .ok lateProgram := by decide +kernel
  have hdistinct : ∀ s ∈ lateProgram.statements, (lateProgram.params ++ s.iterators).Nodup := by
    decide
  have hcontext : texts Request.context? (empty.accepted lateRequests) =
      [(["N", "M"], "M >= 1")] := by decide +kernel
  have hstatements : texts Request.statement? (empty.accepted lateRequests) =
      [(["N"], ⟨"S", ["i"], "0 <= i < N", ["i"]⟩)] := by decide +kernel
  have hreferences : textsOf 0 (empty.accepted lateRequests) =
      [(["N", "M"], ⟨0, "A", .read, true, ["i + M"]⟩)] := by decide +kernel
  have hmoved := later_parameters_move_iterators lateRequests lateProgram hp hdistinct
  rw [hcontext, hstatements] at hmoved
  exact ⟨hp, hdistinct, hmoved.1, hmoved.2.1, fun s hs => hreferences ▸ hmoved.2.2 0 s hs⟩

/-- With a parameter declared after the statement, its iterator is taken for the parameter: over the
names of the program the schedule is `N`, where its text is `i`. -/
theorem iterator_is_taken_for_parameter :
    ∃ p : Program,
      (empty.serve [.statement "S" ["i"] "0 <= i < 8" ["i"], .param "N"]).2.finish = .ok p ∧
      (∀ s ∈ p.statements, (p.params ++ s.iterators).Nodup) ∧
      ∃ s ∈ p.statements, ∃ a ∈ s.schedule, ∃ b,
        Affine.parse "i" (p.params ++ s.iterators) = .ok b ∧ b.same a = false ∧
        Affine.parse "N" (p.params ++ s.iterators) = .ok a := by
  let s : Statement :=
    ⟨"S", ["i"], [⟨.inequality, ⟨[1], 0⟩⟩, ⟨.inequality, ⟨[-1], 7⟩⟩], [⟨[1], 0⟩], []⟩
  refine ⟨{ Program.empty with params := ["N"], statements := [s] }, by decide +kernel,
    by decide, ?_⟩
  refine ⟨s, List.mem_singleton_self s, ⟨[1], 0⟩, List.mem_singleton_self _,
    ⟨[0, 1], 0⟩, ?_, ?_, ?_⟩
  · decide +kernel
  · decide +kernel
  · decide +kernel

end KernelMap.Draft
