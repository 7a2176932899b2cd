import KernelMap.Program.Draft
import KernelMap.Proofs.Outcome
import Mathlib.Data.List.Perm.Basic
import Mathlib.Data.List.Nodup
import Mathlib.Data.List.ReduceOption

/-!
# KernelMap.Proofs.DraftSteps

What the steps on a draft do.

A step either fails, and then the draft is as it was, or it does what `Request.Served` says: it adds
what it was asked for, read against the names of that moment (`Request.atomic_step`).  So a run of
requests comes to the same draft as the run of those that succeed (`serve_accepted`), and the
counter of references keeps in step with the references that are stored (`range_append_numbers`,
`perm_referenceIds`).
-/

namespace KernelMap.Draft

/-! ## running a step -/

namespace Step

variable {α β : Type} {d : Draft}

/-- On `d` the step fails without a trace, or its answer and the draft it leaves are as `Q` says. -/
def Atomic (x : Step α) (d : Draft) (Q : α → Draft → Prop) : Prop :=
  (∃ e, x.on d = (.error e, d)) ∨ ∃ a d', x.on d = (.ok a, d') ∧ Q a d'

/-- A step that succeeds as promised is atomic. -/
theorem Atomic.of_ok {x : Step α} {Q : α → Draft → Prop} {a : α} {d' : Draft}
    (h : x.on d = (.ok a, d')) (hQ : Q a d') : x.Atomic d Q :=
  .inr ⟨a, d', h, hQ⟩

/-- Looking at the draft first does not matter. -/
theorem atomic_get_bind {f : Draft → Step β} {Q : β → Draft → Prop} (h : (f d).Atomic d Q) :
    ((get : Step Draft) >>= f).Atomic d Q := h

/-- A computation beside the draft may fail as long as the draft has not changed. -/
theorem atomic_attempt_bind {x : Outcome MapError α} {f : α → Step β} {Q : β → Draft → Prop}
    (h : ∀ a, x = .ok a → (f a).Atomic d Q) : (attempt x >>= f).Atomic d Q := by
  cases x with
  | error e => exact .inl ⟨e, rfl⟩
  | ok a => exact h a rfl

/-- Two steps are taken one after the other, if the first succeeds. -/
theorem on_bind (x : Step α) (f : α → Step β) :
    (x >>= f).on d = (ExceptT.bindCont f (x.on d).1 : StateM Draft _) (x.on d).2 := rfl

theorem atomic_bind_pure {x : Step α} {f : α → β} {Q : β → Draft → Prop}
    (h : x.Atomic d fun a => Q (f a)) : (x >>= fun a => pure (f a)).Atomic d Q := by
  rcases h with ⟨e, h⟩ | ⟨a, d', h, hQ⟩
  · refine .inl ⟨e, ?_⟩
    rw [on_bind, h]
    rfl
  · refine .of_ok ?_ hQ
    rw [on_bind, h]
    rfl

end Step

/-! ## what a step does -/

/-- A reference as it is asked for: the statement and the array, what it does, and the texts of its
subscripts. -/
structure Asked where
  stmt : Nat
  array : String
  use : Use
  definite : Bool
  index : List String
deriving DecidableEq

namespace Request

/-- The reference that is asked for, if it is one. -/
def reference? : Request → Option Asked
  | .read stmt name index => some ⟨stmt, name, .read, true, index⟩
  | .write stmt name index => some ⟨stmt, name, .write, true, index⟩
  | .mayWrite stmt name index => some ⟨stmt, name, .write, false, index⟩
  | .reference stmt name use definite index => some ⟨stmt, name, use, definite, index⟩
  | _ => none

/-- What a request that succeeds does to a draft, and its answer. -/
inductive Served (d : Draft) : Request → Option Nat → Draft → Prop
  | param (name : String) :
      Served d (.param name) none
        { d with program := { d.program with params := d.program.params ++ [name] } }
  | context {text : String} {cs : List Constraint}
      (hcs : Constraint.parse text d.program.params = .ok cs) :
      Served d (.context text) none
        { d with program := { d.program with context := d.program.context ++ cs } }
  | array (decl : ArrayDecl) :
      Served d (.array decl) none
      { d with program := { d.program with arrays := d.program.arrays ++ [decl] } }
  | statement {name domain : String} {iterators schedule : List String} {cs : List Constraint}
      {dims : List Affine} (hcs : Constraint.parse domain (d.names iterators) = .ok cs)
      (hdims : List.Forall₂ (fun text a => Affine.parse text (d.names iterators) = .ok a)
        schedule dims) :
      Served d (.statement name iterators domain schedule) (some d.program.statements.length)
        { d with
          program := { d.program with
            statements := d.program.statements ++ [⟨name, iterators, cs, dims, []⟩] } }
  | reference {r : Request} {x : Asked} {s : Statement} {subs : List Subscript}
      (hr : r.reference? = some x) (hs : d.program.statements[x.stmt]? = some s)
      (hsubs : List.Forall₂
        (fun text u => subscript (d.names s.iterators) text = .ok u) x.index subs) :
      Served d r (some d.nextRef)
        { program := { d.program with
            statements := d.program.statements.modify x.stmt fun s =>
              { s with references := s.references ++
                         [⟨d.nextRef, x.array, x.use, x.definite, subs⟩] } },
          nextRef := d.nextRef + 1 }
  | region {statements : List Nat} {tileFirst tileLen : Nat} (hlen : tileLen ≤ maxFlags) :
      Served d (.region statements tileFirst tileLen) none
        { d with program := { d.program with
            regions := d.program.regions ++
              [⟨statements, tileFirst, tileLen, List.replicate tileLen true⟩] } }
  | coincident {i : Nat} {flags : List Bool} {region : Region}
      (hregion : d.program.regions[i]? = some region) : Served d (.coincident i flags) none
        { d with
          program := { d.program with
            regions := d.program.regions.set i { region with coincident := flags } } }

/-- A request for a reference, in whatever form, makes that reference. -/
theorem step_of_reference? {r : Request} {x : Asked} (h : r.reference? = some x) :
    r.step = do return some (← Draft.reference x.stmt x.array x.use x.definite x.index) := by
  cases r with
  | read | write | mayWrite | reference =>
      obtain rfl := Option.some.inj h
      rfl
  | _ => cases h

/-- A request for a reference is served as a whole or not at all. -/
theorem atomic_reference {r : Request} {x : Asked} (hr : r.reference? = some x) (d : Draft) :
    r.step.Atomic d (Served d r) := by
  rw [step_of_reference? hr]
  refine Step.atomic_bind_pure (Step.atomic_get_bind ?_)
  refine Step.atomic_attempt_bind fun s hs =>
    Step.atomic_get_bind (Step.atomic_attempt_bind fun subs hsubs => ?_)
  refine .of_ok rfl (.reference hr (Outcome.orRaise_eq_ok.mp hs) ?_)
  exact Outcome.mapM_eq_ok.mp (Outcome.widen_eq_ok.mp hsubs)

/-- A step fails and changes nothing, or does what it is asked for. -/
theorem atomic_step (r : Request) (d : Draft) : r.step.Atomic d (Served d r) := by
  cases r with
  | param name => exact .of_ok rfl (.param name)
  | array decl => exact .of_ok rfl (.array decl)
  | context text =>
      refine Step.atomic_bind_pure
        (Step.atomic_get_bind (Step.atomic_attempt_bind fun cs hcs => ?_))
      exact .of_ok rfl (.context (Outcome.widen_eq_ok.mp hcs))
  | statement name iterators domain schedule =>
      refine Step.atomic_bind_pure (Step.atomic_get_bind ?_)
      refine Step.atomic_attempt_bind fun cs hcs => Step.atomic_attempt_bind fun dims hdims => ?_
      have hserved : Served d (.statement name iterators domain schedule) _ _ :=
        .statement (Outcome.widen_eq_ok.mp hcs)
          (Outcome.mapM_eq_ok.mp (Outcome.widen_eq_ok.mp hdims))
      exact .of_ok rfl (by simpa using hserved)
  | read | write | mayWrite | reference => exact atomic_reference rfl d
  | region statements tileFirst tileLen =>
      refine Step.atomic_bind_pure ?_
      unfold Draft.region
      split
      · exact .inl ⟨_, rfl⟩
      · next hlen => exact .of_ok rfl (.region (Nat.le_of_not_lt hlen))
  | coincident i flags =>
      refine Step.atomic_bind_pure
        (Step.atomic_get_bind (Step.atomic_attempt_bind fun region hregion => ?_))
      exact .of_ok rfl (.coincident (Outcome.orFault_eq_ok.mp hregion))

end Request

/-! ## runs of requests -/

/-- The requests that succeed, each with the draft it was made to. -/
def accepted (d : Draft) : List Request → List (Draft × Request)
  | [] => []
  | r :: rs =>
    if (r.step.on d).1.isOk then (d, r) :: accepted (r.step.on d).2 rs
    else accepted (r.step.on d).2 rs

/-- The first request is served on the draft, and the others on what it leaves. -/
theorem serve_cons (d : Draft) (r : Request) (rs : List Request) :
    d.serve (r :: rs) =
      ((r.step.on d).1 :: ((r.step.on d).2.serve rs).1, ((r.step.on d).2.serve rs).2) := rfl

/-- What every request that succeeds keeps is kept by a run; the requests that have succeeded are at
hand. -/
theorem serve_invariant {P : List (Draft × Request) → Draft → Prop}
    (hstep : ∀ log d r a d', P log d → Request.Served d r a d' → P (log ++ [(d, r)]) d')
    (rs : List Request) (log : List (Draft × Request)) {d : Draft} (h : P log d) :
    P (log ++ d.accepted rs) (d.serve rs).2 := by
  induction rs generalizing log d with
  | nil => simpa [accepted, serve] using h
  | cons r rs ih =>
      rcases r.atomic_step d with ⟨e, hr⟩ | ⟨a, d', hr, hserved⟩
      · simpa [accepted, serve_cons, hr, Except.isOk, Except.toBool] using ih log h
      · have hd' := ih _ (hstep log d r a d' h hserved)
        simpa [accepted, serve_cons, hr, Except.isOk, Except.toBool] using hd'

/-- The requests that succeed, made alone, get the same answers and leave the same draft. -/
theorem serve_accepted (d : Draft) (rs : List Request) :
    d.serve ((d.accepted rs).map Prod.snd) = ((d.serve rs).1.filter Except.isOk,
      (d.serve rs).2) := by
  induction rs generalizing d with
  | nil => rfl
  | cons r rs ih =>
      rcases r.atomic_step d with ⟨e, hr⟩ | ⟨a, d', hr, -⟩
      · have herror : (Except.error e : Outcome MapError (Option Nat)).isOk = false := rfl
        simp [accepted, serve_cons, hr, herror, ih d]
      · have hok : (Except.ok a : Outcome MapError (Option Nat)).isOk = true := rfl
        simp [accepted, serve_cons, hr, hok, ih d']

/-! ## numbers of references -/

/-- The number of a reference that has been made. -/
def referenceNumber? (r : Request) (answer : Outcome MapError (Option Nat)) : Option Nat :=
  if r.reference?.isSome then answer.toOption.join else none

/-- The numbers that the requests for references have been answered with, in order. -/
def numbers (rs : List Request) (answers : List (Outcome MapError (Option Nat))) : List Nat :=
  (List.zipWith referenceNumber? rs answers).reduceOption

/-- The numbers of all references of a program. -/
def referenceIds (p : Program) : List Nat :=
  p.statements.flatMap fun s => s.references.map Reference.id

/-- A reference takes the next number; nothing else does. -/
theorem Request.Served.range_nextRef {d d' : Draft} {r : Request} {a : Option Nat}
    (h : Served d r a d') :
    List.range d.nextRef ++ (referenceNumber? r (.ok a)).toList = List.range d'.nextRef := by
  cases h with
  | reference hr => simp [referenceNumber?, hr, Except.toOption, List.range_succ]
  | _ => simp [referenceNumber?, Request.reference?]

/-- The numbers given out continue those of the draft without a gap. -/
theorem range_append_numbers (d : Draft) (rs : List Request) :
    List.range d.nextRef ++ numbers rs (d.serve rs).1 = List.range (d.serve rs).2.nextRef := by
  induction rs generalizing d with
  | nil => simp [numbers, serve, List.reduceOption_nil]
  | cons r rs ih =>
      rcases r.atomic_step d with ⟨e, hr⟩ | ⟨a, d', hr, hserved⟩
      · have hnone : referenceNumber? r (.error e) = none := by
          simp [referenceNumber?, Except.toOption]
        simpa [numbers, serve_cons, hr, hnone, List.reduceOption_cons_of_none] using ih d
      · have hd' := ih d'
        rw [← hserved.range_nextRef, List.append_assoc] at hd'
        rw [serve_cons, hr, ← hd', numbers, List.zipWith_cons_cons]
        cases referenceNumber? r (.ok a) <;> rfl

/-- An element added to one of the lists is one more in all of them together. -/
theorem perm_flatMap_modify {α β : Type} {xs : List α} {i : Nat} {x : α} {f : α → α}
    {g : α → List β} {y : β} (hx : xs[i]? = some x) (hf : g (f x) = g x ++ [y]) :
    ((xs.modify i f).flatMap g).Perm (y :: xs.flatMap g) := by
  induction xs generalizing i with
  | nil => simp at hx
  | cons z zs ih =>
      cases i with
      | zero =>
          obtain rfl : z = x := by simpa using hx
          rw [List.modify_zero_cons, List.flatMap_cons, List.flatMap_cons, hf, List.append_assoc]
          exact List.perm_middle
      | succ i =>
          rw [List.modify_succ_cons, List.flatMap_cons, List.flatMap_cons]
          exact ((ih (by simpa using hx)).append_left (g z)).trans List.perm_middle

/-- The references have the numbers up to the counter, each once. -/
theorem Request.Served.perm_referenceIds {d d' : Draft} {r : Request} {a : Option Nat}
    (h : Served d r a d') (hd : (referenceIds d.program).Perm (List.range d.nextRef)) :
    (referenceIds d'.program).Perm (List.range d'.nextRef) := by
  cases h with
  | statement => simpa [referenceIds] using hd
  | reference hr hs =>
      rw [List.range_succ]
      exact (perm_flatMap_modify hs (by simp)).trans
        ((hd.cons _).trans (List.perm_append_singleton _ _).symm)
  | _ => exact hd

/-- A request that fails leaves the draft as it was, so that the requests that succeed get the same
answers and leave the same draft if the others are not made at all; what is read out of the draft,
its finished program included, is the same too.  References are numbered from zero in the order in
which they are made: these are the numbers that their requests are answered with and, each once, the
numbers that are stored. -/
theorem failed_requests_leave_no_trace (rs : List Request) :
    (∀ (d : Draft) (r : Request), (r.step.on d).1.isOk = true ∨ (r.step.on d).2 = d) ∧
      empty.serve ((empty.accepted rs).map Prod.snd) = ((empty.serve rs).1.filter Except.isOk,
        (empty.serve rs).2) ∧
      numbers rs (empty.serve rs).1 = List.range (empty.serve rs).2.nextRef ∧
      (referenceIds (empty.serve rs).2.program).Perm (List.range (empty.serve rs).2.nextRef) ∧
      (referenceIds (empty.serve rs).2.program).Nodup := by
  have hperm : (referenceIds (empty.serve rs).2.program).Perm
      (List.range (empty.serve rs).2.nextRef) :=
    serve_invariant (P := fun _ d => (referenceIds d.program).Perm (List.range d.nextRef))
      (fun _ _ _ _ _ hd hserved => hserved.perm_referenceIds hd) rs [] (.refl _)
  refine ⟨fun d r => ?_, serve_accepted empty rs, range_append_numbers empty rs, hperm,
    hperm.nodup_iff.mpr List.nodup_range⟩
  rcases r.atomic_step d with ⟨e, hr⟩ | ⟨a, d', hr, -⟩
  · exact .inr (by rw [hr])
  · exact .inl (by rw [hr]; rfl)

end KernelMap.Draft
