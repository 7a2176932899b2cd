import KernelMap.Proofs.Derivations
import KernelMap.Proofs.Tightening

/-!
# KernelMap.Proofs.EngineFaults

Which questions to the engine fault.

The engine reports numbers that leave the words, with one gap: a combination is checked,
its normal form is not.  For each question a definition of the same name in
`Polyhedron.Formed` lists the constraints that are formed on the way to the answer.
All other operations without a check stay within the words, whatever constraints were
entered.

Main statement: `Polyhedron.engine_faults_on_stuck_constraints` — on a polyhedron
of entered constraints every question is answered, or reported to overflow or to be too
complex, unless a stuck constraint is formed; then it faults.
-/

namespace KernelMap

open Outcome

/-! ## forms -/

namespace Affine

/-- Scaling a form does not fault, and gives words. -/
theorem yields_scale (a : Affine) (k : Int) : Yields [] Representable (a.scale k) := by
  refine .orOverflow fun b hb => ?_
  simp only [Option.bind_eq_bind, Option.bind_eq_some_iff, Option.pure_def, Option.some.injEq,
    Word.mul?_eq_some] at hb
  obtain ⟨cs, hcs, _, ⟨hconstant, rfl⟩, rfl⟩ := hb
  have hwords : Representable ⟨cs, a.constant * k⟩ :=
    ⟨Coeffs.fits_of_map? (fun x y hy => (Word.mul?_eq_some.mp hy).2 ▸ (Word.mul?_eq_some.mp hy).1)
      hcs, hconstant⟩
  refine ⟨Coeffs.forall_mem_of_get fun i => ?_, hconstant⟩
  rw [trimmed, Coeffs.get_trim]
  exact hwords.fits_coeff i

theorem representable_var (v : Nat) : (var v).Representable := by
  refine ⟨Coeffs.forall_mem_of_get fun i => ?_, by simp [var, term, const,
    Word.negatable_zero.fits]⟩
  have hcoeff : Coeffs.get (var v).coeffs i = if i = v then 1 else 0 := coeff_var v i
  rw [hcoeff]
  split <;> decide

end Affine

namespace Constraint

/-- A constraint made from terms has words for its numbers. -/
theorem representable_ofTerms {ε : Type} {kind : Kind} {terms : List (Nat × Int)} {k : Int}
    {c : Constraint} (hk : Word.fits k = true)
    (h : (ofTerms kind terms k : Outcome ε Constraint) = .ok c) : c.Representable := by
  have hterms : ∀ (terms : List (Nat × Int)) (cs r : List Int), (∀ x ∈ cs, Word.fits x = true) →
      (addTerms terms cs : Outcome ε (List Int)) = .ok r → ∀ x ∈ r, Word.fits x = true := by
    intro terms
    induction terms with
    | nil => exact fun cs r hcs hr => Except.ok.inj hr ▸ hcs
    | cons t terms ih =>
        intro cs r hcs hr
        simp only [addTerms, bind_eq_ok, orFault_eq_ok, Word.add?_eq_some] at hr
        obtain ⟨_, ⟨hfits, rfl⟩, hr⟩ := hr
        exact ih _ r (fun x hx => (List.mem_or_eq_of_mem_set hx).elim (hcs x) fun heq =>
          heq ▸ hfits) hr
  simp only [ofTerms] at h
  split at h
  · simp at h
  simp only [bind_eq_ok, pure_eq_ok] at h
  obtain ⟨cs, hcs, rfl⟩ := h
  exact ⟨hterms terms _ cs (fun x hx => List.eq_of_mem_replicate hx ▸ rfl) hcs, hk⟩

end Constraint

namespace Polyhedron

variable {s t : Polyhedron} {a : Affine} {c : Constraint}

/-! ## adding constraints -/

/-- Variables are added without a fault, up to the greatest length. -/
theorem yields_addVars {ε : Type} {n : Nat} (hs : s.Storable) (hn : s.nVars + n ≤ Index.maxLength) :
    Yields [] (fun t => t.Storable ∧ t.nVars = s.nVars + n)
      (s.addVars n : Outcome ε Polyhedron) := by
  have hadd : Index.add? s.nVars n = some (s.nVars + n) := by
    rw [Index.add?, if_pos]
    unfold Index.maxLength at hn
    unfold Index.limit
    omega
  refine .of_ne_fault ?_ fun t ht => ?_
  · simp [addVars, hadd, Nat.not_lt.mpr hn]
  · rw [addVars_eq_ok ht]
    exact ⟨List.forall_mem_map.mpr fun c hc => (hs c hc).pad _, rfl⟩

/-- Whatever constraint of words is added, what is kept of it is storable. -/
theorem Storable.add {ε : Type} (hs : s.Storable) (hc : c.Representable)
    (h : (s.add c : Outcome ε Polyhedron) = .ok t) : t.Storable :=
  forall_mem_add (fun _ n hd => hd.pad n) hs
    (fun _ _ hd _ => Constraint.storable_of_normalize (hc.pad _) hd) h

/-- A storable constraint is added without a fault. -/
theorem yields_add {ε : Type} (hs : s.Storable) (hc : c.Storable) (hn : s.nVars ≤ Index.maxLength)
    (hlen : c.coeffs.length ≤ Index.maxLength) :
    Yields [] Storable (s.add c : Outcome ε Polyhedron) := by
  have hgrow : Yields [] (fun u : Polyhedron => u.nVars ≤ Index.maxLength)
      (if s.nVars < c.coeffs.length then s.addVars (c.coeffs.length - s.nVars) else .ok s :
        Outcome ε Polyhedron) := by
    split
    · refine (yields_addVars hs (by omega)).imp fun u _ hu => ?_
      omega
    · exact .ok hn
  have hadd : Yields [] (fun _ => True) (s.add c : Outcome ε Polyhedron) := by
    rw [add_eq_bind]
    refine .bind_last hgrow fun u _ hu => ?_
    rw [if_neg (by omega)]
    refine .bind_last (hc.pad _).yields_normalize fun r _ _ => ?_
    cases r <;> exact .pure trivial
  exact hadd.imp fun t ht _ => hs.add hc.representable ht

/-! ## emptiness -/

namespace Formed

/-- The constraints formed to find out whether `s` is empty. -/
def isEmpty (s : Polyhedron) : List Constraint :=
  if s.infeasible then [] else s.derivations (List.range s.nVars)

end Formed

/-- The test for emptiness faults exactly if it forms a stuck constraint. -/
theorem yields_isEmpty (hs : s.Storable) (hn : s.nVars ≤ Index.maxLength) :
    Yields (Formed.isEmpty s) (fun _ => True) s.isEmpty := by
  refine .ite (fun _ => .ok trivial) fun _ => ?_
  rw [if_neg (by omega)]
  exact .bind_last (yields_project hs _) fun _ _ _ => .pure trivial

/-! ## optima -/

/-- An objective of words is added without a fault. -/
theorem yields_withObjective (hs : s.Storable) (ha : a.Representable)
    (hn : s.nVars < Index.maxLength) : Yields [] Storable (s.withObjective a) := by
  refine .bind_last (yields_addVars hs hn) fun t _ ht => ?_
  rw [if_neg (by omega)]
  have htake : ∀ x ∈ Coeffs.pad s.nVars (a.coeffs.take s.nVars),
      Word.fits x = true := fun x hx => by
    rcases List.mem_append.mp hx with hx | hx
    · exact ha.1 x (List.mem_of_mem_take hx)
    · exact List.eq_of_mem_replicate hx ▸ rfl
  refine .bind_last (.orOverflow fun cs hcs => Coeffs.negatable_of_negate? htake hcs) fun cs _
    ⟨hlength, hcs⟩ => ?_
  refine .bind_last (.orOverflow fun k hk => Word.negatable_of_neg? ha.2 hk) fun k _ hk => ?_
  have hobjective : (Constraint.eq ⟨cs ++ [1], k⟩).Storable := by
    refine Constraint.storable_eq (fun x hx => ?_) hk
    rcases List.mem_append.mp hx with hx | hx
    · exact hcs x hx
    · exact List.mem_singleton.mp hx ▸ Word.negatable_one
  have hcount : (Constraint.eq ⟨cs ++ [1], k⟩).coeffs.length = s.nVars + 1 := by
    rw [Coeffs.length_pad, List.length_take] at hlength
    simp only [Constraint.eq, Constraint.coeffs, List.length_append, List.length_singleton]
    omega
  exact yields_add ht.1 hobjective (by omega) (by omega)

/-- A bound is a quotient of a negated word, or of a word by a positive one. -/
theorem yields_upperBound? (hc : c.Storable) (v : Nat) :
    Yields [] (fun _ => True) (upperBound? v c) := by
  have hquotient : ∀ {x g : Int}, g ≠ 0 → Word.fits (x.fdiv g) = true →
      Yields [] (fun _ => True) (orFault (Word.floorDiv? x g) >>= fun q => pure (some q) :
        Outcome EngineError (Option Int)) := by
    intro x g hg hfits
    have hfloor := Word.floorDiv?_eq_some.mpr ⟨hg, hfits, rfl⟩
    exact .bind_last (.orFault (P := fun _ => True) hfloor trivial) fun _ _ _ => .pure trivial
  unfold upperBound?
  dsimp only
  split
  · split
    · exact .ok trivial
    · next ha =>
      refine .bind_last (.orOverflow fun num => Word.negatable_of_neg? hc.representable.2)
        fun num _ hnum => ?_
      exact hquotient ha (hnum.fits_fdiv ha)
  · split
    · next ha =>
      refine .bind_last (.orOverflow (P := (0 < ·)) fun den hden => ?_) fun den _ hpos => ?_
      · obtain ⟨-, rfl⟩ := Word.neg?_eq_some.mp hden
        omega
      · exact hquotient hpos.ne' (Word.fits_fdiv hpos hc.representable.2)
    · exact .ok trivial

/-- Reading off the least upper bound does not fault on storable constraints. -/
theorem yields_leastUpper {cs : List Constraint} (hcs : ∀ c ∈ cs, c.Storable) (v : Nat)
    (best : Option Int) : Yields [] (fun _ => True) (leastUpper v cs best) := by
  induction cs generalizing best with
  | nil => exact .ok trivial
  | cons c cs ih =>
      obtain ⟨hc, hcs⟩ := List.forall_mem_cons.mp hcs
      refine .bind_last (yields_upperBound? hc v) fun bound _ _ => ?_
      cases bound <;> exact ih hcs _

namespace Formed

/-- The constraints formed to find the maximum of `a` on `s`. -/
def maximize (s : Polyhedron) (a : Affine) : List Constraint :=
  if s.infeasible then [] else (s.withObjective a).follow fun u =>
    u.derivations (List.range s.nVars)

/-- The constraints formed to find the minimum of `a` on `s`. -/
def minimize (s : Polyhedron) (a : Affine) : List Constraint := (a.scale (-1)).follow (maximize s)

end Formed

/-- Maximizing faults exactly if it forms a stuck constraint. -/
theorem yields_maximize (hs : s.Storable) (ha : a.Representable) (hn : s.nVars < Index.maxLength) :
    Yields (Formed.maximize s a) (fun _ => True) (s.maximize a) := by
  refine .ite (fun _ => .ok trivial) fun _ => ?_
  refine .bind_follow (yields_withObjective hs ha hn) fun u _ hu => ?_
  refine .bind_last (yields_project hu _) fun p _ hp => ?_
  split
  · exact .pure trivial
  · exact .bind_last (yields_leastUpper hp _ _) fun best _ _ => .pure trivial

theorem yields_minimize (hs : s.Storable) (hn : s.nVars < Index.maxLength) (a : Affine) :
    Yields (Formed.minimize s a) (fun _ => True) (s.minimize a) := by
  refine .bind_follow (Affine.yields_scale a (-1)) fun b _ hb => ?_
  refine .bind_last (yields_maximize hs hb hn) fun r _ _ => ?_
  cases r with
  | value v => exact .bind_last (.orOverflow fun _ _ => trivial) fun _ _ _ => .pure trivial
  | unbounded | empty => exact .pure trivial

/-- The constant of an objective with a maximum has a negation. -/
theorem fits_neg_of_maximize {v : Int} (h : s.maximize a = .ok (.value v)) :
    Word.fits (-a.constant) = true := by
  obtain ⟨-, hempty⟩ | ⟨u, p, hu, -⟩ := maximize_cases h
  · cases hempty
  · simp only [withObjective, bind_eq_ok] at hu
    obtain ⟨t, -, hu⟩ := hu
    split at hu
    · simp at hu
    simp only [bind_eq_ok, orOverflow_eq_ok, Word.neg?_eq_some] at hu
    obtain ⟨_, -, _, ⟨hfits, -⟩, -⟩ := hu
    exact hfits

/-- A minimum is the negation of a word. -/
theorem negatable_of_minimize {v : Int} (h : s.minimize a = .ok (.value v)) : Word.Negatable v := by
  simp only [minimize, bind_eq_ok] at h
  obtain ⟨b, -, r, hr, h⟩ := h
  cases r with
  | value x =>
      simp only [bind_eq_ok, orOverflow_eq_ok, pure_eq_ok, Optimum.value.injEq] at h
      obtain ⟨_, hneg, rfl⟩ := h
      exact Word.negatable_of_neg? (fits_of_maximize hr) hneg
  | unbounded | empty => simp at h

/-! ## inclusion -/

namespace Formed

/-- The constraints formed to refute all of the list. -/
def refutesAll (s : Polyhedron) : List Constraint → List Constraint
  | [] => []
  | c :: cs =>
    (s.add c : Outcome EngineError Polyhedron).follow fun t =>
      isEmpty t ++ t.isEmpty.follow fun empty => if empty then refutesAll s cs else []

/-- The constraints formed to find out whether all of the list hold on `s`. -/
def entailsAll (s : Polyhedron) : List Constraint → List Constraint
  | [] => []
  | c :: cs =>
    c.negated.follow fun ds =>
      refutesAll s ds ++
        (s.refutesAll ds).follow fun refuted => if refuted then entailsAll s cs else []

/-- The constraints formed to find out whether `s` is contained in `t`. -/
def subset (s t : Polyhedron) : List Constraint :=
  if t.infeasible then isEmpty s else entailsAll s t.constraints

end Formed

/-- A storable constraint is negated without a fault, into storable ones. -/
theorem yields_negated (hc : c.Storable) :
    Yields [] (fun ds => ∀ d ∈ ds, d.Storable ∧ d.coeffs.length = c.coeffs.length) c.negated := by
  refine .orOverflow fun ds hds => ?_
  simp only [Option.bind_eq_bind, Option.bind_eq_some_iff, Word.neg?_eq_some,
    Word.sub?_eq_some] at hds
  obtain ⟨flipped, hflipped, _, ⟨-, rfl⟩, _, ⟨hbelow, rfl⟩, hds⟩ := hds
  obtain ⟨hlength, hnegatable⟩ := Coeffs.negatable_of_negate? hc.representable.coeffs hflipped
  have hlow : (Constraint.ge ⟨flipped, -c.constant - 1⟩).Storable :=
    Constraint.storable_ge hnegatable hbelow
  cases hkind : c.kind with
  | inequality =>
      simp only [hkind, Option.pure_def, Option.some.injEq] at hds
      subst hds
      exact List.forall_mem_singleton.mpr ⟨hlow, hlength⟩
  | equality =>
      simp only [hkind, Option.bind_eq_some_iff, Word.sub?_eq_some, Option.pure_def,
        Option.some.injEq] at hds
      obtain ⟨_, ⟨habove, rfl⟩, rfl⟩ := hds
      have hhigh : (Constraint.ge ⟨c.coeffs, c.constant - 1⟩).Storable :=
        Constraint.storable_ge hc.negatable habove
      exact List.forall_mem_cons.mpr ⟨⟨hhigh, rfl⟩, List.forall_mem_singleton.mpr ⟨hlow, hlength⟩⟩

theorem yields_refutesAll {cs : List Constraint} (hs : s.Storable) (hn : s.nVars ≤ Index.maxLength)
    (hcs : ∀ c ∈ cs, c.Storable ∧ c.coeffs.length ≤ Index.maxLength) :
    Yields (Formed.refutesAll s cs) (fun _ => True) (s.refutesAll cs) := by
  induction cs with
  | nil => exact .ok trivial
  | cons c cs ih =>
      obtain ⟨⟨hc, hlen⟩, hcs⟩ := List.forall_mem_cons.mp hcs
      refine .bind_follow (yields_add hs hc hn hlen) fun t ht hstorable => ?_
      have hgrown : t.nVars ≤ Index.maxLength := by
        rw [(add_eq_ok ht).1]
        omega
      exact .bind (yields_isEmpty hstorable hgrown) fun empty _ _ => .ite (fun _ => ih hcs) fun _ =>
        .pure trivial

theorem yields_entailsAll {cs : List Constraint} (hs : s.Storable) (hn : s.nVars ≤ Index.maxLength)
    (hcs : ∀ c ∈ cs, c.Storable ∧ c.coeffs.length ≤ Index.maxLength) :
    Yields (Formed.entailsAll s cs) (fun _ => True) (s.entailsAll cs) := by
  induction cs with
  | nil => exact .ok trivial
  | cons c cs ih =>
      obtain ⟨⟨hc, hlen⟩, hcs⟩ := List.forall_mem_cons.mp hcs
      refine .bind_follow (yields_negated hc) fun ds _ hds => ?_
      have hrefute := yields_refutesAll hs hn fun d hd => ⟨(hds d hd).1, (hds d hd).2 ▸ hlen⟩
      exact .bind hrefute fun refuted _ _ => .ite (fun _ => ih hcs) fun _ => .pure trivial

/-- The test for inclusion faults exactly if it forms a stuck constraint. -/
theorem yields_subset (hs : s.Storable) (hn : s.nVars ≤ Index.maxLength) (ht : t.Storable)
    (hwf : t.WellFormed) (hm : t.nVars ≤ Index.maxLength) :
    Yields (Formed.subset s t) (fun _ => True) (s.subset t) :=
  .ite (fun _ => yields_isEmpty hs hn) fun _ => yields_entailsAll hs hn fun c hc =>
    ⟨ht c hc, (hwf c hc).symm ▸ hm⟩

/-! ## making equalities explicit -/

namespace Formed

/-- The constraints formed in one round of the search for tight inequalities. -/
def tightenRound (i : Nat) (s : Polyhedron) : List Constraint :=
  if s.infeasible then []
  else
    match s.constraints[i]? with
    | none => []
    | some c =>
      match c.kind with
      | .equality => []
      | .inequality => maximize s c.expr

/-- The constraints formed in the search for tight inequalities. -/
def tightenRounds : Nat → Nat → Polyhedron → List Constraint
  | 0, _, _ => []
  | n + 1, i, s =>
    tightenRound i s ++ (Polyhedron.tightenRound i s).follow fun
      | .done _ => []
      | .next j t => tightenRounds n j t

/-- The constraints formed to make tight inequalities equalities. -/
def detectEqualities (s : Polyhedron) : List Constraint :=
  s.simplify.follow fun t => tightenRounds (t.constraints.length + t.inequalities) 0 t

/-- The constraints formed to find out whether `v` has a single value. -/
def fixVar (s : Polyhedron) (v : Nat) : List Constraint :=
  if s.infeasible || !s.involves v then []
  else maximize s (.var v) ++ (s.maximize (.var v)).follow fun _ => minimize s (.var v)

/-- The constraints formed to fix the variables of the list. -/
def fixVars (s : Polyhedron) : List Nat → List Constraint
  | [] => []
  | v :: vs => fixVar s v ++ (s.fixVar v).follow fun t => fixVars t vs

/-- The constraints formed to fix the variables from `start` to `stop`. -/
def fixDetermined (s : Polyhedron) (start stop : Nat) : List Constraint :=
  fixVars s (List.range' start (min stop s.nVars - start))

end Formed

/-- The constraints of `t` are storable, and its space is that of `s`. -/
structure Keeps (s t : Polyhedron) : Prop where
  storable : t.Storable
  nVars : t.nVars = s.nVars

/-- Making an inequality an equality does not fault if its constant can be negated. -/
theorem yields_tightenAt {i : Nat} (hs : s.Storable) (hi : s.constraints[i]? = some c)
    (hconstant : Word.fits (-c.constant) = true) : Yields [] (Keeps s) (s.tightenAt i c) := by
  have hc := hs c (List.mem_of_getElem? hi)
  have hequality : Constraint.Storable { c with kind := .equality } := hc.equality fun hleast => by
    rw [hleast] at hconstant
    exact absurd hconstant (by decide)
  have hswap : ∀ d : Constraint, d.Storable → ∀ e ∈ swapLast s.constraints i d, e.Storable :=
    fun d hd => forall_mem_swapLast (List.getElem?_eq_some_iff.mp hi).1 hs hd
  refine .bind_last hequality.yields_normalize fun r _ hr => ?_
  cases r with
  | some e => exact .pure ⟨hswap e (hr e rfl), rfl⟩
  | none => exact .pure ⟨hswap _ hequality, rfl⟩

theorem yields_tightenRound (hs : s.Storable) (hn : s.nVars < Index.maxLength) (i : Nat) :
    Yields (Formed.tightenRound i s) (fun r => s.Keeps r.result) (tightenRound i s) := by
  have hsame : s.Keeps s := ⟨hs, rfl⟩
  have hmark : s.Keeps { s with infeasible := true } := ⟨hs, rfl⟩
  refine .ite (fun _ => .ok hsame) fun _ => ?_
  cases hi : s.constraints[i]? with
  | none => exact .ok hsame
  | some c =>
      dsimp only
      cases c.kind with
      | equality => exact .ok hsame
      | inequality =>
          have hc := hs c (List.mem_of_getElem? hi)
          refine .bind_last (yields_maximize hs hc.representable hn) fun r hr _ => ?_
          cases r with
          | empty => exact .pure hmark
          | unbounded => exact .pure hsame
          | value v =>
              dsimp only
              split
              · exact .pure hmark
              split
              · exact .bind_last (yields_tightenAt hs hi (fits_neg_of_maximize hr)) fun t _ ht =>
                  .pure ht
              · exact .pure hsame

theorem yields_tightenRounds (hs : s.Storable) (hn : s.nVars < Index.maxLength) (n i : Nat) :
    Yields (Formed.tightenRounds n i s) Storable (tightenRounds n i s) := by
  induction n generalizing i s with
  | zero => exact .ok hs
  | succ n ih =>
      rw [tightenRounds]
      refine .bind (yields_tightenRound hs hn i) fun round _ hround => ?_
      cases round with
      | done t => exact .ok hround.storable
      | next j t => exact ih hround.storable (hround.nVars ▸ hn) j

/-- Detecting equations faults exactly if it forms a stuck constraint. -/
theorem yields_detectEqualities (hs : s.Storable) (hn : s.nVars < Index.maxLength) :
    Yields (Formed.detectEqualities s) (fun _ => True) s.detectEqualities := by
  refine .bind_follow (yields_simplify hs) fun t ht hstorable => ?_
  have hsame := (simplified_of_simplify ht).nVars
  refine .bind_last (yields_tightenRounds hstorable (hsame ▸ hn) _ 0) fun u _ hu => ?_
  exact (yields_simplify hu).imp fun _ _ _ => trivial

/-! ## determined variables -/

/-- Fixing a variable to a number that can be negated does not fault. -/
theorem yields_addFixed {v : Nat} {k : Int} (hs : s.Storable) (hn : s.nVars ≤ Index.maxLength)
    (hv : v < s.nVars) (hk : Word.Negatable k) :
    Yields [] (Keeps s) (s.addTerms .equality [(v, 1)] k : Outcome EngineError Polyhedron) := by
  have hterms : (Constraint.ofTerms .equality [(v, 1)] k : Outcome EngineError Constraint) =
      .ok ⟨.equality, (List.replicate (v + 1) 0).set v 1, k⟩ := by
    have hlength : Constraint.termsLength [(v, 1)] = v + 1 := by simp [Constraint.termsLength]
    have hsum : Word.add? ((List.replicate (v + 1) (0 : Int)).getD v 0) 1 = some 1 := by simp; rfl
    simp only [Constraint.ofTerms, hlength, Constraint.addTerms, hsum]
    rw [if_neg (by omega)]
    rfl
  have hfixed : Constraint.Storable ⟨.equality, (List.replicate (v + 1) 0).set v 1, k⟩ := by
    refine Constraint.storable_eq (fun x hx => ?_) hk
    rcases List.mem_or_eq_of_mem_set hx with hx | rfl
    · exact List.eq_of_mem_replicate hx ▸ Word.negatable_zero
    · exact Word.negatable_one
  have hlen :
      (Constraint.coeffs ⟨.equality, (List.replicate (v + 1) 0).set v 1, k⟩).length = v + 1 := by
    simp [Constraint.coeffs]
  rw [addTerms, hterms]
  refine (yields_add hs hfixed hn (by omega)).imp fun t ht hstorable => ⟨hstorable, ?_⟩
  rw [(add_eq_ok ht).1]
  omega

theorem yields_fixVar {v : Nat} (hs : s.Storable) (hn : s.nVars < Index.maxLength)
    (hv : v < s.nVars) : Yields (Formed.fixVar s v) (Keeps s) (s.fixVar v) := by
  have hsame : s.Keeps s := ⟨hs, rfl⟩
  have hmark : s.Keeps { s with infeasible := true } := ⟨hs, rfl⟩
  refine .ite (fun _ => .ok hsame) fun _ => ?_
  refine .bind (yields_maximize hs (Affine.representable_var v) hn) fun hi _ _ => ?_
  refine .bind_last (yields_minimize hs hn _) fun lo hlo _ => ?_
  cases lo with
  | empty => exact .pure hmark
  | unbounded => cases hi <;> first | exact .pure hmark | exact .pure hsame
  | value l =>
      cases hi with
      | empty => exact .pure hmark
      | unbounded => exact .pure hsame
      | value h =>
          have hneg := (negatable_of_minimize hlo).neg
          dsimp only
          split
          · refine .bind_last (.orFault (Word.neg?_eq_some.mpr ⟨hneg.fits, rfl⟩) hneg)
              fun k _ hk => ?_
            exact yields_addFixed hs hn.le hv hk
          split
          · exact .pure hmark
          · exact .pure hsame

theorem yields_fixVars {vs : List Nat} (hs : s.Storable) (hn : s.nVars < Index.maxLength)
    (hvs : ∀ v ∈ vs, v < s.nVars) : Yields (Formed.fixVars s vs) Storable (s.fixVars vs) := by
  induction vs generalizing s with
  | nil => exact .ok hs
  | cons v vs ih =>
      obtain ⟨hv, hvs⟩ := List.forall_mem_cons.mp hvs
      refine .bind (yields_fixVar hs hn hv) fun t _ ht => ?_
      exact ih ht.storable (ht.nVars ▸ hn) (ht.nVars ▸ hvs)

/-- Fixing variables that are determined faults exactly if it forms a stuck constraint. -/
theorem yields_fixDetermined (hs : s.Storable) (hn : s.nVars < Index.maxLength) (start stop : Nat) :
    Yields (Formed.fixDetermined s start stop) (fun _ => True) (s.fixDetermined start stop) := by
  refine .bind_last (yields_fixVars hs hn fun v hv => ?_) fun t _ ht =>
    (yields_simplify ht).imp fun _ _ _ => trivial
  obtain ⟨hlow, hhigh⟩ := List.mem_range'_1.mp hv
  omega

/-! ## entered constraints -/

/-- The polyhedron is the result of adding constraints of words. -/
inductive Entered : Polyhedron → Prop
  | empty (n : Nat) : Entered (.empty n)
  | add {ε : Type} {s t : Polyhedron} {c : Constraint} (hs : Entered s) (hc : c.Representable)
      (h : (s.add c : Outcome ε Polyhedron) = .ok t) : Entered t
  | addTerms {ε : Type} {s t : Polyhedron} {kind : Constraint.Kind}
      {terms : List (Nat × Int)} {k : Int} (hs : Entered s) (hk : Word.fits k = true)
      (h : (s.addTerms kind terms k : Outcome ε Polyhedron) = .ok t) : Entered t
  | addLowered {ε : Type} {s t : Polyhedron} {c : Constraint} {map : List Nat} (hs : Entered s)
      (hc : c.Representable) (h : (s.addLowered c map : Outcome ε Polyhedron) = .ok t) : Entered t

theorem Entered.wellFormed (h : s.Entered) : s.WellFormed := by
  induction h with
  | empty n => exact wellFormed_empty n
  | add _ _ h ih => exact ih.add h
  | addTerms _ _ h ih => exact ih.addTerms h
  | addLowered _ _ h ih =>
      simp only [Polyhedron.addLowered, bind_eq_ok] at h
      obtain ⟨d, -, h⟩ := h
      exact ih.add h

/-- Constraints that were entered are storable. -/
theorem Entered.storable (h : s.Entered) : s.Storable := by
  induction h with
  | empty n => simp [Storable, Polyhedron.empty]
  | add _ hc h ih => exact ih.add hc h
  | addTerms _ hk h ih =>
      simp only [Polyhedron.addTerms, bind_eq_ok] at h
      obtain ⟨d, hd, h⟩ := h
      exact ih.add (Constraint.representable_ofTerms hk hd) h
  | addLowered _ hc h ih =>
      simp only [Polyhedron.addLowered, Constraint.lower, bind_eq_ok] at h
      obtain ⟨d, ⟨terms, -, hd⟩, h⟩ := h
      exact ih.add (Constraint.representable_ofTerms hc.2 hd) h

end Polyhedron

/-! ## answers, reports and faults -/

/-- The computation faults exactly if one of the constraints is stuck.  Otherwise it gives
an answer, or reports that a number left the words or that there are too many
constraints. -/
structure Outcome.FaultsOn {α : Type} (cs : List Constraint)
    (x : Outcome EngineError α) : Prop where
  fault_iff : x = fault ↔ ∃ c ∈ cs, c.Stuck
  otherwise : x ≠ fault → (∃ a, x = .ok a) ∨ x = raise .overflow ∨ ∃ n, x = raise (.tooComplex n)

/-- Without a mismatch, what is not a fault or an answer is an arithmetic cause. -/
theorem Outcome.Yields.faultsOn {α : Type} {cs : List Constraint} {P : α → Prop}
    {x : Outcome EngineError α} (h : Yields cs P x) (hx : NoMismatch x) : FaultsOn cs x := by
  refine ⟨h.fault_iff, fun hne => ?_⟩
  cases x with
  | ok a => exact .inl ⟨a, rfl⟩
  | error e =>
      cases e with
      | fault => exact absurd rfl hne
      | error cause =>
          have hcause := hx cause rfl
          cases cause with
          | overflow => exact .inr (.inl rfl)
          | tooComplex n => exact .inr (.inr ⟨n, rfl⟩)
          | spaceMismatch what => exact hcause.elim

namespace Polyhedron

/-- A polyhedron of entered constraints answers every question about it, or the engine
reports why not, unless the normal form of a constraint that is formed leaves the
words. -/
theorem engine_faults_on_stuck_constraints {s t : Polyhedron} {a : Affine} (hs : s.Entered)
    (ht : t.Entered) (ha : a.Representable) (hn : s.nVars < Index.maxLength)
    (hm : t.nVars ≤ Index.maxLength) (vars : List Nat) (start stop : Nat) :
    FaultsOn (s.derivations vars) (s.project vars) ∧ FaultsOn (Formed.isEmpty s) s.isEmpty ∧
      FaultsOn (Formed.maximize s a) (s.maximize a) ∧
      FaultsOn (Formed.minimize s a) (s.minimize a) ∧
      FaultsOn (Formed.subset s t) (s.subset t) ∧
      FaultsOn (Formed.detectEqualities s) s.detectEqualities ∧
      FaultsOn (Formed.fixDetermined s start stop) (s.fixDetermined start stop) := by
  have hstorable := hs.storable
  refine ⟨?_, ?_, ?_, ?_, ?_, ?_, ?_⟩
  · exact (yields_project hstorable vars).faultsOn (noMismatch_project s vars)
  · exact (yields_isEmpty hstorable hn.le).faultsOn (noMismatch_isEmpty s)
  · exact (yields_maximize hstorable ha hn).faultsOn (noMismatch_maximize s a)
  · exact (yields_minimize hstorable hn a).faultsOn (noMismatch_minimize s a)
  · exact (yields_subset hstorable hn.le ht.storable ht.wellFormed hm).faultsOn
      (noMismatch_subset s t)
  · exact (yields_detectEqualities hstorable hn).faultsOn (noMismatch_detectEqualities s)
  · exact (yields_fixDetermined hstorable hn start stop).faultsOn
      (noMismatch_fixDetermined s start stop)

/-- Two half-planes with one coefficient of half the least word: without the first
variable the coefficients add up to the least word. -/
def steep : Polyhedron :=
  ⟨2, [.ge ⟨[1, -4611686018427387904], 0⟩, .ge ⟨[-1, -4611686018427387904], 0⟩], false⟩

/-- Two lines with constants of half the least word: without the first variable the
constants add up to the least word. -/
def shifted : Polyhedron :=
  ⟨2, [.eq ⟨[1, 0], 4611686018427387904⟩, .eq ⟨[1, -1], -4611686018427387904⟩], false⟩

theorem entered_steep : steep.Entered := by
  have hfirst : ((empty 2).add (.ge ⟨[1, -4611686018427387904], 0⟩) :
      Outcome EngineError Polyhedron) = .ok ⟨2, [.ge ⟨[1, -4611686018427387904], 0⟩], false⟩ := by
    rfl
  exact .add (.add (.empty 2) (by decide) hfirst) (c := .ge ⟨[-1, -4611686018427387904], 0⟩)
    (ε := EngineError) (by decide) (by rfl)

theorem entered_shifted : shifted.Entered := by
  have hfirst : ((empty 2).add (.eq ⟨[1, 0], 4611686018427387904⟩) :
      Outcome EngineError Polyhedron) = .ok ⟨2, [.eq ⟨[1, 0], 4611686018427387904⟩], false⟩ := by
    rfl
  exact .add (.add (.empty 2) (by decide) hfirst) (c := .eq ⟨[1, -1], -4611686018427387904⟩)
    (ε := EngineError) (by decide) (by rfl)

/-- Projected to its second variable the polyhedron is stuck; all variables can be
eliminated, because then the second one goes first. -/
theorem steep_faults_without_first :
    steep.Entered ∧ (Affine.var 1).Representable ∧ steep.project [0] = .fault ∧
      steep.isEmpty ≠ .fault := by
  have hrun := engine_faults_on_stuck_constraints entered_steep entered_shifted (a := .var 1)
    (by decide) (by decide) (by decide) [0] 0 2
  obtain ⟨hproject, hempty, -⟩ := hrun
  refine ⟨entered_steep, by decide, hproject.fault_iff.mpr ?_, hempty.fault_iff.not.mpr ?_⟩
  · decide +kernel
  · decide +kernel

/-- No coefficient that was entered is the least word, and yet the engine faults: the
least word may come up as a coefficient, or as the constant of an equality. -/
theorem overflow_is_not_always_reported :
    (∀ c ∈ steep.constraints ++ shifted.constraints, ∀ x ∈ c.coeffs, x ≠ Word.least) ∧
      steep.Entered ∧ steep.project [0] = .fault ∧ shifted.Entered ∧ shifted.project [0] = .fault :=
  ⟨by decide, entered_steep, by rfl, entered_shifted, by rfl⟩

end Polyhedron

end KernelMap
