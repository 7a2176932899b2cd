import KernelMap.Proofs.EngineCauses
import KernelMap.Proofs.Exact
import KernelMap.Proofs.Stuck

/-!
# KernelMap.Proofs.Derivations

The constraints that an elimination forms.

Eliminating a variable combines constraints, with every number checked, and brings the
combinations into normal form, which is not checked.  `Polyhedron.derived` lists the
combinations in the order in which they are formed, up to the first overflow, and
`Polyhedron.derivations` those of a whole projection.

Main statement: `Polyhedron.yields_project` — on storable constraints a projection faults
exactly if one of the constraints it forms is stuck, and the constraints of its result
are storable again.
-/

namespace KernelMap

/-! ## outcomes -/

namespace Outcome

variable {ε α β : Type}

/-- The list that belongs to the answer; nothing without one. -/
def follow (x : Outcome ε α) (f : α → List β) : List β :=
  match x with
  | .ok a => f a
  | .error _ => []

@[simp] theorem follow_ok (a : α) (f : α → List β) : follow (.ok a : Outcome ε α) f = f a := rfl

@[simp] theorem follow_error (e : Failure ε) (f : α → List β) :
    follow (.error e : Outcome ε α) f = [] := rfl

/-- The computation faults exactly if one of the constraints is stuck, and an answer
satisfies `P`. -/
structure Yields (cs : List Constraint) (P : α → Prop) (x : Outcome ε α) : Prop where
  fault_iff : x = fault ↔ ∃ c ∈ cs, c.Stuck
  answer : ∀ a, x = .ok a → P a

namespace Yields

variable {cs ds : List Constraint} {P : α → Prop} {Q : β → Prop} {x : Outcome ε α}
  {f : α → Outcome ε β}

/-- A computation without a fault needs no constraint to be stuck. -/
theorem of_ne_fault (hx : x ≠ fault) (hP : ∀ a, x = .ok a → P a) : Yields [] P x :=
  ⟨by simp [hx], hP⟩

theorem ok {a : α} (ha : P a) : Yields [] P (.ok a : Outcome ε α) :=
  of_ne_fault ok_ne_fault fun _ hb => Except.ok.inj hb ▸ ha

theorem pure {a : α} (ha : P a) : Yields [] P (pure a : Outcome ε α) := ok ha

theorem raise {cause : ε} : Yields [] P (raise cause : Outcome ε α) :=
  of_ne_fault raise_ne_fault nofun

/-- Taking a value that is there does not fault. -/
theorem orFault {x : Option α} {a : α} (hx : x = some a) (ha : P a) :
    Yields [] P (orFault x : Outcome ε α) :=
  hx ▸ ok ha

/-- A missing value that is reported as an overflow is no fault. -/
theorem orOverflow {x : Option α} (hx : ∀ a, x = some a → P a) : Yields [] P (orOverflow x) :=
  of_ne_fault orOverflow_ne_fault fun a ha => hx a (orOverflow_eq_ok.mp ha)

/-- A weaker property holds of the answer as well. -/
theorem imp {P' : α → Prop} (h : Yields cs P x) (hP : ∀ a, x = .ok a → P a → P' a) :
    Yields cs P' x :=
  ⟨h.fault_iff, fun a ha => hP a ha (h.answer a ha)⟩

/-- Constraints that are not stuck need not be listed. -/
theorem drop (h : Yields cs P x) (hcs : ∀ c ∈ cs, ¬ c.Stuck) : Yields [] P x :=
  of_ne_fault (h.fault_iff.not.mpr fun ⟨c, hc, hstuck⟩ => hcs c hc hstuck) h.answer

/-- What comes after an answer forms its own constraints. -/
theorem bind {ds : α → List Constraint} (hx : Yields cs P x)
    (hf : ∀ a, x = .ok a → P a → Yields (ds a) Q (f a)) :
    Yields (cs ++ follow x ds) Q (x >>= f) := by
  cases x with
  | error e =>
      refine ⟨?_, nofun⟩
      rw [follow_error, List.append_nil, ← hx.fault_iff]
      simp [fault, Bind.bind, Except.bind]
  | ok a =>
      have ha := hf a rfl (hx.answer a rfl)
      have hcs : ¬ ∃ c ∈ cs, c.Stuck := hx.fault_iff.not.mp ok_ne_fault
      refine ⟨?_, ha.answer⟩
      simp only [follow_ok, List.mem_append, or_and_right, exists_or, hcs, false_or]
      exact ha.fault_iff

/-- If the first step does not fault, two steps fault exactly if the second does, on what follows
from the answer of the first. -/
theorem bind_follow {ds : α → List Constraint} (hx : Yields [] P x)
    (hf : ∀ a, x = .ok a → P a → Yields (ds a) Q (f a)) : Yields (follow x ds) Q (x >>= f) :=
  bind hx hf

/-- After the constraints are formed nothing faults. -/
theorem bind_last (hx : Yields cs P x) (hf : ∀ a, x = .ok a → P a → Yields [] Q (f a)) :
    Yields cs Q (x >>= f) := by
  have h : Yields (cs ++ follow x fun _ => []) Q (x >>= f) := bind hx hf
  have hnone : follow x (fun _ => []) = ([] : List Constraint) := by cases x <;> rfl
  rwa [hnone, List.append_nil] at h

/-- A first part that reports nothing. -/
theorem bind_append (hx : Yields cs P x) (hsilent : ReportsOnly (fun _ => False) x)
    (hf : ∀ a, x = .ok a → P a → Yields ds Q (f a)) : Yields (cs ++ ds) Q (x >>= f) := by
  cases x with
  | error e =>
      cases e with
      | error cause => exact (hsilent cause rfl).elim
      | fault =>
          obtain ⟨c, hc, hstuck⟩ := hx.fault_iff.mp rfl
          exact ⟨iff_of_true rfl ⟨c, by simp [hc], hstuck⟩, nofun⟩
  | ok a =>
      have h : Yields (cs ++ follow (.ok a) fun _ => ds) Q (.ok a >>= f) := bind hx hf
      exact h

/-- A choice faults exactly if the branch that is taken does. -/
theorem ite {p : Prop} [Decidable p] {y : Outcome ε α} (hx : p → Yields cs P x)
    (hy : ¬ p → Yields ds P y) : Yields (if p then cs else ds) P (if p then x else y) := by
  split
  · next hp => exact hx hp
  · next hp => exact hy hp

end Yields

end Outcome

open Outcome

/-! ## words -/

namespace Coeffs

/-- What a checked operation computes are words. -/
theorem fits_of_map? {f : Int → Option Int} (hf : ∀ x y, f x = some y → Word.fits y = true)
    {as bs : List Int} (h : map? f as = some bs) : ∀ b ∈ bs, Word.fits b = true := fun b hb =>
  have ⟨a, _, hab⟩ := (map?_eq_some.mp h).exists_of_mem_right hb
  hf a b hab

/-- Numbers that are combined entry by entry are words if each combination is. -/
theorem fits_of_zipPad? {f : Int → Int → Option Int}
    (hf : ∀ x y z, f x y = some z → Word.fits z = true) {as bs cs : List Int}
    (h : zipPad? f as bs = some cs) : ∀ c ∈ cs, Word.fits c = true := by
  fun_induction zipPad? f as bs generalizing cs with
  | case1 bs => exact fits_of_map? (hf 0) h
  | case2 a as ih =>
      simp only [Option.bind_eq_bind, Option.bind_eq_some_iff, Option.pure_def,
        Option.some.injEq] at h
      obtain ⟨x, hx, xs, hxs, rfl⟩ := h
      exact List.forall_mem_cons.mpr ⟨hf _ _ _ hx, ih hxs⟩
  | case3 a as b bs ih =>
      simp only [Option.bind_eq_bind, Option.bind_eq_some_iff, Option.pure_def,
        Option.some.injEq] at h
      obtain ⟨x, hx, xs, hxs, rfl⟩ := h
      exact List.forall_mem_cons.mpr ⟨hf _ _ _ hx, ih hxs⟩

end Coeffs

namespace Constraint

/-- Every number of a combination is checked. -/
theorem yields_combine (c d : Constraint) (k₁ k₂ : Int) :
    Yields [] Representable (c.combine k₁ d k₂) := by
  refine Yields.bind_last (.orOverflow (P := Affine.Representable) fun a ha => ?_) fun a _ ha =>
    .pure ha
  simp only [Affine.combine?, Option.bind_eq_bind, Option.bind_eq_some_iff, Option.pure_def,
    Option.some.injEq] at ha
  obtain ⟨cs, hcs, k, ⟨p, -, q, -, hk⟩, rfl⟩ := ha
  refine ⟨Coeffs.fits_of_zipPad? (fun x y z hz => ?_) hcs, (Word.add?_eq_some.mp hk).2 ▸
    (Word.add?_eq_some.mp hk).1⟩
  simp only [Option.bind_eq_some_iff, Word.add?_eq_some] at hz
  obtain ⟨p, -, q, -, hfits, rfl⟩ := hz
  exact hfits

/-- Normalizing faults exactly on a stuck constraint and makes it storable. -/
theorem yields_normalize {ε : Type} {c : Constraint} (hc : c.Representable) :
    Yields [c] (fun r => ∀ d, r = some d → d.Storable)
      (c.normalize : Outcome ε (Option Constraint)) :=
  ⟨by simp [normalize_eq_fault_iff hc], fun _ hr _ hd => storable_of_normalize hc (hd ▸ hr)⟩

/-- A storable constraint is normalized without a fault, and stays storable. -/
theorem Storable.yields_normalize {ε : Type} {c : Constraint} (hc : c.Storable) :
    Yields [] (fun r => ∀ d, r = some d → d.Storable)
      (c.normalize : Outcome ε (Option Constraint)) :=
  (Constraint.yields_normalize hc.representable).drop (List.forall_mem_singleton.mpr hc.not_stuck)

end Constraint

namespace Polyhedron

/-! ## inserting -/

/-- The constraints that are formed one after the other, up to the first failure. -/
def formed : List (Outcome EngineError Constraint) → List Constraint
  | [] => []
  | x :: xs => x.follow fun c => c :: formed xs

namespace Derived

/-- All constraints are storable. -/
def Storable (d : Derived) : Prop := ∀ c ∈ d.rows, c.Storable

theorem storable_none : none.Storable := by simp [Storable, none]

/-- Form constraints and insert each at once. -/
def insertEach : List (Outcome EngineError Constraint) → Derived → Outcome EngineError Derived
  | [], d => .ok d
  | x :: xs, d => do insertEach xs (← d.insert (← x))

/-- Inserting a constraint faults exactly if it is stuck. -/
theorem yields_insert {ε : Type} {d : Derived} {c : Constraint} (hc : c.Representable)
    (hd : d.Storable) : Yields [c] Storable (d.insert c : Outcome ε Derived) := by
  refine .bind_last (Constraint.yields_normalize hc) fun r _ hr => ?_
  cases r with
  | none => exact .pure hd
  | some e =>
      refine .pure ?_
      split
      · exact hd
      · exact List.forall_mem_cons.mpr ⟨hr e rfl, hd⟩

/-- Inserting constraints as they are formed faults exactly if one of them is stuck. -/
theorem yields_insertEach {xs : List (Outcome EngineError Constraint)} {d : Derived}
    (hxs : ∀ x ∈ xs, Yields [] Constraint.Representable x) (hd : d.Storable) :
    Yields (formed xs) Storable (insertEach xs d) := by
  induction xs generalizing d with
  | nil => exact .ok hd
  | cons x xs ih =>
      obtain ⟨hx, hxs⟩ := List.forall_mem_cons.mp hxs
      refine .bind_follow hx fun c _ hc => ?_
      exact Yields.bind_append (yields_insert hc hd) (reportsOnly_insert d c) fun d' _ hd' =>
        ih hxs hd'

/-- Inserting storable constraints does not fault. -/
theorem yields_insertAll {cs : List Constraint} {d : Derived} (hcs : ∀ c ∈ cs, c.Storable)
    (hd : d.Storable) : Yields [] Storable (d.insertAll cs : Outcome EngineError Derived) := by
  induction cs generalizing d with
  | nil => exact .ok hd
  | cons c cs ih =>
      obtain ⟨hc, hcs⟩ := List.forall_mem_cons.mp hcs
      have hinsert : Yields [] Storable (d.insert c : Outcome EngineError Derived) :=
        (yields_insert hc.representable hd).drop (List.forall_mem_singleton.mpr hc.not_stuck)
      exact .bind_last hinsert fun d' _ hd' => ih hcs hd'

end Derived

/-- Simplifying storable constraints does not fault, and keeps them so. -/
theorem yields_simplify {s : Polyhedron} (hs : s.Storable) : Yields [] Storable s.simplify :=
  .of_ne_fault hs.simplify_ne_fault fun _ h => hs.simplify h

/-- Replacing the constraints by storable ones does not fault. -/
theorem yields_replaceBy {s : Polyhedron} {d : Derived} (hd : d.Storable) :
    Yields [] Storable (s.replaceBy d) :=
  yields_simplify fun c hc => hd c (List.mem_reverse.mp hc)

/-! ## elimination with an equality -/

/-- Cancelling a variable between storable constraints does not fault. -/
theorem yields_cancel {e c : Constraint} {v : Nat} (he : e.Storable) (hc : c.Storable) :
    Yields [] Constraint.Representable (cancel e v c) := by
  unfold cancel
  dsimp only
  split
  · exact .ok hc.representable
  · have habs := (he.negatable_coeff v).abs?_eq_some
    have hmul : Word.mul? (-(e.coeff v).sign) (c.coeff v) =
        some (-(e.coeff v).sign * c.coeff v) := by
      refine Word.mul?_eq_some.mpr ⟨?_, rfl⟩
      have hfits := (hc.negatable_coeff v).fits
      have hneg := (hc.negatable_coeff v).neg.fits
      rcases Int.sign_trichotomy (e.coeff v) with hs | hs | hs <;>
        simp [hs, hfits, hneg, Word.negatable_zero.fits]
    rw [habs, hmul]
    exact Constraint.yields_combine ..

/-- An equation is cancelled against each constraint and the result inserted at once. -/
theorem cancelAll_eq (e : Constraint) (v : Nat) (cs : List Constraint) (d : Derived) :
    cancelAll e v cs d = d.insertEach (cs.map (cancel e v)) := by
  induction cs generalizing d with
  | nil => rfl
  | cons c cs ih => simp only [cancelAll, List.map_cons, Derived.insertEach, ih]

/-- Cancelling with an equation faults exactly if it forms a stuck constraint. -/
theorem yields_cancelAll {e : Constraint} {v : Nat} {cs : List Constraint} (he : e.Storable)
    (hcs : ∀ c ∈ cs, c.Storable) :
    Yields (formed (cs.map (cancel e v))) Derived.Storable (cancelAll e v cs .none) := by
  rw [cancelAll_eq]
  refine Derived.yields_insertEach ?_ Derived.storable_none
  exact List.forall_mem_map.mpr fun c hc => yields_cancel he (hcs c hc)

/-- The search for an equality takes magnitudes of coefficients only. -/
theorem smallestEquality_ne_fault {ε : Type} {v i : Nat} {cs : List Constraint}
    {best : Option (Nat × Int)} (hcs : ∀ c ∈ cs, c.Storable) :
    (smallestEquality v i cs best : Outcome ε (Option (Nat × Int))) ≠ .fault := by
  induction cs generalizing i best with
  | nil => simp [smallestEquality]
  | cons c cs ih =>
      obtain ⟨hc, hcs⟩ := List.forall_mem_cons.mp hcs
      rw [smallestEquality]
      dsimp only
      rw [(hc.negatable_coeff v).abs?_eq_some]
      split
      · exact ih hcs
      · exact ih hcs

/-- The search for an equation does not fault on storable constraints, and finds one that is
there. -/
theorem yields_smallestEquality {s : Polyhedron} (hs : s.Storable) (v : Nat) :
    Yields [] (fun r => ∀ pos size, r = some (pos, size) → ∃ e, s.constraints[pos]? = some e)
      (smallestEquality v 0 s.constraints none : Outcome EngineError (Option (Nat × Int))) := by
  refine .of_ne_fault (smallestEquality_ne_fault hs) fun r hr pos size hpos => ?_
  rcases (smallestEquality_eq_ok hr).1 _ hpos with hbest | ⟨j, e, hj, he, -⟩
  · cases hbest
  · exact ⟨e, by simpa [show pos = j by simpa using hj] using he⟩

/-! ## elimination with inequalities -/

/-- The combinations of the lower bound `l` on `v` with each upper bound of the list. -/
def pairs (v : Nat) (l : Constraint) (us : List Constraint) :
    List (Outcome EngineError Constraint) :=
  us.map fun u => l.combine (-u.coeff v) u (l.coeff v)

/-- A lower bound is combined with each upper bound and the result inserted at once. -/
theorem pairUpper_eq {v : Nat} {l : Constraint} {us : List Constraint} (hus : ∀ u ∈ us, u.Storable)
    (d : Derived) : pairUpper v l us d = d.insertEach (pairs v l us) := by
  induction us generalizing d with
  | nil => rfl
  | cons u us ih =>
      obtain ⟨hu, hus⟩ := List.forall_mem_cons.mp hus
      have hneg : Word.neg? (u.coeff v) = some (-u.coeff v) :=
        Word.neg?_eq_some.mpr ⟨(hu.negatable_coeff v).neg.fits, rfl⟩
      simp only [pairUpper, hneg, pairs, List.map_cons, Derived.insertEach, ih hus]
      rfl

/-- Combining one lower bound with all upper bounds faults exactly if it forms a stuck
constraint. -/
theorem yields_pairUpper {v : Nat} {l : Constraint} {us : List Constraint} {d : Derived}
    (hus : ∀ u ∈ us, u.Storable) (hd : d.Storable) :
    Yields (formed (pairs v l us)) Derived.Storable (pairUpper v l us d) := by
  rw [pairUpper_eq hus]
  exact Derived.yields_insertEach
    (List.forall_mem_map.mpr fun u _ => Constraint.yields_combine ..) hd

/-- The constraints formed from lower and upper bounds on `v`.  Of one lower bound all
are formed before their number is looked at. -/
def paired (v : Nat) (us : List Constraint) : List Constraint → Derived → List Constraint
  | [], _ => []
  | l :: ls, d =>
    formed (pairs v l us) ++ (pairUpper v l us d).follow fun d =>
      if maxConstraints < d.rows.length then [] else paired v us ls d

/-- Combining all bounds faults exactly if it forms a stuck constraint. -/
theorem yields_pairAll {v : Nat} {us ls : List Constraint} {d : Derived}
    (hus : ∀ u ∈ us, u.Storable) (hd : d.Storable) :
    Yields (paired v us ls d) Derived.Storable (pairAll v us ls d) := by
  induction ls generalizing d with
  | nil => exact .ok hd
  | cons l ls ih =>
      exact .bind (yields_pairUpper hus hd) fun d' _ hd' => .ite (fun _ => .raise) fun _ => ih hd'

/-! ## one variable -/

/-- The constraints formed by the elimination of `v`. -/
def derived (s : Polyhedron) (v : Nat) : List Constraint :=
  (smallestEquality v 0 s.constraints none : Outcome EngineError (Option (Nat × Int))).follow fun
    | some (pos, _) =>
      (Outcome.orFault s.constraints[pos]? : Outcome EngineError Constraint).follow fun e =>
        formed ((s.constraints.eraseIdx pos).map (cancel e v))
    | none =>
      (Derived.none.insertAll (s.constraints.filter (·.coeff v == 0)) :
        Outcome EngineError Derived).follow fun d =>
        paired v (s.constraints.filter fun c => decide (c.coeff v < 0))
          (s.constraints.filter fun c => decide (0 < c.coeff v)) d

/-- An elimination faults exactly if it forms a stuck constraint. -/
theorem yields_eliminate {s : Polyhedron} (hs : s.Storable) (v : Nat) :
    Yields (s.derived v) Storable (s.eliminate v) := by
  have hsub : ∀ p : Constraint → Bool, ∀ c ∈ s.constraints.filter p, c.Storable := fun p c hc =>
    hs c (List.mem_filter.mp hc).1
  refine .bind_follow (yields_smallestEquality hs v) fun best _ hbest => ?_
  cases best with
  | some p =>
      obtain ⟨pos, size⟩ := p
      obtain ⟨e, he⟩ := hbest pos size rfl
      have hothers : ∀ c ∈ s.constraints.eraseIdx pos, c.Storable :=
        fun c hc => hs c (List.mem_of_mem_eraseIdx hc)
      refine .bind_follow (.orFault he (hs e (List.mem_of_getElem? he))) fun e' _ he' => ?_
      exact .bind_last (yields_cancelAll he' hothers) fun d _ hd => yields_replaceBy hd
  | none =>
      refine .bind_follow (Derived.yields_insertAll (hsub _) Derived.storable_none) fun d _ hd => ?_
      exact .bind_last (yields_pairAll (hsub _) hd) fun d' _ hd' => yields_replaceBy hd'

/-! ## whole projections -/

namespace Tally

/-- Counting a coefficient that can be negated does not break the tally. -/
theorem broken_count {kind : Constraint.Kind} {a : Int} {t : Tally} (ha : Word.Negatable a)
    (ht : t.broken = false) : (t.count kind a).broken = false := by
  unfold count
  rw [ha.abs?_eq_some]
  split
  · exact ht
  cases kind with
  | equality => exact ht
  | inequality =>
      dsimp only
      split <;> exact ht

/-- Counting a row of coefficients that can be negated breaks no tally. -/
theorem broken_countRow {kind : Constraint.Kind} {as : List Int} {ts : List Tally}
    (has : ∀ a ∈ as, Word.Negatable a) (hts : ∀ t ∈ ts, t.broken = false) :
    ∀ t ∈ countRow kind as ts, t.broken = false := by
  fun_induction countRow kind as ts with
  | case1 a as t ts ih =>
      obtain ⟨ha, has⟩ := List.forall_mem_cons.mp has
      obtain ⟨ht, hts⟩ := List.forall_mem_cons.mp hts
      refine List.forall_mem_cons.mpr ⟨?_, ih has hts⟩
      split
      · exact ht
      · exact broken_count ha ht
  | case2 => simp

end Tally

/-- The tallies of storable constraints are not broken. -/
theorem Storable.broken_tallies {s : Polyhedron} (hs : s.Storable) (v : Nat) :
    (s.tallies.getD v Tally.none).broken = false := by
  have hfold : ∀ (cs : List Constraint) (ts : List Tally), (∀ c ∈ cs, c.Storable) →
      (∀ t ∈ ts, t.broken = false) →
      ∀ t ∈ cs.foldl (fun ts c => Tally.countRow c.kind c.coeffs ts) ts, t.broken = false := by
    intro cs
    induction cs with
    | nil => exact fun ts _ hts => hts
    | cons c cs ih =>
        intro ts hcs hts
        obtain ⟨hc, hcs⟩ := List.forall_mem_cons.mp hcs
        exact ih _ hcs (Tally.broken_countRow hc.negatable hts)
  have hall := hfold s.constraints (List.replicate s.nVars Tally.none) hs fun t ht => by
    rw [List.eq_of_mem_replicate ht]
    rfl
  rw [List.getD_eq_getElem?_getD]
  cases ht : s.tallies[v]? with
  | none => rfl
  | some t => exact hall t (List.mem_of_getElem? ht)

/-- The constraints formed by the eliminations of the list. -/
def derivedIn (steps : List (Polyhedron × Nat)) : List Constraint :=
  steps.flatMap fun step => step.1.derived step.2

/-- On storable constraints the choice of a variable comes to an answer. -/
theorem Storable.exists_nextVar? {s : Polyhedron} (hs : s.Storable) (vars : List Nat) :
    ∃ next, s.nextVar? vars = .ok next := by
  unfold nextVar?
  split
  · exact ⟨_, rfl⟩
  dsimp only
  generalize (vars.filter fun v => (s.tallies.getD v Tally.none).occurs) = left
  have hwhole : ¬ (left.any fun v => (s.tallies.getD v Tally.none).broken) = true := by
    rw [List.any_eq_true]
    rintro ⟨v, -, hv⟩
    rw [hs.broken_tallies] at hv
    cases hv
  rw [if_neg hwhole]
  split <;> exact ⟨_, rfl⟩

/-- The rounds of a projection fault exactly if one of them forms a stuck constraint. -/
theorem yields_projectRounds {s : Polyhedron} (hs : s.Storable) (n : Nat) (vars : List Nat) :
    Yields (derivedIn (eliminations n vars s)) Storable (projectRounds n vars s) := by
  induction n generalizing vars s with
  | zero => exact .ok hs
  | succ n ih =>
      obtain ⟨next, hnext⟩ := hs.exists_nextVar? vars
      rw [eliminations, projectRounds, hnext]
      cases next with
      | none => exact .ok hs
      | some p =>
          obtain ⟨v, left⟩ := p
          have hrest := Yields.bind (yields_eliminate hs v) fun t _ ht => ih ht left
          change Yields _ Storable (s.eliminate v >>= projectRounds n left)
          cases helim : s.eliminate v with
          | ok t => simpa [derivedIn, helim] using hrest
          | error e => simpa [derivedIn, helim] using hrest

/-- The constraints formed by `s.project vars`. -/
def derivations (s : Polyhedron) (vars : List Nat) : List Constraint := derivedIn (s.steps vars)

/-- A projection faults exactly if it forms a stuck constraint. -/
theorem yields_project {s : Polyhedron} (hs : s.Storable) (vars : List Nat) :
    Yields (s.derivations vars) Storable (s.project vars) := by
  have hrounds := Yields.bind_follow (yields_simplify hs) fun t _ ht =>
    yields_projectRounds ht vars.length vars
  rw [derivations, steps, project]
  cases hsimp : s.simplify with
  | ok t => simpa [hsimp] using hrounds
  | error e => simpa [derivedIn, hsimp] using hrounds

end Polyhedron

end KernelMap
