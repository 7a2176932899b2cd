import KernelMap.Proofs.Value
import Mathlib.Data.Set.Insert

/-!
# KernelMap.Proofs.AffineAlgebra

Arithmetic on affine forms is exact, and equality up to trailing zeros is equality of
values.

An operation `Computes` a form with the right value, or reports an overflow, and it does so
exactly if a number that it has to store is not a word.  Two forms with the same value
everywhere have the same coefficients, since these can be read off at the valuations that
are one at a single variable (`Affine.same_iff_value`); and the numbers that are hashed do
not depend on trailing zeros (`Affine.same_iff_hashed`).

Main statement: `Affine.affine_algebra_is_exact`.
-/

namespace KernelMap

/-! ## coefficient lists -/

namespace Coeffs

/-- A coefficient is the sum at the valuation that is one at its variable only. -/
theorem dot_indicator (cs : List Int) (i : Nat) :
    dot cs (fun j => if j = i then 1 else 0) = get cs i := by
  induction cs generalizing i with
  | nil => rfl
  | cons c cs ih =>
      cases i with
      | zero => simpa using dot_zero cs
      | succ i => simpa using ih i

/-- Trimming keeps a beginning of the list. -/
theorem take_length_trim (cs : List Int) : cs.take (trim cs).length = trim cs := by
  fun_induction trim cs with
  | case1 => rfl
  | case2 => rfl
  | case3 c cs heq hc => simp
  | case4 c cs hne ih => rw [List.length_cons, List.take_succ_cons, ih]

/-- The sum of the coefficients whose positions in the map are `t`. -/
def gathered : List Int → List Nat → Nat → Int
  | c :: cs, i :: is, t => (if i = t then c else 0) + gathered cs is t
  | _, _, _ => 0

end Coeffs

namespace Affine

/-! ## arithmetic -/

/-- The computation gives a form with the values `f`, or reports an overflow; it does so
exactly if one of the numbers is not a word. -/
structure Computes (x : Outcome EngineError Affine) (f : Valuation → Int)
    (numbers : Set Int) : Prop where
  value : ∀ c, x = .ok c → ∀ w, c.value w = f w
  overflow_iff : x = .raise .overflow ↔ ∃ n ∈ numbers, Word.fits n = false
  answers : x = .raise .overflow ∨ ∃ c, x = .ok c

/-- The numbers of a form with these coefficients and this constant. -/
def entries (coeff : Nat → Int) (constant : Int) : Set Int := insert constant (Set.range coeff)

/-- Something holds of all numbers of a form if it does of the coefficients and the constant. -/
theorem forall_mem_entries {P : Int → Prop} {coeff : Nat → Int} {constant : Int} :
    (∀ n ∈ entries coeff constant, P n) ↔ (∀ i, P (coeff i)) ∧ P constant := by
  simp only [entries, Set.forall_mem_insert, Set.forall_mem_range, and_comm]

/-- An overflow is reported exactly if there is no result. -/
theorem Computes.of_exists_iff {x : Outcome EngineError Affine} {f : Valuation → Int}
    {numbers : Set Int} (hvalue : ∀ c, x = .ok c → ∀ w, c.value w = f w)
    (hok : (∃ c, x = .ok c) ↔ ∀ n ∈ numbers, Word.fits n = true)
    (hanswers : x = .raise .overflow ∨ ∃ c, x = .ok c) : Computes x f numbers := by
  refine ⟨hvalue, ?_, hanswers⟩
  have hno : x = .raise .overflow ↔ ¬ ∃ c, x = .ok c := by
    constructor
    · rintro h ⟨c, hc⟩
      rw [hc] at h
      cases h
    · exact hanswers.resolve_right
  rw [hno, hok]
  simp only [not_forall, Bool.not_eq_true, exists_prop]

/-- A missing result is reported as an overflow, and nothing else is. -/
theorem orOverflow_answers {α : Type} (x : Option α) :
    Outcome.orOverflow x = .raise .overflow ∨ ∃ a, Outcome.orOverflow x = .ok a := by
  cases x with
  | none => exact .inl rfl
  | some a => exact .inr ⟨a, rfl⟩

/-- The sum of two forms has the sum of their values, and overflows if one of its numbers is not a
word. -/
theorem computes_add (a b : Affine) :
    Computes (a.add b) (fun w => a.value w + b.value w)
      (entries (fun i => a.coeff i + b.coeff i) (a.constant + b.constant)) := by
  refine .of_exists_iff (fun _ => value_add) ?_ (orOverflow_answers _)
  rw [exists_add_iff, forall_mem_entries]

/-- A multiple of a form has that multiple of its values, and overflows if one of its numbers is not
a word. -/
theorem computes_scale (a : Affine) (k : Int) :
    Computes (a.scale k) (fun w => k * a.value w)
      (entries (fun i => k * a.coeff i) (k * a.constant)) := by
  refine .of_exists_iff (fun _ => value_scale) ?_ (orOverflow_answers _)
  rw [exists_scale_iff, forall_mem_entries]
  simp only [mul_comm k]

/-- A difference is made in two steps, each of which may overflow. -/
theorem computes_sub (a b : Affine) :
    Computes (a.sub b) (fun w => a.value w - b.value w)
      (entries (fun i => -b.coeff i) (-b.constant) ∪
        entries (fun i => a.coeff i - b.coeff i) (a.constant - b.constant)) := by
  refine .of_exists_iff (fun _ => value_sub) ?_ ?_
  · simp only [exists_sub_iff, Set.mem_union, or_imp, forall_and, forall_mem_entries]
    constructor
    · rintro ⟨hneg, hnegk, hdiff, hdiffk⟩
      exact ⟨⟨hneg, hnegk⟩, hdiff, hdiffk⟩
    · rintro ⟨⟨hneg, hnegk⟩, hdiff, hdiffk⟩
      exact ⟨hneg, hnegk, hdiff, hdiffk⟩
  · rcases (computes_scale b (-1)).answers with h | ⟨n, h⟩
    · exact .inl (by rw [sub, h]; rfl)
    · rw [sub, h]
      exact (computes_add a n).answers

/-- A constant can be added exactly if the new constant is a word. -/
theorem exists_addConst_iff {a : Affine} {k : Int} :
    (∃ c, a.addConst k = .ok c) ↔ Word.fits (a.constant + k) = true := by
  simp only [addConst, Outcome.bind_eq_ok, Outcome.orOverflow_eq_ok, Word.add?_eq_some,
    Outcome.pure_eq_ok]
  constructor
  · rintro ⟨-, -, ⟨hfits, -⟩, -⟩
    exact hfits
  · intro hfits
    exact ⟨_, _, ⟨hfits, rfl⟩, rfl⟩

/-- Adding a constant adds it to the values, and overflows if the new constant is not a word. -/
theorem computes_addConst (a : Affine) (k : Int) :
    Computes (a.addConst k) (fun w => a.value w + k) {a.constant + k} := by
  refine .of_exists_iff (fun _ => value_addConst) ?_ ?_
  · simp only [exists_addConst_iff, Set.mem_singleton_iff, forall_eq]
  · unfold addConst
    rcases orOverflow_answers (Word.add? a.constant k) with h | ⟨n, h⟩
    · exact .inl (by rw [h]; rfl)
    · exact .inr ⟨_, by rw [h]; rfl⟩

/-! ## renumbering -/

/-- Renumbering succeeds if every variable has a place and no sum on the way leaves the
words. -/
theorem exists_remapOnto {ε : Type} {cs : List Int} {map : List Nat} {out : Affine}
    (hlen : cs.length ≤ map.length) (hmap : ∀ t ∈ map, t < Index.maxLength)
    (hsum : ∀ n t, Word.fits (out.coeff t + Coeffs.gathered (cs.take n) map t) = true) :
    ∃ r, (remapOnto cs map out : Outcome ε Affine) = .ok r := by
  induction cs generalizing map out with
  | nil => exact ⟨out, rfl⟩
  | cons c cs ih =>
      cases map with
      | nil => simp at hlen
      | cons i is =>
          obtain ⟨hi, his⟩ := List.forall_mem_cons.mp hmap
          have hlen : cs.length ≤ is.length := by simpa using hlen
          by_cases hc : c = 0
          · rw [remapOnto, if_pos hc]
            refine ih hlen his fun n t => ?_
            simpa [Coeffs.gathered, hc] using hsum (n + 1) t
          · have hfits : Word.add? (out.coeff i) c = some (out.coeff i + c) := by
              rw [Word.add?_eq_some]
              exact ⟨by simpa [Coeffs.gathered] using hsum 1 i, rfl⟩
            have hset : out.setCoeff? i (out.coeff i + c) =
                some (out.setCoeff i (out.coeff i + c)) := by
              rw [setCoeff?, if_neg (by omega)]
            obtain ⟨r, hr⟩ : ∃ r,
                (remapOnto cs is (out.setCoeff i (out.coeff i + c)) : Outcome ε Affine) =
                  .ok r := by
              refine ih hlen his fun n t => ?_
              have hnext := hsum (n + 1) t
              rw [List.take_succ_cons, Coeffs.gathered, ← add_assoc] at hnext
              rw [coeff_setCoeff]
              by_cases ht : t = i
              · simpa [ht] using hnext
              · simpa [ht, Ne.symm ht] using hnext
            refine ⟨r, ?_⟩
            rw [remapOnto, if_neg hc, hfits]
            change Outcome.orFault (out.setCoeff? i (out.coeff i + c)) >>= _ = _
            rw [hset]
            exact hr

/-! ## evaluation -/

/-- Every product of a coefficient and a value is a word, and so is every sum on the way. -/
def Evaluable (a : Affine) (w : Valuation) : Prop :=
  ∀ i, a.coeff i ≠ 0 → Word.fits (a.coeff i * w i) = true ∧
    Word.fits (a.constant + Coeffs.dot (a.coeffs.take (i + 1)) w) = true

/-- A form can be evaluated exactly if all products and partial sums are words. -/
theorem exists_evalOnto_iff {cs vs : List Int} {sum : Int} :
    (∃ v, evalOnto cs vs sum = .ok v) ↔
      ∀ i, Coeffs.get cs i ≠ 0 → Word.fits (Coeffs.get cs i * Valuation.ofList vs i) = true ∧
        Word.fits (sum + Coeffs.dot (cs.take (i + 1)) (.ofList vs)) = true := by
  induction cs generalizing vs sum with
  | nil => simp [evalOnto]
  | cons c cs ih =>
      rw [← Nat.and_forall_add_one]
      simp only [Coeffs.get_cons_zero, Coeffs.get_cons_succ, List.take_succ_cons, dot_cons_ofList,
        Valuation.ofList_zero, Valuation.ofList_succ, List.take_zero, Coeffs.dot_nil, add_zero,
        ← add_assoc]
      by_cases hc : c = 0
      · simp [evalOnto, hc, ih]
      · rw [← ih]
        simp only [evalOnto, if_neg hc, Outcome.bind_eq_ok, Outcome.orOverflow_eq_ok,
          Word.mul?_eq_some, Word.add?_eq_some]
        constructor
        · rintro ⟨v, _, ⟨hproduct, rfl⟩, _, ⟨hsum, rfl⟩, hv⟩
          exact ⟨fun _ => ⟨hproduct, hsum⟩, v, hv⟩
        · rintro ⟨hhead, v, hv⟩
          obtain ⟨hproduct, hsum⟩ := hhead hc
          exact ⟨v, _, ⟨hproduct, rfl⟩, _, ⟨hsum, rfl⟩, hv⟩

/-- Evaluation gives the exact value, unless a number on the way is not a word. -/
theorem eval_eq_ok_iff {a : Affine} {vs : List Int} {v : Int} :
    a.eval vs = .ok v ↔ a.Evaluable (.ofList vs) ∧ v = a.value (.ofList vs) := by
  have hexists : (∃ v, a.eval vs = .ok v) ↔ a.Evaluable (.ofList vs) := exists_evalOnto_iff
  constructor
  · intro h
    exact ⟨hexists.mp ⟨v, h⟩, eval_eq_ok h⟩
  · rintro ⟨hfits, rfl⟩
    obtain ⟨v, hv⟩ := hexists.mpr hfits
    rw [hv, eval_eq_ok hv]

/-! ## equality -/

/-- The constant and the coefficients can be read off from the values. -/
theorem same_iff_value {a b : Affine} : a.same b = true ↔ ∀ w, a.value w = b.value w := by
  refine ⟨fun h w => value_eq_of_same h w, fun h => ?_⟩
  have hconstant : a.constant = b.constant := by
    have hzero := h fun _ => 0
    simpa [value, Coeffs.dot_zero] using hzero
  refine same_iff.mpr ⟨hconstant, fun i => ?_⟩
  have hunit := h fun j => if j = i then 1 else 0
  rw [value, value, Coeffs.dot_indicator, Coeffs.dot_indicator, hconstant] at hunit
  exact add_right_cancel hunit

theorem hashed_eq (a : Affine) :
    a.hashed = ((Coeffs.trim a.coeffs).length : Int) :: Coeffs.trim a.coeffs ++ [a.constant] := by
  rw [hashed, width, Coeffs.take_length_trim]

/-- Forms are the same exactly if their hashed numbers are. -/
theorem same_iff_hashed {a b : Affine} : a.same b = true ↔ a.hashed = b.hashed := by
  rw [same_iff, hashed_eq, hashed_eq]
  constructor
  · rintro ⟨hconstant, hcoeff⟩
    rw [hconstant, Coeffs.trim_congr hcoeff]
  · intro h
    obtain ⟨-, h⟩ := List.cons.inj h
    obtain ⟨htrim, hconstant⟩ := List.append_inj' h rfl
    refine ⟨by simpa using hconstant, fun i => ?_⟩
    rw [coeff_eq, coeff_eq, ← Coeffs.get_trim, htrim, Coeffs.get_trim]

/-- Sums, differences, multiples and shifts of affine forms have exactly the values that their names
say, and an overflow is reported exactly if a number that has to be stored, which for a difference
includes the negated second form, is not a word.  Renumbering is reading the variables through the
map, also where it is not injective.  Forms are equal exactly if they have the same value
everywhere, and exactly then the same numbers are hashed. -/
theorem affine_algebra_is_exact (ε : Type) (a b : Affine) (k : Int) :
    Computes (a.add b) (fun w => a.value w + b.value w)
      (entries (fun i => a.coeff i + b.coeff i) (a.constant + b.constant)) ∧
    Computes (a.sub b) (fun w => a.value w - b.value w)
      (entries (fun i => -b.coeff i) (-b.constant) ∪
        entries (fun i => a.coeff i - b.coeff i) (a.constant - b.constant)) ∧
    Computes (a.scale k) (fun w => k * a.value w)
      (entries (fun i => k * a.coeff i) (k * a.constant)) ∧
    Computes (a.addConst k) (fun w => a.value w + k) {a.constant + k} ∧
    (∀ map : List Nat,
      (∀ r, (a.remapped map : Outcome ε Affine) = .ok r → ∀ w, r.value w = a.value fun i =>
        w (map.getD i 0)) ∧
      (a.coeffs.length ≤ map.length → (∀ t ∈ map, t < Index.maxLength) →
        (∀ n t, Word.fits (Coeffs.gathered (a.coeffs.take n) map t) = true) →
        ∃ r, (a.remapped map : Outcome ε Affine) = .ok r)) ∧
    (∀ vs v, a.eval vs = .ok v ↔ a.Evaluable (.ofList vs) ∧ v = a.value (.ofList vs)) ∧
    (a.same b = true ↔ ∀ w, a.value w = b.value w) ∧ (a.same b = true ↔ a.hashed = b.hashed) := by
  refine ⟨computes_add a b, computes_sub a b, computes_scale a k, computes_addConst a k,
    fun map => ⟨?_, ?_⟩, fun _ _ => eval_eq_ok_iff, same_iff_value, same_iff_hashed⟩
  · exact fun r => value_remapped
  · intro hlen hmap hsum
    exact exists_remapOnto hlen hmap fun n t => by simpa using hsum n t

/-- A form that ends in a zero, and whose terms cancel if they are moved to one variable. -/
def cancelling : Affine := ⟨[3, 0, -3, 0], -1⟩

/-- The difference overflows although all its numbers are words, because the negated constant is
none. -/
theorem cancelling_is_exact :
    cancelling.sub (const Word.least) = .raise .overflow ∧ Word.fits (-1 - Word.least) = true ∧
      (∃ r, (cancelling.remapped [1, 0, 1, 2] : Outcome EngineError Affine) = .ok r ∧ ∀ w,
        r.value w = -1) ∧
      (∀ w, cancelling.value w = value ⟨[3, 0, -3], -1⟩ w) ∧ cancelling.hashed = hashed
        ⟨[3, 0, -3], -1⟩ := by
  obtain ⟨-, hsub, -, -, hmap, -⟩ := affine_algebra_is_exact EngineError cancelling
    (const Word.least) 0
  obtain ⟨-, -, -, -, -, -, hvalue, hhashed⟩ :=
    affine_algebra_is_exact EngineError cancelling ⟨[3, 0, -3], -1⟩ 0
  have hsame : cancelling.same ⟨[3, 0, -3], -1⟩ = true := by decide
  refine ⟨hsub.overflow_iff.mpr ⟨-Word.least,
    .inl (.inl rfl), by decide⟩, by decide, ?_, hvalue.mp hsame, hhashed.mp hsame⟩
  have hsums : ∀ n t,
      Word.fits (Coeffs.gathered (cancelling.coeffs.take n) [1, 0, 1, 2] t) = true := by
    intro n t
    by_cases ht : 1 = t
    · subst ht
      rcases n with _ | _ | _ | _ | n <;> simp [cancelling, Coeffs.gathered] <;> decide
    · rcases n with _ | _ | _ | _ | n <;> simp [cancelling, Coeffs.gathered, ht] <;> decide
  obtain ⟨r, hr⟩ := (hmap [1, 0, 1, 2]).2 (by decide) (by decide) hsums
  refine ⟨r, hr, fun w => ?_⟩
  rw [(hmap [1, 0, 1, 2]).1 r hr w]
  simp [cancelling, value]

end Affine

end KernelMap
