import KernelMap.Word
import KernelMap.Failure
import Mathlib.Data.List.Forall2
import Mathlib.Algebra.Order.Group.Unbundled.Int

/-!
# KernelMap.Proofs.Outcome

Reading results back out of computations that may fail.

Every statement about a partial operation has the form "if it succeeds, then
…".  The lemmas here take a successful computation apart: a bind succeeds if both
of its steps do, and a word operation succeeds with the exact integer.
-/

namespace List.Forall₂

variable {α β γ : Type} {R : α → β → Prop} {S : β → γ → Prop} {xs : List α} {ys : List β}
  {zs : List γ}

/-- Each element on the left has a partner on the right. -/
theorem exists_of_mem_left (h : List.Forall₂ R xs ys) {x : α} (hx : x ∈ xs) : ∃ y ∈ ys, R x y := by
  induction h with
  | nil => simp at hx
  | cons hy _ ih =>
      rcases List.mem_cons.mp hx with rfl | hx
      · exact ⟨_, by simp, hy⟩
      · exact (ih hx).imp fun y hy => by simp [hy]

/-- Each element on the right has a partner on the left. -/
theorem exists_of_mem_right (h : List.Forall₂ R xs ys) {y : β} (hy : y ∈ ys) : ∃ x ∈ xs, R x y :=
  h.flip.exists_of_mem_left hy

/-- Related lists are related by pairs whose right half is in the right list. -/
theorem mem_right (h : List.Forall₂ R xs ys) : List.Forall₂ (fun x y => y ∈ ys ∧ R x y) xs ys := by
  induction h with
  | nil => exact .nil
  | cons hy _ ih => exact .cons ⟨by simp, hy⟩ (ih.imp fun _ _ h => ⟨by simp [h.1], h.2⟩)

/-- Related lists are related by pairs whose left half is in the left list. -/
theorem mem_left (h : List.Forall₂ R xs ys) : List.Forall₂ (fun x y => x ∈ xs ∧ R x y) xs ys :=
  h.flip.mem_right.flip

/-- Relations of lists compose, with the element in between for each pair. -/
theorem comp (h : List.Forall₂ R xs ys) (h' : List.Forall₂ S ys zs) :
    List.Forall₂ (fun x z => ∃ y, R x y ∧ S y z) xs zs := by
  induction h generalizing zs with
  | nil =>
      cases h'
      exact .nil
  | cons hy _ ih =>
      cases h' with
      | cons hz h' => exact .cons ⟨_, hy, hz⟩ (ih h')

/-- Elements in between, one for each pair, make up a list. -/
theorem exists_middle (h : List.Forall₂ (fun x z => ∃ y, R x y ∧ S y z) xs zs) :
    ∃ ys, List.Forall₂ R xs ys ∧ List.Forall₂ S ys zs := by
  induction h with
  | nil => exact ⟨[], .nil, .nil⟩
  | cons hxz _ ih =>
      obtain ⟨y, hxy, hyz⟩ := hxz
      obtain ⟨ys, hxs, hzs⟩ := ih
      exact ⟨y :: ys, .cons hxy hxs, .cons hyz hzs⟩

/-- A list has a related one if every element has a related one. -/
theorem exists_iff : (∃ ys, List.Forall₂ R xs ys) ↔ ∀ x ∈ xs, ∃ y, R x y := by
  induction xs with
  | nil => simp
  | cons x xs ih =>
      simp only [List.forall₂_cons_left_iff, List.forall_mem_cons, ← ih]
      constructor
      · rintro ⟨-, y, ys, hy, hys, rfl⟩
        exact ⟨⟨y, hy⟩, ys, hys⟩
      · rintro ⟨⟨y, hy⟩, ys, hys⟩
        exact ⟨_, y, ys, hy, hys, rfl⟩

end List.Forall₂

namespace KernelMap

variable {ε δ α β : Type}

/-! ## outcomes -/

namespace Outcome

/-- A sequence of two steps succeeds if both do. -/
@[simp] theorem bind_eq_ok {x : Outcome ε α} {f : α → Outcome ε β} {b : β} :
    x >>= f = .ok b ↔ ∃ a, x = .ok a ∧ f a = .ok b := by
  cases x <;> simp [bind, Except.bind]

@[simp] theorem pure_eq_ok {a b : α} : (pure a : Outcome ε α) = .ok b ↔ a = b := by
  simp [pure, Except.pure]

@[simp] theorem raise_ne_ok {cause : ε} {a : α} : (raise cause : Outcome ε α) ≠ .ok a := by
  simp [raise]

@[simp] theorem fault_ne_ok {a : α} : (fault : Outcome ε α) ≠ .ok a := by
  simp [fault]

/-- A missing value is a fault, so success means that there is one. -/
@[simp] theorem orFault_eq_ok {x : Option α} {a : α} :
    (orFault x : Outcome ε α) = .ok a ↔ x = some a := by
  cases x <;> simp [orFault]

/-- Nothing is lost when a missing value becomes a fault. -/
theorem orFault_inj {x y : Option α} (h : (orFault x : Outcome ε α) = orFault y) : x = y := by
  cases x <;> cases y <;> simp_all [orFault, fault]

/-- A missing value is an error, so success means that there is one. -/
@[simp] theorem orRaise_eq_ok {cause : ε} {x : Option α} {a : α} :
    (orRaise cause x : Outcome ε α) = .ok a ↔ x = some a := by
  cases x <;> simp [orRaise]

/-- A missing value is an overflow, so success means that there is one. -/
@[simp] theorem orOverflow_eq_ok {x : Option α} {a : α} : orOverflow x = .ok a ↔ x = some a :=
  orRaise_eq_ok

/-- Renaming causes does not touch results. -/
@[simp] theorem widen_eq_ok {f : ε → δ} {x : Outcome ε α} {a : α} :
    widen f x = .ok a ↔ x = .ok a := by
  cases x <;> simp [widen]

/-- Errors of the engine become errors of the mapping, and results stay. -/
@[simp] theorem ofEngine_eq_ok {x : Outcome EngineError α} {a : α} :
    ofEngine x = .ok a ↔ x = .ok a :=
  widen_eq_ok

/-- An outcome has a value as an option if it is that result. -/
theorem toOption_eq_some {x : Outcome ε α} {a : α} : x.toOption = some a ↔ x = .ok a := by
  cases x <;> simp [Except.toOption]

/-- Mapping a list succeeds exactly if it does so element by element. -/
theorem mapM_eq_ok {f : α → Outcome ε β} {xs : List α} {ys : List β} :
    xs.mapM f = .ok ys ↔ List.Forall₂ (fun x y => f x = .ok y) xs ys := by
  induction xs generalizing ys with
  | nil =>
      simp only [List.mapM_nil, pure_eq_ok, List.forall₂_nil_left_iff]
      exact eq_comm
  | cons x xs ih =>
      simp only [List.mapM_cons, bind_eq_ok, pure_eq_ok, ih, List.forall₂_cons_left_iff]
      constructor
      · rintro ⟨y, hy, zs, hzs, rfl⟩
        exact ⟨y, zs, hy, hzs, rfl⟩
      · rintro ⟨y, zs, hy, hzs, rfl⟩
        exact ⟨y, hy, zs, hzs, rfl⟩

/-- Each element was mapped to one of the results. -/
theorem exists_of_mem_mapM {f : α → Outcome ε β} {xs : List α} {ys : List β}
    (h : xs.mapM f = .ok ys) {x : α} (hx : x ∈ xs) : ∃ y ∈ ys, f x = .ok y :=
  (mapM_eq_ok.mp h).exists_of_mem_left hx

/-- Each result comes from one of the elements. -/
theorem exists_of_mem_of_mapM {f : α → Outcome ε β} {xs : List α} {ys : List β}
    (h : xs.mapM f = .ok ys) {y : β} (hy : y ∈ ys) : ∃ x ∈ xs, f x = .ok y :=
  (mapM_eq_ok.mp h).exists_of_mem_right hy

/-- A list is mapped if each of its elements is. -/
theorem exists_mapM_eq_ok {f : α → Outcome ε β} {xs : List α} (h : ∀ x ∈ xs, ∃ y, f x = .ok y) :
    ∃ ys, xs.mapM f = .ok ys := by
  induction xs with
  | nil => exact ⟨[], rfl⟩
  | cons x xs ih =>
      obtain ⟨⟨y, hy⟩, hxs⟩ := List.forall_mem_cons.mp h
      obtain ⟨ys, hys⟩ := ih hxs
      exact ⟨y :: ys, mapM_eq_ok.mpr (.cons hy (mapM_eq_ok.mp hys))⟩

/-- A check of all elements that succeeds has succeeded on each. -/
theorem eq_ok_of_allM {f : α → Outcome ε Bool} {xs : List α} (h : xs.allM f = .ok true) :
    ∀ x ∈ xs, f x = .ok true := by
  induction xs with
  | nil => simp
  | cons x xs ih =>
      simp only [List.allM, bind_eq_ok] at h
      obtain ⟨b, hb, h⟩ := h
      cases b with
      | false => simp at h
      | true => exact List.forall_mem_cons.mpr ⟨hb, ih h⟩

/-- A search that finds nothing has found nothing at each element. -/
theorem eq_ok_of_anyM {f : α → Outcome ε Bool} {xs : List α} (h : xs.anyM f = .ok false) :
    ∀ x ∈ xs, f x = .ok false := by
  induction xs with
  | nil => simp
  | cons x xs ih =>
      simp only [List.anyM, bind_eq_ok] at h
      obtain ⟨b, hb, h⟩ := h
      cases b with
      | true => simp at h
      | false => exact List.forall_mem_cons.mpr ⟨hb, ih h⟩

/-- If a search succeeds, it found an element. -/
theorem exists_of_anyM {f : α → Outcome ε Bool} {xs : List α} (h : xs.anyM f = .ok true) :
    ∃ x ∈ xs, f x = .ok true := by
  induction xs with
  | nil => simp [List.anyM, pure, Except.pure] at h
  | cons x xs ih =>
      simp only [List.anyM, bind_eq_ok] at h
      obtain ⟨b, hb, h⟩ := h
      cases b with
      | true => exact ⟨x, by simp, hb⟩
      | false =>
          obtain ⟨y, hy, hf⟩ := ih h
          exact ⟨y, by simp [hy], hf⟩

/-! ### faults -/

@[simp] theorem ok_ne_fault {a : α} : (.ok a : Outcome ε α) ≠ fault := by simp [fault]

@[simp] theorem pure_ne_fault {a : α} : (pure a : Outcome ε α) ≠ fault := by
  simp [fault, pure, Except.pure]

@[simp] theorem raise_ne_fault {cause : ε} : (raise cause : Outcome ε α) ≠ fault := by
  simp [fault, raise]

/-- A fault here means that the value is missing. -/
@[simp] theorem orFault_eq_fault {x : Option α} : (orFault x : Outcome ε α) = fault ↔ x = none := by
  cases x <;> simp [orFault]

/-- A value that is an error when it is missing never faults. -/
@[simp] theorem orRaise_ne_fault {cause : ε} {x : Option α} :
    (orRaise cause x : Outcome ε α) ≠ fault := by
  cases x <;> simp [orRaise]

/-- An overflow is reported, so that it is no fault. -/
@[simp] theorem orOverflow_ne_fault {x : Option α} : orOverflow x ≠ fault := orRaise_ne_fault

/-- A sequence of two steps faults in one of them. -/
@[simp] theorem bind_eq_fault {x : Outcome ε α} {f : α → Outcome ε β} :
    x >>= f = fault ↔ x = fault ∨ ∃ a, x = .ok a ∧ f a = fault := by
  cases x <;> simp [bind, Except.bind, fault]

/-- Changing a result neither adds nor removes a fault. -/
@[simp] theorem map_eq_fault {x : Outcome ε α} {f : α → β} : f <$> x = fault ↔ x = fault := by
  cases x <;> simp [Functor.map, Except.map, fault]

/-- Without a fault, a computation that has no answer reports a cause. -/
theorem exists_raise_iff {x : Outcome ε α} (h : x ≠ fault) :
    (∃ cause, x = raise cause) ↔ ¬ ∃ a, x = .ok a := by
  rcases x with (_ | cause) | a
  · exact absurd rfl h
  · simp [raise]
  · simp [raise]

end Outcome

/-! ## words -/

namespace Word

/-- The checked sum is the sum, if that fits into a word. -/
@[simp] theorem add?_eq_some {a b c : Int} : add? a b = some c ↔ fits (a + b) = true ∧ a + b = c :=
  check_eq_some_iff

/-- The checked difference is the difference, if that fits into a word. -/
@[simp] theorem sub?_eq_some {a b c : Int} : sub? a b = some c ↔ fits (a - b) = true ∧ a - b = c :=
  check_eq_some_iff

/-- The checked product is the product, if that fits into a word. -/
@[simp] theorem mul?_eq_some {a b c : Int} : mul? a b = some c ↔ fits (a * b) = true ∧ a * b = c :=
  check_eq_some_iff

/-- The checked negation is the negation, if that fits into a word. -/
@[simp] theorem neg?_eq_some {a c : Int} : neg? a = some c ↔ fits (-a) = true ∧ -a = c :=
  check_eq_some_iff

/-- The checked absolute value is the absolute value, if that fits into a word. -/
@[simp] theorem abs?_eq_some {a c : Int} :
    abs? a = some c ↔ fits a.natAbs = true ∧ (a.natAbs : Int) = c :=
  check_eq_some_iff

/-- The checked quotient is the one rounded down, if the divisor is not zero and it fits into a
word. -/
@[simp] theorem floorDiv?_eq_some {a b c : Int} :
    floorDiv? a b = some c ↔ b ≠ 0 ∧ fits (a.fdiv b) = true ∧ a.fdiv b = c := by
  unfold floorDiv?
  split
  · next h => simp [h]
  · next h => simp [h, check_eq_some_iff]

/-- A number between zero and a word is a word. -/
theorem fits_of_between {a b : Int} (ha : fits a = true) (hb : min a 0 ≤ b ∧ b ≤ max a 0) :
    fits b = true := by
  rw [fits_iff, least, greatest] at ha ⊢
  omega

/-- A quotient lies between zero and the dividend. -/
theorem fdiv_between (a : Int) {b : Int} (hb : 0 < b) :
    min a 0 ≤ a.fdiv b ∧ a.fdiv b ≤ max a 0 := by
  rw [Int.fdiv_eq_ediv_of_nonneg _ hb.le]
  rcases le_total 0 a with hsign | hsign
  · have hnonneg := Int.ediv_nonneg hsign hb.le
    have hle := Int.ediv_le_self b hsign
    omega
  · have hnonpos : a / b ≤ 0 := Int.ediv_le_of_le_mul hb (by simpa using hsign)
    have hmul : a * b ≤ a := by simpa using Int.mul_le_mul_of_nonpos_left hsign (show 1 ≤ b from hb)
    have hge : a ≤ a / b := (Int.le_ediv_iff_mul_le hb).mpr hmul
    omega

/-- Dividing a word by a positive number, rounding down, gives a word. -/
theorem fits_fdiv {g x : Int} (hg : 0 < g) (hx : fits x = true) : fits (x.fdiv g) = true :=
  fits_of_between hx (fdiv_between x hg)

/-- A quotient rounded up is the opposite of the rounded down opposite. -/
theorem eq_of_ceilDiv?_eq_some {a b c : Int} (h : ceilDiv? a b = some c) : c = -((-a).fdiv b) := by
  simp only [ceilDiv?, Option.bind_eq_bind, Option.bind_eq_some_iff, neg?_eq_some,
    floorDiv?_eq_some] at h
  obtain ⟨n, ⟨-, rfl⟩, q, ⟨-, -, rfl⟩, -, rfl⟩ := h
  rfl

/-- The greatest common divisor does not see the signs. -/
theorem eq_of_gcd?_eq_some {a b g : Int} (h : gcd? a b = some g) : g = Int.gcd a b := by
  simp only [gcd?, Option.bind_eq_bind, Option.bind_eq_some_iff, abs?_eq_some,
    Option.some.injEq] at h
  obtain ⟨x, ⟨-, rfl⟩, y, ⟨-, rfl⟩, rfl⟩ := h
  rw [Int.gcd, Int.natAbs_natCast, Int.natAbs_natCast]
  rfl

end Word

end KernelMap
