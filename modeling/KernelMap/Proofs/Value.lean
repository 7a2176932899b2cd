import KernelMap.Affine.Basic
import KernelMap.Proofs.Outcome
import Mathlib.Data.List.GetD
import Mathlib.Tactic.Ring
import Mathlib.Tactic.Linarith

/-!
# KernelMap.Proofs.Value

The exact value of an affine form, and what every operation on forms does to
it.

A `Valuation` gives every variable an integer.  `Affine.value` evaluates a form
there without a limit on the size of numbers; it is the meaning that all later
statements are about.  A value depends on the coefficients only, not on how the
list that holds them ends (`Coeffs.dot_linear`), so each operation is described
once by its coefficients and its value follows.

Main statements:

* `Affine.value_add`, `value_sub`, `value_scale`, `value_addConst`,
  `value_combine?` — arithmetic is exact where it succeeds;
* `Affine.value_congr` — only variables that occur matter;
* `Affine.value_remapped` — renumbering is composition with the map;
* `Affine.eval_eq_ok` — evaluation at a list is the exact value.
-/

namespace KernelMap

/-- An integer for every variable. -/
abbrev Valuation := Nat → Int

/-- The values in a list; variables past its end are `0`. -/
def Valuation.ofList (vs : List Int) : Valuation := fun i => vs.getD i 0

/-- Values in the first list are not moved by what follows. -/
theorem Valuation.ofList_append_left {us vs : List Int} {i : Nat} (h : i < us.length) :
    ofList (us ++ vs) i = ofList us i :=
  List.getD_append _ _ _ _ h

/-- Values in the second list come after those of the first. -/
theorem Valuation.ofList_append_right (us vs : List Int) (i : Nat) :
    ofList (us ++ vs) (us.length + i) = ofList vs i := by
  rw [ofList, List.getD_append_right _ _ _ _ (Nat.le_add_right ..), Nat.add_sub_cancel_left]
  rfl

theorem Valuation.ofList_zero (vs : List Int) : ofList vs 0 = vs.headD 0 := by
  cases vs <;> rfl

/-- The value after the first is the one at its place in the rest. -/
theorem Valuation.ofList_succ (vs : List Int) (i : Nat) : ofList vs (i + 1) = ofList vs.tail i := by
  cases vs <;> rfl

/-! ## coefficient lists -/

namespace Coeffs

/-- The coefficient of variable `i`. -/
def get (cs : List Int) (i : Nat) : Int := cs.getD i 0

@[simp] theorem get_nil (i : Nat) : get [] i = 0 := rfl

@[simp] theorem get_cons_zero (c : Int) (cs : List Int) : get (c :: cs) 0 = c := rfl

@[simp] theorem get_cons_succ (c : Int) (cs : List Int) (i : Nat) :
    get (c :: cs) (i + 1) = get cs i := rfl

/-- A stored coefficient is the one in the list. -/
theorem get_of_lt {cs : List Int} {i : Nat} (h : i < cs.length) : get cs i = cs[i] :=
  List.getD_eq_getElem _ _ h

/-- Coefficients that are not stored are zero. -/
theorem get_of_length_le {cs : List Int} {i : Nat} (h : cs.length ≤ i) : get cs i = 0 :=
  List.getD_eq_default _ _ h

/-- The coefficients of two lists, one after the other. -/
theorem get_append (as bs : List Int) (i : Nat) :
    get (as ++ bs) i = if i < as.length then get as i else get bs (i - as.length) := by
  unfold get
  split
  · next h => exact List.getD_append _ _ _ _ h
  · next h => exact List.getD_append_right _ _ _ _ (by omega)

@[simp] theorem get_replicate_zero (n i : Nat) : get (List.replicate n 0) i = 0 := by
  by_cases h : i < n
  · rw [get_of_lt (by simpa using h), List.getElem_replicate]
  · exact get_of_length_le (by simp; omega)

/-- Without the first coefficient, the others move down by one. -/
theorem get_tail (cs : List Int) (i : Nat) : get cs.tail i = get cs (i + 1) := by
  cases cs <;> simp

/-- Every entry has a property if it holds of all coefficients. -/
theorem forall_mem_of_get {P : Int → Prop} {cs : List Int} (h : ∀ i, P (get cs i)) :
    ∀ c ∈ cs, P c := by
  intro c hc
  obtain ⟨i, hi, rfl⟩ := List.getElem_of_mem hc
  rw [← get_of_lt hi]
  exact h i

/-- The sum of the coefficients times the values of their variables. -/
def dot : List Int → Valuation → Int
  | [], _ => 0
  | c :: cs, w => c * w 0 + dot cs fun i => w (i + 1)

@[simp] theorem dot_nil (w : Valuation) : dot [] w = 0 := rfl

/-- The first coefficient goes with the first value, the others with those after it. -/
@[simp] theorem dot_cons (c : Int) (cs : List Int) (w : Valuation) :
    dot (c :: cs) w = c * w 0 + dot cs fun i => w (i + 1) := rfl

/-- A list is its first coefficient and the others, also if it is empty. -/
theorem dot_eq_head_add_tail (cs : List Int) (w : Valuation) :
    dot cs w = get cs 0 * w 0 + dot cs.tail fun i => w (i + 1) := by
  cases cs <;> simp

/-- The sum depends linearly on the coefficients, whatever the lengths of the
lists that hold them. -/
theorem dot_linear {as bs cs : List Int} {k₁ k₂ : Int}
    (h : ∀ i, get cs i = k₁ * get as i + k₂ * get bs i) (w : Valuation) :
    dot cs w = k₁ * dot as w + k₂ * dot bs w := by
  -- the induction is on a common bound of the three lengths
  obtain ⟨n, hn⟩ : ∃ n, as.length + bs.length + cs.length ≤ n := ⟨_, le_rfl⟩
  induction n generalizing as bs cs w with
  | zero =>
      have ha : as = [] := List.length_eq_zero_iff.mp (by omega)
      have hb : bs = [] := List.length_eq_zero_iff.mp (by omega)
      have hc : cs = [] := List.length_eq_zero_iff.mp (by omega)
      simp [ha, hb, hc]
  | succ n ih =>
      by_cases hz : as = [] ∧ bs = [] ∧ cs = []
      · simp [hz.1, hz.2.1, hz.2.2]
      · have hlen : as.tail.length + bs.tail.length + cs.tail.length ≤ n := by
          simp only [List.length_tail]
          have hpos : 0 < as.length + bs.length + cs.length := by
            by_contra hle
            exact hz ⟨List.length_eq_zero_iff.mp (by omega), List.length_eq_zero_iff.mp (by omega),
              List.length_eq_zero_iff.mp (by omega)⟩
          omega
        have htail : dot cs.tail (fun i => w (i + 1)) =
            k₁ * dot as.tail (fun i => w (i + 1)) + k₂ * dot bs.tail (fun i => w (i + 1)) :=
          ih (fun i => by simp only [get_tail, h]) _ hlen
        rw [dot_eq_head_add_tail cs, dot_eq_head_add_tail as, dot_eq_head_add_tail bs, htail, h 0]
        ring

/-- Lists with the same coefficients have the same sum. -/
theorem dot_ext {as bs : List Int} (h : ∀ i, get as i = get bs i) (w : Valuation) :
    dot as w = dot bs w := by
  have hlin : dot as w = 1 * dot bs w + 0 * dot [] w := dot_linear (fun i => by simp [h]) w
  simpa using hlin

/-- Only the values of variables that occur matter. -/
theorem dot_congr {cs : List Int} {w w' : Valuation} (h : ∀ i, get cs i ≠ 0 → w i = w' i) :
    dot cs w = dot cs w' := by
  induction cs generalizing w w' with
  | nil => rfl
  | cons c cs ih =>
      have htail : dot cs (fun i => w (i + 1)) = dot cs (fun i => w' (i + 1)) :=
        ih fun i hi => h (i + 1) (by simpa using hi)
      have hhead : c * w 0 = c * w' 0 := by
        by_cases hc : c = 0
        · simp [hc]
        · rw [h 0 (by simpa using hc)]
      rw [dot_cons, dot_cons, htail, hhead]

/-- The coefficients of the second list go with the values after the first. -/
theorem dot_append (as bs : List Int) (w : Valuation) :
    dot (as ++ bs) w = dot as w + dot bs fun i => w (as.length + i) := by
  induction as generalizing w with
  | nil => simp
  | cons a as ih =>
      have hshift : (fun i => w (as.length + i + 1)) = fun i => w (as.length + 1 + i) := by
        funext i
        rw [Nat.add_right_comm]
      rw [List.cons_append, dot_cons, dot_cons, ih, List.length_cons, hshift, add_assoc]

@[simp] theorem dot_replicate_zero (n : Nat) (w : Valuation) : dot (List.replicate n 0) w = 0 := by
  have hzero : dot (List.replicate n 0) w = dot [] w := dot_ext (fun i => by simp) w
  rw [hzero, dot_nil]

/-- Where all variables are zero, so is the sum. -/
theorem dot_zero (cs : List Int) : dot cs (fun _ => 0) = 0 := by
  induction cs with
  | nil => rfl
  | cons c cs ih => rw [dot_cons, ih, mul_zero, add_zero]

/-- One coefficient at variable `i`. -/
theorem dot_single (i : Nat) (k : Int) (w : Valuation) :
    dot (List.replicate i 0 ++ [k]) w = k * w i := by
  simp [dot_append]

/-- A list of zeros that ends with `k` has this one coefficient. -/
theorem get_single (i j : Nat) (k : Int) :
    get (List.replicate i 0 ++ [k]) j = if j = i then k else 0 := by
  rw [get_append, List.length_replicate, get_replicate_zero]
  by_cases hj : j = i
  · simp [hj]
  · by_cases hlt : j < i
    · rw [if_pos hlt, if_neg hj]
    · rw [if_neg hlt, if_neg hj, get_of_length_le (by simp; omega)]

/-- Changing the coefficient of one variable. -/
theorem dot_change {as bs : List Int} {i : Nat} (h : ∀ j, j ≠ i → get bs j = get as j)
    (w : Valuation) : dot bs w = dot as w + (get bs i - get as i) * w i := by
  have hlin : ∀ j, get bs j =
      1 * get as j + (get bs i - get as i) * get (List.replicate i 0 ++ [1]) j := by
    intro j
    rw [get_single]
    by_cases hj : j = i
    · simp [hj]
    · simp [hj, h j hj]
  rw [dot_linear hlin, dot_single]
  ring

/-- Changing one coefficient leaves the others alone. -/
theorem get_set (cs : List Int) (i j : Nat) (k : Int) (hi : i < cs.length) :
    get (cs.set i k) j = if j = i then k else get cs j := by
  by_cases hj : j = i
  · subst hj
    rw [if_pos rfl, get_of_lt (by simpa using hi), List.getElem_set_self]
  · rw [if_neg hj]
    by_cases hlt : j < cs.length
    · rw [get_of_lt (by simpa using hlt), get_of_lt hlt, List.getElem_set_ne (by omega)]
    · rw [get_of_length_le (by simpa using hlt), get_of_length_le (by omega)]

/-- Changing one coefficient changes the sum by that of its variable. -/
theorem dot_set {cs : List Int} {i : Nat} (hi : i < cs.length) (k : Int) (w : Valuation) :
    dot (cs.set i k) w = dot cs w + (k - get cs i) * w i := by
  have hchange : ∀ j, j ≠ i → get (cs.set i k) j = get cs j := fun j hj => by
    rw [get_set _ _ _ _ hi, if_neg hj]
  rw [dot_change hchange, get_set _ _ _ _ hi, if_pos rfl]

/-- A common divisor of the coefficients divides the sum. -/
theorem dvd_dot {g : Int} {cs : List Int} (h : ∀ c ∈ cs, g ∣ c) (w : Valuation) : g ∣ dot cs w := by
  induction cs generalizing w with
  | nil => simp
  | cons c cs ih =>
      have hc : g ∣ c := h c (by simp)
      have hcs : g ∣ dot cs fun i => w (i + 1) := ih (fun d hd => h d (by simp [hd])) _
      exact Int.dvd_add (Dvd.dvd.mul_right hc _) hcs

/-! ### operations on lists -/

/-- Zeros at the end do not count as coefficients. -/
@[simp] theorem get_trim (cs : List Int) (i : Nat) : get (trim cs) i = get cs i := by
  induction cs generalizing i with
  | nil => rfl
  | cons c cs ih =>
      rw [trim]
      split
      · next heq =>
        have hz : ∀ j, get cs j = 0 := fun j => by rw [← ih j, heq]; simp
        by_cases hc : c = 0
        · cases i with
          | zero => simp [hc]
          | succ i => simpa [hc] using (hz i).symm
        · cases i with
          | zero => simp [hc]
          | succ i => simpa [hc] using (hz i).symm
      · cases i with
        | zero => simp
        | succ i => simpa using ih i

/-- Zeros at the end add nothing to the sum. -/
@[simp] theorem dot_trim (cs : List Int) (w : Valuation) : dot (trim cs) w = dot cs w :=
  dot_ext (get_trim cs) w

/-- Without a coefficient other than zero, nothing is left of the list. -/
theorem trim_eq_nil {cs : List Int} (h : ∀ i, get cs i = 0) : trim cs = [] := by
  induction cs with
  | nil => rfl
  | cons c cs ih =>
      have hc : c = 0 := h 0
      simp [trim, ih fun i => h (i + 1), hc]

/-- Without trailing zeros, a list is determined by its coefficients. -/
theorem trim_congr {as bs : List Int} (h : ∀ i, get as i = get bs i) : trim as = trim bs := by
  induction as generalizing bs with
  | nil => exact (trim_eq_nil fun i => (h i).symm).symm
  | cons a as ih =>
      cases bs with
      | nil => exact trim_eq_nil h
      | cons b bs =>
          obtain rfl : a = b := h 0
          rw [trim, trim, ih fun i => h (i + 1)]

/-- A trimmed list has no zeros to trim. -/
theorem trim_trim (cs : List Int) : trim (trim cs) = trim cs := trim_congr (get_trim cs)

/-- A list that does not end with a zero is trimmed. -/
theorem trim_append_singleton (cs : List Int) {k : Int} (hk : k ≠ 0) :
    trim (cs ++ [k]) = cs ++ [k] := by
  induction cs with
  | nil => simp [trim, hk]
  | cons c cs ih =>
      rw [List.cons_append, trim, ih]
      cases cs <;> rfl

/-- Zeros can be added at the end without changing a coefficient. -/
@[simp] theorem get_pad (n : Nat) (cs : List Int) (i : Nat) : get (pad n cs) i = get cs i := by
  rw [pad, get_append, get_replicate_zero]
  split
  · rfl
  · exact (get_of_length_le (by omega)).symm

/-- Zeros can be added at the end without changing the sum. -/
@[simp] theorem dot_pad (n : Nat) (cs : List Int) (w : Valuation) : dot (pad n cs) w = dot cs w :=
  dot_ext (get_pad n cs) w

/-- Padding makes a list longer, and never shorter. -/
theorem length_pad (n : Nat) (cs : List Int) : (pad n cs).length = max n cs.length := by
  simp [pad]
  omega

/-- A list mapped by a partial operation has the results in the same places. -/
theorem map?_eq_some {f : Int → Option Int} {as bs : List Int} :
    map? f as = some bs ↔ List.Forall₂ (fun a b => f a = some b) as bs := by
  induction as generalizing bs with
  | nil =>
      simp only [map?, Option.some.injEq, List.forall₂_nil_left_iff]
      exact eq_comm
  | cons a as ih =>
      simp only [map?, Option.bind_eq_bind, Option.bind_eq_some_iff, Option.pure_def,
        Option.some.injEq, ih, List.forall₂_cons_left_iff]
      constructor
      · rintro ⟨b, hb, cs, hcs, rfl⟩
        exact ⟨b, cs, hb, hcs, rfl⟩
      · rintro ⟨b, cs, hb, hcs, rfl⟩
        exact ⟨b, hb, cs, hcs, rfl⟩

/-- Mapping by a multiplication multiplies the coefficients. -/
theorem get_of_map? {f : Int → Option Int} {k : Int} (hf : ∀ x z, f x = some z → z = k * x)
    {as bs : List Int} (h : map? f as = some bs) (i : Nat) : get bs i = k * get as i := by
  rw [map?_eq_some] at h
  induction h generalizing i with
  | nil => simp
  | cons hab _ ih =>
      cases i with
      | zero => simpa using hf _ _ hab
      | succ i => simpa using ih i

/-- Combining two lists entry by entry combines their coefficients. -/
theorem get_of_zipPad? {f : Int → Int → Option Int} {k₁ k₂ : Int}
    (hf : ∀ x y z, f x y = some z → z = k₁ * x + k₂ * y) {as bs cs : List Int}
    (h : zipPad? f as bs = some cs) (i : Nat) :
    get cs i = k₁ * get as i + k₂ * get bs i := by
  fun_induction zipPad? f as bs generalizing cs i with
  | case1 bs =>
      have hmul : ∀ y z, f 0 y = some z → z = k₂ * y := fun y z hz => by simpa using hf 0 y z hz
      simpa using get_of_map? hmul h i
  | case2 a as ih | case3 a as b bs ih =>
      simp only [Option.bind_eq_bind, Option.bind_eq_some_iff, Option.pure_def,
        Option.some.injEq] at h
      obtain ⟨x, hx, xs, hxs, rfl⟩ := h
      cases i with
      | zero => simpa using hf _ _ _ hx
      | succ i => simpa using ih hxs i

/-- A list is made if its head and its tail are. -/
theorem isSome_cons {x : Option Int} {xs : Option (List Int)} :
    (do return (← x) :: (← xs) : Option (List Int)).isSome ↔ x.isSome ∧ xs.isSome := by
  cases x <;> cases xs <;> simp

/-- A list is mapped if each of its entries is. -/
theorem isSome_map?_iff {f : Int → Option Int} (h0 : (f 0).isSome) {cs : List Int} :
    (map? f cs).isSome ↔ ∀ i, (f (get cs i)).isSome := by
  induction cs with
  | nil => simp [map?, h0]
  | cons c cs ih =>
      rw [← Nat.and_forall_add_one]
      simp only [get_cons_zero, get_cons_succ, ← ih]
      exact isSome_cons

/-- Two lists are combined if all pairs of their entries are. -/
theorem isSome_zipPad?_iff {f : Int → Int → Option Int} (h0 : (f 0 0).isSome) {as bs : List Int} :
    (zipPad? f as bs).isSome ↔ ∀ i, (f (get as i) (get bs i)).isSome := by
  fun_induction zipPad? f as bs with
  | case1 bs => simpa using isSome_map?_iff h0
  | case2 a as ih | case3 a as b bs ih =>
      rw [← Nat.and_forall_add_one]
      simp only [get_cons_zero, get_cons_succ, get_nil] at ih ⊢
      rw [← ih]
      exact isSome_cons

/-- Combining coefficients keeps the longer of the two lengths. -/
theorem length_of_zipPad? {f : Int → Int → Option Int} {as bs cs : List Int}
    (h : zipPad? f as bs = some cs) : cs.length = max as.length bs.length := by
  fun_induction zipPad? f as bs generalizing cs with
  | case1 bs => simpa using (map?_eq_some.mp h).length_eq.symm
  | case2 a as ih | case3 a as b bs ih =>
      simp only [Option.bind_eq_bind, Option.bind_eq_some_iff, Option.pure_def,
        Option.some.injEq] at h
      obtain ⟨x, hx, xs, hxs, rfl⟩ := h
      have := ih hxs
      simp only [List.length_cons, List.length_nil] at this ⊢
      omega

/-- All stored coefficients are zero exactly if all coefficients are. -/
theorem all_zero_iff {cs : List Int} : cs.all (· == 0) = true ↔ ∀ i, get cs i = 0 := by
  constructor
  · intro h i
    by_cases hi : i < cs.length
    · rw [get_of_lt hi]
      simpa using List.all_eq_true.mp h _ (List.getElem_mem hi)
    · exact get_of_length_le (by omega)
  · intro h
    simpa using forall_mem_of_get h

/-- Lists that agree up to trailing zeros have the same coefficients. -/
theorem get_eq_of_same {as bs : List Int} (h : same as bs = true) (i : Nat) :
    get as i = get bs i := by
  fun_induction same as bs generalizing i with
  | case1 bs => simpa using (all_zero_iff.mp h i).symm
  | case2 as _ => simpa using all_zero_iff.mp h i
  | case3 a as b bs ih =>
      simp only [Bool.and_eq_true, beq_iff_eq] at h
      cases i with
      | zero => simpa using h.1
      | succ i => simpa using ih h.2 i

/-- Lists with the same coefficients are compared as equal. -/
theorem same_of_get_eq {as bs : List Int} (h : ∀ i, get as i = get bs i) : same as bs = true := by
  fun_induction same as bs with
  | case1 bs => exact all_zero_iff.mpr fun i => (h i).symm
  | case2 as _ => exact all_zero_iff.mpr h
  | case3 a as b bs ih =>
      simp only [Bool.and_eq_true, beq_iff_eq]
      exact ⟨h 0, ih fun i => h (i + 1)⟩

end Coeffs

/-! ## forms -/

namespace Affine

/-- The value of a form, with integers of any size. -/
def value (a : Affine) (w : Valuation) : Int := Coeffs.dot a.coeffs w + a.constant

/-- The coefficient of a variable is the one in the list. -/
theorem coeff_eq (a : Affine) (i : Nat) : a.coeff i = Coeffs.get a.coeffs i := rfl

/-- The value of a form is the sum over its coefficients and its constant. -/
theorem value_mk (cs : List Int) (k : Int) (w : Valuation) :
    value ⟨cs, k⟩ w = Coeffs.dot cs w + k := rfl

/-- Only the values of variables that occur matter. -/
theorem value_congr {a : Affine} {w w' : Valuation} (h : ∀ i, a.coeff i ≠ 0 → w i = w' i) :
    a.value w = a.value w' := by
  rw [value, value, Coeffs.dot_congr h]

/-- Forms with the same coefficients and constant have the same value. -/
theorem value_ext {a b : Affine} (hc : ∀ i, a.coeff i = b.coeff i) (hk : a.constant = b.constant)
    (w : Valuation) : a.value w = b.value w := by
  rw [value, value, Coeffs.dot_ext hc, hk]

/-- A form all of whose coefficients are zero is its constant. -/
theorem value_of_isConst {a : Affine} (h : a.isConst = true) (w : Valuation) :
    a.value w = a.constant := by
  have hz : ∀ i, Coeffs.get a.coeffs i = Coeffs.get [] i := fun i => by
    by_cases hi : i < a.coeffs.length
    · rw [Coeffs.get_of_lt hi]
      simpa using List.all_eq_true.mp h _ (List.getElem_mem hi)
    · exact Coeffs.get_of_length_le (by omega)
  rw [value, Coeffs.dot_ext hz, Coeffs.dot_nil, zero_add]

@[simp] theorem value_const (k : Int) (w : Valuation) : (const k).value w = k := by
  simp [value, const]

@[simp] theorem coeff_const (k : Int) (i : Nat) : (const k).coeff i = 0 := rfl

/-- Setting a coefficient leaves the others alone. -/
theorem coeff_setCoeff (a : Affine) (i j : Nat) (k : Int) :
    (a.setCoeff i k).coeff j = if j = i then k else a.coeff j := by
  unfold setCoeff
  split
  · next hi =>
    simp only [coeff_eq, Coeffs.get_trim]
    exact Coeffs.get_set _ _ _ _ hi
  · next hi =>
    by_cases hk : k = 0
    · rw [if_pos hk]
      by_cases hj : j = i
      · rw [if_pos hj, hj, hk]
        exact Coeffs.get_of_length_le (by omega)
      · rw [if_neg hj]
    · have hlen : (Coeffs.pad i a.coeffs).length = i := by
        rw [Coeffs.length_pad]
        omega
      rw [if_neg hk]
      simp only [coeff_eq, Coeffs.get_append, Coeffs.get_pad, hlen]
      by_cases hj : j = i
      · simp [hj]
      · rw [if_neg hj]
        by_cases hlt : j < i
        · rw [if_pos hlt]
        · rw [if_neg hlt, Coeffs.get_of_length_le (by simp; omega),
            Coeffs.get_of_length_le (by omega)]

@[simp] theorem constant_setCoeff (a : Affine) (i : Nat) (k : Int) :
    (a.setCoeff i k).constant = a.constant := by
  unfold setCoeff
  split
  · rfl
  · split <;> rfl

/-- Setting a coefficient of a trimmed form trims the result. -/
theorem trimmed_setCoeff {a : Affine} (h : a.trimmed = a) (i : Nat) (k : Int) :
    (a.setCoeff i k).trimmed = a.setCoeff i k := by
  unfold setCoeff
  split
  · simp only [trimmed]
    rw [Coeffs.trim_trim]
  · split
    · exact h
    · next hk => simp only [trimmed, Coeffs.trim_append_singleton _ hk]

/-- Setting a coefficient changes the value by that of its variable. -/
theorem value_setCoeff (a : Affine) (i : Nat) (k : Int) (w : Valuation) :
    (a.setCoeff i k).value w = a.value w + (k - a.coeff i) * w i := by
  have hchange : ∀ j, j ≠ i →
      Coeffs.get (a.setCoeff i k).coeffs j = Coeffs.get a.coeffs j := fun j hj => by
    rw [← coeff_eq, coeff_setCoeff, if_neg hj, coeff_eq]
  have hself : Coeffs.get (a.setCoeff i k).coeffs i = k := by
    rw [← coeff_eq, coeff_setCoeff, if_pos rfl]
  rw [value, value, Coeffs.dot_change hchange, hself, constant_setCoeff, coeff_eq]
  ring

@[simp] theorem value_term (i : Nat) (k : Int) (w : Valuation) : (term i k).value w = k * w i := by
  simp [term, value_setCoeff]

/-- The form `k·x` has one coefficient. -/
theorem coeff_term (i j : Nat) (k : Int) : (term i k).coeff j = if j = i then k else 0 := by
  simp [term, coeff_setCoeff]

theorem constant_term (i : Nat) (k : Int) : (term i k).constant = 0 := by
  rw [term, constant_setCoeff, const]

@[simp] theorem value_var (i : Nat) (w : Valuation) : (var i).value w = w i := by
  simp [var]

/-- The form `x` has one coefficient. -/
theorem coeff_var (i j : Nat) : (var i).coeff j = if j = i then 1 else 0 := coeff_term i j 1

@[simp] theorem coeff_trimmed (a : Affine) (i : Nat) : a.trimmed.coeff i = a.coeff i :=
  Coeffs.get_trim _ _

@[simp] theorem value_trimmed (a : Affine) (w : Valuation) : a.trimmed.value w = a.value w := by
  simp [value, trimmed]

/-- Forms are compared by their constants and coefficients, not by how many are stored. -/
theorem same_iff {a b : Affine} :
    a.same b = true ↔ a.constant = b.constant ∧ ∀ i, a.coeff i = b.coeff i := by
  simp only [same, Bool.and_eq_true, beq_iff_eq]
  exact ⟨And.imp_right Coeffs.get_eq_of_same, And.imp_right Coeffs.same_of_get_eq⟩

/-- Forms that agree up to trailing zeros have the same value. -/
theorem value_eq_of_same {a b : Affine} (h : a.same b = true) (w : Valuation) :
    a.value w = b.value w := by
  obtain ⟨hconstant, hcoeff⟩ := same_iff.mp h
  exact value_ext hcoeff hconstant w

/-- All numbers are words. -/
def Representable (a : Affine) : Prop :=
  (∀ x ∈ a.coeffs, Word.fits x = true) ∧ Word.fits a.constant = true

instance (a : Affine) : Decidable a.Representable := inferInstanceAs (Decidable (_ ∧ _))

/-- Every coefficient of a form of words is a word, stored or not. -/
theorem Representable.fits_coeff {a : Affine} (h : a.Representable) (i : Nat) :
    Word.fits (a.coeff i) = true := by
  rw [coeff, List.getD_eq_getElem?_getD]
  cases hi : a.coeffs[i]? with
  | none => rfl
  | some x => exact h.1 x (List.mem_of_getElem? hi)

/-! ### arithmetic -/

/-- A successful combination: every coefficient and the constant are combined. -/
theorem combine?_eq_some {k₁ k₂ : Int} {a b c : Affine} (h : combine? k₁ a k₂ b = some c) :
    (∀ i, c.coeff i = k₁ * a.coeff i + k₂ * b.coeff i) ∧
      c.constant = k₁ * a.constant + k₂ * b.constant ∧
      c.coeffs.length = max a.coeffs.length b.coeffs.length := by
  simp only [combine?, Option.bind_eq_bind, Option.bind_eq_some_iff, Option.pure_def,
    Option.some.injEq] at h
  obtain ⟨cs, hcs, k, ⟨p, hp, q, hq, hk⟩, rfl⟩ := h
  simp only [Word.mul?_eq_some, Word.add?_eq_some] at hp hq hk
  refine ⟨fun i => ?_, ?_, Coeffs.length_of_zipPad? hcs⟩
  · refine Coeffs.get_of_zipPad? (fun x y z hz => ?_) hcs i
    simp only [Option.bind_eq_some_iff, Word.mul?_eq_some, Word.add?_eq_some] at hz
    obtain ⟨p, ⟨-, rfl⟩, q, ⟨-, rfl⟩, -, rfl⟩ := hz
    ring
  · rw [← hk.2, ← hp.2, ← hq.2]
    ring

/-- A combination of two forms has the combination of their values. -/
theorem value_combine? {k₁ k₂ : Int} {a b c : Affine} (h : combine? k₁ a k₂ b = some c)
    (w : Valuation) : c.value w = k₁ * a.value w + k₂ * b.value w := by
  obtain ⟨hc, hk, -⟩ := combine?_eq_some h
  rw [value, value, value, Coeffs.dot_linear hc, hk]
  ring

/-- A successful sum: every coefficient and the constant are added. -/
theorem add_eq_ok {a b c : Affine} (h : a.add b = .ok c) :
    (∀ i, c.coeff i = a.coeff i + b.coeff i) ∧ c.constant = a.constant + b.constant := by
  simp only [add, Outcome.orOverflow_eq_ok, Option.bind_eq_bind, Option.bind_eq_some_iff,
    Option.pure_def, Option.some.injEq, Word.add?_eq_some] at h
  obtain ⟨cs, hcs, k, ⟨-, rfl⟩, rfl⟩ := h
  refine ⟨fun i => ?_, rfl⟩
  have hadd : ∀ x y z, Word.add? x y = some z → z = 1 * x + 1 * y := fun x y z hz => by
    rw [← (Word.add?_eq_some.mp hz).2]
    ring
  have := Coeffs.get_of_zipPad? hadd hcs i
  rw [coeff_trimmed, coeff_eq, coeff_eq, coeff_eq, this]
  ring

/-- The value of a sum is the sum of the values. -/
theorem value_add {a b c : Affine} (h : a.add b = .ok c) (w : Valuation) :
    c.value w = a.value w + b.value w := by
  obtain ⟨hc, hk⟩ := add_eq_ok h
  have hlin : Coeffs.dot c.coeffs w = 1 * Coeffs.dot a.coeffs w + 1 * Coeffs.dot b.coeffs w :=
    Coeffs.dot_linear (fun i => by rw [one_mul, one_mul]; exact hc i) w
  rw [value, value, value, hlin, hk]
  ring

/-- A successful multiplication: every coefficient and the constant are
multiplied. -/
theorem scale_eq_ok {a c : Affine} {k : Int} (h : a.scale k = .ok c) :
    (∀ i, c.coeff i = k * a.coeff i) ∧ c.constant = k * a.constant := by
  simp only [scale, Outcome.orOverflow_eq_ok, Option.bind_eq_bind, Option.bind_eq_some_iff,
    Option.pure_def, Option.some.injEq, Word.mul?_eq_some] at h
  obtain ⟨cs, hcs, k', ⟨-, rfl⟩, rfl⟩ := h
  refine ⟨fun i => ?_, mul_comm _ _⟩
  have hmul : ∀ x z, Word.mul? x k = some z → z = k * x := fun x z hz => by
    rw [← (Word.mul?_eq_some.mp hz).2, mul_comm]
  rw [coeff_trimmed, coeff_eq, coeff_eq, Coeffs.get_of_map? hmul hcs i]

/-- The value of a multiple is the multiple of the value. -/
theorem value_scale {a c : Affine} {k : Int} (h : a.scale k = .ok c) (w : Valuation) :
    c.value w = k * a.value w := by
  obtain ⟨hc, hk⟩ := scale_eq_ok h
  have hlin : Coeffs.dot c.coeffs w = k * Coeffs.dot a.coeffs w + 0 * Coeffs.dot [] w :=
    Coeffs.dot_linear (fun i => by rw [zero_mul, add_zero]; exact hc i) w
  rw [value, value, hlin, hk]
  ring

/-- A successful difference: every coefficient and the constant are subtracted. -/
theorem sub_eq_ok {a b c : Affine} (h : a.sub b = .ok c) :
    (∀ i, c.coeff i = a.coeff i - b.coeff i) ∧ c.constant = a.constant - b.constant := by
  simp only [sub, Outcome.bind_eq_ok] at h
  obtain ⟨n, hn, hc⟩ := h
  obtain ⟨hnc, hnk⟩ := scale_eq_ok hn
  obtain ⟨hcc, hck⟩ := add_eq_ok hc
  refine ⟨fun i => ?_, ?_⟩
  · rw [hcc, hnc]
    ring
  · rw [hck, hnk]
    ring

/-- The value of a difference is the difference of the values. -/
theorem value_sub {a b c : Affine} (h : a.sub b = .ok c) (w : Valuation) :
    c.value w = a.value w - b.value w := by
  simp only [sub, Outcome.bind_eq_ok] at h
  obtain ⟨n, hn, hc⟩ := h
  rw [value_add hc, value_scale hn]
  ring

/-- A sum exists if all of its coefficients and its constant are words. -/
theorem exists_add_iff {a b : Affine} : (∃ c, a.add b = .ok c) ↔
    (∀ i, Word.fits (a.coeff i + b.coeff i) = true) ∧
    Word.fits (a.constant + b.constant) = true := by
  have hcoeffs : (Coeffs.zipPad? Word.add? a.coeffs b.coeffs).isSome ↔ _ :=
    Coeffs.isSome_zipPad?_iff rfl
  simp only [Option.isSome_iff_exists, Word.add?_eq_some, exists_and_left,
    exists_eq', and_true] at hcoeffs
  simp only [add, Outcome.orOverflow_eq_ok, Option.bind_eq_bind, Option.bind_eq_some_iff,
    Option.pure_def, Option.some.injEq, Word.add?_eq_some, coeff_eq, ← hcoeffs]
  constructor
  · rintro ⟨-, cs, hcs, -, ⟨hk, rfl⟩, rfl⟩
    exact ⟨⟨cs, hcs⟩, hk⟩
  · rintro ⟨⟨cs, hcs⟩, hk⟩
    exact ⟨_, cs, hcs, _, ⟨hk, rfl⟩, rfl⟩

/-- A multiple exists if all of its coefficients and its constant are words. -/
theorem exists_scale_iff {a : Affine} {k : Int} : (∃ c, a.scale k = .ok c) ↔
    (∀ i, Word.fits (a.coeff i * k) = true) ∧ Word.fits (a.constant * k) = true := by
  have hzero : (Word.mul? 0 k).isSome := by simp [Word.mul?, Word.check]; rfl
  have hcoeffs : (Coeffs.map? (Word.mul? · k) a.coeffs).isSome ↔ _ := Coeffs.isSome_map?_iff hzero
  simp only [Option.isSome_iff_exists, Word.mul?_eq_some, exists_and_left,
    exists_eq', and_true] at hcoeffs
  simp only [scale, Outcome.orOverflow_eq_ok, Option.bind_eq_bind, Option.bind_eq_some_iff,
    Option.pure_def, Option.some.injEq, Word.mul?_eq_some, coeff_eq, ← hcoeffs]
  constructor
  · rintro ⟨-, cs, hcs, -, ⟨hk, rfl⟩, rfl⟩
    exact ⟨⟨cs, hcs⟩, hk⟩
  · rintro ⟨⟨cs, hcs⟩, hk⟩
    exact ⟨_, cs, hcs, _, ⟨hk, rfl⟩, rfl⟩

/-- All coefficients of the difference and its constant are words, and those of the negated second
form too. -/
structure Subtractable (a b : Affine) : Prop where
  neg_coeff : ∀ i, Word.fits (-b.coeff i) = true
  neg_constant : Word.fits (-b.constant) = true
  coeff : ∀ i, Word.fits (a.coeff i - b.coeff i) = true
  constant : Word.fits (a.constant - b.constant) = true

/-- A difference succeeds exactly where its two steps fit into words. -/
theorem exists_sub_iff {a b : Affine} : (∃ c, a.sub b = .ok c) ↔ Subtractable a b := by
  simp only [sub, Outcome.bind_eq_ok]
  constructor
  · rintro ⟨c, n, hn, hc⟩
    obtain ⟨hnc, hnk⟩ := scale_eq_ok hn
    obtain ⟨hfits, hfit⟩ := exists_scale_iff.mp ⟨n, hn⟩
    obtain ⟨hfits', hfit'⟩ := exists_add_iff.mp ⟨c, hc⟩
    simp only [hnc, hnk, Int.neg_one_mul, Int.mul_neg_one,
      ← Int.sub_eq_add_neg] at hfits hfit hfits' hfit'
    exact ⟨hfits, hfit, hfits', hfit'⟩
  · rintro ⟨hfits, hfit, hfits', hfit'⟩
    obtain ⟨n, hn⟩ : ∃ n, b.scale (-1) = .ok n := by
      rw [exists_scale_iff]
      simpa only [Int.mul_neg_one] using ⟨hfits, hfit⟩
    obtain ⟨hnc, hnk⟩ := scale_eq_ok hn
    obtain ⟨c, hc⟩ : ∃ c, a.add n = .ok c := by
      rw [exists_add_iff]
      simpa only [hnc, hnk, Int.neg_one_mul, ← Int.sub_eq_add_neg] using ⟨hfits', hfit'⟩
    exact ⟨c, n, hn, hc⟩

/-- Adding a constant changes nothing but the constant. -/
theorem addConst_eq_ok {a c : Affine} {k : Int} (h : a.addConst k = .ok c) :
    c = { a with constant := a.constant + k } := by
  simp only [addConst, Outcome.bind_eq_ok, Outcome.orOverflow_eq_ok, Word.add?_eq_some,
    Outcome.pure_eq_ok] at h
  obtain ⟨x, ⟨-, rfl⟩, rfl⟩ := h
  rfl

/-- Adding a constant adds it to every value. -/
theorem value_addConst {a c : Affine} {k : Int} (h : a.addConst k = .ok c) (w : Valuation) :
    c.value w = a.value w + k := by
  rw [addConst_eq_ok h, value, value]
  ring

/-- Truncation drops the coefficients from `n` on. -/
theorem coeff_truncated (a : Affine) (n i : Nat) :
    (a.truncated n).coeff i = if i < n then a.coeff i else 0 := by
  rw [truncated, coeff_trimmed, coeff_eq, coeff_eq]
  by_cases hi : i < n
  · rw [if_pos hi]
    by_cases hlt : i < a.coeffs.length
    · rw [Coeffs.get_of_lt (by simp; omega), Coeffs.get_of_lt hlt, List.getElem_take]
    · rw [Coeffs.get_of_length_le (by simp; omega), Coeffs.get_of_length_le (by omega)]
  · rw [if_neg hi, Coeffs.get_of_length_le (by simp; omega)]

/-- Truncation keeps the value of a form that uses only the first variables. -/
theorem value_truncated {a : Affine} {n : Nat} (h : ∀ i, n ≤ i → a.coeff i = 0) (w : Valuation) :
    (a.truncated n).value w = a.value w := by
  refine value_ext (a := a.truncated n) (b := a) (fun i => ?_) rfl w
  rw [coeff_truncated]
  split
  · rfl
  · exact (h i (by omega)).symm

/-! ### renumbering and evaluation -/

/-- Renaming adds the terms of the form, each at the new place of its variable. -/
theorem value_remapOnto {ε : Type} {cs : List Int} {map : List Nat} {out r : Affine}
    (h : (remapOnto cs map out : Outcome ε Affine) = .ok r) (w : Valuation) :
    r.value w = out.value w + Coeffs.dot cs fun i => w (map.getD i 0) := by
  fun_induction @remapOnto ε cs map out generalizing r with
  | case1 => simp_all
  | case2 cs out ih =>
      rw [ih h, Coeffs.dot_cons]
      simp
  | case3 => simp at h
  | case4 cs i is out ih =>
      rw [ih h, Coeffs.dot_cons]
      simp
  | case5 c cs i is out hc ih =>
      simp only [Outcome.bind_eq_ok, Outcome.orFault_eq_ok, Word.add?_eq_some] at h
      obtain ⟨sum, ⟨-, rfl⟩, next, hnext, h⟩ := h
      simp only [setCoeff?] at hnext
      split at hnext
      · contradiction
      · rw [Option.some.injEq] at hnext
        subst hnext
        rw [ih _ h, value_setCoeff, Coeffs.dot_cons]
        simp
        ring

/-- Renumbering a form is reading its variables through the map. -/
theorem value_remapped {ε : Type} {a r : Affine} {map : List Nat}
    (h : (a.remapped map : Outcome ε Affine) = .ok r) (w : Valuation) :
    r.value w = a.value fun i => w (map.getD i 0) := by
  rw [value_remapOnto h, value_const, value]
  ring

/-- The first value belongs to the first coefficient, the others to the others. -/
theorem dot_cons_ofList (c : Int) (cs vs : List Int) :
    Coeffs.dot (c :: cs) (Valuation.ofList vs) = c * vs.headD 0 +
      Coeffs.dot cs (Valuation.ofList vs.tail) := by
  have hshift : (fun i => Valuation.ofList vs (i + 1)) = Valuation.ofList vs.tail :=
    funext (Valuation.ofList_succ vs)
  rw [Coeffs.dot_cons, hshift, Valuation.ofList_zero]

/-- Evaluation that does not overflow adds up the terms. -/
theorem evalOnto_eq_ok {cs vs : List Int} {sum v : Int} (h : evalOnto cs vs sum = .ok v) :
    v = sum + Coeffs.dot cs (Valuation.ofList vs) := by
  fun_induction evalOnto cs vs sum generalizing v with
  | case1 => simp_all
  | case2 cs vs sum ih =>
      rw [ih h, dot_cons_ofList]
      ring
  | case3 c cs vs sum hc ih =>
      simp only [Outcome.bind_eq_ok, Outcome.orOverflow_eq_ok, Word.mul?_eq_some,
        Word.add?_eq_some] at h
      obtain ⟨p, ⟨-, rfl⟩, s, ⟨-, rfl⟩, h⟩ := h
      rw [ih _ h, dot_cons_ofList]
      ring

/-- Values of variables that do not occur never matter, not even to the words on the way. -/
theorem evalOnto_congr {cs vs vs' : List Int}
    (h : ∀ i, Coeffs.get cs i ≠ 0 → Valuation.ofList vs i = Valuation.ofList vs' i) (sum : Int) :
    evalOnto cs vs sum = evalOnto cs vs' sum := by
  induction cs generalizing vs vs' sum with
  | nil => rfl
  | cons c cs ih =>
      have hrest : ∀ sum, evalOnto cs vs.tail sum = evalOnto cs vs'.tail sum := fun sum =>
        ih (fun i hi => by rw [← Valuation.ofList_succ,
          ← Valuation.ofList_succ]; exact h (i + 1) hi) sum
      by_cases hc : c = 0
      · simp only [evalOnto, if_pos hc, hrest]
      · simp only [evalOnto, if_neg hc, ← Valuation.ofList_zero, h 0 hc, hrest]

/-- Evaluation reads the values of variables that occur, and no others. -/
theorem eval_congr {a : Affine} {vs vs' : List Int}
    (h : ∀ i, a.coeff i ≠ 0 → Valuation.ofList vs i = Valuation.ofList vs' i) :
    a.eval vs = a.eval vs' :=
  evalOnto_congr h a.constant

/-- Evaluation at a list gives the exact value. -/
theorem eval_eq_ok {a : Affine} {vs : List Int} {v : Int} (h : a.eval vs = .ok v) :
    v = a.value (Valuation.ofList vs) := by
  rw [evalOnto_eq_ok h, value]
  ring

end Affine

end KernelMap
