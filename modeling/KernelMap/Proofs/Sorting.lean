import KernelMap.Sorted
import Mathlib.Data.List.Pairwise
import Mathlib.Order.Lattice
import Mathlib.Order.Monotone.Basic

/-!
# KernelMap.Proofs.Sorting

Sorted lists.

`Sorted.sortBy` gives a permutation of a list in the order of its keys.  `Sorted.distinct` gives the
elements of a list in ascending order.  `Sorted.arrange` sorts by a key and keeps the order of
elements of equal key; it is the only function that does both (`Sorted.eq_arrange`), so that it can
be computed one part after the other (`Sorted.arrange_eq_append`).
-/

namespace KernelMap.Sorted

/-! ## sorting by key -/

section SortBy

variable {α : Type} (key : α → Nat)

theorem perm_insertBy (x : α) (ys : List α) : (insertBy key x ys).Perm (x :: ys) := by
  induction ys with
  | nil => exact .refl _
  | cons y ys ih =>
      unfold insertBy
      split
      · exact (ih.cons y).trans (.swap x y ys)
      · exact .refl _

/-- Sorting by a key keeps the elements. -/
theorem perm_sortBy (xs : List α) : (sortBy key xs).Perm xs := by
  have hfold : ∀ sorted : List α,
      (xs.foldl (fun sorted x => insertBy key x sorted) sorted).Perm (sorted ++ xs) := by
    induction xs with
    | nil => simp
    | cons x xs ih =>
        intro sorted
        rw [List.foldl_cons]
        exact (ih _).trans
          (((perm_insertBy key x sorted).append_right xs).trans List.perm_middle.symm)
  exact hfold []

/-- Inserting by a key into a sorted list keeps it sorted. -/
theorem pairwise_insertBy (x : α) {ys : List α} (h : ys.Pairwise fun a b => key a ≤ key b) :
    (insertBy key x ys).Pairwise fun a b => key a ≤ key b := by
  induction ys with
  | nil => simp [insertBy]
  | cons y ys ih =>
      obtain ⟨hy, hys⟩ := List.pairwise_cons.mp h
      unfold insertBy
      split
      · next hle =>
        refine .cons (fun z hz => ?_) (ih hys)
        rcases List.mem_cons.mp ((perm_insertBy key x ys).mem_iff.mp hz) with rfl | hz
        · exact hle
        · exact hy z hz
      · next hlt =>
        refine .cons (fun z hz => ?_) h
        rcases List.mem_cons.mp hz with rfl | hz
        · omega
        · exact (Nat.le_of_not_le hlt).trans (hy z hz)

/-- What is sorted by a key has its keys in order. -/
theorem pairwise_sortBy (xs : List α) : (sortBy key xs).Pairwise fun a b => key a ≤ key b := by
  have hfold : ∀ sorted : List α, (sorted.Pairwise fun a b => key a ≤ key b) →
      (xs.foldl (fun sorted x => insertBy key x sorted) sorted).Pairwise fun a b =>
      key a ≤ key b := by
    induction xs with
    | nil => exact fun _ h => h
    | cons x xs ih => exact fun sorted h => ih _ (pairwise_insertBy key x h)
  exact hfold [] .nil

end SortBy

/-! ## distinct elements -/

section Distinct

variable {α : Type} [LinearOrder α]

theorem mem_insert {x y : α} {ys : List α} : y ∈ insert x ys ↔ y = x ∨ y ∈ ys := by
  induction ys with
  | nil => simp [insert]
  | cons z zs ih =>
      unfold insert
      split
      · simp
      split
      · grind
      · next hxz hzx =>
        obtain rfl : x = z := le_antisymm (not_lt.mp hzx) (not_lt.mp hxz)
        simp

/-- Inserting without repetition into an ascending list keeps it ascending. -/
theorem pairwise_insert {x : α} {ys : List α} (h : ys.Pairwise (· < ·)) :
    (insert x ys).Pairwise (· < ·) := by
  induction ys with
  | nil => simp [insert]
  | cons z zs ih =>
      obtain ⟨hz, hzs⟩ := List.pairwise_cons.mp h
      unfold insert
      split
      · next hlt => exact .cons (List.forall_mem_cons.mpr ⟨hlt, fun y hy => hlt.trans (hz y hy)⟩) h
      split
      · next hgt => exact .cons (fun y hy => (mem_insert.mp hy).elim
          (fun heq => heq ▸ hgt) (hz y)) (ih hzs)
      · exact h

@[simp] theorem mem_distinct {x : α} {xs : List α} : x ∈ distinct xs ↔ x ∈ xs := by
  induction xs with
  | nil => simp [distinct]
  | cons y ys ih => rw [distinct, List.foldr_cons, mem_insert, ← distinct, ih, List.mem_cons]

/-- The distinct elements are in ascending order. -/
theorem pairwise_distinct (xs : List α) : (distinct xs).Pairwise (· < ·) := by
  induction xs with
  | nil => exact .nil
  | cons y ys ih => exact pairwise_insert ih

end Distinct

/-! ## stable sorting -/

section Arrange

variable {α κ κ' : Type} [LinearOrder κ] [LinearOrder κ'] {key : α → κ} {xs ys : List α}

/-- Comparing by a key is transitive, as a test. -/
theorem trans_key (x y z : α) (hxy : decide (key x ≤ key y) = true)
    (hyz : decide (key y ≤ key z) = true) : decide (key x ≤ key z) = true :=
  decide_eq_true ((of_decide_eq_true hxy).trans (of_decide_eq_true hyz))

/-- Comparing by a key is total, as a test. -/
theorem total_key (x y : α) : (decide (key x ≤ key y) || decide (key y ≤ key x)) = true := by
  simpa using le_total (key x) (key y)

/-- Sort by key; elements of equal key keep their order. -/
def arrange (key : α → κ) (xs : List α) : List α := xs.mergeSort fun x y => decide (key x ≤ key y)

theorem perm_arrange (key : α → κ) (xs : List α) : (arrange key xs).Perm xs :=
  List.mergeSort_perm xs _

/-- An arranged list has its keys in order. -/
theorem pairwise_arrange (key : α → κ) (xs : List α) :
    (arrange key xs).Pairwise fun x y => key x ≤ key y :=
  (List.pairwise_mergeSort trans_key total_key xs).imp of_decide_eq_true

/-- The elements of one key are those of the list, in its order. -/
theorem filter_arrange (k : κ) :
    (arrange key xs).filter (fun x => decide (key x = k)) = xs.filter fun x =>
      decide (key x = k) := by
  have hequal : (xs.filter fun x => decide (key x = k)).Pairwise fun x y =>
      decide (key x ≤ key y) = true := by
    refine List.pairwise_of_forall_mem_list fun x hx y hy => ?_
    have hx : key x = k := by simpa using (List.mem_filter.mp hx).2
    have hy : key y = k := by simpa using (List.mem_filter.mp hy).2
    simp [hx, hy]
  have hsub := List.sublist_mergeSort trans_key total_key hequal List.filter_sublist
  have hfilter := hsub.filter fun x => decide (key x = k)
  simp only [List.filter_filter, Bool.and_self] at hfilter
  exact (hfilter.eq_of_length ((perm_arrange key xs).filter _).length_eq.symm).symm

/-- Sorted lists with the same elements of each key, in the same order, are equal. -/
theorem eq_of_filter_eq (hxs : xs.Pairwise fun x y => key x ≤ key y)
    (hys : ys.Pairwise fun x y => key x ≤ key y)
    (h : ∀ k, xs.filter (fun x => decide (key x = k)) = ys.filter fun x => decide (key x = k)) :
    xs = ys := by
  have hmem : ∀ x, x ∈ xs ↔ x ∈ ys := fun x => by simpa using congrArg (x ∈ ·) (h (key x))
  induction xs generalizing ys with
  | nil => exact (List.eq_nil_iff_forall_not_mem.mpr fun y hy =>
      List.not_mem_nil ((hmem y).mpr hy)).symm
  | cons x xs ih =>
      cases ys with
      | nil => exact absurd ((hmem x).mp (by simp)) List.not_mem_nil
      | cons y ys =>
          obtain ⟨hx, hxs'⟩ := List.pairwise_cons.mp hxs
          obtain ⟨hy, hys'⟩ := List.pairwise_cons.mp hys
          have hxy : key x ≤ key y := by
            rcases List.mem_cons.mp ((hmem y).mpr (by simp)) with heq | hin
            · rw [heq]
            · exact hx y hin
          have hyx : key y ≤ key x := by
            rcases List.mem_cons.mp ((hmem x).mp (by simp)) with heq | hin
            · rw [heq]
            · exact hy x hin
          have hkey : key x = key y := le_antisymm hxy hyx
          obtain rfl : x = y := by simpa [hkey] using congrArg List.head? (h (key y))
          have htails : ∀ k, xs.filter (fun x => decide (key x = k)) = ys.filter fun x =>
              decide (key x = k) := by
            intro k
            have hk := h k
            by_cases hxk : key x = k <;> simpa [hxk] using hk
          have htail : xs = ys := ih hxs' hys' htails fun z => by
            simpa using congrArg (z ∈ ·) (htails (key z))
          rw [htail]

/-- A sorted list with the elements of each key in order is the list that sorting gives. -/
theorem eq_arrange (hys : ys.Pairwise fun x y => key x ≤ key y)
    (h : ∀ k, ys.filter (fun x => decide (key x = k)) = xs.filter fun x => decide (key x = k)) :
    arrange key xs = ys :=
  eq_of_filter_eq (pairwise_arrange key xs) hys fun k => by rw [filter_arrange, h]

/-- Elements that are all below the others are sorted before them. -/
theorem arrange_eq_append (p : α → Bool) (hp : ∀ x ∈ xs, ∀ y ∈ xs, p x = true → p y = false →
    key x < key y) :
    arrange key xs = arrange key (xs.filter p) ++ arrange key (xs.filter fun x => !p x) := by
  refine eq_arrange
    (List.pairwise_append.mpr ⟨pairwise_arrange _ _, pairwise_arrange _ _, fun x hx y hy => ?_⟩)
    fun k => ?_
  · obtain ⟨hx, hpx⟩ := List.mem_filter.mp ((perm_arrange _ _).mem_iff.mp hx)
    obtain ⟨hy, hpy⟩ := List.mem_filter.mp ((perm_arrange _ _).mem_iff.mp hy)
    exact (hp x hx y hy hpx (by simpa using hpy)).le
  · rw [List.filter_append, filter_arrange, filter_arrange]
    -- The elements of one key are all on one side.
    by_cases hbelow : ∃ x ∈ xs, key x = k ∧ p x = true
    · obtain ⟨x, hx, hxk, hpx⟩ := hbelow
      have hall : ∀ y ∈ xs, key y = k → p y = true := by
        intro y hy hyk
        by_contra hpy
        exact absurd (hp x hx y hy hpx (by simpa using hpy)) (by rw [hxk, hyk]; exact lt_irrefl k)
      have hnone : (xs.filter fun x => !p x).filter (fun x => decide (key x = k)) = [] := by
        simp only [List.filter_eq_nil_iff, List.mem_filter]
        grind
      rw [hnone, List.append_nil, List.filter_filter]
      exact List.filter_congr fun y hy => by grind
    · have hnone : (xs.filter p).filter (fun x => decide (key x = k)) = [] := by
        simp only [List.filter_eq_nil_iff, List.mem_filter]
        grind
      rw [hnone, List.nil_append, List.filter_filter]
      exact List.filter_congr fun y hy => by grind

/-- A key can be replaced by another that gives the same order. -/
theorem arrange_eq_of_strictMono {key' : α → κ'} {f : κ' → κ} (hf : StrictMono f)
    (hkey : ∀ x ∈ xs, key x = f (key' x)) : arrange key xs = arrange key' xs := by
  have hmem : ∀ x ∈ arrange key xs, key x = f (key' x) :=
    fun x hx => hkey x ((perm_arrange key xs).mem_iff.mp hx)
  refine (eq_arrange ((pairwise_arrange key xs).imp_of_mem fun {x y} hx hy hle => ?_)
    fun k => ?_).symm
  · rw [hmem x hx, hmem y hy] at hle
    exact hf.le_iff_le.mp hle
  · have hsame : ∀ x ∈ xs, decide (key' x = k) = decide (key x = f k) := fun x hx => by
      simp [hkey x hx, hf.injective.eq_iff]
    calc (arrange key xs).filter (fun x => decide (key' x = k))
        = (arrange key xs).filter fun x => decide (key x = f k) :=
          List.filter_congr fun x hx => hsame x ((perm_arrange key xs).mem_iff.mp hx)
      _ = xs.filter fun x => decide (key x = f k) := filter_arrange (f k)
      _ = xs.filter fun x => decide (key' x = k) := (List.filter_congr hsame).symm

end Arrange

end KernelMap.Sorted
