import KernelMap.Proofs.LocalMemory

/-!
# KernelMap.Proofs.Granule

One map from elements to local cells serves a whole granule.

Copies of a group are made once for all points that agree on the coordinates around them and, in
private memory, on the thread.  They sit just below the deepest coordinate that a bound of the tile
depends on: no bound changes among those points (`Bound.Agrees`), so that the exact local
coordinates (`Tile.cells`) of two elements are equal only if the elements are.

Main statement: `Group.tile_serves_granule`.
-/

namespace KernelMap

/-! ## exact local coordinates -/

namespace Bound

/-- The quantity `(index + shift) / step - ⌈form / denom⌉`, with integers of any size. -/
def cell (b : Bound) (w : Valuation) (index : Int) : Int :=
  (match b.stride with
    | none => index
    | some st => (index + st.shift.value w) / st.step) - b.lower.value w

variable {b : Bound} {x : Nat} {w : Valuation} {i j q : Int} {outer outer' : List Int}

/-- A cell counts from the lower bound, in steps of the stride. -/
theorem cell_of_isQuotient (hb : b.Regular x) (h : Stride.IsQuotient b.stride w i q) :
    b.cell w i = q - b.lower.value w := by
  obtain ⟨size, lower, stride⟩ := b
  cases stride with
  | none => exact congrArg (· - lower.value w) h
  | some st =>
      have hmul : i + st.shift.value w = st.step * q := h
      have hstep : st.step ≠ 0 := by
        have := (hb.stride st rfl).1
        omega
      simp only [cell, hmul, Int.mul_ediv_cancel_left _ hstep]

/-- The cell of an index that the bound admits is inside of the tile. -/
theorem cell_lt_size (hb : b.Regular x) (h : b.Admits w i) :
    0 ≤ b.cell w i ∧ b.cell w i < b.size := by
  obtain ⟨q, hq, hrange⟩ := h
  rwa [cell_of_isQuotient hb hq]

/-- Admitted indices have different cells. -/
theorem cell_inj (hb : b.Regular x) (hi : b.Admits w i) (hj : b.Admits w j) :
    b.cell w i = b.cell w j ↔ i = j := by
  constructor
  · intro heq
    obtain ⟨q, hq, -⟩ := hi
    obtain ⟨q', hq', -⟩ := hj
    rw [cell_of_isQuotient hb hq, cell_of_isQuotient hb hq'] at heq
    obtain rfl : q = q' := by omega
    exact hq.index_unique hq'
  · rintro rfl
    rfl

/-- The bound is the same at both outer values, as numbers and in what is computed for it. -/
structure Agrees (b : Bound) (outer outer' : List Int) : Prop where
  lower_eval : b.lower.eval outer = b.lower.eval outer'
  lower_value : b.lower.value (.ofList outer) = b.lower.value (.ofList outer')
  shift_eval : ∀ st, b.stride = some st → st.shift.eval outer = st.shift.eval outer'
  shift_value : ∀ st, b.stride = some st →
    st.shift.value (.ofList outer) = st.shift.value (.ofList outer')

/-- Where the bound agrees, the cells of an index are the same. -/
theorem Agrees.cell_eq (h : b.Agrees outer outer') (i : Int) :
    b.cell (.ofList outer) i = b.cell (.ofList outer') i := by
  obtain ⟨size, lower, stride⟩ := b
  cases stride with
  | none => exact congrArg (i - ·) h.lower_value
  | some st => simp only [cell, h.shift_value st rfl, h.lower_value]

/-- Where the bound agrees, the same indices are admitted. -/
theorem Agrees.admits (h : b.Agrees outer outer') (hi : b.Admits (.ofList outer) i) :
    b.Admits (.ofList outer') i := by
  obtain ⟨q, hq, hrange⟩ := hi
  rw [h.lower_value] at hrange
  refine ⟨q, ?_, hrange⟩
  obtain ⟨size, lower, stride⟩ := b
  cases stride with
  | none => exact hq
  | some st =>
      show i + st.shift.value (.ofList outer') = st.step * q
      rw [← h.shift_value st rfl]
      exact hq

/-- A bound agrees where the variables that occur in it do. -/
theorem agrees_of_involved
    (hlower : ∀ i, b.lower.form.involves i = true →
      Valuation.ofList outer i = Valuation.ofList outer' i)
    (hshift : ∀ st, b.stride = some st → ∀ i, st.shift.involves i = true →
      Valuation.ofList outer i = Valuation.ofList outer' i) : b.Agrees outer outer' := by
  have hform : ∀ i, b.lower.form.coeff i ≠ 0 →
      Valuation.ofList outer i = Valuation.ofList outer' i :=
    fun i hi => hlower i (bne_iff_ne.mpr hi)
  constructor
  · rw [LowerBound.eval, LowerBound.eval, Affine.eval_congr hform]
  · rw [LowerBound.value, LowerBound.value, Affine.value_congr hform]
  · exact fun st hst => Affine.eval_congr fun i hi => hshift st hst i (bne_iff_ne.mpr hi)
  · exact fun st hst => Affine.value_congr fun i hi => hshift st hst i (bne_iff_ne.mpr hi)

/-! ### all dimensions -/

/-- The exact local coordinates of an element, one for each bound. -/
def cells (w : Valuation) (bs : List Bound) (element : List Int) : List Int :=
  List.zipWith (fun b i => b.cell w i) bs element

@[simp] theorem cells_nil (w : Valuation) : cells w [] [] = [] := rfl

@[simp] theorem cells_cons (w : Valuation) (b : Bound) (bs : List Bound) (i : Int) (is : List Int) :
    cells w (b :: bs) (i :: is) = b.cell w i :: cells w bs is := rfl

variable {bs : List Bound} {is js : List Int}

/-- The cells of an admitted element are inside of the tile, in each dimension. -/
theorem cells_in_box (hbs : ∀ b ∈ bs, b.Regular x)
    (his : List.Forall₂ (fun b i => b.Admits w i) bs is) :
    List.Forall₂ (fun n c => 0 ≤ c ∧ c < n) (bs.map (·.size)) (cells w bs is) := by
  induction his with
  | nil => exact .nil
  | cons hi _ ih =>
      obtain ⟨hb, hbs⟩ := List.forall_mem_cons.mp hbs
      exact .cons (cell_lt_size hb hi) (ih hbs)

/-- Admitted elements have different cells. -/
theorem cells_inj (hbs : ∀ b ∈ bs, b.Regular x) (his : List.Forall₂ (fun b i => b.Admits w i) bs is)
    (hjs : List.Forall₂ (fun b i => b.Admits w i) bs js) :
    cells w bs is = cells w bs js ↔ is = js := by
  induction his generalizing js with
  | nil => simp [List.forall₂_nil_left_iff.mp hjs]
  | cons hi _ ih =>
      obtain ⟨hb, hbs⟩ := List.forall_mem_cons.mp hbs
      obtain ⟨j, js, hj, hrest, rfl⟩ := List.forall₂_cons_left_iff.mp hjs
      rw [cells_cons, cells_cons, List.cons.injEq, List.cons.injEq, cell_inj hb hi hj, ih hbs hrest]

/-- Where all bounds agree, the cells of an element are the same. -/
theorem cells_eq_of_agrees (h : ∀ b ∈ bs, b.Agrees outer outer') (is : List Int) :
    cells (.ofList outer) bs is = cells (.ofList outer') bs is := by
  induction bs generalizing is with
  | nil => rfl
  | cons b bs ih =>
      obtain ⟨hb, hbs⟩ := List.forall_mem_cons.mp h
      cases is with
      | nil => rfl
      | cons i is => rw [cells_cons, cells_cons, hb.cell_eq, ih hbs]

end Bound

namespace Tiling

variable {outer : List Int} {x : Nat}

/-- What a dimension computes is the exact local coordinate. -/
theorem Dim.apply_eq_cell {b : Bound} {i : Int} {r : Option Int} (hb : b.Regular x)
    (hi : b.Admits (.ofList outer) i) (h : (ofBound b).apply outer i = .ok r) :
    r = some (b.cell (.ofList outer) i) := by
  obtain ⟨q, hq, -⟩ := hi
  obtain ⟨hsome, hnone⟩ := apply_eq_ok h
  cases r with
  | none => exact absurd hq (hnone rfl q)
  | some c =>
      rw [Bound.cell_of_isQuotient hb (hsome c rfl)]
      congr 1
      omega

/-- What is computed for an admitted element are its cells. -/
theorem applyDims_eq_cells {bs : List Bound} {is : List Int} {r : Option (List Int)}
    (hbs : ∀ b ∈ bs, b.Regular x) (his : List.Forall₂ (fun b i => b.Admits (.ofList outer) i) bs is)
    (h : applyDims outer (bs.map Dim.ofBound) is = .ok r) :
    r = some (Bound.cells (.ofList outer) bs is) := by
  induction his generalizing r with
  | nil =>
      simp only [List.map_nil, applyDims, Except.ok.injEq] at h
      exact h.symm
  | cons hi _ ih =>
      obtain ⟨hb, hbs⟩ := List.forall_mem_cons.mp hbs
      simp only [List.map_cons, applyDims, Outcome.bind_eq_ok] at h
      obtain ⟨o, ho, h⟩ := h
      obtain rfl := Dim.apply_eq_cell hb hi ho
      simp only [Outcome.bind_eq_ok, Outcome.pure_eq_ok] at h
      obtain ⟨rest, hrest, rfl⟩ := h
      rw [ih hbs hrest]
      rfl

end Tiling

namespace Tile

variable {t : Tile} {outer outer' : List Int}

/-- The exact local coordinates of an element. -/
def cells (t : Tile) (w : Valuation) (element : List Int) : List Int :=
  Bound.cells w t.bounds element

/-- The bounds of a tile agree where the values that it involves do. -/
theorem agrees_of_involved
    (h : ∀ i, t.involves i = true → Valuation.ofList outer i = Valuation.ofList outer' i) :
    ∀ b ∈ t.bounds, b.Agrees outer outer' := by
  intro b hb
  have hany : ∀ i, (b.lower.form.involves i || b.stride.any (·.shift.involves i)) = true →
      Valuation.ofList outer i = Valuation.ofList outer' i :=
    fun i hi => h i (List.any_eq_true.mpr ⟨b, hb, hi⟩)
  refine Bound.agrees_of_involved (fun i hi => hany i (by rw [hi, Bool.true_or])) fun st hst i hi =>
    hany i ?_
  rw [hst, Option.any_some, hi, Bool.or_true]

/-! ## the deepest dependence -/

/-- The dimension that is found counts and is an outer one, not before the start. -/
theorem deepestOuter?_eq_some {start d : Nat} {counts : Nat → Bool}
    (h : t.deepestOuter? start counts = some d) : start ≤ d ∧ d < t.nOuter ∧ counts d = true := by
  have hcond := List.find?_some h
  rw [Bool.and_eq_true] at hcond
  have hmem := List.mem_range'_1.mp (List.mem_reverse.mp (List.mem_of_find?_eq_some h))
  exact ⟨hmem.1, by omega, hcond.1⟩

/-- The dimension that is found is one that the tile involves. -/
theorem involves_of_deepestOuter? {start d : Nat} {counts : Nat → Bool}
    (h : t.deepestOuter? start counts = some d) : t.involves (t.nParam + d) = true :=
  (Bool.and_eq_true _ _ ▸ List.find?_some h).2

/-- No bound depends on a coordinate that counts and is deeper than the deepest. -/
theorem le_deepestOuter?_of_involves (counts : Nat → Bool) {start j : Nat} (hstart : start ≤ j)
    (hj : j < t.nOuter) (hcounts : counts j = true) (h : t.involves (t.nParam + j) = true) :
    ∃ d, t.deepestOuter? start counts = some d ∧ j ≤ d := by
  have hmem : j ∈ (List.range' start (t.nOuter - start)).reverse :=
    List.mem_reverse.mpr (List.mem_range'_1.mpr (by omega))
  cases hfound : t.deepestOuter? start counts with
  | none =>
      have hnone := List.find?_eq_none.mp hfound j hmem
      simp [hcounts, h] at hnone
  | some d =>
      refine ⟨d, rfl, ?_⟩
      obtain ⟨-, front, back, hsplit, hfront⟩ := List.find?_eq_some_iff_append.mp hfound
      have hsorted : (front ++ d :: back).Pairwise (· > ·) := by
        rw [← hsplit, List.pairwise_reverse]
        exact List.pairwise_lt_range'
      rw [hsplit, List.mem_append, List.mem_cons] at hmem
      rcases hmem with hmem | rfl | hmem
      · have hfalse := hfront j hmem
        simp [hcounts, h] at hfalse
      · exact le_rfl
      · exact ((List.pairwise_cons.mp (List.pairwise_append.mp hsorted).2.1).1 j hmem).le

end Tile

/-- A tile with regular bounds involves parameters and outer dimensions only. -/
theorem Tile.lt_of_involves {t : Tile} (h : ∀ b ∈ t.bounds, b.Regular (t.nParam + t.nOuter))
    {i : Nat} (hi : t.involves i = true) : i < t.nParam + t.nOuter := by
  obtain ⟨b, hb, hi⟩ := List.any_eq_true.mp hi
  by_contra hge
  have hform : b.lower.form.involves i = false := by
    simp [Affine.involves, (h b hb).form i (by omega)]
  rw [hform, Bool.false_or] at hi
  cases hstride : b.stride with
  | none => simp [hstride] at hi
  | some st =>
      have hshift : st.shift.coeff i = 0 := ((h b hb).stride st hstride).2 i (by omega)
      simp [hstride, Affine.involves, hshift] at hi

namespace KernelSchedule.Visit

variable {p : Program} {k : KernelSchedule} {params : List Int} {refs : List Nat}
  {v v' : k.Visit p params refs}

/-- Visits of one thread agree on the coordinates of the thread ids. -/
theorem ofList_coords_eq_of_threads (hk : k.Valid p) (hparams : p.Admits params)
    (h : v.threads = v'.threads) {j : Nat} (hlo : k.sharedLen ≤ j) (hhi : j < k.privateLen) :
    Valuation.ofList v.coords j = Valuation.ofList v'.coords j := by
  obtain ⟨i, rfl⟩ := Nat.exists_eq_add_of_le hlo
  have hi : i < k.nBlock := Nat.lt_of_add_lt_add_left hhi
  rw [v.threads_eq hk hparams, v'.threads_eq hk hparams] at h
  have hcoord := Valuation.ofList_eq_of_take h hi
  simpa only [Valuation.ofList, List.getD_eq_getElem?_getD, List.getElem?_drop] using hcoord

/-- The bounds of a tile agree at two visits that agree on the coordinates it depends on. -/
theorem agrees_outer {t : Tile} (ht : ∀ b ∈ t.bounds, b.Regular (t.nParam + t.nOuter))
    (hparam : t.nParam = params.length) (h : ∀ j, j < t.nOuter → t.involves (t.nParam + j) = true →
      Valuation.ofList v.coords j = Valuation.ofList v'.coords j) :
    ∀ b ∈ t.bounds, b.Agrees (v.outer t) (v'.outer t) := by
  refine Tile.agrees_of_involved fun i hi => ?_
  have hlt := Tile.lt_of_involves ht hi
  rw [outer, outer]
  by_cases hi' : i < params.length
  · rw [Valuation.ofList_append_left hi', Valuation.ofList_append_left hi']
  · obtain ⟨j, rfl⟩ : ∃ j, i = params.length + j := ⟨i - params.length, by omega⟩
    have hj : j < t.nOuter := by omega
    have hcoord := h j hj (hparam ▸ hi)
    rw [Valuation.ofList_append_right, Valuation.ofList_append_right]
    simpa only [Valuation.ofList, List.getD_eq_getElem?_getD,
      List.getElem?_take_of_lt hj] using hcoord

end KernelSchedule.Visit

namespace Group

variable {p : Program} {o : Options} {region : Region} {k : KernelSchedule} {sc : Scope}
  {params : List Int} {formed checked groups : List Group} {unroll : List Nat} {g : Group}
  {t : Tile} {level : Nat}

/-! ## where copies sit -/

/-- The copies of a shared group sit below every coordinate that its tile depends on. -/
theorem lt_copyLevel_of_involves (hlast : g.lastShared = lastSharedOf sc (some t)) {j : Nat}
    (hj : j < t.nOuter) (h : t.involves (t.nParam + j) = true) : j < g.copyLevel := by
  simp only [copyLevel, hlast, lastSharedOf, lastOf]
  by_cases hstart : sc.schedule.tileFirst ≤ j
  · obtain ⟨d, hd, hle⟩ := Tile.le_deepestOuter?_of_involves (fun _ => true) hstart hj rfl h
    simp only [hd, Option.some_or, Option.elim_some]
    omega
  · cases hdeepest : t.deepestOuter? sc.schedule.tileFirst fun _ => true with
    | none =>
        rw [Option.none_or, if_neg (by omega), Option.elim_some]
        omega
    | some d =>
        have := (Tile.deepestOuter?_eq_some hdeepest).1
        simp only [Option.some_or, Option.elim_some]
        omega

/-- The copies of a private group sit below every coordinate that its tile depends on, but for
thread ids. -/
theorem lt_privateLevel_of_involves (hk : k.LaidOut p) (htile : g.privateTile = some t)
    (houter : t.nOuter = k.privateLen) {j : Nat} (hj : j < t.nOuter)
    (h : t.involves (t.nParam + j) = true) : j < Body.privateLevel k g ∨ k.sharedLen ≤ j := by
  -- from the blocks up to the threads, only tile loops are not mapped
  have hloop : ∀ i, i < k.privateLen → k.tileFirst ≤ i →
      (k.levels[i]?.all (!·.isMapped) = true ↔ k.tileFirst + k.nGrid ≤ i ∧ i < k.sharedLen) := by
    intro i hi hfirst
    rw [hk.level_eq hi]
    grind [Level.isMapped, KernelSchedule.sharedLen]
  by_cases hthread : k.sharedLen ≤ j
  · exact Or.inr hthread
  left
  simp only [Body.privateLevel, htile, Option.bind_some]
  by_cases hgrid : k.tileFirst + k.nGrid ≤ j
  · have hcounts := (hloop j (houter ▸ hj) (by omega)).mpr ⟨hgrid, by omega⟩
    have hfirst : k.tileFirst ≤ j := by omega
    obtain ⟨d, hd, hle⟩ :=
      Tile.le_deepestOuter?_of_involves (fun i => k.levels[i]?.all (!·.isMapped)) hfirst
        hj hcounts h
    rw [hd, Option.elim_some]
    omega
  · cases hdeepest : t.deepestOuter? k.tileFirst fun i => k.levels[i]?.all (!·.isMapped) with
    | none =>
        rw [Option.elim_none]
        omega
    | some d =>
        obtain ⟨hfirst, hd, hcounts⟩ := Tile.deepestOuter?_eq_some hdeepest
        have hbound := ((hloop d (houter ▸ hd) hfirst).mp hcounts).1
        rw [Option.elim_some]
        omega

/-- Two visits of one granule agree on every coordinate that the tile depends on. -/
theorem coords_eq_of_granule (hk : k.Valid p) (hparams : p.Admits params)
    (hplaced : Placed (Scope.ofSchedule p o k) g) (htile : g.tile? = some t)
    (hlevel : Body.copyLevel? k g = some level) {v v' : k.Visit p params g.refs}
    (hagree : v.coords.take level = v'.coords.take level)
    (hthreads : g.memory = .priv → v.threads = v'.threads) {j : Nat} (hj : j < t.nOuter)
    (h : t.involves (t.nParam + j) = true) :
    Valuation.ofList v.coords j = Valuation.ofList v'.coords j := by
  cases hmemory : g.memory with
  | global => simp [tile?, hmemory] at htile
  | shared =>
      simp only [tile?, hmemory] at htile
      simp only [Body.copyLevel?, hmemory, Option.some.injEq] at hlevel
      have hlt := lt_copyLevel_of_involves (hplaced.sharedTile t htile).1 hj h
      exact Valuation.ofList_eq_of_take hagree (hlevel ▸ hlt)
  | priv =>
      simp only [tile?, hmemory] at htile
      simp only [Body.copyLevel?, hmemory, Option.some.injEq] at hlevel
      obtain ⟨-, acc, hacc, hinfer⟩ := hplaced.privateTile t htile
      have houter := (v.admits hk hparams hacc hinfer).2.2.1
      by_cases hlt : j < Body.privateLevel k g
      · exact Valuation.ofList_eq_of_take hagree (hlevel ▸ hlt)
      · have hthread := (lt_privateLevel_of_involves hk.laidOut htile houter hj h).resolve_left hlt
        exact KernelSchedule.Visit.ofList_coords_eq_of_threads hk hparams (hthreads hmemory) hthread
          (houter ▸ hj)

/-- The tile in use was inferred from the access of the group's references. -/
theorem Placed.exists_infer? (h : Placed sc g) (htile : g.tile? = some t) :
    ∃ depth acc, sc.access g.refs depth = .ok acc ∧ Tile.infer? acc = .ok (some t) := by
  cases hmemory : g.memory with
  | global => simp [tile?, hmemory] at htile
  | shared =>
      simp only [tile?, hmemory] at htile
      exact ⟨_, (h.sharedTile t htile).2.2⟩
  | priv =>
      simp only [tile?, hmemory] at htile
      exact ⟨_, (h.privateTile t htile).2⟩

/-- The tile of a group with copies at `level` is good for all visits that agree on the first
`level` coordinates and, in private memory, on the thread.  Its bounds are the same for all of
them.  Each visited element has local coordinates inside of the box, which are what the tiling
computes unless a form has no value within the words, and only equal elements share them. -/
theorem tile_serves_granule (hp : p.validate = .ok ()) (ho : o.validate = .ok ())
    (hword : o.Representable) (hk : KernelSchedule.build p region o = .ok k)
    (hsc : sc = Scope.ofSchedule p o k) (hall : all sc = .ok formed)
    (hunroll : checkUnroll sc formed = .ok (checked, unroll))
    (hbudget : enforceBudget sc checked = .ok groups) (hg : g ∈ groups) (htile : g.tile? = some t)
    (hlevel : Body.copyLevel? k g = some level) (hparams : p.Admits params)
    (v v' : k.Visit p params g.refs) (hagree : v.coords.take level = v'.coords.take level)
    (hthreads : g.memory = .priv → v.threads = v'.threads) (name : String) :
    (∀ b ∈ t.bounds, b.Agrees (v.outer t) (v'.outer t)) ∧
      (∀ u : k.Visit p params g.refs,
        List.Forall₂ (fun n c => 0 ≤ c ∧ c < n) t.sizes (t.cells (.ofList (u.outer t)) u.element) ∧
        (∀ r, (t.tiling name).apply (u.outer t) u.element = .ok r →
          r = some (t.cells (.ofList (u.outer t)) u.element)) ∧
        (List.Forall₂ (fun b i => b.Evaluates (u.outer t) i) t.bounds u.element →
          (t.tiling name).apply (u.outer t) u.element =
            .ok (some (t.cells (.ofList (u.outer t)) u.element)))) ∧
      (t.cells (.ofList (v.outer t)) v.element = t.cells (.ofList (v'.outer t)) v'.element ↔
        v.element = v'.element) := by
  subst hsc
  have hvalid := KernelSchedule.valid_of_build hp ho hword hk
  have hplaced := placed_of_all hall (demoted_of_stages hunroll hbudget) g hg
  obtain ⟨depth, acc, hacc, hinfer⟩ := hplaced.exists_infer? htile
  obtain ⟨hregular, hnParam, -, -, helement⟩ := v.admits hvalid hparams hacc hinfer
  obtain ⟨-, -, -, -, helement'⟩ := v'.admits hvalid hparams hacc hinfer
  have hbounds := KernelSchedule.Visit.agrees_outer hregular (hnParam.trans hparams.1.symm) fun j =>
    coords_eq_of_granule hvalid hparams hplaced htile hlevel hagree hthreads
  refine ⟨hbounds, fun u => ?_, ?_⟩
  · obtain ⟨-, -, -, -, hu⟩ := u.admits hvalid hparams hacc hinfer
    have hcells : ∀ r, (t.tiling name).apply (u.outer t) u.element = .ok r →
        r = some (t.cells (.ofList (u.outer t)) u.element) :=
      fun r hr => Tiling.applyDims_eq_cells hregular hu hr
    refine ⟨Bound.cells_in_box hregular hu, hcells, fun heval => ?_⟩
    obtain ⟨r, hr⟩ := Tiling.exists_applyDims hregular hu heval
    rw [← hcells r hr]
    exact hr
  · have hadmits : List.Forall₂ (fun b i => b.Admits (.ofList (v'.outer t)) i) t.bounds v.element :=
      ((List.forall₂_and_left _ _).mpr ⟨hbounds, helement⟩).imp fun b i h => h.1.admits h.2
    rw [Tile.cells, Bound.cells_eq_of_agrees hbounds]
    exact Bound.cells_inj hregular hadmits helement'

/-! ### odd elements -/

def oddStatement : Statement :=
  ⟨"S", ["i", "j"], [], [.var 0, .var 1], [⟨0, "A", .read, true, [.single ⟨[2], 1⟩]⟩]⟩

/-- `for i, j: … = A[2·i + 1]` -/
def oddProgram : Program where
  params := []
  context := []
  arrays := [.ofShape "A" "float" 4 1]
  statements := [oddStatement]
  regions := [⟨[0], 0, 1, [false]⟩]

def oddOptions : Options := { Options.default with tileSizes := [4], usePrivateMemory := false }

/-- The coordinates are `[4·⌊i/4⌋, i mod 4, j]`. -/
def oddStmtSchedule : StmtSchedule where
  stmt := 0
  nProgramParam := 0
  space := ⟨0, 2, [⟨.var 0, 4⟩]⟩
  constraints := []
  dims := [⟨[0, 0, 4], 0⟩, ⟨[1, 0, -4], 0⟩, .var 1]

def oddSchedule : KernelSchedule where
  paramNames := []
  nProgramParam := 0
  context := []
  tileFirst := 0
  tileLen := 1
  nGrid := 0
  nBlock := 0
  tileSizes := [4]
  gridSizes := []
  blockSizes := []
  gridMapping := .wrap
  threadMapping := .wrap
  levels := [.tileLoop, .pointLoop, .inner]
  coincident := [false]
  statements := [oddStmtSchedule]
  stage := .scaled

def oddScope : Scope := .ofSchedule oddProgram oddOptions oddSchedule

/-- Every second element, from the first coordinate on. -/
def oddTile : Tile := ⟨[⟨4, ⟨⟨[1], 1⟩, 1⟩, some ⟨2, .const 1⟩⟩], 0, 1⟩

def oddGroup : Group where
  array := "A"
  nr := 0
  refs := [0]
  write := false
  definiteWrite := true
  forcePrivate := false
  sharedTile := some oddTile
  privateTile := none
  lastShared := some 0

theorem mem_refs_oddGroup : 0 ∈ oddGroup.refs := List.mem_singleton_self 0

/-- The read of `A[2·i + 1]` in iteration `(i, j)`. -/
def oddVisit (i j : Int) : oddSchedule.Visit oddProgram [] oddGroup.refs where
  inst := ⟨oddStmtSchedule, oddStatement, [i, j], List.mem_singleton_self _, rfl, ⟨rfl, nofun⟩⟩
  ids := []
  reference := ⟨0, "A", .read, true, [.single ⟨[2], 1⟩]⟩
  element := [2 * i + 1]
  runsAt := ⟨.nil, nofun⟩
  mem_references := List.mem_singleton_self _
  id_mem := mem_refs_oddGroup
  touches := .cons (by simp [Subscript.Selects, Valuation.ofList, Affine.value_mk]) .nil

/-- Iterations `9` and `11` share a tile, and find their elements in its cells `1` and `3`. -/
theorem odd_elements_have_cells :
    (KernelSchedule.build oddProgram ⟨[0], 0, 1, [false]⟩ oddOptions = .ok oddSchedule ∧
      all oddScope = .ok [oddGroup] ∧ checkUnroll oddScope [oddGroup] = .ok ([oddGroup], []) ∧
      enforceBudget oddScope [oddGroup] = .ok [oddGroup]) ∧
      (oddVisit 9 0).coords = [8, 1, 0] ∧ (oddVisit 11 5).coords = [8, 3, 5] ∧
      (∀ b ∈ oddTile.bounds, b.Agrees [8] [8]) ∧
      (oddTile.tiling "local").apply [8] [19] = .ok (some [1]) ∧
      (oddTile.tiling "local").apply [8] [23] = .ok (some [3]) := by
  have hk : KernelSchedule.build oddProgram ⟨[0], 0, 1, [false]⟩ oddOptions = .ok oddSchedule := by
    decide +kernel
  have hall : all oddScope = .ok [oddGroup] := by decide +kernel
  have hunroll : checkUnroll oddScope [oddGroup] = .ok ([oddGroup], []) := by decide +kernel
  have hbudget : enforceBudget oddScope [oddGroup] = .ok [oddGroup] := by decide +kernel
  have hparams : oddProgram.Admits [] := by decide
  obtain ⟨hagrees, hcells, -⟩ := tile_serves_granule (by decide +kernel) (by decide +kernel)
    (by decide) hk rfl hall hunroll hbudget (List.mem_singleton_self oddGroup) rfl rfl hparams
    (oddVisit 9 0) (oddVisit 11 5) (by decide) nofun
    "local"
  refine ⟨⟨hk, hall, hunroll, hbudget⟩, by decide, by decide, hagrees, ?_, ?_⟩
  · refine (hcells (oddVisit 9 0)).2.2 (.cons ⟨⟨9, by decide⟩, ?_⟩ .nil)
    rintro _ ⟨⟩
    exact ⟨1, by decide⟩
  · refine (hcells (oddVisit 11 5)).2.2 (.cons ⟨⟨9, by decide⟩, ?_⟩ .nil)
    rintro _ ⟨⟩
    exact ⟨1, by decide⟩

end Group

end KernelMap
