import KernelMap.Schedule.Build
import KernelMap.Proofs.Equalities
import KernelMap.Proofs.Share

/-!
# KernelMap.Proofs.Launch

Launch sizes leave room for every unit that occurs.

The constraint engine bounds tile coordinates and units over all points of a
kernel.  Chunks computed from such a range need no more blocks than are asked for
(`gridShares_eq_ok`), and a launch size that is reduced to the largest unit still
exceeds every unit (`clampSizes_eq_ok`).
-/

namespace KernelMap

/-! ## points of a statement -/

namespace StmtSchedule

/-- The divisions are well formed, and every constraint is over the variables of
the space. -/
structure WellFormed (s : StmtSchedule) (context : List Constraint) : Prop where
  space : s.space.WellFormed
  constraints : ∀ c ∈ s.constraints, c.expr.Within s.space.dim
  context : ∀ c ∈ context, c.expr.Within s.space.dim

/-- The valuation is an instance of the statement: it defines the divisions and
satisfies the constraints. -/
structure Contains (s : StmtSchedule) (context : List Constraint) (w : Valuation) : Prop where
  defines : s.space.Defines w
  constraints : ∀ c ∈ s.constraints, c.Holds w
  context : ∀ c ∈ context, c.Holds w

/-- The polyhedron of a schedule holds wherever the statement runs. -/
theorem polyhedron_eq_ok {s : StmtSchedule} {context : List Constraint} {r : Polyhedron}
    (hs : s.WellFormed context) (h : s.polyhedron context = .ok r) :
    r.WellFormed ∧ s.space.dim ≤ r.nVars ∧ ∀ w, s.Contains context w → r.Holds w := by
  simp only [polyhedron, allConstraints, Outcome.bind_eq_ok, Outcome.pure_eq_ok] at h
  obtain ⟨_, ⟨cs, hcs, rfl⟩, h⟩ := h
  obtain ⟨hwithin, hholds⟩ := Space.holds_constraints hs.space hcs
  have hgrows := Polyhedron.grows_addAllLowered h
  refine ⟨hgrows.wellFormed (Polyhedron.wellFormed_empty _), hgrows.nVars, fun w hw => ?_⟩
  rw [Polyhedron.holds_addAllLowered h]
  refine ⟨Polyhedron.holds_empty _ w, fun c hc => ?_⟩
  have hc : c.expr.Within s.space.dim ∧ c.Holds w := by
    rcases List.mem_append.mp hc with hc | hc
    · rcases List.mem_append.mp hc with hc | hc
      · exact ⟨hs.constraints c hc, hw.constraints c hc⟩
      · exact ⟨hwithin c hc, hholds w hw.defines c hc⟩
    · exact ⟨hs.context c hc, hw.context c hc⟩
  refine (Constraint.holds_congr fun i hi => ?_).mp hc.2
  have hlt : i < s.space.dim := Nat.lt_of_not_le fun hle => hi (hc.1 i hle)
  simp [List.getD_eq_getElem?_getD, hlt]

/-- Every instance of the statement is a point of the polyhedron. -/
theorem tightened_eq_ok {s : StmtSchedule} {context : List Constraint} {r : Polyhedron}
    (hs : s.WellFormed context) (h : s.tightened context = .ok r) :
    r.WellFormed ∧ s.space.dim ≤ r.nVars ∧ ∀ w, s.Contains context w → r.Holds w := by
  simp only [tightened, Outcome.bind_eq_ok] at h
  obtain ⟨t, ht, h⟩ := h
  obtain ⟨hwf, hdim, hholds⟩ := polyhedron_eq_ok hs ht
  have hsame := Polyhedron.samePoints_fixDetermined hwf h
  exact ⟨hsame.wellFormed, hsame.nVars ▸ hdim, fun w hw => (hsame.holds w).mpr (hholds w hw)⟩

end StmtSchedule

/-! ## ranges of forms -/

/-- An item of a range question: the form is over the variables of the points. -/
def WellPosed (item : Outcome EngineError Polyhedron × Affine) : Prop :=
  ∀ r, item.1 = .ok r → r.WellFormed ∧ item.2.Within r.nVars

/-- The range found bounds every form wherever its statement runs. -/
theorem formRange_eq_ok {items : List (Outcome EngineError Polyhedron × Affine)}
    {range : Option (Int × Int)} {lo hi : Int} (hitems : ∀ item ∈ items, WellPosed item)
    (h : formRange items range = .ok (some (lo, hi))) :
    (∀ l u, range = some (l, u) → lo ≤ l ∧ u ≤ hi) ∧
      ∀ item ∈ items, ∃ r, item.1 = .ok r ∧ ∀ w, r.Holds w → lo ≤ item.2.value w ∧
      item.2.value w ≤ hi := by
  induction items generalizing range with
  | nil =>
      simp only [formRange, Except.ok.injEq] at h
      refine ⟨fun l u hr => ?_, by simp⟩
      cases h.symm.trans hr
      exact ⟨le_rfl, le_rfl⟩
  | cons item items ih =>
      obtain ⟨outcome, a⟩ := item
      obtain ⟨hposed, htail⟩ := List.forall_mem_cons.mp hitems
      simp only [formRange, Outcome.bind_eq_ok] at h
      obtain ⟨r, rfl, low, hlow, high, hhigh, h⟩ := h
      obtain ⟨hwf, hwithin⟩ := hposed r rfl
      -- an empty statement has no points to bound
      have hskip (hempty : ∀ w, ¬ r.Holds w) (hrest : formRange items range = .ok (some (lo, hi))) :
          (∀ l u, range = some (l, u) → lo ≤ l ∧ u ≤ hi) ∧ ∀ item ∈ (Except.ok r, a) :: items,
            ∃ r, item.1 = .ok r ∧ ∀ w, r.Holds w → lo ≤ item.2.value w ∧ item.2.value w ≤ hi := by
        obtain ⟨hrange, hih⟩ := ih htail hrest
        exact ⟨hrange, List.forall_mem_cons.mpr ⟨⟨r, rfl, fun w hw => absurd hw (hempty w)⟩, hih⟩⟩
      split at h
      · exact hskip (Polyhedron.not_holds_of_minimize hwf hwithin hlow) h
      · exact hskip (Polyhedron.not_holds_of_maximize hwf hwithin hhigh) h
      · next l u =>
        have hbounds : ∀ w, r.Holds w → l ≤ a.value w ∧ a.value w ≤ u := fun w hw =>
          ⟨Polyhedron.le_value_of_minimize hwf hwithin hlow hw,
            Polyhedron.value_le_of_maximize hwf hwithin hhigh hw⟩
        cases range with
        | none =>
            obtain ⟨hrange, hrest⟩ := ih htail h
            obtain ⟨hl, hu⟩ := hrange l u rfl
            refine ⟨by simp, List.forall_mem_cons.mpr ⟨⟨r, rfl, fun w hw => ?_⟩, hrest⟩⟩
            have := hbounds w hw
            dsimp only
            omega
        | some lu =>
            obtain ⟨l', u'⟩ := lu
            obtain ⟨hrange, hrest⟩ := ih htail h
            obtain ⟨hl, hu⟩ := hrange _ _ rfl
            refine ⟨fun x y hxy => ?_, List.forall_mem_cons.mpr ⟨⟨r, rfl, fun w hw => ?_⟩, hrest⟩⟩
            · cases hxy
              omega
            · have := hbounds w hw
              dsimp only
              omega
      · simp at h

/-- The maximum found bounds every form wherever its statement runs. -/
theorem formMax_eq_ok {items : List (Outcome EngineError Polyhedron × Affine)}
    {best : Option Int} {v : Int} (hitems : ∀ item ∈ items, WellPosed item)
    (h : formMax items best = .ok (some v)) : (∀ b, best = some b → b ≤ v) ∧
      ∀ item ∈ items, ∃ r, item.1 = .ok r ∧ ∀ w, r.Holds w → item.2.value w ≤ v := by
  induction items generalizing best with
  | nil =>
      simp only [formMax, Except.ok.injEq] at h
      refine ⟨fun b hb => ?_, by simp⟩
      cases h.symm.trans hb
      exact le_rfl
  | cons item items ih =>
      obtain ⟨outcome, a⟩ := item
      obtain ⟨hposed, htail⟩ := List.forall_mem_cons.mp hitems
      simp only [formMax, Outcome.bind_eq_ok] at h
      obtain ⟨r, rfl, o, ho, h⟩ := h
      obtain ⟨hwf, hwithin⟩ := hposed r rfl
      cases o with
      | unbounded => simp at h
      | empty =>
          obtain ⟨hbest, hrest⟩ := ih htail h
          exact ⟨hbest, List.forall_mem_cons.mpr
            ⟨⟨r, rfl, fun w hw => absurd hw (Polyhedron.not_holds_of_maximize hwf hwithin ho w)⟩,
              hrest⟩⟩
      | value u =>
          obtain ⟨hbest, hrest⟩ := ih htail h
          have hstep := hbest _ rfl
          refine ⟨fun b hb => ?_, List.forall_mem_cons.mpr ⟨⟨r, rfl, fun w hw => ?_⟩, hrest⟩⟩
          · subst hb
            simp only [Option.elim_some] at hstep
            omega
          · have hle : a.value w ≤ u := Polyhedron.value_le_of_maximize hwf hwithin ho hw
            have hu : u ≤ v := by
              cases best with
              | none => exact hstep
              | some b =>
                  simp only [Option.elim_some] at hstep
                  omega
            exact hle.trans hu

/-! ## columns -/

/-- Every unit lies between zero and its size. -/
def InRange (units sizes : List Int) : Prop := List.Forall₂ (fun u n => 0 ≤ u ∧ u < n) units sizes

/-- Lists are in range, if both parts are. -/
theorem InRange.append_iff {us vs ms ns : List Int} (h : us.length = ms.length) :
    InRange (us ++ vs) (ms ++ ns) ↔ InRange us ms ∧ InRange vs ns := by
  induction us generalizing ms with
  | nil =>
      rw [List.length_eq_zero_iff.mp h.symm]
      simp [InRange]
  | cons u us ih =>
      cases ms with
      | nil => simp at h
      | cons n ms =>
          simp only [InRange, List.cons_append, List.forall₂_cons, and_assoc,
            and_congr_right_iff] at ih ⊢
          exact fun _ _ => ih (by simpa using h)

/-- The values of `n` forms from number `k` on, zero past the last form. -/
def columnValues (as : List Affine) (w : Valuation) (k n : Nat) : List Int :=
  (List.range' k n).map fun j => (as.getD j (.const 0)).value w

/-- The values of the first columns are those of the first forms. -/
theorem columnValues_zero {as : List Affine} {n : Nat} (w : Valuation) (h : n ≤ as.length) :
    columnValues as w 0 n = (as.map (·.value w)).take n := by
  refine List.ext_getElem (by simpa [columnValues] using h) fun j hj _ => ?_
  have hlt : j < as.length := by
    simp only [columnValues, List.length_map, List.length_range'] at hj
    omega
  simp [columnValues, hlt]

/-- Units of values dealt in turn are in range. -/
theorem inRange_wrap {sizes us : List Int} (hsizes : ∀ n ∈ sizes, 0 < n)
    (hlen : sizes.length ≤ us.length) :
    InRange (List.zipWith Share.unit (sizes.map .wrap) us) sizes := by
  induction sizes generalizing us with
  | nil => exact .nil
  | cons n sizes ih =>
      obtain ⟨hn, hsizes⟩ := List.forall_mem_cons.mp hsizes
      cases us with
      | nil => simp at hlen
      | cons u us => exact .cons (Share.unit_wrap hn u) (ih hsizes (by simpa using hlen))

theorem column_map {α β : Type} (parts : List α) (f : α → β) (g : α → List Affine) (k : Nat) :
    column (parts.map f) (parts.map g) k = parts.map fun t => (f t, (g t).getD k (.const 0)) := by
  rw [column, List.map_map, List.zip_map', List.map_eq_map_iff]
  exact fun _ _ => rfl

section Columns

variable {α : Type} {parts : List α} {sched : α → StmtSchedule} {forms : α → List Affine}
  {context : List Constraint}

/-- The statements of a kernel, each with forms over its variables. -/
def Parts (context : List Constraint) (parts : List α) (sched : α → StmtSchedule)
    (forms : α → List Affine) : Prop :=
  ∀ t ∈ parts, (sched t).WellFormed context ∧ ∀ a ∈ forms t, a.Within (sched t).space.dim

/-- The questions asked about a column are well-posed. -/
theorem wellPosed_column (hparts : Parts context parts sched forms) (k : Nat) :
    ∀ item ∈ column (parts.map fun t => (sched t).tightened context) (parts.map forms) k,
      WellPosed item := by
  rw [column_map]
  intro item hitem r hr
  obtain ⟨t, ht, rfl⟩ := List.mem_map.mp hitem
  obtain ⟨hwf, hforms⟩ := hparts t ht
  obtain ⟨hr, hdim, -⟩ := StmtSchedule.tightened_eq_ok hwf hr
  refine ⟨hr, Affine.Within.mono ?_ hdim⟩
  dsimp only
  cases hk : (forms t)[k]? with
  | none =>
      rw [List.getD_eq_getElem?_getD, hk]
      exact Affine.within_const _ _
  | some a =>
      rw [List.getD_eq_getElem?_getD, hk]
      exact hforms a (List.mem_of_getElem? hk)

/-- A range that holds on the points of every statement holds for its
instances. -/
theorem of_column (hparts : Parts context parts sched forms) {k : Nat} {P : Int → Prop}
    (h : ∀ item ∈ column (parts.map fun t => (sched t).tightened context) (parts.map forms) k,
      ∃ r, item.1 = .ok r ∧ ∀ w, r.Holds w → P (item.2.value w))
    {t : α} (ht : t ∈ parts) {w : Valuation} (hw : (sched t).Contains context w) :
    P (((forms t).getD k (.const 0)).value w) := by
  rw [column_map] at h
  obtain ⟨r, hr, hP⟩ := h _ (List.mem_map_of_mem ht)
  obtain ⟨-, -, hpoint⟩ := StmtSchedule.tightened_eq_ok (hparts t ht).1 hr
  exact hP w (hpoint w hw)

/-! ## the grid -/

/-- If the tiles are dealt in chunks, every unit is in the range of the grid. -/
theorem gridChunks_eq_ok {k : Nat} {sizes : List Int} {shares : List Share}
    (hparts : Parts context parts sched forms) (hsizes : ∀ n ∈ sizes, 0 < n)
    (h : gridChunks (parts.map fun t => (sched t).tightened context) (parts.map forms) k sizes =
      .ok (some shares)) :
    shares.length = sizes.length ∧ ∀ t ∈ parts, ∀ w, (sched t).Contains context w →
      InRange (List.zipWith Share.unit shares (columnValues (forms t) w k sizes.length)) sizes := by
  induction sizes generalizing k shares with
  | nil =>
      simp only [gridChunks, Except.ok.injEq, Option.some.injEq] at h
      subst h
      exact ⟨rfl, fun _ _ _ _ => .nil⟩
  | cons n sizes ih =>
      simp only [gridChunks, Outcome.bind_eq_ok] at h
      obtain ⟨range, hrange, h⟩ := h
      rcases range with - | ⟨lo, hi⟩
      · simp at h
      simp only [Outcome.bind_eq_ok, Outcome.orOverflow_eq_ok, Word.sub?_eq_some, Word.add?_eq_some,
        Outcome.orFault_eq_ok] at h
      obtain ⟨_, ⟨-, rfl⟩, _, ⟨-, rfl⟩, size, hsize, rest, hrest, h⟩ := h
      cases rest with
      | none => simp at h
      | some rest =>
          simp only [Outcome.pure_eq_ok, Option.some.injEq] at h
          subst h
          obtain ⟨hn, hsizes⟩ := List.forall_mem_cons.mp hsizes
          obtain ⟨hlen, htail⟩ := ih hsizes hrest
          refine ⟨by rw [List.length_cons, hlen,
            List.length_cons], fun t ht w hw => .cons ?_ (htail t ht w hw)⟩
          have hbounds := of_column (P := fun v => lo ≤ v ∧ v ≤ hi) hparts
            (formRange_eq_ok (wellPosed_column hparts k) hrange).2 ht hw
          have hcover : hi - lo + 1 ≤ max size 1 * n := by
            refine (Share.le_chunkSize_mul (hi - lo + 1) hn).trans
              (mul_le_mul_of_nonneg_right ?_ hn.le)
            rw [Share.chunkSize, ← Word.eq_of_ceilDiv?_eq_some hsize]
            exact le_max_left _ _
          have hlow : 0 ≤ ((forms t).getD k (.const 0)).value w - lo := by omega
          have hhigh : ((forms t).getD k (.const 0)).value w - lo < hi - lo + 1 := by omega
          exact Share.fdiv_lt_of_chunks hlow hhigh (by omega) hcover

/-! ## clamping -/

theorem clampSizes_cons (points : List (Outcome EngineError Polyhedron))
    (units : List (List Affine)) (k : Nat) (n : Int) (ns : List Int) :
    clampSizes points units k (n :: ns) = do
      let largest ← formMax (column points units k) none
      let rest ← clampSizes points units (k + 1) ns
      return largest.elim n (fun m => max (min n (Word.satAdd m 1)) 1) :: rest := by
  rw [clampSizes]
  rcases formMax (column points units k) none with - | (- | m) <;> rfl

/-- A unit below the size is below the clamped one, too. -/
theorem lt_satAdd {u m n : Int} (hu : u ≤ m) (hun : u < n) (hn : n ≤ Word.greatest) :
    u < Word.satAdd m 1 := by
  rw [Word.satAdd, Word.clamp]
  omega

/-- Clamping makes sizes smaller only. -/
theorem clampSizes_le {points : List (Outcome EngineError Polyhedron)}
    {units : List (List Affine)} {k : Nat} {ns sizes : List Int} (hpos : ∀ n ∈ ns, 0 < n)
    (h : clampSizes points units k ns = .ok sizes) : List.Forall₂ (· ≤ ·) sizes ns := by
  induction ns generalizing k sizes with
  | nil =>
      simp only [clampSizes, Except.ok.injEq] at h
      exact h ▸ .nil
  | cons n ns ih =>
      simp only [clampSizes_cons, Outcome.bind_eq_ok, Outcome.pure_eq_ok] at h
      obtain ⟨largest, -, rest, hrest, rfl⟩ := h
      obtain ⟨hn, hpos⟩ := List.forall_mem_cons.mp hpos
      refine .cons ?_ (ih hpos hrest)
      cases largest with
      | none => exact le_rfl
      | some m => exact max_le (min_le_left ..) hn

/-- Reduced sizes are positive, and still exceed every unit that occurs. -/
theorem clampSizes_eq_ok {k : Nat} {ns sizes : List Int} (hparts : Parts context parts sched forms)
    (hpos : ∀ n ∈ ns, 0 < n) (hword : ∀ n ∈ ns, n ≤ Word.greatest)
    (h : clampSizes (parts.map fun t => (sched t).tightened context) (parts.map forms) k ns =
      .ok sizes) :
    sizes.length = ns.length ∧ (∀ n ∈ sizes, 0 < n) ∧ ∀ t ∈ parts, ∀ w,
      (sched t).Contains context w →
      InRange (columnValues (forms t) w k ns.length) ns →
      InRange (columnValues (forms t) w k ns.length) sizes := by
  induction ns generalizing k sizes with
  | nil =>
      simp only [clampSizes, Except.ok.injEq] at h
      subst h
      exact ⟨rfl, by simp, fun _ _ _ _ hrange => hrange⟩
  | cons n ns ih =>
      simp only [clampSizes_cons, Outcome.bind_eq_ok, Outcome.pure_eq_ok] at h
      obtain ⟨largest, hlargest, rest, hrest, rfl⟩ := h
      obtain ⟨hn, hpos⟩ := List.forall_mem_cons.mp hpos
      obtain ⟨hfit, hword⟩ := List.forall_mem_cons.mp hword
      obtain ⟨hlen, hrestPos, htail⟩ := ih hpos hword hrest
      refine ⟨by rw [List.length_cons, hlen,
        List.length_cons], List.forall_mem_cons.mpr ⟨?_, hrestPos⟩, fun t ht w hw hrange => ?_⟩
      · cases largest with
        | none => exact hn
        | some m => exact Int.lt_of_lt_of_le Int.one_pos (le_max_right _ _)
      · obtain ⟨⟨hlow, hlt⟩, hrange⟩ := List.forall₂_cons.mp hrange
        refine .cons ⟨hlow, ?_⟩ (htail t ht w hw hrange)
        cases largest with
        | none => exact hlt
        | some m =>
            have hle := of_column (P := fun v => v ≤ m) hparts
              (formMax_eq_ok (wellPosed_column hparts k) hlargest).2 ht hw
            exact lt_max_of_lt_left (lt_min hlt (lt_satAdd hle hlt hfit))

end Columns

/-- Tiles are dealt out to no more blocks than there are. -/
theorem gridShares_eq_ok {mapping mapping' : Distribution} {context : List Constraint}
    {parts : List TiledStmt} {sizes : List Int} {shares : List Share}
    (hparts : Parts context parts (·.sched) (·.outer)) (hsizes : ∀ n ∈ sizes, 0 < n)
    (h : gridShares mapping context parts sizes = .ok (mapping', shares)) :
    shares.length = sizes.length ∧ ∀ t ∈ parts, ∀ w, t.sched.Contains context w →
      InRange (List.zipWith Share.unit shares (columnValues t.outer w 0 sizes.length)) sizes := by
  have hwrap : (sizes.map Share.wrap).length = sizes.length ∧ ∀ t ∈ parts, ∀ w,
      t.sched.Contains context w →
      InRange (List.zipWith Share.unit (sizes.map .wrap) (columnValues t.outer w 0 sizes.length))
      sizes :=
    ⟨List.length_map _, fun t _ w _ => inRange_wrap hsizes (by simp [columnValues])⟩
  cases mapping with
  | wrap =>
      simp only [gridShares, Except.ok.injEq, Prod.mk.injEq] at h
      exact h.2 ▸ hwrap
  | tile =>
      simp only [gridShares, Outcome.bind_eq_ok] at h
      obtain ⟨chunks, hchunks, h⟩ := h
      cases chunks with
      | none =>
          simp only [Outcome.pure_eq_ok, Prod.mk.injEq] at h
          exact h.2 ▸ hwrap
      | some chunks =>
          simp only [Outcome.pure_eq_ok, Prod.mk.injEq] at h
          exact h.2 ▸ gridChunks_eq_ok hparts hsizes hchunks

theorem length_blockShares (mapping : Distribution) {ts ns : List Int}
    (hlen : ns.length ≤ ts.length) : (blockShares mapping ts ns).length = ns.length := by
  cases mapping with
  | wrap => exact List.length_map _
  | tile =>
      rw [blockShares, List.length_map, List.length_zip]
      exact Nat.min_eq_right hlen

/-- Points of a tile dealt in chunks go to threads in range. -/
theorem inRange_split {ts ns us : List Int} (hlen : ns.length ≤ ts.length) (hus : InRange us ts)
    (hns : ∀ n ∈ ns, 0 < n) :
    InRange (List.zipWith Share.unit ((ts.zip ns).map fun p => .split p.1 p.2) us) ns := by
  induction ns generalizing ts us with
  | nil => simp [InRange]
  | cons n ns ih =>
      obtain ⟨hn, hns⟩ := List.forall_mem_cons.mp hns
      cases hus with
      | nil => simp at hlen
      | @cons u t us ts hu hus =>
          have htotal : 0 < t := hu.1.trans_lt hu.2
          exact .cons (Share.fdiv_lt_of_chunks hu.1 hu.2 (Share.chunkSize_pos htotal hn)
            (Share.le_chunkSize_mul t hn)) (ih (by simpa using hlen) hus hns)

/-- Places in a tile are dealt out to no more threads than there are. -/
theorem inRange_blockShares (mapping : Distribution) {ts ns us : List Int}
    (hlen : ns.length ≤ ts.length) (hus : InRange us ts) (hns : ∀ n ∈ ns, 0 < n) :
    InRange (List.zipWith Share.unit (blockShares mapping ts ns) us) ns := by
  cases mapping with
  | wrap => exact inRange_wrap hns (hus.length_eq ▸ hlen)
  | tile => exact inRange_split hlen hus hns

end KernelMap
