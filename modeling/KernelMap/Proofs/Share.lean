import KernelMap.Schedule.Share
import KernelMap.Proofs.Space

/-!
# KernelMap.Proofs.Share

Dealing out coordinates, with exact integers.

`Share.unit` and `Share.loop` are the two parts of a coordinate that is dealt
out; together they determine it (`Share.eq_of_parts`).  The forms made by
`Share.deal` have these values wherever their space is defined
(`Share.dealAll_eq_ok`).
-/

namespace KernelMap.Share

/-! ## the parts of a coordinate -/

/-- The size of equal chunks of `total` coordinates, one for each unit. -/
def chunkSize (total units : Int) : Int := -((-total).fdiv units)

/-- The unit that handles coordinate `v`. -/
def unit : Share → Int → Int
  | wrap units, v => v.fmod units
  | chunk start size, v => (v - start).fdiv size
  | split total units, v => v.fdiv (chunkSize total units)

/-- The coordinate left for the loop of the unit that handles `v`. -/
def loop : Share → Int → Int
  | wrap units, v => v.fdiv units
  | chunk start size, v => (v - start).fmod size
  | split total units, v => v.fmod (chunkSize total units)

/-- The loop coordinates; those without a share stay as they are. -/
def loops : List Share → List Int → List Int
  | share :: shares, v :: vs => share.loop v :: loops shares vs
  | _, vs => vs

/-- The unit and the step together say which value was dealt. -/
theorem eq_of_parts {share : Share} {v v' : Int} (hunit : share.unit v = share.unit v')
    (hloop : share.loop v = share.loop v') : v = v' := by
  have hsum : ∀ {a a' n : Int}, a.fmod n = a'.fmod n → a.fdiv n = a'.fdiv n → a = a' := by
    intro a a' n hmod hdiv
    rw [← Int.fmod_add_mul_fdiv a n, hmod, hdiv, Int.fmod_add_mul_fdiv]
  cases share with
  | wrap units => exact hsum hunit hloop
  | chunk start size =>
      have hshift := hsum hloop hunit
      omega
  | split total units => exact hsum hloop hunit

theorem length_loops (shares : List Share) (vs : List Int) :
    (loops shares vs).length = vs.length := by
  fun_induction loops shares vs with
  | case1 share shares v vs ih => rw [List.length_cons, ih, List.length_cons]
  | case2 => rfl

/-- Coordinates with the same units and the same loop coordinates are the
same. -/
theorem eq_of_units_of_loops {shares : List Share} {vs vs' : List Int}
    (hunits : List.zipWith unit shares vs = List.zipWith unit shares vs')
    (hloops : loops shares vs = loops shares vs') : vs = vs' := by
  induction shares generalizing vs vs' with
  | nil => exact hloops
  | cons share shares ih =>
      cases vs with
      | nil =>
          have hlen := congrArg List.length hloops
          rw [length_loops, length_loops] at hlen
          exact (List.length_eq_zero_iff.mp hlen.symm).symm
      | cons v vs =>
          cases vs' with
          | nil => simp at hunits
          | cons v' vs' =>
              obtain ⟨hunit, hunits⟩ := List.cons.inj hunits
              obtain ⟨hloop, hloops⟩ := List.cons.inj hloops
              rw [eq_of_parts hunit hloop, ih hunits hloops]

/-! ## ranges of units -/

/-- Values dealt in turn go to one of `n` units. -/
theorem unit_wrap {n : Int} (hn : 0 < n) (v : Int) : 0 ≤ (wrap n).unit v ∧ (wrap n).unit v < n := by
  exact ⟨Int.fmod_nonneg_of_pos v hn, Int.fmod_lt_of_pos v hn⟩

/-- The chunks of all units cover the total. -/
theorem le_chunkSize_mul (total : Int) {n : Int} (hn : 0 < n) : total ≤ chunkSize total n * n := by
  have hle := Int.ediv_mul_le (-total) hn.ne'
  rw [chunkSize, Int.fdiv_eq_ediv_of_nonneg _ hn.le]
  linarith

theorem chunkSize_pos {total n : Int} (htotal : 0 < total) (hn : 0 < n) : 0 < chunkSize total n :=
  pos_of_mul_pos_left (htotal.trans_le (le_chunkSize_mul total hn)) hn.le

/-- Chunks that cover `total` coordinates need no more than `n` units. -/
theorem fdiv_lt_of_chunks {v total size n : Int} (hv : 0 ≤ v) (hlt : v < total) (hsize : 0 < size)
    (hcover : total ≤ size * n) : 0 ≤ v.fdiv size ∧ v.fdiv size < n := by
  rw [Int.fdiv_eq_ediv_of_nonneg _ hsize.le]
  exact ⟨Int.ediv_nonneg hv hsize.le, Int.ediv_lt_of_lt_mul hsize (by linarith)⟩

/-! ## forms -/

/-- Dealing out chunks makes forms for the chunk and for the place in it. -/
theorem dealChunks_eq_ok {a u l : Affine} {size : Int} {s t : Space} (hs : s.WellFormed)
    (ha : a.Within s.dim) (h : dealChunks a size s = .ok (u, l, t)) :
    s.Extends t ∧ t.WellFormed ∧ u.Within t.dim ∧ l.Within t.dim ∧
      ∀ w, t.Defines w → u.value w = (a.value w).fdiv size ∧ l.value w = (a.value w).fmod size := by
  simp only [dealChunks, Outcome.bind_eq_ok, Outcome.pure_eq_ok, Prod.mk.injEq] at h
  obtain ⟨⟨q, t'⟩, hq, m, hm, r, hr, rfl, rfl, rfl⟩ := h
  obtain ⟨hext, hwf, hwithin, hval⟩ := Space.floor_eq_ok hs ha hq
  refine ⟨hext, hwf, hwithin, (ha.mono hext.dim_le).sub (hwithin.scale hm) hr,
    fun w hw => ⟨hval w hw, ?_⟩⟩
  rw [Affine.value_sub hr, Affine.value_scale hm, hval w hw, Int.fmod_def]

/-- Dealing makes forms for the unit and the step of a value. -/
theorem deal_eq_ok {share : Share} {a u l : Affine} {s t : Space} (hs : s.WellFormed)
    (ha : a.Within s.dim) (h : share.deal a s = .ok (u, l, t)) :
    s.Extends t ∧ t.WellFormed ∧ u.Within t.dim ∧ l.Within t.dim ∧
      ∀ w, t.Defines w → u.value w = share.unit (a.value w) ∧
      l.value w = share.loop (a.value w) := by
  cases share with
  | wrap units =>
      simp only [deal, Outcome.bind_eq_ok, Outcome.pure_eq_ok, Prod.mk.injEq] at h
      obtain ⟨⟨r, s₁⟩, hr, ⟨q, s₂⟩, hq, rfl, rfl, rfl⟩ := h
      obtain ⟨hext₁, hwf₁, hwithin₁, hval₁⟩ := Space.modulo_eq_ok hs ha hr
      obtain ⟨hext₂, hwf₂, hwithin₂, hval₂⟩ := Space.floor_eq_ok hwf₁ (ha.mono hext₁.dim_le) hq
      exact ⟨hext₁.trans hext₂, hwf₂, hwithin₁.mono hext₂.dim_le, hwithin₂,
        fun w hw => ⟨hval₁ w (hw.of_extends hext₂), hval₂ w hw⟩⟩
  | chunk start size =>
      simp only [deal, Outcome.bind_eq_ok] at h
      obtain ⟨b, hb, h⟩ := h
      obtain ⟨hext, hwf, hu, hl, hval⟩ :=
        dealChunks_eq_ok hs (ha.sub (Affine.within_const _ _) hb) h
      refine ⟨hext, hwf, hu, hl, fun w hw => ?_⟩
      have hb : b.value w = a.value w - start := by rw [Affine.value_sub hb, Affine.value_const]
      rw [unit, loop, ← hb]
      exact hval w hw
  | split total units =>
      simp only [deal, Outcome.bind_eq_ok, Outcome.orFault_eq_ok] at h
      obtain ⟨size, hsize, h⟩ := h
      rw [Word.eq_of_ceilDiv?_eq_some hsize] at h
      exact dealChunks_eq_ok hs ha h

/-- The forms of all coordinates that are dealt out have the values of their
parts. -/
theorem dealAll_eq_ok {shares : List Share} {as : List Affine} {s : Space} {r : Dealt}
    (hs : s.WellFormed) (has : ∀ a ∈ as, a.Within s.dim) (h : dealAll shares as s = .ok r) :
    s.Extends r.space ∧ r.space.WellFormed ∧ (∀ a ∈ r.units ++ r.loops, a.Within r.space.dim) ∧
      ∀ w, r.space.Defines w →
        r.units.map (·.value w) = List.zipWith unit shares (as.map (·.value w)) ∧
        r.loops.map (·.value w) = loops shares (as.map (·.value w)) := by
  induction shares generalizing as s r with
  | nil =>
      simp only [dealAll, Except.ok.injEq] at h
      subst h
      exact ⟨.refl s, hs, by simpa using has, fun w _ => by simp [loops]⟩
  | cons share shares ih =>
      cases as with
      | nil =>
          simp only [dealAll, Except.ok.injEq] at h
          subst h
          exact ⟨.refl s, hs, by simp, fun w _ => by simp [loops]⟩
      | cons a as =>
          simp only [dealAll, Outcome.bind_eq_ok, Outcome.pure_eq_ok] at h
          obtain ⟨⟨u, l, t⟩, hdeal, rest, hrest, rfl⟩ := h
          obtain ⟨ha, has⟩ := List.forall_mem_cons.mp has
          obtain ⟨hext, hwf, hu, hl, hval⟩ := deal_eq_ok hs ha hdeal
          obtain ⟨hext', hwf', hforms, hvals⟩ :=
            ih hwf (fun b hb => (has b hb).mono hext.dim_le) hrest
          refine ⟨hext.trans hext', hwf', fun b hb => ?_, fun w hw => ?_⟩
          · simp only [List.cons_append, List.mem_cons, List.mem_append] at hb hforms
            rcases hb with rfl | hb | rfl | hb
            · exact hu.mono hext'.dim_le
            · exact hforms b (Or.inl hb)
            · exact hl.mono hext'.dim_le
            · exact hforms b (Or.inr hb)
          · obtain ⟨hunit, hloop⟩ := hval w (hw.of_extends hext')
            obtain ⟨hunits, hloops⟩ := hvals w hw
            simp only [List.map_cons, List.zipWith_cons_cons, loops, hunit, hloop, hunits,
              hloops, and_self]

end KernelMap.Share
