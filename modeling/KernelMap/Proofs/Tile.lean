import KernelMap.Tile.Basic
import KernelMap.Proofs.Bound

/-!
# KernelMap.Proofs.Tile

Tiles hold the elements they were inferred for.

A tiling computes with words; `Tiling.Dim.apply_eq_ok` says that what it computes
is the exact quotient less the exact lower bound.  Together with the bounds of
`KernelMap.Proofs.Bound` this places every accessed element inside the box of the
tile.

Main statement: `Tile.accessed_elements_in_box`.
-/

namespace KernelMap

/-! ## quotients -/

namespace Stride

/-- An index has one quotient. -/
theorem IsQuotient.unique {stride : Option Stride} {w : Valuation} {i q q' : Int}
    (hstep : ∀ st, stride = some st → 1 < st.step) (h : IsQuotient stride w i q)
    (h' : IsQuotient stride w i q') : q = q' := by
  cases stride with
  | none => exact h.symm.trans h'
  | some st =>
      have hpos := hstep st rfl
      exact Int.eq_of_mul_eq_mul_left (by omega) (h.symm.trans h')

/-- A quotient belongs to one index. -/
theorem IsQuotient.index_unique {stride : Option Stride} {w : Valuation} {i j q : Int}
    (h : IsQuotient stride w i q) (h' : IsQuotient stride w j q) : i = j := by
  cases stride with
  | none => exact h.trans h'.symm
  | some st =>
      have hsum : i + st.shift.value w = j + st.shift.value w := h.trans h'.symm
      omega

/-- Only the values before `x` matter to a quotient. -/
theorem IsQuotient.congr {stride : Option Stride} {x : Nat} {w w' : Valuation} {i q : Int}
    (hregular : ∀ st, stride = some st → st.Regular x) (hw : ∀ k, k < x → w k = w' k)
    (h : IsQuotient stride w i q) : IsQuotient stride w' i q := by
  cases stride with
  | none => exact h
  | some st =>
      have hshift : st.shift.value w = st.shift.value w' := Affine.value_congr fun k hk =>
        hw k (Nat.lt_of_not_le fun hle => hk ((hregular st rfl).2 k hle))
      exact (congrArg (i + ·) hshift.symm).trans h

/-- The computed quotient is the exact one, and it is missing only if there is
none. -/
theorem quotient?_eq_ok {st : Stride} {outer : List Int} {i : Int} {r : Option Int}
    (h : st.quotient? outer i = .ok r) :
    (∀ q, r = some q → IsQuotient (some st) (.ofList outer) i q) ∧
      (r = none → ∀ q, ¬ IsQuotient (some st) (.ofList outer) i q) := by
  simp only [quotient?, Outcome.bind_eq_ok, Outcome.orOverflow_eq_ok, Outcome.orFault_eq_ok,
    Word.add?_eq_some] at h
  obtain ⟨v, hv, _, ⟨-, rfl⟩, m, hm, h⟩ := h
  obtain rfl := Affine.eval_eq_ok hv
  simp only [Word.rem?, Option.map_eq_some_iff] at hm
  obtain ⟨_, -, rfl⟩ := hm
  split at h
  · next hzero =>
    simp only [Outcome.bind_eq_ok, Outcome.orFault_eq_ok, Word.div?, Outcome.pure_eq_ok] at h
    obtain ⟨q, hq, rfl⟩ := h
    split at hq
    · simp at hq
    · obtain ⟨-, rfl⟩ := Word.check_eq_some_iff.mp hq
      refine ⟨fun q hq => ?_, by simp⟩
      cases hq
      exact (Int.mul_tdiv_cancel' (Int.dvd_of_tmod_eq_zero hzero)).symm
  · next hne =>
    simp only [Outcome.pure_eq_ok] at h
    refine ⟨by simp [← h], fun _ q hq => hne ?_⟩
    exact Int.tmod_eq_zero_of_dvd ⟨q, hq⟩

end Stride

/-- Evaluation of a lower bound that succeeds gives its value. -/
theorem LowerBound.eval_eq_ok {l : LowerBound} {outer : List Int} {v : Int}
    (h : l.eval outer = .ok v) : v = l.value (.ofList outer) := by
  simp only [eval, Outcome.bind_eq_ok, Outcome.orFault_eq_ok] at h
  obtain ⟨f, hf, hv⟩ := h
  rw [Word.eq_of_ceilDiv?_eq_some hv, Affine.eval_eq_ok hf, value]

/-- Evaluation of a lower bound succeeds if its form and the negation fit into words. -/
theorem LowerBound.eval_of_fits {l : LowerBound} {outer : List Int} {v : Int} (hdenom : 0 < l.denom)
    (hv : l.form.eval outer = .ok v) (hfits : Word.fits v = true) (hneg : Word.fits (-v) = true) :
    l.eval outer = .ok (l.value (.ofList outer)) := by
  have hquotient := Word.fdiv_between (-v) hdenom
  have hceil : Word.fits (-((-v).fdiv l.denom)) = true := Word.fits_of_between hfits (by omega)
  simp only [eval, Outcome.bind_eq_ok, Outcome.orFault_eq_ok, Word.ceilDiv?, Option.bind_eq_bind,
    Option.bind_eq_some_iff, Word.neg?_eq_some, Word.floorDiv?_eq_some]
  refine ⟨v, hv, -v, ⟨hneg, rfl⟩, _, ⟨hdenom.ne', Word.fits_fdiv hdenom hneg, rfl⟩, hceil, ?_⟩
  rw [value, ← Affine.eval_eq_ok hv]

/-! ## one dimension -/

namespace Bound

/-- The arithmetic of the bound stays within the words. -/
structure Evaluates (b : Bound) (outer : List Int) (i : Int) : Prop where
  form : ∃ v, b.lower.form.eval outer = .ok v ∧ Word.fits v = true ∧ Word.fits (-v) = true
  shift : ∀ st, b.stride = some st → ∃ v, st.shift.eval outer = .ok v ∧ Word.fits (i + v) = true

/-- The scaled index is the quotient, if the index has one. -/
theorem scaledIndex_eq_ok {b : Bound} {outer : List Int} {i : Int} {r : Option Int}
    (h : b.scaledIndex outer i = .ok r) :
    (∀ q, r = some q → Stride.IsQuotient b.stride (.ofList outer) i q) ∧
      (r = none → ∀ q, ¬ Stride.IsQuotient b.stride (.ofList outer) i q) := by
  obtain ⟨size, lower, stride⟩ := b
  cases stride with
  | none =>
      simp only [scaledIndex, Except.ok.injEq] at h
      exact ⟨fun q hq => Option.some.inj (h.trans hq), by simp [← h]⟩
  | some st => exact Stride.quotient?_eq_ok h

/-- An index with a quotient is scaled to it, if nothing overflows on the way. -/
theorem scaledIndex_of_isQuotient {b : Bound} {outer : List Int} {i q : Int}
    (hstep : ∀ st, b.stride = some st → 1 < st.step) (heval : b.Evaluates outer i)
    (h : Stride.IsQuotient b.stride (.ofList outer) i q) :
    b.scaledIndex outer i = .ok (some q) := by
  obtain ⟨size, lower, stride⟩ := b
  cases stride with
  | none => exact congrArg (fun k => Except.ok (some k)) h
  | some st =>
      obtain ⟨v, hv, hsum⟩ := heval.shift st rfl
      obtain rfl := Affine.eval_eq_ok hv
      have hpos : 0 < st.step := by
        have := hstep st rfl
        omega
      have hmul : i + st.shift.value (.ofList outer) = st.step * q := h
      have hrange : Word.fits q = true := by
        have hquotient := Word.fits_fdiv hpos (hmul ▸ hsum)
        rwa [Int.mul_fdiv_cancel_left _ hpos.ne'] at hquotient
      simp only [scaledIndex, Stride.quotient?, Outcome.bind_eq_ok, Outcome.orOverflow_eq_ok,
        Outcome.orFault_eq_ok, Word.add?_eq_some, Word.rem?, Word.div?, Option.map_eq_some_iff,
        if_neg hpos.ne', Word.check_eq_some_iff]
      refine ⟨_, hv, _, ⟨hsum, rfl⟩, 0, ⟨q, ?_⟩, ?_⟩ <;> rw [hmul]
      · rw [Int.mul_tdiv_cancel_left _ hpos.ne', Int.mul_tmod_right]
        exact ⟨⟨hrange, rfl⟩, rfl⟩
      · simp only [if_true, Int.mul_tdiv_cancel_left _ hpos.ne', Outcome.bind_eq_ok,
          Outcome.orFault_eq_ok, Word.check_eq_some_iff, Outcome.pure_eq_ok]
        exact ⟨q, ⟨hrange, rfl⟩, rfl⟩

/-- Only the values before `x` matter to a bound. -/
theorem Admits.congr {b : Bound} {x : Nat} {w w' : Valuation} {i : Int} (hb : b.Regular x)
    (hw : ∀ k, k < x → w k = w' k) (h : b.Admits w i) : b.Admits w' i := by
  obtain ⟨q, hq, hrange⟩ := h
  have hform : b.lower.form.value w = b.lower.form.value w' := Affine.value_congr fun k hk =>
    hw k (Nat.lt_of_not_le fun hle => hk (hb.form k hle))
  have hlower : b.lower.value w = b.lower.value w' := by
    rw [LowerBound.value, hform, LowerBound.value]
  exact ⟨q, hq.congr hb.stride hw, hlower ▸ hrange⟩

end Bound

namespace Tiling

/-- The dimension of a tiling that belongs to a bound. -/
def Dim.ofBound (b : Bound) : Dim := ⟨b.stride, b.lower⟩

theorem Dim.apply_ofBound (b : Bound) (outer : List Int) (i : Int) :
    (ofBound b).apply outer i = b.scaledIndex outer i >>= fun
      | none => pure none
      | some q => do return some (← .orOverflow (Word.sub? q (← b.lower.eval outer))) := by
  obtain ⟨size, lower, stride⟩ := b
  cases stride <;> rfl

/-- What a dimension computes is the exact quotient less the exact lower bound, and
it leaves out only what has no quotient. -/
theorem Dim.apply_eq_ok {b : Bound} {outer : List Int} {i : Int} {r : Option Int}
    (h : (ofBound b).apply outer i = .ok r) :
    (∀ k, r = some k →
      Stride.IsQuotient b.stride (.ofList outer) i (k + b.lower.value (.ofList outer))) ∧
      (r = none → ∀ q, ¬ Stride.IsQuotient b.stride (.ofList outer) i q) := by
  simp only [apply_ofBound, Outcome.bind_eq_ok] at h
  obtain ⟨o, ho, h⟩ := h
  obtain ⟨hsome, hnone⟩ := Bound.scaledIndex_eq_ok ho
  cases o with
  | none =>
      simp only [Outcome.pure_eq_ok] at h
      exact ⟨by simp [← h], fun _ => hnone rfl⟩
  | some q =>
      simp only [Outcome.bind_eq_ok, Outcome.orOverflow_eq_ok, Word.sub?_eq_some,
        Outcome.pure_eq_ok] at h
      obtain ⟨v, hv, _, ⟨-, rfl⟩, rfl⟩ := h
      obtain rfl := LowerBound.eval_eq_ok hv
      refine ⟨fun k hk => ?_, by simp⟩
      have hsum : k + b.lower.value (.ofList outer) = q := by
        have := Option.some.inj hk
        omega
      exact hsum ▸ hsome q rfl

/-- An admitted index has a local coordinate within the size. -/
theorem Dim.apply_of_admits {b : Bound} {x : Nat} {outer : List Int} {i : Int} {r : Option Int}
    (hb : b.Regular x) (hi : b.Admits (.ofList outer) i) (h : (ofBound b).apply outer i = .ok r) :
    ∃ k, r = some k ∧ 0 ≤ k ∧ k < b.size := by
  obtain ⟨q, hq, hlow, hhigh⟩ := hi
  obtain ⟨hsome, hnone⟩ := apply_eq_ok h
  cases r with
  | none => exact absurd hq (hnone rfl q)
  | some k =>
      have hk := (hsome k rfl).unique (fun st hst => (hb.stride st hst).1) hq
      exact ⟨k, rfl, by omega, by omega⟩

/-- An admitted index has a local coordinate if the forms can be evaluated: the
coordinate itself is always a word. -/
theorem Dim.exists_apply {b : Bound} {x : Nat} {outer : List Int} {i : Int} (hb : b.Regular x)
    (hi : b.Admits (.ofList outer) i) (heval : b.Evaluates outer i) :
    ∃ r, (ofBound b).apply outer i = .ok r := by
  obtain ⟨q, hq, hlow, hhigh⟩ := hi
  obtain ⟨v, hv, hfits, hneg⟩ := heval.form
  have hscaled := Bound.scaledIndex_of_isQuotient (fun st hst => (hb.stride st hst).1) heval hq
  have hlower := LowerBound.eval_of_fits hb.denom hv hfits hneg
  have hlocal : Word.fits (q - b.lower.value (.ofList outer)) = true :=
    Word.fits_of_between hb.size (by omega)
  refine ⟨some (q - b.lower.value (.ofList outer)), ?_⟩
  rw [apply_ofBound, Outcome.bind_eq_ok]
  refine ⟨_, hscaled, ?_⟩
  simp only [Outcome.bind_eq_ok, Outcome.orOverflow_eq_ok, Word.sub?_eq_some, Outcome.pure_eq_ok]
  exact ⟨_, hlower, _, ⟨hlocal, rfl⟩, rfl⟩

/-! ## all dimensions -/

/-- Indices within the bounds are mapped into the tile. -/
theorem applyDims_of_admits {bs : List Bound} {x : Nat} {outer is : List Int}
    {r : Option (List Int)} (hbs : ∀ b ∈ bs, b.Regular x)
    (his : List.Forall₂ (fun b i => b.Admits (.ofList outer) i) bs is)
    (h : applyDims outer (bs.map Dim.ofBound) is = .ok r) :
    ∃ ks, r = some ks ∧ List.Forall₂ (fun b k => 0 ≤ k ∧ k < b.size) bs ks := by
  induction his generalizing r with
  | nil =>
      simp only [List.map_nil, applyDims, Except.ok.injEq] at h
      exact ⟨[], h.symm, .nil⟩
  | cons hi _ ih =>
      obtain ⟨hb, hbs⟩ := List.forall_mem_cons.mp hbs
      simp only [List.map_cons, applyDims, Outcome.bind_eq_ok] at h
      obtain ⟨o, ho, h⟩ := h
      obtain ⟨k, rfl, hk⟩ := Dim.apply_of_admits hb hi ho
      simp only [Outcome.bind_eq_ok, Outcome.pure_eq_ok] at h
      obtain ⟨rest, hrest, rfl⟩ := h
      obtain ⟨ks, rfl, hks⟩ := ih hbs hrest
      exact ⟨k :: ks, rfl, .cons hk hks⟩

/-- Indices within the bounds are mapped, if nothing overflows on the way. -/
theorem exists_applyDims {bs : List Bound} {x : Nat} {outer is : List Int}
    (hbs : ∀ b ∈ bs, b.Regular x) (his : List.Forall₂ (fun b i => b.Admits (.ofList outer) i) bs is)
    (heval : List.Forall₂ (fun b i => b.Evaluates outer i) bs is) :
    ∃ r, applyDims outer (bs.map Dim.ofBound) is = .ok r := by
  induction his with
  | nil => exact ⟨some [], rfl⟩
  | cons hi _ ih =>
      obtain ⟨hb, hbs⟩ := List.forall_mem_cons.mp hbs
      obtain ⟨heval₁, heval⟩ := List.forall₂_cons.mp heval
      obtain ⟨o, ho⟩ := Dim.exists_apply hb hi heval₁
      obtain ⟨k, rfl, -⟩ := Dim.apply_of_admits hb hi ho
      obtain ⟨rest, hrest⟩ := ih hbs heval
      refine ⟨rest.map (k :: ·), ?_⟩
      rw [List.map_cons, applyDims, Outcome.bind_eq_ok]
      refine ⟨some k, ho, ?_⟩
      simp only [Outcome.bind_eq_ok, Outcome.pure_eq_ok]
      exact ⟨rest, hrest, rfl⟩

theorem applyDims_cons_eq_ok {d : Dim} {ds : List Dim} {outer is ks : List Int} {i : Int}
    (h : applyDims outer (d :: ds) (i :: is) = .ok (some ks)) :
    ∃ k rest, ks = k :: rest ∧ d.apply outer i = .ok (some k) ∧
      applyDims outer ds is = .ok (some rest) := by
  simp only [applyDims, Outcome.bind_eq_ok] at h
  obtain ⟨o, ho, h⟩ := h
  cases o with
  | none => simp at h
  | some k =>
      simp only [Outcome.bind_eq_ok, Outcome.pure_eq_ok, Option.map_eq_some_iff] at h
      obtain ⟨_, hrest, rest, rfl, rfl⟩ := h
      exact ⟨k, rest, rfl, ho, hrest⟩

/-- Elements with the same local coordinates are equal. -/
theorem applyDims_injective {bs : List Bound} {outer is js ks : List Int}
    (his : is.length = bs.length) (hjs : js.length = bs.length)
    (hi : applyDims outer (bs.map Dim.ofBound) is = .ok (some ks))
    (hj : applyDims outer (bs.map Dim.ofBound) js = .ok (some ks)) : is = js := by
  induction bs generalizing is js ks with
  | nil => rw [List.length_eq_zero_iff.mp his, List.length_eq_zero_iff.mp hjs]
  | cons b bs ih =>
      cases is with
      | nil => simp at his
      | cons i is =>
          cases js with
          | nil => simp at hjs
          | cons j js =>
              obtain ⟨k, rest, rfl, hik, hi⟩ := applyDims_cons_eq_ok hi
              obtain ⟨_, _, heq, hjk, hj⟩ := applyDims_cons_eq_ok hj
              obtain ⟨rfl, rfl⟩ := List.cons.inj heq
              have hhead := ((Dim.apply_eq_ok hik).1 k rfl).index_unique
                ((Dim.apply_eq_ok hjk).1 k rfl)
              rw [hhead, ih (by simpa using his) (by simpa using hjs) hi hj]

end Tiling

namespace Tile

/-- Each bound of a tile is inferred for its output alone. -/
theorem inferBounds_eq_ok {a : Access} {ds : List Nat} {bs : List Bound}
    (h : inferBounds a ds = .ok (some bs)) :
    List.Forall₂ (fun d b => ∃ s, a.selectOut d = .ok s ∧ Bound.infer s = .ok (some b)) ds bs := by
  induction ds generalizing bs with
  | nil =>
      simp only [inferBounds, Except.ok.injEq, Option.some.injEq] at h
      exact h ▸ .nil
  | cons d ds ih =>
      simp only [inferBounds, Outcome.bind_eq_ok] at h
      obtain ⟨s, hs, o, ho, h⟩ := h
      cases o with
      | none => simp at h
      | some b =>
          simp only [Outcome.bind_eq_ok, Outcome.pure_eq_ok, Option.map_eq_some_iff] at h
          obtain ⟨_, hrest, rest, rfl, rfl⟩ := h
          exact .cons ⟨s, hs, ho⟩ (ih hrest)

/-- Each bound of a tile admits the index of its dimension at every point of the
access. -/
theorem admits_of_infer? {a : Access} {t : Tile} (ha : a.WellFormed) (h : infer? a = .ok (some t)) :
    List.Forall₂ (fun d b => b.Regular (a.nParam + a.nIn) ∧ ∀ p ∈ a.pieces, ∀ w,
      p.relation.Holds w →
      b.Admits w (w (a.nParam + a.nIn + d))) (List.range a.nOut) t.bounds := by
  simp only [infer?, Outcome.bind_eq_ok, Outcome.pure_eq_ok, Option.map_eq_some_iff] at h
  obtain ⟨_, hbs, bs, rfl, rfl⟩ := h
  have hrange : ∀ d ∈ List.range a.nOut, d < a.nOut := fun d hd => List.mem_range.mp hd
  refine ((List.forall₂_and_left _ _).mpr ⟨hrange, inferBounds_eq_ok hbs⟩).imp ?_
  rintro d b ⟨hd, s, hs, hinfer⟩
  obtain ⟨hwf, hparam, hin, -, hpoint⟩ := Access.selectOut_eq_ok ha hd hs
  obtain ⟨hregular, hadmits⟩ := Bound.admits_of_infer hwf hinfer
  rw [hparam, hin] at hregular hadmits
  refine ⟨hregular, fun p hp w hw => ?_⟩
  obtain ⟨q, hq, w', hw', hbefore, hat⟩ := hpoint p hp w hw
  exact hat ▸ (hadmits q hq w' hw').congr hregular hbefore

/-- An inferred tile holds every accessed element.  At each point of the access
the tiling takes the element to coordinates inside the box, or fails because
a form has no value within the words; it never leaves the element out.  At fixed outer
values no two elements share their coordinates. -/
theorem accessed_elements_in_box {a : Access} {t : Tile} (ha : a.WellFormed)
    (h : infer? a = .ok (some t)) (name : String) :
    (∀ b ∈ t.bounds, 0 < b.lower.denom ∧ ∀ st, b.stride = some st → 1 < st.step) ∧
    (∀ p ∈ a.pieces, ∀ params ins outs exs : List Int,
      params.length = a.nParam → ins.length = a.nIn → outs.length = a.nOut →
      p.relation.Holds (.ofList (params ++ ins ++ outs ++ exs)) →
        List.Forall₂ (fun b i => b.Admits (.ofList (params ++ ins)) i) t.bounds outs ∧
        (∀ r, (t.tiling name).apply (params ++ ins) outs = .ok r →
          ∃ ks, r = some ks ∧ List.Forall₂ (fun b k => 0 ≤ k ∧ k < b.size) t.bounds ks) ∧
        (List.Forall₂ (fun b i => b.Evaluates (params ++ ins) i) t.bounds outs →
          ∃ r, (t.tiling name).apply (params ++ ins) outs = .ok r)) ∧
    ∀ outer is js ks : List Int, is.length = a.nOut → js.length = a.nOut →
      (t.tiling name).apply outer is = .ok (some ks) →
      (t.tiling name).apply outer js = .ok (some ks) → is = js := by
  have hadmits := admits_of_infer? ha h
  have hlength : t.bounds.length = a.nOut := by
    rw [← hadmits.length_eq, List.length_range]
  have hregular : ∀ b ∈ t.bounds, b.Regular (a.nParam + a.nIn) := fun b hb => by
    obtain ⟨d, -, hd⟩ := hadmits.exists_of_mem_right hb
    exact hd.1
  refine ⟨fun b hb => ⟨(hregular b hb).denom, fun st hst => ((hregular b hb).stride st hst).1⟩, ?_,
    ?_⟩
  · intro p hp params ins outs exs hparams hins houts hw
    have hlen : (params ++ ins).length = a.nParam + a.nIn := by
      rw [List.length_append, hparams, hins]
    have houter : ∀ k, k < a.nParam + a.nIn →
        Valuation.ofList (params ++ ins ++ outs ++ exs) k = Valuation.ofList (params ++ ins) k := by
      intro k hk
      rw [List.append_assoc, Valuation.ofList_append_left (hlen ▸ hk)]
    have helement : outs = (List.range a.nOut).map fun d =>
        Valuation.ofList (params ++ ins ++ outs ++ exs) (a.nParam + a.nIn + d) := by
      refine List.ext_getElem (by simpa using houts) fun d hd _ => ?_
      rw [List.getElem_map, List.getElem_range, List.append_assoc, ← hlen,
        Valuation.ofList_append_right, Valuation.ofList_append_left hd, Valuation.ofList,
        List.getD_eq_getElem _ _ hd]
    have hindices : List.Forall₂ (fun b i => b.Admits (.ofList (params ++ ins)) i)
        t.bounds outs := by
      rw [helement, List.forall₂_map_right_iff]
      exact hadmits.flip.imp fun b d hb => (hb.2 p hp _ hw).congr hb.1 houter
    exact ⟨hindices, fun r hr => Tiling.applyDims_of_admits hregular hindices hr,
      Tiling.exists_applyDims hregular hindices⟩
  · intro outer is js ks his hjs hi hj
    exact Tiling.applyDims_injective (his.trans hlength.symm) (hjs.trans hlength.symm) hi hj

/-- An access to two indices `x = 2·e + 1` and `y` at the outer coordinate `i`, with
`4·i ≤ e ≤ 4·i + 3` and `i ≤ 3·y ≤ i + 5`. -/
def sparseAccess : Access :=
  ⟨1, 1, 2, [⟨0, 5, [.eq ⟨[0, 0, 1, 0, -2], -1⟩, .ge ⟨[0, -4, 0, 0, 1], 0⟩,
    .ge ⟨[0, 4, 0, 0, -1], 3⟩, .ge ⟨[0, -1, 0, 3, 0], 0⟩, .ge ⟨[0, 1, 0, -3, 0], 5⟩], false⟩]⟩

/-- A box of four by two: `x` has stride two, `y` the bound `⌈i / 3⌉`. -/
def sparseTile : Tile :=
  ⟨[⟨4, ⟨⟨[0, 4], 1⟩, 1⟩, some ⟨2, ⟨[], 1⟩⟩⟩, ⟨2, ⟨⟨[0, 1], 0⟩, 3⟩, none⟩], 1, 1⟩

theorem sparseTile_holds_element :
    sparseAccess.WellFormed ∧ infer? sparseAccess = .ok (some sparseTile) ∧
      ∃ ks, (sparseTile.tiling "local").apply [0, 7] [59, 3] = .ok (some ks) ∧
        List.Forall₂ (fun b k => 0 ≤ k ∧ k < b.size) sparseTile.bounds ks := by
  have hwf : sparseAccess.WellFormed := by decide
  have hinfer : infer? sparseAccess = .ok (some sparseTile) := by decide +kernel
  have hpiece := (accessed_elements_in_box hwf hinfer "local").2.1 _ (List.mem_singleton_self _) [0]
    [7] [59, 3] [29]
    rfl rfl rfl (by decide)
  have happly : (sparseTile.tiling "local").apply [0, 7] [59, 3] = .ok (some [1, 0]) := by
    decide +kernel
  obtain ⟨ks, hks, hbox⟩ := hpiece.2.1 _ happly
  exact ⟨hwf, hinfer, ks, hks ▸ happly, hbox⟩

end Tile

end KernelMap
