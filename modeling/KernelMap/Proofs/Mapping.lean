import KernelMap.Proofs.Share
import Mathlib.Data.List.Lex

/-!
# KernelMap.Proofs.Mapping

The exact map from schedule vectors to kernel coordinates.

All statements of a kernel share one `Mapping`: the band coordinates are cut
into tiles, tiles are dealt out to blocks, the points of a tile to threads, and the
tile loops are scaled.  The map loses nothing (`Mapping.coords_inj`), and it keeps the
order of vectors that agree on the coordinates that are dealt out
(`Mapping.coords_lt_of_band`, `Mapping.coords_lt_of_host`).
-/

namespace KernelMap

/-! ## lexicographic order -/

namespace Lexicographic

variable {l l' a b c : List Int}

/-- Lists are in order if parts of the same length are. -/
theorem append_lt_append (h : l < l') (hlen : l.length = l'.length) : l ++ a < l' ++ b := by
  induction l generalizing l' with
  | nil =>
      rw [List.length_eq_zero_iff.mp hlen.symm] at h
      exact absurd h (List.not_lt_nil _)
  | cons x l ih =>
      cases l' with
      | nil => simp at hlen
      | cons y l' =>
          rw [List.cons_append, List.cons_append, List.cons_lt_cons_iff]
          refine (List.cons_lt_cons_iff.mp h).imp_right fun hrest =>
            ⟨hrest.1, ih hrest.2 (by simpa using hlen)⟩

/-- A common part in front does not matter for the order. -/
theorem append_lt_append_iff : a ++ b < a ++ c ↔ b < c := by
  induction a with
  | nil => rfl
  | cons x a ih => rw [List.cons_append, List.cons_append, List.cons_lt_cons_iff]; simp [ih]

/-- Lists that are ordered entry by entry are equal or ordered. -/
theorem eq_or_lt_of_forall₂ (h : List.Forall₂ (· ≤ ·) l l') : l = l' ∨ l < l' := by
  induction h with
  | nil => exact Or.inl rfl
  | @cons x y l l' hxy _ ih =>
      rcases hxy.lt_or_eq with hlt | rfl
      · exact Or.inr (List.cons_lt_cons_iff.mpr (Or.inl hlt))
      · rcases ih with rfl | hlt
        · exact Or.inl rfl
        · exact Or.inr (List.cons_lt_cons_iff.mpr (Or.inr ⟨rfl, hlt⟩))

end Lexicographic

/-! ## parts of lists -/

namespace Share

variable {shares : List Share} {vs vs' : List Int}

/-- Only as many coordinates as there are shares matter to the units. -/
theorem units_congr {n : Nat} (hn : shares.length ≤ n) (h : vs.take n = vs'.take n) :
    List.zipWith unit shares vs = List.zipWith unit shares vs' := by
  induction shares generalizing vs vs' n with
  | nil => simp
  | cons share shares ih =>
      obtain ⟨k, rfl⟩ : ∃ k, n = k + 1 := ⟨n - 1, by simp at hn; omega⟩
      cases vs with
      | nil =>
          cases vs' with
          | nil => rfl
          | cons v' vs' => simp at h
      | cons v vs =>
          cases vs' with
          | nil => simp at h
          | cons v' vs' =>
              simp only [List.take_succ_cons, List.cons.injEq] at h
              rw [List.zipWith_cons_cons, List.zipWith_cons_cons, h.1, ih (by simpa using hn) h.2]

/-- Greater values of the same units have greater steps. -/
theorem loops_le (hle : List.Forall₂ (· ≤ ·) vs vs')
    (h : vs.take shares.length = vs'.take shares.length) :
    List.Forall₂ (· ≤ ·) (loops shares vs) (loops shares vs') := by
  induction shares generalizing vs vs' with
  | nil => exact hle
  | cons share shares ih =>
      cases hle with
      | nil => exact .nil
      | cons hv hle =>
          simp only [List.length_cons, List.take_succ_cons, List.cons.injEq] at h
          exact .cons (h.1 ▸ le_rfl) (ih hle h.2)

end Share

/-- How the schedule vectors of a kernel become kernel coordinates. -/
structure Mapping where
  tileFirst : Nat
  tileSizes : List Int
  /-- How tiles are dealt out to blocks. -/
  grid : List Share
  /-- How the points of a tile are dealt out to threads. -/
  block : List Share
  /-- The factors of the tile loops. -/
  factors : List Int
  tileSizes_pos : ∀ t ∈ tileSizes, 0 < t
  factors_pos : ∀ f ∈ factors, 0 < f
  length_factors : factors.length = tileSizes.length
  length_grid : grid.length ≤ tileSizes.length
  length_block : block.length ≤ tileSizes.length

namespace Mapping

variable (m : Mapping)

/-! ## coordinates -/

/-- The coordinates of the band. -/
def band (v : List Int) : List Int := (v.drop m.tileFirst).take m.tileSizes.length

/-- The tile of each band coordinate. -/
def outer (v : List Int) : List Int := List.zipWith (fun t x => x.fdiv t) m.tileSizes (m.band v)

/-- The place of each band coordinate in its tile. -/
def inner (v : List Int) : List Int := List.zipWith (fun t x => x.fmod t) m.tileSizes (m.band v)

def blocks (v : List Int) : List Int := List.zipWith Share.unit m.grid (m.outer v)

def loops (v : List Int) : List Int :=
  List.zipWith (· * ·) m.factors (Share.loops m.grid (m.outer v))

def threads (v : List Int) : List Int := List.zipWith Share.unit m.block (m.inner v)

def points (v : List Int) : List Int := Share.loops m.block (m.inner v)

/-- The coordinates after the band. -/
def post (v : List Int) : List Int := v.drop (m.tileFirst + m.tileSizes.length)

/-- The block ids, then the thread ids. -/
def ids (v : List Int) : List Int := m.blocks v ++ m.threads v

/-- The kernel coordinates. -/
def coords (v : List Int) : List Int :=
  v.take m.tileFirst ++ m.blocks v ++ m.loops v ++ m.threads v ++ m.points v ++ m.post v

/-- The vector has coordinates for the host and the band. -/
def Fits (v : List Int) : Prop := m.tileFirst + m.tileSizes.length ≤ v.length

variable {m} {v v' : List Int}

theorem length_host (hv : m.Fits v) : (v.take m.tileFirst).length = m.tileFirst := by
  rw [Fits] at hv
  rw [List.length_take]
  omega

/-- The band has a value for each tile size. -/
theorem length_band (hv : m.Fits v) : (m.band v).length = m.tileSizes.length := by
  rw [Fits] at hv
  rw [band, List.length_take, List.length_drop]
  omega

theorem length_outer (hv : m.Fits v) : (m.outer v).length = m.tileSizes.length := by
  rw [outer, List.length_zipWith, length_band hv, Nat.min_self]

theorem length_inner (hv : m.Fits v) : (m.inner v).length = m.tileSizes.length := by
  rw [inner, List.length_zipWith, length_band hv, Nat.min_self]

theorem length_blocks (hv : m.Fits v) : (m.blocks v).length = m.grid.length := by
  rw [blocks, List.length_zipWith, length_outer hv]
  exact Nat.min_eq_left m.length_grid

/-- There is a tile loop for each tile size. -/
theorem length_loops (hv : m.Fits v) : (m.loops v).length = m.tileSizes.length := by
  rw [loops, List.length_zipWith, Share.length_loops, length_outer hv,
    m.length_factors, Nat.min_self]

theorem length_threads (hv : m.Fits v) : (m.threads v).length = m.block.length := by
  rw [threads, List.length_zipWith, length_inner hv]
  exact Nat.min_eq_left m.length_block

theorem length_points (hv : m.Fits v) : (m.points v).length = m.tileSizes.length := by
  rw [points, Share.length_loops, length_inner hv]

/-- A schedule vector is its host part, its band and the rest. -/
theorem host_append_band_append_post (v : List Int) :
    v = v.take m.tileFirst ++ (m.band v ++ m.post v) := by
  rw [band, post, ← List.drop_drop, List.take_append_drop, List.take_append_drop]

/-! ## nothing is lost -/

/-- Scaling by positive factors loses nothing. -/
theorem eq_of_zipWith_mul {fs us us' : List Int} (hfs : ∀ f ∈ fs, 0 < f)
    (hlen : us.length = fs.length) (hlen' : us'.length = fs.length)
    (h : List.zipWith (· * ·) fs us = List.zipWith (· * ·) fs us') : us = us' := by
  induction fs generalizing us us' with
  | nil => rw [List.length_eq_zero_iff.mp hlen, List.length_eq_zero_iff.mp hlen']
  | cons f fs ih =>
      cases us with
      | nil => simp at hlen
      | cons u us =>
          cases us' with
          | nil => simp at hlen'
          | cons u' us' =>
              obtain ⟨hf, hfs⟩ := List.forall_mem_cons.mp hfs
              obtain ⟨hhead, htail⟩ := List.cons.inj h
              rw [Int.eq_of_mul_eq_mul_left hf.ne' hhead,
                ih hfs (by simpa using hlen) (by simpa using hlen') htail]

/-- A value is determined by its tile and its place in there. -/
theorem eq_of_tiles {ts us us' : List Int} (hlen : us.length = ts.length)
    (hlen' : us'.length = ts.length)
    (hdiv : List.zipWith (fun t x => x.fdiv t) ts us = List.zipWith (fun t x => x.fdiv t) ts us')
    (hmod : List.zipWith (fun t x => x.fmod t) ts us = List.zipWith (fun t x => x.fmod t) ts us') :
    us = us' := by
  induction ts generalizing us us' with
  | nil => rw [List.length_eq_zero_iff.mp hlen, List.length_eq_zero_iff.mp hlen']
  | cons t ts ih =>
      cases us with
      | nil => simp at hlen
      | cons u us =>
          cases us' with
          | nil => simp at hlen'
          | cons u' us' =>
              obtain ⟨hq, hdiv⟩ := List.cons.inj hdiv
              obtain ⟨hr, hmod⟩ := List.cons.inj hmod
              have hu : u = u' := by
                dsimp only at hq hr
                rw [← Int.fmod_add_mul_fdiv u t, hq, hr, Int.fmod_add_mul_fdiv]
              rw [hu, ih (by simpa using hlen) (by simpa using hlen') hdiv hmod]

/-- Blocks and tile loops say which tile it is. -/
theorem outer_eq_of_loops (hv : m.Fits v) (hv' : m.Fits v') (hblocks : m.blocks v = m.blocks v')
    (hloops : m.loops v = m.loops v') : m.outer v = m.outer v' := by
  have hlen : ∀ {u}, m.Fits u →
      (Share.loops m.grid (m.outer u)).length = m.factors.length := fun hu => by
    rw [Share.length_loops, length_outer hu, m.length_factors]
  exact Share.eq_of_units_of_loops hblocks
    (eq_of_zipWith_mul m.factors_pos (hlen hv) (hlen hv') hloops)

/-- Threads and point loops say which point of the tile it is. -/
theorem inner_eq_of_points (hthreads : m.threads v = m.threads v')
    (hpoints : m.points v = m.points v') : m.inner v = m.inner v' :=
  Share.eq_of_units_of_loops hthreads hpoints

/-- The tile and the point in it say which values the band has. -/
theorem band_eq_of_parts (hv : m.Fits v) (hv' : m.Fits v') (houter : m.outer v = m.outer v')
    (hinner : m.inner v = m.inner v') : m.band v = m.band v' :=
  eq_of_tiles (length_band hv) (length_band hv') houter hinner

/-- Kernel coordinates are equal exactly if the schedule vectors are. -/
theorem coords_inj (hv : m.Fits v) (hv' : m.Fits v') : m.coords v = m.coords v' ↔ v = v' := by
  refine ⟨fun h => ?_, fun h => by rw [h]⟩
  simp only [coords, List.append_assoc] at h
  obtain ⟨hhost, h⟩ := List.append_inj h (by rw [length_host hv, length_host hv'])
  obtain ⟨hblocks, h⟩ := List.append_inj h (by rw [length_blocks hv, length_blocks hv'])
  obtain ⟨hloops, h⟩ := List.append_inj h (by rw [length_loops hv, length_loops hv'])
  obtain ⟨hthreads, h⟩ := List.append_inj h (by rw [length_threads hv, length_threads hv'])
  obtain ⟨hpoints, hpost⟩ := List.append_inj h (by rw [length_points hv, length_points hv'])
  have houter := outer_eq_of_loops hv hv' hblocks hloops
  have hband := band_eq_of_parts hv hv' houter (inner_eq_of_points hthreads hpoints)
  rw [host_append_band_append_post (m := m) v, hhost, hband, hpost, ← host_append_band_append_post]

/-! ## order -/

/-- What the host runs earlier comes first. -/
theorem coords_lt_of_host (hv : m.Fits v) (hv' : m.Fits v')
    (h : v.take m.tileFirst < v'.take m.tileFirst) : m.coords v < m.coords v' := by
  simp only [coords, List.append_assoc]
  exact Lexicographic.append_lt_append h (by rw [length_host hv, length_host hv'])

/-- Lists stay ordered under functions that are monotone. -/
theorem forall₂_zipWith {f : Int → Int → Int} {ts us us' : List Int}
    (hf : ∀ t ∈ ts, ∀ x y, x ≤ y → f t x ≤ f t y) (h : List.Forall₂ (· ≤ ·) us us') :
    List.Forall₂ (· ≤ ·) (List.zipWith f ts us) (List.zipWith f ts us') := by
  induction ts generalizing us us' with
  | nil => simp
  | cons t ts ih =>
      obtain ⟨ht, hts⟩ := List.forall_mem_cons.mp hf
      cases h with
      | nil => simp
      | cons hu h => exact .cons (ht _ _ hu) (ih hts h)

/-- Within one tile the places are ordered as the coordinates are. -/
theorem forall₂_fmod {ts us us' : List Int} (h : List.Forall₂ (· ≤ ·) us us')
    (hdiv : List.zipWith (fun t x => x.fdiv t) ts us = List.zipWith (fun t x => x.fdiv t) ts us') :
    List.Forall₂ (· ≤ ·) (List.zipWith (fun t x => x.fmod t) ts us)
      (List.zipWith (fun t x => x.fmod t) ts us') := by
  induction ts generalizing us us' with
  | nil => simp
  | cons t ts ih =>
      cases h with
      | nil => simp
      | @cons u u' us us' hu h =>
          simp only [List.zipWith_cons_cons, List.cons.injEq] at hdiv ⊢
          refine .cons ?_ (ih h hdiv.2)
          rw [Int.fmod_def, Int.fmod_def, hdiv.1]
          omega

/-- Greater values of the band are in later tiles. -/
theorem outer_le (h : List.Forall₂ (· ≤ ·) (m.band v) (m.band v')) :
    List.Forall₂ (· ≤ ·) (m.outer v) (m.outer v') := by
  refine forall₂_zipWith (fun t ht x y hxy => ?_) h
  have hpos := m.tileSizes_pos t ht
  rw [Int.fdiv_eq_ediv_of_nonneg _ hpos.le, Int.fdiv_eq_ediv_of_nonneg _ hpos.le]
  exact Int.ediv_le_ediv hpos hxy

/-- Vectors that agree on the host and on the members that are dealt out, and are
ordered on every member of the band, have the same ids and keep their order. -/
theorem coords_lt_of_band (hv : m.Fits v) (hv' : m.Fits v') (hlt : v < v')
    (hhost : v.take m.tileFirst = v'.take m.tileFirst)
    (hband : List.Forall₂ (· ≤ ·) (m.band v) (m.band v'))
    (hdealt : (m.band v).take (max m.grid.length m.block.length) =
      (m.band v').take (max m.grid.length m.block.length)) :
    m.ids v = m.ids v' ∧ m.coords v < m.coords v' := by
  have hfirst : ∀ n, n ≤ max m.grid.length m.block.length →
      (m.band v).take n = (m.band v').take n := by
    intro n hn
    rw [← Nat.min_eq_left hn, ← List.take_take, hdealt, List.take_take]
  have houter : (m.outer v).take m.grid.length = (m.outer v').take m.grid.length := by
    rw [outer, outer, List.take_zipWith, List.take_zipWith, hfirst _ (Nat.le_max_left ..)]
  have hinner : (m.inner v).take m.block.length = (m.inner v').take m.block.length := by
    rw [inner, inner, List.take_zipWith, List.take_zipWith, hfirst _ (Nat.le_max_right ..)]
  have hblocks : m.blocks v = m.blocks v' := Share.units_congr le_rfl houter
  have hthreads : m.threads v = m.threads v' := Share.units_congr le_rfl hinner
  refine ⟨by rw [ids, hblocks, hthreads, ids], ?_⟩
  have hloops : List.Forall₂ (· ≤ ·) (m.loops v) (m.loops v') :=
    forall₂_zipWith (fun f hf x y hxy => mul_le_mul_of_nonneg_left hxy (m.factors_pos f hf).le)
      (Share.loops_le (outer_le hband) houter)
  simp only [coords, List.append_assoc]
  rw [hhost, hblocks, hthreads, Lexicographic.append_lt_append_iff,
    Lexicographic.append_lt_append_iff]
  -- the first difference is in the tile loops, in the point loops, or after the band
  rcases Lexicographic.eq_or_lt_of_forall₂ hloops with heq | hless
  · have hsame := outer_eq_of_loops hv hv' hblocks heq
    have hpoints : List.Forall₂ (· ≤ ·) (m.points v) (m.points v') :=
      Share.loops_le (forall₂_fmod hband hsame) hinner
    rw [heq, Lexicographic.append_lt_append_iff, Lexicographic.append_lt_append_iff]
    rcases Lexicographic.eq_or_lt_of_forall₂ hpoints with heq | hless
    · have hbands := band_eq_of_parts hv hv' hsame (inner_eq_of_points hthreads heq)
      rw [host_append_band_append_post (m := m) v, host_append_band_append_post (m := m) v',
        hhost, hbands, Lexicographic.append_lt_append_iff,
        Lexicographic.append_lt_append_iff] at hlt
      rw [heq, Lexicographic.append_lt_append_iff]
      exact hlt
    · exact Lexicographic.append_lt_append hless (by rw [length_points hv, length_points hv'])
  · exact Lexicographic.append_lt_append hless (by rw [length_loops hv, length_loops hv'])

/-- Vectors that agree on the host and the band have the same ids and the same coordinates up to the
point loops, and keep their order. -/
theorem coords_lt_of_post (hv : m.Fits v) (hlt : v < v')
    (hbegin : v.take (m.tileFirst + m.tileSizes.length) =
      v'.take (m.tileFirst + m.tileSizes.length)) :
    m.ids v = m.ids v' ∧ m.coords v < m.coords v' ∧
      ∀ n, n = m.tileFirst + m.grid.length + m.tileSizes.length + m.block.length +
        m.tileSizes.length →
        (m.coords v).take n = (m.coords v').take n := by
  have hhost : v.take m.tileFirst = v'.take m.tileFirst := by
    rw [← Nat.min_eq_left (Nat.le_add_right m.tileFirst m.tileSizes.length), ← List.take_take,
      hbegin, List.take_take]
  have hband : m.band v = m.band v' := by
    rw [band, List.take_drop, hbegin, ← List.take_drop, band]
  have houter : m.outer v = m.outer v' := by rw [outer, hband, outer]
  have hinner : m.inner v = m.inner v' := by rw [inner, hband, inner]
  have hblocks : m.blocks v = m.blocks v' := by rw [blocks, houter, blocks]
  have hloops : m.loops v = m.loops v' := by rw [loops, houter, loops]
  have hthreads : m.threads v = m.threads v' := by rw [threads, hinner, threads]
  have hpoints : m.points v = m.points v' := by rw [points, hinner, points]
  have hcoords : m.coords v' =
      v.take m.tileFirst ++ m.blocks v ++ m.loops v ++ m.threads v ++ m.points v ++ m.post v' := by
    rw [coords, hhost, hblocks, hloops, hthreads, hpoints]
  refine ⟨by rw [ids, hblocks, hthreads, ids], ?_, fun n hn => ?_⟩
  · rw [host_append_band_append_post (m := m) v, host_append_band_append_post (m := m) v',
      hhost, hband, Lexicographic.append_lt_append_iff, Lexicographic.append_lt_append_iff] at hlt
    rw [hcoords, coords, Lexicographic.append_lt_append_iff]
    exact hlt
  · have hlen : (v.take m.tileFirst ++ m.blocks v ++ m.loops v ++
        m.threads v ++ m.points v).length = n := by
      simp only [List.length_append, length_host hv, length_blocks hv, length_loops hv,
        length_threads hv, length_points hv, hn]
    rw [hcoords, coords, ← hlen, List.take_left, List.take_left]

/-! ## special mappings -/

/-- The mapping that cuts tiles without dealing them out. -/
def tiling (tileFirst : Nat) (tileSizes : List Int) (hpos : ∀ t ∈ tileSizes, 0 < t) : Mapping where
  tileFirst
  tileSizes
  grid := []
  block := []
  factors := List.replicate tileSizes.length 1
  tileSizes_pos := hpos
  factors_pos _ hf := (List.eq_of_mem_replicate hf).symm ▸ Int.one_pos
  length_factors := List.length_replicate
  length_grid := Nat.zero_le _
  length_block := Nat.zero_le _

/-! ## scaled loops -/

/-- Tile loops that are not scaled are the steps dealt to the blocks. -/
theorem loops_of_unscaled (hv : m.Fits v)
    (hm : m.factors = List.replicate m.tileSizes.length 1) :
    m.loops v = Share.loops m.grid (m.outer v) := by
  have hlen : (Share.loops m.grid (m.outer v)).length = m.tileSizes.length := by
    rw [Share.length_loops, length_outer hv]
  rw [loops, hm, ← hlen]
  refine List.ext_getElem (by simp) fun i hi hi' => ?_
  simp

/-- The mapping with the tile loop of member `j` multiplied by `f`. -/
def scaleLoop (m : Mapping) (j : Nat) (f : Int) (hf : 0 < f) : Mapping :=
  { m with
    factors := m.factors.set j (f * m.factors.getD j 1)
    factors_pos := by
      intro x hx
      rcases List.mem_or_eq_of_mem_set hx with hx | rfl
      · exact m.factors_pos x hx
      · refine mul_pos hf ?_
        rw [List.getD_eq_getElem?_getD]
        cases hj : m.factors[j]? with
        | none => exact Int.one_pos
        | some g => exact m.factors_pos g (List.mem_of_getElem? hj)
    length_factors := by rw [List.length_set, m.length_factors] }

theorem zipWith_mul_set {fs us : List Int} {j : Nat} {x : Int} (f : Int)
    (hx : (List.zipWith (· * ·) fs us)[j]? = some x) :
    List.zipWith (· * ·) (fs.set j (f * fs.getD j 1)) us =
      (List.zipWith (· * ·) fs us).set j (f * x) := by
  induction fs generalizing us j with
  | nil => simp at hx
  | cons g fs ih =>
      cases us with
      | nil => simp at hx
      | cons u us =>
          cases j with
          | zero =>
              simp only [List.zipWith_cons_cons, List.getElem?_cons_zero, Option.some.injEq] at hx
              simp only [List.getD_cons_zero, List.set_cons_zero, List.zipWith_cons_cons,
                ← hx, mul_assoc]
          | succ j =>
              simp only [List.zipWith_cons_cons, List.getElem?_cons_succ] at hx
              simp only [List.getD_cons_succ, List.set_cons_succ, List.zipWith_cons_cons, ih hx]

/-- The coordinates, cut before and after the tile loops. -/
theorem coords_eq_append_loops (v : List Int) : m.coords v =
    (v.take m.tileFirst ++ m.blocks v) ++
    (m.loops v ++ (m.threads v ++ m.points v ++ m.post v)) := by
  simp only [coords, List.append_assoc]

/-- The tile loops come after the host coordinates and the block ids. -/
theorem getElem?_coords_loop {j : Nat} (hv : m.Fits v) (hj : j < m.tileSizes.length) :
    (m.coords v)[m.tileFirst + m.grid.length + j]? = (m.loops v)[j]? := by
  have hlen : (v.take m.tileFirst ++ m.blocks v).length = m.tileFirst + m.grid.length := by
    rw [List.length_append, length_host hv, length_blocks hv]
  rw [coords_eq_append_loops, List.getElem?_append_right (by omega), hlen, Nat.add_sub_cancel_left,
    List.getElem?_append_left (by rwa [length_loops hv])]

/-- Scaling a tile loop changes one coordinate. -/
theorem coords_scaleLoop {j : Nat} {f x : Int} (hf : 0 < f) (hv : m.Fits v)
    (hj : j < m.tileSizes.length) (hx : (m.coords v)[m.tileFirst + m.grid.length + j]? = some x) :
    (m.scaleLoop j f hf).coords v = (m.coords v).set (m.tileFirst + m.grid.length + j) (f * x) := by
  have hlen : (v.take m.tileFirst ++ m.blocks v).length = m.tileFirst + m.grid.length := by
    rw [List.length_append, length_host hv, length_blocks hv]
  have hpos : j < (m.loops v).length := by rwa [length_loops hv]
  have hloop : (m.loops v)[j]? = some x := (getElem?_coords_loop hv hj).symm.trans hx
  have hscaled : (m.scaleLoop j f hf).coords v = (v.take m.tileFirst ++ m.blocks v) ++
      (List.zipWith (· * ·) (m.factors.set j (f * m.factors.getD j 1))
        (Share.loops m.grid (m.outer v)) ++
        (m.threads v ++ m.points v ++ m.post v)) := by
    simp only [coords, List.append_assoc]
    rfl
  rw [hscaled, coords_eq_append_loops, zipWith_mul_set f hloop,
    List.set_append_right _ _ (by omega), hlen, Nat.add_sub_cancel_left,
    List.set_append_left _ _ hpos]
  rfl

end Mapping

end KernelMap
