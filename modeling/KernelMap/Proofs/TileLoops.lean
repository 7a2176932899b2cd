import KernelMap.Proofs.Instances
import Mathlib.Tactic.LinearCombination

/-!
# KernelMap.Proofs.TileLoops

Counters of scaled tile loops.

A scaled tile loop counts elements.  For a member of the band that is not dealt out,
the counter and the place in the tile add up to the coordinate.  For a member whose tiles are
interleaved, the tiles of the blocks before come on top, but only if as many blocks are
launched as tiles are dealt out to: tiles are dealt out before launch sizes are reduced, and the
counter is scaled by the reduced size (`KernelSchedule.scaled_loops_count_elements`).
-/

namespace KernelMap

/-! ## one member of the band -/

/-- Each loop counts what its share leaves to it, or all if it is not dealt out. -/
theorem Share.getElem?_loops (shares : List Share) (vs : List Int) (j : Nat) :
    (loops shares vs)[j]? = vs[j]?.map fun v => shares[j]?.elim v (·.loop v) := by
  fun_induction loops shares vs generalizing j with
  | case1 share shares v vs ih =>
      cases j with
      | zero => rfl
      | succ j => simpa using ih j
  | case2 shares vs hnil =>
      cases shares with
      | nil => simp
      | cons share shares =>
          cases vs with
          | nil => simp
          | cons v vs => exact absurd rfl (hnil share shares v vs rfl)

namespace Mapping

variable {m : Mapping} {v : List Int} {j : Nat}

/-- A coordinate of the band lies in the tile that its tile size says. -/
theorem exists_outer {t : Int} (hv : m.Fits v) (ht : m.tileSizes[j]? = some t) :
    ∃ c, v[m.tileFirst + j]? = some c ∧ (m.outer v)[j]? = some (c.fdiv t) := by
  obtain ⟨hj, -⟩ := List.getElem?_eq_some_iff.mp ht
  rw [Fits] at hv
  have hlt : m.tileFirst + j < v.length := by omega
  have hband : (m.band v)[j]? = some v[m.tileFirst + j] := by
    rw [band, List.getElem?_take_of_lt hj, List.getElem?_drop, List.getElem?_eq_getElem hlt]
  refine ⟨v[m.tileFirst + j], List.getElem?_eq_getElem hlt, ?_⟩
  rw [outer, List.getElem?_zipWith, ht, hband]

/-- A tile loop counts its tiles or what its share leaves of them, in units of its factor. -/
theorem getElem?_loops {f u : Int} (hf : m.factors[j]? = some f) (hu : (m.outer v)[j]? = some u) :
    (m.loops v)[j]? = some (f * m.grid[j]?.elim u (·.loop u)) := by
  rw [loops, List.getElem?_zipWith, hf, Share.getElem?_loops, hu]
  rfl

/-- The id of a grid dimension is the one that its share gives the tile to. -/
theorem getElem?_ids {share : Share} {u : Int} (hv : m.Fits v) (hshare : m.grid[j]? = some share)
    (hu : (m.outer v)[j]? = some u) : (m.ids v)[j]? = some (share.unit u) := by
  obtain ⟨hj, -⟩ := List.getElem?_eq_some_iff.mp hshare
  rw [ids, List.getElem?_append_left (by rwa [length_blocks hv]), blocks,
    List.getElem?_zipWith, hshare, hu]

end Mapping

namespace KernelSchedule

variable {p : Program} {region : Region} {o : Options} {k : KernelSchedule} {params ids : List Int}
  {j : Nat}

/-! ## counters -/

/-- The counter of a scaled loop is a multiple of what dealing out leaves of the
tile, and the rest is the block id. -/
theorem exists_counter {numbers : List Nat} {m : Mapping} (hp : p.validate = .ok ())
    (hk : k.Realizes p numbers m) (hm : k.Obeys o m) (hscale : o.scaleTileLoops = true)
    (hparams : p.Admits params) (a : k.Instance p params) (hrun : a.RunsAt ids)
    (hj : j < k.tileLen) :
    ∃ c t f, a.time[k.tileFirst + j]? = some c ∧ k.tileSizes[j]? = some t ∧ 0 < t ∧
      k.tileFactor j t = .ok f ∧
      (a.coords ids)[k.tileLoopPos j]? = some (f * m.grid[j]?.elim (c.fdiv t) (·.loop (c.fdiv t))) ∧
      ∀ share, m.grid[j]? = some share → ids[j]? = some (share.unit (c.fdiv t)) := by
  obtain ⟨hfits, hruns, hcoords⟩ := hk.instance_eq hp hparams a
  obtain rfl := (hruns ids).mp hrun
  rw [hk.tileLen] at hj
  obtain ⟨t, ht⟩ : ∃ t, m.tileSizes[j]? = some t := ⟨_, List.getElem?_eq_getElem hj⟩
  obtain ⟨c, hc, houter⟩ := Mapping.exists_outer hfits ht
  have hpos := m.tileSizes_pos t (List.mem_of_getElem? ht)
  rw [← hk.tileSizes] at ht
  obtain ⟨f, hf, hfactor⟩ := hm.factors hscale j t ht
  refine ⟨c, t, f, hk.tileFirst ▸ hc, ht, hpos, hf, ?_, fun share hshare => ?_⟩
  · rw [hcoords, tileLoopPos, hk.tileFirst, hk.nGrid, Mapping.getElem?_coords_loop hfits hj,
      Mapping.getElem?_loops hfactor houter]
  · exact Mapping.getElem?_ids hfits hshare houter

/-- A loop that is not dealt out is scaled by the size of its tiles. -/
theorem tileFactor_of_le (hgrid : k.gridSizes.length = k.nGrid) (hj : k.nGrid ≤ j) (t : Int) :
    k.tileFactor j t = .ok t := by
  have hnone : k.gridSizes[j]? = none := List.getElem?_eq_none (hgrid ▸ hj)
  rw [tileFactor, hnone]
  cases k.gridMapping <;> rfl

/-- An interleaved loop is scaled by the size of its tiles and the number of blocks. -/
theorem tileFactor_wrap {t n f : Int} (hwrap : k.gridMapping = .wrap)
    (hn : k.gridSizes[j]? = some n) (h : k.tileFactor j t = .ok f) : f = t * n := by
  rw [tileFactor, hwrap, hn] at h
  simp only [Outcome.orOverflow_eq_ok, Word.mul?_eq_some] at h
  exact h.2.symm

/-- A loop over every `g`-th tile that counts `n` tiles for each step comes up to `n / g`
of the elements before the tiles of the step. -/
theorem mul_counter_eq (c t g n : Int) :
    g * (t * n * (c.fdiv t).fdiv g) = n * (c - t * (c.fdiv t).fmod g - c.fmod t) := by
  have hc := Int.fmod_add_mul_fdiv c t
  have hu := Int.fmod_add_mul_fdiv (c.fdiv t) g
  linear_combination n * hc + n * t * hu

/-- Counter, tiles of the blocks before and place in the tile add up to the coordinate exactly if
all blocks are launched or the counter is zero. -/
theorem eq_counter_iff {c t g n : Int} (hn : 0 < n) :
    c = t * n * (c.fdiv t).fdiv g + t * (c.fdiv t).fmod g + c.fmod t ↔
      n = g ∨ t * n * (c.fdiv t).fdiv g = 0 := by
  have hcounter := mul_counter_eq c t g n
  generalize hl : t * n * (c.fdiv t).fdiv g = l at hcounter ⊢
  constructor
  · intro hsum
    have hzero : (n - g) * l = 0 := by linear_combination -n * hsum - hcounter
    rcases mul_eq_zero.mp hzero with hsame | hl
    · exact Or.inl (by omega)
    · exact Or.inr hl
  · rintro (rfl | rfl)
    · have hsame := Int.eq_of_mul_eq_mul_left hn.ne' hcounter
      omega
    · have hzero : n * (c - t * (c.fdiv t).fmod g - c.fmod t) = 0 := by rw [← hcounter, mul_zero]
      have hnone := (mul_eq_zero.mp hzero).resolve_left hn.ne'
      omega

/-- Scaled tile loops count elements.  Where a member of the band is not dealt out,
the counter and the place in the tile add up to the coordinate.  Where its tiles are
interleaved over `g` blocks of which `n` are launched, the counter is `n / g` of the
elements before the tiles of its step: counter, tiles of the blocks before and place in
the tile add up to the coordinate exactly if all `g` blocks are launched or the counter is
zero. -/
theorem scaled_loops_count_elements (hp : p.validate = .ok ()) (ho : o.validate = .ok ())
    (hword : o.Representable) (hscale : o.scaleTileLoops = true) (hk : build p region o = .ok k)
    (hparams : p.Admits params) (a : k.Instance p params) (hrun : a.RunsAt ids)
    (hj : j < k.tileLen) : ∃ c t l, a.time[k.tileFirst + j]? = some c ∧ k.tileSizes[j]? = some t ∧
      (a.coords ids)[k.tileLoopPos j]? = some l ∧ (k.nGrid ≤ j → c = l + c % t) ∧
      (j < k.nGrid → k.gridMapping = .wrap → ∃ b g n, ids[j]? = some b ∧
        (outermostFirst k.nGrid o.gridSizes)[j]? = some g ∧ k.gridSizes[j]? = some n ∧ n ≤ g ∧
        g * l = n * (c - t * b - c % t) ∧ (c = l + t * b + c % t ↔ n = g ∨ l = 0)) := by
  obtain ⟨m, hm, hobeys⟩ := exists_obeys hp ho hword hk
  obtain ⟨c, t, f, hc, ht, htpos, hf, hloop, hunit⟩ :=
    exists_counter hp hm hobeys hscale hparams a hrun hj
  have hgridLen : k.gridSizes.length = k.nGrid := hm.gridSizes.trans hm.nGrid.symm
  refine ⟨c, t, _, hc, ht, hloop, fun hle => ?_, fun hlt hwrap => ?_⟩ <;>
    rw [← Int.fmod_eq_emod_of_nonneg c htpos.le]
  · obtain rfl : t = f := Except.ok.inj ((tileFactor_of_le hgridLen hle t).symm.trans hf)
    rw [List.getElem?_eq_none (hm.nGrid ▸ hle), Option.elim_none, Int.add_comm,
      Int.fmod_add_mul_fdiv]
  · have hlen : j < m.grid.length := hm.nGrid ▸ hlt
    rw [hobeys.grid hwrap, List.length_map] at hlen
    have hg := List.getElem?_eq_getElem hlen
    have hn := List.getElem?_eq_getElem (hgridLen ▸ hlt)
    have hshare : m.grid[j]? = some (.wrap (outermostFirst k.nGrid o.gridSizes)[j]) := by
      rw [hobeys.grid hwrap, List.getElem?_map, hg, Option.map_some]
    have hpos := hm.gridSizes_pos _ (List.mem_of_getElem? hn)
    obtain rfl := tileFactor_wrap hwrap hn hf
    rw [hshare]
    exact ⟨_, _, _, hunit _ hshare, hg, hn, hobeys.launch.get _ _, mul_counter_eq ..,
      eq_counter_iff hpos⟩

/-! ### a late start -/

/-- Elements `8` to `11` of the first loop, and a second loop without bounds. -/
def lateStatement : Statement :=
  ⟨"S", ["i", "j"], [.ge ⟨[1], -8⟩, .ge ⟨[-1], 11⟩], [.var 0, .var 1], []⟩

def lateProgram : Program := { Program.empty with statements := [lateStatement] }

def lateRegion : Region := ⟨[0], 0, 2, [true, false]⟩

/-- Tiles of two are dealt out to four blocks. -/
def lateOptions : Options :=
  { Options.default with tileSizes := [2, 3], gridSizes := [4], blockSizes := [1],
                         gridMapping := .wrap }

def lateStmtSchedule : StmtSchedule where
  stmt := 0
  nProgramParam := 0
  space := ⟨2, 2, [⟨⟨[0, 0, 1], 0⟩, 2⟩, ⟨⟨[0, 0, 0, 1], 0⟩, 3⟩, ⟨⟨[0, 0, 0, 0, 1], 0⟩, 4⟩]⟩
  constraints :=
    [.ge ⟨[0, 0, 1], -8⟩, .ge ⟨[0, 0, -1], 11⟩, .eq ⟨[1, 0, 0, 0, -1, 0, 4], 0⟩, .eq (.var 1)]
  dims := [.var 0, ⟨[0, 0, 0, 0, 0, 0, 4], 0⟩, ⟨[0, 0, 0, 0, 0, 3], 0⟩, .var 1,
    ⟨[0, 0, 1, 0, -2], 0⟩, ⟨[0, 0, 0, 1, 0, -3], 0⟩]

/-- The tiles `4` and `5` only occur in blocks `0` and `1`, so that two blocks are
launched. -/
def lateSchedule : KernelSchedule where
  paramNames := ["b0", "t0"]
  nProgramParam := 0
  context := [.ge (.var 0), .ge ⟨[-1], 1⟩, .ge (.var 1), .ge ⟨[0, -1], 0⟩]
  tileFirst := 0
  tileLen := 2
  nGrid := 1
  nBlock := 1
  tileSizes := [2, 3]
  gridSizes := [2]
  blockSizes := [1]
  gridMapping := .wrap
  threadMapping := .wrap
  levels := [.blockId, .tileLoop, .tileLoop, .threadId, .pointLoop, .pointLoop]
  coincident := [true, false]
  statements := [lateStmtSchedule]
  stage := .scaled

/-- Iteration `8, j`. -/
def lateInstance (j : Int) : lateSchedule.Instance lateProgram [] where
  schedule := lateStmtSchedule
  statement := lateStatement
  iteration := [8, j]
  mem_statements := List.mem_singleton_self _
  statement_eq := rfl
  isInstance := ⟨rfl, by simp [lateStatement, Affine.value_mk, Valuation.ofList]⟩

theorem lateInstance_runsAt (j : Int) : (lateInstance j).RunsAt [0, 0] := by
  refine ⟨.cons (by decide) (.cons (by decide) .nil), ?_⟩
  simp [lateInstance, lateStmtSchedule, lateSchedule, StmtSchedule.point, Space.point,
    Space.pointOnto, Affine.value_mk, Valuation.ofList]

theorem late_valid : lateProgram.validate = .ok () ∧ lateOptions.validate = .ok () ∧
    lateOptions.Representable ∧
    lateOptions.scaleTileLoops = true ∧ build lateProgram lateRegion lateOptions =
      .ok lateSchedule ∧
    lateProgram.Admits [] := by
  decide +kernel

theorem late_counts_elements :
    (lateProgram.validate = .ok () ∧ lateOptions.validate = .ok () ∧ lateOptions.Representable ∧
      lateOptions.scaleTileLoops = true ∧ build lateProgram lateRegion lateOptions =
        .ok lateSchedule ∧
      lateProgram.Admits [] ∧ (lateInstance 5).RunsAt [0, 0]) ∧
      ((lateInstance 5).coords [0, 0])[lateSchedule.tileLoopPos 1]? = some 3 ∧
      (5 : Int) = 3 + 5 % 3 := by
  obtain ⟨hp, ho, hword, hscale, hk, hparams⟩ := late_valid
  have hrun := lateInstance_runsAt 5
  obtain ⟨c, t, l, hc, ht, hl, hcount, -⟩ :=
    scaled_loops_count_elements hp ho hword hscale hk hparams (lateInstance 5) hrun
      (j := 1) (by decide)
  obtain rfl : 5 = c := Option.some.inj hc
  obtain rfl : 3 = t := Option.some.inj ht
  have hcount := hcount le_rfl
  obtain rfl : l = 3 := by omega
  exact ⟨⟨hp, ho, hword, hscale, hk, hparams, hrun⟩, hl, hcount⟩

/-- Element `8` is the first of tile `4`, which is the second tile of block `0`.  Its counter is
that of element `4`. -/
theorem late_start_is_not_counted :
    (lateProgram.validate = .ok () ∧ lateOptions.validate = .ok () ∧ lateOptions.Representable ∧
      lateOptions.scaleTileLoops = true ∧ build lateProgram lateRegion lateOptions =
        .ok lateSchedule ∧
      lateProgram.Admits [] ∧ (lateInstance 5).RunsAt [0, 0]) ∧
      0 < lateSchedule.nGrid ∧ lateSchedule.gridMapping = .wrap ∧
      (lateInstance 5).time[lateSchedule.tileFirst]? = some 8 ∧
      lateSchedule.tileSizes[0]? = some 2 ∧
      ((lateInstance 5).coords [0, 0])[lateSchedule.tileLoopPos 0]? = some 4 ∧
      (8 : Int) ≠ 4 + 2 * 0 + 8 % 2 := by
  obtain ⟨hp, ho, hword, hscale, hk, hparams⟩ := late_valid
  exact ⟨⟨hp, ho, hword, hscale, hk, hparams,
    lateInstance_runsAt 5⟩, by decide, rfl, by decide, rfl, by decide, by decide⟩

end KernelSchedule

end KernelMap
