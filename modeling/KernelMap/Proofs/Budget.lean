import KernelMap.Proofs.CompileCauses

/-!
# KernelMap.Proofs.Budget

Shared tiles stay within the memory of a block.

Groups are served in order, and a group in shared memory keeps its tile exactly if the tile fits
into what the groups before it have left (`Group.Serves`).  What is left is never negative, so no
partial sum of the bytes exceeds the budget.  The local copies of a kernel belong to the groups that
still have a tile, one to each (`Kernel.forall₂_of_localsOf`), so the bytes that a kernel asks for
are those of its groups.

Main statement: `Kernel.shared_memory_within_budget`.
-/

namespace KernelMap

namespace Group

variable {p : Program} {sc : Scope} {g g' : Group} {gs gs' : List Group} {left : Int}

/-! ## bytes of a group -/

/-- A group is in shared memory if it has a shared tile and no private one. -/
theorem memory_eq_shared_iff :
    g.memory = .shared ↔ g.privateTile = none ∧ ∃ tile, g.sharedTile = some tile := by
  unfold memory
  cases g.privateTile <;> cases g.sharedTile <;> simp

theorem isSome_tile? (g : Group) :
    g.tile?.isSome = (g.sharedTile.isSome || g.privateTile.isSome) := by
  unfold tile? memory
  cases g.privateTile <;> cases g.sharedTile <;> simp

/-- The bytes of shared memory that the group takes: those of its tile, if it lives there. -/
def sharedBytes (p : Program) (g : Group) : Int :=
  match g.memory, g.tile?, p.array? g.array with
  | .shared, some tile, some array => tile.footprint array.elementSize
  | _, _, _ => 0

/-- A group that is not in shared memory takes no bytes there. -/
theorem sharedBytes_of_ne (h : g.memory ≠ .shared) : sharedBytes p g = 0 := by
  unfold sharedBytes
  split <;> simp_all

/-- A group in shared memory takes the bytes of its tile. -/
theorem sharedBytes_of_tile {tile : Tile} {array : ArrayDecl} (h : g.memory = .shared)
    (htile : g.tile? = some tile) (harray : p.array? g.array = some array) :
    sharedBytes p g = tile.footprint array.elementSize := by
  rw [sharedBytes, h, htile, harray]

/-- All bytes of shared memory that the groups take. -/
def totalBytes (p : Program) (gs : List Group) : Int := (gs.map (sharedBytes p)).sum

@[simp] theorem totalBytes_nil : totalBytes p [] = 0 := rfl

@[simp] theorem totalBytes_cons : totalBytes p (g :: gs) = sharedBytes p g + totalBytes p gs := rfl

/-! ## serving groups in order -/

/-- The group as it is after it was served with `left` bytes: a group in shared memory that does not
fit has no shared tile any more, and others are as they were. -/
structure Serves (p : Program) (left : Int) (g g' : Group) : Prop where
  other : g.memory ≠ .shared → g' = g
  fits : g.memory = .shared → sharedBytes p g ≤ left → g' = g
  exceeds : g.memory = .shared → left < sharedBytes p g → g' = { g with sharedTile := none }

/-- A group without a shared tile takes no shared memory. -/
theorem sharedBytes_withoutShared (p : Program) (g : Group) :
    sharedBytes p { g with sharedTile := none } = 0 :=
  sharedBytes_of_ne (by simp [memory_eq_shared_iff])

/-- One group is served, the others with what it leaves. -/
theorem fitInto_cons (hleft : 0 ≤ left ∧ left ≤ Word.greatest)
    (h : fitInto sc left (g :: gs) = .ok gs') :
    ∃ g' rest, gs' = g' :: rest ∧ Serves sc.program left g g' ∧
      (g.memory = .shared → ∃ array, sc.program.array? g.array = some array) ∧
      (0 ≤ left - sharedBytes sc.program g' ∧ left - sharedBytes sc.program g' ≤ Word.greatest) ∧
      fitInto sc (left - sharedBytes sc.program g') gs = .ok rest := by
  simp only [fitInto] at h
  split at h
  · next tile hprivate hshared =>
    have hmemory : g.memory = .shared := memory_eq_shared_iff.mpr ⟨hprivate, tile, hshared⟩
    have htile : g.tile? = some tile := by rw [tile?, hmemory, hshared]
    simp only [Scope.array, Outcome.bind_eq_ok, Outcome.orRaise_eq_ok] at h
    obtain ⟨array, harray, h⟩ := h
    have hbytes := sharedBytes_of_tile hmemory htile harray
    rw [← hbytes] at h
    split at h
    · next hexceeds =>
      simp only [Outcome.bind_eq_ok, Outcome.pure_eq_ok] at h
      obtain ⟨rest, hrest, rfl⟩ := h
      refine ⟨_, rest, rfl, ⟨fun hne => absurd hmemory hne, fun _ hle => ?_, fun _ _ => rfl⟩,
        fun _ => ⟨array, harray⟩, ?_⟩
      · omega
      · rw [sharedBytes_withoutShared, Int.sub_zero]
        exact ⟨hleft, hrest⟩
    · next hfits =>
      simp only [Outcome.bind_eq_ok, Outcome.orFault_eq_ok, Outcome.pure_eq_ok,
        Word.sub?_eq_some] at h
      obtain ⟨_, ⟨hword, rfl⟩, rest, hrest, rfl⟩ := h
      have hle := (Word.fits_iff.mp hword).2
      refine ⟨g, rest, rfl, ⟨fun _ => rfl, fun _ _ => rfl, fun _ hlt => absurd hlt hfits⟩,
        fun _ => ⟨array, harray⟩, ?_⟩
      exact ⟨⟨by omega, hle⟩, hrest⟩
  · next hnot =>
    simp only [Outcome.bind_eq_ok, Outcome.pure_eq_ok] at h
    obtain ⟨rest, hrest, rfl⟩ := h
    have hmemory : g.memory ≠ .shared := by
      intro hmemory
      obtain ⟨hprivate, tile, hshared⟩ := memory_eq_shared_iff.mp hmemory
      exact hnot tile hprivate hshared
    refine ⟨g, rest, rfl, ⟨fun _ => rfl, fun _ _ => rfl, fun h => absurd h hmemory⟩,
      fun h => absurd h hmemory, ?_⟩
    rw [sharedBytes_of_ne hmemory, Int.sub_zero]
    exact ⟨hleft, hrest⟩

/-- What all groups have been served with, and what the groups before each have left. -/
structure ServesAll (p : Program) (left : Int) (gs gs' : List Group) : Prop where
  length : gs'.length = gs.length
  declared : ∀ g ∈ gs, g.memory = .shared → ∃ array, p.array? g.array = some array
  serves : ∀ i g g', gs[i]? = some g → gs'[i]? = some g' →
    Serves p (left - totalBytes p (gs'.take i)) g g'
  left_word : ∀ n, 0 ≤ left - totalBytes p (gs'.take n) ∧ left - totalBytes p (gs'.take n) ≤
    Word.greatest

/-- Fitting the groups into what is left serves them one after the other. -/
theorem servesAll_of_fitInto (hleft : 0 ≤ left ∧ left ≤ Word.greatest)
    (h : fitInto sc left gs = .ok gs') : ServesAll sc.program left gs gs' := by
  induction gs generalizing left gs' with
  | nil =>
      simp only [fitInto, Except.ok.injEq] at h
      subst h
      exact ⟨rfl, by simp, by simp, by simpa using hleft⟩
  | cons g gs ih =>
      obtain ⟨g', rest, rfl, hserves, hdeclared, hleft', hrest⟩ := fitInto_cons hleft h
      obtain ⟨hlength, hothers, hall, hword⟩ := ih hleft' hrest
      refine ⟨by simp [hlength], List.forall_mem_cons.mpr ⟨hdeclared,
        hothers⟩, fun i a a' ha ha' => ?_, fun n => ?_⟩
      · cases i with
        | zero =>
            simp only [List.getElem?_cons_zero, Option.some.injEq] at ha ha'
            rw [← ha, ← ha', List.take_zero, totalBytes_nil, Int.sub_zero]
            exact hserves
        | succ i =>
            simp only [List.getElem?_cons_succ] at ha ha'
            rw [List.take_succ_cons, totalBytes_cons, ← Int.sub_sub]
            exact hall i a a' ha ha'
      · cases n with
        | zero => simpa using hleft
        | succ n =>
            rw [List.take_succ_cons, totalBytes_cons, ← Int.sub_sub]
            exact hword n

/-- If the budget is a word, so are all partial sums of what is taken from it. -/
theorem ServesAll.fits_totalBytes (h : ServesAll p left gs gs')
    (hleft : 0 ≤ left ∧ left ≤ Word.greatest) (n : Nat) :
    Word.fits (totalBytes p (gs'.take n)) = true := by
  have hword := h.left_word n
  rw [Word.fits_iff]
  simp only [Word.least, Word.greatest] at *
  omega

end Group

namespace Kernel

variable {p : Program} {sc : Scope} {groups gs : List Group}

/-! ## local copies -/

/-- The local copy belongs to the group and has room for its tile. -/
structure Stores (p : Program) (groups : List Group) (g : Group) (v : LocalVariable) : Prop where
  name : v.name = g.localName groups
  array : v.array = g.array
  memory : v.memory = g.memory
  tile : ∃ tile array, g.tile? = some tile ∧ p.array? g.array = some array ∧ v.sizes = tile.sizes ∧
    v.elementCount = tile.elementCount ∧ v.bytes = tile.footprint array.elementSize

/-- There is one local copy for each group with a tile. -/
theorem forall₂_of_localsOf {vs : List LocalVariable} (h : localsOf sc groups gs = .ok vs) :
    List.Forall₂ (Stores sc.program groups) (gs.filter (·.tile?.isSome)) vs := by
  induction gs generalizing vs with
  | nil =>
      simp only [localsOf, Except.ok.injEq] at h
      subst h
      exact .nil
  | cons g gs ih =>
      simp only [localsOf] at h
      split at h
      · next hnone =>
        rw [List.filter_cons_of_neg (by simp [hnone])]
        exact ih h
      · next tile htile =>
        simp only [Scope.array, Outcome.bind_eq_ok, Outcome.orRaise_eq_ok, Outcome.pure_eq_ok] at h
        obtain ⟨array, harray, rest, hrest, rfl⟩ := h
        rw [List.filter_cons_of_pos (by simp [htile])]
        exact .cons ⟨rfl, rfl, rfl, tile, array, htile, harray, rfl, rfl, rfl⟩ (ih hrest)

/-- If no partial sum of the groups' bytes leaves the word range, the bytes of the local copies add
up to their sum. -/
theorem sumBytes_of_localsOf {ε : Type} {vs : List LocalVariable} {total : Int}
    (h : localsOf sc groups gs = .ok vs)
    (hfits : ∀ n, Word.fits (total + Group.totalBytes sc.program (gs.take n)) = true) :
    (sumBytes total ((vs.filter (·.memory == .shared)).map (·.bytes)) : Outcome ε Int) =
      .ok (total + Group.totalBytes sc.program gs) := by
  induction gs generalizing vs total with
  | nil =>
      simp only [localsOf, Except.ok.injEq] at h
      subst h
      simp [sumBytes]
  | cons g gs ih =>
      have hrest : ∀ n, Word.fits (total + Group.sharedBytes sc.program g +
          Group.totalBytes sc.program (gs.take n)) = true := by
        intro n
        rw [Int.add_assoc, ← Group.totalBytes_cons, ← List.take_succ_cons]
        exact hfits (n + 1)
      rw [Group.totalBytes_cons, ← Int.add_assoc]
      simp only [localsOf] at h
      split at h
      · next hnone =>
        have hmemory : g.memory ≠ .shared := by
          intro hmemory
          obtain ⟨-, tile, hshared⟩ := Group.memory_eq_shared_iff.mp hmemory
          rw [Group.tile?, hmemory, hshared] at hnone
          cases hnone
        rw [Group.sharedBytes_of_ne hmemory, Int.add_zero] at hrest ⊢
        exact ih h hrest
      · next tile htile =>
        simp only [Scope.array, Outcome.bind_eq_ok, Outcome.orRaise_eq_ok, Outcome.pure_eq_ok] at h
        obtain ⟨array, harray, rest, hlocals, rfl⟩ := h
        by_cases hmemory : g.memory = .shared
        · have hbytes := Group.sharedBytes_of_tile hmemory htile harray
          have hsum : Word.add? total (tile.footprint array.elementSize) =
              some (total + tile.footprint array.elementSize) := by
            rw [← hbytes, Word.add?_eq_some]
            simpa using hrest 0
          rw [List.filter_cons_of_pos (by simp [hmemory]), List.map_cons, sumBytes, hsum, hbytes]
          rw [hbytes] at hrest
          exact ih hlocals hrest
        · rw [List.filter_cons_of_neg (by simpa using hmemory)]
          rw [Group.sharedBytes_of_ne hmemory, Int.add_zero] at hrest ⊢
          exact ih hlocals hrest

/-! ## kernels of a program -/

/-- The steps that lead to a kernel. -/
theorem exists_steps {o : Options} {id : Nat} {region : Region} {kernel : Kernel}
    (h : ofRegion p o id region = .ok kernel) :
    ∃ k formed checked unroll body moved, KernelSchedule.build p region o = .ok k ∧
      Group.all (.ofSchedule p o k) = .ok formed ∧
      Group.checkUnroll (.ofSchedule p o k) formed = .ok (checked, unroll) ∧
      Group.enforceBudget (.ofSchedule p o k) checked = .ok kernel.groups ∧
      Body.build (.ofSchedule p o k) kernel.groups = .ok body ∧
      (body.interchange unroll : Outcome MapError Body) = .ok moved ∧
      assemble id (.ofSchedule p o k) kernel.groups moved = .ok kernel := by
  simp only [ofRegion, Outcome.bind_eq_ok, Outcome.ofEngine_eq_ok] at h
  obtain ⟨k, hk, formed, hall, ⟨checked, unroll⟩, hunroll, groups, hbudget, body, hbody,
    moved, hmoved, h⟩ := h
  obtain rfl : groups = kernel.groups := by
    simp only [assemble, Outcome.bind_eq_ok, Outcome.pure_eq_ok] at h
    obtain ⟨_, -, _, -, _, -, rfl⟩ := h
    rfl
  exact ⟨k, formed, checked, unroll, body, moved, hk, hall, hunroll, hbudget, hbody, hmoved, h⟩

/-- The groups of a kernel have been served with the shared memory of a block, and its local copies
are theirs. -/
theorem ofRegion_eq_ok {o : Options} {id : Nat} {region : Region} {kernel : Kernel}
    (h : ofRegion p o id region = .ok kernel) :
    ∃ sc checked, sc.program = p ∧ sc.options = o ∧
      Group.enforceBudget sc checked = .ok kernel.groups ∧
      localsOf sc kernel.groups kernel.groups = .ok kernel.locals := by
  obtain ⟨k, formed, checked, unroll, body, moved, -, -, -, hbudget, -, -, h⟩ := exists_steps h
  simp only [assemble, Outcome.bind_eq_ok, Outcome.pure_eq_ok] at h
  obtain ⟨tree, -, arrays, -, locals, hlocals, hkernel⟩ := h
  obtain rfl : locals = kernel.locals := (congrArg Kernel.locals hkernel :)
  exact ⟨.ofSchedule p o k, checked, rfl, rfl, hbudget, hlocals⟩

/-- Each kernel is that of one of the regions. -/
theorem exists_of_mem_ofRegions {o : Options} {id : Nat} {regions : List Region}
    {kernels : List Kernel} (h : ofRegions p o id regions = .ok kernels) {kernel : Kernel}
    (hkernel : kernel ∈ kernels) : ∃ i, ∃ region ∈ regions, ofRegion p o i region = .ok kernel := by
  induction regions generalizing id kernels with
  | nil =>
      simp only [ofRegions, Except.ok.injEq] at h
      simp [← h] at hkernel
  | cons region regions ih =>
      simp only [ofRegions, Outcome.bind_eq_ok, Outcome.pure_eq_ok] at h
      obtain ⟨first, hfirst, rest, hrest, rfl⟩ := h
      rcases List.mem_cons.mp hkernel with rfl | hkernel
      · exact ⟨id, region, List.mem_cons_self, hfirst⟩
      · obtain ⟨i, r, hr, hkernel⟩ := ih hrest hkernel
        exact ⟨i, r, List.mem_cons_of_mem _ hr, hkernel⟩

end Kernel

/-! ### declarations -/

/-- Elements have the same size in both programs. -/
theorem Program.Redeclares.elementSize {p p' : Program} (h : p.Redeclares p') (name : String) :
    (p'.array? name).map (·.elementSize) = (p.array? name).map (·.elementSize) := by
  have hsizes := congrArg (Option.map ArrayDecl.elementSize) (h.array? name)
  rwa [Option.map_map, Option.map_map] at hsizes

/-- Groups take as many bytes in both programs. -/
theorem Group.totalBytes_of_redeclares {p p' : Program} (h : p.Redeclares p') (gs : List Group) :
    totalBytes p' gs = totalBytes p gs := by
  have hbytes : ∀ g, sharedBytes p' g = sharedBytes p g := by
    intro g
    have hsize := h.elementSize g.array
    unfold sharedBytes
    cases g.memory <;> cases g.tile? <;> cases hp : p.array? g.array <;>
      cases hp' : p'.array? g.array <;> simp_all
  rw [totalBytes, totalBytes, List.map_congr_left fun g _ => hbytes g]

/-- A local copy has room for its tile in both programs. -/
theorem Kernel.Stores.of_redeclares {p p' : Program} (h : p.Redeclares p')
    {groups : List Group} {g : Group} {v : LocalVariable} (hv : Stores p' groups g v) :
    Stores p groups g v where
  name := hv.name
  array := hv.array
  memory := hv.memory
  tile := by
    obtain ⟨tile, array', htile, harray', hsizes, hcount, hbytes⟩ := hv.tile
    have hsize := h.elementSize g.array
    rw [harray', Option.map_some, eq_comm, Option.map_eq_some_iff] at hsize
    obtain ⟨array, harray, hsize⟩ := hsize
    exact ⟨tile, array, htile, harray, hsizes, hcount, by rw [hbytes, hsize]⟩

theorem Options.maxSharedMemory_nonneg {o : Options} (h : o.validate = .ok ()) :
    0 ≤ o.maxSharedMemory := by
  by_contra hneg
  have hflaw : o.flaw? ≠ none := by
    unfold flaw?
    split_ifs <;> simp
    omega
  unfold validate at h
  split at h
  · simp at h
  · contradiction

namespace Kernel

/-! ## the budget -/

/-- For every budget: the groups that are left in shared memory take at most the budget, with
partial sums that are words; each group in shared memory keeps its tile exactly if it takes no more
than the groups before it have left of the budget, and otherwise only loses its shared tile, while
groups elsewhere stay as they are.  So every kernel that is compiled asks for shared memory within
the budget, and has one local copy for each group that still has a tile. -/
theorem shared_memory_within_budget {o : Options} (hword : o.maxSharedMemory ≤ Word.greatest) :
    (∀ (sc : Scope) (gs gs' : List Group), sc.options = o → 0 ≤ o.maxSharedMemory →
      Group.enforceBudget sc gs = .ok gs' →
        Group.totalBytes sc.program gs' ≤ o.maxSharedMemory ∧
        (∀ n, Word.fits (Group.totalBytes sc.program (gs'.take n)) = true) ∧
        gs'.length = gs.length ∧
        (∀ g ∈ gs, g.memory = .shared → ∃ array, sc.program.array? g.array = some array) ∧
        ∀ i g g', gs[i]? = some g → gs'[i]? = some g' →
          Group.Serves sc.program
            (o.maxSharedMemory - Group.totalBytes sc.program (gs'.take i)) g g') ∧
    ∀ (p : Program) (c : Compiled), p.compile o = .ok c → ∀ k ∈ c.kernels,
      (k.sharedMemory : Outcome MapError Int) = .ok (Group.totalBytes p k.groups) ∧
      Group.totalBytes p k.groups ≤ o.maxSharedMemory ∧
      List.Forall₂ (Stores p k.groups) (k.groups.filter fun g => g.sharedTile.isSome ||
        g.privateTile.isSome)
        k.locals := by
  have hbudget : ∀ (sc : Scope) (gs gs' : List Group), sc.options = o → 0 ≤ o.maxSharedMemory →
      Group.enforceBudget sc gs = .ok gs' →
      Group.ServesAll sc.program o.maxSharedMemory gs gs' := by
    rintro sc gs gs' rfl hpos h
    exact Group.servesAll_of_fitInto ⟨hpos, hword⟩ h
  have hwithin : ∀ {p gs gs'}, Group.ServesAll p o.maxSharedMemory gs gs' →
      Group.totalBytes p gs' ≤ o.maxSharedMemory := by
    intro p gs gs' h
    have hleft := (h.left_word gs'.length).1
    rw [List.take_length] at hleft
    omega
  refine ⟨fun sc gs gs' ho hpos h => ?_, fun p c h k hk => ?_⟩
  · have hserves := hbudget sc gs gs' ho hpos h
    exact ⟨hwithin hserves, hserves.fits_totalBytes ⟨hpos, hword⟩, hserves.length, hserves.declared,
      hserves.serves⟩
  · simp only [Program.compile, Outcome.bind_eq_ok, Outcome.pure_eq_ok] at h
    obtain ⟨_, ho, _, -, p', hp', kernels, hkernels, rfl⟩ := h
    have hpos := Options.maxSharedMemory_nonneg ho
    have hdeclared := p.redeclares_recomputeFlags.trans (Program.redeclares_of_recomputeExtents hp')
    obtain ⟨i, region, -, hregion⟩ := exists_of_mem_ofRegions hkernels hk
    obtain ⟨sc, checked, rfl, hoptions, hgroups, hlocals⟩ := ofRegion_eq_ok hregion
    have hserves := hbudget sc checked k.groups hoptions hpos hgroups
    simp only [← Group.totalBytes_of_redeclares hdeclared, ← Group.isSome_tile?]
    refine ⟨?_, hwithin hserves, (forall₂_of_localsOf hlocals).imp fun _ _ =>
      Stores.of_redeclares hdeclared⟩
    have hfits : ∀ n, Word.fits (0 + Group.totalBytes sc.program (k.groups.take n)) =
        true := fun n => by
      rw [Int.zero_add]
      exact hserves.fits_totalBytes ⟨hpos, hword⟩ n
    have hsum := sumBytes_of_localsOf (ε := MapError) hlocals hfits
    rwa [Int.zero_add] at hsum

/-! ### three pieces -/

/-- Each iteration reads `A[0]`. -/
def piecesProgram : Program where
  params := []
  context := []
  arrays := [.ofShape "A" "char" 1 1]
  statements := [⟨"S", ["i"], [], [.var 0], [⟨0, "A", .read, true, [.single (.const 0)]⟩]⟩]
  regions := [⟨[0], 0, 1, [false]⟩]

/-- A budget of `8192` bytes. -/
def piecesOptions : Options := { Options.default with tileSizes := [2], usePrivateMemory := false }

/-- The schedule plays no part. -/
def piecesScope : Scope where
  program := piecesProgram
  options := piecesOptions
  schedule := ⟨[], 0, [], 0, 0, 0, 0, [], [], [], .wrap, .wrap, [], [], [], .tiled⟩
  refs := []

/-- A group with a shared tile of `size` bytes. -/
def piece (size : Int) : Group where
  array := "A"
  nr := 0
  refs := [0]
  write := false
  definiteWrite := true
  forcePrivate := false
  sharedTile := some ⟨[⟨size, ⟨.const 0, 1⟩, none⟩], 0, 0⟩
  privateTile := none
  lastShared := none

/-- The second of three pieces does not fit beside the first, but the third does; and the one kernel
of the program stays within the budget. -/
theorem pieces_within_budget :
    (piecesOptions.maxSharedMemory = 8192 ∧
      Group.enforceBudget piecesScope [piece 5000, piece 4000, piece 3000] =
        .ok [piece 5000, { piece 4000 with sharedTile := none }, piece 3000] ∧
      Group.totalBytes piecesProgram [piece 5000, { piece 4000 with sharedTile := none },
        piece 3000] ≤ 8192 ∧
      Group.Serves piecesProgram 3192 (piece 4000) { piece 4000 with sharedTile := none }) ∧
    ∃ c k, piecesProgram.compile piecesOptions = .ok c ∧ k ∈ c.kernels ∧
      k.locals.map (·.bytes) = [1] ∧
      (k.sharedMemory : Outcome MapError Int) = .ok (Group.totalBytes piecesProgram k.groups) ∧
      Group.totalBytes piecesProgram k.groups ≤ 8192 := by
  obtain ⟨hgroups, hkernels⟩ := shared_memory_within_budget (o := piecesOptions) (by decide)
  have hbudget : Group.enforceBudget piecesScope [piece 5000, piece 4000, piece 3000] =
      .ok [piece 5000, { piece 4000 with sharedTile := none }, piece 3000] := by decide +kernel
  obtain ⟨htotal, -, -, -, hserves⟩ := hgroups _ _ _ rfl (by decide) hbudget
  refine ⟨⟨rfl, hbudget, htotal, ?_⟩, ?_⟩
  · have hused : Group.totalBytes piecesProgram [piece 5000] = 5000 := by decide +kernel
    have hsecond := hserves 1 _ _ rfl rfl
    rw [List.take_succ_cons, List.take_zero] at hsecond
    change Group.Serves piecesProgram
      (8192 - Group.totalBytes piecesProgram [piece 5000]) _ _ at hsecond
    rwa [hused] at hsecond
  · have hbytes : (piecesProgram.compile piecesOptions).toOption.map
        (fun c => c.kernels.map fun k => k.locals.map (·.bytes)) = some [[1]] := by decide +kernel
    obtain ⟨c, hc, hbytes⟩ := Option.map_eq_some_iff.mp hbytes
    obtain ⟨k, hk⟩ : ∃ k, c.kernels = [k] :=
      List.length_eq_one_iff.mp (by simpa using congrArg List.length hbytes)
    have hcompile := Outcome.toOption_eq_some.mp hc
    obtain ⟨hsum, hwithin, -⟩ := hkernels _ _ hcompile k (by simp [hk])
    exact ⟨c, k, hcompile, by simp [hk], by simpa [hk] using hbytes, hsum, hwithin⟩

end Kernel

end KernelMap
