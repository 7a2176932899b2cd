import KernelMap.Access.Basic
import KernelMap.Proofs.Polyhedron

/-!
# KernelMap.Proofs.Access

The shape of access relations, and the selection of one output.

An access is `WellFormed` if each of its relations has a variable for every
parameter, input and output.  Every access built from references is
(`wellFormed_build`), and unions and selections keep it so.  A selection moves the
points of a relation by `Access.unselectVar`, which undoes the renumbering
(`Access.selectOut_eq_ok`).
-/

namespace KernelMap

namespace Access

/-! ## shape -/

/-- Every relation has a variable for each parameter, input and output. -/
def WellFormed (a : Access) : Prop :=
  ∀ p ∈ a.pieces, p.relation.WellFormed ∧ a.nParam + a.nIn + a.nOut ≤ p.relation.nVars

instance (a : Access) : Decidable a.WellFormed := inferInstanceAs (Decidable (∀ _ ∈ _, _))

/-- Equations between inputs and coordinates only make room. -/
theorem grows_equateFrom {map : List Nat} {v : Nat} {as : List Affine} {s t : Polyhedron}
    (h : equateFrom map v as s = .ok t) : s.Grows t := by
  induction as generalizing v s with
  | nil =>
      simp only [equateFrom, Except.ok.injEq] at h
      exact h ▸ .refl s
  | cons a as ih =>
      simp only [equateFrom, Outcome.bind_eq_ok] at h
      obtain ⟨_, -, _, -, u, hu, h⟩ := h
      exact (Polyhedron.grows_add hu).trans (ih h)

/-- The constraints of an output only make room. -/
theorem grows_constrainOutput {sched : StmtSchedule} {map : List Nat} {v : Nat} {i : Subscript}
    {s t : Polyhedron} (h : constrainOutput sched map v s i = .ok t) : s.Grows t := by
  cases i with
  | single a =>
      simp only [constrainOutput, Outcome.bind_eq_ok] at h
      obtain ⟨_, -, _, -, _, -, h⟩ := h
      exact Polyhedron.grows_add h
  | range lower upper =>
      simp only [constrainOutput, Outcome.bind_eq_ok] at h
      obtain ⟨_, -, _, -, _, -, _, -, _, -, u, hu, _, -, h⟩ := h
      exact (Polyhedron.grows_add hu).trans (Polyhedron.grows_add h)

/-- The constraints of the outputs only make room. -/
theorem grows_constrainOutputs {sched : StmtSchedule} {map : List Nat} {v : Nat}
    {is : List Subscript} {s t : Polyhedron} (h : constrainOutputs sched map v is s = .ok t) :
    s.Grows t := by
  induction is generalizing v s with
  | nil =>
      simp only [constrainOutputs, Except.ok.injEq] at h
      exact h ▸ .refl s
  | cons i is ih =>
      simp only [constrainOutputs, Outcome.bind_eq_ok] at h
      obtain ⟨u, hu, h⟩ := h
      exact (grows_constrainOutput hu).trans (ih h)

/-- The relation of a reference has room for parameters, inputs and outputs. -/
theorem wellFormed_relationOf {nParam depth : Nat} {context : List Constraint}
    {sched : StmtSchedule} {r : Reference} {s : Polyhedron}
    (h : relationOf nParam context sched r depth = .ok s) :
    s.WellFormed ∧ nParam + depth + r.subscripts.length ≤ s.nVars := by
  simp only [relationOf, Outcome.bind_eq_ok] at h
  obtain ⟨cs, -, s₁, h₁, s₂, h₂, h₃⟩ := h
  have hgrows := (Polyhedron.grows_addAllLowered h₁).trans
    ((grows_equateFrom h₂).trans (grows_constrainOutputs h₃))
  exact ⟨hgrows.wellFormed (Polyhedron.wellFormed_empty _),
    (Nat.le_add_right _ _).trans hgrows.nVars⟩

/-- A piece is the relation of a reference with enough coordinates and the right number of
subscripts. -/
theorem pieceOf_eq_ok {nParam depth nOut : Nat} {context : List Constraint}
    {item : StmtSchedule × Reference} {p : Piece}
    (h : pieceOf nParam context depth nOut item = .ok p) :
    item.2.subscripts.length = nOut ∧ depth ≤ item.1.dims.length ∧
      ∃ s, relationOf nParam context item.1 item.2 depth = .ok s ∧ p = ⟨item.2.id, s⟩ := by
  simp only [pieceOf] at h
  by_cases hcount : item.2.subscripts.length ≠ nOut
  · simp [hcount] at h
  rw [if_neg hcount] at h
  by_cases hshape : item.1.space.nParam < nParam ∨ item.1.dims.length < depth
  · simp [hshape] at h
  simp only [if_neg hshape, Outcome.bind_eq_ok, Outcome.pure_eq_ok] at h
  obtain ⟨s, hs, rfl⟩ := h
  exact ⟨not_not.mp hcount, by omega, s, hs, rfl⟩

/-- An access has the relation of each of its references, and no others. -/
theorem build_eq_ok {nParam depth : Nat} {context : List Constraint}
    {items : List (StmtSchedule × Reference)} {a : Access}
    (h : build nParam context items depth = .ok a) : a.nParam = nParam ∧ a.nIn = depth ∧
      List.Forall₂ (fun item p => pieceOf nParam context depth a.nOut item = .ok p) items
      a.pieces := by
  simp only [build, Outcome.bind_eq_ok, Outcome.pure_eq_ok] at h
  obtain ⟨pieces, hpieces, rfl⟩ := h
  exact ⟨rfl, rfl, Outcome.mapM_eq_ok.mp hpieces⟩

/-- The access of references is well-formed. -/
theorem wellFormed_build {nParam depth : Nat} {context : List Constraint}
    {items : List (StmtSchedule × Reference)} {a : Access}
    (h : build nParam context items depth = .ok a) : a.WellFormed := by
  obtain ⟨hparam, hin, hpieces⟩ := build_eq_ok h
  intro p hp
  obtain ⟨item, -, hpiece⟩ := hpieces.exists_of_mem_right hp
  obtain ⟨hcount, -, s, hs, rfl⟩ := pieceOf_eq_ok hpiece
  obtain ⟨hwf, hle⟩ := wellFormed_relationOf hs
  rw [hparam, hin, ← hcount]
  exact ⟨hwf, hle⟩

/-- So is the union of two of one shape. -/
theorem WellFormed.union {a b c : Access} (ha : a.WellFormed) (hb : b.WellFormed)
    (h : a.union b = .ok c) : c.WellFormed := by
  unfold Access.union at h
  split at h
  · next hshape =>
    simp only [Except.ok.injEq] at h
    subst h
    obtain ⟨hparam, hin, hout⟩ := hshape
    intro p hp
    rcases List.mem_append.mp hp with hp | hp
    · exact ha p hp
    · simpa [hparam, hin, hout] using hb p hp
  · simp at h

/-! ## selecting an output -/

/-- Where variable `j` comes from when output `d` is selected. -/
def unselectVar (base nOut d nVars j : Nat) : Nat :=
  if j < base then j
  else if j = base then base + d
  else if j < nVars - (nOut - 1) then j + nOut - 1
  else
    let o := j - (nVars - (nOut - 1))
    base + (if o < d then o else o + 1)

theorem unselectVar_selectVar {base nOut d nVars k : Nat} (hd : d < nOut) (hn : base + nOut ≤ nVars)
    (hk : k < nVars) : unselectVar base nOut d nVars (selectVar base nOut d nVars k) = k := by
  unfold selectVar
  by_cases hbase : k < base
  · rw [if_pos hbase, unselectVar, if_pos hbase]
  rw [if_neg hbase]
  by_cases hout : k < base + nOut
  · rw [if_pos hout]
    dsimp only
    by_cases hkept : k - base = d
    · rw [if_pos hkept, unselectVar, if_neg (by omega), if_pos rfl]
      omega
    rw [if_neg hkept]
    -- the other outputs are last, with a gap where the kept one was
    by_cases hbefore : k - base < d
    · rw [if_pos hbefore, unselectVar, if_neg (by omega), if_neg (by omega), if_neg (by omega)]
      dsimp only
      rw [if_pos (by omega)]
      omega
    · rw [if_neg hbefore, unselectVar, if_neg (by omega), if_neg (by omega), if_neg (by omega)]
      dsimp only
      rw [if_neg (by omega)]
      omega
  · rw [if_neg hout, unselectVar, if_neg (by omega), if_neg (by omega), if_pos (by omega)]
    omega

/-- In the selection the element has the single index `d`; parameters and inputs are
the same. -/
theorem selectOut_eq_ok {a b : Access} {d : Nat} (ha : a.WellFormed) (hd : d < a.nOut)
    (h : a.selectOut d = .ok b) : b.WellFormed ∧ b.nParam = a.nParam ∧ b.nIn = a.nIn ∧ b.nOut = 1 ∧
      ∀ p ∈ a.pieces, ∀ w, p.relation.Holds w → ∃ q ∈ b.pieces, ∃ w', q.relation.Holds w' ∧
        (∀ j, j < a.nParam + a.nIn → w' j = w j) ∧
        w' (a.nParam + a.nIn) = w (a.nParam + a.nIn + d) := by
  simp only [selectOut, Outcome.bind_eq_ok, Outcome.pure_eq_ok] at h
  obtain ⟨pieces, hpieces, rfl⟩ := h
  refine ⟨fun q hq => ?_, rfl, rfl, rfl, fun p hp w hw => ?_⟩
  · obtain ⟨p, hp, hsel⟩ := Outcome.exists_of_mem_of_mapM hpieces hq
    simp only [Piece.selectOut, Outcome.bind_eq_ok, Outcome.pure_eq_ok] at hsel
    obtain ⟨s, hs, rfl⟩ := hsel
    have hle := (ha p hp).2
    refine ⟨Polyhedron.wellFormed_embed hs, ?_⟩
    dsimp only
    rw [Polyhedron.nVars_embed hs]
    omega
  · obtain ⟨q, hq, hsel⟩ := Outcome.exists_of_mem_mapM hpieces hp
    simp only [Piece.selectOut, Outcome.bind_eq_ok, Outcome.pure_eq_ok] at hsel
    obtain ⟨s, hs, rfl⟩ := hsel
    obtain ⟨hwf, hle⟩ := ha p hp
    have hmoved :=
      Polyhedron.holds_embed_range hwf (fun k hk => unselectVar_selectVar hd hle hk) hs w
    refine ⟨_, hq, _, hmoved.mpr hw, fun j hj => ?_, ?_⟩
    · simp [unselectVar, hj]
    · simp [unselectVar]

end Access

end KernelMap
