import KernelMap.Program.Draft
import KernelMap.Proofs.ComparisonChains
import KernelMap.Proofs.Spread

/-!
# KernelMap.Proofs.Renumbering

Texts that are read over more names.

Names stand for variables by their position.  If further names are inserted into a list (`Inserts`),
then the variables behind them move, and with them the terms of every form that is read: the form
over the new list is the old one with as many unused variables inserted
(`Affine.parse_of_inserts`).  The same holds for constraints and subscripts, since differences of
forms move along with them.  A form with variables inserted is the same form only if there are none
of them, or it uses no variable behind them (`Affine.same_insertVars_iff`).
-/

namespace KernelMap

/-- The position of a variable once `extra` others have been inserted before number `start`. -/
def shiftVar (start extra i : Nat) : Nat := if i < start then i else i + extra

/-- The names have moved as if `extra` others had been inserted before number `start`. -/
def Inserts (start extra : Nat) (names names' : List String) : Prop :=
  ∀ name ∈ names, names'.idxOf? name = (names.idxOf? name).map (shiftVar start extra)

theorem idxOf?_append (names later : List String) (name : String) :
    (names ++ later).idxOf? name =
      (names.idxOf? name).or ((later.idxOf? name).map (· + names.length)) :=
  List.findIdx?_append

/-- Names at the end move nothing. -/
theorem inserts_append_right (names later : List String) (extra : Nat) :
    Inserts names.length extra names (names ++ later) := by
  intro name hname
  obtain ⟨i, hi⟩ := Option.isSome_iff_exists.mp (List.isSome_idxOf?.mpr hname)
  obtain ⟨hlt, -⟩ := List.idxOf?_eq_some_iff.mp hi
  simp [idxOf?_append, hi, shiftVar, hlt]

/-- Names in the middle move those behind them. -/
theorem inserts_append_middle {names later iterators : List String}
    (h : (names ++ later ++ iterators).Nodup) :
    Inserts names.length later.length (names ++ iterators) (names ++ later ++ iterators) := by
  intro name hname
  by_cases hmem : name ∈ names
  · obtain ⟨i, hi⟩ := Option.isSome_iff_exists.mp (List.isSome_idxOf?.mpr hmem)
    obtain ⟨hlt, -⟩ := List.idxOf?_eq_some_iff.mp hi
    simp [idxOf?_append, hi, shiftVar, hlt]
  · have hiter : name ∈ iterators := (List.mem_append.mp hname).resolve_left hmem
    have hlater : name ∉ later := fun hlater =>
      (List.disjoint_of_nodup_append h) (List.mem_append_right _ hlater) hiter
    obtain ⟨j, hj⟩ := Option.isSome_iff_exists.mp (List.isSome_idxOf?.mpr hiter)
    simp [idxOf?_append, List.idxOf?_eq_none_iff.mpr hmem, List.idxOf?_eq_none_iff.mpr hlater,
      hj, shiftVar]
    omega

namespace Coeffs

/-- The last coefficient that is left is not zero. -/
theorem get_length_trim {cs : List Int} {n : Nat} (h : (trim cs).length = n + 1) :
    get cs n ≠ 0 := by
  induction cs generalizing n with
  | nil => simp [trim] at h
  | cons c cs ih =>
      rw [trim] at h
      split at h
      · next htrim =>
        split at h
        · simp at h
        · next hc =>
          obtain rfl : n = 0 := by simpa using h.symm
          exact hc
      · next rest htrim =>
        rw [List.length_cons] at h
        obtain ⟨m, rfl⟩ : ∃ m, n = m + 1 := by
          cases n with
          | zero => exact absurd (List.length_eq_zero_iff.mp (by omega)) htrim
          | succ m => exact ⟨m, rfl⟩
        exact ih (by omega)

end Coeffs

namespace Affine

/-! ## forms -/

/-- Inserting variables leaves no zero at the end. -/
theorem trimmed_insertVars (a : Affine) (start extra : Nat) :
    (a.insertVars start extra).trimmed = a.insertVars start extra := by
  simp only [insertVars, trimmed, Coeffs.trim_trim]

/-- Beyond its width, a form has no coefficients. -/
theorem coeff_of_width_le {a : Affine} {i : Nat} (h : a.width ≤ i) : a.coeff i = 0 := by
  rw [← coeff_trimmed]
  exact Coeffs.get_of_length_le h

/-- Inserting variables behind those of a form changes nothing. -/
theorem insertVars_of_width_le {a : Affine} {start : Nat} (h : a.width ≤ start) (extra : Nat) :
    a.insertVars start extra = a.trimmed := by
  rw [← trimmed_insertVars]
  refine trimmed_congr rfl fun i => ?_
  rw [coeff_insertVars]
  by_cases hi : i < start
  · rw [if_pos hi]
  · rw [if_neg hi, coeff_of_width_le (Nat.le_trans h (Nat.le_of_not_lt hi))]
    split
    · rfl
    · exact coeff_of_width_le (by omega)

/-- A form with variables inserted is the same form only if there are none of them, or none behind
them. -/
theorem same_insertVars_iff {a : Affine} {start extra : Nat} :
    (a.insertVars start extra).same a = true ↔ extra = 0 ∨ a.width ≤ start := by
  constructor
  · intro h
    by_contra hne
    obtain ⟨hextra, hwidth⟩ : 0 < extra ∧ start < a.width := by omega
    obtain ⟨n, hn⟩ : ∃ n, a.width = n + 1 := ⟨a.width - 1, by omega⟩
    have hlast : a.coeff n ≠ 0 := Coeffs.get_length_trim hn
    have hmoved := (same_iff.mp h).2 (n + extra)
    have hpast : a.coeff (n + extra) = 0 := coeff_of_width_le (by omega)
    rw [coeff_insertVars, if_neg (by omega), if_neg (by omega), Nat.add_sub_cancel, hpast] at hmoved
    exact hlast hmoved
  · rintro (rfl | h)
    · refine same_iff.mpr ⟨rfl, fun i => ?_⟩
      rw [coeff_insertVars]
      split
      · rfl
      · rw [if_neg (by omega), Nat.sub_zero]
    · rw [insertVars_of_width_le h]
      exact same_iff.mpr ⟨rfl, coeff_trimmed a⟩

/-- The first form with `extra` variables inserted before `start` is the second one; it is the same
form only if none is inserted, or none is used behind them. -/
structure Moved (start extra : Nat) (a b : Affine) : Prop where
  eq : b = a.insertVars start extra
  same_iff : b.same a = true ↔ extra = 0 ∨ a.width ≤ start

/-- A form with variables inserted has moved by them. -/
theorem moved_insertVars (a : Affine) (start extra : Nat) :
    a.Moved start extra (a.insertVars start extra) :=
  ⟨rfl, same_insertVars_iff⟩

section Reading

variable {start extra : Nat} {names names' : List String}

/-- The terms of a variable are those of the variable it has moved to. -/
theorem coeffSum_of_inserts (h : Inserts start extra names names') {ts : List Term}
    (hknown : ∀ t ∈ ts, t.name ≠ [] → String.ofList t.name ∈ names) (i : Nat) :
    coeffSum names' i ts = if i < start then coeffSum names i ts
      else if i < start + extra then 0 else coeffSum names (i - extra) ts := by
  have hmoved : ∀ t ∈ ts, t.name ≠ [] → ∃ k, names.idxOf? (String.ofList t.name) = some k ∧
      names'.idxOf? (String.ofList t.name) = some (shiftVar start extra k) := fun t ht hname => by
    obtain ⟨k, hk⟩ := Option.isSome_iff_exists.mp (List.isSome_idxOf?.mpr (hknown t ht hname))
    exact ⟨k, hk, by rw [h _ (hknown t ht hname), hk, Option.map_some]⟩
  have hcongr : ∀ j, (∀ k, shiftVar start extra k = i ↔ k = j) →
      coeffSum names' i ts = coeffSum names j ts := by
    intro j hj
    unfold coeffSum
    congr 2
    refine List.filter_congr fun t ht => ?_
    by_cases hname : t.name = []
    · simp [hname]
    · obtain ⟨k, hk, hk'⟩ := hmoved t ht hname
      rw [hk, hk', Bool.eq_iff_iff]
      simp [hj]
  by_cases hi : i < start
  · rw [if_pos hi]
    refine hcongr i fun k => ?_
    unfold shiftVar
    split <;> omega
  · rw [if_neg hi]
    split
    · next hgap =>
      have hnone : ts.filter (fun t => !t.name.isEmpty && names'.idxOf? (String.ofList t.name) ==
          some i) = [] := by
        refine List.filter_eq_nil_iff.mpr fun t ht => ?_
        by_cases hname : t.name = []
        · simp [hname]
        · obtain ⟨k, -, hk'⟩ := hmoved t ht hname
          have hne : shiftVar start extra k ≠ i := by
            unfold shiftVar
            split <;> omega
          simp [hk', hne]
      rw [coeffSum, hnone]
      rfl
    · refine hcongr (i - extra) fun k => ?_
      unfold shiftVar
      split <;> omega

/-- Terms stay accepted when other names are inserted. -/
theorem accepts_of_inserts (h : Inserts start extra names names') {ts : List Term}
    (hts : Accepts names ts) : Accepts names' ts := by
  refine ⟨hts.readable, fun t ht hname => ?_, hts.constant, fun us hus i => ?_⟩
  · have hmem := hts.known t ht hname
    have hsome := List.isSome_idxOf?.mpr hmem
    rw [← List.isSome_idxOf?, h _ hmem, Option.isSome_map]
    exact hsome
  · rw [coeffSum_of_inserts h fun t ht => hts.known t (hus.subset ht)]
    split
    · exact hts.coeff us hus i
    · split
      · rfl
      · exact hts.coeff us hus _

/-- A text over more names is read as the form with as many variables inserted. -/
theorem parse_of_inserts (h : Inserts start extra names names') {text : String} {a : Affine}
    (ha : parse text names = .ok a) : parse text names' = .ok (a.insertVars start extra) := by
  obtain ⟨hne, ts, hsum, hfold⟩ := parse_eq_ok_iff_foldlM.mp ha
  obtain ⟨hts, htotal⟩ := accepts_of_foldlM hfold
  refine parse_eq_ok_iff_foldlM.mpr
    ⟨hne, ts, hsum, foldlM_addTerm_eq_ok_iff.mpr ⟨accepts_of_inserts h hts, ?_⟩⟩
  refine ⟨htotal.constant, fun i => ?_, trimmed_insertVars ..⟩
  rw [coeff_insertVars, coeffSum_of_inserts h hts.known, htotal.coeff, htotal.coeff]

end Reading

/-- The inserted coefficients are zero, the others are those of the form. -/
theorem forall_coeff_insertVars {P : Int → Int → Prop} {a b : Affine}
    (h : ∀ i, P (a.coeff i) (b.coeff i)) (hzero : P 0 0) (start extra i : Nat) :
    P ((a.insertVars start extra).coeff i) ((b.insertVars start extra).coeff i) := by
  rw [coeff_insertVars, coeff_insertVars]
  split
  · exact h i
  · split
    · exact hzero
    · exact h (i - extra)

/-- A difference has no zero at the end. -/
theorem trimmed_of_sub {a b c : Affine} (h : a.sub b = .ok c) : c.trimmed = c := by
  simp only [sub, add, Outcome.bind_eq_ok, Outcome.orOverflow_eq_ok, Option.bind_eq_bind,
    Option.bind_eq_some_iff, Option.pure_def, Option.some.injEq] at h
  obtain ⟨n, -, cs, -, k, -, rfl⟩ := h
  simp only [trimmed, Coeffs.trim_trim]

/-- A difference moves along with its operands. -/
theorem sub_insertVars {a b c : Affine} (h : a.sub b = .ok c) (start extra : Nat) :
    (a.insertVars start extra).sub (b.insertVars start extra) = .ok (c.insertVars start extra) := by
  obtain ⟨hneg, hnegk, hcoeff, hconstant⟩ := exists_sub_iff.mp ⟨c, h⟩
  obtain ⟨d, hd⟩ : ∃ d, (a.insertVars start extra).sub (b.insertVars start extra) = .ok d := by
    refine exists_sub_iff.mpr ⟨?_, hnegk, ?_, hconstant⟩
    · exact forall_coeff_insertVars (P := fun _ y => Word.fits (-y) = true)
        (a := b) hneg rfl start extra
    · exact forall_coeff_insertVars (P := fun x y => Word.fits (x - y) = true) hcoeff
        rfl start extra
  obtain ⟨hc, hk⟩ := sub_eq_ok h
  obtain ⟨hdc, hdk⟩ := sub_eq_ok hd
  rw [hd, ← trimmed_of_sub hd, ← trimmed_insertVars]
  refine congrArg _ (trimmed_congr (hdk.trans hk.symm) fun i => ?_)
  rw [hdc, coeff_insertVars, coeff_insertVars, coeff_insertVars, hc, hc]
  split
  · rfl
  · split
    · rfl
    · rfl

/-- A constant can be added before or after variables are inserted. -/
theorem addConst_insertVars {a c : Affine} {k : Int} (h : a.addConst k = .ok c)
    (start extra : Nat) :
    (a.insertVars start extra).addConst k = .ok (c.insertVars start extra) := by
  simp only [addConst, Outcome.bind_eq_ok, Outcome.orOverflow_eq_ok, Outcome.pure_eq_ok] at h ⊢
  obtain ⟨x, hx, rfl⟩ := h
  exact ⟨x, hx, rfl⟩

end Affine

/-! ## constraints -/

namespace Constraint

/-- The constraint with `extra` unused variables inserted before variable `start`. -/
def insertVars (c : Constraint) (start extra : Nat) : Constraint :=
  { c with expr := c.expr.insertVars start extra }

/-- A comparison of forms with variables inserted has the constraint with them inserted. -/
theorem ofComparison_insertVars {op : Comparison} {a b : Affine} {c : Constraint}
    (h : ofComparison op a b = .ok c) (start extra : Nat) :
    ofComparison op (a.insertVars start extra) (b.insertVars start extra) =
      .ok (c.insertVars start extra) := by
  cases op with
  | le | ge | eq =>
      simp only [ofComparison, Outcome.bind_eq_ok, Outcome.pure_eq_ok] at h ⊢
      obtain ⟨d, hd, rfl⟩ := h
      exact ⟨_, Affine.sub_insertVars hd start extra, rfl⟩
  | lt | gt =>
      simp only [ofComparison, Outcome.bind_eq_ok, Outcome.pure_eq_ok] at h ⊢
      obtain ⟨d, hd, e, he, rfl⟩ := h
      exact ⟨_, Affine.sub_insertVars hd start extra, _,
        Affine.addConst_insertVars he start extra, rfl⟩

section Reading

variable {start extra : Nat} {names names' : List String}

/-- With other names inserted, a link is read as the constraint with variables inserted. -/
theorem Link.Yields.of_inserts (h : Inserts start extra names names') {l : Link} {c : Constraint}
    (hl : l.Yields names c) : l.Yields names' (c.insertVars start extra) := by
  obtain ⟨a, b, ⟨ha, hb⟩, hc⟩ := hl
  exact ⟨_, _, ⟨Affine.parse_of_inserts h ha, Affine.parse_of_inserts h hb⟩,
    ofComparison_insertVars hc start extra⟩

/-- With other names inserted, a chain is read as the constraints with variables inserted. -/
theorem Chain.Yields.of_inserts (h : Inserts start extra names names') {chain : Chain}
    {cs : List Constraint} (hchain : chain.Yields names cs) :
    chain.Yields names' (cs.map (insertVars · start extra)) :=
  ⟨hchain.1, List.forall₂_map_right_iff.mpr (hchain.2.imp fun _ _ => Link.Yields.of_inserts h)⟩

/-- A text over more names is read as the constraints with as many variables inserted. -/
theorem parse_of_inserts (h : Inserts start extra names names') {text : String}
    {cs : List Constraint} (hcs : parse text names = .ok cs) :
    parse text names' = .ok (cs.map (insertVars · start extra)) := by
  obtain ⟨css, hcss, rfl⟩ := parse_eq_ok_iff.mp hcs
  refine parse_eq_ok_iff.mpr ⟨css.map (List.map (insertVars · start extra)), ?_,
    List.map_flatten.symm⟩
  exact List.forall₂_map_right_iff.mpr (hcss.imp fun _ _ => Chain.Yields.of_inserts h)

end Reading

/-- Names at the end change nothing. -/
theorem parse_append_right {text : String} {names : List String} {cs : List Constraint}
    (h : parse text names = .ok cs) (later : List String) :
    parse text (names ++ later) = .ok cs := by
  have hself := parse_of_inserts (inserts_append_right names [] 0) h
  rw [List.append_nil] at hself
  have hcs : cs.map (insertVars · names.length 0) = cs := Except.ok.inj (hself.symm.trans h)
  rw [parse_of_inserts (inserts_append_right names later 0) h, hcs]

/-- The first constraint with `extra` variables inserted before `start` is the second one. -/
structure Moved (start extra : Nat) (c d : Constraint) : Prop where
  kind : d.kind = c.kind
  expr : c.expr.Moved start extra d.expr

theorem forall₂_moved_insertVars (cs : List Constraint) (start extra : Nat) :
    List.Forall₂ (Moved start extra) cs (cs.map (insertVars · start extra)) :=
  List.forall₂_map_right_iff.mpr
    (List.forall₂_same.mpr fun _ _ => ⟨rfl, Affine.moved_insertVars ..⟩)

end Constraint

/-! ## subscripts -/

/-- The forms of the first subscript with `extra` variables inserted before `start` are those of the
second one. -/
inductive Subscript.Moved (start extra : Nat) : Subscript → Subscript → Prop
  | single {a b : Affine} (h : a.Moved start extra b) : Moved start extra (.single a) (.single b)
  | range {lo hi lo' hi' : Affine} (hlo : lo.Moved start extra lo')
      (hhi : hi.Moved start extra hi') : Moved start extra (.range lo hi) (.range lo' hi')

/-- With other names inserted, a subscript is read as one that has moved. -/
theorem Draft.subscript_of_inserts {start extra : Nat} {names names' : List String}
    (h : Inserts start extra names names') {text : String} {u : Subscript}
    (hu : subscript names text = .ok u) :
    ∃ v, subscript names' text = .ok v ∧ u.Moved start extra v := by
  unfold subscript at hu ⊢
  split at hu
  · simp only [Outcome.bind_eq_ok, Outcome.pure_eq_ok] at hu ⊢
    obtain ⟨a, ha, b, hb, rfl⟩ := hu
    exact ⟨_, ⟨_, Affine.parse_of_inserts h ha, _, Affine.parse_of_inserts h hb, rfl⟩,
      .range (Affine.moved_insertVars ..) (Affine.moved_insertVars ..)⟩
  · simp only [Outcome.bind_eq_ok, Outcome.pure_eq_ok] at hu ⊢
    obtain ⟨a, ha, rfl⟩ := hu
    exact ⟨_, ⟨_, Affine.parse_of_inserts h ha, rfl⟩, .single (Affine.moved_insertVars ..)⟩

end KernelMap
