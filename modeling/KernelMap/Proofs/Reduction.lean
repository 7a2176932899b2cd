import KernelMap.Polyhedron.Simplify
import KernelMap.Proofs.Polyhedron
import Mathlib.Data.List.Nodup

/-!
# KernelMap.Proofs.Reduction

What the steps of a simplification may do.

The constraints are sorted by kind (`Sorted.From`), then opposite inequalities are
compared, then inequalities are compared with equalities.  Each step of the last two
phases is described here once, with all it may do: `Meets` for the comparison of a
half-space with its opposite, `Drops` for that of the half-spaces with an equality.
Everything else about simplification is derived from these descriptions, for whole
phases with `meetAll_induction` and `absorbAll_induction`.
-/

namespace KernelMap

/-! ## opposite coefficients -/

namespace Coeffs

/-- Opposite lists are negations of each other. -/
theorem opposite_iff {as bs : List Int} : opposite as bs = true ↔ as = bs.map (-·) := by
  induction as generalizing bs with
  | nil => cases bs <;> simp [opposite]
  | cons a as ih =>
      cases bs with
      | nil => simp [opposite]
      | cons b bs => by_cases h : a = -b <;> simp [opposite, h, ih]

/-- The key of the negated list is the negated key. -/
theorem key_neg (i : Int) (cs : List Int) : key i (cs.map (-·)) = -key i cs := by
  induction cs generalizing i with
  | nil => rfl
  | cons c cs ih =>
      rw [List.map_cons, key, key]
      by_cases hc : c = 0
      · rw [if_pos hc, if_pos (by omega), ih]
      · rw [if_neg hc, if_neg (by omega), ih]
        ring

end Coeffs

/-! ## half-spaces -/

namespace HalfSpace

/-- The key does not lose anything: half-spaces are compared by their
coefficients. -/
theorem hasCoeffs_iff {h : HalfSpace} {cs : List Int} :
    h.hasCoeffs (Coeffs.key 1 cs) cs = true ↔ h.coeffs = cs := by
  simp only [hasCoeffs, Bool.and_eq_true, beq_iff_eq, Coeffs.eqv_iff]
  refine ⟨fun hh => hh.2, fun hh => ⟨?_, hh⟩⟩
  rw [h.key_eq, hh]

/-- Nor does the negated key. -/
theorem hasOpposite_iff {h : HalfSpace} {cs : List Int} :
    h.hasOpposite (Coeffs.key 1 cs) cs = true ↔ h.coeffs = cs.map (-·) := by
  simp only [hasOpposite, Bool.and_eq_true, beq_iff_eq, Coeffs.opposite_iff]
  refine ⟨fun hh => hh.2, fun hh => ⟨?_, hh⟩⟩
  rw [h.key_eq, hh, Coeffs.key_neg]

/-- The half-spaces keep the coefficients of those inserted. -/
theorem mem_coeffs_insert {h : HalfSpace} {gs : List HalfSpace} {cs : List Int} :
    cs ∈ (insert h gs).map (·.coeffs) ↔ cs = h.coeffs ∨ cs ∈ gs.map (·.coeffs) := by
  induction gs with
  | nil => simp [insert]
  | cons g gs ih =>
      rw [insert]
      split
      · next hc =>
        have hcoeffs : g.coeffs = h.coeffs := by
          rw [h.key_eq] at hc
          exact hasCoeffs_iff.mp hc
        simp only [List.map_cons, List.mem_cons, hcoeffs]
        tauto
      · simp only [List.map_cons, List.mem_cons, ih]
        tauto

/-- No two half-spaces become parallel by an insertion. -/
theorem nodup_insert {h : HalfSpace} {gs : List HalfSpace} (hn : (gs.map (·.coeffs)).Nodup) :
    ((insert h gs).map (·.coeffs)).Nodup := by
  induction gs with
  | nil => simp [insert]
  | cons g gs ih =>
      rw [List.map_cons, List.nodup_cons] at hn
      rw [insert]
      split
      · simpa using hn
      · next hc =>
        have hne : g.coeffs ≠ h.coeffs := by
          rw [h.key_eq] at hc
          exact fun heq => hc (hasCoeffs_iff.mpr heq)
        rw [List.map_cons, List.nodup_cons, mem_coeffs_insert, not_or]
        exact ⟨⟨hne, hn.1⟩, ih hn.2⟩

/-- In a list without parallel half-spaces the coefficients determine the
half-space. -/
theorem eq_of_coeffs_eq {hs : List HalfSpace} (hn : (hs.map (·.coeffs)).Nodup) {g h : HalfSpace}
    (hg : g ∈ hs) (hh : h ∈ hs) (heq : g.coeffs = h.coeffs) : g = h :=
  List.inj_on_of_nodup_map hn hg hh heq

/-- A search by coefficients finds the half-space that has them, if there is one. -/
theorem find?_coeffs_eq_some {hs : List HalfSpace} (hn : (hs.map (·.coeffs)).Nodup)
    {p : HalfSpace → Bool} {cs : List Int} (hp : ∀ g, p g = true ↔ g.coeffs = cs) {h : HalfSpace} :
    hs.find? p = some h ↔ h ∈ hs ∧ h.coeffs = cs := by
  have hfound : ∀ {g}, hs.find? p = some g → g ∈ hs ∧ g.coeffs = cs := fun {g} hg =>
    ⟨List.mem_of_find?_eq_some hg, (hp g).mp (List.find?_some hg)⟩
  refine ⟨hfound, ?_⟩
  rintro ⟨hh, hcs⟩
  have hsome : (hs.find? p).isSome = true := List.find?_isSome.mpr ⟨h, hh, (hp h).mpr hcs⟩
  obtain ⟨g, hg⟩ := Option.isSome_iff_exists.mp hsome
  obtain ⟨hgmem, hgcs⟩ := hfound hg
  rw [hg, eq_of_coeffs_eq hn hgmem hh (hgcs.trans hcs.symm)]

/-- The search for a parallel half-space misses none. -/
theorem parallel?_iff {hs : List HalfSpace} (hn : (hs.map (·.coeffs)).Nodup) {cs : List Int}
    {h : HalfSpace} : parallel? hs cs = some h ↔ h ∈ hs ∧ h.coeffs = cs :=
  find?_coeffs_eq_some hn fun _ => hasCoeffs_iff

/-- The search for an opposite half-space misses none. -/
theorem opposite?_iff {hs : List HalfSpace} (hn : (hs.map (·.coeffs)).Nodup) {cs : List Int}
    {h : HalfSpace} : opposite? hs cs = some h ↔ h ∈ hs ∧ h.coeffs = cs.map (-·) :=
  find?_coeffs_eq_some hn fun _ => hasOpposite_iff

end HalfSpace

namespace Polyhedron

/-! ## sorting by kind -/

/-- Only the equality itself is added. -/
theorem mem_of_mem_insertEquality {c e : Constraint} {es : List Constraint}
    (h : e ∈ (insertEquality c es).1) : e = c ∨ e ∈ es := by
  induction es with
  | nil => simpa [insertEquality] using h
  | cons e' es ih =>
      rw [insertEquality] at h
      split at h
      · exact Or.inr h
      · rcases List.mem_cons.mp h with rfl | h
        · exact Or.inr (by simp)
        · rcases ih h with rfl | h
          · exact Or.inl rfl
          · exact Or.inr (by simp [h])

/-- No two equalities become parallel by an insertion. -/
theorem nodup_insertEquality {c : Constraint} {es : List Constraint}
    (hn : (es.map (·.coeffs)).Nodup) : ((insertEquality c es).1.map (·.coeffs)).Nodup := by
  induction es with
  | nil => simp [insertEquality]
  | cons e es ih =>
      rw [List.map_cons, List.nodup_cons] at hn
      rw [insertEquality]
      split
      · simpa using hn
      · next hne =>
        rw [List.map_cons, List.nodup_cons]
        refine ⟨fun hmem => ?_, ih hn.2⟩
        obtain ⟨d, hd, hcs⟩ := List.mem_map.mp hmem
        rcases mem_of_mem_insertEquality hd with rfl | hd
        · exact hne (Coeffs.eqv_iff.mpr hcs.symm)
        · exact hn.1 (List.mem_map.mpr ⟨d, hd, hcs⟩)

namespace Sorted

/-- The sorted constraints come from those of `cs`, and no two of a kind are
parallel. -/
structure From (cs : List Constraint) (t : Sorted) : Prop where
  kind : ∀ e ∈ t.equalities, e.kind = .equality
  equality : ∀ e ∈ t.equalities, e ∈ cs
  halfSpace : ∀ h ∈ t.halfSpaces, ∃ c ∈ cs, h.coeffs = c.coeffs
  nodup_equalities : (t.equalities.map (·.coeffs)).Nodup
  nodup : (t.halfSpaces.map (·.coeffs)).Nodup

theorem from_nil (cs : List Constraint) : From cs ⟨[], [], false⟩ :=
  ⟨by simp, by simp, by simp, by simp, by simp⟩

/-- What is sorted in comes from the constraints, if the new one does. -/
theorem From.insert {cs : List Constraint} {t : Sorted} (ht : t.From cs) {c : Constraint}
    (hc : c ∈ cs) : (t.insert c).From cs := by
  unfold Sorted.insert
  split
  · next hkind =>
    refine ⟨fun e he => ?_, fun e he => ?_, ht.halfSpace,
      nodup_insertEquality ht.nodup_equalities, ht.nodup⟩
    · rcases mem_of_mem_insertEquality he with rfl | he
      · exact hkind
      · exact ht.kind e he
    · rcases mem_of_mem_insertEquality he with rfl | he
      · exact hc
      · exact ht.equality e he
  · refine ⟨ht.kind, ht.equality, fun h hh => ?_, ht.nodup_equalities,
      HalfSpace.nodup_insert ht.nodup⟩
    rcases HalfSpace.mem_coeffs_insert.mp (List.mem_map_of_mem hh) with heq | hmem
    · exact ⟨c, hc, heq⟩
    · obtain ⟨g, hg, heq⟩ := List.mem_map.mp hmem
      obtain ⟨d, hd, hgd⟩ := ht.halfSpace g hg
      exact ⟨d, hd, by rw [← hgd, ← heq]⟩

/-- Sorting constraints in one by one keeps where they come from. -/
theorem From.foldl {cs ds : List Constraint} (hsub : ∀ c ∈ ds, c ∈ cs) {t : Sorted}
    (ht : t.From cs) : (ds.foldl Sorted.insert t).From cs := by
  induction ds generalizing t with
  | nil => exact ht
  | cons d ds ih =>
      obtain ⟨hd, hsub⟩ := List.forall_mem_cons.mp hsub
      exact ih hsub (ht.insert hd)

end Sorted

theorem sorted_from (s : Polyhedron) : s.sorted.From s.constraints :=
  (Sorted.from_nil _).foldl fun _ hc => hc

namespace Reduction

variable {all hs : List HalfSpace} {r r' : Reduction} {h : HalfSpace} {e : Constraint}

/-! ## opposite inequalities -/

/-- The added equality is there afterwards, with those known before. -/
theorem mem_addEquality {d : Constraint} :
    d ∈ (r.addEquality e).equalities ↔ d ∈ r.equalities ∨ d = e := by
  unfold addEquality
  split
  · next hany =>
    simp only [List.any_eq_true, Constraint.eqv_iff] at hany
    obtain ⟨e', he', rfl⟩ := hany
    exact ⟨Or.inl, fun hd => hd.elim id fun hd => hd ▸ he'⟩
  · simp

/-- No equality is added twice. -/
theorem nodup_addEquality (hr : r.equalities.Nodup) : (r.addEquality e).equalities.Nodup := by
  unfold addEquality
  split
  · exact hr
  · next hnew =>
    simp only [List.any_eq_true, Constraint.eqv_iff, exists_eq_right'] at hnew
    dsimp only
    rw [← List.concat_eq_append, List.nodup_concat]
    exact ⟨hnew, hr⟩

@[simp] theorem dropped_addEquality : (r.addEquality e).dropped = r.dropped := by
  unfold addEquality
  split <;> rfl

@[simp] theorem infeasible_addEquality : (r.addEquality e).infeasible = r.infeasible := by
  unfold addEquality
  split <;> rfl

/-- What comparing a half-space with its opposite may do: nothing, if it was dropped
before or the two leave room; find a contradiction between the two; or replace both by an
equality. -/
inductive Meets (all : List HalfSpace) (h : HalfSpace) (r : Reduction) : Reduction → Prop
  | skip (dropped : h.coeffs ∈ r.dropped) : Meets all h r r
  | apart (room : ∀ o ∈ all, o.coeffs = h.coeffs.map (-·) → 0 < h.constant + o.constant) :
      Meets all h r r
  | clash {r' : Reduction} (o : HalfSpace) (mem : o ∈ all) (opposite : o.coeffs = h.coeffs.map (-·))
      (contradiction : h.constant + o.constant < 0 ∨ h.constant + o.constant = 0 ∧
        (Constraint.normalize (.eq ⟨h.coeffs, h.constant⟩) : Outcome EngineError _) = .ok none)
      (infeasible : r'.infeasible = true) (equalities : r'.equalities = r.equalities) :
      Meets all h r r'
  | merge (o : HalfSpace) (e : Constraint) (mem : o ∈ all) (opposite : o.coeffs = h.coeffs.map (-·))
      (meet : h.constant + o.constant = 0)
      (normal : (Constraint.normalize (.eq ⟨h.coeffs, h.constant⟩) : Outcome EngineError _) =
        .ok (some e)) :
      Meets all h r ({ r with dropped := o.coeffs :: h.coeffs :: r.dropped }.addEquality e)

/-- Comparing a half-space with the others has one of four results. -/
theorem meet_cases (hn : (all.map (·.coeffs)).Nodup) (hmeet : r.meet all h = .ok r') :
    Meets all h r r' := by
  unfold meet at hmeet
  split at hmeet
  · next hdropped =>
    simp only [List.any_eq_true, Coeffs.eqv_iff] at hdropped
    obtain ⟨cs, hcs, rfl⟩ := hdropped
    exact Except.ok.inj hmeet ▸ .skip hcs
  split at hmeet
  · simp at hmeet
  split at hmeet
  · next hnone =>
    refine Except.ok.inj hmeet ▸ .apart fun o ho hopp => ?_
    rw [(HalfSpace.opposite?_iff hn).mpr ⟨ho, hopp⟩] at hnone
    cases hnone
  next o hsome =>
  obtain ⟨ho, hopp⟩ := (HalfSpace.opposite?_iff hn).mp hsome
  simp only [Outcome.bind_eq_ok, Outcome.orOverflow_eq_ok, Word.add?_eq_some] at hmeet
  obtain ⟨slack, ⟨-, rfl⟩, hmeet⟩ := hmeet
  split at hmeet
  · next hneg =>
    exact Outcome.pure_eq_ok.mp hmeet ▸ .clash o ho hopp (Or.inl hneg) rfl rfl
  split at hmeet
  · next hzero =>
    simp only [Outcome.bind_eq_ok] at hmeet
    obtain ⟨e?, he, hmeet⟩ := hmeet
    cases e? with
    | none =>
        exact Outcome.pure_eq_ok.mp hmeet ▸ .clash o ho hopp (Or.inr ⟨hzero, he⟩) rfl rfl
    | some e => exact Outcome.pure_eq_ok.mp hmeet ▸ .merge o e ho hopp hzero he
  · next hneg hzero =>
    refine Outcome.pure_eq_ok.mp hmeet ▸ .apart fun g hg hgcs => ?_
    rw [HalfSpace.eq_of_coeffs_eq hn hg ho (hgcs.trans hopp.symm)]
    omega

/-- Comparing half-spaces with their opposites keeps what comparing one of them keeps. -/
theorem meetAll_induction {P : Reduction → Prop}
    (hstep : ∀ h ∈ hs, ∀ r r', P r → r.meet all h = .ok r' → P r') (hr : P r)
    (hmeet : meetAll all hs r = .ok r') : P r' := by
  induction hs generalizing r with
  | nil => exact Except.ok.inj hmeet ▸ hr
  | cons h hs ih =>
      simp only [meetAll, Outcome.bind_eq_ok] at hmeet
      obtain ⟨r₁, h₁, hmeet⟩ := hmeet
      obtain ⟨hhead, htail⟩ := List.forall_mem_cons.mp hstep
      exact ih htail (hhead r r₁ hr h₁) hmeet

/-- What a comparison does to the equalities: a new one is the normal form of one with the
coefficients of the half-space. -/
theorem Meets.equalities (hmeets : Meets all h r r') :
    r'.equalities = r.equalities ∨ ∃ e,
      (Constraint.normalize (.eq ⟨h.coeffs, h.constant⟩) : Outcome EngineError _) = .ok (some e) ∧
      ∀ d, d ∈ r'.equalities ↔ d ∈ r.equalities ∨ d = e := by
  cases hmeets with
  | skip _ => exact Or.inl rfl
  | apart _ => exact Or.inl rfl
  | clash _ _ _ _ _ equalities => exact Or.inl equalities
  | merge o e _ _ _ normal => exact Or.inr ⟨e, normal, fun d => mem_addEquality⟩

/-- Whatever holds of the known equalities and of the new ones holds of all. -/
theorem forall_equalities_of_meetAll (hn : (all.map (·.coeffs)).Nodup) {P : Constraint → Prop}
    (hnew : ∀ h ∈ hs, ∀ e, (Constraint.normalize (.eq ⟨h.coeffs, h.constant⟩) :
      Outcome EngineError _) = .ok (some e) → P e) (hr : ∀ e ∈ r.equalities, P e)
    (hmeet : meetAll all hs r = .ok r') : ∀ e ∈ r'.equalities, P e := by
  refine meetAll_induction (P := fun r => ∀ e ∈ r.equalities, P e) (fun h hh r r' hr hmeet => ?_)
    hr hmeet
  rcases (meet_cases hn hmeet).equalities with heqs | ⟨e, he, heqs⟩
  · exact heqs ▸ hr
  · intro d hd
    rcases (heqs d).mp hd with hd | rfl
    · exact hr d hd
    · exact hnew h hh d he

/-- No equality is there twice. -/
theorem nodup_meetAll (hn : (all.map (·.coeffs)).Nodup) (hr : r.equalities.Nodup)
    (hmeet : meetAll all hs r = .ok r') : r'.equalities.Nodup := by
  refine meetAll_induction (P := fun r => r.equalities.Nodup) (fun h _ r r' hr hmeet => ?_) hr hmeet
  cases meet_cases hn hmeet with
  | skip _ => exact hr
  | apart _ => exact hr
  | clash _ _ _ _ _ equalities => exact equalities ▸ hr
  | merge o e _ _ _ _ => exact nodup_addEquality (r := { r with dropped := _ }) hr

/-! ## inequalities parallel to an equality -/

/-- What looking for a half-space with coefficients `cs` may do: nothing if there is none;
otherwise it is dropped, and `clash` tells whether that is a contradiction. -/
inductive Drops (all : List HalfSpace) (cs : List Int) (clash : HalfSpace → Bool) (r : Reduction) :
    Reduction → Prop
  | none (absent : ∀ g ∈ all, g.coeffs ≠ cs) : Drops all cs clash r r
  | drop (g : HalfSpace) (mem : g ∈ all) (coeffs : g.coeffs = cs) :
      Drops all cs clash r (r.drop g (clash g))

variable {cs : List Int} {clash : HalfSpace → Bool}

/-- Dropping half-spaces leaves the equalities alone. -/
theorem Drops.equalities (hdrops : Drops all cs clash r r') : r'.equalities = r.equalities := by
  cases hdrops <;> rfl

theorem Drops.mem_dropped (hdrops : Drops all cs clash r r') :
    ∀ ds ∈ r'.dropped, ds ∈ r.dropped ∨ ds = cs := by
  cases hdrops with
  | none _ => exact fun _ hds => Or.inl hds
  | drop g _ coeffs =>
      intro ds hds
      rcases List.mem_cons.mp hds with rfl | hds
      · exact Or.inr coeffs
      · exact Or.inl hds

/-- Without a contradiction no half-space with the coefficients is one. -/
theorem Drops.feasible (hn : (all.map (·.coeffs)).Nodup) (hdrops : Drops all cs clash r r')
    (hf : r'.infeasible = false) :
    r.infeasible = false ∧ ∀ g ∈ all, g.coeffs = cs → clash g = false := by
  cases hdrops with
  | none absent => exact ⟨hf, fun g hg hcs => absurd hcs (absent g hg)⟩
  | drop g mem coeffs =>
      obtain ⟨hr, hclash⟩ := Bool.or_eq_false_iff.mp hf
      refine ⟨hr, fun k hk hcs => ?_⟩
      rwa [HalfSpace.eq_of_coeffs_eq hn hk mem (hcs.trans coeffs.symm)]

/-- Dropping the half-spaces parallel or opposite to an equality is two such steps. -/
theorem absorb_cases (hn : (all.map (·.coeffs)).Nodup) (habsorb : r.absorb all e = .ok r') :
    ∃ r₁, Drops all e.coeffs (fun g => decide (g.constant < e.constant)) r r₁ ∧
      Drops all (e.coeffs.map (-·)) (fun g => decide (g.constant + e.constant < 0)) r₁ r' := by
  unfold absorb at habsorb
  split at habsorb
  · simp at habsorb
  refine ⟨r.dropParallel all e, ?_, ?_⟩
  · unfold dropParallel
    split
    · next g hg =>
      obtain ⟨hgmem, hgcs⟩ := (HalfSpace.parallel?_iff hn).mp hg
      exact .drop g hgmem hgcs
    · next hnone =>
      refine .none fun g hg hcs => ?_
      rw [(HalfSpace.parallel?_iff hn).mpr ⟨hg, hcs⟩] at hnone
      cases hnone
  · unfold dropOpposite at habsorb
    split at habsorb
    · next g hg =>
      obtain ⟨hgmem, hgcs⟩ := (HalfSpace.opposite?_iff hn).mp hg
      simp only [Outcome.bind_eq_ok, Outcome.orOverflow_eq_ok, Word.add?_eq_some,
        Outcome.pure_eq_ok] at habsorb
      obtain ⟨slack, ⟨-, rfl⟩, rfl⟩ := habsorb
      exact .drop g hgmem hgcs
    · next hnone =>
      refine Except.ok.inj habsorb ▸ .none fun g hg hcs => ?_
      rw [(HalfSpace.opposite?_iff hn).mpr ⟨hg, hcs⟩] at hnone
      cases hnone

/-- Comparing half-spaces with equalities keeps what comparing them with one keeps. -/
theorem absorbAll_induction {es : List Constraint} {P : Reduction → Prop}
    (hstep : ∀ e ∈ es, ∀ r r', P r → r.absorb all e = .ok r' → P r') (hr : P r)
    (habsorb : absorbAll all es r = .ok r') : P r' := by
  induction es generalizing r with
  | nil => exact Except.ok.inj habsorb ▸ hr
  | cons e es ih =>
      simp only [absorbAll, Outcome.bind_eq_ok] at habsorb
      obtain ⟨r₁, h₁, habsorb⟩ := habsorb
      obtain ⟨hhead, htail⟩ := List.forall_mem_cons.mp hstep
      exact ih htail (hhead r r₁ hr h₁) habsorb

/-- An equality absorbs half-spaces, and no other equality. -/
theorem equalities_absorb (hn : (all.map (·.coeffs)).Nodup) (habsorb : r.absorb all e = .ok r') :
    r'.equalities = r.equalities := by
  obtain ⟨r₁, hparallel, hopposite⟩ := absorb_cases hn habsorb
  exact hopposite.equalities.trans hparallel.equalities

/-- Half-spaces are dropped; the equalities stay. -/
theorem equalities_absorbAll (hn : (all.map (·.coeffs)).Nodup) {es : List Constraint}
    (habsorb : absorbAll all es r = .ok r') : r'.equalities = r.equalities :=
  absorbAll_induction (P := fun r' => r'.equalities = r.equalities)
    (fun _ _ _ _ hr h => (equalities_absorb hn h).trans hr) rfl habsorb

/-! ## what is kept -/

theorem mem_rows {t : Sorted} {c : Constraint} :
    c ∈ rows t r ↔ c ∈ r.equalities ∨
      ∃ h ∈ t.halfSpaces, h.coeffs ∉ r.dropped ∧ h.toConstraint = c := by
  have hkept : ∀ h : HalfSpace,
      (!r.dropped.any (Coeffs.eqv h.coeffs)) = true ↔ h.coeffs ∉ r.dropped := by
    intro h
    simp only [Bool.not_eq_true', List.any_eq_false, Coeffs.eqv_iff]
    exact ⟨fun hne hmem => hne _ hmem rfl, fun hmem cs hcs heq => hmem (heq ▸ hcs)⟩
  simp only [rows, List.mem_append, List.mem_map, List.mem_filter, hkept, and_assoc]

/-- Equalities and half-spaces differ in their kind, half-spaces among each other in
their coefficients. -/
theorem nodup_rows {t : Sorted} (hn : (t.halfSpaces.map (·.coeffs)).Nodup)
    (hr : r.equalities.Nodup) (hkind : ∀ e ∈ r.equalities, e.kind = .equality) :
    (rows t r).Nodup := by
  unfold rows
  dsimp only
  generalize hkept : t.halfSpaces.filter (fun h => !r.dropped.any (Coeffs.eqv h.coeffs)) = kept
  have hkeptn : (kept.map (·.coeffs)).Nodup := hkept ▸ hn.sublist (List.filter_sublist.map _)
  have hhalf : (kept.map HalfSpace.toConstraint).Nodup := by
    refine List.Nodup.of_map Constraint.coeffs ?_
    rw [List.map_map]
    exact hkeptn
  refine List.nodup_append.mpr ⟨hr, hhalf, ?_⟩
  rintro e he c hc rfl
  obtain ⟨g, -, rfl⟩ := List.mem_map.mp hc
  cases hkind _ he

end Reduction

/-- The phases of a simplification. -/
theorem simplify_eq_ok {s t : Polyhedron} (hs : s.infeasible = false) (h : s.simplify = .ok t) :
    ∃ r₁ r₂, Reduction.meetAll s.sorted.halfSpaces s.sorted.halfSpaces s.sorted.start = .ok r₁ ∧
      Reduction.absorbAll s.sorted.halfSpaces r₁.equalities r₁ = .ok r₂ ∧
      t = if r₂.infeasible then { s with constraints := [], infeasible := true }
        else { s with constraints := Reduction.rows s.sorted r₂ } := by
  unfold simplify at h
  rw [if_neg (by simp [hs])] at h
  simp only [Outcome.bind_eq_ok] at h
  obtain ⟨r₁, hmeet, r₂, habsorb, h⟩ := h
  refine ⟨r₁, r₂, hmeet, habsorb, ?_⟩
  split at h
  · next hinf => rw [if_pos hinf, Outcome.pure_eq_ok.mp h]
  · next hinf => rw [if_neg hinf, ← Outcome.pure_eq_ok.mp h]

/-- The equalities in between are equalities. -/
theorem Sorted.From.kind_meetAll {cs : List Constraint} {t : Sorted} (ht : t.From cs)
    {r : Reduction} (hmeet : Reduction.meetAll t.halfSpaces t.halfSpaces t.start = .ok r) :
    ∀ e ∈ r.equalities, e.kind = .equality :=
  Reduction.forall_equalities_of_meetAll ht.nodup
    (fun _ _ _ he => (Constraint.sameSet_of_normalize he).kind) ht.kind hmeet

/-- Simplification leaves no constraint twice, whatever it starts with. -/
theorem nodup_simplify {s t : Polyhedron} (h : s.simplify = .ok t) : t.constraints.Nodup := by
  cases hinf : s.infeasible with
  | true =>
      simp only [simplify, hinf, if_true, Except.ok.injEq] at h
      simp [← h]
  | false =>
      obtain ⟨r₁, r₂, hmeet, habsorb, rfl⟩ := simplify_eq_ok hinf h
      have hfrom := s.sorted_from
      have heqs := Reduction.equalities_absorbAll hfrom.nodup habsorb
      split
      · simp
      · refine Reduction.nodup_rows hfrom.nodup ?_ (heqs ▸ hfrom.kind_meetAll hmeet)
        rw [heqs]
        exact Reduction.nodup_meetAll hfrom.nodup hfrom.nodup_equalities.of_map hmeet

end Polyhedron

end KernelMap
