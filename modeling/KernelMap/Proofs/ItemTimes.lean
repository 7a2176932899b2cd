import KernelMap.Body.Interchange
import KernelMap.Proofs.Copies
import KernelMap.Proofs.LeafOrder

/-!
# KernelMap.Proofs.ItemTimes

When the items of a kernel body run.

An item at a level has a slot there, and around it the coordinates of the statements it serves
(`Item.At`).  Copies are made group by group, and each shared group adds its needs to the barriers
of its level: these serve the statements of all shared groups with copies there, at the least or
greatest of their constants (`Body.Scheduled`).  Moving loops below the thread ids changes nothing
of this (`Body.Scheduled.congr`).
-/

namespace KernelMap

/-! ## times of items -/

/-- The item is in `slot` at a level, and `rank` compares its coordinates around it. -/
structure Item.At (i : Item) (level : Nat) (rank : Nat → WithTop Int) (slot : Int) : Prop where
  body : ∀ j < level, i.rank? (2 * j) = some Slot.body
  coord : ∀ j < level, i.rank? (2 * j + 1) = some (rank j)
  slot : i.rank? (2 * level) = some slot

namespace Item.At

variable {i i' : Item} {level n pos : Nat} {rank rank' : Nat → WithTop Int} {slot slot' : Int}

/-- What is in the body of a level is in the body of those around it. -/
theorem outward (h : i.At n rank Slot.body) (hlevel : level ≤ n) : i.At level rank Slot.body where
  body j hj := h.body j (by omega)
  coord j hj := h.coord j (by omega)
  slot := by
    rcases hlevel.eq_or_lt with rfl | hlt
    · exact h.slot
    · exact h.body level hlt

/-- Where an item is depends only on the ranks of its time up to the slot. -/
theorem congr (h : i.At level rank slot) (hrank : ∀ q ≤ 2 * level, i'.rank? q = i.rank? q) :
    i'.At level rank slot where
  body j hj := by rw [hrank _ (by omega), h.body j hj]
  coord j hj := by rw [hrank _ (by omega), h.coord j hj]
  slot := by rw [hrank _ le_rfl, h.slot]

/-- At one level the slot decides, if no coordinate stands against it. -/
theorem remaining_lt (h : i.At level rank slot) (h' : i'.At level rank' slot')
    (hrank : ∀ j < level, rank j ≤ rank' j) (hslot : slot < slot') (hpos : pos ≤ 2 * level) :
    i.remaining pos < i'.remaining pos := by
  refine Item.remaining_lt_of_rank?_lt hpos (fun q _ hq => ?_) h.slot h'.slot
    (by exact_mod_cast hslot)
  rcases Nat.even_or_odd' q with ⟨j, rfl | rfl⟩
  · exact ⟨_, _, h.body j (by omega), h'.body j (by omega), le_rfl⟩
  · exact ⟨_, _, h.coord j (by omega), h'.coord j (by omega), hrank j (by omega)⟩

/-- Items agree up to coordinate `l`, if their coordinates do. -/
theorem rank?_eq (h : i.At level rank slot) (h' : i'.At level rank' slot') {l : Nat}
    (hl : l < level) (hrank : ∀ j ≤ l, rank j = rank' j) {q : Nat} (hq : q ≤ 2 * l + 1) :
    i.rank? q = i'.rank? q := by
  rcases Nat.even_or_odd' q with ⟨j, rfl | rfl⟩
  · rw [h.body j (by omega), h'.body j (by omega)]
  · rw [h.coord j (by omega), h'.coord j (by omega), hrank j (by omega)]

end Item.At

namespace KernelSchedule

/-- Coordinate `j` of the statement at position `s`, where it is constant. -/
def constantAt (k : KernelSchedule) (s j : Nat) : Int :=
  (k.statements[s]?.bind (·.dims[j]?)).elim 0 (·.constant)

theorem constantAt_congr {k : KernelSchedule} {s s' : Nat}
    (h : k.statements[s]? = k.statements[s']?) (j : Nat) :
    k.constantAt s j = k.constantAt s' j := by
  rw [constantAt, constantAt, h]

end KernelSchedule

/-- The slot of copies in a direction. -/
def Direction.slot : Direction → Int
  | .copyIn => Slot.copyIn
  | .copyOut => Slot.copyOut

/-- Copies in come before the statements they serve, and copies out after them. -/
def Direction.pick : Direction → Body.Pick
  | .copyIn => .first
  | .copyOut => .last

/-- The number of the group that is copied. -/
def Work.group? : Work → Option Nat
  | .copy group .. => some group
  | _ => none

namespace Body

variable {k : KernelSchedule} {ss ss' : List Nat} {pick : Pick} {j : Nat}

/-- The first of some values is the least of them. -/
theorem Pick.exists_first (f : Nat → Int) (h : ss ≠ []) :
    ∃ s ∈ ss, Pick.first.choose (ss.map f) = f s ∧ ∀ s' ∈ ss, f s ≤ f s' := by
  cases ss with
  | nil => contradiction
  | cons s ss =>
      have hchoose : ((s :: ss).map f).min? = some (Pick.first.choose ((s :: ss).map f)) :=
        List.min?_cons'
      obtain ⟨hmem, hle⟩ := List.min?_eq_some_iff.mp hchoose
      obtain ⟨t, ht, heq⟩ := List.mem_map.mp hmem
      exact ⟨t, ht, heq.symm, fun s' hs' => heq ▸ hle _ (List.mem_map_of_mem hs')⟩

/-- The last of some values is the greatest of them. -/
theorem Pick.exists_last (f : Nat → Int) (h : ss ≠ []) :
    ∃ s ∈ ss, Pick.last.choose (ss.map f) = f s ∧ ∀ s' ∈ ss, f s' ≤ f s := by
  cases ss with
  | nil => contradiction
  | cons s ss =>
      have hchoose : ((s :: ss).map f).max? = some (Pick.last.choose ((s :: ss).map f)) :=
        List.max?_cons'
      obtain ⟨hmem, hle⟩ := List.max?_eq_some_iff.mp hchoose
      obtain ⟨t, ht, heq⟩ := List.mem_map.mp hmem
      exact ⟨t, ht, heq.symm, fun s' hs' => heq ▸ hle _ (List.mem_map_of_mem hs')⟩

/-- The chosen value is one of those given. -/
theorem Pick.exists_choose (pick : Pick) (f : Nat → Int) (h : ss ≠ []) :
    ∃ s ∈ ss, pick.choose (ss.map f) = f s := by
  cases pick with
  | first => exact (Pick.exists_first f h).imp fun s hs => ⟨hs.1, hs.2.1⟩
  | last => exact (Pick.exists_last f h).imp fun s hs => ⟨hs.1, hs.2.1⟩

/-- How coordinate `j` of an item that serves the statements is compared. -/
def leadRank (k : KernelSchedule) (ss : List Nat) (pick : Pick) (j : Nat) : WithTop Int :=
  (leadMoment k ss pick j).rank (2 * j + 1)

/-- At a constant coordinate, an item is compared by the value of the statement that leads it. -/
theorem leadRank_of_constant (h : k.isConstantDim j = true) :
    leadRank k ss pick j = (pick.choose (ss.map (k.constantAt · j)) : Int) := by
  simp only [leadRank, leadMoment, h, if_true, Moment.rank]
  rw [if_neg (by omega)]
  rfl

/-- At a varying coordinate, an item comes last. -/
theorem leadRank_of_varying (h : k.isConstantDim j = false) : leadRank k ss pick j = ⊤ := by
  simp [leadRank, leadMoment, h, Moment.rank]

/-- The first of some statements is not behind that of others if each of those has one as early. -/
theorem leadRank_first_le (hss' : ss' ≠ [])
    (h : k.isConstantDim j = true → ∀ s' ∈ ss', ∃ s ∈ ss, k.constantAt s j ≤ k.constantAt s' j) :
    leadRank k ss .first j ≤ leadRank k ss' .first j := by
  cases hconst : k.isConstantDim j with
  | false => rw [leadRank_of_varying hconst, leadRank_of_varying hconst]
  | true =>
      obtain ⟨s', hs', heq', -⟩ := Pick.exists_first (k.constantAt · j) hss'
      obtain ⟨s, hs, hle⟩ := h hconst s' hs'
      obtain ⟨t, -, heq, hmin⟩ := Pick.exists_first (k.constantAt · j) (List.ne_nil_of_mem hs)
      rw [leadRank_of_constant hconst, leadRank_of_constant hconst, heq, heq']
      exact_mod_cast (hmin s hs).trans hle

/-- The last of some statements is not behind that of others if each has one there as late. -/
theorem leadRank_last_le (hss : ss ≠ [])
    (h : k.isConstantDim j = true → ∀ s ∈ ss, ∃ s' ∈ ss', k.constantAt s j ≤ k.constantAt s' j) :
    leadRank k ss .last j ≤ leadRank k ss' .last j := by
  cases hconst : k.isConstantDim j with
  | false => rw [leadRank_of_varying hconst, leadRank_of_varying hconst]
  | true =>
      obtain ⟨s, hs, heq, -⟩ := Pick.exists_last (k.constantAt · j) hss
      obtain ⟨s', hs', hle⟩ := h hconst s hs
      obtain ⟨t, -, heq', hmax⟩ := Pick.exists_last (k.constantAt · j) (List.ne_nil_of_mem hs')
      rw [leadRank_of_constant hconst, leadRank_of_constant hconst, heq, heq']
      exact_mod_cast hle.trans (hmax s' hs')

/-- Items of statements with the same constants are compared as equal. -/
theorem leadRank_eq {pick' : Pick} (hss : ss ≠ []) (hss' : ss' ≠ [])
    (h : k.isConstantDim j = true → ∀ s ∈ ss, ∀ s' ∈ ss', k.constantAt s j = k.constantAt s' j) :
    leadRank k ss pick j = leadRank k ss' pick' j := by
  cases hconst : k.isConstantDim j with
  | false => rw [leadRank_of_varying hconst, leadRank_of_varying hconst]
  | true =>
      obtain ⟨s, hs, heq⟩ := Pick.exists_choose pick (k.constantAt · j) hss
      obtain ⟨s', hs', heq'⟩ := Pick.exists_choose pick' (k.constantAt · j) hss'
      rw [leadRank_of_constant hconst, leadRank_of_constant hconst, heq, heq', h hconst s hs s' hs']

/-- More statements put the item that trails them later. -/
theorem leadRank_last_mono (hss : ss ≠ []) (hsub : ss ⊆ ss') :
    leadRank k ss .last j ≤ leadRank k ss' .last j :=
  leadRank_last_le hss fun _ s hs => ⟨s, hsub hs, le_rfl⟩

/-- The first of several statements is not behind one of them. -/
theorem leadRank_first_le_of_mem {s s' : Nat} (hs' : s' ∈ ss)
    (h : k.constantAt s j = k.constantAt s' j) :
    leadRank k ss .first j ≤ leadRank k [s] .first j := by
  refine leadRank_first_le (by simp) fun _ t ht => ⟨s', hs', ?_⟩
  rw [List.mem_singleton.mp ht, h]

/-- The last of several statements is not before one of them. -/
theorem le_leadRank_last_of_mem {s s' : Nat} (hs' : s' ∈ ss)
    (h : k.constantAt s j = k.constantAt s' j) :
    leadRank k [s] .first j ≤ leadRank k ss .last j := by
  have hsingle : leadRank k [s] .first j = leadRank k [s] .last j := rfl
  rw [hsingle]
  refine leadRank_last_le (by simp) fun _ t ht => ⟨s', hs', ?_⟩
  rw [List.mem_singleton.mp ht, h]

theorem length_leadTime (level : Nat) : (leadTime k level ss pick).length = 2 * level := by
  simp [leadTime, List.length_flatMap]
  omega

/-- A slot of the body is in front of each coordinate. -/
theorem getElem?_leadTime {level : Nat} (hj : j < level) :
    (leadTime k level ss pick)[2 * j]? = some (.slot Slot.body) ∧
    (leadTime k level ss pick)[2 * j + 1]? = some (leadMoment k ss pick j) := by
  induction level with
  | zero => omega
  | succ level ih =>
      have hsucc : leadTime k (level + 1) ss pick =
          leadTime k level ss pick ++ [.slot Slot.body, leadMoment k ss pick level] := by
        simp [leadTime, List.range_succ]
      rw [hsucc]
      rcases Nat.lt_succ_iff_lt_or_eq.mp hj with hj | rfl
      · rw [List.getElem?_append_left (by rw [length_leadTime]; omega),
          List.getElem?_append_left (by rw [length_leadTime]; omega)]
        exact ih hj
      · rw [List.getElem?_append_right (by rw [length_leadTime]),
          List.getElem?_append_right (by rw [length_leadTime]; omega), length_leadTime,
          Nat.sub_self, Nat.add_sub_cancel_left]
        simp

/-- An item whose time leads statements to a slot is in that slot. -/
theorem at_of_leadTime {i : Item} {level : Nat} {slot : Int} {rest : List Moment}
    (h : i.time = leadTime k level ss pick ++ .slot slot :: rest) :
    i.At level (leadRank k ss pick) slot where
  body j hj := by
    rw [Item.rank?, h, List.getElem?_append_left (by rw [length_leadTime]; omega),
      (getElem?_leadTime hj).1]
    simp [Moment.rank]
  coord j hj := by
    rw [Item.rank?, h, List.getElem?_append_left (by rw [length_leadTime]; omega),
      (getElem?_leadTime hj).2]
    rfl
  slot := by
    rw [Item.rank?, h, List.getElem?_append_right (by rw [length_leadTime]),
      length_leadTime, Nat.sub_self]
    simp [Moment.rank]

/-! ## transfers -/

/-- The copies of group number `index`. -/
structure Transfer where
  index : Nat
  group : Group
  level : Nat
  needs : CopyNeeds

namespace Transfer

variable {sc : Scope} {groups : List Group}

/-- The items of the copies. -/
def items (sc : Scope) (groups : List Group) (t : Transfer) : List Item :=
  let item := copyItem sc.schedule t.index (t.group.localName groups) t.group.memory t.level
    (statementsOf sc t.group)
  item .copyIn t.needs.into ++ item .copyOut t.needs.out

/-- The barriers for the copies. -/
def barrier (sc : Scope) (t : Transfer) : Barrier :=
  ⟨t.level, !t.needs.into.isEmpty, !t.needs.out.isEmpty, statementsOf sc t.group⟩

/-- The copies need barriers: there are some, and they are shared. -/
def isFenced (sc : Scope) (groups : List Group) (t : Transfer) : Bool :=
  t.group.memory == .shared && !(t.items sc groups).isEmpty

/-- Add the barriers for the copies. -/
def fence (sc : Scope) (groups : List Group) (bs : List Barrier) (t : Transfer) : List Barrier :=
  if t.isFenced sc groups then addBarrier (t.barrier sc) bs else bs

/-- The transfer is that of a group of the list, which starts with number `gi`. -/
structure IsOf (sc : Scope) (gi : Nat) (gs : List Group) (t : Transfer) : Prop where
  group : ∃ i, t.index = gi + i ∧ gs[i]? = some t.group
  level : copyLevel? sc.schedule t.group = some t.level
  needs : copyNeeds sc t.group t.level = .ok t.needs

theorem IsOf.cons {gi : Nat} {g : Group} {gs : List Group} {t : Transfer}
    (h : t.IsOf sc (gi + 1) gs) : t.IsOf sc gi (g :: gs) := by
  obtain ⟨⟨i, hi, hg⟩, hlevel, hneeds⟩ := h
  exact ⟨⟨i + 1, by omega, by simpa using hg⟩, hlevel, hneeds⟩

end Transfer

/-- Copies and barriers are those of one transfer after the other. -/
theorem exists_transfers {sc : Scope} {groups gs : List Group} {gi : Nat} {bs bs' : List Barrier}
    {items : List Item} (h : copyItems sc groups gi gs bs = .ok (items, bs')) :
    ∃ ts : List Transfer, (∀ t ∈ ts, t.IsOf sc gi gs) ∧
      items = ts.flatMap (Transfer.items sc groups) ∧
      bs' = ts.foldl (Transfer.fence sc groups) bs := by
  induction gs generalizing gi bs items with
  | nil =>
      simp only [copyItems, Except.ok.injEq, Prod.mk.injEq] at h
      obtain ⟨rfl, rfl⟩ := h
      exact ⟨[], by simp, rfl, rfl⟩
  | cons g gs ih =>
      simp only [copyItems] at h
      split at h
      · obtain ⟨ts, hts, hitems, hbarriers⟩ := ih h
        exact ⟨ts, fun t ht => (hts t ht).cons, hitems, hbarriers⟩
      · next level hlevel =>
        simp only [Outcome.bind_eq_ok] at h
        obtain ⟨needs, hneeds, ⟨rest, bs₁⟩, hrest, h⟩ := h
        simp only [Outcome.pure_eq_ok, Prod.mk.injEq] at h
        obtain ⟨rfl, rfl⟩ := h
        obtain ⟨ts, hts, rfl, hbarriers⟩ := ih hrest
        refine ⟨⟨gi, g, level, needs⟩ :: ts, ?_, rfl, hbarriers⟩
        exact List.forall_mem_cons.mpr ⟨⟨⟨0, rfl, rfl⟩, hlevel, hneeds⟩,
          fun t ht => (hts t ht).cons⟩

/-- The references to copy in a direction. -/
def CopyNeeds.refs (needs : CopyNeeds) : Direction → List Nat
  | .copyIn => needs.into
  | .copyOut => needs.out

/-- A copy item is for some references and has the time of the statements that it serves. -/
theorem mem_copyItem {gi level : Nat} {var : String} {memory : Memory} {d : Direction}
    {refs : List Nat} {i : Item} (h : i ∈ copyItem k gi var memory level ss d refs) :
    refs ≠ [] ∧ i = ⟨.copy gi var d memory refs, leadTime k level ss d.pick ++
      [.slot d.slot, .const gi]⟩ := by
  unfold copyItem at h
  split at h
  · simp at h
  · next hrefs =>
    refine ⟨by simpa using hrefs, ?_⟩
    cases d <;> exact List.mem_singleton.mp h

namespace Transfer

variable {sc : Scope} {groups : List Group} {t : Transfer}

/-- An item of a transfer copies in one direction what is needed there, in the slot of that
direction. -/
theorem mem_items {i : Item} (h : i ∈ t.items sc groups) : ∃ d, t.needs.refs d ≠ [] ∧
    i = ⟨.copy t.index (t.group.localName groups) d t.group.memory (t.needs.refs d),
      leadTime sc.schedule t.level (statementsOf sc t.group) d.pick ++
      [.slot d.slot, .const t.index]⟩ := by
  rcases List.mem_append.mp h with h | h
  · exact ⟨.copyIn, mem_copyItem h⟩
  · exact ⟨.copyOut, mem_copyItem h⟩

/-- The items of a transfer copy its group. -/
theorem group?_of_mem_items {i : Item} (h : i ∈ t.items sc groups) :
    i.work.group? = some t.index := by
  obtain ⟨d, -, rfl⟩ := mem_items h
  rfl

end Transfer

/-! ## barriers -/

/-- The barriers have what is needed at a level. -/
def Provides (bs : List Barrier) (b : Barrier) : Prop :=
  ∃ c ∈ bs, c.level = b.level ∧ (b.before = true → c.before = true) ∧
    (b.after = true → c.after = true) ∧
    b.statements ⊆ c.statements

section Fold

variable {b b' c : Barrier} {bs : List Barrier} {s : Nat}

/-- An added barrier is provided. -/
theorem provides_addBarrier : Provides (addBarrier b bs) b := by
  induction bs with
  | nil => exact ⟨b, by simp [addBarrier], rfl, id, id, List.Subset.refl _⟩
  | cons c cs ih =>
      unfold addBarrier
      split
      · exact ⟨b, by simp, rfl, id, id, List.Subset.refl _⟩
      split
      · obtain ⟨d, hd, hprovides⟩ := ih
        exact ⟨d, by simp [hd], hprovides⟩
      · exact ⟨_, List.mem_cons_self, by dsimp only; omega, by simp +contextual, by
          simp +contextual, by simp⟩

/-- What is provided stays so when barriers are added. -/
theorem Provides.addBarrier (h : Provides bs b) : Provides (addBarrier b' bs) b := by
  obtain ⟨c, hc, hlevel, hbefore, hafter, hsub⟩ := h
  induction bs with
  | nil => simp at hc
  | cons d ds ih =>
      unfold Body.addBarrier
      split
      · exact ⟨c, List.mem_cons_of_mem _ hc, hlevel, hbefore, hafter, hsub⟩
      split
      · rcases List.mem_cons.mp hc with rfl | hc
        · exact ⟨c, by simp, hlevel, hbefore, hafter, hsub⟩
        · obtain ⟨e, he, hprovides⟩ := ih hc
          exact ⟨e, by simp [he], hprovides⟩
      · rcases List.mem_cons.mp hc with rfl | hc
        · refine ⟨_, List.mem_cons_self, hlevel, fun h => ?_, fun h => ?_, fun s hs => ?_⟩
          · simp [hbefore h]
          · simp [hafter h]
          · exact List.mem_append_left _ (hsub hs)
        · exact ⟨c, List.mem_cons_of_mem _ hc, hlevel, hbefore, hafter, hsub⟩

/-- A barrier serves only what it was added for. -/
theorem mem_statements_of_addBarrier (hc : c ∈ addBarrier b bs) (hs : s ∈ c.statements) :
    (c.level = b.level ∧ s ∈ b.statements) ∨ ∃ d ∈ bs, d.level = c.level ∧ s ∈ d.statements := by
  induction bs with
  | nil =>
      obtain rfl : c = b := by simpa [addBarrier] using hc
      exact Or.inl ⟨rfl, hs⟩
  | cons d ds ih =>
      unfold addBarrier at hc
      split at hc
      · rcases List.mem_cons.mp hc with rfl | hc
        · exact Or.inl ⟨rfl, hs⟩
        · exact Or.inr ⟨c, hc, rfl, hs⟩
      split at hc
      · rcases List.mem_cons.mp hc with rfl | hc
        · exact Or.inr ⟨c, by simp, rfl, hs⟩
        · refine (ih hc).imp_right ?_
          rintro ⟨e, he, hlevel⟩
          exact ⟨e, by simp [he], hlevel⟩
      · rcases List.mem_cons.mp hc with rfl | hc
        · rcases List.mem_append.mp hs with hs | hs
          · exact Or.inr ⟨d, by simp, rfl, hs⟩
          · exact Or.inl ⟨by dsimp only; omega, hs⟩
        · exact Or.inr ⟨c, by simp [hc], rfl, hs⟩

/-- Adding a barrier brings in no other level than its own. -/
theorem level_of_mem_addBarrier (hc : c ∈ addBarrier b bs) :
    c.level = b.level ∨ ∃ d ∈ bs, d.level = c.level := by
  induction bs with
  | nil =>
      obtain rfl : c = b := by simpa [addBarrier] using hc
      exact Or.inl rfl
  | cons d ds ih =>
      unfold addBarrier at hc
      by_cases hlt : b.level < d.level
      · rw [if_pos hlt] at hc
        exact (List.mem_cons.mp hc).imp (congrArg Barrier.level) fun hc => ⟨c, hc, rfl⟩
      rw [if_neg hlt] at hc
      by_cases hgt : d.level < b.level
      · rw [if_pos hgt] at hc
        rcases List.mem_cons.mp hc with rfl | hc
        · exact Or.inr ⟨c, List.mem_cons_self, rfl⟩
        · exact (ih hc).imp_right fun ⟨e, he, hlevel⟩ => ⟨e, List.mem_cons_of_mem d he, hlevel⟩
      · rw [if_neg hgt] at hc
        rcases List.mem_cons.mp hc with rfl | hc
        · exact Or.inr ⟨d, List.mem_cons_self, rfl⟩
        · exact Or.inr ⟨c, List.mem_cons_of_mem d hc, rfl⟩

variable {sc : Scope} {groups : List Group} {ts : List Transfer}

/-- Barriers are at the levels of the transfers they were added for. -/
theorem exists_level_of_mem_foldl (hc : c ∈ ts.foldl (Transfer.fence sc groups) bs) :
    (∃ t ∈ ts, t.isFenced sc groups = true ∧ t.level = c.level) ∨ ∃ d ∈ bs, d.level = c.level := by
  induction ts generalizing bs with
  | nil => exact Or.inr ⟨c, hc, rfl⟩
  | cons t ts ih =>
      rcases ih hc with ⟨t', ht', hfenced⟩ | ⟨d, hd, hlevel⟩
      · exact Or.inl ⟨t', List.mem_cons_of_mem t ht', hfenced⟩
      unfold Transfer.fence at hd
      by_cases hfenced : t.isFenced sc groups = true
      · rw [if_pos hfenced] at hd
        rcases level_of_mem_addBarrier hd with hd | ⟨e, he, hlevel'⟩
        · exact Or.inl ⟨t, List.mem_cons_self, hfenced, hd.symm.trans hlevel⟩
        · exact Or.inr ⟨e, he, hlevel'.trans hlevel⟩
      · rw [if_neg hfenced] at hd
        exact Or.inr ⟨d, hd, hlevel⟩

/-- What is provided stays so when the barriers of transfers are added. -/
theorem Provides.foldl (h : Provides bs b) :
    Provides (ts.foldl (Transfer.fence sc groups) bs) b := by
  induction ts generalizing bs with
  | nil => exact h
  | cons t ts ih =>
      refine ih ?_
      unfold Transfer.fence
      split
      · exact h.addBarrier
      · exact h

/-- The barriers of each fenced transfer are provided. -/
theorem provides_foldl (bs : List Barrier) {t : Transfer} (ht : t ∈ ts)
    (hfenced : t.isFenced sc groups = true) :
    Provides (ts.foldl (Transfer.fence sc groups) bs) (t.barrier sc) := by
  induction ts generalizing bs with
  | nil => simp at ht
  | cons t' ts ih =>
      rcases List.mem_cons.mp ht with rfl | ht
      · have hstep : t.fence sc groups bs = addBarrier (t.barrier sc) bs := if_pos hfenced
        rw [List.foldl_cons, hstep]
        exact provides_addBarrier.foldl
      · exact ih _ ht

/-- The statements of a barrier come from a fenced transfer at its level, or were there before. -/
theorem exists_of_mem_foldl (hc : c ∈ ts.foldl (Transfer.fence sc groups) bs)
    (hs : s ∈ c.statements) :
    (∃ t ∈ ts, t.isFenced sc groups = true ∧ t.level = c.level ∧ s ∈ statementsOf sc t.group) ∨
      ∃ d ∈ bs, d.level = c.level ∧ s ∈ d.statements := by
  induction ts generalizing bs with
  | nil => exact Or.inr ⟨c, hc, rfl, hs⟩
  | cons t ts ih =>
      rcases ih hc with ⟨t', ht', hfenced⟩ | ⟨d, hd, hlevel, hsd⟩
      · exact Or.inl ⟨t', by simp [ht'], hfenced⟩
      · unfold Transfer.fence at hd
        split at hd
        · next hfenced =>
          rcases mem_statements_of_addBarrier hd hsd with ⟨hd, hsd⟩ | ⟨e, he, hlevel', hse⟩
          · exact Or.inl ⟨t, by simp, hfenced, hd.symm.trans hlevel, hsd⟩
          · exact Or.inr ⟨e, he, hlevel'.trans hlevel, hse⟩
        · exact Or.inr ⟨d, hd, hlevel, hsd⟩

end Fold

/-! ## moving loops -/

/-- Reordering coordinates keeps what an item does and its time up to the first of them. -/
theorem reorderItem_eq_ok {ε : Type} {start depth : Nat} {order : List Nat} {i i' : Item}
    (h : (reorderItem start depth order i : Outcome ε Item) = .ok i') :
    i'.work = i.work ∧ ∀ q ≤ 2 * start, i'.rank? q = i.rank? q := by
  unfold reorderItem at h
  split at h
  · simp only [Outcome.bind_eq_ok, Outcome.pure_eq_ok] at h
    obtain ⟨time, htime, rfl⟩ := h
    refine ⟨rfl, fun q hq => congrArg (Option.map (Moment.rank q)) ?_⟩
    obtain ⟨hlen, hget⟩ := List.forall₂_iff_get.mp (Outcome.mapM_eq_ok.mp htime)
    rw [List.length_range] at hlen
    by_cases hlt : q < i.time.length
    · have hentry := hget q (by simpa using hlt) (hlen ▸ hlt)
      have hfixed : ¬ (q % 2 = 1 ∧ start ≤ q / 2) := by omega
      simp only [List.get_eq_getElem, List.getElem_range, movedEntry, if_neg hfixed,
        Outcome.orFault_eq_ok] at hentry
      rw [hentry]
      exact List.getElem?_eq_getElem _
    · have hend : time.length ≤ q := by omega
      rw [List.getElem?_eq_none hend, List.getElem?_eq_none (by omega)]
  · simp only [Except.ok.injEq] at h
    exact h ▸ ⟨rfl, fun _ _ => rfl⟩

/-- Moving loops keeps the work, and the coordinates up to the thread ids. -/
theorem interchange_eq_ok {ε : Type} {b b' : Body} {moved : List Nat}
    (h : (b.interchange moved : Outcome ε Body) = .ok b') :
    List.Forall₂ (fun i i' => i'.work = i.work ∧ ∀ q ≤ 2 * b.schedule.privateLen,
      i'.rank? q = i.rank? q)
        b.items b'.items ∧
      ∀ l < b.schedule.privateLen, l < b.schedule.depth →
        b'.schedule.levels.getD l .inner = b.schedule.levels.getD l .inner := by
  unfold interchange at h
  split at h
  · simp only [Except.ok.injEq] at h
    subst h
    exact ⟨List.forall₂_same.mpr fun _ _ => ⟨rfl, fun _ _ => rfl⟩, fun _ _ _ => rfl⟩
  dsimp only at h
  split at h
  · simp at h
  · simp only [Outcome.bind_eq_ok, Outcome.pure_eq_ok] at h
    obtain ⟨statements, -, items, hitems, stage, -, rfl⟩ := h
    refine ⟨(Outcome.mapM_eq_ok.mp hitems).imp fun _ _ => reorderItem_eq_ok, fun l hl hdepth => ?_⟩
    have htake : l < (b.schedule.levels.take b.schedule.privateLen).length := by
      rw [List.length_take]
      exact lt_min hl hdepth
    simp only [reorder, List.getD_eq_getElem?_getD, List.append_assoc,
      List.getElem?_append_left htake, List.getElem?_take_of_lt hl]

/-! ## items of a body -/

section Items

variable {sc : Scope} {groups : List Group} {items items' : List Item} {g : Group}
  {gi level s : Nat}

/-- The item of a statement runs it in the body of all its coordinates. -/
theorem statementItem_eq_ok {ε : Type} {st : StmtSchedule} {i : Item}
    (hs : sc.schedule.statements[s]? = some st)
    (h : (statementItem sc s st : Outcome ε Item) = .ok i) :
    ∃ name, i = ⟨.statement s name, leadTime sc.schedule sc.schedule.depth [s] .first ++
      [.slot Slot.body]⟩ := by
  simp only [statementItem, Outcome.bind_eq_ok, Outcome.pure_eq_ok] at h
  obtain ⟨stmt, -, coords, hcoords, rfl⟩ := h
  have hmoment : ∀ j m, (statementMoment sc.schedule st j : Outcome ε Moment) = .ok m →
      leadMoment sc.schedule [s] .first j = m := by
    intro j m hm
    unfold statementMoment at hm
    unfold leadMoment
    split at hm
    · next hconst =>
      simp only [Outcome.bind_eq_ok, Outcome.orFault_eq_ok, Outcome.pure_eq_ok] at hm
      obtain ⟨dim, hdim, rfl⟩ := hm
      simp [hconst, Pick.choose, hs, hdim]
    · next hvary =>
      rw [if_neg hvary]
      exact Except.ok.inj hm
  have hlead : coords = (List.range sc.schedule.depth).map (leadMoment sc.schedule [s] .first) := by
    have hforall := (Outcome.mapM_eq_ok.mp hcoords).imp hmoment
    rw [← List.forall₂_eq_eq_eq, List.forall₂_map_right_iff]
    exact hforall.flip.imp fun _ _ heq => heq.symm
  exact ⟨stmt.name, by rw [hlead, List.flatMap_map]; rfl⟩

/-- Each of the statements' items runs one of them in the body of all its coordinates. -/
theorem mem_statementItems {ε : Type} {i : Item}
    (h : (statementItems sc : Outcome ε (List Item)) = .ok items) (hi : i ∈ items) :
    ∃ s name, s < sc.schedule.statements.length ∧
      i = ⟨.statement s name, leadTime sc.schedule sc.schedule.depth [s] .first ++
        [.slot Slot.body]⟩ := by
  obtain ⟨⟨s, st⟩, hmem, hitem⟩ := Outcome.exists_of_mem_of_mapM h hi
  have hs : sc.schedule.statements[s]? = some st := by
    obtain ⟨j, hj, hget⟩ := List.mem_iff_getElem.mp hmem
    simp only [List.getElem_zip, List.getElem_range, Prod.mk.injEq] at hget
    obtain ⟨rfl, rfl⟩ := hget
    exact List.getElem?_eq_getElem _
  obtain ⟨name, rfl⟩ := statementItem_eq_ok hs hitem
  exact ⟨s, name, (List.getElem?_eq_some_iff.mp hs).1, rfl⟩

theorem subset_of_uncovered {writes reads needed : List Nat}
    (h : uncovered sc writes level reads = .ok needed) : needed ⊆ reads := by
  induction reads generalizing needed with
  | nil =>
      simp only [uncovered, Except.ok.injEq] at h
      simp [← h]
  | cons r reads ih =>
      simp only [uncovered, Outcome.bind_eq_ok] at h
      obtain ⟨found, -, h⟩ := h
      cases found with
      | true => exact List.subset_cons_of_subset r (ih h)
      | false =>
          simp only [Bool.false_eq_true, if_false, Outcome.bind_eq_ok, Outcome.pure_eq_ok] at h
          obtain ⟨rest, hrest, rfl⟩ := h
          exact List.cons_subset_cons r (ih hrest)

/-- What is copied are references of the group that the kernel lists. -/
theorem mem_refsWhere_of_copyNeeds {needs : CopyNeeds} (h : copyNeeds sc g level = .ok needs)
    {d : Direction} {id : Nat} (hid : id ∈ needs.refs d) : ∃ q, id ∈ refsWhere sc g q := by
  simp only [copyNeeds, Outcome.bind_eq_ok, Outcome.ofEngine_eq_ok] at h
  obtain ⟨needed, hneeded, h⟩ := h
  have hsub := subset_of_uncovered hneeded
  have hinto : ∀ id ∈ (if g.definiteWrite then needed else
      Sorted.sortBy sc.order (needed ++ refsWhere sc g (·.isWrite))), ∃ q,
        id ∈ refsWhere sc g q := by
    intro id hid
    split at hid
    · exact ⟨_, hsub hid⟩
    · rw [(Sorted.perm_sortBy _ _).mem_iff, List.mem_append] at hid
      exact hid.elim (fun hid => ⟨_, hsub hid⟩) fun hid => ⟨_, hid⟩
  split at h
  · simp only [Outcome.bind_eq_ok] at h
    obtain ⟨array, -, h⟩ := h
    split at h <;> rw [← Outcome.pure_eq_ok.mp h] at hid <;> cases d
    · exact hinto id hid
    · simp [CopyNeeds.refs] at hid
    · exact hinto id hid
    · exact ⟨_, hid⟩
  · rw [← Outcome.pure_eq_ok.mp h] at hid
    cases d
    · exact hinto id hid
    · simp [CopyNeeds.refs] at hid

/-- Only a group with statements has something to copy. -/
theorem statementsOf_ne_nil {needs : CopyNeeds} (h : copyNeeds sc g level = .ok needs)
    {d : Direction} (hd : needs.refs d ≠ []) : statementsOf sc g ≠ [] := by
  obtain ⟨id, hid⟩ := List.exists_mem_of_ne_nil _ hd
  obtain ⟨q, hq⟩ := mem_refsWhere_of_copyNeeds h hid
  obtain ⟨hrefs, hany⟩ := List.mem_filter.mp hq
  cases hr : sc.reference? id with
  | none => simp [hr] at hany
  | some r =>
      have hs : r.position ∈ statementsOf sc g := by
        rw [statementsOf, Sorted.mem_distinct, List.mem_filterMap]
        exact ⟨id, hrefs, by simp [hr]⟩
      exact List.ne_nil_of_mem hs

/-- The statement is one of a shared group with copies at the level, which the barriers there
serve. -/
def Served (sc : Scope) (groups : List Group) (works : List Work) (level s : Nat) : Prop :=
  ∃ gi g, groups[gi]? = some g ∧ g.memory = .shared ∧ g.copyLevel = level ∧
    (∃ w ∈ works, w.group? = some gi) ∧
    s ∈ statementsOf sc g

theorem Served.mono {works works' : List Work} (h : Served sc groups works level s)
    (hsub : works ⊆ works') : Served sc groups works' level s := by
  obtain ⟨gi, g, hgi, hshared, hlevel, ⟨w, hw, hgroup⟩, hs⟩ := h
  exact ⟨gi, g, hgi, hshared, hlevel, ⟨w, hsub hw, hgroup⟩, hs⟩

/-- The items have a barrier in a slot. -/
def SyncAt (items : List Item) (level : Nat) (rank : Nat → WithTop Int) (slot : Int) : Prop :=
  ∃ z ∈ items, z.work = .sync ∧ z.At level rank slot

/-- The copies of the group in a direction have barriers, for statements that are served at its
level. -/
def HasBarriers (sc : Scope) (groups : List Group) (items : List Item) (g : Group)
    (d : Direction) : Prop :=
  ∃ ss, statementsOf sc g ⊆ ss ∧ (∀ s ∈ ss, Served sc groups (items.map (·.work)) g.copyLevel s) ∧
    (d = .copyIn → SyncAt items g.copyLevel (leadRank sc.schedule ss .first) Slot.syncBefore) ∧
    (d = .copyOut → SyncAt items g.copyLevel (leadRank sc.schedule ss .last) Slot.syncAfter) ∧
    (hasEnclosingLoop sc.schedule g.copyLevel = true →
      SyncAt items g.copyLevel (leadRank sc.schedule ss .last) Slot.syncTrailing)

/-- The items run statements, and copy shared tiles at the levels of their groups, with barriers. -/
structure Scheduled (sc : Scope) (groups : List Group) (items : List Item) : Prop where
  user : ∀ i ∈ items, ∀ s name, i.work = .statement s name → ∀ level ≤ sc.schedule.privateLen,
    i.At level (leadRank sc.schedule [s] .first) Slot.body
  copy : ∀ i ∈ items, ∀ gi var d memory refs, i.work = .copy gi var d memory refs →
    ∀ g, groups[gi]? = some g →
    g.memory = .shared → statementsOf sc g ≠ [] ∧
      i.At g.copyLevel (leadRank sc.schedule (statementsOf sc g) d.pick) d.slot ∧
      HasBarriers sc groups items g d

theorem mem_barrierItems {b : Barrier} {i : Item} (h : i ∈ barrierItems k b) : i.work = .sync := by
  unfold barrierItems at h
  grind

/-- The items of a barrier wait in the slots that it asks for, and at the end of a loop around
it. -/
theorem syncAt_of_barrier {b : Barrier} (hsub : barrierItems k b ⊆ items) :
    (b.before = true → SyncAt items b.level (leadRank k b.statements .first) Slot.syncBefore) ∧
      (b.after = true → SyncAt items b.level (leadRank k b.statements .last) Slot.syncAfter) ∧
      (hasEnclosingLoop k b.level = true →
        SyncAt items b.level (leadRank k b.statements .last) Slot.syncTrailing) := by
  have hsync : ∀ slot pick, ⟨.sync, leadTime k b.level b.statements pick ++ [.slot slot]⟩ ∈
      barrierItems k b →
      SyncAt items b.level (leadRank k b.statements pick) slot :=
    fun slot pick h => ⟨_, hsub h, rfl, at_of_leadTime rfl⟩
  refine ⟨fun h => hsync _ _ ?_, fun h => hsync _ _ ?_, fun h => hsync _ _ ?_⟩ <;>
    simp [barrierItems, h]

/-- How the items of a body are made: they run a statement at all coordinates, copy a group at its
level, or wait at the level of a shared group. -/
inductive Made (sc : Scope) (groups : List Group) : Item → Prop where
  | statement {s : Nat} {name : String} (hs : s < sc.schedule.statements.length) : Made sc groups
      ⟨.statement s name, leadTime sc.schedule sc.schedule.depth [s] .first ++ [.slot Slot.body]⟩
  | copy {t : Transfer} {var : String} {d : Direction} {memory : Memory} {refs : List Nat}
      (ht : t.IsOf sc 0 groups) : Made sc groups ⟨.copy t.index var d memory refs,
        leadTime sc.schedule t.level (statementsOf sc t.group) d.pick ++
        [.slot d.slot, .const t.index]⟩
  | sync {t : Transfer} {ss : List Nat} {pick : Pick} {slot : Int} (ht : t.IsOf sc 0 groups)
      (hshared : t.group.memory = .shared) :
      Made sc groups ⟨.sync, leadTime sc.schedule t.level ss pick ++ [.slot slot]⟩

/-- An item of a body runs a statement, copies for a transfer, or waits at a barrier of the
transfers. -/
theorem exists_transfers_of_build {body : Body} (h : build sc groups = .ok body) :
    ∃ ts : List Transfer, (∀ t ∈ ts, t.IsOf sc 0 groups) ∧
      ts.flatMap (Transfer.items sc groups) ⊆ body.items ∧
      (ts.foldl (Transfer.fence sc groups) []).flatMap (barrierItems sc.schedule) ⊆ body.items ∧
      ∀ i ∈ body.items,
        (∃ s name, s < sc.schedule.statements.length ∧
          i = ⟨.statement s name, leadTime sc.schedule sc.schedule.depth [s] .first ++
            [.slot Slot.body]⟩) ∨
        (∃ t ∈ ts, i ∈ t.items sc groups) ∨
        ∃ b ∈ ts.foldl (Transfer.fence sc groups) [], i ∈ barrierItems sc.schedule b := by
  simp only [build, Outcome.bind_eq_ok, Outcome.pure_eq_ok] at h
  obtain ⟨statements, hstatements, ⟨copies, barriers⟩, hcopies, stage, -, rfl⟩ := h
  obtain ⟨ts, hts, rfl, rfl⟩ := exists_transfers hcopies
  refine ⟨ts, hts, fun i hi => List.mem_append_left _ (List.mem_append_right _ hi),
    fun i hi => List.mem_append_right _ hi, fun i hi => ?_⟩
  rcases List.mem_append.mp hi with hi | hi
  · rcases List.mem_append.mp hi with hi | hi
    · exact Or.inl (mem_statementItems hstatements hi)
    · exact Or.inr (Or.inl (List.mem_flatMap.mp hi))
  · exact Or.inr (Or.inr (List.mem_flatMap.mp hi))

/-- All items of a body are made in one of the three ways. -/
theorem made_of_build {body : Body} (h : build sc groups = .ok body) :
    ∀ i ∈ body.items, Made sc groups i := by
  obtain ⟨ts, hts, -, -, hcases⟩ := exists_transfers_of_build h
  intro i hi
  rcases hcases i hi with ⟨s, name, hs, rfl⟩ | ⟨t, ht, hi⟩ | ⟨b, hb, hi⟩
  · exact .statement hs
  · obtain ⟨d, -, rfl⟩ := Transfer.mem_items hi
    exact .copy (hts t ht)
  · obtain ⟨t, ht, hfenced, hlevel⟩ := (exists_level_of_mem_foldl hb).resolve_right (by simp)
    have hshared : t.group.memory = .shared := by
      rw [Transfer.isFenced, Bool.and_eq_true, beq_iff_eq] at hfenced
      exact hfenced.1
    obtain ⟨slot, pick, rfl⟩ : ∃ slot pick,
        i = ⟨.sync, leadTime sc.schedule t.level b.statements pick ++ [.slot slot]⟩ := by
      rw [hlevel]
      unfold barrierItems at hi
      grind
    exact .sync (hts t ht) hshared

theorem Transfer.IsOf.getElem? {t : Transfer} (h : t.IsOf sc 0 groups) :
    groups[t.index]? = some t.group := by
  obtain ⟨i, hi, hg⟩ := h.group
  rwa [hi, Nat.zero_add]

/-- A shared group is copied at its copy level. -/
theorem Transfer.IsOf.level_eq {t : Transfer} (h : t.IsOf sc gi groups)
    (hshared : t.group.memory = .shared) : t.level = t.group.copyLevel := by
  have hlevel := h.level
  simp only [copyLevel?, hshared, Option.some.injEq] at hlevel
  exact hlevel.symm

section Transfers

variable {ts : List Transfer} (hts : ∀ t ∈ ts, t.IsOf sc 0 groups)
  (hcopies : ts.flatMap (Transfer.items sc groups) ⊆ items)

include hts hcopies

/-- Barriers serve statements of shared groups with copies at their level. -/
theorem served_of_mem {b : Barrier} (hb : b ∈ ts.foldl (Transfer.fence sc groups) [])
    (hs : s ∈ b.statements) : Served sc groups (items.map (·.work)) b.level s := by
  obtain ⟨t, ht, hfenced, hlevel, hs⟩ := (exists_of_mem_foldl hb hs).resolve_right (by simp)
  simp only [Transfer.isFenced, Bool.and_eq_true, beq_iff_eq, Bool.not_eq_true',
    List.isEmpty_eq_false_iff_exists_mem] at hfenced
  obtain ⟨hshared, i, hi⟩ := hfenced
  refine ⟨t.index, t.group, (hts t ht).getElem?, hshared,
    ((hts t ht).level_eq hshared).symm.trans hlevel, ?_, hs⟩
  exact ⟨i.work, List.mem_map_of_mem (hcopies (List.mem_flatMap.mpr ⟨t, ht, hi⟩)),
    Transfer.group?_of_mem_items hi⟩

/-- The copies of a shared group have barriers. -/
theorem hasBarriers_of_mem
    (hbarriers : (ts.foldl (Transfer.fence sc groups) []).flatMap (barrierItems sc.schedule) ⊆
      items)
    {t : Transfer} (ht : t ∈ ts) (hshared : t.group.memory = .shared) {d : Direction}
      (hd : t.needs.refs d ≠ [])
    (hitems : t.items sc groups ≠ []) : HasBarriers sc groups items t.group d := by
  have hfenced : t.isFenced sc groups = true := by simp [Transfer.isFenced, hshared, hitems]
  obtain ⟨b, hb, hlevel, hbefore, hafter, hsub⟩ := provides_foldl [] ht hfenced
  replace hlevel : b.level = t.group.copyLevel := hlevel.trans ((hts t ht).level_eq hshared)
  obtain ⟨hsyncBefore, hsyncAfter, hsyncTrailing⟩ :=
    syncAt_of_barrier fun i hi => hbarriers (List.mem_flatMap.mpr ⟨b, hb, hi⟩)
  rw [hlevel] at hsyncBefore hsyncAfter hsyncTrailing
  refine ⟨b.statements, hsub, fun s hs => hlevel ▸ served_of_mem hts hcopies hb hs, ?_, ?_,
    hsyncTrailing⟩
  · rintro rfl
    exact hsyncBefore (hbefore (by simpa [Transfer.barrier, CopyNeeds.refs] using hd))
  · rintro rfl
    exact hsyncAfter (hafter (by simpa [Transfer.barrier, CopyNeeds.refs] using hd))

end Transfers

/-- In a body that is built, statements, shared copies and barriers have their places. -/
theorem scheduled_of_build {body : Body} (hdepth : sc.schedule.privateLen ≤ sc.schedule.depth)
    (h : build sc groups = .ok body) : Scheduled sc groups body.items := by
  obtain ⟨ts, hts, hcopies, hbarriers, hcases⟩ := exists_transfers_of_build h
  constructor
  case user =>
    intro i hi s name hwork level hlevel
    rcases hcases i hi with ⟨s', name', -, rfl⟩ | ⟨t, -, hi⟩ | ⟨b, -, hi⟩
    · obtain ⟨rfl, -⟩ : s' = s ∧ name' = name := by simpa using hwork
      exact (at_of_leadTime rfl).outward (hlevel.trans hdepth)
    · have hgroup := Transfer.group?_of_mem_items hi
      simp [hwork, Work.group?] at hgroup
    · cases (mem_barrierItems hi).symm.trans hwork
  case copy =>
    intro i hi gi var d memory refs hwork g hgi hshared
    rcases hcases i hi with ⟨s, name, -, rfl⟩ | ⟨t, ht, hit⟩ | ⟨b, -, hi⟩
    · cases hwork
    · obtain ⟨d', hd, rfl⟩ := Transfer.mem_items hit
      obtain ⟨rfl, -, rfl, -⟩ : t.index = gi ∧ _ ∧ d' = d ∧ _ := by simpa using hwork
      obtain rfl : t.group = g := Option.some.inj ((hts t ht).getElem?.symm.trans hgi)
      refine ⟨statementsOf_ne_nil (hts t ht).needs hd, ?_,
        hasBarriers_of_mem hts hcopies hbarriers ht hshared hd (List.ne_nil_of_mem hit)⟩
      rw [← (hts t ht).level_eq hshared]
      exact at_of_leadTime rfl
    · cases (mem_barrierItems hi).symm.trans hwork

/-- A body that is built has the schedule it was built from, at a later stage. -/
theorem schedule_of_build {body : Body} (h : build sc groups = .ok body) :
    body.schedule = { sc.schedule with stage := .bodyScheduled } := by
  simp only [build, Outcome.bind_eq_ok, Outcome.pure_eq_ok] at h
  obtain ⟨_, -, _, -, stage, hstage, rfl⟩ := h
  unfold Stage.advance at hstage
  by_cases hlt : sc.schedule.stage.rank < Stage.bodyScheduled.rank
  · rw [if_pos hlt, Except.ok.injEq] at hstage
    rw [hstage]
  · simp [if_neg hlt] at hstage

theorem levels_of_build {body : Body} (h : build sc groups = .ok body) :
    body.schedule.levels = sc.schedule.levels ∧
      body.schedule.privateLen = sc.schedule.privateLen := by
  rw [schedule_of_build h]
  exact ⟨rfl, rfl⟩

/-- Moving loops below the thread ids keeps what is scheduled around them. -/
theorem Scheduled.congr (h : Scheduled sc groups items)
    (hlevel : ∀ g ∈ groups, g.memory = .shared → g.copyLevel ≤ sc.schedule.privateLen)
    (hitems : List.Forall₂ (fun i i' => i'.work = i.work ∧ ∀ q ≤ 2 * sc.schedule.privateLen,
      i'.rank? q = i.rank? q) items items') : Scheduled sc groups items' := by
  have hworks : items'.map (·.work) = items.map (·.work) := by
    rw [← List.forall₂_eq_eq_eq, List.forall₂_map_left_iff, List.forall₂_map_right_iff]
    exact hitems.flip.imp fun _ _ h => h.1
  have hsync : ∀ {level rank slot}, level ≤ sc.schedule.privateLen → SyncAt items level rank slot →
      SyncAt items' level rank slot := by
    rintro level rank slot hlevel ⟨z, hz, hwork, hat⟩
    obtain ⟨z', hz', hwork', hrank⟩ := hitems.exists_of_mem_left hz
    exact ⟨z', hz', hwork'.trans hwork, hat.congr fun q hq => hrank q (by omega)⟩
  constructor
  case user =>
    intro i' hi' s name hwork level hle
    obtain ⟨i, hi, hwork', hrank⟩ := hitems.exists_of_mem_right hi'
    exact (h.user i hi s name (hwork'.symm.trans hwork) level hle).congr fun q hq =>
      hrank q (by omega)
  case copy =>
    intro i' hi' gi var d memory refs hwork g hgi hshared
    obtain ⟨i, hi, hwork', hrank⟩ := hitems.exists_of_mem_right hi'
    have hle := hlevel g (List.mem_of_getElem? hgi) hshared
    obtain ⟨hne, hat, ss, hsub, hserved, hbefore, hafter, htrailing⟩ :=
      h.copy i hi gi var d memory refs (hwork'.symm.trans hwork) g hgi hshared
    refine ⟨hne, hat.congr fun q hq => hrank q (by omega), ss, hsub, hworks ▸ hserved, ?_, ?_, ?_⟩
    · exact fun hd => hsync hle (hbefore hd)
    · exact fun hd => hsync hle (hafter hd)
    · exact fun hloop => hsync hle (htrailing hloop)

end Items

end Body

end KernelMap
