import KernelMap.Proofs.Budget
import KernelMap.Proofs.ReferenceList

/-!
# KernelMap.Proofs.GeneratedNames

Names that a kernel makes up.

Block and thread ids are a letter and a number, so they differ among themselves and can only meet a
parameter of the program (`KernelSchedule.nodup_paramNames_iff`).  The name of a local copy is made
of the memory, the array and, if the array has several groups, the number of the group.  Memory,
array and number are known from the name unless one array is called like a numbered copy of another:
names are distinct exactly if no two groups clash in this way (`Group.nodup_localName_iff`).  If
they are, every name finds its local copy, those in the copies of the loop tree included.
-/

namespace KernelMap

/-! ## texts -/

/-- A number is known from its decimal text. -/
theorem eq_of_toString_eq {m n : Nat} (h : toString m = toString n) : m = n := by
  rw [Nat.toString_eq_ofList_toDigits, Nat.toString_eq_ofList_toDigits, String.ofList_inj] at h
  rw [← Nat.ofDigitChars_ten_toDigits (n := m), h, Nat.ofDigitChars_ten_toDigits]

/-- What stands before the last underscore and the number after it are known from the text. -/
theorem underscore_append_inj {a b : String} {m n : Nat}
    (h : a ++ "_" ++ toString m = b ++ "_" ++ toString n) : a = b ∧ m = n := by
  have hdigits : ∀ n : Nat, '_' ∉ (toString n).toList := fun n => by
    rw [Nat.toString_eq_repr, Nat.toList_repr]
    exact Nat.underscore_not_in_toDigits
  have hlists : a.toList ++ '_' :: (toString m).toList = b.toList ++ '_' ::
      (toString n).toList := by
    simpa [String.toList_append] using congrArg String.toList h
  -- If one of the fronts were longer, the digits after the other one would hold an underscore.
  have hfront : ∀ (xs ys zs : List Char), '_' ∉ ys → '_' :: ys = xs ++ '_' :: zs → xs = [] := by
    intro xs ys zs hys heq
    cases xs with
    | nil => rfl
    | cons x xs =>
        rw [List.cons_append, List.cons.injEq] at heq
        rw [heq.2] at hys
        simp at hys
  have hab : a = b := by
    rw [← String.toList_inj]
    rcases List.append_eq_append_iff.mp hlists with ⟨xs, hb, heq⟩ | ⟨xs, ha, heq⟩
    · rw [hb, hfront xs _ _ (hdigits m) heq, List.append_nil]
    · rw [ha, hfront xs _ _ (hdigits n) heq, List.append_nil]
  subst hab
  exact ⟨rfl, eq_of_toString_eq ((String.append_right_inj _).mp h)⟩

/-- The memory of a local copy and the rest of its name are read off the name. -/
theorem Memory.label_append_inj {m m' : Memory} {x y : String}
    (h : m.label ++ "_" ++ x = m'.label ++ "_" ++ y) : m = m' ∧ x = y := by
  have hmemory : m = m' := by
    have hfirst := congrArg (fun name => name.toList.head?) h
    cases m <;> cases m' <;> simp [Memory.label, String.toList_append] at hfirst ⊢
  subst hmemory
  exact ⟨rfl, (String.append_right_inj _).mp h⟩

/-! ## ids -/

namespace KernelSchedule

/-- The ids of one kind have different names. -/
theorem nodup_idNames (letter : String) (n : Nat) : (idNames letter n).Nodup :=
  List.nodup_range.map fun _ _ h => eq_of_toString_eq ((String.append_right_inj _).mp h)

/-- Blocks and threads have different names. -/
theorem disjoint_idNames (m n : Nat) : (idNames "b" m).Disjoint (idNames "t" n) := by
  intro name hb ht
  obtain ⟨i, -, rfl⟩ := List.mem_map.mp hb
  obtain ⟨j, -, h⟩ := List.mem_map.mp ht
  simpa [String.toList_append] using congrArg String.toList h

/-- The parameters of a kernel have different names exactly if no parameter of the program has the
name of an id. -/
theorem nodup_paramNames_iff {params : List String} (hparams : params.Nodup) (m n : Nat) :
    (params ++ idNames "b" m ++ idNames "t" n).Nodup ↔
      params.Disjoint (idNames "b" m ++ idNames "t" n) := by
  rw [List.append_assoc, List.nodup_append']
  have hids : (idNames "b" m ++ idNames "t" n).Nodup :=
    (nodup_idNames "b" m).append (nodup_idNames "t" n) (disjoint_idNames m n)
  simp only [hparams, hids, true_and]

end KernelSchedule

/-! ## names of local copies -/

namespace Group

variable {sc : Scope} {gs groups : List Group} {g h : Group}

/-- The array of the group and its number there. -/
def key (g : Group) : String × Nat := (g.array, g.nr)

/-- What the name of the local copy says about the group after its memory. -/
def stem (groups : List Group) (g : Group) : String :=
  if 1 < countOf groups g.array then g.array ++ "_" ++ toString g.nr else g.array

/-- The name of a local copy is its memory and a stem. -/
theorem localName_eq (g : Group) (groups : List Group) :
    g.localName groups = g.memory.label ++ "_" ++ stem groups g := by
  unfold localName Memory.localName stem
  split
  · simp only [← String.append_assoc]
    rfl
  · rfl

/-- The only group of an array that is called like the numbered copy of another group, in the same
memory. -/
structure Clashes (groups : List Group) (g h : Group) : Prop where
  isSome : g.tile?.isSome
  isSome' : h.tile?.isSome
  memory : h.memory = g.memory
  several : 1 < countOf groups g.array
  single : countOf groups h.array = 1
  array : h.array = g.array ++ "_" ++ toString g.nr

/-- Groups that clash have local copies of the same name. -/
theorem Clashes.localName_eq (hc : Clashes groups g h) :
    g.localName groups = h.localName groups := by
  rw [Group.localName_eq, Group.localName_eq, hc.memory, stem, stem, if_pos hc.several,
    if_neg (by rw [hc.single]; omega), hc.array]

theorem countOf_pos (hg : g ∈ groups) : 0 < countOf groups g.array :=
  List.countP_pos_iff.mpr ⟨g, hg, by simp⟩

/-- Two groups of an array that has one are the same. -/
theorem eq_of_countOf (hg : g ∈ groups) (hh : h ∈ groups) (harray : h.array = g.array)
    (hsingle : countOf groups g.array = 1) : g = h := by
  rw [countOf, List.countP_eq_length_filter, List.length_eq_one_iff] at hsingle
  obtain ⟨only, honly⟩ := hsingle
  have hmem : ∀ x ∈ groups, x.array = g.array → x = only := by
    intro x hx hname
    rw [← List.mem_singleton, ← honly]
    exact List.mem_filter.mpr ⟨hx, by simpa using hname⟩
  rw [hmem g hg rfl, hmem h hh harray]

/-- Groups with local copies of the same name are the same or clash. -/
theorem eq_or_clashes (hkeys : (groups.map key).Nodup) (hg : g ∈ groups) (hh : h ∈ groups)
    (htile : g.tile?.isSome) (htile' : h.tile?.isSome)
    (hname : g.localName groups = h.localName groups) :
    g = h ∨ Clashes groups g h ∨ Clashes groups h g := by
  rw [localName_eq, localName_eq] at hname
  obtain ⟨hmemory, hstem⟩ := Memory.label_append_inj hname
  have hpos := countOf_pos hg
  have hpos' := countOf_pos hh
  unfold stem at hstem
  split at hstem
  · next hseveral =>
    split at hstem
    · obtain ⟨harray, hnr⟩ := underscore_append_inj hstem
      exact Or.inl (List.inj_on_of_nodup_map hkeys hg hh (Prod.ext harray hnr))
    · exact Or.inr (Or.inl ⟨htile, htile', hmemory.symm, hseveral, by omega, hstem.symm⟩)
  · next hsingle =>
    split at hstem
    · next hseveral => exact Or.inr (Or.inr ⟨htile', htile, hmemory, hseveral, by omega, hstem⟩)
    · exact Or.inl (eq_of_countOf hg hh hstem.symm (by omega))

/-- The names of the local copies are distinct exactly if no groups clash. -/
theorem nodup_localName_iff (hkeys : (groups.map key).Nodup) :
    ((groups.filter (·.tile?.isSome)).map (·.localName groups)).Nodup ↔
      ∀ g ∈ groups, ∀ h ∈ groups, ¬ Clashes groups g h := by
  rw [List.nodup_map_iff_inj_on (hkeys.of_map.filter _)]
  constructor
  · intro hinj g hg h hh hc
    obtain rfl := hinj g (List.mem_filter.mpr ⟨hg, hc.isSome⟩) h
      (List.mem_filter.mpr ⟨hh, hc.isSome'⟩) hc.localName_eq
    have hseveral := hc.several
    rw [hc.single] at hseveral
    omega
  · intro hfree g hg h hh hname
    obtain ⟨hg, htile⟩ := List.mem_filter.mp hg
    obtain ⟨hh, htile'⟩ := List.mem_filter.mp hh
    rcases eq_or_clashes hkeys hg hh htile htile' hname with heq | hc | hc
    · exact heq
    · exact absurd hc (hfree g hg h hh)
    · exact absurd hc (hfree h hh g hg)

/-! ## numbers of groups -/

/-- The groups of an array have its name and different numbers. -/
theorem nodup_key_of_ofReferences {name : String} {refs : List Nat}
    (hrefs : ∀ id ∈ refs, ∃ r, sc.reference? id = some r ∧ r.reference.array = name)
    (h : ofReferences sc refs = .ok gs) : (∀ g ∈ gs, g.array = name) ∧ (gs.map key).Nodup := by
  refine ⟨fun g hg => ((Partitions.ofReferences hrefs h).describes g hg).array, ?_⟩
  simp only [ofReferences, Outcome.bind_eq_ok, Outcome.pure_eq_ok] at h
  obtain ⟨_, -, _, -, _, -, _, -, last, -, rfl⟩ := h
  have hnumbers : (((number last).map key).map Prod.snd).Nodup := by
    rw [List.map_map]
    exact map_nr_number last ▸ List.nodup_range
  exact hnumbers.of_map

/-- If no array is declared twice, array and number tell the groups of a kernel apart. -/
theorem nodup_key_of_ofArrays {arrays : List ArrayDecl}
    (hrefs : ∀ name, ∀ id ∈ sc.referencesTo name, ∃ r, sc.reference? id = some r ∧
      r.reference.array = name)
    (harrays : (arrays.map (·.name)).Nodup) (h : ofArrays sc arrays = .ok gs) :
    (∀ g ∈ gs, g.array ∈ arrays.map (·.name)) ∧ (gs.map key).Nodup := by
  induction arrays generalizing gs with
  | nil =>
      simp only [ofArrays, Except.ok.injEq] at h
      simp [← h]
  | cons a arrays ih =>
      simp only [ofArrays, Outcome.bind_eq_ok, Outcome.pure_eq_ok] at h
      obtain ⟨first, hfirst, rest, hrest, rfl⟩ := h
      rw [List.map_cons, List.nodup_cons] at harrays
      obtain ⟨hnames, hnodup⟩ := nodup_key_of_ofReferences (hrefs a.name) hfirst
      obtain ⟨hnames', hnodup'⟩ := ih harrays.2 hrest
      refine ⟨fun g hg => ?_, ?_⟩
      · rcases List.mem_append.mp hg with hg | hg
        · simp [hnames g hg]
        · exact List.mem_cons_of_mem _ (hnames' g hg)
      · rw [List.map_append]
        refine hnodup.append hnodup' fun x hx hx' => ?_
        obtain ⟨g, hg, rfl⟩ := List.mem_map.mp hx
        obtain ⟨g', hg', hkey⟩ := List.mem_map.mp hx'
        have harray : g'.array = a.name := (congrArg Prod.fst hkey).trans (hnames g hg)
        exact harrays.1 (harray ▸ hnames' g' hg')

/-- Giving up tiles keeps array and number. -/
theorem map_key_of_demoted (h : List.Forall₂ Demoted gs groups) : groups.map key = gs.map key := by
  rw [← List.forall₂_eq_eq_eq, List.forall₂_map_left_iff, List.forall₂_map_right_iff]
  refine h.flip.imp fun g' g hg => ?_
  have harray : g'.array = g.array := (congrArg Group.array hg.core :)
  exact Prod.ext harray hg.nr

end Group

/-! ## kernels -/

namespace Body

variable {sc : Scope} {groups : List Group} {body moved : Body} {unroll : List Nat}

/-- Bodies have the schedule of their kernel, up to the order of its coordinates. -/
theorem exists_schedule (hbody : build sc groups = .ok body)
    (hmoved : (body.interchange unroll : Outcome MapError Body) = .ok moved) :
    ∃ levels statements stage, moved.schedule = { sc.schedule with levels, statements, stage } := by
  have hschedule := schedule_of_build hbody
  unfold interchange at hmoved
  split at hmoved
  · rw [← Except.ok.inj hmoved, hschedule]
    exact ⟨_, _, _, rfl⟩
  dsimp only at hmoved
  split at hmoved
  · simp at hmoved
  simp only [Outcome.bind_eq_ok, Outcome.pure_eq_ok] at hmoved
  obtain ⟨statements, -, _, -, stage, -, rfl⟩ := hmoved
  rw [hschedule]
  exact ⟨_, statements, stage, rfl⟩

/-- A copy is that of a group with a local copy, and names it. -/
theorem exists_group_of_copy (hbody : build sc groups = .ok body) {i : Item}
    (hi : i ∈ body.items) {gi : Nat} {var : String} {d : Direction} {memory : Memory}
    {refs : List Nat} (hwork : i.work = .copy gi var d memory refs) :
    ∃ g ∈ groups, g.tile?.isSome ∧ var = g.localName groups ∧ memory = g.memory ∧
      refs ⊆ g.refs := by
  obtain ⟨ts, hts, -, -, hcases⟩ := exists_transfers_of_build hbody
  rcases hcases i hi with ⟨s, name, -, rfl⟩ | ⟨t, ht, hi⟩ | ⟨b, -, hi⟩
  · cases hwork
  · obtain ⟨d', -, rfl⟩ := Transfer.mem_items hi
    cases hwork
    have hlevel := (hts t ht).level
    have htile : t.group.tile?.isSome := by
      rw [Group.isSome_tile?]
      unfold copyLevel? Group.memory at hlevel
      cases hp : t.group.privateTile <;> cases hs : t.group.sharedTile <;> simp [hp, hs] at hlevel ⊢
    refine ⟨t.group, List.mem_of_getElem? (hts t ht).getElem?, htile, rfl, rfl, fun id hid => ?_⟩
    obtain ⟨q, hq⟩ := mem_refsWhere_of_copyNeeds (hts t ht).needs hid
    exact List.mem_of_mem_filter hq
  · cases (mem_barrierItems hi).symm.trans hwork

end Body

namespace Kernel

variable {p : Program} {o : Options} {kernel : Kernel}

/-- The parameters of a kernel are those of the program, then the block ids and the thread ids. -/
theorem paramNames_of_ofRegion {id : Nat} {region : Region}
    (h : ofRegion p o id region = .ok kernel) :
    kernel.blockIds = KernelSchedule.idNames "b" kernel.schedule.nGrid ∧
      kernel.threadIds = KernelSchedule.idNames "t" kernel.schedule.nBlock ∧
      kernel.paramNames = p.params ++ kernel.blockIds ++ kernel.threadIds := by
  obtain ⟨k, formed, checked, unroll, body, moved, hk, -, -, -, hbody, hmoved, h⟩ := exists_steps h
  obtain ⟨levels, statements, stage, hschedule⟩ := Body.exists_schedule hbody hmoved
  simp only [assemble, Outcome.bind_eq_ok, Outcome.pure_eq_ok] at h
  obtain ⟨_, -, _, -, _, -, hkernel⟩ := h
  have hreflects := KernelSchedule.reflects_of_build hk
  have hlength : (KernelSchedule.idNames "b" k.nGrid).length = k.nGrid := by
    simp [KernelSchedule.idNames]
  have hids : k.paramNames.drop k.nProgramParam =
      KernelSchedule.idNames "b" k.nGrid ++ KernelSchedule.idNames "t" k.nBlock := by
    rw [hreflects.paramNames, hreflects.nProgramParam, List.append_assoc, List.drop_left]
  rw [← hkernel]
  simp only [hschedule, Scope.ofSchedule, hids, List.take_left' hlength,
    List.drop_left' hlength, true_and]
  exact hreflects.paramNames

/-- Array and number tell the groups of a kernel apart. -/
theorem nodup_key_groups {id : Nat} {region : Region} (hp : p.validate = .ok ())
    (harrays : (p.arrays.map (·.name)).Nodup) (h : ofRegion p o id region = .ok kernel) :
    (kernel.groups.map Group.key).Nodup := by
  obtain ⟨k, formed, checked, unroll, body, moved, -, hall, hunroll, hbudget, -, -, -⟩ :=
    exists_steps h
  rw [Group.map_key_of_demoted (Group.demoted_of_stages hunroll hbudget)]
  exact (Group.nodup_key_of_ofArrays
    (fun _ => Scope.exists_of_mem_referencesTo_of_validate hp) harrays hall).2

/-- A copy in the loop tree is that of a group with a local copy, and names it. -/
theorem exists_group_of_leaf {id : Nat} {region : Region} (h : ofRegion p o id region = .ok kernel)
    {var : String} {d : Direction} {memory : Memory} {refs : List Nat}
    (hleaf : Tree.copy var d memory refs ∈ kernel.tree.leaves) :
    ∃ g ∈ kernel.groups, g.tile?.isSome ∧ var = g.localName kernel.groups ∧ memory = g.memory ∧
      refs ⊆ g.refs := by
  obtain ⟨k, formed, checked, unroll, body, moved, -, -, -, -, hbody, hmoved, h⟩ := exists_steps h
  simp only [assemble, Outcome.bind_eq_ok, Outcome.pure_eq_ok, Outcome.ofEngine_eq_ok] at h
  obtain ⟨tree, htree, _, -, _, -, hkernel⟩ := h
  obtain ⟨order, hperm, hleaves, -⟩ := Tree.arranged_of_ofBody htree
  obtain rfl : tree = kernel.tree := (congrArg Kernel.tree hkernel :)
  rw [hleaves] at hleaf
  obtain ⟨i, hi, hcopy⟩ := List.mem_map.mp hleaf
  obtain ⟨gi, hwork⟩ : ∃ gi, i.work = .copy gi var d memory refs := by
    cases hwork : i.work with
    | statement => simp [hwork, Tree.ofWork] at hcopy
    | copy gi => simp_all [Tree.ofWork]
    | sync => simp [hwork, Tree.ofWork] at hcopy
  obtain ⟨i₀, hi₀, hsame, -⟩ := (Body.interchange_eq_ok hmoved).1.exists_of_mem_right
    (hperm.mem_iff.mp hi)
  exact Body.exists_group_of_copy hbody hi₀ (hsame.symm.trans hwork)

/-- A kernel has one local copy for each of its groups with a tile. -/
theorem locals_of_ofRegion {id : Nat} {region : Region} (h : ofRegion p o id region = .ok kernel) :
    List.Forall₂ (Stores p kernel.groups) (kernel.groups.filter (·.tile?.isSome))
      kernel.locals := by
  obtain ⟨sc, checked, rfl, -, -, hlocals⟩ := ofRegion_eq_ok h
  exact forall₂_of_localsOf hlocals

/-- If the names of the local copies are distinct, each finds its own. -/
theorem localCopy?_of_mem (hnodup : (kernel.locals.map (·.name)).Nodup) {v : LocalVariable}
    (hv : v ∈ kernel.locals) : kernel.localCopy? v.name = some v := by
  cases h : kernel.localCopy? v.name with
  | none =>
      have hnone := List.find?_eq_none.mp h v hv
      simp at hnone
  | some v' =>
      have hname : v'.name = v.name := by simpa using List.find?_some h
      rw [List.inj_on_of_nodup_map hnodup (List.mem_of_find?_eq_some h) hv hname]

/-- If parameters and arrays have different names, the parameters of every kernel do exactly if the
program has no parameter that is called like a block or thread id of the kernel, and the local
copies do exactly if no groups clash.  Then names find their local copies, and every copy in the
loop tree names the local copy of the group that it copies. -/
theorem names_are_distinct_unless_clash {c : Compiled} (hparams : p.params.Nodup)
    (harrays : (p.arrays.map (·.name)).Nodup) (hc : p.compile o = .ok c)
    (hkernel : kernel ∈ c.kernels) :
    (kernel.blockIds = KernelSchedule.idNames "b" kernel.schedule.nGrid ∧
      kernel.threadIds = KernelSchedule.idNames "t" kernel.schedule.nBlock ∧
      kernel.paramNames = p.params ++ kernel.blockIds ++ kernel.threadIds) ∧
    (kernel.paramNames.Nodup ↔ p.params.Disjoint (kernel.blockIds ++ kernel.threadIds)) ∧
    ((kernel.locals.map (·.name)).Nodup ↔
      ∀ g ∈ kernel.groups, ∀ h ∈ kernel.groups, ¬ Group.Clashes kernel.groups g h) ∧
    ((kernel.locals.map (·.name)).Nodup →
      (∀ v ∈ kernel.locals, kernel.localCopy? v.name = some v) ∧
      ∀ var d memory refs, Tree.copy var d memory refs ∈ kernel.tree.leaves →
        ∃ g ∈ kernel.groups, ∃ v ∈ kernel.locals, Stores p kernel.groups g v ∧ v.memory = memory ∧
        refs ⊆ g.refs ∧
          v.name = var ∧ kernel.localCopy? var = some v) := by
  simp only [Program.compile, Outcome.bind_eq_ok, Outcome.pure_eq_ok] at hc
  obtain ⟨_, -, _, hp, p', hp', kernels, hkernels, rfl⟩ := hc
  have hdeclared := (Program.redeclares_recomputeFlags p).trans
    (Program.redeclares_of_recomputeExtents hp')
  obtain ⟨id, region, -, hregion⟩ := exists_of_mem_ofRegions hkernels hkernel
  have hparams' : p'.params = p.params := (congrArg Program.params hdeclared.others :)
  have harrays' : p'.arrays.map (·.name) = p.arrays.map (·.name) := by
    have hnames := congrArg (List.map ArrayDecl.name) hdeclared.arrays
    rwa [List.map_map, List.map_map] at hnames
  have hnames := paramNames_of_ofRegion hregion
  rw [hparams'] at hnames
  have hstores := locals_of_ofRegion hregion
  have hlocals : kernel.locals.map (·.name) =
      (kernel.groups.filter (·.tile?.isSome)).map (·.localName kernel.groups) := by
    rw [← List.forall₂_eq_eq_eq, List.forall₂_map_left_iff, List.forall₂_map_right_iff]
    exact hstores.flip.imp fun v g hv => hv.name
  have hkeys := nodup_key_groups (hdeclared.validate_eq.trans hp) (harrays' ▸ harrays) hregion
  refine ⟨hnames, ?_, ?_, fun hnodup => ⟨fun v => localCopy?_of_mem hnodup,
    fun var d memory refs hleaf => ?_⟩⟩
  · rw [hnames.2.2, hnames.1, hnames.2.1]
    exact KernelSchedule.nodup_paramNames_iff hparams _ _
  · rw [hlocals]
    exact Group.nodup_localName_iff hkeys
  · obtain ⟨g, hg, htile, rfl, rfl, hrefs⟩ := exists_group_of_leaf hregion hleaf
    obtain ⟨v, hv, hstored⟩ := hstores.exists_of_mem_left (List.mem_filter.mpr ⟨hg, htile⟩)
    refine ⟨g, hg, v, hv, hstored.of_redeclares hdeclared, hstored.memory, hrefs, hstored.name, ?_⟩
    rw [← hstored.name]
    exact localCopy?_of_mem hnodup hv

/-! ### a launch and three readings -/

/-- `for i: S`, with blocks and threads, and a parameter that nothing uses. -/
def launchProgram (param : String) : Program where
  params := [param]
  context := []
  arrays := []
  statements := [⟨"S", ["i"], [], [.var 1], []⟩]
  regions := [⟨[0], 0, 1, [true]⟩]

/-- `for i: S reads A[0], A[1] and other[0]`. -/
def readingProgram (other : String) : Program where
  params := []
  context := []
  arrays := [.ofShape "A" "char" 1 1, .ofShape other "char" 1 1]
  statements := [⟨"S", ["i"], [], [.var 0],
    [⟨0, "A", .read, true, [.single (.const 0)]⟩, ⟨1, "A", .read, true, [.single (.const 1)]⟩,
      ⟨2, other, .read, true, [.single (.const 0)]⟩]⟩]
  regions := [⟨[0], 0, 0, []⟩]

def sharedOptions : Options := { Options.default with tileSizes := [2], usePrivateMemory := false }

/-- The names of the parameters and the local copies of each kernel. -/
def namesOf (p : Program) : Option (List (List String × List String)) :=
  (p.compile sharedOptions).toOption.map fun c => c.kernels.map fun k =>
    (k.paramNames, k.locals.map (·.name))

theorem exists_of_namesOf {params locals : List String} (h : namesOf p = some [(params, locals)]) :
    ∃ c k, p.compile sharedOptions = .ok c ∧ k ∈ c.kernels ∧ k.paramNames = params ∧
      k.locals.map (·.name) = locals := by
  obtain ⟨c, hc, hnames⟩ := Option.map_eq_some_iff.mp h
  obtain ⟨k, hk⟩ : ∃ k, c.kernels = [k] :=
    List.length_eq_one_iff.mp (by simpa using congrArg List.length hnames)
  obtain ⟨hparams, hlocals⟩ : k.paramNames = params ∧ k.locals.map (·.name) = locals := by
    simpa [hk] using hnames
  exact ⟨c, k, Outcome.toOption_eq_some.mp hc, by simp [hk], hparams, hlocals⟩

/-- The kernel of the launch has one block id, so the parameter can be called like a second one.
`A` has two groups, so the other array can be called like a third copy. -/
theorem launch_and_readings_have_distinct_names :
    ((launchProgram "b1").params.Nodup ∧ ((launchProgram "b1").arrays.map (·.name)).Nodup ∧
      ∃ c k, (launchProgram "b1").compile sharedOptions = .ok c ∧ k ∈ c.kernels ∧
        k.paramNames = ["b1", "b0", "t0"] ∧ ["b1"].Disjoint (k.blockIds ++ k.threadIds)) ∧
    (readingProgram "A_2").params.Nodup ∧ ((readingProgram "A_2").arrays.map (·.name)).Nodup ∧
      ∃ c k, (readingProgram "A_2").compile sharedOptions = .ok c ∧ k ∈ c.kernels ∧
        k.locals.map (·.name) = ["shared_A_0", "shared_A_1", "shared_A_2"] ∧
        (∀ g ∈ k.groups, ∀ h ∈ k.groups, ¬ Group.Clashes k.groups g h) ∧
        ∀ v ∈ k.locals, k.localCopy? v.name = some v := by
  have hlaunch : namesOf (launchProgram "b1") = some [(["b1", "b0", "t0"], [])] := by decide +kernel
  have hreading : namesOf (readingProgram "A_2") =
      some [([], ["shared_A_0", "shared_A_1", "shared_A_2"])] := by
    decide +kernel
  have hparams : (launchProgram "b1").params.Nodup := List.nodup_singleton _
  have harrays : ((readingProgram "A_2").arrays.map (·.name)).Nodup := by decide +kernel
  obtain ⟨c, k, hc, hk, hnames, -⟩ := exists_of_namesOf hlaunch
  obtain ⟨c', k', hc', hk', -, hlocals⟩ := exists_of_namesOf hreading
  obtain ⟨-, hids, -, -⟩ := names_are_distinct_unless_clash hparams List.nodup_nil hc hk
  obtain ⟨-, -, hclash, hfound⟩ := names_are_distinct_unless_clash List.nodup_nil harrays hc' hk'
  have hdisjoint := hids.mp (by rw [hnames]; decide)
  have hnodup : (k'.locals.map (·.name)).Nodup := by
    rw [hlocals]
    decide
  exact ⟨⟨hparams, List.nodup_nil, c, k, hc, hk, hnames, hdisjoint⟩, List.nodup_nil, harrays, c',
    k', hc', hk', hlocals, hclash.mp hnodup, (hfound hnodup).1⟩

/-- A parameter can be called like a block id, and an array like a numbered copy of another one. -/
theorem generated_names_clash :
    ((launchProgram "b0").params.Nodup ∧ ((launchProgram "b0").arrays.map (·.name)).Nodup ∧
      ∃ c k, (launchProgram "b0").compile sharedOptions = .ok c ∧ k ∈ c.kernels ∧
      ¬ k.paramNames.Nodup) ∧
    (readingProgram "A_0").params.Nodup ∧ ((readingProgram "A_0").arrays.map (·.name)).Nodup ∧
      ∃ c k, (readingProgram "A_0").compile sharedOptions = .ok c ∧ k ∈ c.kernels ∧
        ¬ (k.locals.map (·.name)).Nodup := by
  have hlaunch : namesOf (launchProgram "b0") = some [(["b0", "b0", "t0"], [])] := by decide +kernel
  have hreading : namesOf (readingProgram "A_0") =
      some [([], ["shared_A_0", "shared_A_1", "shared_A_0"])] := by
    decide +kernel
  have harrays : ((readingProgram "A_0").arrays.map (·.name)).Nodup := by decide +kernel
  obtain ⟨c, k, hc, hk, hnames, -⟩ := exists_of_namesOf hlaunch
  obtain ⟨c', k', hc', hk', -, hlocals⟩ := exists_of_namesOf hreading
  refine ⟨⟨List.nodup_singleton _, List.nodup_nil, c, k, hc, hk, ?_⟩, List.nodup_nil, harrays, c',
    k', hc', hk', ?_⟩
  · rw [hnames]
    decide
  · rw [hlocals]
    decide

end Kernel

end KernelMap
