import KernelMap.Affine.Printer
import KernelMap.Proofs.AffineGrammar
import Mathlib.Data.List.Nodup

/-!
# KernelMap.Proofs.Rendering

The text of an affine form is read back as that form.

The printer writes one term for each coefficient that is not zero (`writtenTerms`), and one for the
constant.  Without its white space the text is the sum of these terms by the grammar of the reader
(`exists_termsOnto`, `isSum_writtenTerms`).  Each of them has the value it was written for and
names a variable that no other term names, so that adding them up puts every coefficient in its
place (`foldlM_writtenTerms`).
-/

namespace KernelMap

/-- A number has a magnitude if that is a word. -/
theorem Word.abs?_of_le {c : Int} (h : (c.natAbs : Int) ≤ greatest) :
    abs? c = some (c.natAbs : Int) := by
  refine abs?_eq_some.mpr ⟨fits_iff.mpr ⟨?_, h⟩, rfl⟩
  rw [least]
  omega

/-- Every word but the least one has a magnitude. -/
theorem Word.natAbs_le_greatest {c : Int} (h : fits c = true) (hc : c ≠ least) :
    (c.natAbs : Int) ≤ greatest := by
  have hrange := fits_iff.mp h
  rw [least] at hc hrange
  rw [greatest] at hrange ⊢
  omega

/-! ## white space -/

namespace Text

theorem compact_nil : compact [] = [] := rfl

/-- A text without white space stays as it is. -/
theorem compact_eq_self {cs : List Char} (h : ∀ c ∈ cs, isBlank c = false) : compact cs = cs :=
  List.filter_eq_self.mpr fun c hc => by simp [h c hc]

theorem isBlank_of_isNamePart {c : Char} (h : isNamePart c = true) : isBlank c = false := by
  have hval : c.toNat = c.val.toNat := rfl
  have hranges : (((decide (c.val ≥ 'A'.val ∧ c.val ≤ 'Z'.val) ||
      (decide (c.val ≥ 'a'.val) && decide (c.val ≤ 'z'.val))) ||
      (decide (c.val ≥ '0'.val) && decide (c.val ≤ '9'.val))) || c == '_') = true := h
  simp only [Bool.or_eq_true, Bool.and_eq_true, decide_eq_true_eq, beq_iff_eq,
    UInt32.le_iff_toNat_le] at hranges
  rcases hranges with h | rfl
  · simp at h
    simp only [isBlank, Bool.or_eq_false_iff, Bool.and_eq_false_iff, decide_eq_false_iff_not,
      beq_eq_false_iff_ne]
    omega
  · decide

theorem isNamePart_of_isNameStart {c : Char} (h : isNameStart c = true) : isNamePart c = true := by
  simp only [isNameStart, Bool.or_eq_true] at h
  rcases h with h | h
  · simp [isNamePart, Char.isAlphanum, h]
  · simp [isNamePart, h]

/-- Whether a text is a name can be computed. -/
theorem isName_iff {cs : List Char} :
    IsName cs ↔ cs.head?.any isNameStart = true ∧ cs.tail.all isNamePart = true := by
  constructor
  · rintro ⟨hc, hcs⟩
    exact ⟨by simpa using hc, by simpa using hcs⟩
  · rintro ⟨hc, hcs⟩
    cases cs with
    | nil => simp at hc
    | cons c cs => exact .cons (by simpa using hc) (by simpa using hcs)

instance (cs : List Char) : Decidable (IsName cs) := decidable_of_iff _ isName_iff.symm

/-- There is no white space in a name. -/
theorem IsName.compact_eq {name : List Char} (h : IsName name) : compact name = name := by
  cases h with
  | cons hc hcs =>
      refine compact_eq_self
        (List.forall_mem_cons.mpr ⟨?_, fun d hd => isBlank_of_isNamePart (hcs d hd)⟩)
      exact isBlank_of_isNamePart (isNamePart_of_isNameStart hc)

/-- The decimal digits of a number are read as a number. -/
theorem isNumber_toDigits (n : Nat) : IsNumber (Nat.toDigits 10 n) := by
  refine ⟨Nat.toDigits_ne_nil, fun c hc => ?_⟩
  have hdigit := Nat.isDigit_of_mem_toDigits (by decide) (by decide) hc
  have hrange : (decide (c.val ≥ '0'.val) && decide (c.val ≤ '9'.val)) = true := hdigit
  simp only [Bool.and_eq_true, decide_eq_true_eq, UInt32.le_iff_toNat_le] at hrange
  have hascii : c.toNat < 128 := by
    have hval : c.toNat = c.val.toNat := rfl
    simp at hrange
    omega
  rw [isDigit, if_pos hascii, hdigit]

theorem compact_toDigits (n : Nat) : compact (Nat.toDigits 10 n) = Nat.toDigits 10 n :=
  compact_eq_self fun c hc => isBlank_of_isNamePart <| by
    have hdigit := Nat.isDigit_of_mem_toDigits (by decide) (by decide) hc
    simp [isNamePart, Char.isAlphanum, hdigit]

end Text

namespace Affine

/-! ## terms as they are written -/

/-- The sign in front of a term. -/
def signChar? (first negative : Bool) : Option Char :=
  if negative then some '-' else if first then none else some '+'

/-- Without its blanks, a sign is written as one character or left out. -/
theorem compact_signText (first negative : Bool) :
    Text.compact (signText first negative) = (signChar? first negative).toList := by
  cases first <;> cases negative <;> decide

/-- An integer is written as its sign and the digits of its magnitude. -/
theorem intText_eq (k : Int) :
    intText k = signText true (decide (k < 0)) ++ Nat.toDigits 10 k.natAbs := by
  unfold intText
  split <;> simp [signText, *]

namespace Term

/-- The term that is written for the coefficient `c` of a variable. -/
def ofCoeff (first : Bool) (c : Int) (name : List Char) : Term where
  sign := signChar? first (decide (c < 0))
  digits := if c.natAbs = 1 then [] else Nat.toDigits 10 c.natAbs
  star := c.natAbs != 1
  name

/-- The term that is written for the constant `k`. -/
def ofConstant (first : Bool) (k : Int) : Term where
  sign := signChar? first (decide (k < 0))
  digits := Nat.toDigits 10 k.natAbs
  star := false
  name := []

/-- A term with the sign that is written has a sign, unless it is the first. -/
theorem signed_signChar? {t : Term} {first negative : Bool}
    (h : t.sign = signChar? first negative) : t.Signed first := by
  unfold Signed
  cases first <;> cases negative <;> simp [h, signChar?]

/-- A coefficient and a name are a complete term. -/
theorem complete_ofCoeff (first : Bool) (c : Int) {name : List Char} (h : Text.IsName name) :
    (ofCoeff first c name).Complete := by
  unfold ofCoeff
  split
  · next hone => simpa [hone] using Complete.name h
  · exact .product (Text.isNumber_toDigits _) h

/-- A constant is a complete term. -/
theorem complete_ofConstant (first : Bool) (k : Int) : (ofConstant first k).Complete :=
  .number (Text.isNumber_toDigits _)

/-- The term of a coefficient is written as its sign, its magnitude and the name. -/
theorem text_ofCoeff (first : Bool) (c : Int) {name : List Char} (h : Text.IsName name) :
    (ofCoeff first c name).text =
      Text.compact (signText first (decide (c < 0)) ++ Affine.factorText c.natAbs ++ name) := by
  rw [Text.compact_append, Text.compact_append, compact_signText, h.compact_eq]
  by_cases hone : c.natAbs = 1
  · simp [ofCoeff, text, factorText, starText, Affine.factorText, hone, Text.compact]
  · have hstar : Text.compact ['*'] = ['*'] := by decide
    have hfactor : (c.natAbs : Int) ≠ 1 := by omega
    rw [Affine.factorText, if_neg hfactor, Int.natAbs_natCast, Text.compact_append, hstar,
      Text.compact_toDigits]
    simp [ofCoeff, text, factorText, starText, hone]

/-- The term of a constant is written as its sign and its digits. -/
theorem text_ofConstant (first : Bool) (k : Int) :
    (ofConstant first k).text = Text.compact (signText first (decide (k < 0)) ++
      Nat.toDigits 10 k.natAbs) := by
  rw [Text.compact_append, compact_signText, Text.compact_toDigits]
  simp [ofConstant, text, factorText, starText]

/-- A term of the given magnitude and sign has the number it was written for as its value. -/
theorem value_of_sign {t : Term} {first : Bool} {c : Int}
    (hsign : t.sign = signChar? first (decide (c < 0))) (hnumber : t.number = c.natAbs) :
    t.value = c := by
  rw [value, hsign, hnumber]
  by_cases hc : c < 0
  · rw [if_pos (by simp [signChar?, hc])]
    omega
  · rw [if_neg (by cases first <;> simp [signChar?, hc])]
    omega

/-- The term of a coefficient has its value. -/
theorem value_ofCoeff (first : Bool) (c : Int) (name : List Char) :
    (ofCoeff first c name).value = c := by
  refine value_of_sign rfl ?_
  unfold number ofCoeff
  by_cases hone : c.natAbs = 1
  · simp [hone]
  · simp [hone, Nat.toDigits_ne_nil]

/-- The term of a constant has its value. -/
theorem value_ofConstant (first : Bool) (k : Int) : (ofConstant first k).value = k := by
  refine value_of_sign rfl ?_
  simp [number, ofConstant, Nat.toDigits_ne_nil]

/-- A number is readable if its decimal digits are those of a word. -/
theorem readable_of_digits {t : Term} {n : Nat} (h : t.digits = [] ∨ t.digits = Nat.toDigits 10 n)
    (hn : (n : Int) ≤ Word.greatest) : t.Readable := by
  rcases h with h | h
  · exact ⟨by simp [h], by simp [h, Word.greatest]⟩
  · exact ⟨fun c hc => Nat.isDigit_of_mem_toDigits (by decide) (by decide) (h ▸ hc),
      by rwa [h, Nat.ofDigitChars_ten_toDigits]⟩

/-- The term of a coefficient is readable if its magnitude is a word. -/
theorem readable_ofCoeff (first : Bool) {c : Int} (name : List Char)
    (h : (c.natAbs : Int) ≤ Word.greatest) : (ofCoeff first c name).Readable := by
  refine readable_of_digits ?_ h
  by_cases hone : c.natAbs = 1
  · exact .inl (by simp [ofCoeff, hone])
  · exact .inr (by simp [ofCoeff, hone])

/-- The term of a constant is readable if its magnitude is a word. -/
theorem readable_ofConstant (first : Bool) {k : Int} (h : (k.natAbs : Int) ≤ Word.greatest) :
    (ofConstant first k).Readable :=
  readable_of_digits (.inr rfl) h

end Term

/-- The terms that are written for the coefficients of variables with the given names. -/
def writtenTerms : (first : Bool) → List String → List Int → List Term
  | _, _, [] => []
  | first, names, c :: cs =>
    if c = 0 then writtenTerms first names.tail cs
    else .ofCoeff first c (names.headD "").toList :: writtenTerms false names.tail cs

/-- The coefficients have names for all variables that occur. -/
structure Named (names : List String) (cs : List Int) : Prop where
  name : ∀ name ∈ names, Text.IsName name.toList
  past : ∀ i, names.length ≤ i → Coeffs.get cs i = 0

namespace Named

variable {names : List String} {c : Int} {cs : List Int}

theorem tail (h : Named names (c :: cs)) : Named names.tail cs where
  name := fun name hname => h.name name (List.mem_of_mem_tail hname)
  past := fun i hi => by simpa using h.past (i + 1) (by rw [List.length_tail] at hi; omega)

/-- A coefficient other than zero has a name. -/
theorem exists_cons (h : Named names (c :: cs)) (hc : c ≠ 0) :
    ∃ name rest, names = name :: rest ∧ Text.IsName name.toList := by
  cases names with
  | nil => exact absurd (h.past 0 (by simp)) (by simpa using hc)
  | cons name rest => exact ⟨name, rest, rfl, h.name name (by simp)⟩

end Named

/-- The printer writes the texts of the terms, apart from white space. -/
theorem exists_termsOnto {names : List String} {cs : List Int} (hnamed : Named names cs)
    (hcs : ∀ c ∈ cs, (c.natAbs : Int) ≤ Word.greatest) (i : Nat) (out : List Char) :
    ∃ out', termsOnto i names cs out = some out' ∧
      Text.compact out' = Text.compact out ++
        (writtenTerms out.isEmpty names cs).flatMap Term.text ∧
      out'.isEmpty = (out.isEmpty && (writtenTerms out.isEmpty names cs).isEmpty) := by
  induction cs generalizing i names out with
  | nil => exact ⟨out, rfl, by simp [writtenTerms]⟩
  | cons c cs ih =>
      obtain ⟨hc, hcs⟩ := List.forall_mem_cons.mp hcs
      by_cases hzero : c = 0
      · obtain ⟨out', hout', h⟩ := ih hnamed.tail hcs (i + 1) out
        exact ⟨out', by rw [termsOnto, if_pos hzero, hout'], by simpa [writtenTerms, hzero] using h⟩
      · obtain ⟨name, rest, rfl, hname⟩ := hnamed.exists_cons hzero
        obtain ⟨out', hout', htext, hempty⟩ := ih hnamed.tail hcs (i + 1)
          (out ++ signText out.isEmpty (decide (c < 0)) ++ factorText c.natAbs ++ name.toList)
        have hne : (out ++ signText out.isEmpty (decide (c < 0)) ++
            factorText c.natAbs ++ name.toList).isEmpty = false := by
          simp [hname.ne_nil]
        rw [hne] at htext hempty
        refine ⟨out', ?_, ?_, ?_⟩
        · rw [termsOnto, if_neg hzero, Word.abs?_of_le hc]
          exact hout'
        · rw [htext, writtenTerms, if_neg hzero, List.flatMap_cons, List.headD_cons,
            Term.text_ofCoeff _ _ hname]
          simp only [Text.compact_append, List.append_assoc, List.tail_cons]
        · simpa [writtenTerms, hzero] using hempty

/-- The written terms in front of a sum are a sum. -/
theorem isSum_writtenTerms {names : List String} {rest : List Char} {ks : List Int} {ts : List Term}
    {first : Bool} (hnamed : Named names ks)
    (hrest : IsSum (first && (writtenTerms first names ks).isEmpty) rest ts) :
    IsSum first ((writtenTerms first names ks).flatMap Term.text ++ rest)
      (writtenTerms first names ks ++ ts) := by
  induction ks generalizing names first with
  | nil => simpa [writtenTerms] using hrest
  | cons k ks ih =>
      by_cases hzero : k = 0
      · simp only [writtenTerms, if_pos hzero] at hrest ⊢
        exact ih hnamed.tail hrest
      · obtain ⟨name, names, rfl, hname⟩ := hnamed.exists_cons hzero
        simp only [writtenTerms, if_neg hzero, List.isEmpty_cons, Bool.and_false] at hrest ⊢
        rw [List.flatMap_cons, List.append_assoc, List.cons_append]
        exact (ih hnamed.tail (by simpa using hrest)).cons_term (Term.complete_ofCoeff _ _ hname)
          (Term.signed_signChar? rfl)

/-- Among different names, each is found at its own position. -/
theorem idxOf?_of_nodup {names : List String} (hdistinct : names.Nodup) {i : Nat} {name : String}
    (h : names[i]? = some name) : names.idxOf? name = some i := by
  obtain ⟨hi, rfl⟩ := List.getElem?_eq_some_iff.mp h
  refine List.idxOf?_eq_some_iff.mpr ⟨hi, rfl, fun j hj heq => ?_⟩
  exact absurd (hdistinct.getElem_inj_iff.mp heq) (by omega)

/-- Reading the term of a coefficient sets that coefficient. -/
theorem addTerm_ofCoeff {text : String} {names : List String} (hdistinct : names.Nodup) {i : Nat}
    {name : String} (hget : names[i]? = some name) (hname : Text.IsName name.toList) {a : Affine}
    (hzero : a.coeff i = 0) {c : Int} (hc : (c.natAbs : Int) ≤ Word.greatest) (first : Bool) :
    addTerm text names a (.ofCoeff first c name.toList) = .ok (a.setCoeff i c) := by
  refine addTerm_eq_ok_iff.mpr ⟨Term.readable_ofCoeff _ _ hc, .inr ⟨hname.ne_nil, i, ?_, ?_, ?_⟩⟩
  · simpa [Term.ofCoeff] using idxOf?_of_nodup hdistinct hget
  · rw [hzero, zero_add, Term.value_ofCoeff, Word.fits_iff, Word.least, Word.greatest]
    rw [Word.greatest] at hc
    omega
  · rw [hzero, zero_add, Term.value_ofCoeff]

/-- Adding the term of a constant to a form without one gives it that constant. -/
theorem addTerm_ofConstant {text : String} {names : List String} {a : Affine}
    (hzero : a.constant = 0) {k : Int} (hk : (k.natAbs : Int) ≤ Word.greatest) (first : Bool) :
    addTerm text names a (.ofConstant first k) = .ok { a with constant := k } := by
  refine addTerm_eq_ok_iff.mpr ⟨Term.readable_ofConstant _ hk, .inl ⟨rfl, ?_, ?_⟩⟩
  · rw [hzero, zero_add, Term.value_ofConstant, Word.fits_iff, Word.least, Word.greatest]
    rw [Word.greatest] at hk
    omega
  · rw [hzero, zero_add, Term.value_ofConstant]

/-- The first of the written terms, if its coefficient is not zero, sets that coefficient. -/
theorem foldlM_writtenTerms_cons {text : String} {names : List String}
    (hdistinct : names.Nodup) {c : Int} {cs : List Int} {i : Nat}
    (hnamed : Named (names.drop i) (c :: cs)) (hc : (c.natAbs : Int) ≤ Word.greatest) {a : Affine}
    (hzero : a.coeff i = 0) (first : Bool) :
    ∃ first' a', (writtenTerms first (names.drop i) (c :: cs)).foldlM (addTerm text names) a =
        (writtenTerms first' (names.drop (i + 1)) cs).foldlM (addTerm text names) a' ∧
      a'.constant = a.constant ∧ ∀ j, a'.coeff j = if j = i then c else a.coeff j := by
  rw [writtenTerms, List.tail_drop]
  split
  · next hc =>
    refine ⟨first, a, rfl, rfl, fun j => ?_⟩
    split
    · next hj => rw [hj, hzero, hc]
    · rfl
  · next hc0 =>
    obtain ⟨name, rest, hdrop, hname⟩ := hnamed.exists_cons hc0
    have hget : names[i]? = some name := by
      have hhead := congrArg (·[0]?) hdrop
      simpa using hhead
    refine ⟨false, a.setCoeff i c, ?_, constant_setCoeff .., fun j => coeff_setCoeff ..⟩
    rw [hdrop, List.headD_cons, List.foldlM_cons, addTerm_ofCoeff hdistinct hget hname hzero hc]
    rfl

/-- Adding up the terms written for the variables from `i` on puts their coefficients in place. -/
theorem foldlM_writtenTerms {text : String} {names : List String} (hdistinct : names.Nodup)
    {cs : List Int} {i : Nat} (hnamed : Named (names.drop i) cs)
    (hcs : ∀ c ∈ cs, (c.natAbs : Int) ≤ Word.greatest) {a : Affine}
    (hafter : ∀ j, i ≤ j → a.coeff j = 0) (first : Bool) :
    ∃ b, (writtenTerms first (names.drop i) cs).foldlM (addTerm text names) a = .ok b ∧
      b.constant = a.constant ∧ ∀ j, b.coeff j = if j < i then a.coeff j
      else Coeffs.get cs (j - i) := by
  induction cs generalizing i a first with
  | nil =>
      refine ⟨a, rfl, rfl, fun j => ?_⟩
      split
      · rfl
      · next hj => simpa using hafter j (by omega)
  | cons c cs ih =>
      obtain ⟨hc, hcs⟩ := List.forall_mem_cons.mp hcs
      obtain ⟨first', a', hstep, hconstant', hcoeff'⟩ :=
        @foldlM_writtenTerms_cons text names hdistinct c cs i hnamed hc a (hafter i le_rfl) first
      have hafter' : ∀ j, i + 1 ≤ j → a'.coeff j = 0 := fun j hj => by
        rw [hcoeff', if_neg (by omega), hafter j (by omega)]
      obtain ⟨b, hb, hconstant, hcoeff⟩ := ih (List.tail_drop ▸ hnamed.tail) hcs hafter' first'
      refine ⟨b, hstep.trans hb, hconstant.trans hconstant', fun j => ?_⟩
      rw [hcoeff, hcoeff']
      rcases lt_trichotomy j i with hj | rfl | hj
      · rw [if_pos (by omega), if_neg (by omega), if_pos hj]
      · simp
      · obtain ⟨k, rfl⟩ : ∃ k, j = i + (k + 1) := ⟨j - i - 1, by omega⟩
        rw [if_neg (by omega), if_neg (by omega), Nat.add_sub_cancel_left, Coeffs.get_cons_succ]
        congr 1
        omega

/-! ## reading what was written -/

/-- The term of the constant, which is left out if it is zero beside others. -/
def constantTerms (alone : Bool) (k : Int) : List Term :=
  if alone || k != 0 then [.ofConstant alone k] else []

/-- The constant is written as a sum of at most one term. -/
theorem isSum_constantTerms (alone : Bool) (k : Int) :
    IsSum alone ((constantTerms alone k).flatMap Term.text) (constantTerms alone k) := by
  unfold constantTerms
  split
  · have hsum := IsSum.nil.cons_term (Term.complete_ofConstant alone k) (Term.signed_signChar? rfl)
    simpa using hsum
  · exact .nil

/-- Reading the terms of the constant gives the form its constant. -/
theorem foldlM_constantTerms {text : String} {names : List String} {a : Affine}
    (hzero : a.constant = 0) {k : Int} (hk : (k.natAbs : Int) ≤ Word.greatest) (alone : Bool) :
    (constantTerms alone k).foldlM (addTerm text names) a = .ok { a with constant := k } := by
  unfold constantTerms
  split
  · rw [List.foldlM_cons, addTerm_ofConstant hzero hk]
    rfl
  · next h =>
    obtain ⟨-, rfl⟩ : alone = false ∧ k = 0 := by simpa using h
    rw [← hzero]
    rfl

/-- A form has some term. -/
theorem append_constantTerms_ne_nil (ts : List Term) (k : Int) :
    ts ++ constantTerms ts.isEmpty k ≠ [] := by
  cases ts <;> simp [constantTerms]

theorem IsSum.ne_nil {first : Bool} {cs : List Char} {ts : List Term} (h : IsSum first cs ts)
    (hts : ts ≠ []) : cs ≠ [] := by
  cases h with
  | nil => exact absurd rfl hts
  | cons hcomplete => simp [hcomplete.text_ne_nil]

/-- The text of a form is that of its terms, apart from white space. -/
theorem exists_renderChars {a : Affine} {names : List String} (hnamed : Named names a.coeffs)
    (hcs : ∀ c ∈ a.coeffs, (c.natAbs : Int) ≤ Word.greatest)
    (hk : (a.constant.natAbs : Int) ≤ Word.greatest) :
    ∃ cs, a.renderChars names = some cs ∧ Text.compact cs =
      (writtenTerms true names a.coeffs).flatMap Term.text ++
        (constantTerms (writtenTerms true names a.coeffs).isEmpty a.constant).flatMap
        Term.text := by
  obtain ⟨out, hout, htext, hempty⟩ := exists_termsOnto hnamed hcs 0 []
  simp only [List.isEmpty_nil, Bool.true_and, Text.compact_nil, List.nil_append] at htext hempty
  rw [renderChars, hout, ← hempty]
  by_cases hall : out = []
  · subst hall
    refine ⟨intText a.constant, rfl, ?_⟩
    rw [← htext, constantTerms, List.isEmpty_nil, Bool.true_or, if_pos rfl, List.flatMap_singleton,
      Term.text_ofConstant, intText_eq]
    rfl
  · have hout : out.isEmpty = false := List.isEmpty_eq_false_iff.mpr hall
    rw [hout]
    by_cases hzero : a.constant = 0
    · refine ⟨out, by simp [hall, hzero], ?_⟩
      simpa [constantTerms, hzero] using htext
    · refine ⟨out ++ signText false (decide (a.constant < 0)) ++
        Nat.toDigits 10 a.constant.natAbs, ?_, ?_⟩
      · rw [Word.abs?_of_le hk]
        simp only [Option.bind_eq_bind, Option.bind_some, hout, hzero, Int.natAbs_natCast]
        rfl
      · rw [List.append_assoc, Text.compact_append, htext, constantTerms, if_pos (by simp [hzero]),
          List.flatMap_singleton, Term.text_ofConstant]

/-- A form with a name for each of its variables, all of them different, is read back from its text:
the reader gives it without trailing zero coefficients, and it is the same form. -/
theorem parse_rendering (a : Affine) (names : List String)
    (hcoeffs : ∀ c ∈ a.coeffs, Word.fits c = true ∧ c ≠ Word.least)
    (hconstant : Word.fits a.constant = true ∧ a.constant ≠ Word.least) (hdistinct : names.Nodup)
    (hnames : ∀ name ∈ names, Text.IsName name.toList) (hlen : a.width ≤ names.length) :
    ∃ text, (a.render names : Outcome SyntaxError String) = .ok text ∧
      parse text names = .ok a.trimmed ∧
      a.trimmed.same a = true := by
  have hnamed : Named names a.coeffs := by
    refine ⟨hnames, fun i hi => ?_⟩
    rw [← Coeffs.get_trim]
    exact Coeffs.get_of_length_le (hlen.trans hi)
  have hcs : ∀ c ∈ a.coeffs, (c.natAbs : Int) ≤ Word.greatest := fun c hc =>
    Word.natAbs_le_greatest (hcoeffs c hc).1 (hcoeffs c hc).2
  have hk := Word.natAbs_le_greatest hconstant.1 hconstant.2
  obtain ⟨cs, hrender, htext⟩ := exists_renderChars hnamed hcs hk
  refine ⟨String.ofList cs, by simp [render, hrender, Outcome.orFault], ?_, same_iff.mpr ⟨rfl,
    coeff_trimmed a⟩⟩
  obtain ⟨b, hb, hconst, hcoeff⟩ :=
    @foldlM_writtenTerms (String.ofList cs) names hdistinct a.coeffs 0 hnamed hcs (const 0)
      (fun _ _ => rfl) true
  rw [List.drop_zero] at hb
  have hsum : IsSum true (Text.compact cs) (writtenTerms true names a.coeffs ++
      constantTerms (writtenTerms true names a.coeffs).isEmpty a.constant) := by
    rw [htext]
    exact isSum_writtenTerms hnamed (isSum_constantTerms ..)
  have hfold : (writtenTerms true names a.coeffs ++
      constantTerms (writtenTerms true names a.coeffs).isEmpty a.constant).foldlM (addTerm
      (String.ofList cs) names)
        (const 0) = .ok { b with constant := a.constant } := by
    rw [List.foldlM_append, hb]
    exact foldlM_constantTerms hconst hk _
  have htrimmed := (accepts_of_foldlM hfold).2.trimmed
  have hresult : a.trimmed = { b with constant := a.constant } := by
    rw [← htrimmed]
    exact trimmed_congr rfl fun i => by simpa [coeff_eq] using (hcoeff i).symm
  rw [hresult, parse_eq_ok_iff_foldlM, String.toList_ofList]
  exact ⟨hsum.ne_nil (append_constantTerms_ne_nil _ _), _, hsum, hfold⟩

/-- A form with a zero between its coefficients and one at the end is read back without the latter;
`N` has a negative coefficient, and that of `j_2` is the greatest word. -/
theorem gapped_form_is_read_back :
    ∃ text, (render ⟨[-1, 0, 9223372036854775807, 0], -7⟩ ["N", "i", "j_2"] :
      Outcome SyntaxError String) = .ok text ∧
      parse text ["N", "i", "j_2"] = .ok (trimmed ⟨[-1, 0, 9223372036854775807, 0], -7⟩) ∧
      (trimmed ⟨[-1, 0, 9223372036854775807, 0], -7⟩).same ⟨[-1, 0, 9223372036854775807, 0], -7⟩ =
        true :=
  parse_rendering ⟨[-1, 0, 9223372036854775807, 0], -7⟩ ["N", "i", "j_2"] (by decide)
    (by decide) (by decide) (by decide) (by decide)

example : (render ⟨[-1, 0, 2, 0], -7⟩ ["N", "i", "j_2"] : Outcome SyntaxError String) =
    .ok "-N + 2*j_2 - 7" := by
  decide

end Affine

end KernelMap
