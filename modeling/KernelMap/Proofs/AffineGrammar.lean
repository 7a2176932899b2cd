import KernelMap.Affine.Parser
import KernelMap.Proofs.Value
import Mathlib.Data.List.Induction
import Mathlib.Data.List.TakeWhile

/-!
# KernelMap.Proofs.AffineGrammar

The texts that are affine forms.

`Affine.IsSum` is the grammar of sums: a text without white space is cut into complete terms
(`Term.Complete`), signed from the second one on, whose runs of digits and name characters are as
long as they can be.  The reader splits off one term after the other.  A well-formed split is a step
of the grammar (`Term.complete_of_split`) and every step is found (`Term.split_append`), so that
reading is adding up the terms of a sum (`addTerms_eq_ok_iff`).

Adding up succeeds if every number has a value, every name is known and no running sum leaves the
words (`Accepts`); the result then has the sums of the terms as its constant and coefficients
(`IsTotal`).  Both together say which texts are read, and as what (`parse_accepts_sums`).
-/

namespace KernelMap

/-! ## runs of characters -/

namespace Text

/-- White space is dropped on both sides of a cut. -/
@[simp] theorem compact_append (cs ds : List Char) :
    compact (cs ++ ds) = compact cs ++ compact ds :=
  List.filter_append ..

/-- The text does not go on with a character of the class. -/
def Stops (p : Char → Bool) (cs : List Char) : Prop := ∀ c ∈ cs.head?, p c = false

theorem stops_nil (p : Char → Bool) : Stops p [] := by simp [Stops]

theorem stops_cons {p : Char → Bool} {c : Char} {cs : List Char} :
    Stops p (c :: cs) ↔ p c = false := by
  simp [Stops]

/-- A text that stops, and goes on with one that does, stops. -/
theorem Stops.append {p : Char → Bool} {cs rest : List Char} (h : Stops p cs)
    (hrest : Stops p rest) : Stops p (cs ++ rest) := by
  cases cs with
  | nil => exact hrest
  | cons c cs => exact stops_cons.mpr (stops_cons.mp h)

/-- Whether a text stops is seen at its first character. -/
theorem Stops.append_of_ne_nil {p : Char → Bool} {cs rest : List Char} (h : Stops p cs)
    (hne : cs ≠ []) : Stops p (cs ++ rest) := by
  obtain ⟨c, cs, rfl⟩ := List.exists_cons_of_ne_nil hne
  exact stops_cons.mpr (stops_cons.mp h)

/-- What is left after a run of the class stops it. -/
theorem stops_dropWhile (p : Char → Bool) (cs : List Char) : Stops p (cs.dropWhile p) := by
  intro c hc
  have h := List.head?_dropWhile_not p cs
  rw [hc] at h
  exact h

theorem Stops.takeWhile_eq_nil {p : Char → Bool} {cs : List Char} (h : Stops p cs) :
    cs.takeWhile p = [] := by
  cases cs with
  | nil => rfl
  | cons c cs => simp [h c rfl]

theorem Stops.dropWhile_eq {p : Char → Bool} {cs : List Char} (h : Stops p cs) :
    cs.dropWhile p = cs := by
  cases cs with
  | nil => rfl
  | cons c cs => simp [h c rfl]

/-- A run of the class is taken as a whole if the rest stops it. -/
theorem takeWhile_append_of_stops {p : Char → Bool} {run rest : List Char}
    (hrun : ∀ c ∈ run, p c = true) (hrest : Stops p rest) : (run ++ rest).takeWhile p = run := by
  rw [List.takeWhile_append_of_pos hrun, hrest.takeWhile_eq_nil, List.append_nil]

/-- A run of the class is dropped as a whole if the rest stops it. -/
theorem dropWhile_append_of_stops {p : Char → Bool} {run rest : List Char}
    (hrun : ∀ c ∈ run, p c = true) (hrest : Stops p rest) : (run ++ rest).dropWhile p = rest := by
  rw [List.dropWhile_append_of_pos hrun, hrest.dropWhile_eq]

/-- A number: digits of any script, at least one. -/
def IsNumber (cs : List Char) : Prop := cs ≠ [] ∧ ∀ c ∈ cs, isDigit c = true

/-- A name: a letter or underscore, then letters, digits and underscores. -/
inductive IsName : List Char → Prop
  | cons {c : Char} {cs : List Char} (hc : isNameStart c = true)
      (hcs : ∀ d ∈ cs, isNamePart d = true) : IsName (c :: cs)

theorem IsName.ne_nil {cs : List Char} (h : IsName cs) : cs ≠ [] := by
  cases h
  simp

/-- A name stops every class without letters and underscore. -/
theorem IsName.stops {p : Char → Bool} (hp : ∀ c, isNameStart c = true → p c = false)
    {cs : List Char} (h : IsName cs) : Stops p cs := by
  cases h with
  | cons hc => exact stops_cons.mpr (hp _ hc)

/-- A number stops every class without digits. -/
theorem IsNumber.stops {p : Char → Bool} (hp : ∀ c, isDigit c = true → p c = false) {cs : List Char}
    (h : IsNumber cs) : Stops p cs :=
  fun c hc => hp c (h.2 c (List.mem_of_head? hc))

/-- No digit starts a name. -/
theorem isDigit_of_isNameStart {c : Char} (h : isNameStart c = true) : isDigit c = false := by
  have hval : c.toNat = c.val.toNat := rfl
  have hranges : ((decide (c.val ≥ 'A'.val ∧ c.val ≤ 'Z'.val) ||
      (decide (c.val ≥ 'a'.val) && decide (c.val ≤ 'z'.val))) || c == '_') = true := h
  simp only [Bool.or_eq_true, Bool.and_eq_true, decide_eq_true_eq, beq_iff_eq,
    UInt32.le_iff_toNat_le] at hranges
  rcases hranges with h | rfl
  · simp at h
    rw [isDigit, if_pos (by omega), Char.isDigit]
    simp [UInt32.le_iff_toNat_le]
    omega
  · decide

/-- A name is split off in front of a character that cannot continue it. -/
theorem splitName_append {name rest : List Char} (hname : IsName name)
    (hrest : Stops isNamePart rest) : splitName (name ++ rest) = (name, rest) := by
  cases hname with
  | cons hc hcs =>
      rw [List.cons_append, splitName, if_pos hc, takeWhile_append_of_stops hcs hrest,
        dropWhile_append_of_stops hcs hrest]

/-- Splitting off a name loses nothing, and what is split off is a name, unless there is none. -/
theorem splitName_eq {cs name rest : List Char} (h : splitName cs = (name, rest)) :
    cs = name ++ rest ∧ (name = [] ∨ IsName name) := by
  cases cs with
  | nil =>
      obtain ⟨rfl, rfl⟩ := Prod.mk.inj h
      exact ⟨rfl, .inl rfl⟩
  | cons c cs =>
      rw [splitName] at h
      split at h
      · next hc =>
        obtain ⟨rfl, rfl⟩ := Prod.mk.inj h
        refine ⟨?_, .inr (.cons hc fun d hd => List.mem_takeWhile_imp hd)⟩
        rw [List.cons_append, List.takeWhile_append_dropWhile]
      · obtain ⟨rfl, rfl⟩ := Prod.mk.inj h
        exact ⟨rfl, .inl rfl⟩

end Text

namespace Affine

/-! ## the grammar -/

namespace Term

/-- The characters between number and name. -/
def starText (t : Term) : List Char := if t.star then ['*'] else []

/-- The characters of a term without its sign. -/
def factorText (t : Term) : List Char := t.digits ++ (t.starText ++ t.name)

/-- The characters of a term. -/
def text (t : Term) : List Char := t.sign.toList ++ t.factorText

/-- The term is a number, a name, or a number and a name with or without `*` between them. -/
inductive Complete : Term → Prop
  | number {sign : Option Char} {digits : List Char} (h : Text.IsNumber digits) :
      Complete ⟨sign, digits, false, []⟩
  | name {sign : Option Char} {name : List Char} (h : Text.IsName name) :
      Complete ⟨sign, [], false, name⟩
  | product {sign : Option Char} {digits name : List Char} {star : Bool} (h : Text.IsNumber digits)
      (h' : Text.IsName name) : Complete ⟨sign, digits, star, name⟩

/-- The term has a sign; the first one may go without. -/
def Signed (first : Bool) (t : Term) : Prop :=
  t.sign = some '+' ∨ t.sign = some '-' ∨ first = true ∧ t.sign = none

/-- No run of the term goes on: its digits are not followed by a digit, its name not by a character
of names. -/
structure Ends (t : Term) (rest : List Char) : Prop where
  digits : t.digits ≠ [] → Text.Stops Text.isDigit (t.starText ++ t.name ++ rest)
  name : t.name ≠ [] → Text.Stops Text.isNamePart rest

end Term

/-- The text is the sum of the terms, in order. -/
inductive IsSum : (first : Bool) → List Char → List Term → Prop
  | nil {first : Bool} : IsSum first [] []
  | cons {first : Bool} {t : Term} {rest : List Char} {ts : List Term} (hcomplete : t.Complete)
      (hsigned : t.Signed first) (hends : t.Ends rest) (hrest : IsSum false rest ts) :
      IsSum first (t.text ++ rest) (t :: ts)

/-! ## splitting off a term -/

namespace Term

/-- Is `c` a sign? -/
def isSign (c : Char) : Bool := c == '+' || c == '-'

theorem isSign_iff {c : Char} : isSign c = true ↔ c = '+' ∨ c = '-' := by
  simp only [isSign, Bool.or_eq_true, beq_iff_eq]

/-- A sign that is split off stood at the front. -/
theorem splitSign_eq {cs rest : List Char} {sign : Option Char} (h : splitSign cs = (sign, rest)) :
    cs = sign.toList ++ rest ∧ ∀ c ∈ sign, isSign c = true := by
  cases cs with
  | nil =>
      obtain ⟨rfl, rfl⟩ := Prod.mk.inj h
      simp
  | cons c cs =>
      rw [splitSign] at h
      split at h
      · next hc =>
        obtain ⟨rfl, rfl⟩ := Prod.mk.inj h
        simpa [isSign] using hc
      · obtain ⟨rfl, rfl⟩ := Prod.mk.inj h
        simp

/-- A text without a sign at the front has none to split off. -/
theorem splitSign_of_stops {cs : List Char} (h : Text.Stops isSign cs) :
    splitSign cs = (none, cs) := by
  cases cs with
  | nil => rfl
  | cons c cs =>
      have hc : isSign c = false := h c rfl
      rw [splitSign, ← isSign, hc]
      rfl

/-- The sign of a term is split off, if it has one. -/
theorem splitSign_append {t : Term} {first : Bool} {cs : List Char} (hsigned : t.Signed first)
    (hcs : Text.Stops isSign cs) : splitSign (t.sign.toList ++ cs) = (t.sign, cs) := by
  rcases hsigned with h | h | ⟨-, h⟩ <;> rw [h]
  · rfl
  · rfl
  · exact splitSign_of_stops hcs

/-- A star that is split off stood at the front. -/
theorem splitStar_eq {cs rest : List Char} {star : Bool} (h : splitStar cs = (star, rest)) :
    cs = (if star then ['*'] else []) ++ rest := by
  cases cs with
  | nil =>
      obtain ⟨rfl, rfl⟩ := Prod.mk.inj h
      rfl
  | cons c cs =>
      rw [splitStar] at h
      split at h
      · next hc =>
        obtain ⟨rfl, rfl⟩ := Prod.mk.inj h
        simpa using hc
      · obtain ⟨rfl, rfl⟩ := Prod.mk.inj h
        rfl

/-- A text without a star at the front has none to split off. -/
theorem splitStar_of_stops {cs : List Char} (h : Text.Stops (· == '*') cs) :
    splitStar cs = (false, cs) := by
  cases cs with
  | nil => rfl
  | cons c cs =>
      have hc : (c == '*') = false := h c rfl
      rw [splitStar, hc]
      rfl

/-- In front of a sign, and at the end, every run stops. -/
theorem stops_of_sign {p : Char → Bool} (hplus : p '+' = false) (hminus : p '-' = false)
    {cs : List Char} (h : Text.Stops (!isSign ·) cs) : Text.Stops p cs := by
  intro c hc
  have hsign : isSign c = true := by simpa using h c hc
  rcases isSign_iff.mp hsign with rfl | rfl
  · exact hplus
  · exact hminus

theorem isSign_of_isDigit {c : Char} (h : Text.isDigit c = true) : isSign c = false := by
  by_contra hsign
  rcases isSign_iff.mp (by simpa using hsign) with rfl | rfl <;> revert h <;> decide

theorem isSign_of_isNameStart {c : Char} (h : Text.isNameStart c = true) : isSign c = false := by
  by_contra hsign
  rcases isSign_iff.mp (by simpa using hsign) with rfl | rfl <;> revert h <;> decide

theorem ne_star_of_isNameStart {c : Char} (h : Text.isNameStart c = true) : (c == '*') = false := by
  by_contra hstar
  have hc : c = '*' := by simpa using hstar
  subst hc
  revert h
  decide

/-- A star stops a run of digits. -/
theorem stops_starText (t : Term) : Text.Stops Text.isDigit t.starText := by
  unfold starText
  split
  · exact Text.stops_cons.mpr (by decide)
  · exact Text.stops_nil _

/-- The parts of a complete term do not run into each other. -/
theorem Complete.name_cases {t : Term} (h : t.Complete) :
    t.name = [] ∧ t.star = false ∨ Text.IsName t.name := by
  cases h with
  | number => exact .inl ⟨rfl, rfl⟩
  | name h => exact .inr h
  | product _ h' => exact .inr h'

/-- The name of a complete term stops every class without letters and underscore. -/
theorem Complete.stops_name {t : Term} (h : t.Complete) {p : Char → Bool}
    (hp : ∀ c, Text.isNameStart c = true → p c = false) : Text.Stops p t.name := by
  rcases h.name_cases with ⟨hname, -⟩ | hname
  · rw [hname]
    exact Text.stops_nil p
  · exact hname.stops hp

theorem Complete.forall_digits {t : Term} (h : t.Complete) :
    ∀ c ∈ t.digits, Text.isDigit c = true := by
  cases h with
  | number h => exact h.2
  | name => simp
  | product h => exact h.2

/-- A complete term without its sign does not start like a sign. -/
theorem Complete.stops_factorText {t : Term} (h : t.Complete) : Text.Stops isSign t.factorText := by
  cases h with
  | number h => simpa [factorText, starText] using h.stops fun _ => isSign_of_isDigit
  | name h => simpa [factorText, starText] using h.stops fun _ => isSign_of_isNameStart
  | product h h' =>
      obtain ⟨hne, hall⟩ := h
      obtain ⟨c, cs, rfl⟩ := List.exists_cons_of_ne_nil hne
      exact Text.stops_cons.mpr (isSign_of_isDigit (hall c (by simp)))

/-- A complete term is not written as nothing, even without its sign. -/
theorem Complete.factorText_ne_nil {t : Term} (h : t.Complete) : t.factorText ≠ [] := by
  cases h with
  | number h => simpa [factorText, starText] using h.1
  | name h => simpa [factorText, starText] using h.ne_nil
  | product h => simp [factorText, h.1]

theorem Complete.text_ne_nil {t : Term} (h : t.Complete) : t.text ≠ [] := by
  simp [text, h.factorText_ne_nil]

/-- A complete term ends where a sign or the end of the text follows. -/
theorem Complete.ends {t : Term} {rest : List Char} (h : t.Complete)
    (hrest : Text.Stops (!isSign ·) rest) : t.Ends rest := by
  refine ⟨fun _ => ?_, fun _ => stops_of_sign rfl rfl hrest⟩
  have hname : Text.Stops Text.isDigit t.name := h.stops_name fun _ => Text.isDigit_of_isNameStart
  exact (t.stops_starText.append hname).append (stops_of_sign rfl rfl hrest)

/-- The star of a complete term is split off, if it has one. -/
theorem splitStar_append {t : Term} {rest : List Char} (h : t.Complete)
    (hrest : Text.Stops (!isSign ·) rest) :
    splitStar (t.starText ++ (t.name ++ rest)) = (t.star, t.name ++ rest) := by
  unfold starText
  split
  · next hstar => simp [hstar, splitStar]
  · next hstar =>
    have hname : Text.Stops (· == '*') t.name := h.stops_name fun _ => ne_star_of_isNameStart
    rw [List.nil_append, splitStar_of_stops (hname.append (stops_of_sign rfl rfl hrest))]
    simp [hstar]

/-- The name of a complete term is split off up to the next sign. -/
theorem splitName_append {t : Term} {rest : List Char} (h : t.Complete)
    (hrest : Text.Stops (!isSign ·) rest) : Text.splitName (t.name ++ rest) = (t.name, rest) := by
  rcases h.name_cases with ⟨hname, -⟩ | hname
  · have hstart : Text.Stops Text.isNameStart rest := stops_of_sign rfl rfl hrest
    rw [hname, List.nil_append]
    cases rest with
    | nil => rfl
    | cons c cs => rw [Text.splitName, Text.stops_cons.mp hstart]; rfl
  · exact Text.splitName_append hname (stops_of_sign rfl rfl hrest)

/-- A term is split off part by part: sign, digits, star and name. -/
theorem split_eq_iff {cs rest : List Char} {t : Term} :
    split cs = (t, rest) ↔ ∃ afterSign afterStar, splitSign cs = (t.sign, afterSign) ∧
      afterSign.takeWhile Text.isDigit = t.digits ∧
      splitStar (afterSign.dropWhile Text.isDigit) = (t.star, afterStar) ∧
      Text.splitName afterStar = (t.name, rest) := by
  obtain ⟨sign, digits, star, name⟩ := t
  constructor
  · intro h
    simp only [split, Prod.mk.injEq, mk.injEq] at h
    obtain ⟨⟨rfl, rfl, rfl, rfl⟩, rfl⟩ := h
    exact ⟨_, _, rfl, rfl, rfl, rfl⟩
  · rintro ⟨afterSign, afterStar, hsign, rfl, hstar, hname⟩
    simp only [split, hsign, hstar, hname]

/-- A term is split off in front of a sign, or at the end. -/
theorem split_append {t : Term} {first : Bool} {rest : List Char} (hcomplete : t.Complete)
    (hsigned : t.Signed first) (hrest : Text.Stops (!isSign ·) rest) :
    split (t.text ++ rest) = (t, rest) := by
  have hstops : Text.Stops Text.isDigit (t.starText ++ (t.name ++ rest)) :=
    t.stops_starText.append
      ((hcomplete.stops_name fun _ => Text.isDigit_of_isNameStart).append
        (stops_of_sign rfl rfl hrest))
  have hsign : splitSign (t.text ++ rest) =
      (t.sign, t.digits ++ (t.starText ++ (t.name ++ rest))) := by
    have hfactor : t.text ++ rest = t.sign.toList ++ (t.factorText ++ rest) := List.append_assoc ..
    rw [hfactor, splitSign_append hsigned
      (hcomplete.stops_factorText.append_of_ne_nil hcomplete.factorText_ne_nil)]
    simp only [factorText, List.append_assoc]
  refine split_eq_iff.mpr
    ⟨_, _, hsign, Text.takeWhile_append_of_stops hcomplete.forall_digits hstops, ?_,
    splitName_append hcomplete hrest⟩
  rw [Text.dropWhile_append_of_stops hcomplete.forall_digits hstops,
    splitStar_append hcomplete hrest]

/-- A well-formed term that is split off is a complete term at the front of the text. -/
theorem complete_of_split {cs rest : List Char} {t : Term} {first : Bool} (h : split cs = (t, rest))
    (hwf : t.wellFormed first = true) : cs = t.text ++ rest ∧ t.Complete ∧ t.Signed first := by
  obtain ⟨afterSign, afterStar, hsign, hdigits, hstar, hname⟩ := split_eq_iff.mp h
  obtain ⟨rfl, hchar⟩ := splitSign_eq hsign
  obtain ⟨hafter, hname⟩ := Text.splitName_eq hname
  obtain ⟨sign, digits, star, name⟩ := t
  dsimp only at *
  have hnumber : ∀ c ∈ digits, Text.isDigit c = true :=
    fun c hc => List.mem_takeWhile_imp (hdigits ▸ hc)
  have htext : afterSign = digits ++ ((if star then ['*'] else []) ++ (name ++ rest)) := by
    rw [← hafter, ← splitStar_eq hstar, ← hdigits, List.takeWhile_append_dropWhile]
  simp only [Term.wellFormed, Bool.and_eq_true, Bool.or_eq_true, Bool.not_eq_true',
    List.isEmpty_eq_false_iff] at hwf
  obtain ⟨⟨hfirst, hparts⟩, hproduct⟩ := hwf
  refine ⟨by simp [htext, text, factorText, starText], ?_, ?_⟩
  · rcases hname with rfl | hname
    · obtain rfl : star = false := hproduct.resolve_right (by simp)
      exact .number ⟨hparts.resolve_right (by simp), hnumber⟩
    · by_cases hempty : digits = []
      · obtain rfl : star = false := hproduct.resolve_right (by simp [hempty])
        exact hempty ▸ .name hname
      · exact .product ⟨hempty, hnumber⟩ hname
  · cases sign with
    | none => exact .inr (.inr ⟨by simpa using hfirst, rfl⟩)
    | some c => rcases isSign_iff.mp (hchar c rfl) with rfl | rfl <;> simp [Signed]

/-- A complete term with its sign is accepted. -/
theorem Complete.wellFormed {t : Term} {first : Bool} (hcomplete : t.Complete)
    (hsigned : t.Signed first) : t.wellFormed first = true := by
  have hsign : (first || t.sign.isSome) = true := by
    rcases hsigned with h | h | ⟨h, -⟩ <;> simp [h]
  cases hcomplete with
  | number h => simpa [Term.wellFormed, h.1] using hsign
  | name h => simpa [Term.wellFormed, h.ne_nil] using hsign
  | product h h' => simpa [Term.wellFormed, h.1, h'.ne_nil] using hsign

end Term

/-! ## sums -/

/-- From its second term on, a sum goes on with a sign. -/
theorem IsSum.stops {cs : List Char} {ts : List Term} (h : IsSum false cs ts) :
    Text.Stops (!Term.isSign ·) cs := by
  cases h with
  | nil => exact Text.stops_nil _
  | cons _ hsigned =>
      rcases hsigned with h | h | ⟨h, -⟩
      · simp [Term.text, h, Text.Stops, Term.isSign]
      · simp [Term.text, h, Text.Stops, Term.isSign]
      · simp at h

/-- The runs of a term in front of a sum end by themselves. -/
theorem IsSum.cons_term {first : Bool} {t : Term} {rest : List Char} {ts : List Term}
    (hcomplete : t.Complete) (hsigned : t.Signed first) (hrest : IsSum false rest ts) :
    IsSum first (t.text ++ rest) (t :: ts) :=
  .cons hcomplete hsigned (hcomplete.ends hrest.stops) hrest

theorem addTerms_nil (text : String) (names : List String) (n : Nat) (first : Bool) (a : Affine) :
    addTerms text names n first [] a = .ok a := by
  cases n <;> rfl

/-- One step of reading takes a term that is well formed. -/
theorem addTerms_eq_ok {text : String} {names : List String} {n : Nat} {first : Bool}
    {cs rest : List Char} {t : Term} {a b : Affine} (hcs : cs ≠ [])
    (hsplit : Term.split cs = (t, rest)) : addTerms text names (n + 1) first cs a = .ok b ↔
      t.wellFormed first = true ∧
        ∃ a', addTerm text names a t = .ok a' ∧ addTerms text names n false rest a' = .ok b := by
  obtain ⟨c, cs, rfl⟩ := List.exists_cons_of_ne_nil hcs
  rw [addTerms, hsplit]
  · dsimp only
    split
    · next hwf => simp [hwf]
    · next hwf => simp [hwf]
  · simp

/-- Reading a text is adding up the terms of the sum that it is. -/
theorem addTerms_eq_ok_iff {text : String} {names : List String} {n : Nat} {first : Bool}
    {cs : List Char} {a b : Affine} (hn : cs.length ≤ n) :
    addTerms text names n first cs a = .ok b ↔
      ∃ ts, IsSum first cs ts ∧ ts.foldlM (addTerm text names) a = .ok b := by
  constructor
  · intro h
    induction n generalizing first cs a with
    | zero =>
        obtain rfl : cs = [] := List.length_eq_zero_iff.mp (by omega)
        exact ⟨[], .nil, h⟩
    | succ n ih =>
        by_cases hcs : cs = []
        · subst hcs
          exact ⟨[], .nil, h⟩
        · obtain ⟨t, rest, hsplit⟩ : ∃ t rest, Term.split cs = (t, rest) := ⟨_, _, rfl⟩
          obtain ⟨hwf, a', ha', hread⟩ := (addTerms_eq_ok hcs hsplit).mp h
          obtain ⟨rfl, hcomplete, hsigned⟩ := Term.complete_of_split hsplit hwf
          have hpos := List.length_pos_iff.mpr hcomplete.text_ne_nil
          rw [List.length_append] at hn
          obtain ⟨ts, hsum, hts⟩ := ih (by omega) hread
          refine ⟨t :: ts, hsum.cons_term hcomplete hsigned, ?_⟩
          rw [List.foldlM_cons]
          exact Outcome.bind_eq_ok.mpr ⟨a', ha', hts⟩
  · rintro ⟨ts, hsum, hts⟩
    induction hsum generalizing n a with
    | nil =>
        obtain rfl : a = b := by simpa using hts
        exact addTerms_nil text names n _ a
    | @cons first t rest ts hcomplete hsigned hends hrest ih =>
        have hpos := List.length_pos_iff.mpr hcomplete.text_ne_nil
        rw [List.length_append] at hn
        obtain ⟨n, rfl⟩ : ∃ m, n = m + 1 := ⟨n - 1, by omega⟩
        rw [List.foldlM_cons] at hts
        obtain ⟨a', ha', hts⟩ := Outcome.bind_eq_ok.mp hts
        have hsplit := Term.split_append hcomplete hsigned hrest.stops
        refine (addTerms_eq_ok (by simp [hcomplete.text_ne_nil]) hsplit).mpr
          ⟨hcomplete.wellFormed hsigned, a', ha', ?_⟩
        exact ih (by omega) hts

/-! ## adding up -/

/-- The value of a run of ASCII digits on top of the value of those before it. -/
theorem digitsValue_eq_some_iff {n v : Nat} {ds : List Char} :
    digitsValue n ds = some v ↔ (∀ c ∈ ds, c.isDigit = true) ∧ Nat.ofDigitChars 10 ds n = v := by
  induction ds generalizing n with
  | nil => simp [digitsValue, Nat.ofDigitChars]
  | cons c ds ih =>
      rw [digitsValue]
      split
      · next hc => simp [ih, hc, Nat.ofDigitChars]
      · next hc => simp [hc]

namespace Term

/-- The number of a term, `1` if it has none. -/
def number (t : Term) : Nat := if t.digits = [] then 1 else Nat.ofDigitChars 10 t.digits 0

/-- The number with its sign. -/
def value (t : Term) : Int := if t.sign = some '-' then -t.number else t.number

/-- The number is written in ASCII digits and is a word. -/
structure Readable (t : Term) : Prop where
  ascii : ∀ c ∈ t.digits, c.isDigit = true
  le : (Nat.ofDigitChars 10 t.digits 0 : Int) ≤ Word.greatest

/-- A number has a magnitude exactly if it is readable. -/
theorem magnitude_eq_some_iff {t : Term} {m : Int} :
    t.magnitude = some m ↔ t.Readable ∧ t.number = m := by
  unfold magnitude number
  split
  · next h =>
    have hnil : t.digits = [] := by simpa using h
    have hreadable : t.Readable := ⟨by simp [hnil], by simp [hnil, Word.greatest]⟩
    simp [hreadable, hnil]
  · next h =>
    have hne : t.digits ≠ [] := by simpa using h
    simp only [Option.bind_eq_bind, Option.bind_eq_some_iff, digitsValue_eq_some_iff,
      Word.check_eq_some_iff, Word.fits_iff, if_neg hne]
    constructor
    · rintro ⟨v, ⟨hascii, rfl⟩, ⟨-, hle⟩, rfl⟩
      exact ⟨⟨hascii, hle⟩, rfl⟩
    · rintro ⟨⟨hascii, hle⟩, rfl⟩
      exact ⟨_, ⟨hascii, rfl⟩, ⟨by simp [Word.least], hle⟩, rfl⟩

end Term

/-- The sum of the signed numbers of the terms without a name. -/
def constantSum (ts : List Term) : Int := ((ts.filter (·.name.isEmpty)).map Term.value).sum

/-- The sum of the signed numbers of the terms whose name stands first at position `i`. -/
def coeffSum (names : List String) (i : Nat) (ts : List Term) : Int :=
  ((ts.filter fun t => !t.name.isEmpty && names.idxOf? (String.ofList t.name) ==
    some i).map Term.value).sum

/-- A further term adds to the constant if it has no name. -/
theorem constantSum_append (ts : List Term) (t : Term) :
    constantSum (ts ++ [t]) = constantSum ts + if t.name = [] then t.value else 0 := by
  by_cases h : t.name = [] <;> simp [constantSum, h]

/-- A further term adds to the coefficient of its name. -/
theorem coeffSum_append (names : List String) (i : Nat) (ts : List Term) (t : Term) :
    coeffSum names i (ts ++ [t]) = coeffSum names i ts +
      if t.name ≠ [] ∧ names.idxOf? (String.ofList t.name) = some i then t.value else 0 := by
  by_cases h : t.name ≠ [] ∧ names.idxOf? (String.ofList t.name) = some i
  · simp [coeffSum, List.filter_append, h]
  · have hf : (!t.name.isEmpty && names.idxOf? (String.ofList t.name) == some i) = false := by
      simpa [Bool.and_eq_false_iff] using h
    simp [coeffSum, List.filter_append, h, hf]

/-- Every number has a value, every name is known and every running sum is a word. -/
structure Accepts (names : List String) (ts : List Term) : Prop where
  readable : ∀ t ∈ ts, t.Readable
  known : ∀ t ∈ ts, t.name ≠ [] → String.ofList t.name ∈ names
  constant : ∀ us, us <+: ts → Word.fits (constantSum us) = true
  coeff : ∀ us, us <+: ts → ∀ i, Word.fits (coeffSum names i us) = true

/-- The form has the sums of the terms as its constant and coefficients. -/
structure IsTotal (names : List String) (ts : List Term) (a : Affine) : Prop where
  constant : a.constant = constantSum ts
  coeff : ∀ i, a.coeff i = coeffSum names i ts
  /-- The coefficient list does not end in a zero. -/
  trimmed : a.trimmed = a

/-- Adding a term succeeds if its number and name can be read and the new sum is a word. -/
theorem addTerm_eq_ok_iff {text : String} {names : List String} {a b : Affine} {t : Term} :
    addTerm text names a t = .ok b ↔ t.Readable ∧
      (t.name = [] ∧ Word.fits (a.constant + t.value) = true ∧
        b = { a with constant := a.constant + t.value } ∨
        t.name ≠ [] ∧ ∃ i, names.idxOf? (String.ofList t.name) = some i ∧
          Word.fits (a.coeff i + t.value) = true ∧ b = a.setCoeff i (a.coeff i + t.value)) := by
  have hvalue : ∀ m : Int, t.number = m → (if t.sign == some '-' then -m else m) = t.value := by
    rintro m rfl
    simp [Term.value]
  simp only [addTerm, Outcome.bind_eq_ok, Outcome.orRaise_eq_ok, Term.magnitude_eq_some_iff]
  constructor
  · rintro ⟨m, ⟨hreadable, hm⟩, h⟩
    rw [hvalue m hm] at h
    refine ⟨hreadable, ?_⟩
    split at h
    · next hname =>
      simp only [Outcome.bind_eq_ok, Outcome.orRaise_eq_ok, Word.add?_eq_some,
        Outcome.pure_eq_ok] at h
      obtain ⟨k, ⟨hfits, rfl⟩, rfl⟩ := h
      exact .inl ⟨by simpa using hname, hfits, rfl⟩
    · next hname =>
      simp only [Outcome.bind_eq_ok, Outcome.orRaise_eq_ok, Word.add?_eq_some,
        Outcome.pure_eq_ok] at h
      obtain ⟨i, hi, k, ⟨hfits, rfl⟩, rfl⟩ := h
      exact .inr ⟨by simpa using hname, i, hi, hfits, rfl⟩
  · rintro ⟨hreadable, h⟩
    refine ⟨_, ⟨hreadable, rfl⟩, ?_⟩
    rw [hvalue _ rfl]
    rcases h with ⟨hname, hfits, rfl⟩ | ⟨hname, i, hi, hfits, rfl⟩
    · rw [if_pos (by simpa using hname)]
      simp only [Outcome.bind_eq_ok, Outcome.orRaise_eq_ok, Word.add?_eq_some, Outcome.pure_eq_ok]
      exact ⟨_, ⟨hfits, rfl⟩, rfl⟩
    · rw [if_neg (by simpa using hname)]
      simp only [Outcome.bind_eq_ok, Outcome.orRaise_eq_ok, Word.add?_eq_some, Outcome.pure_eq_ok]
      exact ⟨i, hi, _, ⟨hfits, rfl⟩, rfl⟩

/-- Without trailing zeros, a form is determined by its constant and its coefficients. -/
theorem trimmed_congr {a b : Affine} (hconstant : a.constant = b.constant)
    (hcoeff : ∀ i, a.coeff i = b.coeff i) : a.trimmed = b.trimmed := by
  have hcoeffs : Coeffs.trim a.coeffs = Coeffs.trim b.coeffs := Coeffs.trim_congr hcoeff
  rw [trimmed, trimmed, hcoeffs, hconstant]

namespace IsTotal

variable {text : String} {names : List String} {ts : List Term} {t : Term} {a b : Affine}

/-- The sums determine the form. -/
theorem unique (ha : IsTotal names ts a) (hb : IsTotal names ts b) : a = b := by
  rw [← ha.trimmed, ← hb.trimmed]
  exact trimmed_congr (ha.constant.trans hb.constant.symm) fun i =>
    (ha.coeff i).trans (hb.coeff i).symm

theorem nil (names : List String) : IsTotal names [] (const 0) := ⟨rfl, fun _ => rfl, rfl⟩

/-- Adding a term adds it to the sums. -/
theorem addTerm (ha : IsTotal names ts a) (h : Affine.addTerm text names a t = .ok b) :
    IsTotal names (ts ++ [t]) b := by
  obtain ⟨-, ⟨hname, -, rfl⟩ | ⟨hname, i, hi, -, rfl⟩⟩ := addTerm_eq_ok_iff.mp h
  · refine ⟨?_, fun j => ?_, ?_⟩
    · simp [constantSum_append, hname, ha.constant]
    · have := ha.coeff j
      simpa [coeffSum_append, hname]
    · have := congrArg Affine.coeffs ha.trimmed
      simpa [Affine.trimmed] using this
  · refine ⟨?_, fun j => ?_, trimmed_setCoeff ha.trimmed _ _⟩
    · simp [constantSum_append, hname, ha.constant]
    · rw [coeff_setCoeff, coeffSum_append, ha.coeff, ha.coeff]
      by_cases hj : j = i
      · simp [hj, hname, hi]
      · have : i ≠ j := Ne.symm hj
        simp [hj, hi, this]

end IsTotal

section Run

variable {text : String} {names : List String} {ts : List Term} {t : Term} {a b : Affine}

/-- A text without terms is accepted. -/
theorem accepts_nil (names : List String) : Accepts names [] :=
  ⟨by simp, by simp, fun us hus => by rw [List.prefix_nil.mp hus]; rfl, fun us hus i => by
    rw [List.prefix_nil.mp hus]; rfl⟩

/-- One more term is accepted if it can be read and the new sums are words. -/
theorem accepts_append : Accepts names (ts ++ [t]) ↔
    Accepts names ts ∧ t.Readable ∧ (t.name ≠ [] → String.ofList t.name ∈ names) ∧
      Word.fits (constantSum (ts ++ [t])) = true ∧ ∀ i,
        Word.fits (coeffSum names i (ts ++ [t])) = true := by
  constructor
  · intro h
    have hshorter : ∀ us, us <+: ts → us <+: ts ++ [t] :=
      fun us hus => hus.trans (List.prefix_append ..)
    exact ⟨⟨fun u hu => h.readable u (by simp [hu]), fun u hu => h.known u (by simp [hu]),
      fun us hus => h.constant us (hshorter us hus), fun us hus => h.coeff us (hshorter us hus)⟩,
      h.readable t (by simp), h.known t (by simp), h.constant _ (List.prefix_refl _),
      h.coeff _ (List.prefix_refl _)⟩
  · rintro ⟨h, hreadable, hknown, hconstant, hcoeff⟩
    refine ⟨fun u hu => ?_, fun u hu => ?_, fun us hus => ?_, fun us hus => ?_⟩
    · rcases List.mem_append.mp hu with hu | hu
      · exact h.readable u hu
      · exact List.mem_singleton.mp hu ▸ hreadable
    · rcases List.mem_append.mp hu with hu | hu
      · exact h.known u hu
      · exact List.mem_singleton.mp hu ▸ hknown
    · rcases List.prefix_concat_iff.mp hus with rfl | hus
      · exact hconstant
      · exact h.constant us hus
    · rcases List.prefix_concat_iff.mp hus with rfl | hus
      · exact hcoeff
      · exact h.coeff us hus

/-- A term is added exactly if the terms with it are accepted. -/
theorem exists_addTerm_iff (hts : Accepts names ts) (ha : IsTotal names ts a) :
    (∃ b, addTerm text names a t = .ok b) ↔ Accepts names (ts ++ [t]) := by
  have hconstant : Word.fits a.constant = true := ha.constant ▸ hts.constant ts (List.prefix_refl _)
  have hcoeff : ∀ i, Word.fits (a.coeff i) = true :=
    fun i => ha.coeff i ▸ hts.coeff ts (List.prefix_refl _) i
  simp only [accepts_append, hts, true_and, addTerm_eq_ok_iff, constantSum_append, coeffSum_append,
    ← ha.constant, ← ha.coeff]
  by_cases hname : t.name = []
  · simp [hname, hcoeff]
  · constructor
    · rintro ⟨b, hreadable, ⟨hnil, -⟩ | ⟨-, i, hi, hfits, -⟩⟩
      · exact absurd hnil hname
      · refine ⟨hreadable,
          fun _ => List.isSome_idxOf?.mp (by simp [hi]), by
        simpa [hname] using hconstant, fun j => ?_⟩
        by_cases hj : i = j
        · simpa [hname, hi, ← hj] using hfits
        · simpa [hi, hj] using hcoeff j
    · rintro ⟨hreadable, hknown, -, hfits⟩
      obtain ⟨i, hi⟩ := Option.isSome_iff_exists.mp (List.isSome_idxOf?.mpr (hknown hname))
      exact ⟨_, hreadable, .inr ⟨hname, i, hi, by simpa [hname, hi] using hfits i, rfl⟩⟩

/-- The terms are added one after the other. -/
theorem foldlM_append_singleton :
    (ts ++ [t]).foldlM (addTerm text names) (const 0) = .ok b ↔
      ∃ a, ts.foldlM (addTerm text names) (const 0) = .ok a ∧ addTerm text names a t = .ok b := by
  simp only [List.foldlM_append, List.foldlM_cons, List.foldlM_nil, bind_pure, Outcome.bind_eq_ok]

/-- Terms that have been added up are accepted, and the result has their sums. -/
theorem accepts_of_foldlM (h : ts.foldlM (addTerm text names) (const 0) = .ok a) :
    Accepts names ts ∧ IsTotal names ts a := by
  induction ts using List.reverseRecOn generalizing a with
  | nil =>
      obtain rfl : const 0 = a := by simpa using h
      exact ⟨accepts_nil names, .nil names⟩
  | append_singleton ts t ih =>
      obtain ⟨b, hb, h⟩ := foldlM_append_singleton.mp h
      obtain ⟨hts, hb⟩ := ih hb
      exact ⟨(exists_addTerm_iff hts hb).mp ⟨a, h⟩, hb.addTerm h⟩

/-- Accepted terms can be added up. -/
theorem exists_foldlM (h : Accepts names ts) :
    ∃ a, ts.foldlM (addTerm text names) (const 0) = .ok a := by
  induction ts using List.reverseRecOn with
  | nil => exact ⟨const 0, rfl⟩
  | append_singleton ts t ih =>
      obtain ⟨a, ha⟩ := ih (accepts_append.mp h).1
      obtain ⟨hts, htotal⟩ := accepts_of_foldlM ha
      obtain ⟨b, hb⟩ := (exists_addTerm_iff hts htotal).mpr h
      exact ⟨b, foldlM_append_singleton.mpr ⟨a, ha, hb⟩⟩

/-- Adding up terms succeeds exactly if they are accepted, and gives their sums. -/
theorem foldlM_addTerm_eq_ok_iff :
    ts.foldlM (addTerm text names) (const 0) = .ok a ↔ Accepts names ts ∧ IsTotal names ts a := by
  constructor
  · exact accepts_of_foldlM
  · rintro ⟨hts, ha⟩
    obtain ⟨b, hb⟩ := exists_foldlM hts
    rwa [ha.unique (accepts_of_foldlM hb).2]

end Run

/-- Adding a term gives a form or reports a cause. -/
theorem addTerm_ne_fault {text : String} {names : List String} {a : Affine} {t : Term} :
    addTerm text names a t ≠ .fault := by
  by_cases hname : t.name = []
  · simp [addTerm, hname]
  · simp [addTerm, hname]

/-- Adding the terms of a text gives a form or reports a cause. -/
theorem addTerms_ne_fault {text : String} {names : List String} {n : Nat} {first : Bool}
    {cs : List Char} {a : Affine} : addTerms text names n first cs a ≠ .fault := by
  fun_induction addTerms text names n first cs a with
  | case1 | case2 | case4 => simp
  | case3 n first cs a _ t rest _ _ ih => simp [ih, addTerm_ne_fault]

/-- Reading a form gives one or reports a cause. -/
theorem parse_ne_fault {text : String} {names : List String} : parse text names ≠ .fault := by
  simp only [parse]
  split
  · simp
  · exact addTerms_ne_fault

/-- A text is read by adding up the terms of the sum that it is without its white space. -/
theorem parse_eq_ok_iff_foldlM {text : String} {names : List String} {a : Affine} :
    parse text names = .ok a ↔ Text.compact text.toList ≠ [] ∧
      ∃ ts, IsSum true (Text.compact text.toList) ts ∧
      ts.foldlM (addTerm text names) (const 0) = .ok a := by
  unfold parse
  by_cases h : Text.compact text.toList = []
  · simp [h]
  · simp [h, addTerms_eq_ok_iff]

/-- White space does not matter to what is read. -/
theorem parse_eq_ok_congr {text text' : String} {names : List String} {a : Affine}
    (h : Text.compact text.toList = Text.compact text'.toList) :
    parse text names = .ok a ↔ parse text' names = .ok a := by
  unfold parse
  by_cases hcs : Text.compact text'.toList = []
  · simp [h, hcs]
  · simp [h, hcs, addTerms_eq_ok_iff, foldlM_addTerm_eq_ok_iff]

/-- A text is read exactly if, without its white space, it is a sum by the grammar whose names are
known, whose numbers are ASCII decimals within the words and whose running sums stay within them.
The form that is read then has the sum of the bare numbers as its constant and, for every variable,
the sum of the factors of its name as its coefficient. -/
theorem parse_accepts_sums (text : String) (names : List String) (a : Affine) :
    parse text names = .ok a ↔ Text.compact text.toList ≠ [] ∧
      ∃ ts, IsSum true (Text.compact text.toList) ts ∧ Accepts names ts ∧ IsTotal names ts a := by
  unfold parse
  by_cases h : Text.compact text.toList = []
  · simp [h]
  · simp [h, addTerms_eq_ok_iff, foldlM_addTerm_eq_ok_iff]

example : parse "2*i - N + 3i + 007" ["N", "i"] = .ok ⟨[-1, 5], 7⟩ := by decide

end Affine

end KernelMap
