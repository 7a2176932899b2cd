import KernelMap.Json.Printer
import KernelMap.Json.Reader

/-!
# KernelMap.Proofs.JsonText

Indented text is read back as the value it was written for.

The layers are those of the reader.  An escaped character is one step of the string reader
(`stringFrom_escape`), and the digits of a number end where something else begins
(`number?_intChars`). On a value the reader takes at most one step for each character of its text,
so that the steps it is given suffice; this bound and what is left of the text go through lists and
objects together (`ReadsOff`).
-/

namespace KernelMap.Json

/-! ## strings -/

/-- A hexadecimal digit is read back. -/
theorem hexValue?_hexDigit {n : Nat} (h : n < 16) : hexValue? (hexDigit n) = some n := by
  revert n
  decide

/-- A control character is named by two digits. -/
theorem unicodeEscape?_control {k : Nat} (h : k < 0x20) (rest : List Char) :
    unicodeEscape? ('0' :: '0' :: hexDigit (k / 16) :: hexDigit (k % 16) :: rest) =
      some (some (Char.ofNat k), rest) := by
  have hzero : hexValue? '0' = some 0 := by decide
  have hvalue : ((0 * 16 + 0) * 16 + k / 16) * 16 + k % 16 = k := by omega
  have hhex : hex4? ('0' :: '0' :: hexDigit (k / 16) :: hexDigit (k % 16) :: rest) =
      some (k, rest) := by
    simp only [hex4?, hzero, hexValue?_hexDigit (show k / 16 < 16 by omega),
      hexValue?_hexDigit (show k % 16 < 16 by omega), Option.bind_eq_bind, Option.bind_some, hvalue]
  simp only [unicodeEscape?, hhex, Option.bind_eq_bind, Option.bind_some]
  rw [if_neg (by omega), if_neg (by omega)]

section Escapes

variable {n : Nat} {out : List Char} {c : Char} {rest : List Char}

/-- An escape of one letter is read as its character. -/
theorem stringFrom_simple {e : Char} (hu : (e == 'u') = false) (h : simpleEscape? e = some c) :
    stringFrom (n + 1) (some out) ('\\' :: e :: rest) = stringFrom n (some (c :: out)) rest := by
  simp [stringFrom, hu, h, extend]

/-- An escape by number is read as its character. -/
theorem stringFrom_unicode {cs : List Char} (h : unicodeEscape? cs = some (some c, rest)) :
    stringFrom (n + 1) (some out) ('\\' :: 'u' :: cs) = stringFrom n (some (c :: out)) rest := by
  simp [stringFrom, h, extend]

/-- A character is read back in one step. -/
theorem stringFrom_escape :
    stringFrom (n + 1) (some out) (escape c ++ rest) = stringFrom n (some (c :: out)) rest := by
  by_cases hquote : c = '"'
  · subst hquote
    exact stringFrom_simple rfl rfl
  by_cases hback : c = '\\'
  · subst hback
    exact stringFrom_simple rfl rfl
  simp only [escape, beq_iff_eq, if_neg hquote, if_neg hback]
  split
  · next hcontrol =>
    -- what names a control character is found from its number
    have hc : Char.ofNat c.toNat = c := Char.ofNat_toNat c
    split
    · next h => exact stringFrom_simple rfl (by rw [← hc, h]; rfl)
    split
    · next h => exact stringFrom_simple rfl (by rw [← hc, h]; rfl)
    split
    · next h => exact stringFrom_simple rfl (by rw [← hc, h]; rfl)
    split
    · next h => exact stringFrom_simple rfl (by rw [← hc, h]; rfl)
    split
    · next h => exact stringFrom_simple rfl (by rw [← hc, h]; rfl)
    · exact stringFrom_unicode ((unicodeEscape?_control hcontrol rest).trans (by rw [hc]))
  · next hcontrol => simp [stringFrom, hquote, hback, hcontrol, extend]

end Escapes

/-- An escaped string is read back up to its closing quote. -/
theorem stringFrom_escapeOnto {n : Nat} {s : List Char} (h : s.length < n) (out rest : List Char) :
    stringFrom n (some out) (escapeOnto s ('"' :: rest)) =
      some (some (String.ofList (out.reverse ++ s)), rest) := by
  induction s generalizing n out with
  | nil =>
      obtain ⟨m, rfl⟩ : ∃ m, n = m + 1 := ⟨n - 1, by simp at h; omega⟩
      simp [escapeOnto, stringFrom]
  | cons c s ih =>
      obtain ⟨m, rfl⟩ : ∃ m, n = m + 1 := ⟨n - 1, by omega⟩
      rw [escapeOnto, stringFrom_escape, ih (by simpa using h), List.reverse_cons,
        List.append_assoc, List.singleton_append]

theorem length_escape_pos (c : Char) : 0 < (escape c).length := by
  unfold escape
  repeat' split
  all_goals simp

/-- Escaping does not make a string shorter. -/
theorem length_escapeOnto (s rest : List Char) :
    s.length + rest.length ≤ (escapeOnto s rest).length := by
  induction s with
  | nil => simp [escapeOnto]
  | cons c s ih =>
      have := length_escape_pos c
      simp only [escapeOnto, List.length_append, List.length_cons]
      omega

/-- A string is read back. -/
theorem quoted?_escapeOnto (s : String) (rest : List Char) :
    quoted? (escapeOnto s.toList ('"' :: rest)) = some (some s, rest) := by
  have hlen := length_escapeOnto s.toList ('"' :: rest)
  rw [List.length_cons] at hlen
  rw [quoted?, stringFrom_escapeOnto (by omega), List.reverse_nil, List.nil_append,
    String.ofList_toList]

/-! ## numbers -/

/-- A number that is followed by this text ends before it. -/
def EndsNumber (rest : List Char) : Prop :=
  ∀ c ∈ rest.head?, c.isDigit = false ∧ c ≠ '.' ∧ c ≠ 'e' ∧ c ≠ 'E'

/-- Digits are read as the decimal number that they write. -/
theorem decimalFrom_eq (n : Nat) (cs : List Char) :
    decimalFrom n cs = Nat.ofDigitChars 10 cs n := by
  induction cs generalizing n with
  | nil => rfl
  | cons c cs ih => exact ih _

/-- Only zero starts with the digit zero. -/
theorem head?_toDigits {n : Nat} (h : n ≠ 0) : (Nat.toDigits 10 n).head? ≠ some '0' := by
  induction n using Nat.strongRecOn with
  | _ n ih =>
      by_cases hn : n < 10
      · have hdigit : ∀ k < 10, k ≠ 0 → [k.digitChar].head? ≠ some '0' := by decide
        rw [Nat.toDigits_of_lt_base hn]
        exact hdigit n hn h
      · have hleading := ih (n / 10) (by omega) (by omega)
        obtain ⟨d, ds, hds⟩ := List.exists_cons_of_ne_nil (@Nat.toDigits_ne_nil (n / 10) 10)
        rw [hds] at hleading
        rw [Nat.toDigits_of_base_le (by decide) (by omega), hds]
        simpa using hleading

namespace EndsNumber

variable {rest : List Char}

theorem comma (cs : List Char) : EndsNumber (',' :: cs) := by simp [EndsNumber]

/-- A number ends at a line break. -/
theorem breakOnto (depth : Nat) (cs : List Char) : EndsNumber (breakOnto depth cs) := by
  simp [EndsNumber, Json.breakOnto]

/-- Digits are taken as a whole where a number ends. -/
theorem takeWhile_isDigit (h : EndsNumber rest) (ds : List Char)
    (hds : ∀ d ∈ ds, d.isDigit = true) :
    (ds ++ rest).takeWhile Char.isDigit = ds ∧ (ds ++ rest).dropWhile Char.isDigit = rest := by
  rw [List.takeWhile_append_of_pos hds, List.dropWhile_append_of_pos hds]
  cases rest with
  | nil => simp
  | cons c rest => simp [(h c rfl).1]

/-- There is no fraction where a number ends. -/
theorem skipFraction? (h : EndsNumber rest) : skipFraction? rest = none := by
  unfold Json.skipFraction?
  split
  · exact absurd rfl (h _ rfl).2.1
  · rfl

/-- There is no exponent where a number ends. -/
theorem skipExponent? (h : EndsNumber rest) : skipExponent? rest = none := by
  cases rest with
  | nil => rfl
  | cons c rest => simp [Json.skipExponent?, (h c rfl).2.2]

end EndsNumber

/-- The decimal digits of a number are read back with its sign. -/
theorem magnitude?_toDigits (negative : Bool) {m : Nat} (hm : negative = true → m ≠ 0)
    {rest : List Char} (h : EndsNumber rest) :
    magnitude? negative (Nat.toDigits 10 m ++ rest) =
      some (.int (if negative then -m else m), rest) := by
  have hdigits : ∀ d ∈ Nat.toDigits 10 m, d.isDigit = true := fun d hd =>
    Nat.isDigit_of_mem_toDigits (by decide) (by decide) hd
  by_cases hzero : m = 0
  · have hpositive : negative = false := Bool.eq_false_iff.mpr fun hneg => hm hneg hzero
    have hdigit : Char.isDigit '0' = true := by decide
    have hvalue : decimalFrom 0 ['0'] = 0 := by decide
    rw [hpositive, hzero, Nat.toDigits_zero, List.singleton_append, magnitude?]
    simp only [hdigit, hvalue, h.skipFraction?, h.skipExponent?, Bool.not_true, beq_self_eq_true,
      Bool.false_eq_true, if_false, if_true]
  · have hvalue : decimalFrom 0 (Nat.toDigits 10 m) = m := by
      rw [decimalFrom_eq, Nat.ofDigitChars_ten_toDigits]
    have hhead := head?_toDigits hzero
    obtain ⟨d, ds, hds⟩ := List.exists_cons_of_ne_nil (@Nat.toDigits_ne_nil m 10)
    rw [hds] at hdigits hvalue hhead ⊢
    have hd : (d == '0') = false := by simpa using hhead
    obtain ⟨htake, hdrop⟩ := h.takeWhile_isDigit ds fun c hc =>
      hdigits c (List.mem_cons_of_mem _ hc)
    rw [List.cons_append, magnitude?]
    simp only [hdigits d List.mem_cons_self, hd, htake, hdrop, hvalue, h.skipFraction?,
      h.skipExponent?, hzero, Bool.not_true, Bool.false_eq_true, if_false]
    cases negative <;> rfl

theorem ne_of_isDigit {c d : Char} (hc : c.isDigit = true) (hd : d.isDigit = false) : c ≠ d := by
  rintro rfl
  rw [hc] at hd
  cases hd

/-- A number is read back. -/
theorem number?_intChars (k : Int) {rest : List Char} (h : EndsNumber rest) :
    number? (intChars k ++ rest) = some (.int k, rest) := by
  unfold intChars
  split
  · next hk =>
    have hmagnitude := magnitude?_toDigits true (m := k.natAbs) (fun _ => by omega) h
    rw [if_pos rfl] at hmagnitude
    rw [List.cons_append, number?, hmagnitude, show -(k.natAbs : Int) = k by omega]
  · next hk =>
    have hmagnitude := magnitude?_toDigits false (m := k.natAbs) (fun h => by cases h) h
    rw [if_neg (by decide), show (k.natAbs : Int) = k by omega] at hmagnitude
    obtain ⟨d, ds, hds⟩ := List.exists_cons_of_ne_nil (@Nat.toDigits_ne_nil k.natAbs 10)
    have hd : d.isDigit = true :=
      Nat.isDigit_of_mem_toDigits (by decide) (by decide)
        (hds ▸ List.mem_cons_self : d ∈ Nat.toDigits 10 k.natAbs)
    rw [hds] at hmagnitude ⊢
    unfold number?
    split
    · next hminus => exact absurd (List.cons.inj hminus).1 (ne_of_isDigit hd (by decide))
    · exact hmagnitude

/-- The first character of a number is found nowhere else. -/
theorem exists_intChars_eq_cons (k : Int) :
    ∃ c cs, intChars k = c :: cs ∧ ∀ d : Char, d.isDigit = false → d ≠ '-' → (c == d) = false := by
  unfold intChars
  split
  · exact ⟨'-', _, rfl, fun d _ hd => beq_false_of_ne hd.symm⟩
  · obtain ⟨c, cs, hcs⟩ := List.exists_cons_of_ne_nil (@Nat.toDigits_ne_nil k.natAbs 10)
    have hc : c.isDigit = true :=
      Nat.isDigit_of_mem_toDigits (by decide) (by decide)
        (hcs ▸ List.mem_cons_self : c ∈ Nat.toDigits 10 k.natAbs)
    exact ⟨c, cs, hcs, fun d hd _ => beq_false_of_ne (ne_of_isDigit hc hd)⟩

/-! ## white space -/

/-- A line break and the blanks after it are skipped. -/
theorem skipSpace_breakOnto (depth : Nat) (cs : List Char) :
    skipSpace (breakOnto depth cs) = skipSpace cs := by
  have hblanks : ∀ c ∈ '\n' :: List.replicate (2 * depth) ' ', isSpace c = true := by
    simp [isSpace]
  rw [breakOnto, ← List.cons_append]
  exact List.dropWhile_append_of_pos hblanks

theorem skipSpace_cons {c : Char} (hc : isSpace c = false) (cs : List Char) :
    skipSpace (c :: cs) = c :: cs := by
  rw [skipSpace, List.dropWhile_cons, hc, if_neg (by decide)]

theorem length_breakOnto (depth : Nat) (cs : List Char) :
    cs.length < (breakOnto depth cs).length := by
  simp only [breakOnto, List.length_cons, List.length_append]
  omega

/-- White space in front of a value does not matter. -/
theorem value?_congr {cs ds : List Char} (h : skipSpace cs = skipSpace ds) (n : Nat) :
    value? n cs = value? n ds := by
  cases n with
  | zero => rfl
  | succ n => rw [value?, value?, h]

/-! ## members -/

/-- The opening quote of a key is found on the next line. -/
theorem expect?_quote (depth : Nat) (key : String) (cs : List Char) :
    expect? ['"'] (skipSpace (breakOnto depth (quoteOnto key cs))) =
      some (escapeOnto key.toList ('"' :: cs)) := by
  rw [skipSpace_breakOnto, quoteOnto, skipSpace_cons (by decide)]
  simp [expect?]

theorem expect?_colon (cs : List Char) : expect? [':'] (skipSpace (':' :: cs)) = some cs := by
  rw [skipSpace_cons (by decide)]
  simp [expect?]

theorem value?_blank (n : Nat) (cs : List Char) : value? n (' ' :: cs) = value? n cs :=
  value?_congr (List.dropWhile_cons_of_pos (by decide)) n

/-- The key of a member takes some text. -/
theorem length_member (depth : Nat) (key : String) (cs : List Char) :
    cs.length < (breakOnto depth (quoteOnto key (':' :: ' ' :: cs))).length := by
  have hbreak := length_breakOnto depth (quoteOnto key (':' :: ' ' :: cs))
  have hkey := length_escapeOnto key.toList ('"' :: ':' :: ' ' :: cs)
  simp only [quoteOnto, List.length_cons] at hbreak hkey ⊢
  omega

/-! ## values -/

/-- The reader takes `b` off the text and leaves `rest`, if it may take a step for each
character. -/
def ReadsOff {β : Type} (read : Nat → List Char → Option (β × List Char)) (b : β)
    (cs rest : List Char) : Prop :=
  rest.length < cs.length ∧ ∀ n, cs.length ≤ n + rest.length → read n cs = some (b, rest)

namespace ReadsOff

variable {j : Json} {cs ds rest : List Char}

/-- A reader that takes a step for the text may be given one step to begin with. -/
theorem of_succ {β : Type} {read : Nat → List Char → Option (β × List Char)} {b : β}
    (hlen : rest.length < cs.length)
    (h : ∀ n, cs.length ≤ n + 1 + rest.length → read (n + 1) cs = some (b, rest)) :
    ReadsOff read b cs rest := by
  refine ⟨hlen, fun n hn => ?_⟩
  obtain ⟨m, rfl⟩ : ∃ m, n = m + 1 := ⟨n - 1, by omega⟩
  exact h m hn

/-- A value may be written on the next line. -/
theorem value_break (h : ReadsOff value? j cs rest) (depth : Nat) :
    ReadsOff value? j (breakOnto depth cs) rest := by
  have hlen := length_breakOnto depth cs
  refine ⟨Nat.lt_trans h.1 hlen, fun n hn => ?_⟩
  rw [value?_congr (skipSpace_breakOnto depth cs)]
  exact h.2 n (by omega)

/-- The last element is followed by the closing bracket. -/
theorem elems_last {depth : Nat} (h : ReadsOff value? j cs (breakOnto depth (']' :: rest))) :
    ReadsOff elems? [j] cs rest := by
  have hbracket : skipSpace (breakOnto depth (']' :: rest)) = ']' :: rest := by
    rw [skipSpace_breakOnto, skipSpace_cons (by decide)]
  obtain ⟨hlen, hread⟩ := h
  have hbreak := length_breakOnto depth (']' :: rest)
  rw [List.length_cons] at hbreak
  refine of_succ (by omega) fun n hn => ?_
  simp only [elems?, hread n (by omega), hbracket, Option.bind_eq_bind, Option.bind_some]

/-- An element is read off, and after a comma the others. -/
theorem elems_cons {js : List Json} (h : ReadsOff value? j cs (',' :: ds))
    (hs : ReadsOff elems? js ds rest) : ReadsOff elems? (j :: js) cs rest := by
  have hcomma : skipSpace (',' :: ds) = ',' :: ds := skipSpace_cons (by decide) ds
  obtain ⟨hlen, hread⟩ := h
  obtain ⟨hlens, hreads⟩ := hs
  rw [List.length_cons] at hlen hread
  refine of_succ (by omega) fun n hn => ?_
  simp only [elems?, hread n (by omega), hcomma, hreads n (by omega), Option.bind_eq_bind,
    Option.bind_some]

/-- The last member is followed by the closing brace. -/
theorem members_last {v : Json} {key : String} {depth inner : Nat}
    (h : ReadsOff value? v cs (breakOnto depth ('\x7d' :: rest))) :
    ReadsOff members? (some [(key, v)])
      (breakOnto inner (quoteOnto key (':' :: ' ' :: cs))) rest := by
  have hbrace : skipSpace (breakOnto depth ('\x7d' :: rest)) = '\x7d' :: rest := by
    rw [skipSpace_breakOnto, skipSpace_cons (by decide)]
  obtain ⟨hlen, hread⟩ := h
  have hbreak := length_breakOnto depth ('\x7d' :: rest)
  rw [List.length_cons] at hbreak
  have hmember := length_member inner key cs
  refine of_succ (by omega) fun n hn => ?_
  simp only [members?, expect?_quote, quoted?_escapeOnto, expect?_colon, value?_blank,
    hread n (by omega), hbrace, addMember, Option.bind_eq_bind, Option.bind_some, Option.pure_def]

/-- A member is read off, and after a comma the others. -/
theorem members_cons {v : Json} {key : String} {ms : List (String × Json)} {inner : Nat}
    (h : ReadsOff value? v cs (',' :: ds)) (hs : ReadsOff members? (some ms) ds rest) :
    ReadsOff members? (some ((key, v) :: ms))
      (breakOnto inner (quoteOnto key (':' :: ' ' :: cs))) rest := by
  have hcomma : skipSpace (',' :: ds) = ',' :: ds := skipSpace_cons (by decide) ds
  obtain ⟨hlen, hread⟩ := h
  obtain ⟨hlens, hreads⟩ := hs
  rw [List.length_cons] at hlen hread
  have hmember := length_member inner key cs
  refine of_succ (by omega) fun n hn => ?_
  simp only [members?, expect?_quote, quoted?_escapeOnto, expect?_colon, value?_blank,
    hread n (by omega), hcomma, hreads n (by omega), addMember, Option.bind_eq_bind,
    Option.bind_some, Option.pure_def]

/-- A text with elements does not start with the closing bracket. -/
theorem elems_head {js : List Json} (h : ReadsOff elems? js cs rest) (ds : List Char) :
    skipSpace cs ≠ ']' :: ds := by
  intro hbracket
  have hvalue : ∀ n, value? n cs = none := by
    rintro (_ | n)
    · rfl
    · rw [value?, hbracket]
      rfl
  have helems := h.2 (cs.length + 1) (by omega)
  rw [elems?, hvalue] at helems
  cases helems

/-- An array is read off if its elements are. -/
theorem value_arr {js : List Json} (h : ReadsOff elems? js cs rest) :
    ReadsOff value? (.arr js) ('[' :: cs) rest := by
  refine of_succ (Nat.lt_succ_of_lt h.1) fun n hn => ?_
  rw [List.length_cons] at hn
  rw [value?, skipSpace_cons (by decide)]
  simp only [Char.reduceBEq, Bool.false_eq_true, if_false, if_true]
  split
  · next hbracket => exact absurd hbracket (h.elems_head _)
  · rw [h.2 n (by omega), Option.map_some]

/-- A text with members does not start with the closing brace. -/
theorem members_head {ms : Option (List (String × Json))} (h : ReadsOff members? ms cs rest)
    (ds : List Char) : skipSpace cs ≠ '\x7d' :: ds := by
  intro hbrace
  have hmembers := h.2 (cs.length + 1) (by omega)
  rw [members?, hbrace] at hmembers
  cases hmembers

/-- An object is read off if its members are. -/
theorem value_obj {ms : List (String × Json)} (h : ReadsOff members? (some ms) cs rest) :
    ReadsOff value? (.obj ms) ('\x7b' :: cs) rest := by
  refine of_succ (Nat.lt_succ_of_lt h.1) fun n hn => ?_
  rw [List.length_cons] at hn
  rw [value?, skipSpace_cons (by decide)]
  simp only [Char.reduceBEq, Bool.false_eq_true, if_false, if_true]
  split
  · next hbrace => exact absurd hbrace (h.members_head _)
  · rw [h.2 n (by omega), Option.map_some, Option.elim_some]

/-- A string is read off. -/
theorem value_str (s : String) (rest : List Char) :
    ReadsOff value? (.str s) (quoteOnto s rest) rest := by
  have hlen := length_escapeOnto s.toList ('"' :: rest)
  rw [List.length_cons] at hlen
  refine of_succ (by rw [quoteOnto, List.length_cons]; omega) fun n _ => ?_
  rw [quoteOnto, value?, skipSpace_cons (by decide)]
  simp only [beq_self_eq_true, if_true, quoted?_escapeOnto, Option.map_some, Option.elim_some]

/-- A number is read off where it ends. -/
theorem value_int (k : Int) (h : EndsNumber rest) :
    ReadsOff value? (.int k) (intChars k ++ rest) rest := by
  have hnumber := number?_intChars k h
  obtain ⟨c, ds, hk, hc⟩ := exists_intChars_eq_cons k
  have hspace : isSpace c = false := by
    simp only [isSpace, hc ' ' rfl (by decide), hc '\t' rfl (by decide), hc '\n' rfl (by decide),
      hc '\r' rfl (by decide), Bool.or_self]
  rw [hk, List.cons_append] at hnumber ⊢
  refine of_succ (by simp only [List.length_cons, List.length_append]; omega) fun n _ => ?_
  rw [value?, skipSpace_cons hspace]
  simp only [hc '"' rfl (by decide), hc '[' rfl (by decide), hc '\x7b' rfl (by decide),
    hc 'n' rfl (by decide), hc 't' rfl (by decide), hc 'f' rfl (by decide), Bool.false_eq_true,
    if_false, hnumber]

theorem value_real (h : EndsNumber rest) :
    ReadsOff value? .real ('0' :: '.' :: '0' :: rest) rest := by
  have hdigit : Char.isDigit '0' = true := by decide
  have hfraction : skipFraction? ('.' :: '0' :: rest) = some rest := by
    have hrest : rest.dropWhile Char.isDigit = rest := (h.takeWhile_isDigit [] (by simp)).2
    rw [skipFraction?, if_pos hdigit, hrest]
  have hnumber : magnitude? false ('0' :: '.' :: '0' :: rest) = some (.real, rest) := by
    simp only [magnitude?, hdigit, Bool.not_true, Bool.false_eq_true, if_false, beq_self_eq_true,
      if_true, hfraction, h.skipExponent?]
  exact of_succ (by simp only [List.length_cons]; omega) fun n _ => hnumber

end ReadsOff

/-! ## texts -/

/-- Every string of the value spells a text. -/
inductive Legible : Json → Prop
  | null : Legible .null
  | bool (b : Bool) : Legible (.bool b)
  | int (n : Int) : Legible (.int n)
  | real : Legible .real
  | str (s : String) : Legible (.str s)
  | arr {xs : List Json} (h : ∀ x ∈ xs, Legible x) : Legible (.arr xs)
  | obj {ms : List (String × Json)} (h : ∀ m ∈ ms, Legible m.2) : Legible (.obj ms)

/-- The text of the value is read back, whatever follows it. -/
def ReadBack (j : Json) : Prop :=
  ∀ depth rest, EndsNumber rest → ReadsOff value? j (prettyOnto depth j rest) rest

/-- The elements of an array are read back if each of them is. -/
theorem readsOff_prettyElemsOnto {x : Json} {xs : List Json} (h : ∀ y ∈ x :: xs, ReadBack y)
    (depth outer : Nat) (rest : List Char) :
    ReadsOff elems? (x :: xs) (prettyElemsOnto depth (x :: xs) (breakOnto outer (']' :: rest)))
      rest := by
  induction xs generalizing x with
  | nil =>
      exact ((h x List.mem_cons_self depth _ (.breakOnto outer _)).value_break depth).elems_last
  | cons y ys ih =>
      have hys := ih fun z hz => h z (List.mem_cons_of_mem _ hz)
      exact ((h x List.mem_cons_self depth _ (.comma _)).value_break depth).elems_cons hys

/-- The members of an object are read back if each value is. -/
theorem readsOff_prettyMembersOnto {m : String × Json} {ms : List (String × Json)}
    (h : ∀ m' ∈ m :: ms, ReadBack m'.2) (depth outer : Nat) (rest : List Char) :
    ReadsOff members? (some (m :: ms))
      (prettyMembersOnto depth (m :: ms) (breakOnto outer ('\x7d' :: rest))) rest := by
  induction ms generalizing m with
  | nil =>
      exact (h m List.mem_cons_self depth _ (.breakOnto outer _)).members_last
  | cons m' ms ih =>
      have hms := ih fun z hz => h z (List.mem_cons_of_mem _ hz)
      exact (h m List.mem_cons_self depth _ (.comma _)).members_cons hms

/-- Every legible value is read back, by induction on its structure. -/
theorem Legible.readBack {j : Json} (h : j.Legible) : ReadBack j := by
  induction h with
  | null =>
      exact fun _ _ _ => .of_succ
        (by simp only [prettyOnto, compactOnto, List.length_cons]; omega) fun n _ => rfl
  | bool b =>
      cases b with
      | false =>
          exact fun _ _ _ => .of_succ
            (by simp only [prettyOnto, compactOnto, List.length_cons]; omega) fun n _ => rfl
      | true =>
          exact fun _ _ _ => .of_succ
            (by simp only [prettyOnto, compactOnto, List.length_cons]; omega) fun n _ => rfl
  | int n => exact fun _ _ hrest => .value_int n hrest
  | real => exact fun _ _ hrest => .value_real hrest
  | str s => exact fun _ rest _ => .value_str s rest
  | @arr xs hxs ih =>
      intro depth rest hrest
      cases xs with
      | nil => exact .of_succ (by simp only [prettyOnto, List.length_cons]; omega) fun n _ => rfl
      | cons x xs => exact (readsOff_prettyElemsOnto ih (depth + 1) depth rest).value_arr
  | @obj ms hms ih =>
      intro depth rest hrest
      cases ms with
      | nil => exact .of_succ (by simp only [prettyOnto, List.length_cons]; omega) fun n _ => rfl
      | cons m ms => exact (readsOff_prettyMembersOnto ih (depth + 1) depth rest).value_obj

/-- The indented text of a legible value is read back as that value. -/
theorem read?_pretty {j : Json} (h : j.Legible) : read? j.pretty = some j := by
  obtain ⟨hlen, hread⟩ := h.readBack 0 [] (by simp [EndsNumber])
  rw [read?, pretty, String.toList_ofList, hread _ (by omega)]
  rfl

end KernelMap.Json
