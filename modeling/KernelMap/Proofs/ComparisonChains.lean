import KernelMap.Constraint.Parser
import KernelMap.Proofs.AffineGrammar
import KernelMap.Proofs.Constraint

/-!
# KernelMap.Proofs.ComparisonChains

What a conjunction of comparison chains means.

A text is cut at its clause separators and a clause at its comparison operators.  `Text.Cut` says
what that means, for any kind of token: from left to right, wherever a token starts, at the longest
one.  A text is cut in one way only (`Text.Cut.unique`), and the reader finds it as it splits off
the longest token in front of it (`cut_clausesFrom`, `cut_chainFrom`).  Separators hold no character
of an operator, so that cutting the whole text at the operators finds the operators of the clauses
(`operators_ofText`).

Each comparison of a chain is read as one constraint with the same meaning
(`holds_of_ofComparison`), if its operands are affine forms and the difference fits into words
(`exists_ofComparison_iff`).  Reading a text is reading the comparisons of its chains, in order
(`parse_eq_ok_iff`, `exists_parse_iff`), and `parse_comparison_chains` puts the parts together.
-/

namespace KernelMap

/-! ## cutting a text -/

namespace Text

section Cut

variable {α : Type} (Token : List Char → α → Prop)

/-- A token stands at the front of the text. -/
def Starts (cs : List Char) : Prop := ∃ token x rest, Token token x ∧ cs = token ++ rest

/-- Of the tokens at the front of `token ++ rest`, `token` is the longest; it stands for `x`. -/
structure Longest (token : List Char) (x : α) (rest : List Char) : Prop where
  isToken : Token token x
  length_le : ∀ {other y tail}, Token other y → other ++ tail = token ++ rest →
    other.length ≤ token.length

/-- The text cut from left to right wherever a token starts, at the longest one: the first piece,
and each token with the piece after it. -/
inductive Cut : List Char → List Char → List (α × List Char) → Prop
  | nil : Cut [] [] []
  | skip {c : Char} {cs first : List Char} {links : List (α × List Char)}
      (hc : ¬ Starts Token (c :: cs)) (h : Cut cs first links) : Cut (c :: cs) (c :: first) links
  | token {token rest first : List Char} {x : α} {links : List (α × List Char)}
      (htoken : Longest Token token x rest) (h : Cut rest first links) :
      Cut (token ++ rest) [] ((x, first) :: links)

/-- Tokens are not empty and stand for one thing each. -/
structure IsLexicon : Prop where
  ne_nil : ∀ {token x}, Token token x → token ≠ []
  unique : ∀ {token x y}, Token token x → Token token y → x = y

/-- The function splits off the longest token at the front of a text. -/
structure SplitsOff (find : List Char → Option (α × List Char)) : Prop where
  of_some : ∀ {cs x rest}, find cs = some (x, rest) → ∃ token, cs = token ++ rest ∧
    Longest Token token x rest
  of_none : ∀ {cs}, find cs = none → ¬ Starts Token cs

variable {Token}

theorem Longest.starts {token rest : List Char} {x : α} (h : Longest Token token x rest) :
    Starts Token (token ++ rest) :=
  ⟨token, x, rest, h.isToken, rfl⟩

/-- A text has one longest token at its front. -/
theorem Longest.unique (hlex : IsLexicon Token) {token token' rest rest' : List Char} {x x' : α}
    (h : Longest Token token x rest) (h' : Longest Token token' x' rest')
    (heq : token ++ rest = token' ++ rest') : token = token' ∧ x = x' ∧ rest = rest' := by
  have hlen : token.length = token'.length :=
    le_antisymm (h'.length_le h.isToken heq) (h.length_le h'.isToken heq.symm)
  obtain ⟨rfl, rfl⟩ := List.append_inj heq hlen
  exact ⟨rfl, hlex.unique h.isToken h'.isToken, rfl⟩

/-- A text is cut in one way only. -/
theorem Cut.unique (hlex : IsLexicon Token) {cs first first' : List Char}
    {links links' : List (α × List Char)} (h : Cut Token cs first links)
    (h' : Cut Token cs first' links') : first = first' ∧ links = links' := by
  induction h generalizing first' links' with
  | nil =>
      generalize hcs : ([] : List Char) = cs at h'
      cases h' with
      | nil => exact ⟨rfl, rfl⟩
      | skip => simp at hcs
      | token htoken =>
          exact absurd (List.append_eq_nil_iff.mp hcs.symm).1 (hlex.ne_nil htoken.isToken)
  | @skip c cs first links hc h ih =>
      generalize hcs : c :: cs = cs' at h'
      cases h' with
      | nil => simp at hcs
      | skip _ h' =>
          obtain ⟨rfl, rfl⟩ := List.cons.inj hcs
          obtain ⟨rfl, rfl⟩ := ih h'
          exact ⟨rfl, rfl⟩
      | token htoken => exact absurd (hcs ▸ htoken.starts) hc
  | @token token rest first x links htoken h ih =>
      generalize hcs : token ++ rest = cs' at h'
      cases h' with
      | nil => exact absurd (List.append_eq_nil_iff.mp hcs).1 (hlex.ne_nil htoken.isToken)
      | skip hc => exact absurd (hcs ▸ htoken.starts) hc
      | token htoken' h' =>
          obtain ⟨rfl, rfl, rfl⟩ := htoken.unique hlex htoken' hcs
          obtain ⟨rfl, rfl⟩ := ih h'
          exact ⟨rfl, rfl⟩

/-- The first piece reaches up to the first token, or to the end. -/
theorem Cut.cases_links {cs first : List Char} {links : List (α × List Char)}
    (h : Cut Token cs first links) :
    (links = [] ∧ cs = first) ∨ ∃ token x rest next links', links = (x, next) :: links' ∧
      cs = first ++ (token ++ rest) ∧ Token token x ∧ Cut Token rest next links' := by
  induction h with
  | nil => exact .inl ⟨rfl, rfl⟩
  | skip _ _ ih =>
      rcases ih with ⟨rfl, rfl⟩ | ⟨token, x, rest, next, links', rfl, rfl, htoken, hrest⟩
      · exact .inl ⟨rfl, rfl⟩
      · exact .inr ⟨token, x, rest, next, links', rfl, rfl, htoken, hrest⟩
  | token htoken hrest => exact .inr ⟨_, _, _, _, _, rfl, rfl, htoken.isToken, hrest⟩

/-- Splitting off a token leaves less of the text. -/
theorem SplitsOff.length_lt (hlex : IsLexicon Token) {find : List Char → Option (α × List Char)}
    (hfind : SplitsOff Token find) {cs rest : List Char} {x : α} (h : find cs = some (x, rest)) :
    rest.length < cs.length := by
  obtain ⟨token, rfl, htoken⟩ := hfind.of_some h
  have := List.length_pos_iff.mpr (hlex.ne_nil htoken.isToken)
  rw [List.length_append]
  omega

end Cut

/-- White space, at least one character. -/
def IsBlanks (cs : List Char) : Prop := cs ≠ [] ∧ ∀ c ∈ cs, isBlank c = true

theorem IsBlanks.exists_cons {cs : List Char} (h : IsBlanks cs) :
    ∃ c cs', cs = c :: cs' ∧ isBlank c = true := by
  obtain ⟨c, cs', rfl⟩ := List.exists_cons_of_ne_nil h.1
  exact ⟨c, cs', rfl, h.2 c (by simp)⟩

/-- A text is its trimmed form between white space. -/
theorem exists_trim (cs : List Char) :
    ∃ before after, (∀ c ∈ before, isBlank c = true) ∧ (∀ c ∈ after, isBlank c = true) ∧
      cs = before ++ trim cs ++ after := by
  refine ⟨cs.takeWhile isBlank,
    ((cs.dropWhile isBlank).reverse.takeWhile isBlank).reverse, ?_, ?_, ?_⟩
  · intro c hc
    exact List.mem_takeWhile_imp hc
  · intro c hc
    exact List.mem_takeWhile_imp (List.mem_reverse.mp hc)
  · rw [trim, List.append_assoc, ← List.reverse_append, List.takeWhile_append_dropWhile,
      List.reverse_reverse, List.takeWhile_append_dropWhile]

/-- Only white space is nothing without white space. -/
theorem compact_eq_nil_iff {cs : List Char} : compact cs = [] ↔ ∀ c ∈ cs, isBlank c = true := by
  simp [compact]

/-- Only white space is nothing after trimming. -/
theorem trim_eq_nil_iff {cs : List Char} : trim cs = [] ↔ ∀ c ∈ cs, isBlank c = true := by
  obtain ⟨before, after, hbefore, hafter, hcs⟩ := exists_trim cs
  constructor
  · intro h
    rw [hcs, h]
    simpa [or_imp, forall_and] using ⟨hbefore, hafter⟩
  · intro h
    simp [trim, List.dropWhile_eq_nil_iff.mpr h]

end Text

namespace Constraint

open Text

/-! ## clauses -/

/-- The separators of clauses: `,`, `&&`, and `and` between white space. -/
inductive Separator : List Char → Unit → Prop
  | comma : Separator [','] ()
  | ampersands : Separator ['&', '&'] ()
  | and {before after : List Char} (hbefore : IsBlanks before) (hafter : IsBlanks after) :
      Separator (before ++ 'a' :: 'n' :: 'd' :: after) ()

/-- Separators are not empty. -/
theorem isLexicon_separator : IsLexicon Separator where
  ne_nil h := by cases h <;> simp
  unique _ _ := rfl

/-- An `and` is found between white space, and all white space after it is dropped. -/
theorem afterAnd?_eq_some {cs rest : List Char} (h : afterAnd? cs = some rest) :
    ∃ before after, IsBlanks before ∧ IsBlanks after ∧ Stops isBlank rest ∧
      cs = before ++ 'a' :: 'n' :: 'd' :: (after ++ rest) := by
  unfold afterAnd? at h
  split at h
  · next tail hcs =>
    split at h
    · next hblank =>
      obtain rfl := Option.some.inj h
      rw [Bool.and_eq_true] at hblank
      refine ⟨cs.takeWhile isBlank, tail.takeWhile isBlank, ⟨?_, fun c => List.mem_takeWhile_imp⟩,
        ⟨?_, fun c => List.mem_takeWhile_imp⟩, stops_dropWhile _ _, ?_⟩
      · cases cs with
        | nil => simp at hblank
        | cons c cs => simpa using hblank.1
      · cases tail with
        | nil => simp at hblank
        | cons c tail => simpa using hblank.2
      · rw [List.takeWhile_append_dropWhile, ← hcs, List.takeWhile_append_dropWhile]
    · simp at h
  · simp at h

/-- An `and` between white space is found. -/
theorem isSome_afterAnd? {before after : List Char} (rest : List Char) (hbefore : IsBlanks before)
    (hafter : IsBlanks after) :
    (afterAnd? (before ++ 'a' :: 'n' :: 'd' :: (after ++ rest))).isSome := by
  have hdrop : (before ++ 'a' :: 'n' :: 'd' :: (after ++ rest)).dropWhile isBlank =
      'a' :: 'n' :: 'd' :: (after ++ rest) :=
    dropWhile_append_of_stops hbefore.2 (stops_cons.mpr (by decide))
  obtain ⟨b, before, rfl, hb⟩ := hbefore.exists_cons
  obtain ⟨a, after, rfl, ha⟩ := hafter.exists_cons
  rw [afterAnd?, hdrop]
  simp [hb, ha]

/-- A separator that starts with white space is an `and`. -/
theorem afterSeparator?_of_isBlank {c : Char} {cs : List Char} (hc : isBlank c = true) :
    afterSeparator? (c :: cs) = afterAnd? (c :: cs) := by
  unfold afterSeparator?
  split
  · next h =>
    obtain ⟨rfl, -⟩ := List.cons.inj h
    exact absurd hc (by decide)
  · next h =>
    obtain ⟨rfl, -⟩ := List.cons.inj h
    exact absurd hc (by decide)
  · rfl

/-- Between white space, the longest `and` takes all of it. -/
theorem longest_and {before after rest : List Char} (hbefore : IsBlanks before)
    (hafter : IsBlanks after) (hrest : Stops isBlank rest) :
    Longest Separator (before ++ 'a' :: 'n' :: 'd' :: after) () rest where
  isToken := .and hbefore hafter
  length_le := by
    intro other _ tail hother heq
    cases hother with
    | comma | ampersands =>
        simp only [List.length_append, List.length_cons, List.length_nil]
        omega
    | @and before' after' hbefore' hafter' =>
        simp only [List.append_assoc, List.cons_append] at heq
        -- the white space before the word is all there is, so both words are the same
        have hrun := congrArg (List.takeWhile isBlank) heq
        rw [takeWhile_append_of_stops hbefore'.2 (stops_cons.mpr (by decide)),
          takeWhile_append_of_stops hbefore.2 (stops_cons.mpr (by decide))] at hrun
        subst hrun
        have htail : after' ++ tail = after ++ rest := by simpa using heq
        have hle : after'.length ≤ ((after' ++ tail).takeWhile isBlank).length := by
          rw [List.takeWhile_append_of_pos hafter'.2, List.length_append]
          omega
        rw [htail, takeWhile_append_of_stops hafter.2 hrest] at hle
        simp only [List.length_append, List.length_cons]
        omega

/-- No separator with white space starts at a character that is none. -/
theorem eq_of_not_isBlank {c : Char} {cs token tail : List Char} {x : Unit} (hc : isBlank c = false)
    (h : Separator token x) (heq : token ++ tail = c :: cs) :
    token = [','] ∨ token = ['&', '&'] := by
  cases h with
  | comma => exact .inl rfl
  | ampersands => exact .inr rfl
  | and hbefore =>
      obtain ⟨b, before, rfl, hb⟩ := hbefore.exists_cons
      obtain rfl : b = c := by simpa using congrArg List.head? heq
      simp [hb] at hc

/-- A comma is a separator of its own. -/
theorem longest_comma (rest : List Char) : Longest Separator [','] () rest where
  isToken := .comma
  length_le := by
    intro other _ tail hother heq
    rcases eq_of_not_isBlank (by decide) hother heq with rfl | rfl
    · simp
    · simp at heq

/-- Two ampersands are a separator of their own. -/
theorem longest_ampersands (rest : List Char) : Longest Separator ['&', '&'] () rest where
  isToken := .ampersands
  length_le := by
    intro other _ tail hother heq
    rcases eq_of_not_isBlank (by decide) hother heq with rfl | rfl <;> simp

/-- The longest separator at the front of a text is split off. -/
theorem splitsOff_afterSeparator? :
    SplitsOff Separator fun cs => (afterSeparator? cs).map ((), ·) where
  of_some := by
    intro cs _ rest h
    simp only [Option.map_eq_some_iff, Prod.mk.injEq, true_and, exists_eq_right] at h
    unfold afterSeparator? at h
    split at h
    · obtain rfl := Option.some.inj h
      exact ⟨['&', '&'], rfl, longest_ampersands _⟩
    · obtain rfl := Option.some.inj h
      exact ⟨[','], rfl, longest_comma _⟩
    · obtain ⟨before, after, hbefore, hafter, hrest, rfl⟩ := afterAnd?_eq_some h
      exact ⟨_, by simp, longest_and hbefore hafter hrest⟩
  of_none := by
    rintro cs h ⟨token, _, rest, htoken, rfl⟩
    rw [Option.map_eq_none_iff] at h
    cases htoken with
    | comma | ampersands => simp [afterSeparator?] at h
    | @and before after hbefore hafter =>
        have hsome := isSome_afterAnd? rest hbefore hafter
        obtain ⟨c, before, rfl, hc⟩ := hbefore.exists_cons
        rw [List.append_assoc] at h
        simp only [List.cons_append] at h hsome
        rw [afterSeparator?_of_isBlank hc] at h
        simp [h] at hsome

/-- The clauses are the pieces between the separators. -/
theorem cut_clausesFrom {n : Nat} (clause : List Char) {cs : List Char} (hn : cs.length ≤ n) :
    ∃ first links, Cut Separator cs first links ∧
      clausesFrom n clause cs = (clause.reverse ++ first) :: links.map Prod.snd := by
  induction n generalizing clause cs with
  | zero =>
      obtain rfl := List.length_eq_zero_iff.mp (Nat.le_zero.mp hn)
      exact ⟨[], [], .nil, by simp [clausesFrom]⟩
  | succ n ih =>
      cases cs with
      | nil => exact ⟨[], [], .nil, by simp [clausesFrom]⟩
      | cons c cs =>
          rw [clausesFrom]
          cases hsep : afterSeparator? (c :: cs) with
          | some rest =>
              have hfind : (afterSeparator? (c :: cs)).map ((), ·) = some ((), rest) := by
                rw [hsep]; rfl
              have hlt := splitsOff_afterSeparator?.length_lt isLexicon_separator hfind
              obtain ⟨token, htext, htoken⟩ := splitsOff_afterSeparator?.of_some hfind
              obtain ⟨first, links, hcut, heq⟩ := ih [] (by simp at hlt hn; omega : rest.length ≤ n)
              exact ⟨[], ((), first) :: links, htext ▸ hcut.token htoken, by simp [heq]⟩
          | none =>
              have hstart : ¬ Starts Separator (c :: cs) :=
                splitsOff_afterSeparator?.of_none (by rw [hsep]; rfl)
              obtain ⟨first, links, hcut, heq⟩ := ih (c :: clause) (by simpa using hn)
              exact ⟨c :: first, links, hcut.skip hstart, by simp [heq]⟩

/-! ## operators -/

/-- The comparison operators as they are written. -/
inductive Operator : List Char → Comparison → Prop
  | le : Operator ['<', '='] .le
  | ge : Operator ['>', '='] .ge
  | equals : Operator ['=', '='] .eq
  | lt : Operator ['<'] .lt
  | gt : Operator ['>'] .gt
  | eq : Operator ['='] .eq

/-- The characters that operators start with. -/
def startsOperator (c : Char) : Bool := c == '<' || c == '>' || c == '='

/-- Operators are not empty and stand for one comparison each. -/
theorem isLexicon_operator : IsLexicon Operator where
  ne_nil h := by cases h <;> simp
  unique h h' := by cases h <;> cases h' <;> rfl

/-- An operator stands at the front of a text exactly if its first character starts one. -/
theorem starts_operator_iff {c : Char} {cs : List Char} :
    Starts Operator (c :: cs) ↔ startsOperator c = true := by
  constructor
  · rintro ⟨token, x, rest, htoken, heq⟩
    cases htoken <;> simp at heq <;> simp [startsOperator, heq]
  · intro h
    simp only [startsOperator, Bool.or_eq_true, beq_iff_eq] at h
    rcases h with (rfl | rfl) | rfl
    · exact ⟨['<'], .lt, cs, .lt, rfl⟩
    · exact ⟨['>'], .gt, cs, .gt, rfl⟩
    · exact ⟨['='], .eq, cs, .eq, rfl⟩

/-- An operator is the longest one unless a `=` could follow it. -/
theorem longest_operator_iff {token rest : List Char} {op : Comparison} :
    Longest Operator token op rest ↔ Operator token op ∧
      (token.length = 2 ∨ Stops (· == '=') rest) := by
  constructor
  · intro h
    refine ⟨h.isToken, or_iff_not_imp_right.mpr fun hrest => ?_⟩
    cases rest with
    | nil => exact absurd (stops_nil _) hrest
    | cons c rest =>
        obtain rfl : c = '=' := by simpa [stops_cons] using hrest
        obtain ⟨htoken, hle⟩ := h
        cases htoken with
        | le | ge | equals => rfl
        | lt => exact absurd (hle .le (show ['<', '='] ++ rest = _ from rfl)) (by decide)
        | gt => exact absurd (hle .ge (show ['>', '='] ++ rest = _ from rfl)) (by decide)
        | eq => exact absurd (hle .equals (show ['=', '='] ++ rest = _ from rfl)) (by decide)
  · rintro ⟨htoken, hrest⟩
    refine ⟨htoken, fun {other y tail} hother heq => ?_⟩
    rcases hrest with hlen | hrest
    · rw [hlen]
      cases hother <;> simp
    · cases rest with
      | nil =>
          have := congrArg List.length heq
          simp only [List.length_append, List.length_nil] at this
          omega
      | cons c rest =>
          have hc : c ≠ '=' := by simpa [stops_cons] using hrest
          have hc := hc.symm
          cases htoken <;> cases hother <;> simp_all

/-- The longest operator at the front of a text is split off. -/
theorem splitsOff_splitComparison? : SplitsOff Operator splitComparison? where
  of_some := by
    intro cs op rest h
    have hstops : ∀ {tail : List Char}, (∀ rest, tail = '=' :: rest → False) →
        Stops (· == '=') tail := by
      rintro (_ | ⟨d, tail⟩) h
      · exact stops_nil _
      · exact stops_cons.mpr (beq_false_of_ne fun hd => h tail (by rw [hd]))
    simp only [longest_operator_iff]
    unfold splitComparison? at h
    split at h <;> simp only [Option.some.injEq,
      Prod.mk.injEq, reduceCtorEq] at h <;> obtain ⟨rfl, rfl⟩ := h
    · exact ⟨_, rfl, .le, .inl rfl⟩
    · exact ⟨_, rfl, .ge, .inl rfl⟩
    · exact ⟨_, rfl, .equals, .inl rfl⟩
    · next h => exact ⟨['<'], rfl, .lt, .inr (hstops h)⟩
    · next h => exact ⟨['>'], rfl, .gt, .inr (hstops h)⟩
    · next h => exact ⟨['='], rfl, .eq, .inr (hstops h)⟩
  of_none := by
    rintro cs h ⟨token, op, rest, htoken, rfl⟩
    unfold splitComparison? at h
    split at h <;> cases htoken <;> simp_all

/-- A clause is cut at its operators, behind the operand read so far. -/
theorem cut_chainFrom {n : Nat} (operand : List Char) {cs : List Char} (hn : cs.length ≤ n) :
    ∃ first links, Cut Operator cs first links ∧
      chainFrom n operand cs = ⟨operand.reverse ++ first, links⟩ := by
  induction n generalizing operand cs with
  | zero =>
      obtain rfl := List.length_eq_zero_iff.mp (Nat.le_zero.mp hn)
      exact ⟨[], [], .nil, by simp [chainFrom]⟩
  | succ n ih =>
      cases cs with
      | nil => exact ⟨[], [], .nil, by simp [chainFrom]⟩
      | cons c cs =>
          rw [chainFrom]
          cases hop : splitComparison? (c :: cs) with
          | some found =>
              obtain ⟨op, rest⟩ := found
              have hlt := splitsOff_splitComparison?.length_lt isLexicon_operator hop
              obtain ⟨token, htext, htoken⟩ := splitsOff_splitComparison?.of_some hop
              obtain ⟨first, links, hcut, heq⟩ := ih [] (by simp at hlt hn; omega : rest.length ≤ n)
              exact ⟨[], (op, first) :: links, htext ▸ hcut.token htoken, by simp [heq]⟩
          | none =>
              have hstart : ¬ Starts Operator (c :: cs) := splitsOff_splitComparison?.of_none hop
              obtain ⟨first, links, hcut, heq⟩ := ih (c :: operand) (by simpa using hn)
              exact ⟨c :: first, links, hcut.skip hstart, by simp [heq]⟩

/-! ## operands and blanks -/

namespace Chain

/-- The text is cut into the chain. -/
def IsCut (cs : List Char) (chain : Chain) : Prop := Cut Operator cs chain.first chain.links

/-- The operators, in order. -/
def operators (chain : Chain) : List Comparison := chain.links.map Prod.fst

/-- The operands, in order. -/
def operands (chain : Chain) : List (List Char) := chain.first :: chain.links.map Prod.snd

/-- The chain with the operands freed of white space. -/
def compacted (chain : Chain) : Chain :=
  ⟨compact chain.first, chain.links.map (Prod.map id compact)⟩

/-- A text is cut into one chain. -/
theorem IsCut.unique {cs : List Char} {chain chain' : Chain} (h : IsCut cs chain)
    (h' : IsCut cs chain') : chain = chain' := by
  obtain ⟨hfirst, hlinks⟩ := Cut.unique isLexicon_operator h h'
  cases chain
  cases chain'
  simp_all

/-- The chain that a text is cut into. -/
def ofText (cs : List Char) : Chain := chainFrom cs.length [] cs

/-- A text is cut into the chain that is computed for it. -/
theorem isCut_ofText (cs : List Char) : IsCut cs (ofText cs) := by
  obtain ⟨first, links, hcut, heq⟩ := cut_chainFrom [] (le_refl cs.length)
  rw [ofText, heq]
  exact hcut

theorem isCut_iff {cs : List Char} {chain : Chain} : IsCut cs chain ↔ ofText cs = chain :=
  ⟨fun h => (isCut_ofText cs).unique h, fun h => h ▸ isCut_ofText cs⟩

/-- The chain of `first` and `links` with a chain written behind its last operand. -/
def extend (first : List Char) : List (Comparison × List Char) → Chain → Chain
  | [], chain => ⟨first ++ chain.first, chain.links⟩
  | (op, operand) :: links, chain =>
    ⟨first, (op, (extend operand links chain).first) :: (extend operand links chain).links⟩

/-- A chain written behind another has the operators of both. -/
theorem operators_extend (first : List Char) (links : List (Comparison × List Char))
    (chain : Chain) :
    (extend first links chain).operators = links.map Prod.fst ++ chain.operators := by
  induction links generalizing first with
  | nil => rfl
  | cons link links ih => exact congrArg (link.1 :: ·) (ih link.2)

/-- White space written behind a chain does not count. -/
theorem compacted_extend {first : List Char} {links : List (Comparison × List Char)} {chain : Chain}
    (hfirst : compact chain.first = []) (hlinks : chain.links = []) :
    (extend first links chain).compacted = compacted ⟨first, links⟩ := by
  induction links generalizing first with
  | nil => simp [extend, compacted, hfirst, hlinks]
  | cons link links ih =>
      obtain ⟨op, operand⟩ := link
      have h := @ih operand
      simp only [compacted, mk.injEq] at h
      simp [extend, compacted, h]

theorem extend_cons (c : Char) (first : List Char) (links : List (Comparison × List Char))
    (chain : Chain) :
    extend (c :: first) links chain = ⟨c :: (extend first links chain).first,
      (extend first links chain).links⟩ := by
  cases links <;> rfl

/-- Texts are cut one by one where the second does not go on with a `=`, which could make an
operator longer. -/
theorem IsCut.append {cs ds : List Char} {chain chain' : Chain} (h : IsCut cs chain)
    (h' : IsCut ds chain') (hstops : Stops (· == '=') ds) :
    IsCut (cs ++ ds) (extend chain.first chain.links chain') := by
  obtain ⟨first, links⟩ := chain
  simp only [IsCut] at h
  induction h with
  | nil => exact h'
  | @skip c cs first links hc h ih =>
      rw [starts_operator_iff] at hc
      rw [extend_cons]
      exact .skip (starts_operator_iff.not.mpr hc) ih
  | @token token rest first op links htoken h ih =>
      have hlongest : Longest Operator token op (rest ++ ds) := by
        rw [longest_operator_iff] at htoken ⊢
        exact ⟨htoken.1, htoken.2.imp_right fun hrest => hrest.append hstops⟩
      rw [List.append_assoc]
      exact .token hlongest ih

/-- Characters that start no operator belong to the first operand. -/
theorem IsCut.prepend {before cs : List Char} {chain : Chain} (h : IsCut cs chain)
    (hbefore : ∀ c ∈ before, startsOperator c = false) :
    IsCut (before ++ cs) ⟨before ++ chain.first, chain.links⟩ := by
  induction before with
  | nil => exact h
  | cons c before ih =>
      obtain ⟨hc, hbefore⟩ := List.forall_mem_cons.mp hbefore
      exact .skip (by simp [starts_operator_iff, hc]) (ih hbefore)

/-- A text without operators is one operand. -/
theorem isCut_of_noOperator {cs : List Char} (h : ∀ c ∈ cs, startsOperator c = false) :
    IsCut cs ⟨cs, []⟩ := by
  have hnil : IsCut [] ⟨[], []⟩ := .nil
  simpa using hnil.prepend h

end Chain

theorem startsOperator_of_isBlank {c : Char} (h : isBlank c = true) : startsOperator c = false := by
  by_contra hc
  simp only [startsOperator, Bool.not_eq_false, Bool.or_eq_true, beq_iff_eq] at hc
  rcases hc with (rfl | rfl) | rfl <;> exact absurd h (by decide)

/-- A text without operators does not start with one. -/
theorem stops_of_noOperator {cs : List Char} (h : ∀ c ∈ cs, startsOperator c = false) :
    Stops (· == '=') cs := by
  intro c hc
  have := h c (List.mem_of_head? hc)
  simp_all [startsOperator]

namespace Chain

/-- White space around a text changes its operands by white space only. -/
theorem compacted_ofText_trim (cs : List Char) :
    (ofText (trim cs)).compacted = (ofText cs).compacted := by
  obtain ⟨before, after, hbefore, hafter, hcs⟩ := exists_trim cs
  have hbefore' := fun c hc => startsOperator_of_isBlank (hbefore c hc)
  have hafter' := fun c hc => startsOperator_of_isBlank (hafter c hc)
  have hcut := ((isCut_ofText (trim cs)).append (isCut_of_noOperator hafter')
    (stops_of_noOperator hafter')).prepend hbefore'
  rw [← List.append_assoc, ← hcs] at hcut
  have hextend : (extend (ofText (trim cs)).first (ofText (trim cs)).links ⟨after, []⟩).compacted =
      (ofText (trim cs)).compacted := compacted_extend (compact_eq_nil_iff.mpr hafter) rfl
  rw [isCut_iff.mp hcut, ← hextend]
  simp [compacted, compact_eq_nil_iff.mpr hbefore]

/-- A text without operators between two others divides their operators. -/
theorem operators_ofText_append {first token rest : List Char} (hne : token ≠ [])
    (htoken : ∀ c ∈ token, startsOperator c = false) :
    (ofText (first ++ (token ++ rest))).operators = (ofText first).operators ++
      (ofText rest).operators := by
  have hstops : Stops (· == '=') (token ++ rest) :=
    (stops_of_noOperator htoken).append_of_ne_nil hne
  have hcut := (isCut_ofText first).append ((isCut_ofText rest).prepend htoken) hstops
  rw [isCut_iff.mp hcut, operators_extend]
  rfl

end Chain

/-- There is no operator in a separator. -/
theorem startsOperator_of_separator {token : List Char} {x : Unit} (h : Separator token x) :
    ∀ c ∈ token, startsOperator c = false := by
  cases h with
  | comma | ampersands => simp [startsOperator]
  | and hbefore hafter =>
      intro c hc
      simp only [List.mem_append, List.mem_cons] at hc
      rcases hc with hc | rfl | rfl | rfl | hc
      · exact startsOperator_of_isBlank (hbefore.2 c hc)
      · decide
      · decide
      · decide
      · exact startsOperator_of_isBlank (hafter.2 c hc)

/-! ## the chains of a text -/

/-- The pieces of a text between its clause separators. -/
def IsClauses (text : List Char) (clauses : List (List Char)) : Prop :=
  ∃ first links, Cut Separator text first links ∧ clauses = first :: links.map Prod.snd

/-- The clause holds something else than white space. -/
def isProper (clause : List Char) : Bool := clause.any (!isBlank ·)

/-- The chains of a text: its clauses that are not blank, each cut at its operators. -/
def IsChains (text : List Char) (chains : List Chain) : Prop :=
  ∃ clauses, IsClauses text clauses ∧ List.Forall₂ Chain.IsCut (clauses.filter isProper) chains

/-- The clauses of a text are those that are computed for it. -/
theorem isClauses_iff {text : List Char} {clauses : List (List Char)} :
    IsClauses text clauses ↔ clausesFrom text.length [] text = clauses := by
  obtain ⟨first, links, hcut, heq⟩ := cut_clausesFrom [] (le_refl text.length)
  constructor
  · rintro ⟨first', links', hcut', rfl⟩
    obtain ⟨rfl, rfl⟩ := hcut.unique isLexicon_separator hcut'
    exact heq
  · rintro rfl
    exact ⟨first, links, hcut, heq⟩

/-- The chains that a text is cut into. -/
def chainsOf (text : List Char) : List Chain :=
  ((clausesFrom text.length [] text).filter isProper).map Chain.ofText

/-- The chains of a text are those that are computed for it. -/
theorem isChains_iff {text : List Char} {chains : List Chain} :
    IsChains text chains ↔ chainsOf text = chains := by
  have hcut : Chain.IsCut = fun cs chain => Chain.ofText cs = chain := by
    funext cs chain
    exact propext Chain.isCut_iff
  simp only [IsChains, isClauses_iff, exists_eq_left', chainsOf]
  rw [hcut, ← List.forall₂_map_left_iff, List.forall₂_eq_eq_eq]

/-- A blank clause has no operators. -/
theorem operators_of_not_isProper {clause : List Char} (h : isProper clause = false) :
    (Chain.ofText clause).operators = [] := by
  have hblank : ∀ c ∈ clause, startsOperator c = false := fun c hc =>
    startsOperator_of_isBlank (by simpa [isProper] using List.any_eq_false.mp h c hc)
  rw [Chain.isCut_iff.mp (Chain.isCut_of_noOperator hblank)]
  rfl

/-- The operators of a text are those of its clauses, one clause after the other. -/
theorem operators_of_cut {text first : List Char} {links : List (Unit × List Char)}
    (h : Cut Separator text first links) : (Chain.ofText text).operators =
      (first :: links.map Prod.snd).flatMap fun clause => (Chain.ofText clause).operators := by
  induction links generalizing text first with
  | nil =>
      rcases h.cases_links with ⟨-, rfl⟩ | ⟨_, _, _, _, _, hlinks, -⟩
      · simp
      · simp at hlinks
  | cons link links ih =>
      rcases h.cases_links with ⟨hlinks, -⟩ | ⟨token, x, rest, next, links', hlinks, rfl,
        htoken, hrest⟩
      · simp at hlinks
      · obtain ⟨rfl, rfl⟩ := List.cons.inj hlinks
        rw [Chain.operators_ofText_append (isLexicon_separator.ne_nil htoken)
          (startsOperator_of_separator htoken), ih hrest]
        simp

/-- Cutting at the operators first finds the same operators as cutting into clauses first. -/
theorem operators_ofText (text : List Char) :
    (Chain.ofText text).operators = (chainsOf text).flatMap Chain.operators := by
  obtain ⟨first, links, hcut, heq⟩ := cut_clausesFrom [] (le_refl text.length)
  rw [operators_of_cut hcut, chainsOf, heq, List.flatMap_map, List.reverse_nil, List.nil_append]
  generalize first :: links.map Prod.snd = clauses
  induction clauses with
  | nil => rfl
  | cons clause clauses ih =>
      cases hproper : isProper clause with
      | true => simp [hproper, ih]
      | false => simp [hproper, ih, operators_of_not_isProper hproper]

/-! ## comparisons -/

/-- The integers compare as the operator says. -/
def Comparison.Holds : Comparison → Int → Int → Prop
  | .le, x, y => x ≤ y
  | .lt, x, y => x < y
  | .ge, x, y => x ≥ y
  | .gt, x, y => x > y
  | .eq, x, y => x = y

/-- The constraint of a comparison holds where the values compare as the operator says. -/
theorem holds_of_ofComparison {op : Comparison} {a b : Affine} {c : Constraint}
    (h : ofComparison op a b = .ok c) (v : Valuation) :
    c.Holds v ↔ op.Holds (a.value v) (b.value v) := by
  cases op with
  | le | ge | eq =>
      simp only [ofComparison, Outcome.bind_eq_ok, Outcome.pure_eq_ok] at h
      obtain ⟨d, hd, rfl⟩ := h
      simp only [holds_ge, holds_eq, Affine.value_sub hd, Comparison.Holds]
      omega
  | lt | gt =>
      simp only [ofComparison, Outcome.bind_eq_ok, Outcome.pure_eq_ok] at h
      obtain ⟨d, hd, e, he, rfl⟩ := h
      simp only [holds_ge, Affine.value_addConst he, Affine.value_sub hd, Comparison.Holds]
      omega

/-- The constraint of a comparison fits into words: the difference does, and it does so one less for
a strict comparison. -/
def Comparison.Fits : Comparison → Affine → Affine → Prop
  | .le, a, b => b.Subtractable a
  | .lt, a, b => b.Subtractable a ∧ Word.fits (b.constant - a.constant - 1) = true
  | .ge, a, b => a.Subtractable b
  | .gt, a, b => a.Subtractable b ∧ Word.fits (a.constant - b.constant - 1) = true
  | .eq, a, b => a.Subtractable b

/-- A difference can be made one less exactly if its constant can. -/
theorem exists_addConst_of_sub {a b d : Affine} (h : a.sub b = .ok d) :
    (∃ e, d.addConst (-1) = .ok e) ↔ Word.fits (a.constant - b.constant - 1) = true := by
  obtain ⟨-, hconstant⟩ := Affine.sub_eq_ok h
  simp only [Affine.addConst, Outcome.bind_eq_ok, Outcome.orOverflow_eq_ok, Word.add?_eq_some,
    Outcome.pure_eq_ok, hconstant]
  constructor
  · rintro ⟨-, -, ⟨hfits, rfl⟩, rfl⟩
    exact hfits
  · intro hfits
    exact ⟨_, _, ⟨hfits, rfl⟩, rfl⟩

/-- A comparison has a constraint exactly if its numbers are words. -/
theorem exists_ofComparison_iff {op : Comparison} {a b : Affine} :
    (∃ c, ofComparison op a b = .ok c) ↔ op.Fits a b := by
  cases op with
  | le | ge | eq =>
      simp only [ofComparison, Comparison.Fits, Outcome.bind_eq_ok, Outcome.pure_eq_ok,
        ← Affine.exists_sub_iff]
      grind
  | lt | gt =>
      simp only [ofComparison, Comparison.Fits, Outcome.bind_eq_ok, Outcome.pure_eq_ok,
        ← Affine.exists_sub_iff]
      constructor
      · rintro ⟨-, d, hd, e, he, rfl⟩
        exact ⟨⟨d, hd⟩, (exists_addConst_of_sub hd).mp ⟨e, he⟩⟩
      · rintro ⟨⟨d, hd⟩, hfits⟩
        obtain ⟨e, he⟩ := (exists_addConst_of_sub hd).mpr hfits
        exact ⟨ge e, d, hd, e, he, rfl⟩

/-- Two operands next to each other and the operator between them. -/
structure Link where
  lhs : List Char
  op : Comparison
  rhs : List Char

/-- The operands of the link are the affine forms. -/
def Link.Reads (names : List String) (l : Link) (a b : Affine) : Prop :=
  Affine.parse (String.ofList l.lhs) names = .ok a ∧
    Affine.parse (String.ofList l.rhs) names = .ok b

/-- The link is read as the constraint. -/
def Link.Yields (names : List String) (l : Link) (c : Constraint) : Prop :=
  ∃ a b, l.Reads names a b ∧ ofComparison l.op a b = .ok c

def Link.compacted (l : Link) : Link := ⟨compact l.lhs, l.op, compact l.rhs⟩

namespace Chain

/-- The comparisons of a chain that starts with `lhs`, in order. -/
def linksFrom (lhs : List Char) : List (Comparison × List Char) → List Link
  | [] => []
  | (op, rhs) :: rest => ⟨lhs, op, rhs⟩ :: linksFrom rhs rest

/-- The comparisons of a chain, in order. -/
def comparisons (chain : Chain) : List Link := linksFrom chain.first chain.links

theorem map_op_linksFrom (lhs : List Char) (links : List (Comparison × List Char)) :
    (linksFrom lhs links).map Link.op = links.map Prod.fst := by
  induction links generalizing lhs with
  | nil => rfl
  | cons link links ih => exact congrArg (link.1 :: ·) (ih link.2)

/-- The comparisons of a chain have its operators, in order. -/
theorem map_op_comparisons (chain : Chain) : chain.comparisons.map Link.op = chain.operators :=
  map_op_linksFrom _ _

/-- White space can be dropped before or after a chain is taken apart. -/
theorem linksFrom_compact (lhs : List Char) (links : List (Comparison × List Char)) :
    linksFrom (compact lhs) (links.map (Prod.map id compact)) =
      (linksFrom lhs links).map Link.compacted := by
  induction links generalizing lhs with
  | nil => rfl
  | cons link links ih => exact congrArg (_ :: ·) (ih link.2)

/-- The chain has a comparison, and its comparisons are read as the constraints. -/
def Yields (names : List String) (chain : Chain) (cs : List Constraint) : Prop :=
  chain.links ≠ [] ∧ List.Forall₂ (Link.Yields names) chain.comparisons cs

end Chain

/-- White space in the operands does not change the constraint of a link. -/
theorem yields_compacted {names : List String} {l : Link} {c : Constraint} :
    l.compacted.Yields names c ↔ l.Yields names c := by
  have hparse : ∀ (cs : List Char) (a : Affine),
      Affine.parse (String.ofList (compact cs)) names = .ok a ↔
      Affine.parse (String.ofList cs) names = .ok a := fun cs a =>
    Affine.parse_eq_ok_congr (by simp [compact])
  simp only [Link.Yields, Link.Reads, Link.compacted, hparse]

/-- White space in the operands does not change the constraints of a chain. -/
theorem Chain.yields_compacted {names : List String} {chain : Chain} {cs : List Constraint} :
    chain.compacted.Yields names cs ↔ chain.Yields names cs := by
  simp only [Yields, compacted, comparisons, linksFrom_compact, List.forall₂_map_left_iff,
    Constraint.yields_compacted, ne_eq, List.map_eq_nil_iff]

/-- The first link of a chain compares its two neighbours, and the rest goes on from the right
one. -/
theorem linkConstraints_cons_eq_ok {clause : String} {a b : Affine} {op : Comparison}
    {links : List (Comparison × Affine)} {cs : List Constraint} :
    linkConstraints clause a ((op, b) :: links) = .ok cs ↔
      ∃ c rest, ofComparison op a b = .ok c ∧ linkConstraints clause b links = .ok rest ∧
      cs = c :: rest := by
  rw [linkConstraints]
  cases ofComparison op a b with
  | error e => simp
  | ok c =>
      simp only [Outcome.bind_eq_ok, Outcome.pure_eq_ok]
      grind

/-- Reading the operands of a chain after the first one and comparing neighbours reads its
comparisons. -/
theorem parseLinks_linkConstraints {names : List String} {clause : String} {lhs : List Char}
    {a : Affine} {links : List (Comparison × List Char)} {cs : List Constraint}
    (ha : Affine.parse (String.ofList lhs) names = .ok a) :
    (∃ forms, parseLinks names links = .ok forms ∧ linkConstraints clause a forms = .ok cs) ↔
      List.Forall₂ (Link.Yields names) (Chain.linksFrom lhs links) cs := by
  induction links generalizing lhs a cs with
  | nil =>
      simp [parseLinks, linkConstraints, Chain.linksFrom]
  | cons link links ih =>
      obtain ⟨op, rhs⟩ := link
      simp only [parseLinks, Chain.linksFrom, Outcome.bind_eq_ok, Outcome.pure_eq_ok,
        List.forall₂_cons_left_iff]
      constructor
      · rintro ⟨-, ⟨b, hb, forms, hforms, rfl⟩, h⟩
        obtain ⟨c, rest, hc, hrest, rfl⟩ := linkConstraints_cons_eq_ok.mp h
        exact ⟨c, rest, ⟨a, b, ⟨ha, hb⟩, hc⟩, (ih hb).mp ⟨forms, hforms, hrest⟩, rfl⟩
      · rintro ⟨c, rest, ⟨a', b, ⟨ha', hb⟩, hc⟩, hrest, rfl⟩
        obtain rfl : a = a' := Except.ok.inj (ha.symm.trans ha')
        obtain ⟨forms, hforms, hrest⟩ := (ih hb).mpr hrest
        exact ⟨_, ⟨b, hb, forms, hforms, rfl⟩,
          linkConstraints_cons_eq_ok.mpr ⟨c, rest, hc, hrest, rfl⟩⟩

/-- A clause is read as the constraints of its chain. -/
theorem parseChain_eq_ok {names : List String} {clause : List Char} {cs : List Constraint} :
    parseChain clause names = .ok cs ↔ (Chain.ofText clause).Yields names cs := by
  rw [parseChain, ← Chain.ofText, Chain.Yields, Chain.comparisons]
  generalize Chain.ofText clause = chain
  obtain ⟨first, links⟩ := chain
  cases links with
  | nil => simp
  | cons link links =>
      simp only [List.isEmpty_cons, Bool.false_eq_true, if_false, Outcome.bind_eq_ok, ne_eq,
        reduceCtorEq, not_false_eq_true, true_and]
      constructor
      · rintro ⟨a, ha, h⟩
        exact (parseLinks_linkConstraints ha).mp h
      · intro h
        obtain ⟨c, rest, ⟨a, b, ⟨ha, hb⟩, hc⟩, -, -⟩ := List.forall₂_cons_left_iff.mp h
        exact ⟨a, ha, (parseLinks_linkConstraints ha).mpr h⟩

/-- A clause is read as its comparisons say, white space at its ends or not. -/
theorem parseChain_trim_eq_ok {names : List String} {clause : List Char} {cs : List Constraint} :
    parseChain (trim clause) names = .ok cs ↔ (Chain.ofText clause).Yields names cs := by
  rw [parseChain_eq_ok, ← Chain.yields_compacted, Chain.compacted_ofText_trim,
    Chain.yields_compacted]

/-- Clauses are read one after the other, and their constraints put together. -/
theorem parseClauses_eq_ok {names : List String} {clauses : List (List Char)}
    {cs : List Constraint} : parseClauses names clauses = .ok cs ↔
      ∃ css, List.Forall₂ (fun clause cs => parseChain clause names = .ok cs) clauses css ∧
      css.flatten = cs := by
  induction clauses generalizing cs with
  | nil => simp [parseClauses]
  | cons clause clauses ih =>
      simp only [parseClauses, Outcome.bind_eq_ok, Outcome.pure_eq_ok, ih]
      constructor
      · rintro ⟨ds, hds, -, ⟨css, hcss, rfl⟩, rfl⟩
        exact ⟨ds :: css, .cons hds hcss, rfl⟩
      · rintro ⟨_, _ | ⟨hds, hcss⟩, rfl⟩
        exact ⟨_, hds, _, ⟨_, hcss, rfl⟩, rfl⟩

/-- The clauses that are read are those that are not blank, trimmed. -/
theorem clauses_eq (text : List Char) :
    clauses text = ((clausesFrom text.length [] text).filter isProper).map trim := by
  have hproper : ((!·.isEmpty) ∘ trim) = isProper := by
    funext clause
    rw [Bool.eq_iff_iff]
    simp [isProper, trim_eq_nil_iff]
  rw [clauses, List.filter_map, hproper]

/-- Reading a text is reading the comparisons of its chains, in order. -/
theorem parse_eq_ok_iff {text : String} {names : List String} {cs : List Constraint} :
    parse text names = .ok cs ↔
      ∃ css, List.Forall₂ (Chain.Yields names) (chainsOf text.toList) css ∧ css.flatten = cs := by
  simp only [parse, parseClauses_eq_ok, clauses_eq, chainsOf, List.forall₂_map_left_iff,
    parseChain_trim_eq_ok]

/-! ## refusals -/

/-- A link is read exactly if both operands are forms whose difference fits into words. -/
theorem Link.exists_yields_iff {names : List String} {l : Link} :
    (∃ c, l.Yields names c) ↔ ∃ a b, l.Reads names a b ∧ l.op.Fits a b := by
  simp only [Link.Yields, ← exists_ofComparison_iff]
  grind

/-- A chain is read if it has a comparison, all operands are affine forms and all constraints
fit. -/
theorem Chain.exists_yields_iff {names : List String} {chain : Chain} :
    (∃ cs, chain.Yields names cs) ↔
      chain.links ≠ [] ∧ ∀ l ∈ chain.comparisons, ∃ a b, l.Reads names a b ∧ l.op.Fits a b := by
  simp only [Yields, exists_and_left, List.Forall₂.exists_iff, Link.exists_yields_iff]

/-- A text is read exactly if each chain has a comparison, and all its comparisons can be read. -/
theorem exists_parse_iff {text : String} {names : List String} :
    (∃ cs, parse text names = .ok cs) ↔ ∀ chain ∈ chainsOf text.toList,
      chain.links ≠ [] ∧ ∀ l ∈ chain.comparisons, ∃ a b, l.Reads names a b ∧ l.op.Fits a b := by
  have hchains : (∃ css, List.Forall₂ (Chain.Yields names) (chainsOf text.toList) css) ↔ _ :=
    List.Forall₂.exists_iff
  simp only [Chain.exists_yields_iff] at hchains
  rw [← hchains]
  simp only [parse_eq_ok_iff]
  constructor
  · rintro ⟨-, css, hcss, -⟩
    exact ⟨css, hcss⟩
  · rintro ⟨css, hcss⟩
    exact ⟨_, css, hcss, rfl⟩

theorem linkConstraints_ne_fault {clause : String} {a : Affine}
    {links : List (Comparison × Affine)} : linkConstraints clause a links ≠ .fault := by
  induction links generalizing a with
  | nil => simp [linkConstraints]
  | cons link links ih =>
      rw [linkConstraints]
      cases ofComparison link.1 a link.2 <;> simp [ih]

theorem parseLinks_ne_fault {names : List String} {links : List (Comparison × List Char)} :
    parseLinks names links ≠ .fault := by
  induction links with
  | nil => simp [parseLinks]
  | cons link links ih => simp [parseLinks, ih, Affine.parse_ne_fault]

/-- Reading a clause gives constraints or reports a cause. -/
theorem parseChain_ne_fault {clause : List Char} {names : List String} :
    parseChain clause names ≠ .fault := by
  rw [parseChain]
  split
  · simp
  · simp [Affine.parse_ne_fault, parseLinks_ne_fault, linkConstraints_ne_fault]

theorem parseClauses_ne_fault {clauses : List (List Char)} {names : List String} :
    parseClauses names clauses ≠ .fault := by
  induction clauses with
  | nil => simp [parseClauses]
  | cons clause clauses ih => simp [parseClauses, ih, parseChain_ne_fault]

/-- Reading constraints gives them or reports a cause. -/
theorem parse_ne_fault (text : String) (names : List String) : parse text names ≠ .fault :=
  parseClauses_ne_fault

/-- The operands of a chain with a comparison are those of its comparisons. -/
theorem Chain.forall_operands_iff {P : List Char → Prop} {chain : Chain} (h : chain.links ≠ []) :
    (∀ x ∈ chain.operands, P x) ↔ ∀ l ∈ chain.comparisons, P l.lhs ∧ P l.rhs := by
  obtain ⟨first, links⟩ := chain
  induction links generalizing first with
  | nil => simp at h
  | cons link links ih =>
      cases links with
      | nil => simp [operands, comparisons, linksFrom]
      | cons link' links =>
          have hrest := ih link.2 (by simp)
          simp only [operands, comparisons, linksFrom, List.map_cons,
            List.forall_mem_cons] at hrest ⊢
          rw [← hrest]
          grind

/-- The operands of a link are read in one way. -/
theorem Link.Reads.unique {names : List String} {l : Link} {a b a' b' : Affine}
    (h : l.Reads names a b) (h' : l.Reads names a' b') : a = a' ∧ b = b' :=
  ⟨Except.ok.inj (h.1.symm.trans h'.1), Except.ok.inj (h.2.symm.trans h'.2)⟩

/-- The constraints of a text are those of its comparisons. -/
theorem yields_of_parse {text : String} {names : List String} {cs : List Constraint}
    (h : parse text names = .ok cs) :
    List.Forall₂ (Link.Yields names) ((chainsOf text.toList).flatMap Chain.comparisons) cs := by
  obtain ⟨css, hcss, rfl⟩ := parse_eq_ok_iff.mp h
  rw [List.flatMap_def]
  exact List.rel_flatten (List.forall₂_map_left_iff.mpr (hcss.imp fun _ _ hchain => hchain.2))

/-- The constraints hold where the comparisons do. -/
theorem forall_holds_iff {names : List String} {links : List Link} {cs : List Constraint}
    (h : List.Forall₂ (Link.Yields names) links cs) (v : Valuation) :
    (∀ c ∈ cs, c.Holds v) ↔ ∀ l ∈ links, ∃ a b, l.Reads names a b ∧
      l.op.Holds (a.value v) (b.value v) := by
  constructor
  · intro hcs l hl
    obtain ⟨c, hc, a, b, hreads, hyields⟩ := h.exists_of_mem_left hl
    exact ⟨a, b, hreads, (holds_of_ofComparison hyields v).mp (hcs c hc)⟩
  · intro hlinks c hc
    obtain ⟨l, hl, a, b, hreads, hyields⟩ := h.exists_of_mem_right hc
    obtain ⟨a', b', hreads', hholds⟩ := hlinks l hl
    obtain ⟨rfl, rfl⟩ := hreads.unique hreads'
    exact (holds_of_ofComparison hyields v).mpr hholds

/-- What keeps a chain from being read. -/
theorem Chain.not_readable_iff {names : List String} {chain : Chain} :
    ¬ (chain.links ≠ [] ∧ ∀ l ∈ chain.comparisons, ∃ a b, l.Reads names a b ∧ l.op.Fits a b) ↔
      chain.links = [] ∨
      (∃ operand ∈ chain.operands, ∀ a, Affine.parse (String.ofList operand) names ≠ .ok a) ∨
        ∃ l ∈ chain.comparisons, ∃ a b, l.Reads names a b ∧ ¬ l.op.Fits a b := by
  by_cases hlinks : chain.links = []
  · simp [hlinks]
  · have hoperands :
        (∀ x ∈ chain.operands, ∃ a, Affine.parse (String.ofList x) names = .ok a) ↔ _ :=
      Chain.forall_operands_iff hlinks
    constructor
    · intro h
      refine .inr (or_iff_not_imp_left.mpr fun hforms => ?_)
      have hforms : ∀ x ∈ chain.operands, ∃ a, Affine.parse (String.ofList x) names = .ok a := by
        simpa using hforms
      obtain ⟨l, hl, hno⟩ : ∃ l ∈ chain.comparisons, ¬ ∃ a b, l.Reads names a b ∧
          l.op.Fits a b := by
        simpa [hlinks] using h
      obtain ⟨⟨a, ha⟩, b, hb⟩ := hoperands.mp hforms l hl
      exact ⟨l, hl, a, b, ⟨ha, hb⟩, fun hfits => hno ⟨a, b, ⟨ha, hb⟩, hfits⟩⟩
    · rintro (hnil | ⟨x, hx, hno⟩ | ⟨l, hl, a, b, hreads, hno⟩) ⟨-, hall⟩
      · exact hlinks hnil
      · have hforms := hoperands.mpr fun l hl => by
          obtain ⟨a, b, hreads, -⟩ := hall l hl
          exact ⟨⟨a, hreads.1⟩, b, hreads.2⟩
        obtain ⟨a, ha⟩ := hforms x hx
        exact hno a ha
      · obtain ⟨a', b', hreads', hfits⟩ := hall l hl
        obtain ⟨rfl, rfl⟩ := hreads.unique hreads'
        exact hno hfits

/-- A text is cut into chains of comparisons in one way.  The constraints that are read from it are
those of its comparisons, one for each operator of the text and in its order, so that all of them
hold exactly where all comparisons do.  The text is refused, with a cause, exactly if a clause has
no operator, an operand is not an affine form or a constraint does not fit into words. -/
theorem parse_comparison_chains (text : String) (names : List String) :
    ∃ chains whole, (∀ chains', IsChains text.toList chains' ↔ chains' = chains) ∧
      (∀ whole', Chain.IsCut text.toList whole' ↔ whole' = whole) ∧
      (∀ cs, parse text names = .ok cs →
        (chains.flatMap Chain.comparisons).map Link.op = whole.operators ∧
        List.Forall₂ (fun (l : Link) c => ∃ a b, l.Reads names a b ∧
          ∀ v, c.Holds v ↔
          l.op.Holds (a.value v) (b.value v)) (chains.flatMap Chain.comparisons) cs ∧
        ∀ v, (∀ c ∈ cs, c.Holds v) ↔ ∀ chain ∈ chains, ∀ l ∈ chain.comparisons,
          ∃ a b, l.Reads names a b ∧ l.op.Holds (a.value v) (b.value v)) ∧
      parse text names ≠ .fault ∧
      ((∃ cause, parse text names = .raise cause) ↔ ∃ chain ∈ chains, chain.links = [] ∨
        (∃ operand ∈ chain.operands, ∀ a, Affine.parse (String.ofList operand) names ≠ .ok a) ∨
        ∃ l ∈ chain.comparisons, ∃ a b, l.Reads names a b ∧ ¬ l.op.Fits a b) := by
  refine ⟨chainsOf text.toList, Chain.ofText text.toList, fun chains => isChains_iff.trans eq_comm,
    fun whole => Chain.isCut_iff.trans eq_comm, ?_, parse_ne_fault text names, ?_⟩
  · intro cs hcs
    have hyields := yields_of_parse hcs
    refine ⟨?_, hyields.imp ?_, fun v => ?_⟩
    · simp only [List.map_flatMap, Chain.map_op_comparisons, operators_ofText]
    · rintro l c ⟨a, b, hreads, hc⟩
      exact ⟨a, b, hreads, holds_of_ofComparison hc⟩
    · rw [forall_holds_iff hyields, List.forall_mem_flatMap]
  · rw [Outcome.exists_raise_iff (parse_ne_fault text names), exists_parse_iff]
    simp only [not_forall, Chain.not_readable_iff, exists_prop]

end Constraint

end KernelMap
