import Mathlib
import SnippetConsole.Proofs.Decimal.Digits
import SnippetConsole.Proofs.Text.Blank
import SnippetConsole.Proofs.Token.Reads

/-!
# The tokens of a line cover it

A line is gaps and tokens in turn, and a tail. A gap is blanks and complete block
comments; only in the tail may a comment take the rest of the line. Each token is
written as its kind is shown, and a number as the digits that are read as its value.

* `trivia_cases` — what is skipped is a gap, or a gap and an open comment.
* `spelled_of_lexeme` — what a lexeme is written as.
* `Reads.stands` — the place of one token among the others.
* `reads_of_lex`, `spelled_of_lex` — texts that end with their last token.
* `covers_of_lex` — the tokens of a line cover it, each where its span says.
-/

namespace SnippetConsole

/-- The kinds that are written as words: names and keywords. -/
def Kind.isWord (kind : Kind) : Bool := kind.name?.isSome || kind.isKeyword

/-- The byte at which a run of tokens ends; without tokens that is the first. -/
def endByte (ts : List Token) : Nat := (ts.getLast?.map (·.span.stop)).getD 0

namespace Lexer

open Text

/-! ## Gaps and tails -/

/-- Blanks and complete block comments. A comment ends where it is first closed. -/
inductive Gap : List Char → Prop
  | nil : Gap []
  | blank {c : Char} {cs : List Char} : isBlank c = true → Gap cs → Gap (c :: cs)
  | comment {inside cs : List Char} : ¬['*', '/'] <:+: inside ++ ['*'] → Gap cs →
      Gap ('/' :: '*' :: (inside ++ '*' :: '/' :: cs))

/-- A comment up to the end of the line: a line comment, or a block comment that is
never closed. -/
inductive OpenComment : List Char → Prop
  | line {cs : List Char} : OpenComment ('/' :: '/' :: cs)
  | block {cs : List Char} : ¬['*', '/'] <:+: cs → OpenComment ('/' :: '*' :: cs)

/-- What may stand behind the last token. -/
inductive Tail : List Char → Prop
  | gap {cs : List Char} : Gap cs → Tail cs
  | comment {gap cs : List Char} : Gap gap → OpenComment cs → Tail (gap ++ cs)

theorem trivia_cases (cs : List Char) :
    Gap (trivia cs).1 ∨
      ∃ gap comment, trivia cs = (gap ++ comment, []) ∧ Gap gap ∧ OpenComment comment := by
  induction hn : cs.length using Nat.strong_induction_on generalizing cs with
  | h n ih =>
    subst hn
    cases cs with
    | nil => exact .inl .nil
    | cons c cs =>
      by_cases hblank : isBlank c = true
      · rw [trivia_blank hblank]
        rcases ih cs.length (by simp) cs rfl with hgap | ⟨gap, comment, heq, hgap, hcomment⟩
        · exact .inl (.blank hblank hgap)
        · exact .inr ⟨c :: gap, comment, by rw [heq]; rfl, .blank hblank hgap, hcomment⟩
      · by_cases hline : c = '/' ∧ cs.head? = some '/'
        · obtain ⟨rfl, hhead⟩ := hline
          obtain ⟨cs, rfl⟩ := List.head?_eq_some_iff.1 hhead
          exact .inr ⟨[], _, rfl, .nil, .line⟩
        · by_cases hblock : c = '/' ∧ cs.head? = some '*'
          · obtain ⟨rfl, hhead⟩ := hblock
            obtain ⟨cs, rfl⟩ := List.head?_eq_some_iff.1 hhead
            have htrivia : trivia ('/' :: '*' :: cs) =
                ('/' :: '*' :: (skip true cs).1, (skip true cs).2) := rfl
            rw [htrivia]
            rcases skip_inside cs with ⟨inside, rest, rfl, hfirst, hrest⟩ | ⟨hopen, hrest⟩
            · -- behind the comment the trivia go on
              rw [hrest]
              rcases ih rest.length (by simp; omega) rest rfl with
                hgap | ⟨gap, comment, heq, hgap, hcomment⟩
              · exact .inl (.comment hfirst hgap)
              · rw [trivia] at heq
                refine .inr ⟨_, comment, ?_, .comment hfirst hgap, hcomment⟩
                rw [heq]
                simp
            · rw [hrest]
              exact .inr ⟨[], _, rfl, .nil, .block hopen⟩
          · have hstarts : Starts (c :: cs) := by
              refine starts_cons_iff.2 ⟨by simpa using hblank, ?_⟩
              rintro rfl
              exact ⟨fun h => hline ⟨rfl, h⟩, fun h => hblock ⟨rfl, h⟩⟩
            rw [hstarts]
            exact .inl .nil

theorem gap_of_trivia {cs gap rest : List Char} (h : trivia cs = (gap, rest)) (hrest : rest ≠ []) :
    Gap gap := by
  rcases trivia_cases cs with hgap | ⟨_, _, heq, -⟩
  · rwa [h] at hgap
  · rw [h] at heq
    exact absurd (Prod.mk.inj heq).2 hrest

theorem tail_of_trivia {cs : List Char} (h : (trivia cs).2 = []) : Tail cs := by
  have hcs := trivia_append cs
  rw [h, List.append_nil] at hcs
  rcases trivia_cases cs with hgap | ⟨gap, comment, heq, hgap, hcomment⟩
  · rw [hcs] at hgap
    exact .gap hgap
  · rw [heq] at hcs
    rw [← hcs]
    exact .comment hgap hcomment

theorem Gap.isDigit_getLast {gap : List Char} (h : Gap gap) {c : Char} (hc : gap.getLast? = some c) :
    c.isDigit = false := by
  induction h with
  | nil => cases hc
  | @blank b cs hb _ ih =>
    cases cs with
    | nil =>
      obtain rfl := Option.some.inj hc
      exact isDigit_of_breaks (by simp [breaks, hb])
    | cons d cs => exact ih (by rwa [List.getLast?_cons_cons] at hc)
  | @comment inside cs _ _ ih =>
    have hlast : ('/' :: '*' :: (inside ++ '*' :: '/' :: cs)).getLast? = ('/' :: cs).getLast? := by
      rw [show '/' :: '*' :: (inside ++ '*' :: '/' :: cs) =
        '/' :: '*' :: (inside ++ ['*']) ++ '/' :: cs by simp, List.getLast?_append]
      simp [List.getLast?_cons]
    rw [hlast] at hc
    cases cs with
    | nil =>
      obtain rfl := Option.some.inj hc
      decide
    | cons d cs => exact ih (by rwa [List.getLast?_cons_cons] at hc)

/-! ## How a kind is written -/

/-- The text is a number of that value: digits, maybe a point with more digits, and
maybe a suffix. The digits go on as far as they can and are read as the value. -/
def IsNumber (value : Float) (text rest : List Char) : Prop :=
  ∃ whole part letter, text = whole ++ part ++ letter ∧ Decimal.Digits whole ∧
    (part = [] ∨ ∃ fraction, part = '.' :: fraction ∧ Decimal.Digits fraction) ∧
    (letter = [] ∨ ∃ c ∈ suffixes, letter = [c]) ∧
    Decimal.read? (String.ofList (whole ++ part)) = some value ∧
    ∀ c ∈ (letter ++ rest).head?, c.isDigit = false

/-- The text is a word, which goes on as far as it can. -/
def IsWord (text rest : List Char) : Prop :=
  ∃ c cs, text = c :: cs ∧ startsWord c = true ∧ (∀ d ∈ cs, continuesWord d = true) ∧
    ∀ d ∈ rest.head?, continuesWord d = false

/-- The text, with `rest` behind it, is what a token of the kind is written as. All
but numbers are written as they are shown. -/
structure Spelled (kind : Kind) (text rest : List Char) : Prop where
  shown : (∀ x, kind ≠ .number x) → text = kind.shown.toList
  number : ∀ x, kind = .number x → IsNumber x text rest
  word : kind.isWord = true → IsWord text rest

theorem fraction_cases (cs : List Char) :
    (fraction cs).1 = [] ∨ ∃ ds, (fraction cs).1 = '.' :: ds ∧ Decimal.Digits ds := by
  fun_cases fraction cs with
  | case1 => exact .inl rfl
  | case2 cs hne =>
    exact .inr ⟨_, rfl, hne, List.all_eq_true.1 List.all_takeWhile⟩
  | case3 => exact .inl rfl

theorem isDigit_head_fraction {cs : List Char} (h : ∀ c ∈ cs.head?, c.isDigit = false) :
    ∀ c ∈ (fraction cs).2.head?, c.isDigit = false := by
  fun_cases fraction cs with
  | case1 => exact h
  | case2 => exact of_mem_head?_dropWhile
  | case3 => exact h

theorem suffix_cases (cs : List Char) :
    (suffix cs).1 = [] ∨ ∃ c ∈ suffixes, (suffix cs).1 = [c] := by
  fun_cases suffix cs with
  | case1 c cs hc => exact .inr ⟨c, hc, rfl⟩
  | case2 => exact .inl rfl
  | case3 => exact .inl rfl

theorem isNumber_number {c : Char} (cs : List Char) (h : c.isDigit = true) :
    ∃ x, (number (c :: cs)).kind = .number x ∧
      IsNumber x (number (c :: cs)).text (number (c :: cs)).rest := by
  have hwhole : Decimal.Digits ((c :: cs).takeWhile Char.isDigit) :=
    ⟨by simp [h], List.all_eq_true.1 List.all_takeWhile⟩
  have hpart := fraction_cases ((c :: cs).dropWhile Char.isDigit)
  refine ⟨_, rfl, _, _, _, rfl, hwhole, hpart, suffix_cases _, Decimal.read?_digits hwhole hpart, ?_⟩
  have hend := isDigit_head_fraction (@of_mem_head?_dropWhile Char Char.isDigit (c :: cs))
  rwa [← suffix_append (fraction ((c :: cs).dropWhile Char.isDigit)).2] at hend

theorem IsNumber.isDigit_head {x : Float} {c : Char} {text rest : List Char}
    (h : IsNumber x (c :: text) rest) : c.isDigit = true := by
  obtain ⟨whole, part, letter, htext, hwhole, -⟩ := h
  obtain ⟨d, ds, rfl⟩ := List.exists_cons_of_ne_nil hwhole.ne_nil
  obtain ⟨rfl, -⟩ := List.cons.inj htext
  exact hwhole.isDigit c List.mem_cons_self

theorem isWord_word {c : Char} (cs : List Char) (h : startsWord c = true) :
    IsWord (word (c :: cs)).text (word (c :: cs)).rest := by
  refine ⟨c, cs.takeWhile continuesWord, ?_, h, List.all_eq_true.1 List.all_takeWhile,
    of_mem_head?_dropWhile⟩
  simp [word, continuesWord_of_startsWord h]

theorem shown_ofWord (name : String) : (Kind.ofWord name).shown = name := by
  unfold Kind.ofWord
  cases hlookup : Kind.keywords.lookup name with
  | none => rfl
  | some kind =>
    have hkeywords : ∀ entry ∈ Kind.keywords, entry.2.shown = entry.1 := by decide
    obtain ⟨before, after, heq, -⟩ := List.lookup_eq_some_iff.1 hlookup
    exact hkeywords (name, kind) (by rw [heq]; simp)

theorem ofWord_ne_number (name : String) (x : Float) : Kind.ofWord name ≠ .number x := by
  unfold Kind.ofWord
  cases hlookup : Kind.keywords.lookup name with
  | none => nofun
  | some kind =>
    have hkeywords : ∀ entry ∈ Kind.keywords, entry.2.isKeyword = true := by decide
    obtain ⟨before, after, heq, -⟩ := List.lookup_eq_some_iff.1 hlookup
    have := hkeywords (name, kind) (by rw [heq]; simp)
    rintro rfl
    cases this

/-- Symbols are neither numbers nor words. -/
theorem spelled_symbol (c : Char) (cs : List Char) :
    Spelled (symbol c cs).kind (symbol c cs).text (symbol c cs).rest := by
  have hword : ∀ s ∈ symbols, s.2.isWord = false := by decide
  have hnumber (x : Float) : ∀ s ∈ symbols, s.2 ≠ .number x := by simp [symbols]
  unfold symbol
  split
  · next spelling kind hfind =>
    have hmem := List.mem_of_find?_eq_some hfind
    refine ⟨fun _ => ?_, fun x hx => absurd hx (hnumber x _ hmem), fun h => ?_⟩
    · simp only
      rw [shown_of_mem_symbols _ hmem, String.toList_ofList]
    · rw [hword _ hmem] at h
      cases h
  · exact ⟨fun _ => by simp [Kind.shown], nofun, nofun⟩

/-- A lexeme is written as its kind says. -/
theorem spelled_of_lexeme {c : Char} {cs : List Char} {l : Lexeme} (h : lexeme c cs = .ok l) :
    Spelled l.kind l.text l.rest := by
  rcases lexeme_cases h with ⟨quote, inside, -, hl⟩ | ⟨hd, rfl⟩ | ⟨-, hw, rfl⟩ | ⟨-, rfl⟩
  · unfold literal at hl
    split at hl
    · obtain rfl := Except.ok.inj hl
      exact ⟨fun _ => by simp [Kind.shown], nofun, nofun⟩
    · cases hl
  · obtain ⟨x, hx, hnumber⟩ := isNumber_number cs hd
    refine ⟨fun hne => absurd hx (hne x), fun y hy => ?_, nofun⟩
    obtain rfl := Kind.number.inj (hx.symm.trans hy)
    exact hnumber
  · refine ⟨fun _ => ?_, fun x hx => absurd hx (ofWord_ne_number _ x), fun _ => ?_⟩
    · simp [word, shown_ofWord]
    · exact isWord_word cs hw
  · exact spelled_symbol c cs

/-! ## Digits side by side -/

theorem isDigit_of_mem_symbol {c d : Char} {cs : List Char} (hc : c.isDigit = false)
    (h : d ∈ (symbol c cs).text) : d.isDigit = false := by
  have hall : ∀ d ∈ symbols.flatMap (·.1), d.isDigit = false :=
    List.all_iff_forall_prop.1 (by decide)
  unfold symbol at h
  split at h
  · next spelling kind hfind =>
    exact hall d (List.mem_flatMap.2 ⟨_, List.mem_of_find?_eq_some hfind, h⟩)
  · rw [List.mem_singleton.1 h]
    exact hc

/-- Behind a lexeme that ends in a digit the digits do not go on. -/
theorem isDigit_head_rest {c d : Char} {cs : List Char} {l : Lexeme} (h : lexeme c cs = .ok l)
    (hlast : l.text.getLast? = some d) (hd : d.isDigit = true) :
    ∀ e ∈ l.rest.head?, e.isDigit = false := by
  have hspelled := spelled_of_lexeme h
  rcases lexeme_cases h with ⟨quote, inside, -, hl⟩ | ⟨hc, rfl⟩ | ⟨-, -, rfl⟩ | ⟨hplain, rfl⟩
  · obtain ⟨raw, htext, -⟩ := literal_of_rest hl []
    rw [htext, List.getLast?_concat] at hlast
    obtain rfl := Option.some.inj hlast
    cases quote <;> exact absurd hd (by decide)
  · obtain ⟨x, -, whole, part, letter, htext, -, -, hletter, -, hend⟩ := isNumber_number cs hc
    rcases hletter with rfl | ⟨e, he, rfl⟩
    · exact hend
    · -- a suffix is no digit
      have hsuffixes : ∀ e ∈ suffixes, e.isDigit = false := List.all_iff_forall_prop.1 (by decide)
      rw [htext, List.getLast?_concat] at hlast
      obtain rfl := Option.some.inj hlast
      rw [hsuffixes e he] at hd
      cases hd
  · intro e he
    cases hdigit : e.isDigit with
    | false => rfl
    | true =>
      have hstop := @of_mem_head?_dropWhile Char continuesWord (c :: cs) e he
      rw [continuesWord_of_isDigit hdigit] at hstop
      cases hstop
  · rw [isDigit_of_mem_symbol hplain.no_digit (List.mem_of_getLast? hlast)] at hd
    cases hd

theorem Reads.isDigit_head_rest {rest used : List Char} {start : Nat} {ts : List Token}
    (h : Reads rest start ts used) {d : Char} (hlast : used.getLast? = some d)
    (hd : d.isDigit = true) : ∀ e ∈ rest.head?, e.isDigit = false := by
  induction h with
  | nil => cases hlast
  | @cons start blanks t used c kind ts _ hl _ ih =>
    rw [List.getLast?_append, List.getLast?_append] at hlast
    cases used with
    | nil => exact Lexer.isDigit_head_rest hl (by simpa using hlast) hd
    | cons e used => exact ih (by simpa [List.getLast?_cons] using hlast)

/-! ## The place of a token -/

/-- The token stands behind byte `last` of the line and a gap. The text of its span is
what a token of its kind is written as; no digit stands in front of a number. -/
def Stands (line : String) (last : Nat) (t : Token) : Prop :=
  ∃ before gap text after, line.toList = before ++ gap ++ text ++ after ∧
    byteCount before = last ∧ t.span = ⟨byteCount (before ++ gap), byteCount (before ++ gap ++ text)⟩ ∧
    t.span.slice line = String.ofList text ∧ Gap gap ∧ text ≠ [] ∧ Spelled t.kind text after ∧
    ∀ x, t.kind = .number x → ∀ c ∈ (before ++ gap).getLast?, c.isDigit = false

theorem Reads.endByte {rest used : List Char} {ts : List Token} (h : Reads rest 0 ts used) :
    endByte ts = byteCount used := by
  unfold SnippetConsole.endByte
  cases hlast : ts.getLast? with
  | none =>
    obtain rfl := List.getLast?_eq_none_iff.1 hlast
    cases h
    rfl
  | some t => simp [h.stop_getLast hlast]

theorem Reads.stands {rest used : List Char} {line : String} {pre post : List Token} {t : Token}
    (h : Reads rest 0 (pre ++ t :: post) used) (hline : line.toList = used ++ rest) :
    Stands line (SnippetConsole.endByte pre) t := by
  obtain ⟨before, v, rfl, hpre, hpost⟩ := h.split
  rw [hpre.endByte]
  cases hpost with
  | @cons _ gap text used c kind ts ht hl _ =>
    have hgap : Gap gap := gap_of_trivia ht (by simp)
    have htext : line.toList = before ++ gap ++ c :: text ++ (used ++ rest) := by
      rw [hline]
      simp
    have hspelled := spelled_of_lexeme hl
    refine ⟨before, gap, c :: text, used ++ rest, htext, rfl, ?_, ?_, hgap,
      List.cons_ne_nil c text, hspelled, ?_⟩
    · simp [Nat.add_assoc]
    · have hslice := Span.slice_append (before ++ gap) (c :: text) (used ++ rest)
      rwa [← htext, String.ofList_toList, byteCount_append, ← Nat.zero_add (byteCount before)]
        at hslice
    · intro x hx d hd
      have hc := (hspelled.number x hx).isDigit_head
      cases gap with
      | nil =>
        rw [List.append_nil] at hd
        cases hdigit : d.isDigit with
        | false => rfl
        | true => exact absurd hc (by simp [hpre.isDigit_head_rest hd hdigit c rfl])
      | cons b gap =>
        rw [List.getLast?_append] at hd
        exact hgap.isDigit_getLast (by simpa [List.getLast?_cons] using hd)

theorem Reads.increasing {rest used : List Char} {start : Nat} {ts : List Token}
    (h : Reads rest start ts used) : ts.Pairwise fun t u => t.span.stop ≤ u.span.start := by
  induction h with
  | nil => exact .nil
  | cons _ _ h ih => exact .cons (fun u hu => (h.bounds u hu).1) ih

/-! ## Texts that end with their last token -/

theorem eq_nil_of_byteCount {cs : List Char} (h : byteCount cs = 0) : cs = [] := by
  cases cs with
  | nil => rfl
  | cons c cs =>
    have := c.utf8Size_pos
    rw [byteCount_cons] at h
    omega

theorem reads_of_lex {text : String} {ts : List Token} (h : lex text = .ok ts)
    (hend : SnippetConsole.endByte ts = byteCount text.toList) : Reads [] 0 ts text.toList := by
  obtain ⟨used, rest, htext, hreads, -⟩ := reads_of_tokens h
  rw [hreads.endByte, htext, byteCount_append] at hend
  obtain rfl := eq_nil_of_byteCount (show byteCount rest = 0 by omega)
  rw [htext, List.append_nil]
  exact hreads

/-- A text that is one token from end to end is the spelling of the token. -/
theorem spelled_of_lex {text : String} {kind : Kind}
    (h : lex text = .ok [⟨kind, ⟨0, byteCount text.toList⟩⟩]) : Spelled kind text.toList [] := by
  obtain ⟨used, rest, hused, hreads, -⟩ := reads_of_tokens h
  obtain ⟨before, gap, spelling, after, htext, -, hspan, -, -, -, hspelled, -⟩ :=
    @Reads.stands _ _ _ [] [] _ hreads hused
  obtain ⟨hstart, hstop⟩ := Span.mk.inj hspan
  have hfront := eq_nil_of_byteCount hstart.symm
  rw [hfront, List.nil_append] at hstop htext
  rw [htext, byteCount_append] at hstop
  obtain rfl := eq_nil_of_byteCount (show byteCount after = 0 by omega)
  rw [htext, List.append_nil]
  exact hspelled

end Lexer

/-! ## The whole line -/

/-- The tokens lie side by side in the line, each where its span says, with gaps
between them and a tail behind the last. -/
structure Covers (line : String) (ts : List Token) : Prop where
  nonempty : ∀ t ∈ ts, t.span.start < t.span.stop
  increasing : ts.Pairwise fun t u => t.span.stop ≤ u.span.start
  stands : ∀ pre t post, ts = pre ++ t :: post → Lexer.Stands line (endByte pre) t
  tail : ∃ before tail, line.toList = before ++ tail ∧ Text.byteCount before = endByte ts ∧
    Lexer.Tail tail

theorem Lexer.Stands.nonempty {line : String} {last : Nat} {t : Token} (h : Stands line last t) :
    t.span.start < t.span.stop := by
  obtain ⟨before, gap, text, after, -, -, hspan, -, -, hne, -⟩ := h
  obtain ⟨c, cs, rfl⟩ := List.exists_cons_of_ne_nil hne
  have := c.utf8Size_pos
  simp only [hspan, Text.byteCount_append, Text.byteCount_cons]
  omega

/-- The tokens of a line cover it. -/
theorem covers_of_lex {line : String} {ts : List Token} (h : lex line = .ok ts) :
    Covers line ts := by
  obtain ⟨used, rest, htext, hreads, htail⟩ := Lexer.reads_of_tokens h
  have hstands : ∀ pre t post, ts = pre ++ t :: post → Lexer.Stands line (endByte pre) t := by
    rintro pre t post rfl
    exact hreads.stands htext
  refine ⟨?_, hreads.increasing, hstands, used, rest, htext, hreads.endByte.symm,
    Lexer.tail_of_trivia htail⟩
  intro t ht
  obtain ⟨pre, post, heq⟩ := List.append_of_mem ht
  exact (hstands pre t post heq).nonempty

/-- A comment between two tokens, with a character of two bytes in it, and a comment
behind the last token. -/
theorem covers_of_lex_comment :
    let ts : List Token := [⟨.word "x", ⟨0, 1⟩⟩, ⟨.update .add, ⟨10, 12⟩⟩, ⟨.word "b", ⟨13, 14⟩⟩,
      ⟨.semicolon, ⟨14, 15⟩⟩]
    lex "x/* é */ += b; // a" = .ok ts ∧ Covers "x/* é */ += b; // a" ts := by
  intro ts
  have hlex : lex "x/* é */ += b; // a" = .ok ts := by cbv
  exact ⟨hlex, covers_of_lex hlex⟩

end SnippetConsole
