import SnippetConsole.Decimal.Reading
import SnippetConsole.Text.Blank
import SnippetConsole.Text.Numeral
import SnippetConsole.Token.Basic

/-!
# Reading a line as tokens

A line alternates between trivia (blanks and comments) and lexemes. Both
readers hand back what they consumed together with what is left, so nothing of
the line is lost and the span of a token is the range its text occupies. The one
mistake a line can hold is a literal whose closing quote is missing.

* `trivia_append` — trivia and the rest make up the text.
* `lexeme_append` — a lexeme and the rest make up the text, and it is not empty.
-/

namespace SnippetConsole

/-- A line with a literal that is never closed, and the byte at which the
literal starts. -/
inductive LexError
  | unclosedString (start : Nat)
  | unclosedCharacter (start : Nat)
  deriving DecidableEq, Repr

/-- The wording of a lexical error. -/
def LexError.message : LexError → String
  | .unclosedString start => s!"unterminated string literal starting at byte {start}"
  | .unclosedCharacter start => s!"unterminated character literal starting at byte {start}"

/-- The error of a literal that starts at a byte and is never closed. -/
def Quote.unclosed : Quote → Nat → LexError
  | .string => .unclosedString
  | .interpolated => .unclosedString
  | .character => .unclosedCharacter

namespace Lexer

open Text

/-! ## Trivia -/

/-- The trivia at the start of a text, and the rest; `inside` says that the text
starts within a block comment. A line comment, or a block comment that is never
closed, takes the whole rest with it. -/
def skip : (inside : Bool) → List Char → List Char × List Char
  | _, [] => ([], [])
  | true, '*' :: '/' :: cs =>
    let (skipped, rest) := skip false cs
    ('*' :: '/' :: skipped, rest)
  | true, c :: cs =>
    let (skipped, rest) := skip true cs
    (c :: skipped, rest)
  | false, '/' :: '/' :: cs => ('/' :: '/' :: cs, [])
  | false, '/' :: '*' :: cs =>
    let (skipped, rest) := skip true cs
    ('/' :: '*' :: skipped, rest)
  | false, c :: cs =>
    if isBlank c then
      let (skipped, rest) := skip false cs
      (c :: skipped, rest)
    else ([], c :: cs)

theorem skip_append (inside : Bool) (cs : List Char) :
    (skip inside cs).1 ++ (skip inside cs).2 = cs := by
  fun_induction skip inside cs <;> simp_all

/-- Blanks and comments at the start of a text, and the rest. -/
def trivia (cs : List Char) : List Char × List Char := skip false cs

theorem trivia_append (cs : List Char) : (trivia cs).1 ++ (trivia cs).2 = cs :=
  skip_append false cs

/-! ## Lexemes -/

/-- A kind, the text it was read from and the text after it. -/
structure Lexeme where
  kind : Kind
  text : List Char
  rest : List Char

/-- The text up to the closing mark, and the text after the mark. A backslash
takes the next character with it, whatever it is. -/
def untilMark (mark : Char) : List Char → Option (List Char × List Char)
  | [] => none
  | '\\' :: c :: cs => (untilMark mark cs).map fun (raw, rest) => ('\\' :: c :: raw, rest)
  | c :: cs =>
    if c = mark then some ([], cs)
    else (untilMark mark cs).map fun (raw, rest) => (c :: raw, rest)

/-- A literal in quotes, given the text after its opening. -/
def literal (quote : Quote) (cs : List Char) : Except Quote Lexeme :=
  match untilMark quote.mark cs with
  | some (raw, rest) =>
    .ok ⟨.quoted quote (String.ofList raw), quote.opener ++ raw ++ [quote.mark], rest⟩
  | none => .error quote

/-- The letters that may follow a number and say nothing. -/
def suffixes : List Char := ['f', 'F', 'd', 'D', 'm', 'M', 'l', 'L']

/-- A point with the digits after it, if there are any. -/
def fraction : List Char → List Char × List Char
  | '.' :: cs =>
    if cs.takeWhile Char.isDigit = [] then ([], '.' :: cs)
    else ('.' :: cs.takeWhile Char.isDigit, cs.dropWhile Char.isDigit)
  | cs => ([], cs)

/-- One suffix letter, if there is one. -/
def suffix : List Char → List Char × List Char
  | c :: cs => if c ∈ suffixes then ([c], cs) else ([], c :: cs)
  | [] => ([], [])

/-- Digits, a fraction and a suffix. -/
def number (cs : List Char) : Lexeme :=
  let whole := cs.takeWhile Char.isDigit
  let (part, rest) := fraction (cs.dropWhile Char.isDigit)
  let (letter, rest) := suffix rest
  ⟨.number (Decimal.ofDigits whole (part.drop 1)), whole ++ part ++ letter, rest⟩

/-- A keyword or a name. -/
def word (cs : List Char) : Lexeme :=
  let name := cs.takeWhile continuesWord
  ⟨.ofWord (String.ofList name), name, cs.dropWhile continuesWord⟩

/-- The spellings of the fixed kinds; where one begins another, the longer comes
first. -/
def symbols : List (List Char × Kind) :=
  [(['.'], .dot), ([','], .comma), ([';'], .semicolon),
   (['('], .opening .round), ([')'], .closing .round),
   (['['], .opening .square), ([']'], .closing .square),
   (['\x7b'], .opening .curly), (['\x7d'], .closing .curly),
   (['=', '='], .doubleEquals), (['=', '>'], .arrow), (['='], .equals),
   (['+', '+'], .step .up), (['+', '='], .update .add), (['+'], .operator .add),
   (['-', '-'], .step .down), (['-', '='], .update .sub), (['-'], .operator .sub),
   (['*', '='], .update .mul), (['*'], .operator .mul),
   (['/', '='], .update .div), (['/'], .operator .div)]

theorem shown_of_mem_symbols : ∀ s ∈ symbols, s.2.shown = String.ofList s.1 := by
  decide

/-- A symbol, or a single character without meaning. -/
def symbol (c : Char) (cs : List Char) : Lexeme :=
  match symbols.find? fun s => s.1.isPrefixOf (c :: cs) with
  | some (spelling, kind) => ⟨kind, spelling, (c :: cs).drop spelling.length⟩
  | none => ⟨.other c, [c], cs⟩

/-- The lexeme that starts with the character `c`. A dollar sign opens a literal
only right before a quote. -/
def lexeme (c : Char) (cs : List Char) : Except Quote Lexeme :=
  match c, cs with
  | '"', cs => literal .string cs
  | '$', '"' :: cs => literal .interpolated cs
  | '\'', cs => literal .character cs
  | c, cs =>
    if c.isDigit then .ok (number (c :: cs))
    else if startsWord c then .ok (word (c :: cs))
    else .ok (symbol c cs)

/-! ## What a lexeme consumes -/

theorem append_of_untilMark {mark : Char} {cs raw rest : List Char}
    (h : untilMark mark cs = some (raw, rest)) : raw ++ mark :: rest = cs := by
  fun_induction untilMark mark cs generalizing raw rest with
  | case1 => simp at h
  | case2 c cs ih =>
    obtain ⟨⟨raw', rest'⟩, h', he⟩ := Option.map_eq_some_iff.1 h
    obtain ⟨rfl, rfl⟩ := Prod.mk.inj he
    simp [ih h']
  | case3 => simp_all
  | case4 c cs _ _ ih =>
    obtain ⟨⟨raw', rest'⟩, h', he⟩ := Option.map_eq_some_iff.1 h
    obtain ⟨rfl, rfl⟩ := Prod.mk.inj he
    simp [ih h']

theorem fraction_append (cs : List Char) : (fraction cs).1 ++ (fraction cs).2 = cs := by
  fun_cases fraction cs <;> simp [List.takeWhile_append_dropWhile]

theorem suffix_append (cs : List Char) : (suffix cs).1 ++ (suffix cs).2 = cs := by
  fun_cases suffix cs <;> rfl

/-- A lexeme takes its text off the front, and takes at least one character. -/
def Lexeme.Splits (l : Lexeme) (cs : List Char) : Prop := l.text ++ l.rest = cs ∧ l.text ≠ []

theorem splits_literal {quote : Quote} {cs : List Char} {l : Lexeme}
    (h : literal quote cs = .ok l) : l.Splits (quote.opener ++ cs) := by
  unfold literal at h
  split at h
  · next raw rest hm =>
    obtain rfl := Except.ok.inj h
    rw [← append_of_untilMark hm]
    refine ⟨by simp, ?_⟩
    cases quote <;> simp [Quote.opener]
  · cases h

theorem splits_number {c : Char} (cs : List Char) (h : c.isDigit = true) :
    (number (c :: cs)).Splits (c :: cs) := by
  refine ⟨?_, by simp [number, h]⟩
  simp only [number, List.append_assoc, suffix_append, fraction_append,
    List.takeWhile_append_dropWhile]

theorem splits_word {c : Char} (cs : List Char) (h : startsWord c = true) :
    (word (c :: cs)).Splits (c :: cs) := by
  refine ⟨List.takeWhile_append_dropWhile, ?_⟩
  simp [word, continuesWord_of_startsWord h]

theorem splits_symbol (c : Char) (cs : List Char) : (symbol c cs).Splits (c :: cs) := by
  unfold symbol
  split
  · next spelling kind h =>
    have hp := List.find?_some h
    have hm : ∀ s ∈ symbols, s.1 ≠ [] := by decide
    obtain ⟨rest, hr⟩ := List.isPrefixOf_iff_prefix.1 hp
    refine ⟨?_, hm _ (List.mem_of_find?_eq_some h)⟩
    simp only [← hr, List.drop_left]
  · exact ⟨rfl, List.cons_ne_nil _ _⟩

theorem lexeme_append {c : Char} {cs : List Char} {l : Lexeme} (h : lexeme c cs = .ok l) :
    l.text ++ l.rest = c :: cs ∧ l.text ≠ [] := by
  unfold lexeme at h
  split at h
  · exact splits_literal h
  · exact splits_literal h
  · exact splits_literal h
  · split at h
    · next hd => exact Except.ok.inj h ▸ splits_number _ hd
    · split at h
      · next hw => exact Except.ok.inj h ▸ splits_word _ hw
      · exact Except.ok.inj h ▸ splits_symbol _ _

theorem length_rest_lt {text : List Char} {c : Char} {cs : List Char} {l : Lexeme}
    (ht : (trivia text).2 = c :: cs) (h : lexeme c cs = .ok l) :
    l.rest.length < text.length := by
  have h₁ := congrArg List.length (trivia_append text)
  have h₂ := congrArg List.length (lexeme_append h).1
  have h₃ := List.length_pos_iff.2 (lexeme_append h).2
  rw [List.length_append, ht] at h₁
  rw [List.length_append] at h₂
  omega

/-! ## The line -/

/-- The tokens of a text that starts at byte `start` of its line. -/
def tokens (start : Nat) (text : List Char) : Except LexError (List Token) :=
  match _ht : (trivia text).2 with
  | [] => .ok []
  | c :: cs =>
    let first := start + byteCount (trivia text).1
    match _h : lexeme c cs with
    | .error quote => .error (quote.unclosed first)
    | .ok l =>
      let next := first + byteCount l.text
      (tokens next l.rest).map fun later => ⟨l.kind, ⟨first, next⟩⟩ :: later
termination_by text.length
decreasing_by exact length_rest_lt (by assumption) (by assumption)

end Lexer

/-- The tokens of a line. -/
def lex (line : String) : Except LexError (List Token) := Lexer.tokens 0 line.toList

end SnippetConsole
