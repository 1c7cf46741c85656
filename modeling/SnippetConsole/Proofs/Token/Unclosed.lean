import SnippetConsole.Proofs.Token.Composed
import SnippetConsole.Proofs.Token.Written

/-!
# Literals that are never closed

A line is not read if a literal in it is never closed, and for no other reason. Such a literal
starts where the reader comes to it: behind tokens and a gap, not within another literal or a
comment. Behind its opening each of its marks is taken by a backslash.

* `Lexer.untilMark_eq_none_iff` — a mark that closes a literal is missing.
* `Lexer.Reaches` — the reader of a line comes to a byte at the start of a token.
* `LeavesOpen` — the literal of a line that is never closed.
* `lex_eq_error_iff` — the errors of a line, and where they are reported.
-/

namespace SnippetConsole

namespace Lexer

open Text

/-! ## Texts without a closing mark -/

/-- Every mark in the text is the character that a backslash takes with it. -/
def Unclosed (mark : Char) (cs : List Char) : Prop :=
  ∀ before after, cs = before ++ mark :: after → escapes before = true

section

variable {mark c : Char} {cs : List Char}

theorem unclosed_escape_iff (hmark : mark ≠ '\\') :
    Unclosed mark ('\\' :: c :: cs) ↔ Unclosed mark cs := by
  constructor
  · intro h before after hcs
    rw [← escapes_escape c]
    exact h ('\\' :: c :: before) after (by rw [hcs]; rfl)
  · intro h before after hcs
    cases before with
    | nil => exact absurd (List.cons.inj hcs).1.symm hmark
    | cons d before =>
      obtain ⟨rfl, htail⟩ := List.cons.inj hcs
      cases before with
      | nil => rfl
      | cons d before =>
        obtain ⟨rfl, hlater⟩ := List.cons.inj htail
        rw [escapes_escape]
        exact h before after hlater

theorem unclosed_cons_iff (hc : c ≠ '\\') :
    Unclosed mark (c :: cs) ↔ c ≠ mark ∧ Unclosed mark cs := by
  constructor
  · intro h
    refine ⟨fun heq => ?_, fun before after hcs => ?_⟩
    · have hnone := h [] cs (by rw [heq]; rfl)
      cases hnone
    · rw [← escapes_cons hc]
      exact h (c :: before) after (by rw [hcs]; rfl)
  · rintro ⟨hne, h⟩ before after hcs
    cases before with
    | nil => exact absurd (List.cons.inj hcs).1 hne
    | cons d before =>
      obtain ⟨rfl, htail⟩ := List.cons.inj hcs
      rw [escapes_cons hc]
      exact h before after htail

theorem unclosed_nil : Unclosed mark [] := by
  intro before after hcs
  simp at hcs

theorem unclosed_backslash (hmark : mark ≠ '\\') : Unclosed mark ['\\'] := by
  intro before after hcs
  rcases List.cons_eq_append_iff.1 hcs with ⟨-, heq⟩ | ⟨before, -, heq⟩
  · exact absurd (List.cons.inj heq).1 hmark
  · simp at heq

/-- The closing mark is missing exactly if a backslash takes each mark there is. -/
theorem untilMark_eq_none_iff (hmark : mark ≠ '\\') :
    untilMark mark cs = none ↔ Unclosed mark cs := by
  fun_induction untilMark mark cs with
  | case1 => exact iff_of_true rfl unclosed_nil
  | case2 c cs ih => rw [Option.map_eq_none_iff, ih, unclosed_escape_iff hmark]
  | case3 cs =>
    rw [unclosed_cons_iff hmark]
    simp
  | case4 c cs hesc hc ih =>
    by_cases hback : c = '\\'
    · -- a backslash that takes nothing with it stands last
      subst hback
      cases cs with
      | nil => exact iff_of_true rfl (unclosed_backslash hmark)
      | cons d ds => exact absurd rfl (hesc d ds rfl)
    · rw [Option.map_eq_none_iff, ih, unclosed_cons_iff hback]
      exact (and_iff_right hc).symm

end

theorem literal_eq_error_iff {quote quote' : Quote} {inside : List Char} :
    literal quote inside = .error quote' ↔ quote = quote' ∧ Unclosed quote.mark inside := by
  rw [← untilMark_eq_none_iff quote.mark_ne_backslash, literal]
  split <;> simp_all

/-- The only lexemes that cannot be read are literals without a closing mark. -/
theorem lexeme_eq_error_iff {c : Char} {cs : List Char} {quote : Quote} :
    lexeme c cs = .error quote ↔
      ∃ inside, c :: cs = quote.opener ++ inside ∧ Unclosed quote.mark inside := by
  constructor
  · intro h
    unfold lexeme at h
    split at h
    · obtain ⟨rfl, hopen⟩ := literal_eq_error_iff.1 h
      exact ⟨_, rfl, hopen⟩
    · obtain ⟨rfl, hopen⟩ := literal_eq_error_iff.1 h
      exact ⟨_, rfl, hopen⟩
    · obtain ⟨rfl, hopen⟩ := literal_eq_error_iff.1 h
      exact ⟨_, rfl, hopen⟩
    · split at h
      · cases h
      · split at h <;> cases h
  · rintro ⟨inside, htext, hopen⟩
    rw [lexeme_of_opener htext, literal_eq_error_iff]
    exact ⟨rfl, hopen⟩

/-! ## Where the reader stops -/

/-- The reader of the line `before ++ after` comes to the end of `before`, where a token starts,
with the tokens of `before` read. No comment is left open there. -/
structure Reaches (before after : List Char) (ts : List Token) : Prop where
  lex : SnippetConsole.lex (String.ofList before) = .ok ts
  closed : EndsClosed (String.ofList before) ts
  reads : ∃ used gap, before = used ++ gap ∧ Reads (gap ++ after) 0 ts used ∧
    trivia (gap ++ after) = (gap, after)

/-- What is read with a text behind it is read without it as well. -/
theorem reaches_of_reads {used gap after : List Char} {ts : List Token}
    (h : Reads (gap ++ after) 0 ts used) (ht : trivia (gap ++ after) = (gap, after))
    (hafter : after ≠ []) : Reaches (used ++ gap) after ts := by
  have hgap := gap_of_trivia ht hafter
  have hfollows : Follows (gap ++ after) gap := by
    have hdone : Follows after [] := .done
    have := hdone.append gap
    rwa [List.append_nil] at this
  have halone := h.of_follows hfollows
  have hnone : (trivia gap).2 = [] := by
    have := hgap.trivia_append []
    rw [List.append_nil] at this
    rw [this]
    rfl
  refine ⟨?_, ⟨used, gap, String.toList_ofList, halone.endByte.symm, hgap⟩, used, gap, rfl, h, ht⟩
  rw [SnippetConsole.lex, String.toList_ofList, halone.tokens, tokens_of_trivia hnone]
  simp [Except.map]

/-- Where a literal is never closed the reader reports its start. -/
theorem tokens_of_unclosed {start : Nat} {used gap inside : List Char} {ts : List Token}
    {quote : Quote} (h : Reads (gap ++ (quote.opener ++ inside)) start ts used)
    (ht : trivia (gap ++ (quote.opener ++ inside)) = (gap, quote.opener ++ inside))
    (hopen : Unclosed quote.mark inside) :
    tokens start (used ++ (gap ++ (quote.opener ++ inside))) =
      .error (quote.unclosed (start + byteCount (used ++ gap))) := by
  obtain ⟨c, cs, hcs⟩ : ∃ c cs, quote.opener ++ inside = c :: cs := by
    cases quote <;> exact ⟨_, _, rfl⟩
  have hl : lexeme c cs = .error quote := lexeme_eq_error_iff.2 ⟨inside, hcs.symm, hopen⟩
  rw [h.tokens, tokens]
  split
  · next hnil =>
    rw [ht, hcs] at hnil
    cases hnil
  · next d ds hds =>
    rw [ht, hcs] at hds
    obtain ⟨rfl, rfl⟩ := List.cons.inj hds
    split
    · next quote' hl' =>
      obtain rfl := Except.error.inj (hl.symm.trans hl')
      rw [ht, byteCount_append, Nat.add_assoc]
      rfl
    · next l hl' =>
      rw [hl] at hl'
      cases hl'

/-- Where the reader fails it has come to a literal that is never closed. -/
theorem unclosed_of_tokens {start : Nat} {text : List Char} {e : LexError}
    (h : Lexer.tokens start text = .error e) :
    ∃ used gap inside ts, ∃ quote : Quote, text = used ++ (gap ++ (quote.opener ++ inside)) ∧
      Reads (gap ++ (quote.opener ++ inside)) start ts used ∧
      trivia (gap ++ (quote.opener ++ inside)) = (gap, quote.opener ++ inside) ∧
      Unclosed quote.mark inside ∧
      e = quote.unclosed (start + byteCount (used ++ gap)) := by
  fun_induction Lexer.tokens start text with
  | case1 => cases h
  | case2 =>
    rename_i start text c cs ht first quote hl
    obtain ⟨inside, hcs, hopen⟩ := lexeme_eq_error_iff.1 hl
    have htext := trivia_append text
    rw [ht, hcs] at htext
    refine ⟨[], (trivia text).1, inside, [], quote, htext.symm, .nil, ?_, hopen, ?_⟩
    · rw [htext, ← hcs, ← ht]
    · exact (Except.error.inj h).symm
  | case3 =>
    rename_i start text c cs ht first l hl next ih
    cases hts : Lexer.tokens next l.rest with
    | ok later => rw [hts] at h; cases h
    | error e' =>
      rw [hts] at h
      obtain rfl := Except.error.inj h
      obtain ⟨used, gap, inside, ts, quote, hrest, hreads, htrivia, hopen, rfl⟩ := ih hts
      obtain ⟨htext, hlonger⟩ := Reads.of_lexeme ht hl hrest hreads
      refine ⟨_, gap, inside, _, quote, htext, hlonger, htrivia, hopen, ?_⟩
      simp only [next, first, byteCount_append, Nat.add_assoc]

end Lexer

/-! ## The literal that a line leaves open -/

/-- A literal of the line starts at the byte and is never closed. -/
def LeavesOpen (line : String) (quote : Quote) (start : Nat) : Prop :=
  ∃ before inside ts, line.toList = before ++ (quote.opener ++ inside) ∧
    Text.byteCount before = start ∧ Lexer.Reaches before (quote.opener ++ inside) ts ∧
    Lexer.Unclosed quote.mark inside

theorem exists_leavesOpen_of_lex {line : String} {e : LexError} (h : lex line = .error e) :
    ∃ quote start, LeavesOpen line quote start ∧ e = quote.unclosed start := by
  obtain ⟨used, gap, inside, ts, quote, htext, hreads, htrivia, hopen, rfl⟩ :=
    Lexer.unclosed_of_tokens h
  have hafter : quote.opener ++ inside ≠ [] := by cases quote <;> exact List.cons_ne_nil _ _
  refine ⟨quote, _, ⟨used ++ gap, inside, ts, by rw [htext, List.append_assoc], rfl,
    Lexer.reaches_of_reads hreads htrivia hafter, hopen⟩, by rw [Nat.zero_add]⟩

theorem LeavesOpen.lex_eq {line : String} {quote : Quote} {start : Nat}
    (h : LeavesOpen line quote start) : lex line = .error (quote.unclosed start) := by
  obtain ⟨before, inside, ts, htext, rfl, hreaches, hopen⟩ := h
  obtain ⟨used, gap, rfl, hreads, htrivia⟩ := hreaches.reads
  rw [lex, htext, List.append_assoc, Lexer.tokens_of_unclosed hreads htrivia hopen, Nat.zero_add]

/-- A line cannot be read exactly if it leaves a literal open, and the error says where that
literal starts: a string, interpolated or not, or a character. All other lines are read. -/
theorem lex_eq_error_iff (line : String) :
    (∀ start, lex line = .error (.unclosedString start) ↔
      LeavesOpen line .string start ∨ LeavesOpen line .interpolated start) ∧
    (∀ start, lex line = .error (.unclosedCharacter start) ↔ LeavesOpen line .character start) ∧
    ((∃ ts, lex line = .ok ts) ↔ ∀ quote start, ¬LeavesOpen line quote start) := by
  refine ⟨fun start => ⟨fun h => ?_, ?_⟩, fun start => ⟨fun h => ?_, fun h => h.lex_eq⟩,
    fun ⟨ts, hlex⟩ quote start h => ?_, fun hnone => ?_⟩
  · obtain ⟨quote, start, hopen, heq⟩ := exists_leavesOpen_of_lex h
    cases quote with
    | string =>
      cases heq
      exact .inl hopen
    | interpolated =>
      cases heq
      exact .inr hopen
    | character => cases heq
  · rintro (h | h)
    · exact h.lex_eq
    · exact h.lex_eq
  · obtain ⟨quote, start, hopen, heq⟩ := exists_leavesOpen_of_lex h
    cases quote with
    | character =>
      cases heq
      exact hopen
    | string | interpolated => cases heq
  · rw [h.lex_eq] at hlex
    cases hlex
  · cases hlex : lex line with
    | ok ts => exact ⟨ts, rfl⟩
    | error e =>
      obtain ⟨quote, start, hopen, -⟩ := exists_leavesOpen_of_lex hlex
      exact absurd hopen (hnone quote start)

/-- Neither the quote in the comment nor those of the first literal count. -/
example : lex "/* \" */ \"a\" + \"b\\\"" = .error (.unclosedString 14) := by cbv

end SnippetConsole
