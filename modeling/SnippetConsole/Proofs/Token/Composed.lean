import SnippetConsole.Proofs.Token.Cover
import SnippetConsole.Proofs.Token.Spacing

/-!
# Texts composed of others

A text that leaves no comment open is read, in front of a blank, as the same tokens as
alone, only shifted. So a text composed of such texts with blanks between them, or put in
round brackets, is read as the tokens of these one behind the other.

* `Lexer.Begins` — the kinds that every text with a given beginning starts with.
* `Begins.append`, `Begins.bracket` — texts side by side and in brackets.
* `Lexer.ReadAs` — the kinds that a text is read as, wherever it stands.
* `lex_bracket_cases` — what comes of a closing bracket behind a text.
-/

namespace SnippetConsole

/-- Behind the last token of the line no comment is left open. -/
def EndsClosed (line : String) (ts : List Token) : Prop :=
  ∃ before gap, line.toList = before ++ gap ∧ Text.byteCount before = endByte ts ∧ Lexer.Gap gap

namespace Lexer

open Text

/-! ## Behind a gap -/

/-- A comment ends where it is closed first. -/
theorem skip_of_first {inside : List Char} (h : ¬['*', '/'] <:+: inside ++ ['*'])
    (rest : List Char) : skip true (inside ++ '*' :: '/' :: rest) =
      (inside ++ '*' :: '/' :: (skip false rest).1, (skip false rest).2) := by
  induction inside with
  | nil => simp [skip]
  | cons c inside ih =>
    have hnext : ∀ ds, c = '*' → inside ++ '*' :: '/' :: rest = '/' :: ds → False := by
      rintro ds rfl heq
      cases inside with
      | nil => simp at heq
      | cons d inside =>
        obtain ⟨rfl, -⟩ := List.cons.inj heq
        exact h ⟨[], inside ++ ['*'], rfl⟩
    have hlater := ih fun hmark => h (hmark.trans (List.suffix_cons c _).isInfix)
    rw [List.cons_append, skip.eq_3 _ _ hnext, hlater, List.cons_append]

theorem Gap.trivia_append {gap : List Char} (h : Gap gap) (cs : List Char) :
    trivia (gap ++ cs) = (gap ++ (trivia cs).1, (trivia cs).2) := by
  induction h with
  | nil => rfl
  | blank hc _ ih => rw [List.cons_append, trivia_blank hc, ih, List.cons_append]
  | @comment inside gap hfirst _ ih =>
    have hopen : trivia ('/' :: '*' :: (inside ++ '*' :: '/' :: (gap ++ cs))) =
        ('/' :: '*' :: (skip true (inside ++ '*' :: '/' :: (gap ++ cs))).1,
          (skip true (inside ++ '*' :: '/' :: (gap ++ cs))).2) := rfl
    simp only [List.cons_append, List.append_assoc]
    rw [hopen, skip_of_first hfirst, ← trivia, ih]

theorem OpenComment.trivia_eq {cs : List Char} (h : OpenComment cs) : trivia cs = (cs, []) := by
  cases h with
  | line => rfl
  | @block cs hnever =>
    have hopen : trivia ('/' :: '*' :: cs) =
        ('/' :: '*' :: (skip true cs).1, (skip true cs).2) := rfl
    rw [hopen]
    rcases skip_inside cs with ⟨inside, rest, rfl, -⟩ | ⟨-, hskip⟩
    · exact absurd ⟨inside, rest, by simp⟩ hnever
    · rw [hskip]

/-! ## Beginnings -/

/-- A text that begins with `cs` starts with tokens of these kinds, whatever breaks off
behind it. -/
def Begins (cs : List Char) (ks : List Kind) : Prop :=
  ∀ start later, Follows [] later → ∃ ts, ts.map Token.kind = ks ∧
    tokens start (cs ++ later) = (tokens (start + byteCount cs) later).map (ts ++ ·)

/-- The text is read as tokens of these kinds, wherever it stands. -/
def ReadAs (cs : List Char) (ks : List Kind) : Prop :=
  ∀ start, ∃ ts, tokens start cs = .ok ts ∧ ts.map Token.kind = ks

theorem kind_comp_shift (n : Nat) : Token.kind ∘ Token.shift n = Token.kind := rfl

theorem begins_of_lex {line : String} {ts : List Token} (h : lex line = .ok ts)
    (hclosed : EndsClosed line ts) : Begins line.toList (ts.map Token.kind) := by
  obtain ⟨used, rest, htext, hreads, -⟩ := reads_of_tokens h
  obtain ⟨before, gap, htext', hbefore, hgap⟩ := hclosed
  -- both cut the line where its last token ends
  have hcut := splitAtByte?_byteCount used rest
  rw [← htext, htext', ← hreads.endByte, ← hbefore, splitAtByte?_byteCount] at hcut
  obtain ⟨rfl, rfl⟩ := Prod.mk.inj (Option.some.inj hcut)
  intro start later hlater
  refine ⟨ts.map (Token.shift start), by rw [List.map_map, kind_comp_shift], ?_⟩
  have hfollows := hlater.append gap
  rw [List.append_nil] at hfollows
  have hshifted := (hreads.of_follows hfollows).shift start
  rw [Nat.zero_add] at hshifted
  rw [htext, List.append_assoc, hshifted.tokens,
    tokens_append_of_trivia (hgap.trivia_append later), byteCount_append, Nat.add_assoc]

theorem readAs_of_lex {line : String} {ts : List Token} (h : lex line = .ok ts) :
    ReadAs line.toList (ts.map Token.kind) := by
  obtain ⟨used, rest, htext, hreads, htail⟩ := reads_of_tokens h
  intro start
  refine ⟨ts.map (Token.shift start), ?_, by rw [List.map_map, kind_comp_shift]⟩
  have hshifted := hreads.shift start
  rw [Nat.zero_add] at hshifted
  rw [htext, hshifted.tokens, tokens_of_trivia htail]
  simp [Except.map]

theorem ReadAs.lex {line : String} {ks : List Kind} (h : ReadAs line.toList ks) :
    ∃ ts, SnippetConsole.lex line = .ok ts ∧ ts.map Token.kind = ks := h 0

theorem follows_blank (cs : List Char) : Follows [] (' ' :: cs) := .broken (by decide)

section

variable {cs ds : List Char} {ks ls : List Kind}

theorem ReadAs.blank (h : ReadAs cs ks) : ReadAs (' ' :: cs) ks := by
  intro start
  rw [tokens_blank (by decide)]
  exact h _

theorem Begins.readAs (h : Begins cs ks) : ReadAs cs ks := by
  intro start
  obtain ⟨ts, rfl, hts⟩ := h start [] .done
  have hend : tokens (start + byteCount cs) [] = .ok [] := tokens_of_trivia rfl
  rw [List.append_nil, hend] at hts
  refine ⟨ts, ?_, rfl⟩
  rw [hts]
  simp [Except.map]

theorem Begins.readAs_append (h : Begins cs ks) (h' : ReadAs ds ls) :
    ReadAs (cs ++ ' ' :: ds) (ks ++ ls) := by
  intro start
  obtain ⟨ts, rfl, hts⟩ := h start _ (follows_blank ds)
  obtain ⟨us, hus, rfl⟩ := h'.blank (start + byteCount cs)
  refine ⟨ts ++ us, ?_, List.map_append⟩
  rw [hts, hus]
  rfl

theorem Begins.append (h : Begins cs ks) (h' : Begins ds ls) :
    Begins (cs ++ ' ' :: ds) (ks ++ ls) := by
  intro start later hlater
  obtain ⟨ts, rfl, hts⟩ := h start _ (follows_blank (ds ++ later))
  obtain ⟨us, rfl, hus⟩ := h' (start + byteCount cs + ' '.utf8Size) later hlater
  refine ⟨ts ++ us, List.map_append, ?_⟩
  rw [List.append_assoc, List.cons_append, hts, tokens_blank (by decide), hus, byteCount_append,
    byteCount_cons, ← Nat.add_assoc, ← Nat.add_assoc]
  cases tokens _ later with
  | error e => rfl
  | ok vs => simp [Except.map]

/-! ## Brackets -/

theorem tokens_opening (start : Nat) (cs : List Char) :
    tokens start ('(' :: cs) =
      (tokens (start + 1) cs).map (⟨.opening .round, ⟨start, start + 1⟩⟩ :: ·) := by
  have hstarts : Starts ('(' :: cs) := starts_mark (by decide) cs
  exact (Reads.single hstarts rfl start).tokens

theorem tokens_closing (start : Nat) (cs : List Char) :
    tokens start (')' :: cs) =
      (tokens (start + 1) cs).map (⟨.closing .round, ⟨start, start + 1⟩⟩ :: ·) := by
  have hstarts : Starts (')' :: cs) := starts_mark (by decide) cs
  exact (Reads.single hstarts rfl start).tokens

/-- A bracket breaks off whatever stands before it. -/
theorem Begins.bracket (h : Begins cs ks) :
    Begins ('(' :: (cs ++ [')'])) (.opening .round :: (ks ++ [.closing .round])) := by
  intro start later _
  obtain ⟨ts, rfl, hts⟩ := h (start + 1) (')' :: later) (.broken (by decide))
  refine ⟨⟨.opening .round, ⟨start, start + 1⟩⟩ :: (ts ++
    [⟨.closing .round, ⟨start + 1 + byteCount cs, start + 1 + byteCount cs + 1⟩⟩]), by simp, ?_⟩
  have hbytes : byteCount ('(' :: (cs ++ [')'])) = 1 + byteCount cs + 1 := by
    simp only [byteCount_cons, byteCount_append, byteCount_nil]
    rfl
  have htext : '(' :: (cs ++ [')']) ++ later = '(' :: (cs ++ ')' :: later) := by simp
  rw [htext, tokens_opening, hts, tokens_closing, hbytes, ← Nat.add_assoc, ← Nat.add_assoc]
  cases tokens _ later with
  | error e => rfl
  | ok vs => simp [Except.map]

end

/-- Put in brackets, a text is read as its tokens in brackets; but if it leaves a comment
open, then so it does in brackets, and the closing one is lost. -/
theorem bracket_cases {line : String} {ts : List Token} (h : SnippetConsole.lex line = .ok ts) :
    Begins ('(' :: (line.toList ++ [')']))
        (.opening .round :: (ts.map Token.kind ++ [.closing .round])) ∨
      ReadAs ('(' :: (line.toList ++ [')'])) (.opening .round :: ts.map Token.kind) := by
  obtain ⟨used, rest, htext, hreads, htail⟩ := reads_of_tokens h
  cases tail_of_trivia htail with
  | gap hgap =>
    exact .inl (begins_of_lex h ⟨used, rest, htext, hreads.endByte.symm, hgap⟩).bracket
  | @comment gap cs hgap hcomment =>
    refine .inr fun start => ?_
    have hcomment' : OpenComment (cs ++ [')']) := by
      cases hcomment with
      | line => exact .line
      | @block cs hnever =>
        refine .block fun hmark => hnever ?_
        rcases List.infix_concat_iff.1 hmark with hsuffix | hmark
        · obtain ⟨init, hinit⟩ := hsuffix
          have hlast := congrArg List.getLast? hinit
          simp at hlast
        · exact hmark
    have hfollows : Follows (gap ++ cs) (gap ++ cs ++ [')']) := by
      have hbroken : Follows [] [')'] := .broken (by decide)
      have := hbroken.append (gap ++ cs)
      rwa [List.append_nil] at this
    have hshifted := (hreads.of_follows hfollows).shift (start + 1)
    rw [Nat.zero_add] at hshifted
    have htrivia : (trivia (gap ++ cs ++ [')'])).2 = [] := by
      rw [List.append_assoc, hgap.trivia_append, hcomment'.trivia_eq]
    refine ⟨⟨.opening .round, ⟨start, start + 1⟩⟩ :: ts.map (Token.shift (start + 1)), ?_, ?_⟩
    · rw [htext, List.append_assoc, tokens_opening, hshifted.tokens, tokens_of_trivia htrivia]
      simp [Except.map]
    · rw [List.map_cons, List.map_map, kind_comp_shift]

end Lexer

end SnippetConsole
