import SnippetConsole.Proofs.Run.Noise
import SnippetConsole.Proofs.Statement.FirstToken
import SnippetConsole.Proofs.Statement.SourceText

/-!
# What is lost with a line of noise

Noise is told by the start of a line. What starts there is no statement, but for
a reserved word that is used as a name; statements behind a comment, or behind the
first semicolon, are passed over together with the line.

* `NoiseParts` — the lines of noise, and what they may hold.
* `noiseParts_of_isNoise` — every line of noise that is read is one of them.
-/

namespace SnippetConsole

open Text Lexer

/-- The tokens of a line of noise. -/
inductive NoiseParts (line : String) (ts : List Token) : Prop
  /-- A blank line, a lone brace, a line comment, or a block comment that is not
  closed. -/
  | nothing : line = "" ∨ line.toList ∈ Noise.braces ∨ ['/', '/'] <+: line.toList ∨
        (∃ inside, line.toList = '/' :: '*' :: inside ∧ ¬['*', '/'] <:+: inside) →
      statementRuns ts = [] → NoiseParts line ts
  /-- A block comment that is closed: the statements are those of the text behind
  it. -/
  | comment {inside rest : List Char} {us : List Token} :
      line.toList = '/' :: '*' :: (inside ++ '*' :: '/' :: rest) →
      ¬['*', '/'] <:+: inside ++ ['*'] →
      lex (String.ofList rest) = .ok us →
      (statementRuns ts).map (classify line) =
        (statementRuns us).map (classify (String.ofList rest)) →
      NoiseParts line ts
  /-- A line that goes on with a comment: its first part is no statement. -/
  | star {run : List Token} {runs : List (List Token)} :
      line.toList.head? = some '*' → statementRuns ts = run :: runs →
      classify line run = .unrecognized → NoiseParts line ts
  /-- A reserved word: its first part is a statement at most about that word. -/
  | word {span : Span} {run : List Token} {runs : List (List Token)} :
      firstWord line.toList ∈ Noise.reserved →
      statementRuns ts = (⟨.word (firstWord line.toList), span⟩ :: run) :: runs →
      (classify line (⟨.word (firstWord line.toList), span⟩ :: run)).StartsWith
        (.word (firstWord line.toList)) →
      NoiseParts line ts

/-! ## Comments -/

theorem noiseParts_of_lineComment {cs : List Char} {ts : List Token}
    (hlex : lex (String.ofList ('/' :: '/' :: cs)) = .ok ts) :
    NoiseParts (String.ofList ('/' :: '/' :: cs)) ts := by
  rw [lex, String.toList_ofList, tokens_of_trivia rfl] at hlex
  obtain rfl := Except.ok.inj hlex
  refine .nothing (.inr (.inr (.inl ?_))) rfl
  rw [String.toList_ofList]
  exact ⟨cs, rfl⟩

theorem noiseParts_of_blockComment {cs : List Char} {ts : List Token}
    (hlex : lex (String.ofList ('/' :: '*' :: cs)) = .ok ts) :
    NoiseParts (String.ofList ('/' :: '*' :: cs)) ts := by
  have hskip : trivia ('/' :: '*' :: cs) =
      ('/' :: '*' :: (skip true cs).1, (skip true cs).2) := rfl
  rcases skip_inside cs with ⟨inside, rest, rfl, hfirst, hrest⟩ | ⟨hopen, hrest⟩
  · -- the comment is trivia, so the text behind it is read as if it stood alone
    obtain ⟨before, hbefore⟩ : ∃ before, before = '/' :: '*' :: (inside ++ ['*', '/']) :=
      ⟨_, rfl⟩
    have hchars : '/' :: '*' :: (inside ++ '*' :: '/' :: rest) = before ++ rest := by
      simp [hbefore]
    have htrivia : trivia (before ++ rest) = (before ++ (trivia rest).1, (trivia rest).2) := by
      rw [← hchars, hskip, hrest, hbefore]
      simp [trivia]
    rw [lex, String.toList_ofList, hchars, tokens_append_of_trivia htrivia, Nat.zero_add] at hlex
    obtain ⟨us, hus, rfl⟩ := exists_lex_of_tokens hlex
    refine .comment (String.toList_ofList) hfirst hus ?_
    rw [statementRuns_map (Token.kind_shift (byteCount before)), List.map_map]
    refine List.map_congr_left fun run hrun => ?_
    have := classify_moved hus (isInfix_of_mem_statementRuns hrun).1 before []
    rwa [String.toList_ofList, List.append_nil, ← hchars] at this
  · rw [hrest] at hskip
    rw [lex, String.toList_ofList, tokens_of_trivia (by rw [hskip])] at hlex
    obtain rfl := Except.ok.inj hlex
    refine .nothing (.inr (.inr (.inr ⟨cs, ?_, hopen⟩))) rfl
    rw [String.toList_ofList]

theorem kind_symbol_star (cs : List Char) :
    (symbol '*' cs).kind = .update .mul ∨ (symbol '*' cs).kind = .operator .mul := by
  cases cs with
  | nil => exact .inr rfl
  | cons d cs =>
    by_cases hd : '=' = d
    · subst hd
      exact .inl rfl
    · right
      simp [symbol, symbols, List.isPrefixOf, hd]

theorem noiseParts_of_star {cs : List Char} {ts : List Token}
    (hlex : lex (String.ofList ('*' :: cs)) = .ok ts) :
    NoiseParts (String.ofList ('*' :: cs)) ts := by
  rw [lex, String.toList_ofList] at hlex
  have hstarts : Starts ('*' :: cs) := starts_cons_iff.2 ⟨by decide, fun h => absurd h (by decide)⟩
  obtain ⟨span, later, rfl⟩ := exists_cons_of_tokens hstarts rfl hlex
  have hstar := kind_symbol_star cs
  have hsemi : (symbol '*' cs).kind ≠ .semicolon := by
    rcases hstar with h | h <;> simp [h]
  have hbrace : Token.isBrace ⟨(symbol '*' cs).kind, span⟩ = false := by
    rcases hstar with h | h <;> simp [Token.isBrace, h]
  obtain ⟨run, runs, hruns⟩ := statementRuns_cons hsemi hbrace later
  refine .star (by rw [String.toList_ofList]; rfl) hruns ?_
  refine classify_eq_unrecognized _ hsemi ?_ ?_ run
  · rcases hstar with h | h <;> simp [h]
  · rcases hstar with h | h <;> simp [h]

/-! ## Braces and words -/

theorem noiseParts_of_brace {cs : List Char} {ts : List Token} (hcs : cs ∈ Noise.braces)
    (hlex : lex (String.ofList cs) = .ok ts) : NoiseParts (String.ofList cs) ts := by
  have hruns : statementRuns ts = [] := by
    simp only [Noise.braces, List.mem_cons, List.not_mem_nil, or_false] at hcs
    rcases hcs with rfl | rfl | rfl
    · have hopen : lex (String.ofList ['\x7b']) = .ok [⟨.opening .curly, ⟨0, 1⟩⟩] := by cbv
      obtain rfl := Except.ok.inj (hlex.symm.trans hopen)
      rfl
    · have hclose : lex (String.ofList ['\x7d']) = .ok [⟨.closing .curly, ⟨0, 1⟩⟩] := by cbv
      obtain rfl := Except.ok.inj (hlex.symm.trans hclose)
      rfl
    · have hclose : lex (String.ofList ['\x7d', ';']) =
          .ok [⟨.closing .curly, ⟨0, 1⟩⟩, ⟨.semicolon, ⟨1, 2⟩⟩] := by cbv
      obtain rfl := Except.ok.inj (hlex.symm.trans hclose)
      rfl
  exact .nothing (.inr (.inl (by rwa [String.toList_ofList]))) hruns

/-- The first word takes all characters that a name would take. -/
theorem takeWhile_continuesWord {cs : List Char}
    (h : ∀ c ∈ (firstWord cs).toList, continuesWord c = true) :
    String.ofList (cs.takeWhile continuesWord) = firstWord cs := by
  rw [firstWord, String.toList_ofList] at h
  -- behind the word there is a blank or nothing, and neither goes on with a name
  have hrest : (cs.dropWhile (!isBlank ·)).takeWhile continuesWord = [] := by
    have hblank := List.head?_dropWhile_not (!isBlank ·) cs
    cases hd : cs.dropWhile (!isBlank ·) with
    | nil => rfl
    | cons d ds =>
      rw [hd] at hblank
      simp only [List.head?_cons, Bool.not_eq_false'] at hblank
      rw [List.takeWhile_cons_of_neg (by simp [continuesWord_of_isBlank hblank])]
  have hsplit : cs = cs.takeWhile (!isBlank ·) ++ cs.dropWhile (!isBlank ·) :=
    List.takeWhile_append_dropWhile.symm
  conv_lhs => rw [hsplit, List.takeWhile_append_of_pos h, hrest, List.append_nil]
  rfl

/-- A reserved word in front of a line is read as a name. -/
theorem lexeme_of_reserved {c : Char} {cs : List Char} (hc : isBlank c = false)
    (h : firstWord (c :: cs) ∈ Noise.reserved) :
    Starts (c :: cs) ∧ ∃ l, lexeme c cs = .ok l ∧ l.kind = .word (firstWord (c :: cs)) := by
  have hall : ∀ d ∈ Noise.reserved.flatMap String.toList,
      startsWord d = true ∧ d.isDigit = false :=
    List.all_iff_forall_prop.1 (by decide +kernel)
  have hletters (d : Char) (hd : d ∈ (firstWord (c :: cs)).toList) :
      startsWord d = true ∧ d.isDigit = false := hall d (List.mem_flatMap.2 ⟨_, h, hd⟩)
  have hnames : ∀ w ∈ Noise.reserved, Kind.ofWord w = .word w := by decide +kernel
  have hfirst : c ∈ (firstWord (c :: cs)).toList := by
    rw [firstWord, String.toList_ofList, List.takeWhile_cons_of_pos (by simp [hc])]
    exact List.mem_cons_self
  obtain ⟨hstart, hdigit⟩ := hletters c hfirst
  refine ⟨starts_cons_iff.2 ⟨hc, ?_⟩, word (c :: cs), lexeme_of_startsWord hstart hdigit cs, ?_⟩
  · rintro rfl
    exact absurd hstart (by decide)
  · have hword := takeWhile_continuesWord fun d hd => continuesWord_of_startsWord (hletters d hd).1
    rw [word, hword, hnames _ h]

theorem noiseParts_of_reserved {line : String} {c : Char} {cs : List Char} {ts : List Token}
    (hline : line.toList = c :: cs) (hc : isBlank c = false)
    (hword : firstWord line.toList ∈ Noise.reserved) (hlex : lex line = .ok ts) :
    NoiseParts line ts := by
  rw [hline] at hword
  obtain ⟨hstarts, l, hl, hkind⟩ := lexeme_of_reserved hc hword
  rw [lex, hline] at hlex
  rw [← hline] at hword hkind
  obtain ⟨span, later, rfl⟩ := exists_cons_of_tokens hstarts hl hlex
  have hsemi : l.kind ≠ .semicolon := by simp [hkind]
  have hbrace : Token.isBrace ⟨l.kind, span⟩ = false := by simp [Token.isBrace, hkind]
  obtain ⟨run, runs, hruns⟩ := statementRuns_cons hsemi hbrace later
  have hfirst : (classify line (⟨l.kind, span⟩ :: run)).StartsWith l.kind :=
    startsWith_of_classify line hsemi run
  rw [hkind] at hruns hfirst ⊢
  exact .word hword hruns hfirst

/-! ## All lines of noise -/

theorem head_of_trim {c : Char} {cs : List Char} (h : trimChars (c :: cs) = c :: cs) :
    isBlank c = false := by
  cases hc : isBlank c with
  | false => rfl
  | true =>
    have hlength := congrArg List.length h
    rw [trimChars, List.dropWhile_cons_of_pos hc, dropEndWhile_eq] at hlength
    have h₁ := (List.rdropWhile_prefix isBlank (cs.dropWhile isBlank)).length_le
    have h₂ := List.length_dropWhile_le isBlank cs
    simp only [List.length_cons] at hlength
    omega

/-- A line of noise that is read holds nothing, or only what stands behind its
comment, behind its first part, or is about its reserved word. -/
theorem noiseParts_of_isNoise {line : String} {ts : List Token} (htrim : trim line = line)
    (hnoise : isNoise line = true) (hlex : lex line = .ok ts) : NoiseParts line ts := by
  obtain ⟨cs, rfl⟩ : ∃ cs, line = String.ofList cs := ⟨line.toList, String.ofList_toList.symm⟩
  cases cs with
  | nil =>
    rw [lex, String.toList_ofList, tokens_of_trivia rfl] at hlex
    obtain rfl := Except.ok.inj hlex
    exact .nothing (.inl rfl) rfl
  | cons c cs =>
    rw [trim, String.toList_ofList] at htrim
    have hc := head_of_trim (String.ofList_injective htrim)
    rcases isNoise_cases ⟨c, rfl, hc⟩ hnoise with h | h | h
    · unfold Noise.isComment at h
      split at h
      · next heq =>
        rw [heq] at hlex ⊢
        exact noiseParts_of_lineComment hlex
      · next heq =>
        rw [heq] at hlex ⊢
        exact noiseParts_of_blockComment hlex
      · next heq =>
        rw [heq] at hlex ⊢
        exact noiseParts_of_star hlex
      · cases h
    · exact noiseParts_of_brace h hlex
    · exact noiseParts_of_reserved String.toList_ofList hc (by rwa [String.toList_ofList]) hlex

/-- A line that starts with `using` and goes on with a statement. -/
theorem noiseParts_using :
    NoiseParts "using System; x++;"
      [⟨.word "using", ⟨0, 5⟩⟩, ⟨.word "System", ⟨6, 12⟩⟩, ⟨.semicolon, ⟨12, 13⟩⟩,
        ⟨.word "x", ⟨14, 15⟩⟩, ⟨.step .up, ⟨15, 17⟩⟩, ⟨.semicolon, ⟨17, 18⟩⟩] :=
  noiseParts_of_isNoise (by decide +kernel) (by decide +kernel) (by cbv)

/-- A statement behind a comment is lost. -/
theorem exists_recognized_of_isNoise :
    ¬∀ (line : String) (ts : List Token), trim line = line → isNoise line = true →
      lex line = .ok ts → ∀ run ∈ statementRuns ts, classify line run = .unrecognized := by
  intro h
  have hlex : lex "/* c */ x++;" =
      .ok [⟨.word "x", ⟨8, 9⟩⟩, ⟨.step .up, ⟨9, 11⟩⟩, ⟨.semicolon, ⟨11, 12⟩⟩] := by cbv
  have hrun := h _ _ (by decide +kernel) (by decide +kernel) hlex
    [⟨.word "x", ⟨8, 9⟩⟩, ⟨.step .up, ⟨9, 11⟩⟩] (by decide)
  rw [show classify _ _ = .step "x" .up by cbv] at hrun
  cases hrun

end SnippetConsole
