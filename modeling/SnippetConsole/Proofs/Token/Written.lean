import SnippetConsole.Proofs.Token.Reads

/-!
# Texts that are read as one token

A name is read as a word if nothing goes on with it; a literal is read as its raw
text, whatever the text holds, if each mark in it is escaped.

* `Reads.name`, `Reads.literal` — the tokens of these texts.
* `untilMark_of_escaped`, `escaped_of_untilMark` — a literal ends at the first mark that
  is not escaped.
* `Escaped.append` — escaped texts put together are escaped.
* `Reads.escaped` — the raw texts of literals that were read are escaped.
-/

namespace SnippetConsole

namespace Lexer

open Text

/-! ## One lexeme -/

theorem Reads.lexeme {c : Char} {t rest : List Char} {kind : Kind}
    (hs : Starts (c :: (t ++ rest))) (hl : Lexer.lexeme c (t ++ rest) = .ok ⟨kind, c :: t, rest⟩)
    (start : Nat) :
    Reads rest start [⟨kind, ⟨start, start + byteCount (c :: t)⟩⟩] (c :: t) := by
  have hread : Reads rest start [⟨kind, ⟨start, start + byteCount (c :: t)⟩⟩]
      ([] ++ (c :: t ++ [])) := .cons_of_eq hs hl rfl rfl .nil
  simpa using hread

/-! ## Words -/

/-- A word ends where no character goes on with it. -/
theorem Reads.word {name : String} {c : Char} {cs rest : List Char} (hname : name.toList = c :: cs)
    (hc : startsWord c = true) (hdigit : c.isDigit = false) (hcs : ∀ d ∈ cs, continuesWord d = true)
    (hrest : ∀ d ∈ rest.head?, continuesWord d = false) (start : Nat) :
    Reads rest start [⟨.ofWord name, ⟨start, start + byteCount name.toList⟩⟩] name.toList := by
  have hword : ∀ d ∈ c :: cs, continuesWord d = true :=
    List.forall_mem_cons.2 ⟨continuesWord_of_startsWord hc, hcs⟩
  have hend : rest.takeWhile continuesWord = [] ∧ rest.dropWhile continuesWord = rest := by
    cases rest with
    | nil => exact ⟨rfl, rfl⟩
    | cons d rest => simp [hrest d rfl]
  have hofList : String.ofList (c :: cs) = name := by rw [← hname, String.ofList_toList]
  rw [hname]
  refine .lexeme ?_ ?_ start
  · refine starts_cons_iff.2 ⟨isBlank_of_continuesWord (hword c List.mem_cons_self), ?_⟩
    rintro rfl
    exact absurd hc (by decide)
  · rw [lexeme_of_startsWord hc hdigit, Lexer.word, ← List.cons_append,
      List.takeWhile_append_of_pos hword, List.dropWhile_append_of_pos hword, hend.1, hend.2,
      List.append_nil, hofList]

/-- The text is read as one name wherever no character goes on with it. -/
def isName (name : String) : Bool :=
  match name.toList with
  | [] => false
  | c :: cs =>
    startsWord c && !c.isDigit && cs.all continuesWord && decide (Kind.ofWord name = .word name)

theorem Reads.name {name : String} {rest : List Char} (hname : isName name = true)
    (hrest : ∀ d ∈ rest.head?, continuesWord d = false) (start : Nat) :
    Reads rest start [⟨.word name, ⟨start, start + byteCount name.toList⟩⟩] name.toList := by
  unfold isName at hname
  split at hname
  · cases hname
  · next c cs hcs =>
    simp only [Bool.and_eq_true, Bool.not_eq_true', List.all_eq_true, decide_eq_true_eq] at hname
    obtain ⟨⟨⟨hstart, hdigit⟩, hcontinues⟩, hword⟩ := hname
    have h := Reads.word hcs hstart hdigit hcontinues hrest start
    rwa [hword] at h

/-! ## Literals -/

/-- The text ends in a backslash that takes the next character with it: one that no
backslash before it takes. -/
def escapes (cs : List Char) : Bool := cs.foldl (fun escaped c => !escaped && c == '\\') false

theorem escapes_escape (c : Char) (cs : List Char) : escapes ('\\' :: c :: cs) = escapes cs := rfl

theorem escapes_cons {c : Char} (hc : c ≠ '\\') (cs : List Char) :
    escapes (c :: cs) = escapes cs := by
  have hstart : (!false && c == '\\') = false := by simpa using hc
  rw [escapes, List.foldl_cons, hstart]
  rfl

/-- Every mark in the text is escaped, and the text does not escape what follows. -/
structure Escaped (mark : Char) (cs : List Char) : Prop where
  mark : ∀ before after, cs = before ++ mark :: after → escapes before = true
  last : escapes cs = false

theorem escaped_iff {mark : Char} {cs : List Char} :
    Escaped mark cs ↔
      (∀ n < cs.length, cs[n]? = some mark → escapes (cs.take n) = true) ∧ escapes cs = false := by
  constructor
  · intro h
    refine ⟨fun n hn hmark => h.mark _ (cs.drop (n + 1)) ?_, h.last⟩
    have hget : cs[n] = mark := Option.some.inj ((List.getElem?_eq_getElem hn).symm.trans hmark)
    rw [← hget, ← List.drop_eq_getElem_cons hn, List.take_append_drop]
  · rintro ⟨hmark, hlast⟩
    refine ⟨?_, hlast⟩
    rintro before after rfl
    simpa using hmark before.length (by simp) (by simp)

instance (mark : Char) (cs : List Char) : Decidable (Escaped mark cs) :=
  decidable_of_iff _ escaped_iff.symm

theorem Escaped.of_escape {mark c : Char} {cs : List Char} (h : Escaped mark ('\\' :: c :: cs)) :
    Escaped mark cs where
  mark before after hcs := by
    rw [← escapes_escape c]
    exact h.mark ('\\' :: c :: before) after (by rw [hcs]; rfl)
  last := by
    rw [← escapes_escape c]
    exact h.last

theorem Escaped.of_cons {mark c : Char} {cs : List Char} (hc : c ≠ '\\')
    (h : Escaped mark (c :: cs)) : Escaped mark cs where
  mark before after hcs := by
    rw [← escapes_cons hc]
    exact h.mark (c :: before) after (by rw [hcs]; rfl)
  last := by
    rw [← escapes_cons hc]
    exact h.last

/-- A literal ends at its first mark that is not escaped. -/
theorem untilMark_of_escaped {mark : Char} {cs : List Char} (hmark : mark ≠ '\\')
    (h : Escaped mark cs) (rest : List Char) :
    untilMark mark (cs ++ mark :: rest) = some (cs, rest) := by
  fun_induction untilMark mark cs with
  | case1 =>
    rw [List.nil_append, untilMark.eq_3 _ _ _ fun _ _ he => absurd he hmark, if_pos rfl]
  | case2 c cs ih =>
    show (untilMark mark (cs ++ mark :: rest)).map _ = _
    rw [ih h.of_escape]
    rfl
  | case3 cs => exact absurd (h.mark [] cs rfl) (by decide)
  | case4 c cs hesc hc ih =>
    -- a lone backslash would escape the mark behind the text
    have hback : c ≠ '\\' := by
      rintro rfl
      cases cs with
      | nil => exact absurd h.last (by decide)
      | cons d ds => exact hesc d ds rfl rfl
    rw [List.cons_append, untilMark.eq_3 _ _ _ fun _ _ he => absurd he hback, if_neg hc,
      ih (h.of_cons hback)]
    rfl

/-! ## Escaped texts put together -/

theorem escapes_append {cs : List Char} (h : escapes cs = false) (ds : List Char) :
    escapes (cs ++ ds) = escapes ds := by
  rw [escapes, List.foldl_append, ← escapes, h, ← escapes]

/-- Behind a character that is no backslash nothing is escaped. -/
theorem escapes_concat {c : Char} (hc : c ≠ '\\') (cs : List Char) :
    escapes (cs ++ [c]) = false := by
  rw [escapes, List.foldl_append, List.foldl_cons, List.foldl_nil]
  simp [hc]

theorem Escaped.append {mark : Char} {cs ds : List Char} (hcs : Escaped mark cs)
    (hds : Escaped mark ds) : Escaped mark (cs ++ ds) where
  mark before after heq := by
    rcases List.append_eq_append_iff.1 heq with ⟨between, rfl, hds'⟩ | ⟨between, rfl, hafter⟩
    · rw [escapes_append hcs.last]
      exact hds.mark between after hds'
    · cases between with
      | nil =>
        have hmark := hds.mark [] after hafter.symm
        cases hmark
      | cons c between =>
        obtain ⟨rfl, -⟩ := List.cons.inj hafter
        exact hcs.mark before between rfl
  last := by rw [escapes_append hcs.last, hds.last]

/-- What stands behind an end that escapes nothing. -/
theorem Escaped.of_append {mark : Char} {cs ds : List Char} (h : Escaped mark (cs ++ ds))
    (hcs : escapes cs = false) : Escaped mark ds where
  mark before after heq := by
    rw [← escapes_append hcs]
    exact h.mark (cs ++ before) after (by rw [heq, List.append_assoc])
  last := by rw [← escapes_append hcs, h.last]

theorem escaped_of_not_mem {mark : Char} {cs : List Char} (hmark : mark ∉ cs)
    (hback : '\\' ∉ cs) : Escaped mark cs where
  mark before after heq := absurd (by rw [heq]; simp) hmark
  last := by
    rcases List.eq_nil_or_concat cs with rfl | ⟨init, c, rfl⟩
    · rfl
    · rw [List.concat_eq_append] at hback ⊢
      exact escapes_concat (fun hc => hback (by simp [hc])) init

/-- What is read up to a mark is escaped. -/
theorem escaped_of_untilMark {mark : Char} {cs raw rest : List Char} (hmark : mark ≠ '\\')
    (h : untilMark mark cs = some (raw, rest)) : Escaped mark raw := by
  fun_induction untilMark mark cs generalizing raw rest with
  | case1 => cases h
  | case2 c cs ih =>
    obtain ⟨⟨raw', rest'⟩, h', he⟩ := Option.map_eq_some_iff.1 h
    obtain ⟨rfl, rfl⟩ := Prod.mk.inj he
    have hpair : Escaped mark ['\\', c] := by
      refine ⟨fun before after heq => ?_, rfl⟩
      cases before with
      | nil => exact absurd (List.cons.inj heq).1.symm hmark
      | cons d before =>
        obtain ⟨rfl, heq⟩ := List.cons.inj heq
        cases before with
        | nil => rfl
        | cons e before => simp at heq
    exact hpair.append (ih h')
  | case3 cs =>
    obtain ⟨rfl, -⟩ := Prod.mk.inj (Option.some.inj h)
    exact escaped_of_not_mem List.not_mem_nil List.not_mem_nil
  | case4 c cs hesc hc ih =>
    obtain ⟨⟨raw', rest'⟩, h', he⟩ := Option.map_eq_some_iff.1 h
    obtain ⟨rfl, rfl⟩ := Prod.mk.inj he
    -- a lone backslash at the end would leave no mark behind it
    have hback : c ≠ '\\' := by
      rintro rfl
      cases cs with
      | nil => cases h'
      | cons d ds => exact hesc d ds rfl rfl
    have hsingle : Escaped mark [c] :=
      escaped_of_not_mem (by simpa using Ne.symm hc) (by simpa using Ne.symm hback)
    exact hsingle.append (ih h')

/-- A mark that is escaped stands behind a backslash. -/
theorem Escaped.not_isInfix {mark c : Char} {cs : List Char} (h : Escaped mark cs) (hc : c ≠ '\\') :
    ¬[c, mark] <:+: cs := by
  rintro ⟨before, after, rfl⟩
  have hescapes := h.mark (before ++ [c]) after (by simp)
  rw [escapes_concat hc] at hescapes
  cases hescapes

/-! ## Literals -/

theorem ofWord_ne_quoted (name : String) (quote : Quote) (raw : String) :
    Kind.ofWord name ≠ .quoted quote raw := by
  unfold Kind.ofWord
  cases hlookup : Kind.keywords.lookup name with
  | none => nofun
  | some kind =>
    have hkeywords : ∀ entry ∈ Kind.keywords, entry.2 ≠ .quoted quote raw := by
      simp [Kind.keywords]
    obtain ⟨before, after, heq, -⟩ := List.lookup_eq_some_iff.1 hlookup
    exact hkeywords (name, kind) (by rw [heq]; simp)

/-- The raw text of a literal that was read is escaped. -/
theorem escaped_of_lexeme {c : Char} {cs : List Char} {l : Lexeme} {quote : Quote} {raw : String}
    (h : lexeme c cs = .ok l) (hkind : l.kind = .quoted quote raw) :
    Escaped quote.mark raw.toList := by
  rcases lexeme_cases h with ⟨quote', inside, -, hl⟩ | ⟨-, rfl⟩ | ⟨-, -, rfl⟩ | ⟨-, rfl⟩
  · unfold Lexer.literal at hl
    split at hl
    · next read rest huntil =>
      obtain rfl := Except.ok.inj hl
      obtain ⟨rfl, rfl⟩ := Kind.quoted.inj hkind
      rw [String.toList_ofList]
      exact escaped_of_untilMark quote'.mark_ne_backslash huntil
    · cases hl
  · cases hkind
  · exact absurd hkind (ofWord_ne_quoted _ _ _)
  · have hsymbols : ∀ s ∈ symbols, s.2 ≠ .quoted quote raw := by simp [symbols]
    unfold symbol at hkind
    split at hkind
    · next hfind => exact absurd hkind (hsymbols _ (List.mem_of_find?_eq_some hfind))
    · cases hkind

theorem Reads.escaped {rest used : List Char} {start : Nat} {ts : List Token}
    (h : Reads rest start ts used) {t : Token} {quote : Quote} {raw : String} (ht : t ∈ ts)
    (hkind : t.kind = .quoted quote raw) : Escaped quote.mark raw.toList := by
  induction h with
  | nil => cases ht
  | cons _ hlexeme _ ih =>
    rcases List.mem_cons.1 ht with rfl | ht
    · exact escaped_of_lexeme hlexeme hkind
    · exact ih ht

theorem Reads.literal {quote : Quote} {raw : List Char} (h : Escaped quote.mark raw)
    (rest : List Char) (start : Nat) :
    Reads rest start
      [⟨.quoted quote (String.ofList raw),
        ⟨start, start + byteCount (quote.opener ++ raw ++ [quote.mark])⟩⟩]
      (quote.opener ++ raw ++ [quote.mark]) := by
  have hl : Lexer.literal quote (raw ++ quote.mark :: rest) =
      .ok ⟨.quoted quote (String.ofList raw), quote.opener ++ raw ++ [quote.mark], rest⟩ := by
    rw [Lexer.literal, untilMark_of_escaped quote.mark_ne_backslash h]
  obtain ⟨c, opened, hopen⟩ : ∃ c opened, quote.opener = c :: opened := by
    cases quote <;> exact ⟨_, _, rfl⟩
  have hstart : isBlank c = false ∧ c ≠ '/' := by
    cases quote <;> obtain ⟨rfl, rfl⟩ := List.cons.inj hopen <;> decide
  have htext : c :: (opened ++ raw ++ [quote.mark] ++ rest) =
      quote.opener ++ (raw ++ quote.mark :: rest) := by
    rw [hopen]
    simp
  simp only [hopen, List.cons_append] at hl ⊢
  refine .lexeme (starts_cons_iff.2 ⟨hstart.1, fun h => absurd h hstart.2⟩) ?_ start
  rw [lexeme_of_opener htext, hl]

end Lexer

end SnippetConsole
