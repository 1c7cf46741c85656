import Mathlib.Data.List.Forall2
import SnippetConsole.Proofs.Token.Written

/-!
# Tokens with blanks between them

The text of a token is read as that token wherever it stands, as long as what comes
behind it is nothing or breaks off at once. So the texts of the tokens of a line may
be written with other blanks between them, and the comments left out: they are read
as tokens of the same kinds.

* `Lexer.Alone` — a text that is a token by itself.
* `Lexer.Reads.alone` — the texts of the tokens of a line are.
* `exists_lex_of_spaced` — such texts with blanks between them are read one by one.
-/

namespace SnippetConsole

namespace Lexer

open Text

/-! ## Texts that are tokens by themselves -/

theorem Follows.of_nil {rest other : List Char} (h : Follows [] other) : Follows rest other := by
  cases h with
  | done => exact .done
  | broken hb => exact .broken hb

theorem follows_blanks {gap : List Char} (hne : gap ≠ []) (hgap : ∀ c ∈ gap, isBlank c = true)
    (rest : List Char) : Follows [] (gap ++ rest) := by
  obtain ⟨c, cs, rfl⟩ := List.exists_cons_of_ne_nil hne
  exact .broken (by simp [breaks, hgap c List.mem_cons_self])

/-- The text is read as one token of the kind where nothing goes on with it. -/
def Alone (kind : Kind) (text : List Char) : Prop :=
  ∀ rest start, Follows [] rest →
    Reads rest start [⟨kind, ⟨start, start + byteCount text⟩⟩] text

theorem alone_of_lexeme {c : Char} {cs : List Char} {l : Lexeme} (hs : Starts (c :: cs))
    (hl : lexeme c cs = .ok l) : Alone l.kind l.text := by
  intro rest start hrest
  have hfollows : Follows l.rest rest := hrest.of_nil
  obtain ⟨t, ht, hl'⟩ := lexeme_of_follows hl hfollows
  have hcs : c :: cs = c :: (t ++ l.rest) := by rw [← (lexeme_append hl).1, ht, List.cons_append]
  rw [hcs] at hs
  rw [ht] at hl' ⊢
  exact .lexeme (hs.of_follows (hfollows.append t)) hl' start

theorem Reads.alone {rest used : List Char} {start : Nat} {ts : List Token}
    (h : Reads rest start ts used) {before : List Char} (hbefore : byteCount before = start) :
    ∀ t ∈ ts, Alone t.kind (t.span.slice (String.ofList (before ++ used ++ rest))).toList := by
  induction h generalizing before with
  | nil => simp
  | @cons start blanks text used c kind ts ht hl _ ih =>
    intro t hmem
    rcases List.mem_cons.1 hmem with rfl | hmem
    · have hslice := Span.slice_append (before ++ blanks) (c :: text) (used ++ rest)
      have hstarts : Starts (c :: (text ++ (used ++ rest))) := by
        have := starts_trivia (blanks ++ (c :: text ++ (used ++ rest)))
        rwa [ht] at this
      rw [byteCount_append, hbefore] at hslice
      rw [show before ++ (blanks ++ (c :: text ++ used)) ++ rest =
        before ++ blanks ++ c :: text ++ (used ++ rest) by simp, hslice, String.toList_ofList]
      exact alone_of_lexeme hstarts hl
    · have hcount : byteCount (before ++ blanks ++ c :: text) =
          start + byteCount blanks + byteCount (c :: text) := by
        rw [byteCount_append, byteCount_append, hbefore]
      have halone := ih hcount t hmem
      rwa [show before ++ blanks ++ c :: text ++ used ++ rest =
        before ++ (blanks ++ (c :: text ++ used)) ++ rest by simp] at halone

/-! ## Blanks between them -/

theorem Reads.blanks {rest used : List Char} {start : Nat} {ts : List Token} {gap : List Char}
    (hgap : ∀ c ∈ gap, isBlank c = true) (hts : ts ≠ [])
    (h : Reads rest (start + byteCount gap) ts used) : Reads rest start ts (gap ++ used) := by
  obtain ⟨t, ts, rfl⟩ := List.exists_cons_of_ne_nil hts
  induction gap generalizing start with
  | nil => exact h
  | cons c gap ih =>
    obtain ⟨hc, hgap⟩ := List.forall_mem_cons.1 hgap
    rw [byteCount_cons, ← Nat.add_assoc] at h
    exact (ih hgap h).blank hc

end Lexer

/-- The text is made of the texts in the list, in order, with blanks between any two. -/
inductive Spaced : List (List Char) → List Char → Prop
  | nil : Spaced [] []
  | single {text : List Char} : Spaced [text] text
  | cons {text gap next rest : List Char} {texts : List (List Char)} : gap ≠ [] →
      (∀ c ∈ gap, Text.isBlank c = true) → Spaced (next :: texts) rest →
      Spaced (text :: next :: texts) (text ++ (gap ++ rest))

/-- The same blanks between any two texts. -/
theorem Spaced.intercalate {gap : List Char} (hne : gap ≠ [])
    (hgap : ∀ c ∈ gap, Text.isBlank c = true) (texts : List (List Char)) :
    Spaced texts (gap.intercalate texts) := by
  induction texts with
  | nil => exact .nil
  | cons text texts ih =>
    cases texts with
    | nil =>
      rw [List.intercalate_singleton]
      exact .single
    | cons next texts =>
      rw [List.intercalate_cons_cons, List.append_assoc]
      exact .cons hne hgap ih

namespace Lexer

theorem reads_of_spaced {ts : List Token} {texts : List (List Char)} {used : List Char}
    (hs : Spaced texts used)
    (h : List.Forall₂ (fun t text => Alone t.kind text) ts texts) (start : Nat) :
    ∃ us, us.map Token.kind = ts.map Token.kind ∧ Reads [] start us used := by
  induction hs generalizing ts start with
  | nil =>
    cases h
    exact ⟨[], rfl, .nil⟩
  | single =>
    cases h with
    | cons ht hts =>
      cases hts
      refine ⟨_, ?_, ht [] start .done⟩
      rfl
  | @cons text gap next rest texts hne hgap _ ih =>
    cases h with
    | @cons t _ ts _ ht hts =>
      obtain ⟨us, hkinds, hreads⟩ := ih hts (start + Text.byteCount text + Text.byteCount gap)
      have hus : us ≠ [] := by
        rintro rfl
        cases hts
        cases hkinds
      have hhead := ht (gap ++ rest) start (follows_blanks hne hgap rest)
      rw [← List.append_nil (gap ++ rest)] at hhead
      exact ⟨_, by simp [hkinds], hhead.append (hreads.blanks hgap hus)⟩

end Lexer

/-- The texts of the tokens of a line, with other blanks between them, are read as
tokens of the same kinds. -/
theorem exists_lex_of_spaced {line line' : String} {ts : List Token} (h : lex line = .ok ts)
    (hs : Spaced (ts.map fun t => (t.span.slice line).toList) line'.toList) :
    ∃ us, lex line' = .ok us ∧ us.map Token.kind = ts.map Token.kind := by
  obtain ⟨used, rest, htext, hreads, -⟩ := Lexer.reads_of_tokens h
  have halone := hreads.alone Text.byteCount_nil
  rw [List.nil_append, ← htext, String.ofList_toList] at halone
  obtain ⟨us, hkinds, hus⟩ := Lexer.reads_of_spaced hs
    (List.forall₂_map_right_iff.2 (List.forall₂_same.2 halone)) 0
  refine ⟨us, ?_, hkinds⟩
  rw [← hus.lex, String.ofList_toList]

end SnippetConsole
