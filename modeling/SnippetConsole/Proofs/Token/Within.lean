import SnippetConsole.Expr.Pieces
import SnippetConsole.Expr.Reference
import SnippetConsole.Proofs.Text.Blank
import SnippetConsole.Proofs.Token.Kinds
import SnippetConsole.Proofs.Token.Reads

/-!
# The texts that tokens carry

A name carries its letters and a literal what stands between its quotes. Both are
parts of the text that was read, and stay so in every run cut out of its tokens, so
what is looked up or printed for a text was written in the text.

* `within_of_lex` — tokens carry parts of the text they were read from.
* `within_of_mem_splitAtTop`, `Reference.within_of_read?`, `within_of_mem_operands` —
  what is cut out of a run carries no other texts than the run.
* `within_of_lex_hole` — nor do the holes of an interpolated string.
-/

namespace SnippetConsole

/-- The text that a kind carries: the name of a word, the raw text of a literal. -/
def Kind.payload? : Kind → Option String
  | .word name => some name
  | .quoted _ raw => some raw
  | _ => none

/-- Every text that a token of the run carries is a part of `cs`. -/
def Within (cs : List Char) (ts : List Token) : Prop :=
  ∀ t ∈ ts, ∀ text ∈ t.kind.payload?, text.toList <:+: cs

namespace Within

variable {cs cs' : List Char} {t : Token} {ts us : List Token}

theorem mono (h : Within cs ts) (hcs : cs <:+: cs') : Within cs' ts :=
  fun t ht text htext => (h t ht text htext).trans hcs

theorem subset (h : Within cs ts) (hus : us ⊆ ts) : Within cs us := fun t ht => h t (hus ht)

theorem tail (h : Within cs (t :: ts)) : Within cs ts := h.subset (List.subset_cons_self t ts)

/-- The name of a word in front. -/
theorem word {name : String} {span : Text.Span} (h : Within cs (⟨.word name, span⟩ :: ts)) :
    name.toList <:+: cs :=
  h _ List.mem_cons_self name rfl

/-- The raw text of a literal in front. -/
theorem quoted {quote : Quote} {raw : String} {span : Text.Span}
    (h : Within cs (⟨.quoted quote raw, span⟩ :: ts)) : raw.toList <:+: cs :=
  h _ List.mem_cons_self raw rfl

end Within

/-! ## Reading -/

namespace Lexer

theorem payload?_ofWord {word text : String} (h : text ∈ (Kind.ofWord word).payload?) :
    text = word := by
  unfold Kind.ofWord at h
  cases hlookup : Kind.keywords.lookup word with
  | none =>
    rw [hlookup] at h
    exact (Option.some.inj h).symm
  | some kind =>
    -- keywords carry nothing
    have hkeywords : ∀ entry ∈ Kind.keywords, entry.2.payload? = none := by decide
    have hmem : (word, kind) ∈ Kind.keywords := by
      obtain ⟨before, after, heq, -⟩ := List.lookup_eq_some_iff.1 hlookup
      rw [heq]
      simp
    rw [hlookup] at h
    simp only [Option.getD_some] at h
    rw [hkeywords _ hmem] at h
    cases h

theorem payload?_symbol (c : Char) (cs : List Char) : (symbol c cs).kind.payload? = none := by
  have hsymbols : ∀ s ∈ symbols, s.2.payload? = none := by decide
  unfold symbol
  split
  · next hfind => exact hsymbols _ (List.mem_of_find?_eq_some hfind)
  · rfl

/-- A lexeme carries a part of its own text. -/
theorem isInfix_of_payload? {c : Char} {cs : List Char} {l : Lexeme} (h : lexeme c cs = .ok l)
    {text : String} (htext : text ∈ l.kind.payload?) : text.toList <:+: l.text := by
  rcases lexeme_cases h with ⟨quote, inside, -, hl⟩ | ⟨-, rfl⟩ | ⟨-, -, rfl⟩ | ⟨-, rfl⟩
  · unfold literal at hl
    split at hl
    · next raw rest _ =>
      obtain rfl := Except.ok.inj hl
      obtain rfl := Option.some.inj htext
      rw [String.toList_ofList]
      exact ⟨quote.opener, [quote.mark], rfl⟩
    · cases hl
  · cases htext
  · rw [payload?_ofWord htext, String.toList_ofList]
    exact List.infix_refl _
  · rw [payload?_symbol] at htext
    cases htext

theorem Reads.within {rest used : List Char} {start : Nat} {ts : List Token}
    (h : Reads rest start ts used) : Within used ts := by
  induction h with
  | nil => exact fun t ht => absurd ht List.not_mem_nil
  | @cons start blanks t used c kind ts _ hl _ ih =>
    have hinfix : used <:+: blanks ++ (c :: t ++ used) := ⟨blanks ++ c :: t, [], by simp⟩
    intro u hu text htext
    rcases List.mem_cons.1 hu with rfl | hu
    · exact (isInfix_of_payload? hl htext).trans ⟨blanks, used, by simp⟩
    · exact (ih u hu text htext).trans hinfix

end Lexer

/-- The tokens of a text carry parts of it. -/
theorem within_of_lex {text : String} {ts : List Token} (h : lex text = .ok ts) :
    Within text.toList ts := by
  obtain ⟨used, rest, heq, hreads, -⟩ := Lexer.reads_of_tokens h
  exact hreads.within.mono ⟨[], rest, heq.symm⟩

/-! ## Parts of a run -/

variable {cs : List Char} {ts : List Token}

theorem within_of_mem_splitAtTop {separator : Kind} {part : List Token} (h : Within cs ts)
    (hpart : part ∈ splitAtTop separator ts) : Within cs part :=
  h.subset ((splitAtTop_run (fun _ => rfl) separator ts).1 part hpart).subset

theorem subset_of_bracketed? {inside rest : List Token} (h : bracketed? ts = some (inside, rest)) :
    inside ⊆ ts ∧ rest ⊆ ts := by
  obtain ⟨⟨i, closer, after⟩, hu, heq⟩ := Option.map_eq_some_iff.1 h
  obtain ⟨rfl, rfl⟩ := Prod.mk.inj heq
  rw [← untilClosed_append hu]
  refine ⟨List.subset_append_left _ _, ?_⟩
  exact List.subset_append_of_subset_right _ (List.subset_cons_self _ _)

/-- The names that a reference looks up are parts of `cs`. -/
def Reference.Within (cs : List Char) : Reference → Prop
  | .binding name => name.toList <:+: cs
  | .member object _ => object.toList <:+: cs
  | .slot array index => array.toList <:+: cs ∧ SnippetConsole.Within cs index

theorem Reference.within_of_read? {r : Reference} {rest : List Token}
    (h : read? ts = some (r, rest)) (hts : SnippetConsole.Within cs ts) :
    r.Within cs ∧ rest ⊆ ts := by
  fun_cases read? ts with
  | case1 object span field =>
    simp only [read?, Option.some.injEq, Prod.mk.injEq] at h
    obtain ⟨rfl, rfl⟩ := h
    refine ⟨hts.word, ?_⟩
    intro t ht
    simp [ht]
  | case2 => simp_all [read?]
  | case3 =>
    simp only [read?, Option.map_eq_some_iff] at h
    obtain ⟨⟨index, after⟩, hb, heq⟩ := h
    simp only [Prod.mk.injEq] at heq
    obtain ⟨rfl, rfl⟩ := heq
    obtain ⟨hindex, hafter⟩ := subset_of_bracketed? hb
    refine ⟨⟨hts.word, hts.tail.tail.subset hindex⟩, ?_⟩
    intro t ht
    simp [hafter ht]
  | case4 name span rest' hdot hsquare =>
    simp only [read?, Option.some.injEq, Prod.mk.injEq] at h
    obtain ⟨rfl, rfl⟩ := h
    exact ⟨hts.word, List.subset_cons_self _ _⟩
  | case5 => simp_all [read?]

theorem Reference.within_of_ofRun? {r : Reference} (h : ofRun? ts = some r)
    (hts : SnippetConsole.Within cs ts) : r.Within cs := by
  unfold ofRun? at h
  split at h
  · next hread =>
    obtain rfl := Option.some.inj h
    exact (within_of_read? hread hts).1
  · cases h

theorem within_of_mem_operands {r : Reference} (hr : .ref r ∈ operands ts)
    (hts : Within cs ts) : r.Within cs := by
  fun_induction operands ts with
  | case1 => cases hr
  | case2 t ts hname ih =>
    rcases List.mem_cons.1 hr with hr | hr
    · cases hr
    · exact ih hr hts.tail
  | case3 t ts name hname reference rest hread ih =>
    obtain ⟨hreference, hrest⟩ := Reference.within_of_read? hread hts
    rcases List.mem_cons.1 hr with hr | hr
    · obtain rfl := Operand.ref.inj hr
      exact hreference
    · exact ih hr (hts.subset hrest)
  | case4 t ts name hname hread =>
    rw [List.mem_singleton] at hr
    cases hr

/-! ## Pieces of interpolated text -/

theorem Piece.source_isInfix {cs : List Char} {p : Piece} (h : p ∈ pieces cs) :
    p.source <:+: cs := by
  have hmem : p.source ∈ (pieces cs).map Piece.source := List.mem_map_of_mem h
  have hinfix := List.infix_of_mem_flatten hmem
  rwa [← List.flatMap_def, source_pieces] at hinfix

theorem Piece.isInfix_of_hole {cs inner : List Char} (h : Piece.hole inner ∈ pieces cs) :
    inner <:+: cs :=
  List.IsInfix.trans ⟨['\x7b'], ['\x7d'], rfl⟩ (Piece.source_isInfix h)

/-- The tokens of a hole carry parts of it. -/
theorem within_of_lex_hole {inner : List Char} {ts : List Token}
    (h : lex (String.ofList (Text.trimChars inner)) = .ok ts) : Within inner ts := by
  have hts := within_of_lex h
  rw [String.toList_ofList] at hts
  exact hts.mono (Text.trimChars_isInfix inner)

end SnippetConsole
