import SnippetConsole.Proofs.Expr.Joining
import SnippetConsole.Proofs.Expr.Summands
import SnippetConsole.Proofs.Token.Spacing
import SnippetConsole.Proofs.Token.Written

/-!
# A text behind a number

A number with a text literal added behind it is not computed any more: it is cut at its
plus signs outside brackets, its parts are computed by themselves, and what they add up
to, from left to right, is written in front of the text.

* `exists_lex_append_string` — reading a literal behind a text.
* `exists_settles_of_number` — the parts of a number are numbers.
* `evaluate?_of_number_string` — a text behind a run of numbers.
* `evaluate?_append_string` — a number and a text.
-/

namespace SnippetConsole

namespace Lexer

open Text

/-! ## Reading on -/

theorem Gap.isBlank {cs : List Char} (h : Gap cs) (hblock : ¬['/', '*'] <:+: cs) :
    ∀ c ∈ cs, isBlank c = true := by
  induction h with
  | nil => nofun
  | @blank b cs hb _ ih =>
    refine List.forall_mem_cons.2 ⟨hb, ih fun hwithin => hblock ?_⟩
    exact hwithin.trans (List.suffix_cons b cs).isInfix
  | comment => exact absurd ⟨[], _, rfl⟩ hblock

/-- Without comments only blanks are left behind the last token. -/
theorem Tail.isBlank {cs : List Char} (h : Tail cs) (hline : ¬['/', '/'] <:+: cs)
    (hblock : ¬['/', '*'] <:+: cs) : ∀ c ∈ cs, isBlank c = true := by
  cases h with
  | gap hgap => exact hgap.isBlank hblock
  | @comment gap cs _ hcomment =>
    cases hcomment with
    | @line cs => exact absurd ⟨gap, cs, by simp⟩ hline
    | @block cs _ => exact absurd ⟨gap, cs, by simp⟩ hblock

theorem alone_plus : Alone (.operator .add) ['+'] :=
  @alone_of_lexeme '+' [] ⟨.operator .add, ['+'], []⟩ rfl rfl

theorem alone_string {s : String} (hs : Escaped '"' s.toList) :
    Alone (.quoted .string s) ('"' :: (s.toList ++ ['"'])) := by
  intro rest start _
  have hreads := @Reads.literal .string s.toList hs rest start
  rwa [String.ofList_toList] at hreads

end Lexer

/-- A text without comments is read as before if a literal is added behind it. -/
theorem exists_lex_append_string {text s : String} {ts : List Token} (hlex : lex text = .ok ts)
    (hline : ¬['/', '/'] <:+: text.toList) (hblock : ¬['/', '*'] <:+: text.toList)
    (hs : Lexer.Escaped '"' s.toList) :
    ∃ p q, p.kind = .operator .add ∧ q.kind = .quoted .string s ∧
      lex (text ++ " + \"" ++ s ++ "\"") = .ok (ts ++ [p, q]) := by
  obtain ⟨used, rest, htext, hreads, htail⟩ := Lexer.reads_of_tokens hlex
  have hrest : rest <:+: text.toList := ⟨used, [], by simp [htext]⟩
  have hblank : ∀ c ∈ rest ++ [' '], Text.isBlank c = true := by
    refine List.forall_mem_append.2 ⟨?_, List.forall_mem_singleton.2 rfl⟩
    exact (Lexer.tail_of_trivia htail).isBlank (fun h => hline (h.trans hrest))
      fun h => hblock (h.trans hrest)
  have hspaced : Spaced [['+'], '"' :: (s.toList ++ ['"'])]
      (['+'] ++ ([' '] ++ '"' :: (s.toList ++ ['"']))) :=
    .cons (List.cons_ne_nil _ _) (List.forall_mem_singleton.2 rfl) .single
  have halone : List.Forall₂ (fun (t : Token) text => Lexer.Alone t.kind text)
      [⟨.operator .add, ⟨0, 0⟩⟩, ⟨.quoted .string s, ⟨0, 0⟩⟩] [['+'], '"' :: (s.toList ++ ['"'])] :=
    .cons Lexer.alone_plus (.cons (Lexer.alone_string hs) .nil)
  obtain ⟨us, hkinds, hus⟩ := Lexer.reads_of_spaced hspaced halone
    (0 + Text.byteCount used + Text.byteCount (rest ++ [' ']))
  obtain ⟨p, us, rfl, hp, hus'⟩ := List.map_eq_cons_iff.1 hkinds
  obtain ⟨q, us, rfl, hq, hnil⟩ := List.map_eq_cons_iff.1 hus'
  obtain rfl := List.map_eq_nil_iff.1 hnil
  refine ⟨p, q, hp, hq, ?_⟩
  have hbehind := hus.blanks hblank (List.cons_ne_nil _ _)
  have hfollows : Lexer.Follows rest
      (rest ++ [' '] ++ (['+'] ++ ([' '] ++ '"' :: (s.toList ++ ['"'])))) :=
    (Lexer.follows_blanks (by simp) hblank _).of_nil
  have hbefore := hreads.of_follows hfollows
  rw [← List.append_nil (rest ++ [' '] ++ _)] at hbefore
  have hall := (hbefore.append hbehind).lex
  rw [← hall, ← String.ofList_toList (s := text ++ " + \"" ++ s ++ "\"")]
  simp [htext]

/-! ## A number and a text -/

section

variable {store : Store} {text s : String} {ts : List Token} {v : Float}

/-- The parts of a number settle to numbers, which add up to the number if no part but the
first takes anything away. -/
theorem exists_settles_of_number (hv : evaluate? store text = some (.number v))
    (hlex : lex text = .ok ts) (hsquare : ∀ t ∈ ts, t.kind ≠ .opening .square)
    (hsigns : Unsigned ts) :
    balanced ts = true ∧ ∃ first rest,
      List.Forall₂ (fun part x => Settles store part (some (.number x)))
        (splitAtTop (.operator .add) ts) (first :: rest) ∧
      ((∀ part ∈ (splitAtTop (.operator .add) ts).tail, ¬Subtracts part) →
        rest.foldl (· + ·) first = v) := by
  obtain ⟨ts', hlex', hnumeric⟩ := exists_numeric_of_evaluate? hv
  obtain rfl := Except.ok.inj (hlex.symm.trans hlex')
  obtain ⟨-, hderives, hdepth⟩ := hnumeric
  obtain ⟨first, rest, htrees, heval⟩ := exists_summands hderives hsigns
  refine ⟨balanced_of_derives hderives, first.eval, rest.map Tree.eval, ?_,
    fun hsub => (heval hsub).symm⟩
  rw [← List.map_cons, List.forall₂_map_right_iff]
  refine ((List.forall₂_and_left _ _).2 ⟨fun _ hpart => hpart, htrees⟩).imp ?_
  rintro part tree ⟨hpart, d, hd, hpartderives⟩
  have hwithin := (splitAtTop_run (fun t => rfl) (.operator .add) ts).1 part hpart
  exact settles_of_derives hpartderives (hd.trans hdepth) fun t ht =>
    hsquare t (hwithin.subset ht)

/-- A text behind a run of numbers is written behind their sum. -/
theorem evaluate?_of_number_string {p q : Token} {first : Float} {rest : List Float}
    (hlex : lex text = .ok (ts ++ [p, q])) (hp : p.kind = .operator .add)
    (hq : q.kind = .quoted .string s) (hsquare : ∀ t ∈ ts, t.kind ≠ .opening .square)
    (hbalanced : balanced ts = true)
    (hsettles : List.Forall₂ (fun part x => Settles store part (some (.number x)))
      (splitAtTop (.operator .add) ts) (first :: rest)) :
    evaluate? store text =
      if (splitAtTop (.operator .add) ts).length + 1 < stepBudget then
        some (.text ((Value.number (rest.foldl (· + ·) first)).shown ++ s))
      else none := by
  have hsplit : splitAtTop (.operator .add) (ts ++ [p, q]) =
      splitAtTop (.operator .add) ts ++ [[q]] := by
    rw [splitAtTop_append_separator rfl (height_of_balanced hbalanced) hp,
      Grammar.splitAtTop_of_solid (solid_singleton (by simp [hq]) 0)]
  have hstring : Settles store [q] (some (.text s)) := by
    obtain ⟨kind, span⟩ := q
    obtain rfl : kind = .quoted .string s := hq
    exact settles_of_literal rfl
  have hnumbers : List.Forall₂ (fun part v => Settles store part (some v))
      (splitAtTop (.operator .add) ts) ((first :: rest).map Value.number) :=
    List.forall₂_map_right_iff.2 hsettles
  have hparts : List.Forall₂ (fun part v => Settles store part (some v))
      (splitAtTop (.operator .add) (ts ++ [p, q]))
      ((first :: rest).map Value.number ++ [.text s]) := by
    rw [hsplit]
    exact List.rel_append hnumbers (.cons hstring .nil)
  have hall : ∀ t ∈ ts ++ [p, q], t.kind ≠ .opening .square := by
    simp only [List.forall_mem_append, List.forall_mem_cons, hp, hq]
    exact ⟨hsquare, by simp⟩
  have hnotnumber : ¬(Value.text s).IsNumber := nofun
  have htwo : 2 ≤ ((first :: rest).map Value.number ++ [Value.text s]).length := by simp
  have hvalue {w : Value} := @evaluate?_eq_some_iff_of_settles store _ _ _ hlex hall hparts htwo
    ⟨.text s, by simp, hnotnumber⟩ w
  have hjoin := joinValues_eq hnotnumber htwo
  rw [hsettles.length_eq]
  split
  · next hfits =>
    refine hvalue.2 ⟨by simpa using hfits, hjoin.trans ?_⟩
    simp [shownSum, String.join, Value.shown]
  · next hfits =>
    refine Option.eq_none_iff_forall_ne_some.2 fun w hw => hfits ?_
    simpa using (hvalue.1 hw).1

/-- A number, without comments, indices and signs that are no operators, with a text
literal added behind it: its parts between plus signs outside brackets are numbers, and
their sum from left to right is written in front of the text, if there is a step for each
part and for the text. That sum is the number itself if only the first part takes
anything away. -/
theorem evaluate?_append_string (hv : evaluate? store text = some (.number v))
    (hlex : lex text = .ok ts) (hsquare : ∀ t ∈ ts, t.kind ≠ .opening .square)
    (hline : ¬['/', '/'] <:+: text.toList) (hblock : ¬['/', '*'] <:+: text.toList)
    (hsigns : Unsigned ts) (hs : Lexer.Escaped '"' s.toList) :
    ∃ first rest,
      (splitAtTop (.operator .add) ts).map (fun part => evaluate? store (sourceText text part)) =
        (first :: rest).map (fun x => some (Value.number x)) ∧
      evaluate? store (text ++ " + \"" ++ s ++ "\"") =
        (if (splitAtTop (.operator .add) ts).length + 1 < stepBudget then
          some (.text ((Value.number (rest.foldl (· + ·) first)).shown ++ s))
        else none) ∧
      ((∀ part ∈ (splitAtTop (.operator .add) ts).tail, ¬Subtracts part) →
        rest.foldl (· + ·) first = v) := by
  obtain ⟨hbalanced, first, rest, hsettles, hsum⟩ :=
    exists_settles_of_number hv hlex hsquare hsigns
  obtain ⟨p, q, hp, hq, hall⟩ := exists_lex_append_string hlex hline hblock hs
  refine ⟨first, rest, ?_, ?_, hsum⟩
  · rw [← List.forall₂_eq_eq_eq, List.forall₂_map_left_iff, List.forall₂_map_right_iff]
    refine ((List.forall₂_and_left _ _).2 ⟨fun _ hpart => hpart, hsettles⟩).imp ?_
    rintro part x ⟨hpart, hx⟩
    have hwithin := (splitAtTop_run (fun t => rfl) (.operator .add) ts).1 part hpart
    obtain ⟨us, hus, hkinds⟩ := exists_lex_sourceText hlex hwithin
    exact Settles.evaluate? hx hus hkinds
  · exact evaluate?_of_number_string hall hp hq hsquare hbalanced hsettles

end

/-- What is taken away in the second part is taken from that part alone, and the sum is
another number: it is shown with other digits. -/
theorem evaluate?_append_string_ne :
    let text := "0.1 + 0.2 - 0.3"
    let v : Float := 0.1 + 0.2 - 0.3
    evaluate? {} text = some (.number v) ∧ '[' ∉ text.toList ∧ '/' ∉ text.toList ∧
      Lexer.Escaped '"' "s".toList ∧
      evaluate? {} (text ++ " + \"" ++ "s" ++ "\"") ≠
        some (.text ((Value.number v).shown ++ "s")) := by
  intro text v
  refine ⟨by decide +kernel, by decide, by decide, ?_, by decide +kernel⟩
  exact Lexer.escaped_iff.2 ⟨by decide, by decide⟩

/-- A number and a name, and a number behind them. -/
theorem evaluate?_append_string_name :
    let store := ({} : Store).define "x" (.number 4)
    let text := "7 - x + 2"
    let ts : List Token := [⟨.number 7, ⟨0, 1⟩⟩, ⟨.operator .sub, ⟨2, 3⟩⟩, ⟨.word "x", ⟨4, 5⟩⟩,
      ⟨.operator .add, ⟨6, 7⟩⟩, ⟨.number 2, ⟨8, 9⟩⟩]
    evaluate? store text = some (.number 5) ∧ lex text = .ok ts ∧
      (∀ t ∈ ts, t.kind ≠ .opening .square) ∧ ¬['/', '/'] <:+: text.toList ∧
      ¬['/', '*'] <:+: text.toList ∧ Unsigned ts ∧ Lexer.Escaped '"' "!".toList ∧
      evaluate? store (text ++ " + \"" ++ "!" ++ "\"") = some (.text "5!") := by
  intro store text ts
  have hv : evaluate? store text = some (.number 5) := by decide +kernel
  have hlex : lex text = .ok ts := by decide +kernel
  have hsquare : ∀ t ∈ ts, t.kind ≠ .opening .square := by decide
  have hline : ¬['/', '/'] <:+: text.toList := by decide
  have hblock : ¬['/', '*'] <:+: text.toList := by decide
  have hsigns : Unsigned ts := by decide
  have hs : Lexer.Escaped '"' "!".toList := Lexer.escaped_iff.2 ⟨by decide, by decide⟩
  obtain ⟨first, rest, -, hvalue, hsum⟩ :=
    evaluate?_append_string hv hlex hsquare hline hblock hsigns hs
  have hsub : ∀ part ∈ (splitAtTop (.operator .add) ts).tail, ¬Subtracts part := by decide
  rw [hsum hsub, if_pos (by decide)] at hvalue
  have hshown : (Value.number 5).shown ++ "!" = "5!" := by decide +kernel
  rw [hshown] at hvalue
  exact ⟨hv, hlex, hsquare, hline, hblock, hsigns, hs, hvalue⟩

end SnippetConsole
