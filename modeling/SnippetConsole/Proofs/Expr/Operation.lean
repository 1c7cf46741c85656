import SnippetConsole.Proofs.Expr.Holes
import SnippetConsole.Proofs.Expr.Summands
import SnippetConsole.Proofs.Token.Composed

/-!
# An operation on a name

A name, an operator and an expression in round brackets: where this is worth a number,
the expression is worth one by itself, and the operator makes the one of the other. What
is in the brackets is read as it is alone, with one level less for its signs and
brackets, and with one level less for its indices.

* `operation` — the text.
* `exists_sum_of_operation` — the bracket is the right operand.
* `exists_operand_of_operation` — its number.
-/

namespace SnippetConsole

open Arith

/-! ## Without comments -/

/-- A text without comments leaves none open. -/
theorem endsClosed_of_no_comment {line : String} {ts : List Token} (h : lex line = .ok ts)
    (hline : ¬['/', '/'] <:+: line.toList) (hblock : ¬['/', '*'] <:+: line.toList) :
    EndsClosed line ts := by
  obtain ⟨before, tail, htext, hreads, htrivia⟩ := Lexer.reads_of_tokens h
  refine ⟨before, tail, htext, hreads.endByte.symm, ?_⟩
  cases Lexer.tail_of_trivia htrivia with
  | gap hgap => exact hgap
  | @comment gap cs _ hcomment =>
    cases hcomment with
    | @line cs => exact absurd ⟨before ++ gap, cs, by simp [htext]⟩ hline
    | @block cs _ => exact absurd ⟨before ++ gap, cs, by simp [htext]⟩ hblock

/-- A name has no slash. -/
theorem Lexer.begins_name {name : String} {span : Text.Span}
    (h : lex name = .ok [⟨.word name, span⟩]) : Begins name.toList [.word name] := by
  obtain ⟨hchars, -⟩ := name_of_lex h
  have hslash : '/' ∉ name.toList := fun hmem => absurd (hchars _ hmem) (by decide)
  exact begins_of_lex h (endsClosed_of_no_comment h
    (fun hmark => hslash (hmark.subset List.mem_cons_self))
    fun hmark => hslash (hmark.subset List.mem_cons_self))

theorem Lexer.begins_operator (op : Operator) : Begins [op.sign] [.operator op] := by
  have hlex : lex (String.singleton op.sign) = .ok [⟨.operator op, ⟨0, 1⟩⟩] := by
    cases op <;> decide +kernel
  have hclosed : EndsClosed (String.singleton op.sign) [⟨.operator op, ⟨0, 1⟩⟩] :=
    ⟨[op.sign], [], by simp, by cases op <;> rfl, .nil⟩
  have hbegins := begins_of_lex hlex hclosed
  rwa [String.toList_singleton] at hbegins

/-! ## The text -/

/-- The text of an operation on a name and an expression in brackets. -/
def operation (name : String) (op : Operator) (text : String) : String :=
  name ++ " " ++ String.singleton op.sign ++ " (" ++ text ++ ")"

theorem toList_operation (name : String) (op : Operator) (text : String) :
    (operation name op text).toList =
      name.toList ++ ' ' :: [op.sign] ++ ' ' :: '(' :: (text.toList ++ [')']) := by
  simp [operation]

/-- The bracket at the end of the operation is read, or a comment takes it away. -/
theorem lex_operation_cases {name text : String} {op : Operator} {span : Text.Span}
    {es : List Token} (hname : lex name = .ok [⟨.word name, span⟩]) (hes : lex text = .ok es) :
    ∃ ts, lex (operation name op text) = .ok ts ∧
      ∃ last : List Kind, (last = [.closing .round] ∨ last = []) ∧ ts.map Token.kind =
        .word name :: .operator op :: .opening .round :: (es.map Token.kind ++ last) := by
  have hfront : Lexer.Begins (name.toList ++ ' ' :: [op.sign]) [.word name, .operator op] :=
    (Lexer.begins_name hname).append (Lexer.begins_operator op)
  rcases Lexer.bracket_cases hes with hbegins | hread
  · have hall := hfront.readAs_append hbegins.readAs
    rw [← toList_operation] at hall
    obtain ⟨ts, hts, hkinds⟩ := hall.lex
    exact ⟨ts, hts, [.closing .round], .inl rfl, by rw [hkinds]; simp⟩
  · have hall := hfront.readAs_append hread
    rw [← toList_operation] at hall
    obtain ⟨ts, hts, hkinds⟩ := hall.lex
    exact ⟨ts, hts, [], .inr rfl, by rw [hkinds]; simp⟩

/-! ## Its tree -/

theorem sumOf_of_signed_opening {room : Nat} {ks rest : List Kind} {tree : Tree}
    (h : signed (room + 1) (.opening .round :: ks) = some (tree, rest)) :
    sumOf (signed room) ks = some (tree, .closing .round :: rest) := by
  rcases signed_cases h with ⟨x, hks, -⟩ | ⟨r, us, hr, hcases⟩
  · cases hks
  · obtain rfl := Nat.succ.inj hr
    rcases hcases with ⟨hks, -⟩ | ⟨hks, -⟩ | ⟨hks, hread⟩
    · cases hks
    · cases hks
    · obtain rfl := (List.cons.inj hks).2
      exact hread

theorem joined_eq (joins : Kind → Option Operator) (operand : Reader) (ks : List Kind) :
    joined joins operand ks =
      (operand ks).bind fun r => joinMore joins operand r.2.length r.1 r.2 := rfl

/-- The operator of an operation joins its two operands, whichever operator it is, and
the right one is a sum in brackets. -/
theorem exists_sum_of_operation {x : Float} {op : Operator} {ks : List Kind} {tree : Tree}
    (h : Tree.ofKinds? (.number x :: .operator op :: .opening .round :: ks) = some tree) :
    ∃ inner rest, sumOf (signed (deepest - 1)) ks = some (inner, .closing .round :: rest) ∧
      (rest = [] → tree = .binary op (.number x) inner) := by
  have hop : multiplicative (.operator op) = some op ∨
      additive (.operator op) = some op ∧ multiplicative (.operator op) = none := by
    cases op
    · exact .inr ⟨rfl, rfl⟩
    · exact .inr ⟨rfl, rfl⟩
    · exact .inl rfl
    · exact .inl rfl
  rw [Tree.ofKinds?_iff_sumOf, sumOf, joined_eq, joined_eq, signed_number, Option.bind_some] at h
  simp only [List.length_cons] at h
  obtain ⟨⟨left, middle⟩, hleft, hloop⟩ := Option.bind_eq_some_iff.1 h
  rcases hop with hmul | ⟨hadd, hmul⟩
  · rw [joinMore_of_joins hmul] at hleft
    obtain ⟨⟨inner, rest⟩, hinner, hmore⟩ := Option.bind_eq_some_iff.1 hleft
    refine ⟨inner, rest, sumOf_of_signed_opening hinner, ?_⟩
    rintro rfl
    rw [joinMore_of_stops (stops_nil _)] at hmore
    obtain ⟨rfl, rfl⟩ := Prod.mk.inj (Option.some.inj hmore)
    exact (Prod.mk.inj (Option.some.inj hloop)).1.symm
  · rw [joinMore_of_stops ((stops_cons _ _ _).2 hmul)] at hleft
    obtain ⟨rfl, rfl⟩ := Prod.mk.inj (Option.some.inj hleft)
    simp only [List.length_cons] at hloop
    rw [joinMore_of_joins hadd, joined_eq] at hloop
    obtain ⟨⟨right, behind⟩, hright, hmore⟩ := Option.bind_eq_some_iff.1 hloop
    obtain ⟨⟨inner, rest⟩, hinner, hmore'⟩ := Option.bind_eq_some_iff.1 hright
    refine ⟨inner, rest, sumOf_of_signed_opening hinner, ?_⟩
    rintro rfl
    rw [joinMore_of_stops (stops_nil _)] at hmore'
    obtain ⟨rfl, rfl⟩ := Prod.mk.inj (Option.some.inj hmore')
    rw [joinMore_of_stops (stops_nil _)] at hmore
    exact (Prod.mk.inj (Option.some.inj hmore)).1.symm

/-! ## Its tokens -/

theorem AtomNumber.ne_nil {store : Store} {P : List Token → Float → Prop} {ts : List Token}
    {x : Float} (h : AtomNumber store P ts x) : ts ≠ [] := by
  cases h <;> exact List.cons_ne_nil _ _

/-- No kinds stand for nothing. -/
theorem Stands.eq_nil {atom : List Token → Float → Prop} {ks : List Kind}
    (hatom : ∀ x, ¬atom [] x) (h : Stands atom [] ks) : ks = [] := by
  generalize hts : ([] : List Token) = ts at h
  cases h with
  | nil => rfl
  | plain => cases hts
  | atom hused =>
    obtain ⟨rfl, -⟩ := List.append_eq_nil_iff.1 hts.symm
    exact absurd hused (hatom _)

theorem not_balanced_closing {t : Token} {shape : Bracket} (ht : t.kind = .closing shape)
    (ts : List Token) : ¬balanced (t :: ts) = true := by
  intro h
  have hfall := (balanced_iff.1 h).1 [t] ⟨ts, rfl⟩
  rw [height_cons, ht] at hfall
  exact absurd hfall (by simp [Kind.slope])

/-- A sum that is read up to a closing bracket behind a balanced run is that run, so the
bracket is not one of the run. -/
theorem fits_of_bracket {store : Store} {P : List Token → Float → Prop} {es last : List Token}
    {ks rest : List Kind} {room : Nat} {inner : Tree} (hes : balanced es = true)
    (hlast : last.length ≤ 1) (hstands : Stands (AtomNumber store P) (es ++ last) ks)
    (hread : sumOf (signed room) ks = some (inner, .closing .round :: rest)) :
    rest = [] ∧ last ≠ [] ∧
      ∃ used, ks = used ++ [.closing .round] ∧ Fits room .sum used inner := by
  obtain ⟨used, rfl, ⟨depth, hdepth, hused⟩, -⟩ := (exact_sum room _ _ _).1 hread
  obtain ⟨us, vs, heq, hus, hvs⟩ := hstands.split
  obtain ⟨closer, ws, rfl, hcloser, hws⟩ := hvs.exists_cons nofun
  have hbalanced := balanced_of_derives (derives_of_stands (fun _ _ => .literal) hused hus)
  -- the bracket cannot be one of the run, which closes no more than it opens
  obtain ⟨between, hbetween⟩ : ∃ between, last = between ++ closer :: ws := by
    rcases List.append_eq_append_iff.1 heq with ⟨between, -, hlast⟩ | ⟨inside, rfl, hinside⟩
    · exact ⟨between, hlast⟩
    · cases inside with
      | nil => exact ⟨[], hinside.symm⟩
      | cons c inside =>
        obtain ⟨rfl, -⟩ := List.cons.inj hinside
        exact absurd ((balanced_append_iff hbalanced).1 hes) (not_balanced_closing hcloser inside)
  subst hbetween
  rw [List.length_append, List.length_cons] at hlast
  obtain rfl := List.length_eq_zero_iff.1 (show ws.length = 0 by omega)
  obtain rfl := Stands.eq_nil (fun x hx => AtomNumber.ne_nil hx rfl) hws
  exact ⟨rfl, by simp, used, rfl, depth, hdepth, hused⟩

/-! ## Its number -/

/-- The operands of a balanced run in front of its closing bracket are those of the run
alone. -/
theorem operands_append_closing {es : List Token} {closer : Token} {shape : Bracket}
    (hes : balanced es = true) (hcloser : closer.kind = .closing shape)
    (h : .broken ∉ operands (es ++ [closer])) :
    operands (es ++ [closer]) = operands es ++ [.plain closer.kind] := by
  have hclosed : ∀ s, s <:+ es → height s ≤ 0 := by
    rintro s ⟨pre, rfl⟩
    obtain ⟨habove, hzero⟩ := balanced_iff.1 hes
    have := habove pre (List.prefix_append pre s)
    rw [height_append] at hzero
    omega
  have hbroken : .broken ∉ operands es := fun hmem =>
    h (broken_mem_operands_append hmem hclosed hcloser [])
  rw [operands_append hbroken (quiet_cons (by simp [hcloser]) (by simp [hcloser]) []),
    operands_plain (by rw [hcloser]; rfl), operands_nil]

section

variable {store : Store} {near far : Resolver} {name text : String} {op : Operator} {x y : Float}
  {es : List Token} {steps steps' : Nat}

/-- The operands of an operation that is worth a number: the name, the operator, and in
brackets those of a run that is arithmetic with less room. -/
theorem exists_kinds_of_operation {n o opener : Token} {last : List Token}
    (hn : n.kind = .word name) (ho : o.kind = .operator op)
    (hopener : opener.kind = .opening .round)
    (hlast : ∀ t ∈ last, t.kind = .closing .round) (hlength : last.length ≤ 1)
    (hx : store.get? name = some (.number x)) (hes : balanced es = true)
    (h : Undivided store near far (n :: o :: opener :: (es ++ last)) steps y steps') :
    ∃ kinds inner, ((operands es).mapM (Operand.kindIn store far)).result steps =
        (some kinds, steps') ∧
      Tree.ofKinds? kinds = some inner ∧ y = op.apply x inner.eval := by
  have hread : Reference.read? (n :: o :: opener :: (es ++ last)) =
      some (.binding name, o :: opener :: (es ++ last)) := by
    obtain ⟨kind, span⟩ := n
    obtain rfl : kind = .word name := hn
    exact Reference.read?_binding (quiet_cons (by simp [ho]) (by simp [ho]) _)
  rcases h with h | h
  · obtain ⟨r, hr, -⟩ := referenceValue_eq_some_iff.1 h
    cases hread.symm.trans (Reference.read?_of_ofRun? hr)
  obtain ⟨-, kinds, tree, hkinds, htree, hy⟩ := arithmeticValue_eq_some_iff.1 h
  obtain rfl := Value.number.inj hy
  rw [operands_ref (by rw [hn]; rfl) hread, operands_plain (by rw [ho]; rfl),
    operands_plain (by rw [hopener]; rfl), ho, hopener] at hkinds
  obtain ⟨first, between, later, hfirst, hlater, rfl⟩ := Attempt.result_mapM_cons_iff.1 hkinds
  obtain ⟨x', rfl, hx'⟩ := Operand.kindIn_ref_eq_some_iff.1 hfirst
  obtain ⟨hget, rfl⟩ := Attempt.result_ofOption_iff.1 hx'
  obtain rfl := Value.number.inj (Option.some.inj (hx.symm.trans hget))
  obtain ⟨second, _, later, hsecond, hlater, rfl⟩ := Attempt.result_mapM_cons_iff.1 hlater
  obtain ⟨rfl, rfl⟩ := Attempt.result_pure_iff.1 hsecond
  obtain ⟨third, _, later, hthird, hlater, rfl⟩ := Attempt.result_mapM_cons_iff.1 hlater
  obtain ⟨rfl, rfl⟩ := Attempt.result_pure_iff.1 hthird
  obtain ⟨inner, rest, hinner, heval⟩ := exists_sum_of_operation htree
  obtain ⟨rfl, hne, used, rfl, depth, hdepth, hused⟩ :=
    fits_of_bracket hes hlength (stands_of_mapM hlater) hinner
  obtain ⟨closer, rfl⟩ : ∃ closer, last = [closer] :=
    List.length_eq_one_iff.1 (Nat.le_antisymm hlength (List.length_pos_of_ne_nil hne))
  have hcloser := hlast closer (List.mem_singleton_self closer)
  rw [operands_append_closing hes hcloser (broken_not_mem_of_mapM hlater)] at hlater
  obtain ⟨kinds, between, behind, hkinds, hbehind, happend⟩ :=
    Attempt.result_mapM_append_iff.1 hlater
  obtain ⟨kind, _, more, hkind, hmore, rfl⟩ := Attempt.result_mapM_cons_iff.1 hbehind
  obtain ⟨-, rfl⟩ := Attempt.result_pure_iff.1 hkind
  obtain ⟨rfl, rfl⟩ := Attempt.result_mapM_nil_iff.1 hmore
  obtain ⟨rfl, -⟩ := List.append_inj' happend rfl
  refine ⟨used, inner, hkinds, ofKinds?_of_fits ⟨depth, Nat.le_trans hdepth (by decide), hused⟩, ?_⟩
  rw [heval rfl]
  rfl

/-- Where the operation is worth a number, so is the expression in its brackets. -/
theorem exists_operand_of_operation {span : Text.Span} (hname : lex name = .ok [⟨.word name, span⟩])
    (hx : store.get? name = some (.number x)) (hlex : lex text = .ok es)
    (hes : balanced es = true)
    (hy : evaluate? store (operation name op text) = some (.number y)) :
    ∃ z, evaluate? store text = some (.number z) ∧ y = op.apply x z := by
  obtain ⟨ts, hts, lastKinds, hlast, hkinds⟩ := @lex_operation_cases name text op span es hname hlex
  obtain ⟨level, hlevel⟩ : ∃ level, level = max (operation name op text).length text.length :=
    ⟨_, rfl⟩
  -- the same run, with the tokens of the expression at their places in it
  have hrun : ts.map Token.kind = (⟨.word name, span⟩ :: ⟨.operator op, span⟩ ::
      ⟨.opening .round, span⟩ :: (es ++ lastKinds.map fun kind => ⟨kind, span⟩) :
        List Token).map Token.kind := by
    simp [hkinds, Function.comp_def]
  have hlength : (lastKinds.map fun kind => (⟨kind, span⟩ : Token)).length ≤ 1 := by
    rcases hlast with rfl | rfl <;> simp
  have hclosers : ∀ t ∈ lastKinds.map fun kind => (⟨kind, span⟩ : Token),
      t.kind = .closing .round := by
    rcases hlast with rfl | rfl <;> simp
  rw [evaluate?_eq_resolve hts hrun (by omega : _ ≤ level)] at hy
  have hdirect := (numbers_of_resolve store level (deepest + 1)).1 _ _ _ _ (Prod.ext hy rfl)
  obtain ⟨kinds, inner, hinner, htree, rfl⟩ :=
    exists_kinds_of_operation rfl rfl rfl hclosers hlength hx hes hdirect.2
  obtain ⟨fewer, -, hundivided⟩ :=
    exists_undivided (noWorse_resolve (Nat.sub_le deepest 1)) hinner htree
  refine ⟨inner.eval, ?_, rfl⟩
  rw [evaluate?_eq_resolve hlex rfl (by omega : _ ≤ level), resolve_succ,
    result_rules_of_direct _ ⟨by decide, hundivided⟩]

end

end SnippetConsole
