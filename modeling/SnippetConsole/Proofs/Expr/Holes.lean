import SnippetConsole.Proofs.Expr.Budget
import SnippetConsole.Proofs.Expr.Stepless
import SnippetConsole.Proofs.Token.Written

/-!
# Holes in interpolated strings

A hole begins at an opening brace and ends at the next closing one, whatever stands
between them. So a text is filled piece by piece only where each opening brace in it has
a closing one behind it; one that is still open at the end of the text takes what is put
behind it with it, up to the next closing brace.

* `Closes`, `pieces_append` — texts whose pieces do not change with what follows.
* `Fills`, `exists_fills` — what pieces without indices become.
* `evaluate?_of_fills` — an interpolated string.
* `evaluate?_unclosed_iff` — what a brace that is still open does to a name behind it.
* `evaluate?_placeholder_iff` — a name in braces between two texts.
-/

namespace SnippetConsole

/-! ## Texts and their pieces -/

/-- Each opening brace of the text has a closing one behind it. -/
def Closes (cs : List Char) : Prop :=
  ∀ before after, cs = before ++ '\x7b' :: after → '\x7d' ∈ after

section

variable {c : Char} {cs inner : List Char}

theorem closes_nil : Closes [] := fun before after h => absurd h (by simp)

theorem closes_cons_iff : Closes (c :: cs) ↔ (c = '\x7b' → '\x7d' ∈ cs) ∧ Closes cs := by
  constructor
  · intro h
    refine ⟨fun hc => h [] cs (by rw [hc]; rfl), fun before after heq => ?_⟩
    exact h (c :: before) after (by rw [heq]; rfl)
  · rintro ⟨hc, hcs⟩ before after heq
    cases before with
    | nil =>
      obtain ⟨rfl, rfl⟩ := List.cons.inj heq
      exact hc rfl
    | cons d before =>
      obtain ⟨rfl, rfl⟩ := List.cons.inj heq
      exact hcs before after rfl

instance decidableCloses : (cs : List Char) → Decidable (Closes cs)
  | [] => isTrue closes_nil
  | _ :: cs =>
    have := decidableCloses cs
    decidable_of_iff _ closes_cons_iff.symm

theorem Closes.suffix {before after : List Char} (h : Closes (before ++ after)) : Closes after := by
  induction before with
  | nil => exact h
  | cons d before ih => exact ih (closes_cons_iff.1 h).2

/-- In front of the first opening brace that is not closed all are. -/
theorem closes_or_unclosed (cs : List Char) :
    Closes cs ∨
      ∃ before after, cs = before ++ '\x7b' :: after ∧ '\x7d' ∉ after ∧ Closes before := by
  induction cs with
  | nil => exact .inl closes_nil
  | cons c cs ih =>
    by_cases hc : c = '\x7b' → '\x7d' ∈ cs
    · rcases ih with hcs | ⟨before, after, rfl, hafter, hbefore⟩
      · exact .inl (closes_cons_iff.2 ⟨hc, hcs⟩)
      · refine .inr ⟨c :: before, after, rfl, hafter, closes_cons_iff.2 ⟨fun h => ?_, hbefore⟩⟩
        simpa [hafter] using hc h
    · obtain ⟨rfl, hcs⟩ := Classical.not_imp.1 hc
      exact .inr ⟨[], cs, rfl, hcs, closes_nil⟩

theorem pieces_of_ne (hc : c ≠ '\x7b') (cs : List Char) :
    pieces (c :: cs) = .char c :: pieces cs := by
  rw [pieces, if_neg hc]

theorem pieces_hole (h : '\x7d' ∉ inner) (cs : List Char) :
    pieces ('\x7b' :: (inner ++ '\x7d' :: cs)) = .hole inner :: pieces cs := by
  have hinner : ∀ d ∈ inner, decide (d ≠ '\x7d') = true := fun d hd =>
    decide_eq_true fun heq => h (heq ▸ hd)
  rw [pieces, if_pos rfl]
  split
  · next hdrop =>
    rw [List.dropWhile_append_of_pos hinner, List.dropWhile_cons_of_neg (by simp)] at hdrop
    cases hdrop
  · next d rest hdrop =>
    rw [List.dropWhile_append_of_pos hinner, List.dropWhile_cons_of_neg (by simp)] at hdrop
    obtain ⟨-, rfl⟩ := List.cons.inj hdrop
    rw [List.takeWhile_append_of_pos hinner, List.takeWhile_cons_of_neg (by simp),
      List.append_nil]

theorem pieces_unclosed (h : '\x7d' ∉ cs) :
    pieces ('\x7b' :: cs) = ('\x7b' :: cs).map .char := by
  have hcs : cs.dropWhile (fun d => decide (d ≠ '\x7d')) = [] :=
    List.dropWhile_eq_nil_iff.2 fun d hd => decide_eq_true fun heq => h (heq ▸ hd)
  rw [pieces, if_pos rfl]
  split
  · rfl
  · next hdrop =>
    rw [hcs] at hdrop
    cases hdrop

theorem pieces_append (h : Closes cs) (ds : List Char) :
    pieces (cs ++ ds) = pieces cs ++ pieces ds := by
  -- what stands behind a hole is shorter
  induction hlength : cs.length using Nat.strong_induction_on generalizing cs with
  | _ n ih =>
  cases cs with
  | nil =>
    rw [pieces]
    rfl
  | cons c cs =>
    obtain ⟨hc, hcs⟩ := closes_cons_iff.1 h
    rw [List.length_cons] at hlength
    by_cases hbrace : c = '\x7b'
    · obtain ⟨inner, rest, rfl, hinner⟩ := List.eq_append_cons_of_mem (hc hbrace)
      rw [List.append_cons] at hcs
      rw [List.length_append, List.length_cons] at hlength
      rw [hbrace, List.cons_append, List.append_assoc, List.cons_append, pieces_hole hinner,
        pieces_hole hinner, ih rest.length (by omega) hcs.suffix rfl]
      rfl
    · rw [List.cons_append, pieces_of_ne hbrace, pieces_of_ne hbrace,
        ih cs.length (by omega) hcs rfl]
      rfl

end

/-! ## Filling -/

/-- Wherever the pieces are filled they take no steps and become the text. -/
def Fills (store : Store) (ps : List Piece) (cs : List Char) : Prop :=
  ∃ filled : List (List Char), filled.flatten = cs ∧
    ∀ near steps, (ps.mapM (Piece.fill store near)).result steps = (some filled, steps)

section

variable {store : Store} {ps qs : List Piece} {cs ds : List Char}

theorem exists_fills (store : Store) (h : ∀ piece ∈ ps, '[' ∉ piece.source) :
    ∃ cs, Fills store ps cs := by
  obtain ⟨o, ho⟩ := Attempt.settled_mapM (f := Piece.fill store) fun piece hpiece =>
    Piece.settled_fill (h piece hpiece)
  obtain ⟨filled, steps, hfilled⟩ :=
    Attempt.total_mapM (Piece.total_fill store fun _ => failure) ps 0
  obtain ⟨rfl, -⟩ := Prod.mk.inj ((ho _ 0).symm.trans hfilled)
  exact ⟨filled.flatten, filled, rfl, ho⟩

theorem exists_fills_pieces (store : Store) (h : '[' ∉ cs) : ∃ ds, Fills store (pieces cs) ds :=
  exists_fills store fun _ hpiece hmem => h ((Piece.source_isInfix hpiece).subset hmem)

theorem Fills.unique (h : Fills store ps cs) (h' : Fills store ps ds) : cs = ds := by
  obtain ⟨filled, rfl, hfilled⟩ := h
  obtain ⟨filled', rfl, hfilled'⟩ := h'
  obtain ⟨heq, -⟩ :=
    Prod.mk.inj ((hfilled (fun _ => failure) 0).symm.trans (hfilled' (fun _ => failure) 0))
  rw [Option.some.inj heq]

theorem Fills.append (h : Fills store ps cs) (h' : Fills store qs ds) :
    Fills store (ps ++ qs) (cs ++ ds) := by
  obtain ⟨filled, rfl, hfilled⟩ := h
  obtain ⟨filled', rfl, hfilled'⟩ := h'
  refine ⟨filled ++ filled', List.flatten_append, fun near steps => ?_⟩
  exact Attempt.result_mapM_append_iff.2 ⟨filled, steps, filled', hfilled near steps,
    hfilled' near steps, rfl⟩

theorem fills_chars (store : Store) (cs : List Char) : Fills store (cs.map .char) cs := by
  induction cs with
  | nil => exact ⟨[], rfl, fun _ _ => rfl⟩
  | cons c cs ih =>
    have hsingle : Fills store [.char c] [c] := ⟨[[c]], rfl, fun _ _ => rfl⟩
    exact hsingle.append ih

/-- A name that is bound fills a hole. -/
theorem fills_name {x : String} {span : Text.Span} {v : Value} (hx : lex x = .ok [⟨.word x, span⟩])
    (htrim : Text.trimChars x.toList = x.toList) (hv : store.get? x = some v) :
    Fills store [.hole x.toList] v.shown.toList := by
  refine ⟨[v.shown.toList], by simp, fun near steps => ?_⟩
  have hreference : (referenceValue store near [⟨.word x, span⟩]).result steps = (some v, steps) :=
    referenceValue_eq_some_iff.2 ⟨.binding x, rfl, Attempt.result_ofOption_iff.2 ⟨hv, rfl⟩⟩
  have hvalue : (holeValue store near x.toList).result steps = (some v, steps) := by
    unfold holeValue
    rw [htrim, String.ofList_toList, hx]
    exact hreference
  refine Attempt.result_mapM_cons_iff.2 ⟨_, steps, [], ?_, rfl, rfl⟩
  exact Attempt.result_orElse_eq_some_iff.2
    (.inl (Attempt.result_bind_eq_some_iff.2 ⟨v, steps, hvalue, rfl⟩))

/-! ## Interpolated strings -/

theorem evaluate?_of_fills {text raw : String} {span : Text.Span}
    (hlex : lex text = .ok [⟨.quoted .interpolated raw, span⟩])
    (h : Fills store (pieces raw.toList) cs) :
    evaluate? store text = some (.text (String.ofList cs)) := by
  obtain ⟨filled, rfl, hfilled⟩ := h
  have hfill (near : Resolver) (steps : Nat) :
      (interpolate store near raw).result steps = (some (String.ofList filled.flatten), steps) :=
    Attempt.result_bind_eq_some_iff.2 ⟨filled, steps, hfilled near steps, rfl⟩
  have hresult : (resolve store (text.length + 1) (deepest + 1)
      [⟨.quoted .interpolated raw, span⟩]).result 0 =
        (some (.text (String.ofList filled.flatten)), 1) := by
    rw [resolve_succ]
    exact result_rules_eq_some_iff.2 ⟨by decide, .interpolated rfl (hfill _ 1)⟩
  rw [evaluate?_eq_resolve hlex rfl (Nat.le_succ text.length), hresult]

theorem evaluate?_interpolated_iff {text raw s : String} {span : Text.Span}
    (hlex : lex text = .ok [⟨.quoted .interpolated raw, span⟩]) (hsquare : '[' ∉ raw.toList) :
    evaluate? store text = some (.text s) ↔ Fills store (pieces raw.toList) s.toList := by
  constructor
  · intro h
    obtain ⟨cs, hcs⟩ := exists_fills_pieces store hsquare
    rw [evaluate?_of_fills hlex hcs] at h
    rw [← Value.text.inj (Option.some.inj h), String.toList_ofList]
    exact hcs
  · intro h
    rw [evaluate?_of_fills hlex h, String.ofList_toList]

end

/-- The interpolated string with the raw text. -/
def interpolated (raw : String) : String := "$\"" ++ raw ++ "\""

/-- The name or text in braces. -/
def placeholder (inner : String) : String := "\x7b" ++ inner ++ "\x7d"

theorem tight_interpolated (raw : String) : Text.Tight (interpolated raw).toList where
  head := ⟨'$', by simp [interpolated], by decide⟩
  getLast := by
    have hend : "\"".toList = ['"'] := by decide
    refine ⟨'"', ?_, by decide⟩
    rw [interpolated, String.toList_append, hend, List.getLast?_concat]

theorem toList_placeholder (inner : String) :
    (placeholder inner).toList = '\x7b' :: (inner.toList ++ ['\x7d']) := by
  simp [placeholder]

theorem escaped_placeholder {inner : String} (h : Lexer.Escaped '"' inner.toList) :
    Lexer.Escaped '"' (placeholder inner).toList := by
  have hopener : Lexer.Escaped '"' ['\x7b'] := Lexer.escaped_of_not_mem (by decide) (by decide)
  have hcloser : Lexer.Escaped '"' ['\x7d'] := Lexer.escaped_of_not_mem (by decide) (by decide)
  rw [toList_placeholder]
  exact hopener.append (h.append hcloser)

theorem lex_interpolated {raw : String} (h : Lexer.Escaped '"' raw.toList) :
    ∃ span, lex (interpolated raw) = .ok [⟨.quoted .interpolated raw, span⟩] := by
  have hreads := @Lexer.Reads.literal .interpolated raw.toList h [] 0
  rw [String.ofList_toList] at hreads
  have htext : interpolated raw =
      String.ofList (Quote.interpolated.opener ++ raw.toList ++ [Quote.interpolated.mark]) := by
    rw [← @String.ofList_toList (interpolated raw)]
    simp [interpolated, Quote.opener, Quote.mark]
  rw [htext]
  exact ⟨_, hreads.lex⟩

theorem escaped_of_lex {raw : String} {span : Text.Span}
    (h : lex (interpolated raw) = .ok [⟨.quoted .interpolated raw, span⟩]) :
    Lexer.Escaped '"' raw.toList := by
  obtain ⟨used, rest, -, hreads, -⟩ := Lexer.reads_of_tokens h
  exact hreads.escaped List.mem_cons_self rfl

/-- What is read as a name is made of the characters of names, and so has no blanks. -/
theorem name_of_lex {x : String} {span : Text.Span} (h : lex x = .ok [⟨.word x, span⟩]) :
    (∀ c ∈ x.toList, Text.continuesWord c = true) ∧ Text.trimChars x.toList = x.toList := by
  obtain ⟨used, rest, htext, hreads, -⟩ := Lexer.reads_of_tokens h
  obtain ⟨before, gap, spelling, after, -, -, -, -, -, -, hspelled, -⟩ :=
    @Lexer.Reads.stands _ _ _ [] [] _ hreads htext
  obtain ⟨c, cs, hspelling, hc, hcs, -⟩ := hspelled.word rfl
  have hx : x.toList = c :: cs := (hspelled.shown nofun).symm.trans hspelling
  have hall : ∀ d ∈ x.toList, Text.continuesWord d = true := by
    rw [hx]
    exact List.forall_mem_cons.2 ⟨Text.continuesWord_of_startsWord hc, hcs⟩
  refine ⟨hall, Text.Tight.trimChars ⟨⟨c, by rw [hx]; rfl, ?_⟩, ?_⟩⟩
  · exact Text.isBlank_of_continuesWord (hall c (by rw [hx]; exact List.mem_cons_self))
  · obtain ⟨d, hd⟩ : ∃ d, x.toList.getLast? = some d := ⟨_, by rw [hx, List.getLast?_cons]⟩
    exact ⟨d, hd, Text.isBlank_of_continuesWord (hall d (List.mem_of_getLast? hd))⟩

/-- A name starts with no blank. -/
theorem Lexer.head_of_name {name : String} {span : Text.Span} (h : lex name = .ok [⟨.word name, span⟩]) :
    ∃ c cs, name.toList = c :: cs ∧ Text.isBlank c = false := by
  have hne : name.toList ≠ [] := by
    intro hnil
    rw [lex, hnil, tokens_of_trivia rfl] at h
    cases h
  obtain ⟨c, cs, hcs⟩ := List.exists_cons_of_ne_nil hne
  exact ⟨c, cs, hcs, Text.isBlank_of_continuesWord ((name_of_lex h).1 c (by simp [hcs]))⟩

/-- A name is used up. -/
theorem Lexer.reads_of_name {name : String} {span : Text.Span} (h : lex name = .ok [⟨.word name, span⟩]) :
    Reads [] 0 [⟨.word name, ⟨0, Text.byteCount name.toList⟩⟩] name.toList := by
  obtain ⟨used, rest, hused, hreads, -⟩ := reads_of_tokens h
  obtain ⟨before, gap, text, after, hname, -, hspan, -, -, -, hspelled, -⟩ :=
    @Reads.stands _ _ _ [] [] _ hreads hused
  have htext : text = name.toList := hspelled.shown nofun
  have hlength := congrArg List.length hname
  simp only [htext, List.length_append] at hlength
  have hfront : before ++ gap = [] := List.eq_nil_of_length_eq_zero (by
    rw [List.length_append]
    omega)
  rw [hfront, htext, List.nil_append, Text.byteCount_nil] at hspan
  subst hspan
  exact reads_of_lex h rfl

/-! ## A name between two texts -/

section

variable {store : Store} {name shown ps qs cs ds before after : List Char}

/-- Behind a text that closes its braces, a name in braces is filled by itself. -/
theorem fills_of_closes (hcs : Closes cs) (hps : Fills store (pieces cs) ps)
    (hname : '\x7d' ∉ name) (hshown : Fills store [.hole name] shown)
    (hqs : Fills store (pieces ds) qs) :
    Fills store (pieces (cs ++ '\x7b' :: (name ++ '\x7d' :: ds))) (ps ++ (shown ++ qs)) := by
  rw [pieces_append hcs, pieces_hole hname]
  exact hps.append (hshown.append hqs)

/-- A brace that is still open takes the name behind the text with it. -/
theorem fills_unclosed_iff (hbefore : Closes before) (hafter : '\x7d' ∉ after)
    (hname : '\x7d' ∉ name) (hbeforesquare : '[' ∉ before) (haftersquare : '[' ∉ after)
    (hnamesquare : '[' ∉ name) (hps : Fills store (pieces (before ++ '\x7b' :: after)) ps)
    (hqs : Fills store (pieces ds) qs) :
    Fills store (pieces (before ++ '\x7b' :: after ++ '\x7b' :: (name ++ '\x7d' :: ds)))
        (ps ++ (shown ++ qs)) ↔
      Fills store (pieces ('\x7b' :: (after ++ '\x7b' :: name ++ ['\x7d'])))
        ('\x7b' :: after ++ shown) := by
  obtain ⟨hole, hhole⟩ : ∃ hole, hole = after ++ '\x7b' :: name := ⟨_, rfl⟩
  have hclosed : '\x7d' ∉ hole := by simp [hhole, hafter, hname]
  have hsquare : '[' ∉ (Piece.hole hole).source := by
    simp [Piece.source, hhole, haftersquare, hnamesquare]
  obtain ⟨bs, hbs⟩ := exists_fills_pieces store hbeforesquare
  obtain ⟨hs, hhs⟩ := exists_fills store (List.forall_mem_singleton.2 hsquare)
  have hps' : ps = bs ++ '\x7b' :: after := by
    rw [pieces_append hbefore, pieces_unclosed hafter] at hps
    exact hps.unique (hbs.append (fills_chars store _))
  have hwhole : Fills store
      (pieces (before ++ '\x7b' :: after ++ '\x7b' :: (name ++ '\x7d' :: ds)))
        (bs ++ (hs ++ qs)) := by
    have htext : before ++ '\x7b' :: after ++ '\x7b' :: (name ++ '\x7d' :: ds) =
        before ++ '\x7b' :: (hole ++ '\x7d' :: ds) := by simp [hhole]
    rw [htext, pieces_append hbefore, pieces_hole hclosed]
    exact hbs.append (hhs.append hqs)
  have halone : Fills store (pieces ('\x7b' :: (hole ++ ['\x7d']))) hs := by
    rwa [pieces_hole hclosed, pieces]
  rw [← hhole]
  constructor
  · intro h
    have heq : bs ++ ('\x7b' :: after ++ shown ++ qs) = bs ++ (hs ++ qs) := by
      simpa [hps'] using h.unique hwhole
    rwa [List.append_cancel_right (List.append_cancel_left heq)]
  · intro h
    have heq : '\x7b' :: after ++ shown = hs := h.unique halone
    have htext : ps ++ (shown ++ qs) = bs ++ (hs ++ qs) := by simp [hps', ← heq]
    rwa [htext]

end

section

variable {store : Store} {p q x P Q : String} {v : Value} {s₁ s₂ s₃ : Text.Span}

theorem exists_lex_placeholder (hp : Lexer.Escaped '"' p.toList) (hx : Lexer.Escaped '"' x.toList)
    (hq : Lexer.Escaped '"' q.toList) : ∃ span, lex (interpolated (p ++ placeholder x ++ q)) =
      .ok [⟨.quoted .interpolated (p ++ placeholder x ++ q), span⟩] := by
  refine lex_interpolated ?_
  rw [String.toList_append, String.toList_append]
  exact (hp.append (escaped_placeholder hx)).append hq

/-- An opening brace of the first text that is still open: the hole it begins ends with the
name, and what that hole becomes decides. -/
theorem evaluate?_unclosed_iff {before after shown : String} (hbefore : Closes before.toList)
    (hafter : '\x7d' ∉ after.toList) (hp : Lexer.Escaped '"' (before ++ "\x7b" ++ after).toList)
    (hx : Lexer.Escaped '"' x.toList) (hxbrace : '\x7d' ∉ x.toList)
    (hpsquare : '[' ∉ (before ++ "\x7b" ++ after).toList) (hxsquare : '[' ∉ x.toList)
    (hP : Fills store (pieces (before ++ "\x7b" ++ after).toList) P.toList)
    (hQ : Fills store (pieces q.toList) Q.toList) :
    Fills store (pieces (before ++ "\x7b" ++ after ++ placeholder x ++ q).toList)
        (P ++ shown ++ Q).toList ↔
      evaluate? store (interpolated (placeholder (after ++ "\x7b" ++ x))) =
        some (.text ("\x7b" ++ after ++ shown)) := by
  have hptext : (before ++ "\x7b" ++ after).toList = before.toList ++ '\x7b' :: after.toList := by
    simp
  have htext : (before ++ "\x7b" ++ after ++ placeholder x ++ q).toList =
      before.toList ++ '\x7b' :: after.toList ++ '\x7b' :: (x.toList ++ '\x7d' :: q.toList) := by
    simp [toList_placeholder]
  have hwanted : (P ++ shown ++ Q).toList = P.toList ++ (shown.toList ++ Q.toList) := by simp
  have hhole : (placeholder (after ++ "\x7b" ++ x)).toList =
      '\x7b' :: (after.toList ++ '\x7b' :: x.toList ++ ['\x7d']) := by
    simp [toList_placeholder]
  have hbecomes : ("\x7b" ++ after ++ shown).toList = '\x7b' :: after.toList ++ shown.toList := by
    simp
  rw [hptext] at hp hpsquare hP
  rw [List.mem_append, List.mem_cons, not_or, not_or] at hpsquare
  rw [List.append_cons] at hp
  have hafterescaped := hp.of_append (Lexer.escapes_concat (by decide) before.toList)
  have hbrace : Lexer.Escaped '"' "\x7b".toList :=
    Lexer.escaped_of_not_mem (by decide) (by decide)
  have hinner : Lexer.Escaped '"' (after ++ "\x7b" ++ x).toList := by
    rw [String.toList_append, String.toList_append]
    exact (hafterescaped.append hbrace).append hx
  obtain ⟨span, hlex⟩ := lex_interpolated (escaped_placeholder hinner)
  rw [evaluate?_interpolated_iff hlex (by simp [hhole, hpsquare.2.2, hxsquare]), hhole, hbecomes,
    htext, hwanted]
  exact fills_unclosed_iff hbefore hafter hxbrace hpsquare.1 hpsquare.2.2 hxsquare hP hQ

/-- A name in braces between two texts is replaced by its value, and the texts become what
they become by themselves, exactly if the first text leaves no opening brace open, or the
hole that the name then ends happens to become the text in front of the name and its
value. -/
theorem evaluate?_placeholder_iff
    (hp : lex (interpolated p) = .ok [⟨.quoted .interpolated p, s₁⟩])
    (hq : lex (interpolated q) = .ok [⟨.quoted .interpolated q, s₂⟩])
    (hx : lex x = .ok [⟨.word x, s₃⟩]) (hv : store.get? x = some v)
    (hpsquare : '[' ∉ p.toList) (hqsquare : '[' ∉ q.toList)
    (hP : evaluate? store (interpolated p) = some (.text P))
    (hQ : evaluate? store (interpolated q) = some (.text Q)) :
    evaluate? store (interpolated (p ++ placeholder x ++ q)) =
        some (.text (P ++ v.shown ++ Q)) ↔
      ∀ before after, p = before ++ "\x7b" ++ after → Closes before.toList →
        '\x7d' ∉ after.toList →
          evaluate? store (interpolated (placeholder (after ++ "\x7b" ++ x))) =
            some (.text ("\x7b" ++ after ++ v.shown)) := by
  obtain ⟨hword, htrim⟩ := name_of_lex hx
  have hnot (c : Char) (hc : Text.continuesWord c = false) : c ∉ x.toList := fun hmem => by
    simp [hword c hmem] at hc
  have hpescaped := escaped_of_lex hp
  have hxescaped : Lexer.Escaped '"' x.toList :=
    Lexer.escaped_of_not_mem (hnot '"' rfl) (hnot '\\' rfl)
  rw [evaluate?_interpolated_iff hp hpsquare] at hP
  rw [evaluate?_interpolated_iff hq hqsquare] at hQ
  obtain ⟨span, hlex⟩ := exists_lex_placeholder hpescaped hxescaped (escaped_of_lex hq)
  have htext : (p ++ placeholder x ++ q).toList =
      p.toList ++ '\x7b' :: (x.toList ++ '\x7d' :: q.toList) := by simp [toList_placeholder]
  have hsquare : '[' ∉ (p ++ placeholder x ++ q).toList := by
    simp [htext, hpsquare, hqsquare, hnot '[' rfl]
  rw [evaluate?_interpolated_iff hlex hsquare]
  constructor
  · rintro h before after rfl hbefore hafter
    exact (evaluate?_unclosed_iff hbefore hafter hpescaped hxescaped (hnot '\x7d' rfl) hpsquare
      (hnot '[' rfl) hP hQ).1 h
  · intro h
    rcases closes_or_unclosed p.toList with hcloses | ⟨before, after, hptext, hafter, hbefore⟩
    · have hwanted : (P ++ v.shown ++ Q).toList = P.toList ++ (v.shown.toList ++ Q.toList) := by
        simp
      rw [htext, hwanted]
      exact fills_of_closes hcloses hP (hnot '\x7d' rfl) (fills_name hx htrim hv) hQ
    · obtain rfl : p = String.ofList before ++ "\x7b" ++ String.ofList after := by
        rw [← String.toList_inj, hptext]
        simp
      rw [← @String.toList_ofList before] at hbefore
      rw [← @String.toList_ofList after] at hafter
      exact (evaluate?_unclosed_iff hbefore hafter hpescaped hxescaped (hnot '\x7d' rfl) hpsquare
        (hnot '[' rfl) hP hQ).2 (h _ _ rfl hbefore hafter)

end

/-- The hole that the stray brace begins ends with the name: blanks, a brace and the name
are no reference, so all of it stays as it is. -/
theorem evaluate?_placeholder_ne :
    let store := ({} : Store).define "x" (.number 5)
    lex (interpolated "\x7b ") = .ok [⟨.quoted .interpolated "\x7b ", ⟨0, 5⟩⟩] ∧
      lex (interpolated "") = .ok [⟨.quoted .interpolated "", ⟨0, 3⟩⟩] ∧
      lex "x" = .ok [⟨.word "x", ⟨0, 1⟩⟩] ∧ store.get? "x" = some (.number 5) ∧
      evaluate? store (interpolated "\x7b ") = some (.text "\x7b ") ∧
      evaluate? store (interpolated "") = some (.text "") ∧
      evaluate? store (interpolated ("\x7b " ++ placeholder "x" ++ "")) ≠
        some (.text ("\x7b " ++ (Value.number 5).shown ++ "")) := by
  intro store
  refine ⟨by decide +kernel, by decide +kernel, by decide +kernel, rfl, ?_, ?_, ?_⟩
  · decide +kernel
  · decide +kernel
  · decide +kernel

/-- A stray closing brace and a hole that is closed do not disturb the name behind them. -/
theorem evaluate?_placeholder_name :
    let store := ({} : Store).define "x" (.number 5)
    let p := "\x7d \x7bno\x7d "
    evaluate? store (interpolated p) = some (.text p) ∧
      evaluate? store (interpolated " \x7b") = some (.text " \x7b") ∧
      evaluate? store (interpolated (p ++ placeholder "x" ++ " \x7b")) =
        some (.text (p ++ "5" ++ " \x7b")) := by
  intro store p
  have hp : lex (interpolated p) = .ok [⟨.quoted .interpolated p, ⟨0, 10⟩⟩] := by decide +kernel
  have hq : lex (interpolated " \x7b") = .ok [⟨.quoted .interpolated " \x7b", ⟨0, 5⟩⟩] := by
    decide +kernel
  have hx : lex "x" = .ok [⟨.word "x", ⟨0, 1⟩⟩] := by decide +kernel
  have hP : evaluate? store (interpolated p) = some (.text p) := by decide +kernel
  have hQ : evaluate? store (interpolated " \x7b") = some (.text " \x7b") := by decide +kernel
  have hshown : (Value.number 5).shown = "5" := by decide +kernel
  refine ⟨hP, hQ, ?_⟩
  rw [← hshown]
  refine (evaluate?_placeholder_iff hp hq hx rfl (by decide) (by decide) hP hQ).2 ?_
  intro before after hsplit _ hafter
  have hcloses : Closes p.toList := by decide
  exact absurd (hcloses before.toList after.toList (by simp [hsplit])) hafter

end SnippetConsole
