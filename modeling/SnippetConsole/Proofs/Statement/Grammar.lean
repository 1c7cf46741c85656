import Mathlib.Data.Option.Basic
import SnippetConsole.Proofs.Statement.Parts
import SnippetConsole.Proofs.Token.Brackets

/-!
# The grammar of statements

What the forms of statements are made of, said of whole runs and without any reader:
fixed tokens in front, expressions, enclosed runs, lists of items and what may stand
between the brackets of a print. Each reader finds just what the grammar says.

* `IsExpr`, `expr?_eq_some_iff` — an expression.
* `Items`, `items?_eq_some_iff` — items between commas.
* `Argument`, `argument?_eq_some_iff` — what is printed.
* `Init`, `init?_eq_some_iff` — how an array is initialized.
-/

namespace SnippetConsole

namespace Grammar

/-! ## The parts of the grammar -/

/-- The run starts with tokens of the given kinds, and the rest follows them. -/
inductive Leads : List Kind → List Token → List Token → Prop
  | nil {ts : List Token} : Leads [] ts ts
  | cons {kind : Kind} {span : Text.Span} {kinds : List Kind} {ts rest : List Token} :
      Leads kinds ts rest → Leads (kind :: kinds) (⟨kind, span⟩ :: ts) rest

/-- An expression: some tokens, whose depth never goes negative and ends at zero. -/
structure IsExpr (ts : List Token) : Prop where
  ne_nil : ts ≠ []
  above : ∀ pre, pre <+: ts → 0 ≤ height pre
  level : height ts = 0

/-- The expression that a run of a line stands for. -/
def exprOf (line : String) (ts : List Token) : Expr := .of (sourceText line ts)

/-- Expressions separated by commas at depth zero; one more comma may follow the last. -/
inductive Listed (line : String) : List Token → List Expr → Prop
  | last {ts : List Token} : IsExpr ts → Solid .comma 0 ts → Listed line ts [exprOf line ts]
  | trailing {ts : List Token} {span : Text.Span} : IsExpr ts → Solid .comma 0 ts →
      Listed line (ts ++ [⟨.comma, span⟩]) [exprOf line ts]
  | cons {part rest : List Token} {span : Text.Span} {es : List Expr} : IsExpr part →
      Solid .comma 0 part → Listed line rest es →
      Listed line (part ++ ⟨.comma, span⟩ :: rest) (exprOf line part :: es)

/-- The items of a list: none, or expressions separated by commas. -/
inductive Items (line : String) : List Token → List Expr → Prop
  | empty : Items line [] []
  | listed {ts : List Token} {es : List Expr} : Listed line ts es → Items line ts es

/-- The run names a slot of an array by a number. Fixed tokens are given with their shapes,
so here the bracket behind the number is a square one. -/
def IsSlot (ts : List Token) (array : String) (index : Nat) : Prop :=
  ∃ n, Leads [.word array, .opening .square, .number n, .closing .square] ts [] ∧
    index? n = some index

/-- What a print prints: nothing, a slot, or whatever else stands there. -/
inductive Argument (line : String) : List Token → Statement → Prop
  | empty : Argument line [] (.print none)
  | slot {ts : List Token} {array : String} {index : Nat} : IsSlot ts array index →
      Argument line ts (.printSlot array index)
  | expr {ts : List Token} : ts ≠ [] → (∀ array index, ¬IsSlot ts array index) →
      Argument line ts (.print (some (exprOf line ts)))

/-- How an array is initialized: a list or a size behind `new`, or, where the array is
declared with its type, a list alone. -/
inductive Init (line : String) (typed : Bool) : List Token → ArrayInit → Prop
  | list {type : String} {ts body inside : List Token} {es : List Expr} :
      Leads [.new, .word type, .opening .square, .closing .square] ts body →
      Enclosed .curly inside body → Items line inside es → Init line typed ts (.items es)
  | sized {type : String} {ts body inside : List Token} : Leads [.new, .word type] ts body →
      Enclosed .square inside body → IsExpr inside →
      Init line typed ts (.sized (exprOf line inside))
  | bare {ts inside : List Token} {es : List Expr} : typed = true → Enclosed .curly inside ts →
      Items line inside es → Init line typed ts (.items es)

/-! ## Fixed tokens -/

theorem leads_nil_iff {ts rest : List Token} : Leads [] ts rest ↔ ts = rest := by
  constructor
  · rintro ⟨⟩
    rfl
  · rintro rfl
    exact .nil

theorem leads_cons_iff {kind : Kind} {kinds : List Kind} {ts rest : List Token} :
    Leads (kind :: kinds) ts rest ↔ ∃ span us, ts = ⟨kind, span⟩ :: us ∧ Leads kinds us rest := by
  constructor
  · rintro ⟨⟩
    exact ⟨_, _, rfl, ‹_›⟩
  · rintro ⟨span, us, rfl, h⟩
    exact .cons h

theorem Leads.head {kind : Kind} {kinds : List Kind} {t : Token} {ts rest : List Token}
    (h : Leads (kind :: kinds) (t :: ts) rest) : t.kind = kind := by
  cases h
  rfl

theorem Leads.exists_append {kinds : List Kind} {ts rest : List Token}
    (h : Leads kinds ts rest) :
    ∃ front, front.map Token.kind = kinds ∧ ts = front ++ rest := by
  induction h with
  | nil => exact ⟨[], rfl, rfl⟩
  | cons _ ih =>
    obtain ⟨front, hkinds, rfl⟩ := ih
    exact ⟨_ :: front, by simp [hkinds], rfl⟩

/-! ## Expressions -/

section

variable {line : String} {ts : List Token}

theorem isExpr_iff : IsExpr ts ↔ ts ≠ [] ∧ balanced ts = true := by
  rw [balanced_iff]
  exact ⟨fun h => ⟨h.ne_nil, h.above, h.level⟩, fun h => ⟨h.1, h.2.1, h.2.2⟩⟩

theorem IsExpr.balanced (h : IsExpr ts) : balanced ts = true := (isExpr_iff.1 h).2

theorem expr?_eq_some_iff {e : Expr} :
    Shape.expr? line ts = some e ↔ IsExpr ts ∧ e = exprOf line ts := by
  have hcond : (!ts.isEmpty && balanced ts) = true ↔ IsExpr ts := by simp [isExpr_iff]
  unfold Shape.expr?
  split
  · next h => simp [hcond.1 h, exprOf, eq_comm]
  · next h => simp [mt hcond.2 h]

theorem map_expr?_eq_some_iff {β : Type} {k : Expr → β} {b : β} :
    (Shape.expr? line ts).map k = some b ↔ IsExpr ts ∧ b = k (exprOf line ts) := by
  rw [Option.map_eq_some_iff]
  constructor
  · rintro ⟨e, he, rfl⟩
    obtain ⟨hexpr, rfl⟩ := expr?_eq_some_iff.1 he
    exact ⟨hexpr, rfl⟩
  · rintro ⟨hexpr, rfl⟩
    exact ⟨_, expr?_eq_some_iff.2 ⟨hexpr, rfl⟩, rfl⟩

/-! ## Items -/

theorem Solid.cons {separator : Kind} {depth : Int} {t : Token}
    (ht : ¬(depth = 0 ∧ t.kind = separator)) (h : Solid separator (depth + t.kind.slope) ts) :
    Solid separator depth (t :: ts) := by
  intro pre u post heq hu
  cases pre with
  | nil =>
    cases heq
    simpa using fun hdepth => ht ⟨hdepth, hu⟩
  | cons v pre =>
    obtain ⟨rfl, rfl⟩ := List.cons.inj heq
    rw [height_cons, ← Int.add_assoc]
    exact h pre u post rfl hu

/-- A run has no separator at depth zero, or it is cut at the first one. -/
theorem solid_or_first_separator (separator : Kind) (depth : Int) (ts : List Token) :
    Solid separator depth ts ∨ ∃ part t rest, ts = part ++ t :: rest ∧ t.kind = separator ∧
      depth + height part = 0 ∧ Solid separator depth part := by
  induction ts generalizing depth with
  | nil => exact .inl fun pre t post h => absurd h (by simp)
  | cons t ts ih =>
    by_cases ht : depth = 0 ∧ t.kind = separator
    · refine .inr ⟨[], t, ts, rfl, ht.2, by simpa using ht.1, ?_⟩
      exact fun pre t post h => absurd h (by simp)
    · rcases ih (depth + t.kind.slope) with h | ⟨part, u, rest, rfl, hu, hzero, hpart⟩
      · exact .inl (Solid.cons ht h)
      · refine .inr ⟨t :: part, u, rest, rfl, hu, ?_, Solid.cons ht hpart⟩
        rwa [height_cons, ← Int.add_assoc]

theorem splitAtTop_of_solid {separator : Kind} (h : Solid separator 0 ts) :
    splitAtTop separator ts = [ts] := by
  have := splitFrom_append h []
  rwa [List.append_nil, splitFrom, List.modifyHead_cons, List.append_nil] at this

theorem splitAtTop_length_eq_one_iff {separator : Kind} :
    (splitAtTop separator ts).length = 1 ↔ Solid separator 0 ts := by
  rcases solid_or_first_separator separator 0 ts with h | ⟨part, t, rest, rfl, ht, hzero, hpart⟩
  · simp [splitAtTop_of_solid h, h]
  · rw [Int.zero_add] at hzero
    have hne : ¬Solid separator 0 (part ++ t :: rest) := fun h =>
      h part t rest rfl ht (by rw [hzero, Int.add_zero])
    have hrest := List.length_pos_of_ne_nil (splitAtTop_ne_nil separator rest)
    rw [splitAtTop_append_cons hzero hpart ht, List.length_cons, iff_false_right hne]
    omega

/-- One item alone. -/
theorem items?_of_solid (hne : ts ≠ []) (h : Solid .comma 0 ts) :
    Shape.items? line ts = (Shape.expr? line ts).map fun e => [e] := by
  unfold Shape.items?
  rw [if_neg (by simpa using hne), splitAtTop_of_solid h]
  cases he : Shape.expr? line ts <;> simp [he]

/-- One item and a comma. -/
theorem items?_trailing {t : Token} (hz : height ts = 0) (h : Solid .comma 0 ts)
    (ht : t.kind = .comma) :
    Shape.items? line (ts ++ [t]) = (Shape.expr? line ts).map fun e => [e] := by
  unfold Shape.items?
  rw [if_neg (by simp), splitAtTop_append_cons hz h ht]
  cases he : Shape.expr? line ts <;> simp [he, splitAtTop, splitFrom]

/-- One item, a comma and further items. -/
theorem items?_append_cons {part rest : List Token} {t : Token} (hz : height part = 0)
    (h : Solid .comma 0 part) (ht : t.kind = .comma) (hrest : rest ≠ []) :
    Shape.items? line (part ++ t :: rest) = (do
      let e ← Shape.expr? line part
      let es ← Shape.items? line rest
      return e :: es) := by
  unfold Shape.items?
  rw [if_neg (by simp), if_neg (by simpa using hrest), splitAtTop_append_cons hz h ht]
  -- an empty last part is the last part of the rest, and not the whole rest
  cases hparts : splitAtTop .comma rest with
  | nil => exact absurd hparts (splitAtTop_ne_nil .comma rest)
  | cons first parts =>
    cases parts with
    | nil =>
      have hsolid : Solid .comma 0 rest := splitAtTop_length_eq_one_iff.1 (by rw [hparts]; rfl)
      have hfirst : first ≠ [] := by
        rw [splitAtTop_of_solid hsolid] at hparts
        rwa [← (List.cons.inj hparts).1]
      simp [hfirst]
    | cons second parts =>
      by_cases hlast : (second :: parts).getLast? = some [] <;> simp [hlast]

theorem Listed.ne_nil {es : List Expr} (h : Listed line ts es) : ts ≠ [] := by
  cases h with
  | last hts => exact hts.ne_nil
  | trailing => simp
  | cons => simp

theorem items?_of_listed {es : List Expr} (h : Listed line ts es) :
    Shape.items? line ts = some es := by
  induction h with
  | last hts hsolid =>
    rw [items?_of_solid hts.ne_nil hsolid, map_expr?_eq_some_iff.2 ⟨hts, rfl⟩]
  | trailing hts hsolid =>
    rw [items?_trailing hts.level hsolid rfl, map_expr?_eq_some_iff.2 ⟨hts, rfl⟩]
  | cons hpart hsolid hrest ih =>
    rw [items?_append_cons hpart.level hsolid rfl hrest.ne_nil,
      expr?_eq_some_iff.2 ⟨hpart, rfl⟩, ih]
    rfl

theorem listed_of_items? {es : List Expr} (hne : ts ≠ []) (h : Shape.items? line ts = some es) :
    Listed line ts es := by
  -- the run up to its first comma is one item, and what follows is shorter
  induction hlength : ts.length using Nat.strong_induction_on generalizing ts es with
  | _ n ih =>
  rcases solid_or_first_separator .comma 0 ts with hts | ⟨part, t, rest, rfl, ht, hzero, hpart⟩
  · rw [items?_of_solid hne hts] at h
    obtain ⟨hexpr, rfl⟩ := map_expr?_eq_some_iff.1 h
    exact .last hexpr hts
  · rw [Int.zero_add] at hzero
    obtain ⟨kind, span⟩ := t
    obtain rfl : kind = .comma := ht
    by_cases hrest : rest = []
    · subst hrest
      rw [items?_trailing hzero hpart rfl] at h
      obtain ⟨hexpr, rfl⟩ := map_expr?_eq_some_iff.1 h
      exact .trailing hexpr hpart
    · rw [items?_append_cons hzero hpart rfl hrest] at h
      simp only [Option.bind_eq_bind, Option.bind_eq_some_iff, Option.pure_def,
        Option.some.injEq] at h
      obtain ⟨e, he, es, hes, rfl⟩ := h
      obtain ⟨hexpr, rfl⟩ := expr?_eq_some_iff.1 he
      refine .cons hexpr hpart (ih rest.length ?_ hrest hes rfl)
      rw [← hlength, List.length_append, List.length_cons]
      omega

theorem items?_eq_some_iff {es : List Expr} :
    Shape.items? line ts = some es ↔ Items line ts es := by
  constructor
  · intro h
    by_cases hts : ts = []
    · subst hts
      cases h
      exact .empty
    · exact .listed (listed_of_items? hts h)
  · rintro (_ | h)
    · rfl
    · exact items?_of_listed h

/-! ## Arguments of a print -/

theorem slot?_eq_some_iff {s : Statement} :
    Shape.slot? ts = some s ↔ ∃ array index, IsSlot ts array index ∧ s = .printSlot array index := by
  constructor
  · intro h
    unfold Shape.slot? at h
    split at h
    · obtain ⟨index, hindex, rfl⟩ := Option.map_eq_some_iff.1 h
      exact ⟨_, index, ⟨_, .cons (.cons (.cons (.cons .nil))), hindex⟩, rfl⟩
    · cases h
  · rintro ⟨array, index, ⟨n, hleads, hindex⟩, rfl⟩
    simp only [leads_cons_iff, leads_nil_iff] at hleads
    obtain ⟨_, _, rfl, _, _, rfl, _, _, rfl, _, _, rfl, rfl⟩ := hleads
    simp [Shape.slot?, hindex]

theorem slot?_eq_none_iff : Shape.slot? ts = none ↔ ∀ array index, ¬IsSlot ts array index := by
  rw [Option.eq_none_iff_forall_ne_some]
  constructor
  · exact fun h array index hslot => h _ (slot?_eq_some_iff.2 ⟨array, index, hslot, rfl⟩)
  · rintro h s hs
    obtain ⟨array, index, hslot, -⟩ := slot?_eq_some_iff.1 hs
    exact h array index hslot

/-- Between brackets whatever is neither nothing nor a slot is an expression. -/
theorem argument?_eq_some_iff (hb : balanced ts = true) {s : Statement} :
    Shape.argument? line ts = some s ↔ Argument line ts s := by
  unfold Shape.argument?
  constructor
  · intro h
    split at h
    · next hnil =>
      obtain rfl := List.isEmpty_iff.1 hnil
      cases h
      exact .empty
    · next hne =>
      rcases (Option.orElse_eq_some _ _ _).1 h with hs | ⟨hnone, hs⟩
      · obtain ⟨array, index, hslot, rfl⟩ := slot?_eq_some_iff.1 hs
        exact .slot hslot
      · obtain ⟨hexpr, rfl⟩ := map_expr?_eq_some_iff.1 hs
        exact .expr hexpr.ne_nil (slot?_eq_none_iff.1 hnone)
  · intro h
    cases h with
    | empty => rfl
    | slot hslot =>
      have hne : ts ≠ [] := by
        rintro rfl
        obtain ⟨n, hleads, -⟩ := hslot
        cases hleads
      rw [if_neg (by simpa using hne), slot?_eq_some_iff.2 ⟨_, _, hslot, rfl⟩]
      rfl
    | expr hne hslot =>
      rw [if_neg (by simpa using hne), slot?_eq_none_iff.2 hslot,
        expr?_eq_some_iff.2 ⟨isExpr_iff.2 ⟨hne, hb⟩, rfl⟩]
      rfl

/-! ## Initializers -/

theorem newList?_eq_some_iff {init : ArrayInit} : Shape.newList? line ts = some init ↔
    ∃ type body inside es, Leads [.new, .word type, .opening .square, .closing .square] ts body ∧
      Enclosed .curly inside body ∧ Items line inside es ∧ init = .items es := by
  constructor
  · intro h
    unfold Shape.newList? at h
    split at h
    · obtain ⟨inside, hinside, h⟩ := Option.bind_eq_some_iff.1 h
      obtain ⟨es, hes, rfl⟩ := Option.map_eq_some_iff.1 h
      exact ⟨_, _, inside, es, .cons (.cons (.cons (.cons .nil))), enclosed_cons_iff.2 hinside,
        items?_eq_some_iff.1 hes, rfl⟩
    · cases h
  · rintro ⟨type, body, inside, es, hleads, hinside, hes, rfl⟩
    obtain ⟨_, us, rfl, henclosed⟩ := hinside.exists_enclosed?
    simp only [leads_cons_iff, leads_nil_iff] at hleads
    obtain ⟨_, _, rfl, _, _, rfl, _, _, rfl, _, _, rfl, rfl⟩ := hleads
    simp [Shape.newList?, henclosed, items?_eq_some_iff.2 hes]

theorem newSized?_eq_some_iff {init : ArrayInit} : Shape.newSized? line ts = some init ↔
    ∃ type body inside, Leads [.new, .word type] ts body ∧ Enclosed .square inside body ∧
      IsExpr inside ∧ init = .sized (exprOf line inside) := by
  constructor
  · intro h
    unfold Shape.newSized? at h
    split at h
    · obtain ⟨inside, hinside, h⟩ := Option.bind_eq_some_iff.1 h
      obtain ⟨hexpr, rfl⟩ := map_expr?_eq_some_iff.1 h
      exact ⟨_, _, inside, .cons (.cons .nil), enclosed_cons_iff.2 hinside, hexpr, rfl⟩
    · cases h
  · rintro ⟨type, body, inside, hleads, hinside, hexpr, rfl⟩
    obtain ⟨_, us, rfl, henclosed⟩ := hinside.exists_enclosed?
    simp only [leads_cons_iff, leads_nil_iff] at hleads
    obtain ⟨_, _, rfl, _, _, rfl, rfl⟩ := hleads
    simp [Shape.newSized?, henclosed, expr?_eq_some_iff.2 ⟨hexpr, rfl⟩]

theorem bareList?_eq_some_iff {init : ArrayInit} : Shape.bareList? line ts = some init ↔
    ∃ inside es, Enclosed .curly inside ts ∧ Items line inside es ∧ init = .items es := by
  constructor
  · intro h
    unfold Shape.bareList? at h
    split at h
    · obtain ⟨inside, hinside, h⟩ := Option.bind_eq_some_iff.1 h
      obtain ⟨es, hes, rfl⟩ := Option.map_eq_some_iff.1 h
      exact ⟨inside, es, enclosed_cons_iff.2 hinside, items?_eq_some_iff.1 hes, rfl⟩
    · cases h
  · rintro ⟨inside, es, hinside, hes, rfl⟩
    obtain ⟨_, us, rfl, henclosed⟩ := hinside.exists_enclosed?
    simp [Shape.bareList?, henclosed, items?_eq_some_iff.2 hes]

/-- A size is not read as a list: nothing stands between the brackets of a list. -/
theorem newList?_of_newSized? {init : ArrayInit} (h : Shape.newSized? line ts = some init) :
    Shape.newList? line ts = none := by
  rw [Option.eq_none_iff_forall_ne_some]
  intro init' h'
  obtain ⟨type, body, inside, hleads, hinside, -, -⟩ := newSized?_eq_some_iff.1 h
  obtain ⟨type', body', inside', es, hleads', hinside', -, -⟩ := newList?_eq_some_iff.1 h'
  simp only [leads_cons_iff, leads_nil_iff] at hleads hleads'
  obtain ⟨_, _, rfl, _, _, rfl, _, _, rfl, _, _, rfl, rfl⟩ := hleads'
  obtain ⟨_, _, heq, _, _, heq', rfl⟩ := hleads
  cases heq
  cases heq'
  -- the bracket closes at once, so the list behind it would have to be empty
  obtain ⟨_, us, rfl, -⟩ := hinside'.exists_enclosed?
  cases enclosed_cons_iff.1 hinside

theorem new?_of_bareList? {init : ArrayInit} (h : Shape.bareList? line ts = some init) :
    Shape.newList? line ts = none ∧ Shape.newSized? line ts = none := by
  obtain ⟨inside, es, hinside, -, -⟩ := bareList?_eq_some_iff.1 h
  obtain ⟨_, us, rfl, -⟩ := hinside.exists_enclosed?
  exact ⟨rfl, rfl⟩

/-- The initializers that a declaration with or without its type is given. -/
theorem init?_eq_some_iff {typed : Bool} {init : ArrayInit} :
    (Shape.newList? line ts <|> Shape.newSized? line ts <|>
      if typed then Shape.bareList? line ts else none) = some init ↔ Init line typed ts init := by
  rw [Option.orElse_eq_some, Option.orElse_eq_some]
  constructor
  · rintro (h | ⟨-, h | ⟨-, h⟩⟩)
    · obtain ⟨type, body, inside, es, hleads, hinside, hes, rfl⟩ := newList?_eq_some_iff.1 h
      exact .list hleads hinside hes
    · obtain ⟨type, body, inside, hleads, hinside, hexpr, rfl⟩ := newSized?_eq_some_iff.1 h
      exact .sized hleads hinside hexpr
    · split at h
      · next htyped =>
        obtain ⟨inside, es, hinside, hes, rfl⟩ := bareList?_eq_some_iff.1 h
        exact .bare htyped hinside hes
      · cases h
  · intro h
    cases h with
    | list hleads hinside hes =>
      exact .inl (newList?_eq_some_iff.2 ⟨_, _, _, _, hleads, hinside, hes, rfl⟩)
    | sized hleads hinside hexpr =>
      have h : Shape.newSized? line ts = _ :=
        newSized?_eq_some_iff.2 ⟨_, _, _, hleads, hinside, hexpr, rfl⟩
      exact .inr ⟨newList?_of_newSized? h, .inl h⟩
    | bare htyped hinside hes =>
      have h : Shape.bareList? line ts = _ := bareList?_eq_some_iff.2 ⟨_, _, hinside, hes, rfl⟩
      obtain ⟨hlist, hsized⟩ := new?_of_bareList? h
      exact .inr ⟨hlist, .inr ⟨hsized, by rw [if_pos htyped, h]⟩⟩

theorem typedInit?_eq_some_iff {init : ArrayInit} :
    (Shape.newList? line ts <|> Shape.newSized? line ts <|> Shape.bareList? line ts) = some init ↔
      Init line true ts init := by
  rw [← init?_eq_some_iff, if_pos rfl]

theorem varInit?_eq_some_iff {init : ArrayInit} :
    (Shape.newList? line ts <|> Shape.newSized? line ts) = some init ↔
      Init line false ts init := by
  rw [← init?_eq_some_iff, if_neg Bool.false_ne_true]
  simp

end

end Grammar

end SnippetConsole
