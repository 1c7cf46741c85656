import Mathlib
import SnippetConsole.Proofs.Statement.Forms
import SnippetConsole.Token.Lexer

/-!
# Which forms a run can have at once

The first tokens of a run leave it one form only, except that what declares a name may also
make an array or an object, and never both: behind `new` and the name of a type stands either
a square or a round bracket. So the order in which the forms are tried decides nothing else.

* `Grammar.Form.possible` — the forms that the first tokens of a run leave.
* `Grammar.Fits.mem_possible` — a run has no other form.
* `Grammar.filter_takes_eq` — the forms whose recognizers take a run stand in the same order,
  however the recognizers are ordered, as long as constructions come before declarations.
* `Grammar.one_form_or_declaration` — a run has one form, or declares what it constructs.
-/

namespace SnippetConsole

theorem Enclosed.kinds_eq {shape : Bracket} {inside run : List Token}
    (h : Enclosed shape inside run) :
    ∃ shape', run.map Token.kind =
      .opening shape :: inside.map Token.kind ++ [.closing shape'] := by
  obtain ⟨opener, closer, shape', rfl, hopener, hcloser, -⟩ := enclosed_iff.1 h
  exact ⟨shape', by simp [hopener, hcloser]⟩

namespace Grammar

/-! ## The forms that the first tokens leave -/

/-- The forms that a run may have whose first tokens are of these kinds, those that construct
something first. -/
def Form.possible : List Kind → List Form
  | .word object :: .dot :: .word _ :: .opening .round :: _ =>
    [if object = "Console" then .print else .call]
  | .word _ :: .dot :: .word _ :: .equals :: _ => [.setField]
  | .word _ :: .opening .square :: .closing .square :: _ => [.makeArray]
  | .word _ :: .opening .square :: _ => [.setSlot]
  | .word type :: .word _ :: .equals :: .new :: .word _ :: .opening .square :: _ =>
    if type = "var" then [.makeArray, .declare] else [.declare]
  | .word _ :: .word _ :: .equals :: .new :: .word _ :: .opening .round :: _ =>
    [.construct, .declare]
  | .word _ :: .word _ :: .equals :: _ => [.declare]
  | .word _ :: .equals :: _ => [.assign]
  | .word _ :: .update _ :: _ => [.update]
  | .word _ :: .step _ :: _ => [.step]
  | .step _ :: .word _ :: _ => [.step]
  | _ => []

/-- Two forms are possible only for a declaration that constructs something. -/
theorem Form.possible_cases (kinds : List Kind) :
    Form.possible kinds = [] ∨ (∃ form, Form.possible kinds = [form]) ∨
      (Form.possible kinds = [.makeArray, .declare] ∧ kinds.head? = some (.word "var")) ∨
      Form.possible kinds = [.construct, .declare] := by
  unfold Form.possible
  split
  case h_5 type _ _ _ =>
    by_cases hvar : type = "var"
    · exact .inr (.inr (.inl (by simp [hvar])))
    · exact .inr (.inl ⟨.declare, by simp [hvar]⟩)
  case h_6 => exact .inr (.inr (.inr rfl))
  case h_12 => exact .inl rfl
  all_goals exact .inr (.inl ⟨_, rfl⟩)

section

variable {line : String} {ts rest : List Token} {form : Form} {s : Statement}

theorem Leads.kinds_eq {kinds : List Kind} (h : Leads kinds ts rest) :
    ts.map Token.kind = kinds ++ rest.map Token.kind := by
  obtain ⟨front, rfl, rfl⟩ := h.exists_append
  exact List.map_append

/-- An expression does not start with a closing bracket. -/
theorem IsExpr.head_ne_closing {t : Token} (h : IsExpr (t :: ts)) (shape : Bracket) :
    t.kind ≠ .closing shape := by
  intro ht
  have habove := h.above [t] ⟨ts, rfl⟩
  rw [height_cons, height_nil, ht] at habove
  simp [Kind.slope] at habove

theorem mem_possible_declare (type name : String) (kinds : List Kind) :
    .declare ∈ Form.possible (.word type :: .word name :: .equals :: kinds) := by
  unfold Form.possible
  split <;> simp_all
  split <;> simp

/-- Where a list alone does not do, an array is made by `new`, a type and a square bracket. -/
theorem Init.leads {init : ArrayInit} (h : Init line false ts init) :
    ∃ type rest, ts.map Token.kind = .new :: .word type :: .opening .square :: rest := by
  cases h with
  | list hleads _ _ => exact ⟨_, _, hleads.kinds_eq⟩
  | sized hleads henclosed _ =>
    obtain ⟨shape, hkinds⟩ := henclosed.kinds_eq
    exact ⟨_, _, by rw [hleads.kinds_eq, hkinds]; rfl⟩
  | bare htyped => cases htyped

theorem Fits.mem_possible (h : Fits line form ts s) :
    form ∈ Form.possible (ts.map Token.kind) := by
  cases h with
  | print hleads _ henclosed _ =>
    obtain ⟨shape, hkinds⟩ := henclosed.kinds_eq
    rw [hleads.kinds_eq, hkinds]
    simp [Form.possible]
  | makeArray hleads _ =>
    rw [hleads.kinds_eq]
    simp [Form.possible]
  | makeVar hleads hinit =>
    obtain ⟨type, rest, hkinds⟩ := hinit.leads
    rw [hleads.kinds_eq, hkinds]
    simp [Form.possible]
  | construct hleads henclosed =>
    obtain ⟨shape, hkinds⟩ := henclosed.kinds_eq
    rw [hleads.kinds_eq, hkinds]
    simp [Form.possible]
  | declare hleads _ _ _ _ =>
    rw [hleads.kinds_eq]
    exact mem_possible_declare _ _ _
  | setField hleads _ =>
    rw [hleads.kinds_eq]
    simp [Form.possible]
  | setSlot hleads henclosed hindex _ _ =>
    obtain ⟨shape, hkinds⟩ := henclosed.kinds_eq
    obtain ⟨t, inside, rfl⟩ := List.exists_cons_of_ne_nil hindex.ne_nil
    have hfirst := hindex.head_ne_closing .square
    rw [hleads.kinds_eq, List.map_append, hkinds]
    simp [Form.possible, hfirst]
  | assign hleads _ _ =>
    rw [hleads.kinds_eq]
    simp [Form.possible]
  | update hleads _ =>
    rw [hleads.kinds_eq]
    simp [Form.possible]
  | stepBehind hleads | stepInFront hleads =>
    rw [hleads.kinds_eq]
    simp [Form.possible]
  | call hleads hobject henclosed =>
    obtain ⟨shape, hkinds⟩ := henclosed.kinds_eq
    rw [hleads.kinds_eq, hkinds]
    simp [Form.possible, hobject]

/-! ## The recognizers that match -/

/-- The recognizer of the form takes the run. -/
def Form.takes (line : String) (ts : List Token) (form : Form) : Bool :=
  (form.recognizer line ts).isSome

theorem mem_possible_of_takes (h : form.takes line ts = true) :
    form ∈ Form.possible (ts.map Token.kind) := by
  obtain ⟨s, hs⟩ := Option.isSome_iff_exists.1 h
  exact (recognizer_eq_some_iff.1 hs).mem_possible

/-- An order of all forms in which each construction stands before the declaration. -/
structure Ordered (order : List Form) : Prop where
  perm : order.Perm Form.order
  array : [.makeArray, .declare].Sublist order
  object : [.construct, .declare].Sublist order

theorem ordered_order : Ordered Form.order := ⟨.refl _, by decide, by decide⟩

theorem Ordered.possible {order : List Form} (h : Ordered order) (kinds : List Kind) :
    (Form.possible kinds).Sublist order := by
  rcases Form.possible_cases kinds with hnil | ⟨form, hform⟩ | ⟨hpair, -⟩ | hpair
  · rw [hnil]
    exact List.nil_sublist order
  · rw [hform]
    exact List.singleton_sublist.2 (h.perm.mem_iff.2 form.mem_order)
  · rw [hpair]
    exact h.array
  · rw [hpair]
    exact h.object

theorem filter_mem_of_sublist {α : Type} [DecidableEq α] {l₁ l₂ : List α}
    (h : l₁.Sublist l₂) (hnodup : l₂.Nodup) : l₂.filter (· ∈ l₁) = l₁ := by
  have hself : l₁.filter (· ∈ l₁) = l₁ := List.filter_eq_self.2 (by simp)
  have hsub : l₁.Sublist (l₂.filter (· ∈ l₁)) := by
    simpa only [hself] using h.filter (· ∈ l₁)
  have hsubset : l₂.filter (· ∈ l₁) ⊆ l₁ := fun x hx => by simpa using (List.mem_filter.1 hx).2
  have hle := (List.Nodup.subperm (hnodup.filter _) hsubset).length_le
  exact (hsub.eq_of_length_le hle).symm

theorem filter_pair {α : Type} (p : α → Bool) (a b : α) :
    ([a, b].filter p).length ≤ 1 ∨ [a, b].filter p = [a, b] := by
  have hsub : ([a, b].filter p).Sublist [a, b] := List.filter_sublist
  by_cases hlength : ([a, b].filter p).length = [a, b].length
  · exact .inr (hsub.eq_of_length hlength)
  · have hle : ([a, b].filter p).length ≤ 2 := hsub.length_le
    have hne : ([a, b].filter p).length ≠ 2 := hlength
    exact .inl (by omega)

/-- The forms that take a run are the same in every order, and stand in the order in which
they are possible. -/
theorem filter_takes_eq {order : List Form} (h : Ordered order) (line : String)
    (ts : List Token) :
    order.filter (Form.takes line ts) =
      (Form.possible (ts.map Token.kind)).filter (Form.takes line ts) := by
  have hnodup : order.Nodup := h.perm.nodup_iff.2 (by decide)
  have hpossible := filter_mem_of_sublist (h.possible (ts.map Token.kind)) hnodup
  conv_rhs => rw [← hpossible, List.filter_filter]
  refine List.filter_congr fun form _ => ?_
  rw [Bool.eq_iff_iff]
  simpa using fun htakes => mem_possible_of_takes htakes

/-- The first form that takes a run is the first of those that do. -/
theorem findSome?_filter_takes (order : List Form) (line : String) (ts : List Token) :
    (order.map (Form.recognizer line)).findSome? (· ts) =
      (order.filter (Form.takes line ts)).findSome? fun form => form.recognizer line ts := by
  induction order with
  | nil => rfl
  | cons form order ih =>
    rw [List.map_cons, List.findSome?_cons, ih]
    cases hread : form.recognizer line ts with
    | none => rw [List.filter_cons_of_neg (by simp [Form.takes, hread])]
    | some s => simp [Form.takes, hread]

end

/-- One recognizer takes a run at most, or it is the run of a declaration, which may also make
an array, its first word being `var`, or else construct an object. So the recognizers may be
tried in any order that has these two before the declaration. -/
theorem one_form_or_declaration :
    (∀ line ts, (Form.order.filter (Form.takes line ts)).length ≤ 1 ∨
      (Form.order.filter (Form.takes line ts) = [.makeArray, .declare] ∧
        ∃ span rest, ts = ⟨.word "var", span⟩ :: rest) ∨
      Form.order.filter (Form.takes line ts) = [.construct, .declare]) ∧
    ∀ order, Ordered order → ∀ line ts,
      ((order.map (Form.recognizer line)).findSome? (· (dropSemicolons ts))).getD .unrecognized =
        classify line ts := by
  refine ⟨fun line ts => ?_, fun order horder line ts => ?_⟩
  · rw [filter_takes_eq ordered_order]
    rcases Form.possible_cases (ts.map Token.kind) with
      hnil | ⟨form, hform⟩ | ⟨hpair, hvar⟩ | hpair
    · rw [hnil]
      exact .inl (by simp)
    · rw [hform]
      exact .inl (List.length_filter_le _ _)
    · rw [hpair]
      obtain ⟨⟨kind, span⟩, hhead, rfl⟩ := Option.map_eq_some_iff.1 (List.head?_map ▸ hvar)
      obtain ⟨rest, hts⟩ := List.head?_eq_some_iff.1 hhead
      exact (filter_pair _ _ _).imp_right fun h => .inl ⟨h, span, rest, hts⟩
    · rw [hpair]
      exact (filter_pair _ _ _).imp_right .inr
  · rw [findSome?_filter_takes, filter_takes_eq horder, ← filter_takes_eq ordered_order,
      ← findSome?_filter_takes, ← recognizers_eq]
    rfl

/-- With the print tried last and the call first, `var a = new int[n];` still makes an array. -/
theorem one_form_or_declaration_of_var :
    ∃ order ts, Ordered order ∧ order.getLast? = some .print ∧
      lex "var a = new int[n];" = .ok ts ∧
      ((order.map (Form.recognizer "var a = new int[n];")).findSome?
        (· (dropSemicolons ts))).getD .unrecognized = .makeArray "a" (.sized ⟨"n"⟩) := by
  have horder : Ordered [.call, .step, .update, .assign, .setSlot, .setField, .construct,
      .makeArray, .declare, .print] := ⟨by decide, by decide, by decide⟩
  have hlex : lex "var a = new int[n];" = .ok [⟨.word "var", ⟨0, 3⟩⟩, ⟨.word "a", ⟨4, 5⟩⟩,
      ⟨.equals, ⟨6, 7⟩⟩, ⟨.new, ⟨8, 11⟩⟩, ⟨.word "int", ⟨12, 15⟩⟩, ⟨.opening .square, ⟨15, 16⟩⟩,
      ⟨.word "n", ⟨16, 17⟩⟩, ⟨.closing .square, ⟨17, 18⟩⟩, ⟨.semicolon, ⟨18, 19⟩⟩] := by cbv
  refine ⟨_, _, horder, rfl, hlex, ?_⟩
  rw [one_form_or_declaration.2 _ horder]
  decide +kernel

end Grammar

end SnippetConsole
