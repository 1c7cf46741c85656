import SnippetConsole.Proofs.Statement.Forms
import SnippetConsole.Proofs.Token.Within

/-!
# The names and the expressions in a statement

Every form takes the names in its statement from words of the run and the expressions
from the text of the line, and adds none of its own.

* `namedIn_of_classify` — the names in a statement are words of its run.
* `isInfix_of_mem_exprs` — its expressions are parts of its line.
-/

namespace SnippetConsole

/-- The names in a statement, those in its expressions aside. -/
@[simp] def Statement.names : Statement → List String
  | .printSlot name _ | .declare name _ | .assign name _ | .update name _ _ | .step name _
  | .makeArray name _ | .setSlot name _ _ => [name]
  | .construct name className => [name, className]
  | .setField object field _ => [object, field]
  | .call object method => [object, method]
  | .print _ | .unrecognized => []

/-- The names in the statement are words of the run. -/
def Statement.NamedIn (ts : List Token) (s : Statement) : Prop :=
  ∀ name ∈ s.names, ∃ t ∈ ts, t.kind = .word name

namespace Statement.NamedIn

variable {ts us : List Token} {s : Statement}

theorem subset (h : s.NamedIn ts) (hus : ts ⊆ us) : s.NamedIn us := by
  intro name hname
  obtain ⟨t, ht, hkind⟩ := h name hname
  exact ⟨t, hus ht, hkind⟩

/-- Words of a text that is read are parts of it. -/
theorem isInfix {cs : List Char} (h : s.NamedIn ts) (hts : Within cs ts) {name : String}
    (hname : name ∈ s.names) : name.toList <:+: cs := by
  obtain ⟨t, ht, hkind⟩ := h name hname
  exact hts t ht name (by rw [hkind]; rfl)

end Statement.NamedIn

namespace Grammar

variable {line : String} {ts rest : List Token} {s : Statement}

theorem Leads.subset {kinds : List Kind} (h : Leads kinds ts rest) : rest ⊆ ts := by
  obtain ⟨front, -, rfl⟩ := h.exists_append
  exact List.subset_append_right front rest

/-- Names that are among the fixed tokens are words of the run. -/
theorem Leads.namedIn {kinds : List Kind} (h : Leads kinds ts rest)
    (hnames : ∀ name ∈ s.names, .word name ∈ kinds) : s.NamedIn ts := by
  obtain ⟨front, rfl, rfl⟩ := h.exists_append
  intro name hname
  obtain ⟨t, ht, hkind⟩ := List.mem_map.1 (hnames name hname)
  exact ⟨t, List.mem_append_left rest ht, hkind⟩

theorem Fits.namedIn {form : Form} (h : Fits line form ts s) : s.NamedIn ts := by
  cases h with
  | print hleads _ henclosed hs =>
    cases hs with
    | empty | expr => exact fun name hname => absurd hname List.not_mem_nil
    | slot hslot =>
      -- the array is named between the brackets
      obtain ⟨n, hslot, -⟩ := hslot
      obtain ⟨opener, closer, rfl, -⟩ := henclosed
      refine (hslot.namedIn (by simp)).subset fun t ht => hleads.subset ?_
      simp [ht]
  | makeArray hleads | makeVar hleads | construct hleads | declare hleads | setField hleads
  | setSlot hleads | assign hleads | update hleads | stepBehind hleads | stepInFront hleads
  | call hleads => exact hleads.namedIn (by simp)

end Grammar

theorem namedIn_of_classify (line : String) (ts : List Token) :
    (classify line ts).NamedIn ts := by
  unfold classify
  cases h : (Shape.recognizers line).findSome? (· (dropSemicolons ts)) with
  | none => exact fun name hname => absurd hname List.not_mem_nil
  | some s =>
    obtain ⟨-, form, -, -, hfits, -⟩ := Grammar.findSome?_recognizers_eq_some_iff.1 h
    exact hfits.namedIn.subset (List.rdropWhile_prefix _ ts).subset

/-! ## Expressions -/

theorem sourceText_isInfix (line : String) (ts : List Token) :
    (sourceText line ts).toList <:+: line.toList := by
  unfold sourceText
  split
  · exact Text.Span.slice_isInfix _ line
  · exact List.nil_infix

theorem isInfix_of_mem_exprs {line : String} {ts : List Token} {e : Expr}
    (he : e ∈ (classify line ts).exprs) : e.text.toList <:+: line.toList := by
  -- agreement of the run with itself
  have hagree : Agree line line (fun e e' => e = e' ∧ e.text.toList <:+: line.toList) id id ts := by
    refine ⟨fun _ _ => rfl, ?_⟩
    intro part _ _ _
    rw [List.map_id]
    refine ⟨rfl, ?_⟩
    rw [Expr.of, Text.trim, String.toList_ofList]
    exact (Text.trimChars_isInfix _).trans (sourceText_isInfix line part)
  have hexprs := (classify_similar hagree).exprs
  rw [List.map_id, List.forall₂_same] at hexprs
  exact (hexprs e he).2

end SnippetConsole
