import SnippetConsole.Proofs.Statement.Forms

/-!
# The token in front of a statement

Every form fixes the first token of a run: it is a word that the statement is
about, the name of a type, or a sign that steps. A run that starts otherwise is
not recognized.

* `startsWith_of_classify` — the first token fits the statement.
-/

namespace SnippetConsole

/-- A statement that may be written with a token of this kind in front. -/
def Statement.StartsWith (kind : Kind) : Statement → Prop
  | .print _ => kind = .word "Console"
  | .printSlot _ _ => kind = .word "Console"
  | .declare _ _ => ∃ type ∈ declarationTypes, kind = .word type
  | .assign name _ => kind = .word name
  | .update name _ _ => kind = .word name
  | .step name direction => kind = .word name ∨ kind = .step direction
  | .construct _ _ => ∃ type, kind = .word type
  | .setField object _ _ => kind = .word object
  | .call object _ => kind = .word object
  | .makeArray _ _ => ∃ type, kind = .word type
  | .setSlot array _ _ => kind = .word array
  | .unrecognized => True

theorem Grammar.Fits.startsWith {line : String} {form : Form} {t : Token} {ts : List Token}
    {s : Statement} (h : Fits line form (t :: ts) s) : s.StartsWith t.kind := by
  cases h with
  | print hleads _ _ hs => cases hs <;> exact hleads.head
  | makeArray hleads | makeVar hleads | construct hleads => exact ⟨_, hleads.head⟩
  | declare hleads htype => exact ⟨_, htype, hleads.head⟩
  | setField hleads | setSlot hleads | assign hleads | update hleads | call hleads =>
    exact hleads.head
  | stepBehind hleads => exact .inl hleads.head
  | stepInFront hleads => exact .inr hleads.head

theorem startsWith_of_classify (line : String) {t : Token} (ht : t.kind ≠ .semicolon)
    (ts : List Token) : (classify line (t :: ts)).StartsWith t.kind := by
  have hdrop : dropSemicolons (t :: ts) = t :: dropSemicolons ts := by
    rw [dropSemicolons_cons, if_neg fun h => ht (h t List.mem_cons_self)]
  rw [classify, hdrop]
  cases h : (Shape.recognizers line).findSome? (· (t :: dropSemicolons ts)) with
  | none => trivial
  | some s =>
    obtain ⟨-, form, -, -, hfits, -⟩ := Grammar.findSome?_recognizers_eq_some_iff.1 h
    exact hfits.startsWith

/-- A run that starts with neither a word nor a step is not recognized. -/
theorem classify_eq_unrecognized (line : String) {t : Token} (ht : t.kind ≠ .semicolon)
    (hword : ∀ name, t.kind ≠ .word name) (hstep : ∀ step, t.kind ≠ .step step)
    (ts : List Token) : classify line (t :: ts) = .unrecognized := by
  have h := startsWith_of_classify line ht ts
  cases hs : classify line (t :: ts) with
  | unrecognized => rfl
  | step name step =>
    rw [hs] at h
    rcases h with h | h
    · exact absurd h (hword name)
    · exact absurd h (hstep step)
  | declare =>
    rw [hs] at h
    obtain ⟨type, -, h⟩ := h
    exact absurd h (hword type)
  | construct | makeArray =>
    rw [hs] at h
    obtain ⟨type, h⟩ := h
    exact absurd h (hword type)
  | _ =>
    rw [hs] at h
    exact absurd h (hword _)

end SnippetConsole
