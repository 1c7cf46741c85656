import SnippetConsole.Proofs.Text.Blank
import SnippetConsole.Run.Noise

/-!
# Why a line is noise

Apart from comments and braces, a line is taken as noise only if its first word
is reserved.

* `isNoise_cases` — the reasons for which a line is noise.
-/

namespace SnippetConsole

open Text

/-! ## Reserved words -/

/-- The words that may start a line without statements. -/
def Noise.reserved : List String := ["using", "namespace", "class"] ++ modifiers

theorem Noise.mem_reserved_of_headerStarts {w : String} (h : w ∈ headerStarts) : w ∈ reserved := by
  have hall : ∀ w ∈ headerStarts, w ∈ reserved := by decide
  exact hall w h

theorem Noise.isClassHeader_cons (w : String) (ws : List String) (h : isClassHeader (w :: ws)) :
    w ∈ reserved := by
  by_cases hw : w ∈ modifiers
  · exact List.mem_append_right _ hw
  · have hfind : (w :: ws).find? (· ∉ modifiers) = some w :=
      List.find?_cons_of_pos (by simpa using hw)
    rw [isClassHeader, hfind, beq_iff_eq] at h
    rw [Option.some.inj h]
    decide

/-- A line that starts in no blank is noise for one of three reasons. -/
theorem isNoise_cases {cs : List Char} (hc : ∃ c, cs.head? = some c ∧ isBlank c = false)
    (h : isNoise (String.ofList cs) = true) :
    Noise.isComment cs = true ∨ cs ∈ Noise.braces ∨ firstWord cs ∈ Noise.reserved := by
  obtain ⟨ws, hws⟩ := words_of_head hc
  simp only [isNoise, String.toList_ofList, hws, List.headD_cons, Bool.or_eq_true,
    decide_eq_true_eq] at h
  rcases h with ((((h | h) | h) | h) | h) | h
  · obtain ⟨c, hc, -⟩ := hc
    rw [List.isEmpty_iff.1 h] at hc
    cases hc
  · exact .inl h
  · exact .inr (.inl h)
  · exact .inr (.inr (List.mem_append_left _ (List.mem_append_left ["class"] h)))
  · exact .inr (.inr (Noise.isClassHeader_cons _ ws h))
  · simp only [Noise.isMethodHeader, Bool.and_eq_true, decide_eq_true_eq] at h
    exact .inr (.inr (Noise.mem_reserved_of_headerStarts h.1.1))

/-- A line that is no noise is no comment and no brace, and its first word is not
reserved unless it is a modifier. -/
theorem not_reserved_of_isNoise {cs : List Char} (hc : ∃ c, cs.head? = some c ∧ isBlank c = false)
    (h : isNoise (String.ofList cs) = false) (hfirst : firstWord cs ∉ Noise.modifiers) :
    Noise.isComment cs = false ∧ cs ∉ Noise.braces ∧ firstWord cs ∉ Noise.reserved := by
  obtain ⟨ws, hws⟩ := words_of_head hc
  simp only [isNoise, String.toList_ofList, hws, List.headD_cons, Bool.or_eq_false_iff,
    decide_eq_false_iff_not] at h
  obtain ⟨⟨⟨⟨⟨-, hcomment⟩, hbrace⟩, husing⟩, hclass⟩, -⟩ := h
  refine ⟨hcomment, hbrace, ?_⟩
  intro hmem
  rcases List.mem_append.1 hmem with hmem | hmem
  · -- the word `class` would have made the line the header of a class
    have hfind : (firstWord cs :: ws).find? (· ∉ Noise.modifiers) = some (firstWord cs) :=
      List.find?_cons_of_pos (by simpa using hfirst)
    rw [Noise.isClassHeader, hfind, beq_eq_false_iff_ne] at hclass
    simp only [List.mem_cons, List.not_mem_nil, or_false, not_or] at hmem husing
    rcases hmem with hmem | hmem | hmem
    · exact husing.1 hmem
    · exact husing.2 hmem
    · exact hclass (by rw [hmem])
  · exact hfirst hmem

/-! ## Lines that hold statements -/

/-- A brace does not make noise of what stands behind it. -/
theorem isNoise_of_brace {c : Char} {cs : List Char} (hc : c = '\x7b' ∨ c = '\x7d')
    (hlength : 2 ≤ cs.length) : isNoise (String.ofList (c :: cs)) = false := by
  have hblank : isBlank c = false := by rcases hc with rfl | rfl <;> decide
  cases hn : isNoise (String.ofList (c :: cs)) with
  | false => rfl
  | true =>
    rcases isNoise_cases ⟨c, rfl, hblank⟩ hn with h | h | h
    · rcases hc with rfl | rfl <;> cases h
    · have hshort : ∀ b ∈ Noise.braces, b.length ≤ 2 := by decide
      have := hshort _ h
      simp only [List.length_cons] at this
      omega
    · have hwords : ∀ w ∈ Noise.reserved, w.toList.head? ≠ some '\x7b' ∧
          w.toList.head? ≠ some '\x7d' := by decide
      have := hwords _ h
      simp only [firstWord, String.toList_ofList, List.takeWhile_cons, hblank, Bool.not_false,
        if_true, List.head?_cons, ne_eq, Option.some.injEq] at this
      exact absurd hc (not_or.2 this)

/-- A line is no noise if its first character starts no comment, brace or reserved word. -/
theorem isNoise_of_head {c : Char} {cs : List Char} (hblank : isBlank c = false)
    (hc : c ∉ ['/', '*', '\x7b', '\x7d']) (hwords : ∀ w ∈ Noise.reserved, w.toList.head? ≠ some c) :
    isNoise (String.ofList (c :: cs)) = false := by
  rw [← Bool.not_eq_true]
  intro hn
  rcases isNoise_cases ⟨c, rfl, hblank⟩ hn with h | h | h
  · unfold Noise.isComment at h
    split at h <;> simp_all
  · have hbraces : ∀ b ∈ Noise.braces, b.head? = some '\x7b' ∨ b.head? = some '\x7d' := by decide
    have := hbraces _ h
    simp_all
  · refine hwords _ h ?_
    simp [firstWord, hblank]

theorem isComment_cons_cons (c d : Char) (cs ds : List Char) :
    Noise.isComment (c :: d :: cs) = Noise.isComment (c :: d :: ds) := by
  unfold Noise.isComment
  split <;> split <;> simp_all

theorem isComment_append_semicolon {cs : List Char} (hne : cs ≠ []) (more : List Char) :
    Noise.isComment (cs ++ ';' :: more) = Noise.isComment (cs ++ [';']) := by
  cases cs with
  | nil => exact absurd rfl hne
  | cons c cs =>
    cases cs with
    | nil => exact isComment_cons_cons c ';' more []
    | cons d cs => exact isComment_cons_cons c d _ _

/-- What stands behind a semicolon does not make noise of what stands before it. -/
theorem isNoise_append_semicolon {cs : List Char}
    (hc : ∃ c, cs.head? = some c ∧ isBlank c = false)
    (h : isNoise (String.ofList (cs ++ [';'])) = false)
    (hfirst : firstWord (cs ++ [';']) ∉ Noise.modifiers) (more : List Char) :
    isNoise (String.ofList (cs ++ ';' :: more)) = false := by
  have hne : cs ≠ [] := by
    rintro rfl
    simp at hc
  have hhead (ds : List Char) : ∃ c, (cs ++ ds).head? = some c ∧ isBlank c = false := by
    obtain ⟨c, hc, hblank⟩ := hc
    exact ⟨c, by simp [hc], hblank⟩
  obtain ⟨hcomment, hbrace, hreserved⟩ := not_reserved_of_isNoise (hhead [';']) h hfirst
  cases hn : isNoise (String.ofList (cs ++ ';' :: more)) with
  | false => rfl
  | true =>
    rcases isNoise_cases (hhead (';' :: more)) hn with h | h | h
    · rw [isComment_append_semicolon hne, hcomment] at h
      cases h
    · -- a lone brace is longer only by the semicolon that is there anyway
      have hshort : ∀ b ∈ Noise.braces, b.length ≤ 2 := by decide
      have hlength := hshort _ h
      have hpos := List.length_pos_iff.2 hne
      simp only [List.length_append, List.length_cons] at hlength
      obtain rfl : more = [] := List.eq_nil_of_length_eq_zero (by omega)
      exact absurd h hbrace
    · -- a first word that reaches the semicolon takes it along
      by_cases hall : (cs.takeWhile (!isBlank ·)).length = cs.length
      · have hsemi : ∀ w ∈ Noise.reserved, ';' ∉ w.toList := by decide
        refine absurd ?_ (hsemi _ h)
        rw [firstWord, String.toList_ofList, List.takeWhile_append, if_pos hall]
        simp [show isBlank ';' = false by decide]
      · rw [firstWord, List.takeWhile_append, if_neg hall] at h hreserved
        exact absurd h hreserved

end SnippetConsole
