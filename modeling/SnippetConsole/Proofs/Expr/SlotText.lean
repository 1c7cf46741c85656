import SnippetConsole.Proofs.Expr.Holes

/-!
# The text of a slot

A slot is written as the name of its array and a literal number in square brackets.
Alone and in braces the text refers to the slot: it has a value exactly if the array
exists, the number is an index, and the index is in range.

* `SlotText` — a name and a literal number, each read as one token.
* `SlotText.evaluate?_text` — the text is worth what the slot holds.
* `SlotText.evaluate?_interpolated` — an interpolated string shows it.
-/

namespace SnippetConsole

open Text

/-! ## The text -/

/-- The text of a slot: an array and an index in brackets. -/
def slotText (array index : String) : String := array ++ "[" ++ index ++ "]"

/-- A slot as it is written, with a name for the array and a literal number for the index. -/
structure SlotText where
  array : String
  index : String
  number : Float
  array_lex : ∃ span, lex array = .ok [⟨.word array, span⟩]
  index_lex : lex index = .ok [⟨.number number, ⟨0, byteCount index.toList⟩⟩]

namespace SlotText

variable (s : SlotText)

def text : String := slotText s.array s.index

theorem toList_text : s.text.toList = s.array.toList ++ '[' :: (s.index.toList ++ [']']) := by
  simp [text, slotText]

/-- The token of the index. -/
def indexToken : Token :=
  let first := byteCount s.array.toList + 1
  ⟨.number s.number, ⟨first, first + byteCount s.index.toList⟩⟩

/-- The tokens of the text. -/
def tokens : List Token :=
  let first := byteCount s.array.toList
  let last := s.indexToken.span.stop
  [⟨.word s.array, ⟨0, first⟩⟩, ⟨.opening .square, ⟨first, first + 1⟩⟩, s.indexToken,
    ⟨.closing .square, ⟨last, last + 1⟩⟩]

theorem reads : Lexer.Reads [] 0 s.tokens s.text.toList := by
  obtain ⟨span, harray⟩ := s.array_lex
  have hname := (Lexer.reads_of_name harray).concat_mark (by decide : '[' ∈ Lexer.marks)
    (fun _ => rfl) (s.index.toList ++ [']'])
  have hindex := (Lexer.reads_of_lex s.index_lex rfl).shift (byteCount s.array.toList + 1)
  rw [Nat.zero_add] at hindex
  have hinner := hindex.concat_mark (by decide : ']' ∈ Lexer.marks) (fun _ => rfl) []
  have hall := Lexer.Reads.append_of_eq (by simpa using hname) (by simp; rfl) hinner
  rw [toList_text]
  simpa [tokens, indexToken, Token.shift, Span.shift, Nat.add_comm, Nat.add_left_comm] using hall

theorem lex : SnippetConsole.lex s.text = .ok s.tokens := by
  have h := s.reads.lex
  rwa [String.ofList_toList] at h

/-- The characters of names and numbers, and the brackets. -/
theorem char_cases : ∀ c ∈ s.text.toList, continuesWord c = true ∨ c ∈ ['.', '[', ']'] := by
  obtain ⟨span, harray⟩ := s.array_lex
  have hindex : ∀ c ∈ s.index.toList, continuesWord c = true ∨ c ∈ ['.', '[', ']'] := by
    have hsuffixes : ∀ c ∈ Lexer.suffixes, continuesWord c = true :=
      List.all_iff_forall_prop.1 (by decide)
    obtain ⟨whole, part, letter, hnumber, hwhole, hpart, hletter, -⟩ :=
      (Lexer.spelled_of_lex s.index_lex).number _ rfl
    have hdigit {ds : List Char} (hds : Decimal.Digits ds) {c : Char} (hc : c ∈ ds) :=
      continuesWord_of_isDigit (hds.isDigit c hc)
    intro c hc
    rw [hnumber, List.mem_append, List.mem_append] at hc
    rcases hc with (hc | hc) | hc
    · exact .inl (hdigit hwhole hc)
    · rcases hpart with rfl | ⟨fraction, rfl, hfraction⟩
      · cases hc
      · rcases List.mem_cons.1 hc with rfl | hc
        · exact .inr (by decide)
        · exact .inl (hdigit hfraction hc)
    · rcases hletter with rfl | ⟨d, hd, rfl⟩
      · cases hc
      · obtain rfl := List.mem_singleton.1 hc
        exact .inl (hsuffixes c hd)
  intro c hc
  rw [toList_text, List.mem_append, List.mem_cons, List.mem_append, List.mem_singleton] at hc
  rcases hc with hc | rfl | hc | rfl
  · exact .inl ((name_of_lex harray).1 c hc)
  · exact .inr (by decide)
  · exact hindex c hc
  · exact .inr (by decide)

/-- A character that is neither of names and numbers nor a bracket is not in the text. -/
theorem not_mem {c : Char} (hword : continuesWord c = false) (hc : c ∉ ['.', '[', ']']) :
    c ∉ s.text.toList := by
  intro hmem
  rcases s.char_cases c hmem with h | h
  · rw [hword] at h
    cases h
  · exact hc h

theorem tight : Tight s.text.toList where
  head := by
    obtain ⟨span, harray⟩ := s.array_lex
    obtain ⟨c, cs, hcs, hc⟩ := Lexer.head_of_name harray
    exact ⟨c, by rw [toList_text, hcs]; rfl, hc⟩
  getLast := ⟨']', by
    rw [toList_text, ← List.cons_append, ← List.append_assoc, List.getLast?_concat], by decide⟩

/-! ## Its value -/

/-- What the array holds at the index, if there is such an array and it has the slot. -/
def value? (store : Store) : Option Value :=
  (store.array? s.array).bind fun slots => (index? s.number).bind slots.read?

section

variable {store : Store} {level room steps steps' : Nat} {v : Value}

/-- A number alone is resolved in one step. -/
theorem result_number (hsteps : steps < stepBudget) (hroom : 0 < room) (x : Float)
    (span : Span) :
    (resolve store level room [⟨.number x, span⟩]).result steps =
      (some (.number x), steps + 1) := by
  obtain ⟨room, rfl⟩ := Nat.exists_eq_add_one_of_ne_zero hroom.ne'
  have hoperands : operands [⟨.number x, span⟩] = [.plain (.number x)] := by
    rw [operands_plain rfl, operands_nil]
  rw [resolve_succ]
  refine result_rules_eq_some_iff.2 ⟨hsteps, .arithmetic ?_⟩
  refine arithmeticValue_eq_some_iff.2 ⟨rfl, [.number x], .number x, ?_, rfl, rfl⟩
  rw [hoperands]
  rfl

theorem ofRun?_tokens : Reference.ofRun? s.tokens = some (.slot s.array [s.indexToken]) := rfl

theorem referenceValue_eq_some_iff (hsteps : steps < stepBudget) (hroom : 0 < room) :
    (referenceValue store (resolve store level room) s.tokens).result steps =
        (some v, steps') ↔ s.value? store = some v ∧ steps' = steps + 1 := by
  have hnumber : (resolve store level room [s.indexToken]).result steps =
      (some (.number s.number), steps + 1) := result_number hsteps hroom _ _
  rw [SnippetConsole.referenceValue_eq_some_iff, s.ofRun?_tokens]
  simp only [Option.some.injEq, exists_eq_left', Reference.value, Attempt.result_bind_eq_some_iff,
    Attempt.result_ofOption_iff, value?, Option.bind_eq_some_iff]
  constructor
  · rintro ⟨slots, _, ⟨hslots, rfl⟩, w, _, hw, hv, rfl⟩
    obtain ⟨heq, rfl⟩ := Prod.mk.inj (hnumber.symm.trans hw)
    obtain rfl := Option.some.inj heq
    exact ⟨⟨slots, hslots, hv⟩, rfl⟩
  · rintro ⟨⟨slots, hslots, hv⟩, rfl⟩
    exact ⟨slots, steps, ⟨hslots, rfl⟩, .number s.number, steps + 1, hnumber, hv, rfl⟩

/-- The text is worth what the array holds there. -/
theorem evaluate?_text (store : Store) : evaluate? store s.text = s.value? store := by
  refine Option.ext fun v => ?_
  have hresult (steps' : Nat) :
      (resolve store s.text.length (deepest + 1) s.tokens).result 0 = (some v, steps') ↔
        s.value? store = some v ∧ steps' = 2 := by
    rw [resolve_succ, result_rules_of_ofRun? s.ofRun?_tokens]
    exact (and_iff_right (by decide)).trans (s.referenceValue_eq_some_iff (by decide) (by decide))
  rw [evaluate?_eq_resolve s.lex rfl (Nat.le_refl _)]
  constructor
  · intro h
    exact ((hresult _).1 (Prod.ext h rfl)).1
  · intro h
    exact congrArg Prod.fst ((hresult 2).2 ⟨h, rfl⟩)

/-- In braces it is filled with the text of what the array holds there. -/
theorem evaluate?_interpolated (h : s.value? store = some v) :
    evaluate? store (interpolated (placeholder s.text)) = some (.text v.shown) := by
  have hescaped : Lexer.Escaped '"' s.text.toList :=
    Lexer.escaped_of_not_mem (s.not_mem (by decide) (by decide)) (s.not_mem (by decide) (by decide))
  obtain ⟨span, hlex⟩ := lex_interpolated (escaped_placeholder hescaped)
  have hclosed : '\x7d' ∉ s.text.toList := s.not_mem (by decide) (by decide)
  obtain ⟨level, hlevel⟩ : ∃ level, level = (interpolated (placeholder s.text)).length := ⟨_, rfl⟩
  obtain ⟨near, hnear⟩ : ∃ near, near = resolve store level (deepest - 1) := ⟨_, rfl⟩
  have hvalue : (holeValue store near s.text.toList).result 1 = (some v, 2) := by
    unfold holeValue
    rw [s.tight.trimChars, String.ofList_toList, s.lex, hnear]
    exact (s.referenceValue_eq_some_iff (by decide) (by decide)).2 ⟨h, rfl⟩
  have hfill : (interpolate store near (placeholder s.text)).result 1 = (some v.shown, 2) := by
    refine Attempt.result_bind_eq_some_iff.2 ⟨[v.shown.toList], 2, ?_, ?_⟩
    · rw [toList_placeholder, pieces_hole hclosed, pieces]
      refine Attempt.result_mapM_cons_iff.2 ⟨_, 2, [], ?_, rfl, rfl⟩
      exact Attempt.result_orElse_eq_some_iff.2
        (.inl (Attempt.result_bind_eq_some_iff.2 ⟨v, 2, hvalue, rfl⟩))
    · exact Attempt.result_pure_iff.2 ⟨by simp, rfl⟩
  rw [evaluate?_eq_resolve hlex rfl (show _ ≤ level + 1 by omega), resolve_succ]
  rw [hnear] at hfill
  exact congrArg Prod.fst (result_rules_eq_some_iff.2 ⟨by decide, .interpolated rfl hfill⟩)

end

end SlotText

end SnippetConsole
