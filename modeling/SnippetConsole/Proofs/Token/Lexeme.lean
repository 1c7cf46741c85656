import SnippetConsole.Proofs.Token.Boundary

/-!
# A lexeme and the text behind it

Each reader of a lexeme gives the same answer when the text behind the lexeme is
replaced by one that goes the same way or breaks off. So a lexeme can be cut out
of its line and read again.

* `lexeme_of_follows` — the lexeme does not depend on where the text breaks off.
* `isBlank_of_getLast_lexeme` — no lexeme ends in a blank.
-/

namespace SnippetConsole

theorem Quote.mark_ne_backslash (quote : Quote) : quote.mark ≠ '\\' := by
  cases quote <;> decide

namespace Lexer

open Text

/-! ## Symbols -/

/-- Past its first character no symbol holds one that breaks off. -/
theorem breaks_of_mem_tail {s : List Char × Kind} (hs : s ∈ symbols) :
    ∀ c ∈ s.1.tail, breaks c = false := by
  have hall : ∀ c ∈ symbols.flatMap (·.1.tail), breaks c = false :=
    List.all_iff_forall_prop.1 (by decide)
  exact fun c hc => hall c (List.mem_flatMap.2 ⟨s, hs, hc⟩)

/-- A symbol begins the old text if it begins the new one, both starting with
the lexeme itself. -/
theorem isPrefix_of_follows {s : List Char × Kind} (hs : s ∈ symbols) {c : Char}
    {cs rest other : List Char} (hf : Follows rest other) (hp : s.1 <+: c :: cs ++ other) :
    s.1 <+: c :: cs ++ rest := by
  have hb := breaks_of_mem_tail hs
  cases hsp : s.1 with
  | nil => exact List.nil_prefix
  | cons d spelling =>
    rw [hsp] at hb hp
    obtain ⟨rfl, hp'⟩ := List.cons_prefix_cons.1 hp
    exact List.cons_prefix_cons.2 ⟨rfl, (hf.append cs).isPrefix hb hp'⟩

theorem symbol_of_follows {c : Char} {cs t other : List Char}
    (ht : (symbol c cs).text = c :: t) (hf : Follows (symbol c cs).rest other) :
    symbol c (t ++ other) = { symbol c cs with rest := other } := by
  have hcs := (splits_symbol c cs).1
  rw [ht] at hcs
  -- what does not begin the old text does not begin the new one
  have hmiss : ∀ s ∈ symbols, s.1.isPrefixOf (c :: cs) = false →
      s.1.isPrefixOf (c :: (t ++ other)) = false := by
    intro s hs hn
    rw [Bool.eq_false_iff, ne_eq, List.isPrefixOf_iff_prefix] at hn ⊢
    intro hp
    apply hn
    rw [← hcs]
    exact isPrefix_of_follows hs hf hp
  cases hfind : symbols.find? fun s => s.1.isPrefixOf (c :: cs) with
  | none =>
    obtain rfl : t = [] := by simpa [symbol, hfind] using ht.symm
    have hnone : symbols.find? (fun s => s.1.isPrefixOf (c :: other)) = none := by
      rw [List.find?_eq_none] at hfind ⊢
      intro s hs
      rw [Bool.not_eq_true]
      exact hmiss s hs (Bool.eq_false_iff.2 (hfind s hs))
    simp only [symbol, hfind, List.nil_append]
    rw [hnone]
  | some s =>
    obtain ⟨hp, before, after, hsplit, hbefore⟩ := List.find?_eq_some_iff_append.1 hfind
    have hs : s.1 = c :: t := by simpa [symbol, hfind] using ht
    have hsome : symbols.find? (fun s => s.1.isPrefixOf (c :: (t ++ other))) = some s := by
      rw [List.find?_eq_some_iff_append]
      refine ⟨by simp [hs], before, after, hsplit, ?_⟩
      intro a ha
      have hmem : a ∈ symbols := by
        rw [hsplit]
        exact List.mem_append_left _ ha
      rw [hmiss a hmem (by simpa using hbefore a ha)]
      rfl
    simp only [symbol, hfind, hsome, hs]
    simp

/-! ## Literals, words and numbers -/

theorem untilMark_append {mark : Char} {cs raw rest : List Char} (hm : mark ≠ '\\')
    (h : untilMark mark cs = some (raw, rest)) (other : List Char) :
    untilMark mark (raw ++ mark :: other) = some (raw, other) := by
  fun_induction untilMark mark cs generalizing raw rest with
  | case1 => simp at h
  | case2 c cs ih =>
    obtain ⟨⟨raw', rest'⟩, h', he⟩ := Option.map_eq_some_iff.1 h
    obtain ⟨rfl, rfl⟩ := Prod.mk.inj he
    simp [untilMark, ih h']
  | case3 =>
    obtain ⟨rfl, rfl⟩ := Prod.mk.inj (Option.some.inj h)
    rw [List.nil_append, untilMark.eq_3 _ _ _ (fun _ _ he => absurd he hm)]
    simp
  | case4 c cs hesc hc ih =>
    obtain ⟨⟨raw', rest'⟩, h', he⟩ := Option.map_eq_some_iff.1 h
    obtain ⟨rfl, rfl⟩ := Prod.mk.inj he
    -- a backslash that takes nothing with it would stand last, and leave the literal open
    have hesc' : ∀ d ds, c = '\\' → raw' ++ mark :: other = d :: ds → False := by
      intro d ds hc' _
      cases cs with
      | nil => simp [untilMark] at h'
      | cons d ds => exact hesc d ds hc' rfl
    rw [List.cons_append, untilMark.eq_3 _ _ _ hesc', if_neg hc, ih h']
    rfl

theorem literal_of_rest {quote : Quote} {cs : List Char} {l : Lexeme}
    (h : literal quote cs = .ok l) (other : List Char) :
    ∃ raw, l.text = quote.opener ++ raw ++ [quote.mark] ∧
      literal quote (raw ++ quote.mark :: other) = .ok { l with rest := other } := by
  unfold literal at h
  split at h
  · next raw rest hraw =>
    obtain rfl := Except.ok.inj h
    refine ⟨raw, rfl, ?_⟩
    rw [literal, untilMark_append quote.mark_ne_backslash hraw]
  · cases h

theorem word_of_follows {cs other : List Char} (hf : Follows (word cs).rest other) :
    word ((word cs).text ++ other) = { word cs with rest := other } := by
  obtain ⟨h₁, h₂⟩ := takeWhile_append_of_follows (fun c => continuesWord_of_breaks) hf
  simp only [word] at h₁ h₂ ⊢
  rw [h₁, h₂]

theorem suffix_of_not_mem {c : Char} (hc : c ∉ suffixes) (cs : List Char) :
    suffix (c :: cs) = ([], c :: cs) := if_neg hc

theorem suffix_append_of_follows {cs other : List Char} (hf : Follows (suffix cs).2 other) :
    suffix ((suffix cs).1 ++ other) = ((suffix cs).1, other) := by
  cases cs with
  | nil =>
    cases hf with
    | done => rfl
    | broken hb => exact suffix_of_not_mem (not_mem_suffixes_of_breaks hb) _
  | cons c cs =>
    by_cases hc : c ∈ suffixes
    · simp [suffix, hc]
    · rw [suffix_of_not_mem hc] at hf ⊢
      cases hf with
      | done => rfl
      | broken hb => exact suffix_of_not_mem (not_mem_suffixes_of_breaks hb) _
      | same => exact suffix_of_not_mem hc _

theorem fraction_of_ne {c : Char} (hc : c ≠ '.') (cs : List Char) :
    fraction (c :: cs) = ([], c :: cs) := by
  unfold fraction
  split
  · next h => exact absurd (List.cons.inj h).1 hc
  · rfl

theorem fraction_append_of_follows {cs other : List Char} (hf : Follows (fraction cs).2 other) :
    fraction ((fraction cs).1 ++ other) = ((fraction cs).1, other) := by
  have hdigit : ∀ c, breaks c = true → c.isDigit = false := fun c => isDigit_of_breaks
  have hdot : ∀ c, breaks c = true → c ≠ '.' := fun c hb => ne_joint_of_breaks hb (by decide)
  cases cs with
  | nil =>
    cases hf with
    | done => rfl
    | broken hb => exact fraction_of_ne (hdot _ hb) _
  | cons c cs =>
    by_cases hc : c = '.'
    · subst hc
      -- a point without digits belongs to the rest, so it may go too
      by_cases hd : cs.takeWhile Char.isDigit = []
      · rw [show fraction ('.' :: cs) = ([], '.' :: cs) from if_pos hd] at hf ⊢
        cases hf with
        | done => rfl
        | broken hb => exact fraction_of_ne (hdot _ hb) _
        | same hf => exact if_pos (hf.takeWhile_eq_nil hdigit hd)
      · rw [show fraction ('.' :: cs) = ('.' :: cs.takeWhile Char.isDigit,
          cs.dropWhile Char.isDigit) from if_neg hd] at hf ⊢
        obtain ⟨h₁, h₂⟩ := takeWhile_append_of_follows hdigit hf
        simp only [List.cons_append, fraction, h₁, h₂, if_neg hd]
    · rw [fraction_of_ne hc] at hf ⊢
      cases hf with
      | done => rfl
      | broken hb => exact fraction_of_ne (hdot _ hb) _
      | same => exact fraction_of_ne hc _

theorem number_of_follows {cs other : List Char} (hf : Follows (number cs).rest other) :
    number ((number cs).text ++ other) = { number cs with rest := other } := by
  have hdigit : ∀ c, breaks c = true → c.isDigit = false := fun c => isDigit_of_breaks
  -- each stage hands its rest on to the next
  obtain ⟨tail, htail⟩ : ∃ tail, tail = cs.dropWhile Char.isDigit := ⟨_, rfl⟩
  obtain ⟨part, hpart⟩ : ∃ part, part = fraction tail := ⟨_, rfl⟩
  obtain ⟨letter, hletter⟩ : ∃ letter, letter = suffix part.2 := ⟨_, rfl⟩
  have hnumber : number cs = ⟨.number (Decimal.ofDigits (cs.takeWhile Char.isDigit)
      (part.1.drop 1)), cs.takeWhile Char.isDigit ++ part.1 ++ letter.1, letter.2⟩ := by
    rw [hletter, hpart, htail]
    rfl
  rw [hnumber] at hf ⊢
  have hs : suffix (letter.1 ++ other) = (letter.1, other) := by
    rw [hletter] at hf ⊢
    exact suffix_append_of_follows hf
  have hf₁ : Follows part.2 (letter.1 ++ other) := by
    have := hf.append letter.1
    rwa [hletter, suffix_append, ← hletter] at this
  have hp : fraction (part.1 ++ (letter.1 ++ other)) = (part.1, letter.1 ++ other) := by
    rw [hpart] at hf₁ ⊢
    exact fraction_append_of_follows hf₁
  have hf₂ : Follows (cs.dropWhile Char.isDigit) (part.1 ++ (letter.1 ++ other)) := by
    have := hf₁.append part.1
    rwa [hpart, fraction_append, ← hpart, htail] at this
  obtain ⟨h₁, h₂⟩ := takeWhile_append_of_follows hdigit hf₂
  simp only [number, List.append_assoc, h₁, h₂, hp, hs]

/-! ## Any lexeme -/

theorem lexeme_of_isDigit {c : Char} (hd : c.isDigit = true) (cs : List Char) :
    lexeme c cs = .ok (number (c :: cs)) := by
  unfold lexeme
  split
  · exact absurd hd (by decide)
  · exact absurd hd (by decide)
  · exact absurd hd (by decide)
  · rw [if_pos hd]

theorem lexeme_of_startsWord {c : Char} (hw : startsWord c = true) (hd : c.isDigit = false)
    (cs : List Char) : lexeme c cs = .ok (word (c :: cs)) := by
  unfold lexeme
  split
  · exact absurd hw (by decide)
  · exact absurd hw (by decide)
  · exact absurd hw (by decide)
  · rw [if_neg (by simp [hd]), if_pos hw]

theorem lexeme_of_opener {quote : Quote} {c : Char} {cs inside : List Char}
    (h : c :: cs = quote.opener ++ inside) : lexeme c cs = literal quote inside := by
  cases quote with
  | string =>
    obtain ⟨rfl, rfl⟩ := List.cons.inj h
    rfl
  | interpolated =>
    obtain ⟨rfl, rfl⟩ := List.cons.inj h
    rfl
  | character =>
    obtain ⟨rfl, rfl⟩ := List.cons.inj h
    rfl

/-- The character opens no literal, number or word. -/
structure Plain (c : Char) (cs : List Char) : Prop where
  ne_quote : c ≠ '"'
  ne_mark : c ≠ '\''
  no_dollar : c = '$' → cs.head? ≠ some '"'
  no_digit : c.isDigit = false
  no_word : startsWord c = false

theorem Plain.of_follows {c : Char} {cs other : List Char} (h : Plain c cs)
    (hf : Follows cs other) : Plain c other where
  ne_quote := h.ne_quote
  ne_mark := h.ne_mark
  no_dollar := fun hc => hf.head?_ne (by decide) (h.no_dollar hc)
  no_digit := h.no_digit
  no_word := h.no_word

theorem lexeme_of_plain {c : Char} {cs : List Char} (h : Plain c cs) :
    lexeme c cs = .ok (symbol c cs) := by
  unfold lexeme
  split
  · exact absurd rfl h.ne_quote
  · exact absurd rfl (h.no_dollar rfl)
  · exact absurd rfl h.ne_mark
  · rw [if_neg (by simp [h.no_digit]), if_neg (by simp [h.no_word])]

/-- A lexeme is told by the characters that start it. -/
theorem lexeme_cases {c : Char} {cs : List Char} {l : Lexeme} (h : lexeme c cs = .ok l) :
    (∃ quote inside, c :: cs = quote.opener ++ inside ∧ literal quote inside = .ok l) ∨
      (c.isDigit = true ∧ l = number (c :: cs)) ∨
      (c.isDigit = false ∧ startsWord c = true ∧ l = word (c :: cs)) ∨
      (Plain c cs ∧ l = symbol c cs) := by
  unfold lexeme at h
  split at h
  · exact .inl ⟨.string, _, rfl, h⟩
  · exact .inl ⟨.interpolated, _, rfl, h⟩
  · exact .inl ⟨.character, _, rfl, h⟩
  · next hquote hmark hdollar =>
    split at h
    · next hd => exact .inr (.inl ⟨hd, (Except.ok.inj h).symm⟩)
    · next hd =>
      have hd' : c.isDigit = false := by simpa using hd
      split at h
      · next hw => exact .inr (.inr (.inl ⟨hd', hw, (Except.ok.inj h).symm⟩))
      · next hw =>
        refine .inr (.inr (.inr ⟨⟨hquote, hmark, ?_, hd', by simpa using hw⟩, ?_⟩))
        · intro hc hhead
          obtain ⟨inside, rfl⟩ := List.head?_eq_some_iff.1 hhead
          exact hdollar inside hc rfl
        · exact (Except.ok.inj h).symm

/-- A lexeme does not depend on where the text breaks off behind it. -/
theorem lexeme_of_follows {c : Char} {cs other : List Char} {l : Lexeme}
    (h : lexeme c cs = .ok l) (hf : Follows l.rest other) :
    ∃ t, l.text = c :: t ∧ lexeme c (t ++ other) = .ok { l with rest := other } := by
  obtain ⟨happend, hne⟩ := lexeme_append h
  obtain ⟨t, ht⟩ : ∃ t, l.text = c :: t := by
    cases htext : l.text with
    | nil => exact absurd htext hne
    | cons d t =>
      rw [htext] at happend
      exact ⟨t, by rw [(List.cons.inj happend).1]⟩
  refine ⟨t, ht, ?_⟩
  rcases lexeme_cases h with ⟨quote, inside, -, hl⟩ | ⟨hd, rfl⟩ | ⟨hd, hw, rfl⟩ | ⟨hplain, rfl⟩
  · obtain ⟨raw, htext, hl'⟩ := literal_of_rest hl other
    have hopen : c :: (t ++ other) = quote.opener ++ (raw ++ quote.mark :: other) := by
      rw [← List.cons_append, ← ht, htext]
      simp
    rw [lexeme_of_opener hopen, hl']
  · have := number_of_follows hf
    rw [ht, List.cons_append] at this
    rw [lexeme_of_isDigit hd, this]
  · have := word_of_follows hf
    rw [ht, List.cons_append] at this
    rw [lexeme_of_startsWord hw hd, this]
  · -- what follows a lone dollar sign may change, but not to a quote
    have hcs : t ++ (symbol c cs).rest = cs := by
      rw [ht] at happend
      exact (List.cons.inj happend).2
    rw [← hcs] at hplain
    rw [lexeme_of_plain (hplain.of_follows (hf.append t)), symbol_of_follows ht hf]

/-! ## The last character -/

theorem isBlank_of_mem_suffix {cs : List Char} {c : Char} (h : c ∈ (suffix cs).1) :
    isBlank c = false := by
  have hall : ∀ s ∈ suffixes, isBlank s = false := List.all_iff_forall_prop.1 (by decide)
  cases cs with
  | nil => simp [suffix] at h
  | cons d cs =>
    by_cases hd : d ∈ suffixes
    · simp only [suffix, if_pos hd, List.mem_singleton] at h
      exact h ▸ hall d hd
    · simp [suffix, hd] at h

theorem isBlank_of_mem_digits {cs : List Char} {c : Char} (h : c ∈ cs.takeWhile Char.isDigit) :
    isBlank c = false :=
  isBlank_of_continuesWord (continuesWord_of_isDigit (List.all_eq_true.1 List.all_takeWhile c h))

theorem isBlank_of_mem_fraction {cs : List Char} {c : Char} (h : c ∈ (fraction cs).1) :
    isBlank c = false := by
  unfold fraction at h
  split at h
  · split at h
    · simp at h
    · rcases List.mem_cons.1 h with rfl | h
      · decide
      · exact isBlank_of_mem_digits h
  · simp at h

theorem isBlank_of_mem_number {cs : List Char} {c : Char} (h : c ∈ (number cs).text) :
    isBlank c = false := by
  simp only [number, List.mem_append] at h
  rcases h with (h | h) | h
  · exact isBlank_of_mem_digits h
  · exact isBlank_of_mem_fraction h
  · exact isBlank_of_mem_suffix h

theorem isBlank_of_mem_symbol {c d : Char} {cs : List Char} (hc : isBlank c = false)
    (h : d ∈ (symbol c cs).text) : isBlank d = false := by
  have hall : ∀ d ∈ symbols.flatMap (·.1), isBlank d = false :=
    List.all_iff_forall_prop.1 (by decide)
  unfold symbol at h
  split at h
  · next spelling kind hfind =>
    exact hall d (List.mem_flatMap.2 ⟨_, List.mem_of_find?_eq_some hfind, h⟩)
  · rw [List.mem_singleton.1 h]
    exact hc

/-- No lexeme ends in a blank: a literal ends in its mark, and others hold none. -/
theorem isBlank_of_getLast_lexeme {c d : Char} {cs : List Char} {l : Lexeme}
    (hc : isBlank c = false) (h : lexeme c cs = .ok l) (hd : l.text.getLast? = some d) :
    isBlank d = false := by
  have hmem := List.mem_of_getLast? hd
  rcases lexeme_cases h with ⟨quote, inside, -, hl⟩ | ⟨-, rfl⟩ | ⟨-, -, rfl⟩ | ⟨-, rfl⟩
  · obtain ⟨raw, htext, -⟩ := literal_of_rest hl []
    rw [htext, List.getLast?_concat] at hd
    obtain rfl := Option.some.inj hd
    cases quote <;> decide
  · exact isBlank_of_mem_number hmem
  · exact isBlank_of_continuesWord (List.all_eq_true.1 List.all_takeWhile d hmem)
  · exact isBlank_of_mem_symbol hc hmem

end Lexer

end SnippetConsole
