import Mathlib.Data.Bool.AllAny
import Mathlib.Data.List.Infix
import SnippetConsole.Token.Lexer

/-!
# Where a lexeme ends

Reading a lexeme looks at characters behind it: a word at the next character, a
number at the next two. `Follows rest other` says which texts may stand in place
of the rest: those that go the way of the rest until they end or break off at a
blank or at a mark that is never part of a longer lexeme.

* `takeWhile_append_of_follows` — a maximal run of characters stays maximal.
* `trivia_append_of_starts` — trivia end at whatever starts a lexeme.
-/

namespace SnippetConsole

namespace Text

theorem Ranges.mem_of_holds {ranges : Ranges} {c : Char} (h : ranges.holds c = true) :
    c.toNat ∈ ranges.flatMap fun r => List.range' r.1 (r.2 + 1 - r.1) := by
  obtain ⟨r, hr, hl, hu⟩ := Ranges.holds_eq_true_iff.1 h
  rw [List.mem_flatMap]
  refine ⟨r, hr, ?_⟩
  rw [List.mem_range'_1]
  omega

/-- No blank continues a word. There are few enough blanks to look at each. -/
theorem continuesWord_of_isBlank {c : Char} (h : isBlank c = true) :
    continuesWord c = false := by
  have hall : ∀ n ∈ blankRanges.flatMap fun r => List.range' r.1 (r.2 + 1 - r.1),
      continuesWord (Char.ofNat n) = false := by decide +kernel
  have := hall _ (Ranges.mem_of_holds h)
  rwa [Char.ofNat_toNat] at this

theorem continuesWord_of_isDigit {c : Char} (h : c.isDigit = true) : continuesWord c = true := by
  simp [continuesWord, isNumeral_of_isDigit h]

theorem isBlank_of_continuesWord {c : Char} (h : continuesWord c = true) : isBlank c = false := by
  cases hb : isBlank c with
  | false => rfl
  | true => rw [continuesWord_of_isBlank hb] at h; exact absurd h (by simp)

end Text

namespace Lexer

open Text

/-! ## Characters that end a lexeme -/

/-- Marks that are lexemes of their own wherever they stand outside quotes. -/
def marks : List Char := [';', ',', '(', ')', '[', ']', '\x7b', '\x7d']

/-- A character that never goes on with a lexeme in front of it. -/
def breaks (c : Char) : Bool := isBlank c || c ∈ marks

theorem continuesWord_of_breaks {c : Char} (h : breaks c = true) : continuesWord c = false := by
  have hall : ∀ m ∈ marks, continuesWord m = false := List.all_iff_forall_prop.1 (by decide)
  simp only [breaks, Bool.or_eq_true, decide_eq_true_eq] at h
  rcases h with h | h
  · exact continuesWord_of_isBlank h
  · exact hall c h

theorem isDigit_of_breaks {c : Char} (h : breaks c = true) : c.isDigit = false := by
  cases hd : c.isDigit with
  | false => rfl
  | true =>
    have := continuesWord_of_isDigit hd
    rw [continuesWord_of_breaks h] at this
    exact absurd this (by simp)

theorem not_mem_suffixes_of_breaks {c : Char} (h : breaks c = true) : c ∉ suffixes := by
  have hall : ∀ s ∈ suffixes, continuesWord s = true := List.all_iff_forall_prop.1 (by decide)
  intro hs
  have := hall c hs
  rw [continuesWord_of_breaks h] at this
  exact absurd this (by simp)

/-- The signs that a lexeme or a comment may go on with. -/
def joints : List Char := ['.', '=', '>', '+', '-', '"', '/', '*']

theorem not_mem_joints_of_breaks {c : Char} (h : breaks c = true) : c ∉ joints := by
  have hall : ∀ j ∈ joints, breaks j = false := List.all_iff_forall_prop.1 (by decide)
  intro hj
  rw [hall c hj] at h
  exact absurd h (by simp)

theorem ne_joint_of_breaks {c j : Char} (h : breaks c = true) (hj : j ∈ joints) : c ≠ j := by
  rintro rfl
  exact not_mem_joints_of_breaks h hj

/-! ## Texts that may follow -/

/-- The second text goes the way of the first until it ends or breaks off. -/
inductive Follows : List Char → List Char → Prop
  | done {rest : List Char} : Follows rest []
  | broken {rest other : List Char} {c : Char} : breaks c = true → Follows rest (c :: other)
  | same {rest other : List Char} {c : Char} : Follows rest other → Follows (c :: rest) (c :: other)

namespace Follows

theorem append {rest other : List Char} (h : Follows rest other) (cs : List Char) :
    Follows (cs ++ rest) (cs ++ other) := by
  induction cs with
  | nil => exact h
  | cons c cs ih => exact .same ih

theorem takeWhile_eq_nil {rest other : List Char} (h : Follows rest other) {p : Char → Bool}
    (hp : ∀ c, breaks c = true → p c = false) (hr : rest.takeWhile p = []) :
    other.takeWhile p = [] := by
  cases h with
  | done => rfl
  | broken hb => simp [hp _ hb]
  | same h =>
    rename_i rest other c
    cases hc : p c with
    | false => simp [hc]
    | true => simp [hc] at hr

theorem isPrefix {rest other spelling : List Char} (h : Follows rest other)
    (hs : ∀ c ∈ spelling, breaks c = false) (hp : spelling <+: other) : spelling <+: rest := by
  induction h generalizing spelling with
  | done =>
    rw [List.prefix_nil.1 hp]
    exact List.nil_prefix
  | broken hb =>
    cases spelling with
    | nil => exact List.nil_prefix
    | cons s spelling =>
      obtain ⟨rfl, -⟩ := List.cons_prefix_cons.1 hp
      rw [hs _ List.mem_cons_self] at hb
      exact absurd hb (by simp)
  | same _ ih =>
    cases spelling with
    | nil => exact List.nil_prefix
    | cons s spelling =>
      obtain ⟨rfl, hp'⟩ := List.cons_prefix_cons.1 hp
      exact List.cons_prefix_cons.2 ⟨rfl, ih (fun c hc => hs c (List.mem_cons_of_mem _ hc)) hp'⟩

theorem head?_ne {rest other : List Char} (h : Follows rest other) {j : Char}
    (hj : breaks j = false) (hr : rest.head? ≠ some j) : other.head? ≠ some j := by
  cases h with
  | done => simp
  | broken hb =>
    intro he
    obtain rfl := Option.some.inj he
    rw [hj] at hb
    exact absurd hb (by simp)
  | same => simpa using hr

end Follows

theorem takeWhile_dropWhile (p : Char → Bool) (cs : List Char) :
    (cs.dropWhile p).takeWhile p = [] := by
  induction cs with
  | nil => rfl
  | cons c cs ih =>
    cases hc : p c with
    | true => simpa [hc] using ih
    | false => simp [hc]

/-- A maximal run stays maximal. -/
theorem takeWhile_append_of_follows {p : Char → Bool} {cs other : List Char}
    (hp : ∀ c, breaks c = true → p c = false) (hf : Follows (cs.dropWhile p) other) :
    (cs.takeWhile p ++ other).takeWhile p = cs.takeWhile p ∧
      (cs.takeWhile p ++ other).dropWhile p = other := by
  have ho := hf.takeWhile_eq_nil hp (takeWhile_dropWhile p cs)
  have hd : other.dropWhile p = other := by
    have := List.takeWhile_append_dropWhile (p := p) (l := other)
    rwa [ho, List.nil_append] at this
  have hrun : ∀ c ∈ cs.takeWhile p, p c = true := List.all_eq_true.1 List.all_takeWhile
  constructor
  · rw [List.takeWhile_append_of_pos hrun, ho, List.append_nil]
  · rw [List.dropWhile_append_of_pos hrun, hd]

/-! ## Trivia -/

/-- No trivia stand in front of the text. -/
def Starts (cs : List Char) : Prop := trivia cs = ([], cs)

theorem starts_trivia (cs : List Char) : Starts (trivia cs).2 := by
  have hall : ∀ inside, Starts (skip inside cs).2 := by
    intro inside
    fun_induction skip inside cs with
    | case1 => rfl
    | case2 _ _ _ h ih => simpa [h] using ih
    | case3 _ _ _ _ _ h ih => simpa [h] using ih
    | case4 => rfl
    | case5 _ _ _ h ih => simpa [h] using ih
    | case6 _ _ _ _ _ _ _ h ih => simpa [h] using ih
    | case7 c cs h₁ h₂ hb =>
      simp only [Starts, trivia]
      rw [skip.eq_6 _ _ h₁ h₂, if_neg hb]
  exact hall false

/-- Only blanks and comments are skipped. -/
theorem starts_cons_iff {c : Char} {cs : List Char} :
    Starts (c :: cs) ↔
      isBlank c = false ∧ (c = '/' → cs.head? ≠ some '/' ∧ cs.head? ≠ some '*') := by
  unfold Starts trivia
  constructor
  · intro h
    refine ⟨?_, ?_⟩
    · cases hb : isBlank c with
      | false => rfl
      | true =>
        have hc : c ≠ '/' := by
          rintro rfl
          exact absurd hb (by decide)
        rw [skip.eq_6 _ _ (fun _ he => absurd he hc) (fun _ he => absurd he hc), if_pos hb] at h
        exact absurd (Prod.mk.inj h).1 (by simp)
    · -- either second sign would open a comment, which is skipped
      rintro rfl
      constructor
      all_goals
        intro hhead
        obtain ⟨ds, rfl⟩ := List.head?_eq_some_iff.1 hhead
        exact absurd (Prod.mk.inj h).1 (by simp)
  · rintro ⟨hb, hc⟩
    rw [skip.eq_6, hb]
    · simp
    · rintro ds h rfl
      exact (hc h).1 rfl
    · rintro ds h rfl
      exact (hc h).2 rfl

theorem Starts.of_follows {c : Char} {cs other : List Char} (h : Starts (c :: cs))
    (hf : Follows cs other) : Starts (c :: other) := by
  rw [starts_cons_iff] at h ⊢
  refine ⟨h.1, fun hc => ⟨?_, ?_⟩⟩
  · exact hf.head?_ne (by decide) (h.2 hc).1
  · exact hf.head?_ne (by decide) (h.2 hc).2

/-- Within a comment something is skipped as long as there is something. -/
theorem skip_true_ne_nil (c : Char) (cs : List Char) : (skip true (c :: cs)).1 ≠ [] := by
  unfold skip
  split <;> simp_all

/-- What comes after complete trivia does not matter, if it starts a lexeme. -/
theorem skip_append_of_starts {inside : Bool} {cs other : List Char}
    (hne : (skip inside cs).2 ≠ []) (ho : Starts other) :
    skip inside ((skip inside cs).1 ++ other) = ((skip inside cs).1, other) := by
  fun_induction skip inside cs with
  | case1 => simp at hne
  | case2 cs skipped rest hs ih =>
    simp only [hs] at ih hne
    simp [skip, ih hne]
  | case3 c cs hend skipped rest hs ih =>
    simp only [hs] at ih hne
    have hsplit : skipped ++ rest = cs := by
      have := skip_append true cs
      rwa [hs] at this
    -- a star that did not close the comment does not close it now
    have hend' : ∀ ds, c = '*' → skipped ++ other = '/' :: ds → False := by
      intro ds hc he
      cases skipped with
      | nil =>
        cases cs with
        | nil => exact hne hsplit
        | cons d ds =>
          have := skip_true_ne_nil d ds
          rw [hs] at this
          exact this rfl
      | cons d skipped =>
        obtain ⟨rfl, -⟩ := List.cons.inj he
        exact hend _ hc hsplit.symm
    rw [List.cons_append, skip.eq_3 _ _ hend', ih hne]
  | case4 => simp at hne
  | case5 cs skipped rest hs ih =>
    simp only [hs] at ih hne
    simp [skip, ih hne]
  | case6 c cs h₁ h₂ hb skipped rest hs ih =>
    simp only [hs] at ih hne
    have hc : c ≠ '/' := by
      rintro rfl
      exact absurd hb (by decide)
    rw [List.cons_append, skip.eq_6 _ _ (fun _ h => absurd h hc) (fun _ h => absurd h hc), ih hne,
      if_pos hb]
  | case7 => exact ho

theorem trivia_append_of_starts {cs other : List Char} (hne : (trivia cs).2 ≠ [])
    (ho : Starts other) : trivia ((trivia cs).1 ++ other) = ((trivia cs).1, other) :=
  skip_append_of_starts hne ho

/-- A text in which a block comment is open either closes it, for the first time, or
is a comment as a whole. -/
theorem skip_inside (cs : List Char) :
    (∃ inside rest, cs = inside ++ '*' :: '/' :: rest ∧ ¬['*', '/'] <:+: inside ++ ['*'] ∧
      skip true cs = (inside ++ '*' :: '/' :: (skip false rest).1, (skip false rest).2)) ∨
    (¬['*', '/'] <:+: cs ∧ skip true cs = (cs, [])) := by
  induction cs with
  | nil => exact .inr ⟨by decide, rfl⟩
  | cons c cs ih =>
    by_cases hclose : c = '*' ∧ cs.head? = some '/'
    · obtain ⟨rfl, hhead⟩ := hclose
      obtain ⟨rest, rfl⟩ := List.head?_eq_some_iff.1 hhead
      exact .inl ⟨[], rest, rfl, by decide, by simp [skip]⟩
    · have hskip : skip true (c :: cs) = (c :: (skip true cs).1, (skip true cs).2) := by
        refine skip.eq_3 c cs fun rest hc hcs => hclose ⟨hc, ?_⟩
        rw [hcs]
        rfl
      -- the two characters that close the comment do not start here
      have hfront {ds : List Char} (hds : ds.head? = cs.head?) (h : ¬['*', '/'] <:+: ds) :
          ¬['*', '/'] <:+: c :: ds := by
        rw [List.infix_cons_iff]
        rintro (hp | hi)
        · obtain ⟨hc, hp'⟩ := List.cons_prefix_cons.1 hp
          obtain ⟨more, hmore⟩ := hp'
          exact hclose ⟨hc.symm, by rw [← hds, ← hmore]; rfl⟩
        · exact h hi
      rcases ih with ⟨inside, rest, rfl, hfirst, hrest⟩ | ⟨hopen, hrest⟩
      · refine .inl ⟨c :: inside, rest, rfl, hfront ?_ hfirst, ?_⟩
        · cases inside <;> rfl
        · rw [hskip, hrest]
          rfl
      · exact .inr ⟨hfront rfl hopen, by rw [hskip, hrest]⟩

end Lexer

end SnippetConsole
