import SnippetConsole.Proofs.Token.Lexeme

/-!
# Reading tokens off the front of a text

`Reads rest start ts used` says that the text `used`, with `rest` behind it, is
read as the tokens `ts`, the last of which ends where `used` ends. The rest is
carried along because a lexeme looks at what comes behind it.

* `reads_of_tokens`, `Reads.tokens` — the relation is what the reader computes.
* `Reads.append`, `Reads.split` — runs of tokens and the texts they use go
  together.
* `Reads.of_follows` — the rest may be cut off or broken off.
* `Reads.shift` — a text read elsewhere gives the same tokens, shifted.
* `Reads.concat_mark` — a mark at the end takes the place of what comes behind.
* `tokens_braces` — braces are read one by one, blanks between them or not.
-/

namespace SnippetConsole

/-- The span as many bytes further on. -/
def Text.Span.shift (n : Nat) (span : Text.Span) : Text.Span := ⟨span.start + n, span.stop + n⟩

/-- The token as many bytes further on. -/
def Token.shift (n : Nat) (t : Token) : Token := ⟨t.kind, t.span.shift n⟩

@[simp] theorem Token.kind_shift (n : Nat) (t : Token) : (t.shift n).kind = t.kind := rfl

@[simp] theorem Token.shift_zero : Token.shift 0 = id := rfl

namespace Lexer

open Text

/-- The text `used`, starting at byte `start` and followed by `rest`, is read as
the tokens. -/
inductive Reads (rest : List Char) : Nat → List Token → List Char → Prop
  | nil {start : Nat} : Reads rest start [] []
  | cons {start : Nat} {blanks t used : List Char} {c : Char} {kind : Kind} {ts : List Token} :
      trivia (blanks ++ (c :: t ++ (used ++ rest))) = (blanks, c :: t ++ (used ++ rest)) →
      lexeme c (t ++ (used ++ rest)) = .ok ⟨kind, c :: t, used ++ rest⟩ →
      Reads rest (start + byteCount blanks + byteCount (c :: t)) ts used →
      Reads rest start
        (⟨kind, ⟨start + byteCount blanks, start + byteCount blanks + byteCount (c :: t)⟩⟩ :: ts)
        (blanks ++ (c :: t ++ used))

/-! ## The relation and the reader -/

theorem tokens_of_trivia {start : Nat} {text : List Char} (h : (trivia text).2 = []) :
    tokens start text = .ok [] := by
  rw [tokens]
  split
  · rfl
  · next hc => rw [h] at hc; cases hc

/-- One step of the reader. -/
theorem tokens_cons {start : Nat} {text blanks cs : List Char} {c : Char} {l : Lexeme}
    (ht : trivia text = (blanks, c :: cs)) (hl : lexeme c cs = .ok l) :
    tokens start text =
      (tokens (start + byteCount blanks + byteCount l.text) l.rest).map fun later =>
        ⟨l.kind, ⟨start + byteCount blanks, start + byteCount blanks + byteCount l.text⟩⟩ ::
          later := by
  rw [tokens]
  split
  · next hnil => rw [ht] at hnil; cases hnil
  · next d ds hds =>
    rw [ht] at hds
    obtain ⟨rfl, rfl⟩ := List.cons.inj hds
    split
    · next he => rw [hl] at he; cases he
    · next l' hl' =>
      obtain rfl := Except.ok.inj (hl.symm.trans hl')
      rw [ht]

theorem Reads.tokens {rest used : List Char} {start : Nat} {ts : List Token}
    (h : Reads rest start ts used) :
    tokens start (used ++ rest) =
      (tokens (start + byteCount used) rest).map (ts ++ ·) := by
  induction h with
  | nil =>
    simp only [List.nil_append, byteCount_nil, Nat.add_zero]
    cases Lexer.tokens _ rest <;> rfl
  | @cons start blanks t used c kind ts ht hl _ ih =>
    rw [List.append_assoc, List.append_assoc, tokens_cons ht hl]
    simp only
    rw [ih, byteCount_append, byteCount_append]
    simp only [Nat.add_assoc]
    cases Lexer.tokens _ rest <;> rfl

/-- A text that is used up is read as its tokens. -/
theorem Reads.lex {ts : List Token} {text : List Char} (h : Reads [] 0 ts text) :
    lex (String.ofList text) = .ok ts := by
  have hend : Lexer.tokens (0 + byteCount text) [] = .ok [] := tokens_of_trivia rfl
  have := h.tokens
  rw [List.append_nil, hend] at this
  rw [SnippetConsole.lex, String.toList_ofList, this]
  simp [Except.map]

/-- A lexeme and what is read behind it. -/
theorem Reads.of_lexeme {start : Nat} {text cs rest used : List Char} {c : Char} {l : Lexeme}
    {later : List Token} (ht : (trivia text).2 = c :: cs) (hl : lexeme c cs = .ok l)
    (hrest : l.rest = used ++ rest)
    (h : Reads rest (start + byteCount (trivia text).1 + byteCount l.text) later used) :
    text = (trivia text).1 ++ (l.text ++ used) ++ rest ∧
      Reads rest start (⟨l.kind, ⟨start + byteCount (trivia text).1,
        start + byteCount (trivia text).1 + byteCount l.text⟩⟩ :: later)
        ((trivia text).1 ++ (l.text ++ used)) := by
  obtain ⟨t, htext, -⟩ := lexeme_of_follows hl .done
  have hcs : c :: cs = c :: t ++ (used ++ rest) := by
    rw [← (lexeme_append hl).1, htext, hrest]
  obtain ⟨blanks, hblanks⟩ : ∃ blanks, blanks = (trivia text).1 := ⟨_, rfl⟩
  have htrivia : trivia text = (blanks, c :: t ++ (used ++ rest)) := by
    rw [hblanks, ← hcs, ← ht]
  have hsplit : blanks ++ (c :: t ++ (used ++ rest)) = text := by
    have := trivia_append text
    rwa [htrivia] at this
  have hl' : lexeme c (t ++ (used ++ rest)) = .ok ⟨l.kind, c :: t, used ++ rest⟩ := by
    have hcs' : cs = t ++ (used ++ rest) := (List.cons.inj hcs).2
    rw [← hcs', hl, ← htext, ← hrest]
  -- the constructor knows the trivia and the lexeme by their texts
  rw [← hblanks, htext] at h ⊢
  refine ⟨by simp only [← hsplit, List.append_assoc], .cons ?_ hl' h⟩
  rw [hsplit, htrivia]

theorem reads_of_tokens {start : Nat} {text : List Char} {ts : List Token}
    (h : Lexer.tokens start text = .ok ts) :
    ∃ used rest, text = used ++ rest ∧ Reads rest start ts used ∧ (trivia rest).2 = [] := by
  fun_induction Lexer.tokens start text generalizing ts with
  | case1 start text ht =>
    obtain rfl := Except.ok.inj h
    exact ⟨[], text, rfl, .nil, ht⟩
  | case2 => cases h
  | case3 =>
    rename_i start text c cs ht first l hl next ih
    cases hts : Lexer.tokens next l.rest with
    | error e => rw [hts] at h; cases h
    | ok later =>
      rw [hts] at h
      obtain rfl := Except.ok.inj h
      obtain ⟨used, rest, hrest, hreads, htail⟩ := ih hts
      obtain ⟨htext, hlonger⟩ := Reads.of_lexeme ht hl hrest hreads
      exact ⟨_, rest, htext, hlonger, htail⟩

/-! ## Putting together and taking apart -/

namespace Reads

variable {rest used : List Char} {start : Nat} {ts : List Token}

theorem append {us : List Token} {later : List Char} (h : Reads (later ++ rest) start ts used)
    (h' : Reads rest (start + byteCount used) us later) :
    Reads rest start (ts ++ us) (used ++ later) := by
  induction h with
  | nil => simpa using h'
  | @cons start blanks t used c kind ts ht hl _ ih =>
    rw [← List.append_assoc used] at ht hl
    simp only [byteCount_append, ← Nat.add_assoc] at h'
    rw [List.cons_append, List.append_assoc, List.append_assoc]
    exact .cons ht hl (ih h')

theorem split {us : List Token} (h : Reads rest start (ts ++ us) used) :
    ∃ u v, used = u ++ v ∧ Reads (v ++ rest) start ts u ∧
      Reads rest (start + byteCount u) us v := by
  induction ts generalizing start used with
  | nil => exact ⟨[], used, rfl, .nil, by simpa using h⟩
  | cons t ts ih =>
    cases h with
    | @cons _ blanks t used c kind _ ht hl h =>
      obtain ⟨u, v, rfl, hu, hv⟩ := ih h
      rw [List.append_assoc u] at ht hl
      refine ⟨blanks ++ (c :: t ++ u), v, by simp, .cons ht hl hu, ?_⟩
      simp only [byteCount_append, ← Nat.add_assoc] at hv ⊢
      exact hv

/-- The rest may be replaced by a text that goes the same way or breaks off. -/
theorem of_follows {other : List Char} (h : Reads rest start ts used) (hf : Follows rest other) :
    Reads other start ts used := by
  induction h with
  | nil => exact .nil
  | @cons start blanks t used c kind ts ht hl _ ih =>
    have hf' := hf.append used
    obtain ⟨t', htext, hl'⟩ := lexeme_of_follows hl hf'
    obtain rfl := (List.cons.inj htext).2
    refine .cons ?_ hl' ih
    -- what starts the lexeme still ends the trivia
    have hstarts : Starts (c :: (t ++ (used ++ rest))) := by
      have := starts_trivia (blanks ++ (c :: t ++ (used ++ rest)))
      rwa [ht] at this
    have := trivia_append_of_starts (by rw [ht]; simp) (hstarts.of_follows (hf'.append t))
    rwa [ht] at this

/-- Appending where the start of the second text is known by an equation. -/
theorem append_of_eq {us : List Token} {later : List Char} {next : Nat}
    (h : Reads (later ++ rest) start ts used) (hnext : start + byteCount used = next)
    (h' : Reads rest next us later) : Reads rest start (ts ++ us) (used ++ later) := by
  subst hnext
  exact h.append h'

/-- The constructor for a token whose span is known by equations. -/
theorem cons_of_eq {blanks t : List Char} {c : Char} {kind : Kind} {first stop : Nat}
    (ht : trivia (blanks ++ (c :: t ++ (used ++ rest))) = (blanks, c :: t ++ (used ++ rest)))
    (hl : lexeme c (t ++ (used ++ rest)) = .ok ⟨kind, c :: t, used ++ rest⟩)
    (hfirst : first = start + byteCount blanks) (hstop : stop = first + byteCount (c :: t))
    (h : Reads rest stop ts used) :
    Reads rest start (⟨kind, ⟨first, stop⟩⟩ :: ts) (blanks ++ (c :: t ++ used)) := by
  subst hfirst
  subst hstop
  exact .cons ht hl h

theorem shift (n : Nat) (h : Reads rest start ts used) :
    Reads rest (start + n) (ts.map (Token.shift n)) used := by
  induction h with
  | nil => exact .nil
  | cons ht hl _ ih => exact cons_of_eq ht hl (by simp only; omega) (by simp only; omega) ih

theorem unshift {n : Nat} (h : Reads rest start ts used) (hn : n ≤ start) :
    ∃ us, us.map (Token.shift n) = ts ∧ Reads rest (start - n) us used := by
  induction h with
  | nil => exact ⟨[], rfl, .nil⟩
  | @cons start blanks t used c kind ts ht hl _ ih =>
    obtain ⟨us, rfl, hus⟩ := ih (by omega)
    refine ⟨⟨kind, ⟨start + byteCount blanks - n,
      start + byteCount blanks + byteCount (c :: t) - n⟩⟩ :: us, ?_, ?_⟩
    · simp only [List.map_cons, Token.shift, Span.shift]
      congr 3 <;> omega
    · exact cons_of_eq ht hl (by omega) (by omega) hus

/-! ## Spans -/

theorem bounds (h : Reads rest start ts used) :
    ∀ t ∈ ts, start ≤ t.span.start ∧ t.span.start ≤ t.span.stop ∧
      t.span.stop ≤ start + byteCount used := by
  induction h with
  | nil => simp
  | @cons start blanks t used c kind ts ht hl _ ih =>
    intro u hu
    simp only [byteCount_append]
    rcases List.mem_cons.1 hu with rfl | hu
    · simp only
      omega
    · have := ih u hu
      omega

theorem stop_getLast (h : Reads rest start ts used) {t : Token} (ht : ts.getLast? = some t) :
    t.span.stop = start + byteCount used := by
  induction h with
  | nil => simp at ht
  | @cons start blanks text used c kind ts _ _ h ih =>
    cases ts with
    | nil =>
      cases h
      obtain rfl := Option.some.inj ht
      simp [Nat.add_assoc]
    | cons u us =>
      rw [List.getLast?_cons_cons] at ht
      rw [ih ht]
      simp only [byteCount_append, Nat.add_assoc]

/-- Without the trivia in front the text used starts with its first token. -/
theorem tight {t : Token} (h : Reads rest start (t :: ts) used) :
    ∃ blanks c cs, used = blanks ++ c :: cs ∧ t.span.start = start + byteCount blanks ∧
      isBlank c = false ∧ Reads rest t.span.start (t :: ts) (c :: cs) := by
  cases h with
  | @cons _ blanks text used c kind _ ht hl h =>
    have hstarts : Starts (c :: (text ++ (used ++ rest))) := by
      have := starts_trivia (blanks ++ (c :: text ++ (used ++ rest)))
      rwa [ht] at this
    refine ⟨blanks, c, text ++ used, rfl, rfl, (starts_cons_iff.1 hstarts).1, ?_⟩
    exact cons_of_eq (show trivia ([] ++ _) = ([], _) from hstarts) hl (by simp) rfl h

/-- The text used ends where a lexeme ends, so not in a blank. -/
theorem isBlank_getLast (h : Reads rest start ts used) {d : Char} (hd : used.getLast? = some d) :
    isBlank d = false := by
  induction h with
  | nil => simp at hd
  | @cons start blanks t used c kind ts ht hl h ih =>
    cases used with
    | nil =>
      have hstarts : Starts (c :: t ++ ([] ++ rest)) := by
        have := starts_trivia (blanks ++ (c :: t ++ ([] ++ rest)))
        rwa [ht] at this
      refine isBlank_of_getLast_lexeme (starts_cons_iff.1 hstarts).1 hl ?_
      simpa [List.getLast?_append] using hd
    | cons e used =>
      apply ih
      rw [List.getLast?_append, List.getLast?_append] at hd
      simpa [List.getLast?_cons] using hd

end Reads

/-! ## Single characters -/

theorem trivia_blank {c : Char} (hc : isBlank c = true) (cs : List Char) :
    trivia (c :: cs) = (c :: (trivia cs).1, (trivia cs).2) := by
  have hslash : c ≠ '/' := by
    rintro rfl
    exact absurd hc (by decide)
  unfold trivia
  rw [skip.eq_6 _ _ (fun _ he => absurd he hslash) (fun _ he => absurd he hslash), if_pos hc]

/-- Trivia in front of a text only move its tokens. -/
theorem tokens_append_of_trivia {skipped cs : List Char}
    (h : trivia (skipped ++ cs) = (skipped ++ (trivia cs).1, (trivia cs).2)) (start : Nat) :
    tokens start (skipped ++ cs) = tokens (start + byteCount skipped) cs := by
  rw [tokens, h, tokens]
  simp only [byteCount_append, Nat.add_assoc]

theorem tokens_blank {c : Char} (hc : isBlank c = true) (start : Nat) (cs : List Char) :
    tokens start (c :: cs) = tokens (start + c.utf8Size) cs := by
  have ht : trivia ([c] ++ cs) = ([c] ++ (trivia cs).1, (trivia cs).2) := trivia_blank hc cs
  have := tokens_append_of_trivia ht start
  rwa [byteCount_cons, byteCount_nil, Nat.add_zero] at this

/-- What is read at another place is what is read alone, shifted. -/
theorem exists_lex_of_tokens {start : Nat} {cs : List Char} {ts : List Token}
    (h : tokens start cs = .ok ts) :
    ∃ us, SnippetConsole.lex (String.ofList cs) = .ok us ∧ us.map (Token.shift start) = ts := by
  obtain ⟨used, rest, rfl, hreads, htail⟩ := reads_of_tokens h
  obtain ⟨us, hus, halone⟩ := hreads.unshift (Nat.le_refl start)
  refine ⟨us, ?_, hus⟩
  rw [Nat.sub_self] at halone
  rw [SnippetConsole.lex, String.toList_ofList, halone.tokens, tokens_of_trivia htail]
  simp [Except.map]

/-- The first token is the first lexeme. -/
theorem exists_cons_of_tokens {start : Nat} {c : Char} {cs : List Char} {l : Lexeme}
    {ts : List Token} (hs : Starts (c :: cs)) (hl : lexeme c cs = .ok l)
    (h : tokens start (c :: cs) = .ok ts) : ∃ span later, ts = ⟨l.kind, span⟩ :: later := by
  rw [tokens_cons hs hl] at h
  cases hts : tokens (start + byteCount [] + byteCount l.text) l.rest with
  | error e =>
    rw [hts] at h
    cases h
  | ok later =>
    rw [hts] at h
    exact ⟨_, later, (Except.ok.inj h).symm⟩

namespace Reads

variable {rest used : List Char} {start : Nat} {ts : List Token}

theorem blank {b : Char} {t : Token} (hb : isBlank b = true)
    (h : Reads rest (start + b.utf8Size) (t :: ts) used) :
    Reads rest start (t :: ts) (b :: used) := by
  cases h with
  | @cons _ blanks text used c kind _ ht hl h =>
    rw [← List.cons_append]
    refine cons_of_eq ?_ hl ?_ rfl h
    · rw [List.cons_append, trivia_blank hb, ht]
    · simp only [byteCount_cons, Nat.add_assoc]

/-- A character that is a token by itself, whatever comes behind it. -/
theorem single {c : Char} {kind : Kind} (hs : Starts (c :: rest))
    (hl : lexeme c rest = .ok ⟨kind, [c], rest⟩) (start : Nat) :
    Reads rest start [⟨kind, ⟨start, start + c.utf8Size⟩⟩] [c] := by
  have ht : trivia ([] ++ ([c] ++ ([] ++ rest))) = ([], [c] ++ ([] ++ rest)) := hs
  exact cons_of_eq ht hl (by simp) (by simp) .nil

end Reads

theorem starts_mark {c : Char} (hc : c ∈ marks) (cs : List Char) : Starts (c :: cs) := by
  have hmarks : ∀ c ∈ marks, isBlank c = false ∧ c ≠ '/' :=
    List.all_iff_forall_prop.1 (by decide)
  exact starts_cons_iff.2 ⟨(hmarks c hc).1, fun h => absurd h (hmarks c hc).2⟩

/-- A text with a mark at its end is read as it is, whatever comes behind it. -/
theorem Reads.concat_mark {start : Nat} {ts : List Token} {used : List Char} {c : Char}
    {kind : Kind} (h : Reads [] start ts used) (hc : c ∈ marks)
    (hl : ∀ rest, Lexer.lexeme c rest = .ok ⟨kind, [c], rest⟩) (rest : List Char) :
    Reads rest start
      (ts ++ [⟨kind, ⟨start + byteCount used, start + byteCount used + 1⟩⟩]) (used ++ [c]) := by
  have hbreaks : breaks c = true := by simp [breaks, hc]
  have hsize : ∀ c ∈ marks, c.utf8Size = 1 := List.all_iff_forall_prop.1 (by decide)
  have hmark := Reads.single (starts_mark hc rest) (hl rest) (start + byteCount used)
  rw [hsize c hc] at hmark
  exact (h.of_follows (.broken hbreaks)).append hmark

theorem reads_semicolon (start : Nat) (rest : List Char) :
    Reads rest start [⟨.semicolon, ⟨start, start + 1⟩⟩] [';'] :=
  .single (c := ';') (starts_mark (by decide) rest) rfl start

/-- Braces and the blanks between them are read as braces. -/
theorem tokens_braces {cs : List Char}
    (h : ∀ c ∈ cs, c = '\x7b' ∨ c = '\x7d' ∨ isBlank c = true) (start : Nat) :
    ∃ braces, (∀ b ∈ braces, b.kind = .opening .curly ∨ b.kind = .closing .curly) ∧ ∀ text,
      tokens start (cs ++ text) = (tokens (start + byteCount cs) text).map (braces ++ ·) := by
  induction cs generalizing start with
  | nil =>
    refine ⟨[], by simp, fun text => ?_⟩
    simp only [List.nil_append, byteCount_nil, Nat.add_zero]
    cases tokens start text <;> rfl
  | cons c cs ih =>
    obtain ⟨braces, hbraces, hcs⟩ := ih (fun d hd => h d (List.mem_cons_of_mem c hd))
      (start + c.utf8Size)
    -- a brace is a token whatever comes behind it
    have hstep {kind : Kind} (hc : c ∈ marks) (hl : ∀ text, lexeme c text = .ok ⟨kind, [c], text⟩)
        (text : List Char) : tokens start (c :: (cs ++ text)) =
          (tokens (start + byteCount (c :: cs)) text).map
            (⟨kind, ⟨start, start + c.utf8Size⟩⟩ :: braces ++ ·) := by
      have hread := (Reads.single (starts_mark hc (cs ++ text)) (hl (cs ++ text)) start).tokens
      simp only [List.singleton_append, byteCount_cons, byteCount_nil, Nat.add_zero] at hread
      rw [hread, hcs, byteCount_cons, Nat.add_assoc]
      cases tokens (start + (c.utf8Size + byteCount cs)) text <;> rfl
    rcases h c List.mem_cons_self with rfl | rfl | hb
    · refine ⟨⟨.opening .curly, ⟨start, start + 1⟩⟩ :: braces, ?_, hstep (by decide) fun _ => rfl⟩
      simpa using hbraces
    · refine ⟨⟨.closing .curly, ⟨start, start + 1⟩⟩ :: braces, ?_, hstep (by decide) fun _ => rfl⟩
      simpa using hbraces
    · refine ⟨braces, hbraces, fun text => ?_⟩
      rw [List.cons_append, tokens_blank hb, hcs, byteCount_cons, Nat.add_assoc]

end Lexer

end SnippetConsole
