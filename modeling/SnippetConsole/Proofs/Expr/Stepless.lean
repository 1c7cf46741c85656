import SnippetConsole.Proofs.Expr.Numeric
import SnippetConsole.Proofs.Expr.Rules
import SnippetConsole.Proofs.Statement.SourceText
import SnippetConsole.Proofs.Token.Cover

/-!
# Runs without indices

Besides the run itself only an index costs steps. In a run without square brackets, and
with none in its interpolated strings either, all references are looked up at once. So
if the run is one part, it costs its one step and comes to the same outcome wherever it
stands: alone, or between plus signs.

* `Unindexed`, `unindexed_of_lex` — runs without square brackets.
* `Attempt.Settled` — attempts of one outcome that take no steps.
* `exists_settles` — a part without indices comes to one outcome.
* `Settles.evaluate?` — which is the value of its text.
-/

namespace SnippetConsole

/-! ## Attempts of one outcome -/

namespace Attempt

variable {ι κ α β : Type}

/-- All attempts of a family come to one outcome, and they take no steps. -/
def Settled (f : ι → Attempt α) : Prop := ∃ o, ∀ i steps, (f i).result steps = (o, steps)

theorem settled_ofOption (o : Option α) : Settled fun _ : ι => ofOption o := ⟨o, fun _ _ => rfl⟩

theorem Settled.comp {f : ι → Attempt α} (h : Settled f) (g : κ → ι) :
    Settled fun k => f (g k) := by
  obtain ⟨o, ho⟩ := h
  exact ⟨o, fun k => ho (g k)⟩

theorem Settled.bind {f : ι → Attempt α} {g : ι → α → Attempt β} (hf : Settled f)
    (hg : ∀ x, Settled fun i => g i x) : Settled fun i => f i >>= g i := by
  obtain ⟨_ | x, ho⟩ := hf
  · refine ⟨none, fun i steps => ?_⟩
    rw [result_bind, ho]
  · obtain ⟨p, hp⟩ := hg x
    refine ⟨p, fun i steps => ?_⟩
    rw [result_bind, ho]
    exact hp i steps

theorem Settled.orElse {f g : ι → Attempt α} (hf : Settled f) (hg : Settled g) :
    Settled fun i => f i <|> g i := by
  obtain ⟨_ | x, ho⟩ := hf
  · obtain ⟨p, hp⟩ := hg
    exact ⟨p, fun i steps => (result_orElse_of_none (ho i steps)).trans (hp i steps)⟩
  · refine ⟨some x, fun i steps => ?_⟩
    rw [result_orElse, ho]

theorem settled_mapM {f : ι → α → Attempt β} {xs : List α} (h : ∀ x ∈ xs, Settled fun i => f i x) :
    Settled fun i => xs.mapM (f i) := by
  induction xs with
  | nil => exact settled_ofOption (some [])
  | cons x xs ih =>
    simp only [List.mapM_cons]
    obtain ⟨hx, hxs⟩ := List.forall_mem_cons.1 h
    exact hx.bind fun y => (ih hxs).bind fun ys => settled_ofOption (some (y :: ys))

end Attempt

/-! ## Runs without square brackets -/

/-- No square bracket opens in the run, nor in the raw text of an interpolated string. -/
structure Unindexed (ts : List Token) : Prop where
  square : ∀ t ∈ ts, t.kind ≠ .opening .square
  raw : ∀ t ∈ ts, ∀ raw, t.kind = .quoted .interpolated raw → '[' ∉ raw.toList

theorem Unindexed.subset {ts us : List Token} (h : Unindexed ts) (hus : us ⊆ ts) : Unindexed us :=
  ⟨fun t ht => h.square t (hus ht), fun t ht => h.raw t (hus ht)⟩

/-- All tokens but numbers stand in the text as they are shown. -/
theorem shown_isInfix_of_lex {text : String} {ts : List Token} (h : lex text = .ok ts) {t : Token}
    (ht : t ∈ ts) (hnumber : ∀ x, t.kind ≠ .number x) : t.kind.shown.toList <:+: text.toList := by
  obtain ⟨used, rest, heq, hreads, -⟩ := Lexer.reads_of_tokens h
  obtain ⟨pre, post, rfl⟩ := List.append_of_mem ht
  obtain ⟨before, gap, spelling, after, htext, -, -, -, -, -, hspelled, -⟩ := hreads.stands heq
  rw [← hspelled.shown hnumber]
  exact ⟨before ++ gap, after, htext.symm⟩

theorem unindexed_of_lex {text : String} {ts : List Token} (h : lex text = .ok ts)
    (hsquare : '[' ∉ text.toList) : Unindexed ts where
  square t ht hkind := by
    have hwithin := shown_isInfix_of_lex h ht (by simp [hkind])
    rw [hkind] at hwithin
    exact hsquare (hwithin.subset (by decide))
  raw t ht raw hkind := by
    have hwithin := within_of_lex h t ht raw (by simp [hkind, Kind.payload?])
    exact fun hmem => hsquare (hwithin.subset hmem)

section

variable {store : Store} {ts : List Token}

/-! ## References that are no slots -/

theorem Reference.settled_value {r : Reference} (hr : ∀ array index, r ≠ .slot array index) :
    Attempt.Settled fun near => r.value store near := by
  cases r with
  | binding name => exact Attempt.settled_ofOption _
  | member object field => exact Attempt.settled_ofOption _
  | slot array index => exact absurd rfl (hr array index)

theorem Reference.ne_slot_of_read? {r : Reference} {rest : List Token}
    (hts : ∀ t ∈ ts, t.kind ≠ .opening .square) (h : read? ts = some (r, rest)) :
    (∀ array index, r ≠ .slot array index) ∧ rest ⊆ ts := by
  fun_cases read? ts with
  | case1 object s₁ s₂ field s₃ rest' =>
    obtain ⟨rfl, rfl⟩ := Prod.mk.inj (Option.some.inj h)
    exact ⟨by simp, fun t ht => by simp [ht]⟩
  | case2 => simp_all [read?]
  | case3 array s₁ s₂ => exact absurd rfl (hts ⟨.opening .square, s₂⟩ (by simp))
  | case4 name span rest' hdot hsquare =>
    simp only [read?, Option.some.injEq, Prod.mk.injEq] at h
    obtain ⟨rfl, rfl⟩ := h
    exact ⟨by simp, List.subset_cons_self _ _⟩
  | case5 => simp_all [read?]

theorem ne_slot_of_mem_operands {r : Reference} (hts : ∀ t ∈ ts, t.kind ≠ .opening .square)
    (h : .ref r ∈ operands ts) : ∀ array index, r ≠ .slot array index := by
  fun_induction operands ts with
  | case1 => cases h
  | case2 t ts hname ih =>
    rcases List.mem_cons.1 h with h | h
    · cases h
    · exact ih (List.forall_mem_cons.1 hts).2 h
  | case3 t ts name hname reference rest hread ih =>
    obtain ⟨hslot, hrest⟩ := Reference.ne_slot_of_read? hts hread
    rcases List.mem_cons.1 h with h | h
    · obtain rfl := Operand.ref.inj h
      exact hslot
    · exact ih (fun u hu => hts u (hrest hu)) h
  | case4 t ts name hname hread =>
    rw [List.mem_singleton] at h
    cases h

/-! ## Rules that take no steps -/

theorem settled_referenceValue (hts : ∀ t ∈ ts, t.kind ≠ .opening .square) :
    Attempt.Settled fun near => referenceValue store near ts := by
  cases h : Reference.ofRun? ts with
  | none => exact ⟨none, fun near steps => referenceValue_of_none h⟩
  | some r =>
    have hslot := (Reference.ne_slot_of_read? hts (Reference.read?_of_ofRun? h)).1
    obtain ⟨o, ho⟩ := @Reference.settled_value store r hslot
    refine ⟨o, fun near steps => ?_⟩
    change (referenceValue store near ts).result steps = _
    rw [referenceValue, h]
    exact ho near steps

theorem settled_arithmeticValue (hts : ∀ t ∈ ts, t.kind ≠ .opening .square) :
    Attempt.Settled fun far => arithmeticValue store far ts := by
  unfold arithmeticValue
  split
  · exact Attempt.settled_ofOption none
  · refine Attempt.Settled.bind (Attempt.settled_mapM fun operand hoperand => ?_) fun kinds => ?_
    · cases operand with
      | plain kind => exact Attempt.settled_ofOption (some kind)
      | broken => exact Attempt.settled_ofOption none
      | ref r =>
        refine (Reference.settled_value (ne_slot_of_mem_operands hts hoperand)).bind fun v => ?_
        exact (Attempt.settled_ofOption v.number?).bind fun x =>
          Attempt.settled_ofOption (some (Kind.number x))
    · exact (Attempt.settled_ofOption (Tree.ofKinds? kinds)).bind fun tree =>
        Attempt.settled_ofOption (some (Value.number tree.eval))

theorem settled_holeValue {inner : List Char} (h : '[' ∉ inner) :
    Attempt.Settled fun near => holeValue store near inner := by
  unfold holeValue
  split
  · next ts hlex =>
    refine settled_referenceValue (unindexed_of_lex hlex ?_).square
    rw [String.toList_ofList]
    exact fun hmem => h ((Text.trimChars_isInfix inner).subset hmem)
  · exact Attempt.settled_ofOption none

theorem Piece.settled_fill {piece : Piece} (h : '[' ∉ piece.source) :
    Attempt.Settled fun near => piece.fill store near := by
  cases piece with
  | char c => exact Attempt.settled_ofOption (some [c])
  | hole inner =>
    have hinner : '[' ∉ inner := fun hmem => h (by simp [Piece.source, hmem])
    have hvalue : Attempt.Settled fun near => (do
        return (← holeValue store near inner).shown.toList : Attempt (List Char)) :=
      (settled_holeValue hinner).bind fun v => Attempt.settled_ofOption (some v.shown.toList)
    exact hvalue.orElse (Attempt.settled_ofOption (some (Piece.hole inner).source))

theorem settled_interpolate {raw : String} (h : '[' ∉ raw.toList) :
    Attempt.Settled fun near => interpolate store near raw := by
  refine Attempt.Settled.bind (Attempt.settled_mapM fun piece hpiece => ?_) fun filled =>
    Attempt.settled_ofOption (some (String.ofList filled.flatten))
  exact Piece.settled_fill fun hmem => h ((Piece.source_isInfix hpiece).subset hmem)

theorem settled_interpolatedValue (hts : Unindexed ts) : Attempt.Settled fun level =>
    interpolatedValue (fillAt store (level + 1)) ts := by
  unfold interpolatedValue
  split
  · next raw span =>
    have hraw : '[' ∉ raw.toList := hts.raw _ List.mem_cons_self raw rfl
    exact ((settled_interpolate hraw).comp fun level => resolve store level (deepest - 1)).bind
      fun text => Attempt.settled_ofOption (some (Value.text text))
  · exact Attempt.settled_ofOption none

/-! ## Parts -/

/-- Wherever there is room and a step left, resolving the run takes that step and comes
to the outcome. Interpolated strings need a level. -/
def Settles (store : Store) (ts : List Token) (o : Option Value) : Prop :=
  ∀ level room steps, steps < stepBudget →
    (resolve store (level + 1) (room + 1) ts).result steps = (o, steps + 1)

theorem exists_settles (store : Store) (hts : Unindexed ts) (hsolid : Solid (.operator .add) 0 ts) :
    ∃ o, Settles store ts o := by
  by_cases hne : ts = []
  · refine ⟨none, fun level room steps hsteps => ?_⟩
    rw [resolve_succ, rules, Attempt.result_bind, Attempt.result_step,
      if_neg (Nat.not_lt.2 hsteps), hne]
    rfl
  · have hstring := (@settled_interpolatedValue store ts hts).comp fun i : Nat × Nat => i.1
    have hreference := (@settled_referenceValue store ts hts.square).comp fun i : Nat × Nat =>
      resolve store (i.1 + 1) i.2
    have harithmetic := (@settled_arithmeticValue store ts hts.square).comp fun i : Nat × Nat =>
      resolve store (i.1 + 1) (i.2 - 1)
    have hjoined : Attempt.Settled fun i : Nat × Nat =>
        joinedValue (resolve store (i.1 + 1) i.2) ts :=
      ⟨none, fun i => result_joinedValue_of_solid hsolid _⟩
    obtain ⟨o, ho⟩ := (Attempt.settled_ofOption (literalValue? ts)).orElse
      (hstring.orElse (hreference.orElse (harithmetic.orElse hjoined)))
    refine ⟨o, fun level room steps hsteps => ?_⟩
    rw [resolve_succ, result_rules_of_lt hsteps hne]
    exact ho (level, room) (steps + 1)

theorem settles_of_literal {v : Value} (h : literalValue? ts = some v) :
    Settles store ts (some v) := by
  intro level room steps hsteps
  rw [resolve_succ]
  exact result_rules_of_literal h hsteps store _ _ _

theorem settles_of_derives {P : List Token → Float → Prop} {depth : Nat} {tree : Tree}
    (h : Arith.Derives Token.kind (AtomNumber store P) .sum depth ts tree)
    (hdepth : depth ≤ deepest) (hts : ∀ t ∈ ts, t.kind ≠ .opening .square) :
    Settles store ts (some (.number tree.eval)) := by
  intro level room steps hsteps
  rw [resolve_succ]
  exact result_rules_of_direct _ ⟨hsteps, undivided_of_derives h hdepth hts (steps + 1)⟩

/-- A text that is read as the run's kinds is worth what the run comes to anywhere. -/
theorem Settles.evaluate? {o : Option Value} (h : Settles store ts o) {text : String}
    {us : List Token} (hlex : lex text = .ok us) (hkinds : us.map Token.kind = ts.map Token.kind) :
    evaluate? store text = o := by
  rw [evaluate?_eq_resolve hlex hkinds (Nat.le_succ text.length), h _ _ _ (by decide)]

end

/-- The source text of a run is read as the kinds of the run. -/
theorem exists_lex_sourceText {text : String} {ts run : List Token} (hlex : lex text = .ok ts)
    (hrun : run <:+: ts) :
    ∃ us, lex (sourceText text run) = .ok us ∧ us.map Token.kind = run.map Token.kind := by
  cases run with
  | nil =>
    have hempty : (Lexer.trivia (sourceText text []).toList).2 = [] := by
      rw [show sourceText text [] = "" from rfl, String.toList_empty]
      rfl
    exact ⟨[], Lexer.tokens_of_trivia hempty, rfl⟩
  | cons t run =>
    obtain ⟨htext, us, hus, hshift⟩ := readsAgain_of_infix hlex hrun
    rw [htext] at hus
    refine ⟨us, hus, ?_⟩
    rw [← hshift, List.map_map]
    rfl

/-- A part of a text without indices settles to the value of its own text. -/
theorem settles_of_evaluate? {store : Store} {text : String} {ts part : List Token} {v : Value}
    (hlex : lex text = .ok ts) (hts : Unindexed ts)
    (hpart : part ∈ splitAtTop (.operator .add) ts)
    (h : evaluate? store (sourceText text part) = some v) : Settles store part (some v) := by
  have hwithin := (splitAtTop_run (fun t => rfl) (.operator .add) ts).1 part hpart
  obtain ⟨o, ho⟩ := exists_settles store (hts.subset hwithin.subset) (solid_of_mem_splitAtTop hpart)
  obtain ⟨us, hus, hkinds⟩ := exists_lex_sourceText hlex hwithin
  rw [← h, ho.evaluate? hus hkinds]
  exact ho

end SnippetConsole
