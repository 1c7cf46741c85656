import SnippetConsole.Proofs.Expr.Budget
import SnippetConsole.Proofs.Expr.Stepless
import SnippetConsole.Proofs.Token.Written

/-!
# Steps beyond the budget

The counter may pass the budget, since every run that is tried counts as a step and
rules go on after a failure. But an index that ran out of steps fails the arithmetic
around it, a part that did fails the join around it, and what is tried then costs one
step and fails as well. So there is at most one such step for each level of nesting,
and one for each hole of an interpolated string.

* `Attempt.EndsBy` — how far beyond the budget an attempt may end.
* `endsBy_resolve` — a run ends a step for each level beyond the strings in it.
* `endsBy_fillAt` — a string ends a step for each hole beyond its first index.
* `stepsUsed_le` — the bound for a text.
-/

namespace SnippetConsole

/-! ## Ending beyond the budget -/

namespace Attempt

variable {α β : Type} {extra extra' : Nat}

/-- Started within the budget, the attempt ends at most so many steps beyond it,
whether it succeeds or fails. -/
def EndsBy (extra : Nat) (a : Attempt α) : Prop :=
  ∀ steps ≤ stepBudget, (a.result steps).2 ≤ stepBudget + extra

theorem EndsBy.mono {a : Attempt α} (h : a.EndsBy extra) (hle : extra ≤ extra') :
    a.EndsBy extra' :=
  fun steps hsteps => Nat.le_trans (h steps hsteps) (Nat.add_le_add_left hle _)

theorem endsBy_ofOption (extra : Nat) (o : Option α) : (ofOption o).EndsBy extra :=
  fun _ hsteps => Nat.le_add_right_of_le hsteps

/-- What comes second starts within the budget, too. -/
theorem EndsBy.bind {a : Attempt α} {f : α → Attempt β} (ha : a.EndsBy extra)
    (hwithin : a.StaysWithin) (hf : ∀ x, (f x).EndsBy extra) : (a >>= f).EndsBy extra := by
  intro steps hsteps
  have hend := ha steps hsteps
  rw [result_bind]
  rcases hresult : a.result steps with ⟨_ | x, between⟩
  · rwa [hresult] at hend
  · exact hf x between (hwithin steps x between hresult hsteps)

/-- What comes second takes no steps. -/
theorem EndsBy.bind_ofOption {a : Attempt α} {f : α → Option β} (ha : a.EndsBy extra) :
    (a >>= fun x => ofOption (f x)).EndsBy extra := by
  intro steps hsteps
  have hend := ha steps hsteps
  rw [result_bind]
  rcases hresult : a.result steps with ⟨_ | x, between⟩ <;> rwa [hresult] at hend

theorem endsBy_mapM {f : α → Attempt β} {xs : List α} (h : ∀ x ∈ xs, (f x).EndsBy extra)
    (hwithin : ∀ x, (f x).StaysWithin) : (xs.mapM f).EndsBy extra := by
  induction xs with
  | nil => exact endsBy_ofOption extra (some [])
  | cons x xs ih =>
    obtain ⟨hx, hxs⟩ := List.forall_mem_cons.1 h
    rw [List.mapM_cons]
    exact hx.bind (hwithin x) fun y =>
      (ih hxs).bind (staysWithin_mapM hwithin xs) fun ys => endsBy_ofOption extra (some (y :: ys))

end Attempt

/-! ## One rule after the other -/

section

variable {store : Store} {near far : Resolver} {ts : List Token} {extra level room : Nat}

theorem Reference.endsBy_value {r : Reference} (h : (near r.index).EndsBy extra) :
    (r.value store near).EndsBy extra := by
  cases r with
  | binding name => exact Attempt.endsBy_ofOption extra _
  | member object field => exact Attempt.endsBy_ofOption extra _
  | slot array index =>
    exact (Attempt.endsBy_ofOption extra (store.array? array)).bind
      (Attempt.staysWithin_ofOption _) fun slots => Attempt.EndsBy.bind_ofOption h

/-- Arithmetic stops at the first operand that runs out of steps. -/
theorem endsBy_arithmeticValue (hfar : Punctual far)
    (h : ∀ r, .ref r ∈ operands ts → (far r.index).EndsBy extra) :
    (arithmeticValue store far ts).EndsBy extra := by
  unfold arithmeticValue
  split
  · exact Attempt.endsBy_ofOption extra none
  · refine Attempt.EndsBy.bind (Attempt.endsBy_mapM ?_ (Operand.staysWithin_kindIn hfar))
      (Attempt.staysWithin_mapM (Operand.staysWithin_kindIn hfar) _) fun kinds =>
        Attempt.EndsBy.bind_ofOption (Attempt.endsBy_ofOption extra (Tree.ofKinds? kinds))
    intro operand hmem
    cases operand with
    | plain kind => exact Attempt.endsBy_ofOption extra (some kind)
    | broken => exact Attempt.endsBy_ofOption extra none
    | ref r =>
      refine (Reference.endsBy_value (h r hmem)).bind (r.staysWithin_value hfar) fun v => ?_
      exact Attempt.EndsBy.bind_ofOption (Attempt.endsBy_ofOption extra v.number?)

/-- The interpolated strings in a run end so far beyond the budget. -/
def StringsEndBy (store : Store) (level extra : Nat) (ts : List Token) : Prop :=
  ∀ t ∈ ts, ∀ raw, t.kind = .quoted .interpolated raw → (fillAt store level raw).EndsBy extra

theorem StringsEndBy.subset {us : List Token} (h : StringsEndBy store level extra ts)
    (hus : us ⊆ ts) : StringsEndBy store level extra us := fun t ht => h t (hus ht)

/-- A part with a value ends beyond the budget only as far as a string does. -/
theorem le_of_part (hsolid : Solid (.operator .add) 0 ts)
    (hstrings : StringsEndBy store level extra ts) {steps steps' : Nat} {v : Value}
    (h : (resolve store level room ts).result steps = (some v, steps')) :
    steps' ≤ stepBudget + extra := by
  rcases Nat.lt_or_ge stepBudget steps' with hexhausted | hwithin
  · obtain ⟨raw, span, rfl⟩ := string_of_part hsolid h hexhausted
    cases room with
    | zero => exact absurd h resolve_zero_ne
    | succ room =>
      rw [resolve_succ] at h
      obtain ⟨hsteps, happlies⟩ := result_rules_eq_some_iff.1 h
      obtain ⟨text, steps'', htext⟩ := total_fillAt store level raw (steps + 1)
      obtain ⟨-, rfl⟩ := Prod.mk.inj (h.symm.trans
        (result_rules_eq_some_iff.2 ⟨hsteps, .interpolated rfl htext⟩))
      have hend := hstrings _ List.mem_cons_self raw rfl (steps + 1) hsteps
      rwa [htext] at hend
  · exact Nat.le_add_right_of_le hwithin

/-- Joining stops at the first part that fails, at the latest at the one behind a string
that has run out of steps. -/
theorem endsBy_mapM_parts {parts : List (List Token)}
    (hsolid : ∀ part ∈ parts, Solid (.operator .add) 0 part)
    (hstrings : ∀ part ∈ parts, StringsEndBy store level extra part)
    (hends : ∀ part ∈ parts, (resolve store level room part).EndsBy (extra + 1 + room)) :
    (parts.mapM (resolve store level room)).EndsBy (extra + 1 + room) := by
  induction parts with
  | nil => exact Attempt.endsBy_ofOption _ (some [])
  | cons part parts ih =>
    obtain ⟨hpart, hparts⟩ := List.forall_mem_cons.1 hends
    have hrest := ih (List.forall_mem_cons.1 hsolid).2 (List.forall_mem_cons.1 hstrings).2 hparts
    intro steps hsteps
    have hend := hpart steps hsteps
    rw [List.mapM_cons, Attempt.result_bind]
    rcases hresult : (resolve store level room part).result steps with ⟨_ | v, between⟩
    · rwa [hresult] at hend
    · have hbetween := le_of_part (List.forall_mem_cons.1 hsolid).1
        (List.forall_mem_cons.1 hstrings).1 hresult
      simp only
      rcases Nat.lt_or_ge stepBudget between with hexhausted | hwithin
      · cases parts with
        | nil =>
          show between ≤ _
          omega
        | cons next parts =>
          rw [List.mapM_cons, Attempt.result_bind, Attempt.result_bind,
            result_resolve_of_exhausted (Nat.le_of_lt hexhausted)]
          show between + 1 ≤ _
          omega
      · refine Attempt.EndsBy.bind_ofOption (f := fun values => some (v :: values)) hrest between ?_
        exact hwithin

/-- Without a step left the first part costs one and fails. -/
theorem result_joinedValue_of_exhausted {steps : Nat} (h : stepBudget ≤ steps) :
    ((joinedValue (resolve store level room) ts).result steps).2 ≤ steps + 1 := by
  unfold joinedValue
  simp only
  split
  · exact Nat.le_succ steps
  · obtain ⟨part, parts, hparts⟩ :=
      List.exists_cons_of_ne_nil (splitAtTop_ne_nil (.operator .add) ts)
    rw [hparts, List.mapM_cons, Attempt.result_bind, Attempt.result_bind,
      result_resolve_of_exhausted h]

theorem endsBy_joinedValue (hstrings : StringsEndBy store level extra ts)
    (hends : ∀ part ∈ splitAtTop (.operator .add) ts,
      (resolve store level room part).EndsBy (extra + 1 + room)) :
    (joinedValue (resolve store level room) ts).EndsBy (extra + 1 + room) := by
  have hparts := endsBy_mapM_parts (fun part => solid_of_mem_splitAtTop)
    (fun part hpart => hstrings.subset
      ((splitAtTop_run (fun _ => rfl) (.operator .add) ts).1 part hpart).subset) hends
  unfold joinedValue
  simp only
  split
  · exact Attempt.endsBy_ofOption _ none
  · exact Attempt.EndsBy.bind_ofOption hparts

/-- If arithmetic has run out of steps, the first part adds one. -/
theorem endsBy_divided (harith : (arithmeticValue store far ts).EndsBy extra)
    (hjoined : (joinedValue (resolve store level room) ts).EndsBy (extra + 1)) :
    (arithmeticValue store far ts <|> joinedValue (resolve store level room) ts :
      Attempt Value).EndsBy (extra + 1) := by
  intro steps hsteps
  have hend := harith steps hsteps
  rw [Attempt.result_orElse]
  rcases hresult : (arithmeticValue store far ts).result steps with ⟨_ | v, between⟩
  · rw [hresult] at hend
    simp only at hend ⊢
    rcases Nat.lt_or_ge stepBudget between with hexhausted | hwithin
    · have := @result_joinedValue_of_exhausted store ts level room between (Nat.le_of_lt hexhausted)
      omega
    · exact hjoined between hwithin
  · rw [hresult] at hend
    simp only at hend ⊢
    omega

/-- A reference is left alone by the rules behind its own. -/
theorem endsBy_reference {r : Reference} (hr : Reference.ofRun? ts = some r)
    (h : (near r.index).EndsBy extra) :
    (referenceValue store near ts <|> arithmeticValue store far ts <|>
      joinedValue near ts : Attempt Value).EndsBy extra := by
  have harith (steps : Nat) : (arithmeticValue store far ts).result steps = (none, steps) := by
    unfold arithmeticValue
    rw [if_pos (by rw [hr]; rfl)]
    rfl
  have hvalue : (referenceValue store near ts).EndsBy extra := by
    unfold referenceValue
    rw [hr]
    exact Reference.endsBy_value h
  intro steps hsteps
  have hend := hvalue steps hsteps
  rw [Attempt.result_orElse]
  rcases hresult : (referenceValue store near ts).result steps with ⟨_ | v, between⟩
  · rw [hresult] at hend
    simp only
    rwa [Attempt.result_orElse_of_none (harith between),
      result_joinedValue_of_solid (solid_of_ofRun? hr)]
  · rwa [hresult] at hend

theorem endsBy_interpolatedValue (hstrings : StringsEndBy store level extra ts) :
    (interpolatedValue (fillAt store level) ts).EndsBy extra := by
  unfold interpolatedValue
  split
  · next raw span =>
    exact Attempt.EndsBy.bind_ofOption (hstrings _ List.mem_cons_self raw rfl)
  · exact Attempt.endsBy_ofOption extra none

/-- An interpolated string never fails, so nothing is tried behind it. -/
theorem result_interpolatedValue_of_none {steps failed : Nat}
    (h : (interpolatedValue (fillAt store level) ts).result steps = (none, failed)) :
    failed = steps := by
  unfold interpolatedValue at h
  split at h
  · next raw span =>
    obtain ⟨text, steps', htext⟩ := total_fillAt store level raw steps
    rw [Attempt.result_bind, htext] at h
    cases h
  · obtain ⟨-, rfl⟩ := Prod.mk.inj h
    rfl

/-- The rules behind those for a single literal. -/
theorem endsBy_divided_or_reference (hstrings : StringsEndBy store level extra ts)
    (hnear : ∀ us ⊆ ts, (resolve store level room us).EndsBy (extra + 1 + room))
    (hfar : ∀ us ⊆ ts, (resolve store level (room - 1) us).EndsBy (extra + 1 + room)) :
    (referenceValue store (resolve store level room) ts <|>
      arithmeticValue store (resolve store level (room - 1)) ts <|>
        joinedValue (resolve store level room) ts : Attempt Value).EndsBy
          (extra + 1 + room + 1) := by
  cases hr : Reference.ofRun? ts with
  | some r =>
    have hindex := (Reference.isInfix_of_read? (Reference.read?_of_ofRun? hr)).1.subset
    exact endsBy_reference hr ((hnear _ hindex).mono (Nat.le_succ _))
  | none =>
    have harithmetic : (arithmeticValue store (resolve store level (room - 1)) ts).EndsBy
        (extra + 1 + room) := endsBy_arithmeticValue (punctual_resolve store level (room - 1))
      fun r hmem => hfar _ (index_isInfix_of_mem_operands hmem).subset
    have hparts : ∀ part ∈ splitAtTop (.operator .add) ts, part ⊆ ts :=
      fun part hpart => ((splitAtTop_run (fun _ => rfl) (.operator .add) ts).1 part hpart).subset
    have hjoined := endsBy_joinedValue hstrings fun part hpart => hnear _ (hparts part hpart)
    intro steps hsteps
    rw [Attempt.result_orElse_of_none (referenceValue_of_none hr)]
    exact endsBy_divided harithmetic (hjoined.mono (Nat.le_succ _)) steps hsteps

/-- The step for the run itself is the only one that may be the first beyond the budget. -/
theorem endsBy_rules {more : Nat} (hstrings : StringsEndBy store level extra ts)
    (hlater : (referenceValue store near ts <|> arithmeticValue store far ts <|>
      joinedValue near ts : Attempt Value).EndsBy more) (hle : extra + 1 ≤ more) :
    (rules store (fillAt store level) near far ts).EndsBy more := by
  intro steps hsteps
  rcases Nat.eq_or_lt_of_le hsteps with rfl | hlt
  · rw [result_rules_of_exhausted (Nat.le_refl _)]
    exact Nat.add_le_add_left (Nat.le_of_add_left_le hle) _
  by_cases hne : ts = []
  · subst hne
    rw [rules, Attempt.result_bind, Attempt.result_step, if_neg (Nat.not_lt.2 hlt)]
    exact Nat.le_add_right_of_le hlt
  rw [result_rules_of_lt hlt hne, Attempt.result_orElse, Attempt.result_ofOption]
  cases literalValue? ts with
  | some v => exact Nat.le_add_right_of_le hlt
  | none =>
    have hend := endsBy_interpolatedValue hstrings (steps + 1) hlt
    simp only
    rw [Attempt.result_orElse]
    rcases hresult : (interpolatedValue (fillAt store level) ts).result (steps + 1) with
      ⟨_ | v, failed⟩
    · obtain rfl := result_interpolatedValue_of_none hresult
      exact hlater _ hlt
    · rw [hresult] at hend
      exact Nat.le_trans hend (Nat.add_le_add_left (Nat.le_of_succ_le hle) _)

end

/-! ## Runs -/

section

variable {store : Store} {ts : List Token} {extra level : Nat}

/-- A run ends beyond the budget at most as far as a string in it, and one step more for
each level there is room for. -/
theorem endsBy_resolve (room : Nat) (hstrings : StringsEndBy store level extra ts) :
    (resolve store level room ts).EndsBy (extra + 1 + room) := by
  induction room using Nat.strong_induction_on generalizing ts with
  | h room ih =>
    cases room with
    | zero =>
      intro steps hsteps
      rw [resolve_eq, resolveIn, Attempt.result_bind, Attempt.result_step]
      have hstep : steps + 1 ≤ stepBudget + (extra + 1 + 0) := by omega
      by_cases hlast : stepBudget < steps + 1
      · rw [if_pos hlast]
        exact hstep
      · rw [if_neg hlast]
        exact hstep
    | succ room =>
      rw [resolve_succ]
      -- the two resolvers that the rules call have less room
      have hnear : ∀ us ⊆ ts, (resolve store level room us).EndsBy (extra + 1 + room) :=
        fun us hus => ih room (Nat.lt_succ_self _) (hstrings.subset hus)
      have hfar : ∀ us ⊆ ts, (resolve store level (room - 1) us).EndsBy (extra + 1 + room) :=
        fun us hus => (ih (room - 1) (by omega) (hstrings.subset hus)).mono (by omega)
      exact endsBy_rules hstrings (endsBy_divided_or_reference hstrings hnear hfar) (by omega)

end

/-! ## Strings -/

section

variable {store : Store} {level room extra steps : Nat}

/-- Without a step left a reference costs at most the one of its index. -/
theorem result_reference_of_exhausted (h : stepBudget ≤ steps) (r : Reference) :
    ((r.value store (resolve store level room)).result steps).2 ≤ steps + 1 := by
  cases r with
  | binding name => exact Nat.le_succ steps
  | member object field => exact Nat.le_succ steps
  | slot array index =>
    rw [Reference.value, Attempt.result_bind, Attempt.result_ofOption]
    cases store.array? array with
    | none => exact Nat.le_succ steps
    | some slots =>
      simp only
      rw [Attempt.result_bind, result_resolve_of_exhausted h]

theorem result_holeValue_of_exhausted (h : stepBudget ≤ steps) (inner : List Char) :
    ((holeValue store (resolve store level room) inner).result steps).2 ≤ steps + 1 := by
  unfold holeValue
  split
  · next us _ =>
    unfold referenceValue
    cases Reference.ofRun? us with
    | none => exact Nat.le_succ steps
    | some r => exact result_reference_of_exhausted h r
  · exact Nat.le_succ steps

/-- No interpolated string stands in a hole of the raw text. -/
def Unnested (raw : String) : Prop :=
  ∀ inner us, .hole inner ∈ pieces raw.toList →
    lex (String.ofList (Text.trimChars inner)) = .ok us →
      ∀ t ∈ us, ∀ raw', t.kind ≠ .quoted .interpolated raw'

theorem endsBy_holeValue {inner : List Char}
    (h : ∀ us, lex (String.ofList (Text.trimChars inner)) = .ok us →
      StringsEndBy store level extra us) :
    (holeValue store (resolve store level room) inner).EndsBy (extra + 1 + room) := by
  unfold holeValue
  split
  · next us hlex =>
    unfold referenceValue
    cases hr : Reference.ofRun? us with
    | none => exact Attempt.endsBy_ofOption _ none
    | some r =>
      have hindex := (Reference.isInfix_of_read? (Reference.read?_of_ofRun? hr)).1.subset
      exact Reference.endsBy_value (endsBy_resolve room ((h us hlex).subset hindex))
  · exact Attempt.endsBy_ofOption _ none

/-- Only its value costs a hole steps. -/
theorem result_fill_hole (near : Resolver) (inner : List Char) (steps : Nat) :
    (((Piece.hole inner).fill store near).result steps).2 =
      ((holeValue store near inner).result steps).2 := by
  rw [Piece.fill, Attempt.result_orElse, Attempt.result_bind]
  rcases (holeValue store near inner).result steps with ⟨_ | v, between⟩ <;> rfl

/-- Beyond the steps of the first hole that runs out of them, each hole adds at most one.
Each of them starts with a brace. -/
theorem result_mapM_fill_le {ps : List Piece}
    (h : ∀ inner, .hole inner ∈ ps →
      (holeValue store (resolve store level room) inner).EndsBy extra) :
    ((ps.mapM (Piece.fill store (resolve store level room))).result steps).2 ≤
      max steps (stepBudget + extra) + (ps.flatMap Piece.source).count '\x7b' := by
  induction ps generalizing steps with
  | nil => exact Nat.le_max_left _ _
  | cons p ps ih =>
    have hrest (steps : Nat) := @ih steps fun inner hmem => h inner (List.mem_cons_of_mem _ hmem)
    obtain ⟨text, between, htext⟩ := p.total_fill store (resolve store level room) steps
    have hsteps : between ≤ max steps (stepBudget + extra) + p.source.count '\x7b' := by
      cases p with
      | char c =>
        obtain ⟨-, rfl⟩ := Attempt.result_pure_iff.1 htext
        exact Nat.le_add_right_of_le (Nat.le_max_left _ _)
      | hole inner =>
        have hopener : 0 < (Piece.hole inner).source.count '\x7b' :=
          List.count_pos_iff.2 List.mem_cons_self
        have hend := @result_fill_hole store (resolve store level room) inner steps
        rw [htext] at hend
        simp only at hend
        rcases Nat.le_total steps stepBudget with hwithin | hexhausted
        · have := h inner List.mem_cons_self steps hwithin
          omega
        · have := @result_holeValue_of_exhausted store level room steps hexhausted inner
          omega
    have hlater := hrest between
    rw [List.mapM_cons, Attempt.result_bind, htext, List.flatMap_cons, List.count_append]
    simp only
    rw [Attempt.result_bind]
    rcases hresult : (ps.mapM (Piece.fill store (resolve store level room))).result between with
      ⟨_ | later, final⟩
    all_goals
      rw [hresult] at hlater
      show final ≤ _
      simp only at hlater
      omega

/-- A string without others in its holes ends beyond the budget at most as far as one
index does, and one step for each brace. -/
theorem endsBy_fillAt {raw : String} (hraw : Unnested raw) (level : Nat) :
    (fillAt store level raw).EndsBy (deepest + raw.toList.count '\x7b') := by
  cases level with
  | zero => exact Attempt.endsBy_ofOption _ (some raw)
  | succ level =>
    have hholes : ∀ inner, .hole inner ∈ pieces raw.toList →
        (holeValue store (resolve store level (deepest - 1)) inner).EndsBy deepest := by
      intro inner hinner
      have hstrings : ∀ us, lex (String.ofList (Text.trimChars inner)) = .ok us →
          StringsEndBy store level 0 us :=
        fun us hlex t ht raw' hkind => absurd hkind (hraw inner us hinner hlex t ht raw')
      exact endsBy_holeValue hstrings
    rw [fillAt, interpolate]
    refine Attempt.EndsBy.bind_ofOption
      (f := fun filled : List (List Char) => some (String.ofList filled.flatten)) ?_
    intro steps hsteps
    have hend := @result_mapM_fill_le store level (deepest - 1) deepest steps _ hholes
    rw [source_pieces] at hend
    omega

end

/-! ## Texts -/

/-- The quote that opens an interpolated string stands behind a dollar sign, and each quote
in a raw text behind a backslash. So no part of a raw text is read as such a string. -/
theorem ne_interpolated_of_lex_part {text : String} {ts : List Token} (h : lex text = .ok ts)
    {t : Token} {raw : String} (ht : t ∈ ts) (hkind : t.kind = .quoted .interpolated raw)
    {part : List Char} (hpart : part <:+: raw.toList) {us : List Token}
    (hlex : lex (String.ofList (Text.trimChars part)) = .ok us) :
    ∀ u ∈ us, ∀ raw', u.kind ≠ .quoted .interpolated raw' := by
  obtain ⟨used, rest, -, hreads, -⟩ := Lexer.reads_of_tokens h
  intro u hu raw' hu'
  have hshown := shown_isInfix_of_lex hlex hu (by simp [hu'])
  rw [String.toList_ofList, hu'] at hshown
  have hopener : ['$', '"'] <:+: (Kind.quoted .interpolated raw').shown.toList :=
    ⟨[], raw'.toList ++ ['"'], by simp [Kind.shown, Quote.opener, Quote.mark]⟩
  refine (hreads.escaped ht hkind).not_isInfix (by decide : '$' ≠ '\\') ?_
  exact ((hopener.trans hshown).trans (Text.trimChars_isInfix part)).trans hpart

theorem unnested_of_lex {text : String} {ts : List Token} (h : lex text = .ok ts) {t : Token}
    {raw : String} (ht : t ∈ ts) (hkind : t.kind = .quoted .interpolated raw) : Unnested raw :=
  fun _ _ hinner => ne_interpolated_of_lex_part h ht hkind (Piece.isInfix_of_hole hinner)

/-- The work on a text is bounded: beyond the budget it takes at most two steps for each
level and one for each opening brace. -/
theorem stepsUsed_le (store : Store) (text : String) :
    stepsUsed store text ≤
      stepBudget + 2 * (deepest + 1) + text.toList.count '\x7b' := by
  unfold stepsUsed attempt
  split
  · next ts hlex =>
    have hstrings : StringsEndBy store text.length
        (deepest + text.toList.count '\x7b') ts := by
      intro t ht raw hkind
      have hcount : raw.toList.count '\x7b' ≤ text.toList.count '\x7b' :=
        (within_of_lex hlex t ht raw (by simp [hkind, Kind.payload?])).sublist.count_le _
      exact (endsBy_fillAt (unnested_of_lex hlex ht hkind) _).mono (Nat.add_le_add_left hcount _)
    have hend := endsBy_resolve (deepest + 1) hstrings 0 (Nat.zero_le _)
    omega
  · exact Nat.zero_le _

end SnippetConsole
