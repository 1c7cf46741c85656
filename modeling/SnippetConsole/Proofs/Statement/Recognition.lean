import SnippetConsole.Proofs.Statement.Similar

/-!
# Recognition by kinds

What is recognized in a run is recognized in every run that agrees with it, and
the two statements are similar. Agreement is symmetric, so a recognizer that
fails on the one run fails on the other.

* `Shape.Uniform` — a reader that follows agreement.
* `classify_similar` — runs that agree make similar statements.
-/

namespace SnippetConsole

namespace Shape

/-- What is read off a run is read off every run that agrees with it, and `S`
relates the two when the expressions in them are related. -/
def Uniform {β : Type} (S : (Expr → Expr → Prop) → β → β → Prop)
    (read : String → List Token → Option β) : Prop :=
  ∀ ⦃α : Type⦄ ⦃f g : α → Token⦄ ⦃xs : List α⦄ ⦃line line' : String⦄ ⦃R : Expr → Expr → Prop⦄,
    Agree line line' R f g xs → ∀ ⦃b : β⦄, read line (xs.map f) = some b →
      ∃ b', read line' (xs.map g) = some b' ∧ S R b b'

namespace Uniform

variable {β γ : Type} {S : (Expr → Expr → Prop) → β → β → Prop}
  {T : (Expr → Expr → Prop) → γ → γ → Prop} {read read' : String → List Token → Option β}

theorem none {α : Type} {f g : α → Token} {xs : List α} {line line' : String}
    {R : Expr → Expr → Prop} (h : Uniform S read) (ha : Agree line line' R f g xs)
    (hn : read line (xs.map f) = .none) : read line' (xs.map g) = .none := by
  cases hr : read line' (xs.map g) with
  | none => rfl
  | some b =>
    obtain ⟨b', hb', -⟩ := h ha.symm hr
    rw [hn] at hb'
    cases hb'

theorem map {k : β → γ} (h : Uniform S read) (hk : ∀ R b b', S R b b' → T R (k b) (k b')) :
    Uniform T fun line ts => (read line ts).map k := by
  intro α f g xs line line' R ha c hc
  obtain ⟨b, hb, rfl⟩ := Option.map_eq_some_iff.1 hc
  obtain ⟨b', hb', hs⟩ := h ha hb
  exact ⟨k b', by simp only [hb', Option.map_some], hk R b b' hs⟩

theorem orElse (h : Uniform S read) (h' : Uniform S read') :
    Uniform S fun line ts => read line ts <|> read' line ts := by
  intro α f g xs line line' R ha b hb
  cases hr : read line (xs.map f) with
  | some c =>
    obtain ⟨c', hc', hs⟩ := h ha hr
    simp only [hr, Option.orElse_eq_orElse, Option.orElse_some, Option.some.injEq] at hb
    exact ⟨c', by simp [hc'], hb ▸ hs⟩
  | none =>
    simp only [hr, Option.orElse_eq_orElse, Option.orElse_none] at hb
    obtain ⟨b', hb', hs⟩ := h' ha hb
    exact ⟨b', by simp [h.none ha hr, hb'], hs⟩

theorem findSome? {reads : List (String → List Token → Option β)}
    (h : ∀ read ∈ reads, Uniform S read) :
    Uniform S fun line ts => reads.findSome? fun read => read line ts := by
  induction reads with
  | nil =>
    intro α f g xs line line' R ha b hb
    cases hb
  | cons read reads ih =>
    have hread := h read List.mem_cons_self
    have hreads := ih fun r hr => h r (List.mem_cons_of_mem read hr)
    intro α f g xs line line' R ha b hb
    simp only [List.findSome?_cons] at hb ⊢
    cases hr : read line (xs.map f) with
    | some c =>
      obtain ⟨c', hc', hs⟩ := hread ha hr
      rw [hr] at hb
      exact ⟨c', by rw [hc'], Option.some.inj hb ▸ hs⟩
    | none =>
      rw [hr] at hb
      rw [hread.none ha hr]
      exact hreads ha hb

end Uniform

/-! ## Expressions -/

theorem uniform_expr? : Uniform (fun R => R) expr? := by
  intro α f g xs line line' R h e he
  unfold expr? at he ⊢
  split at he
  · next hc =>
    obtain rfl := Option.some.inj he
    simp only [Bool.and_eq_true, Bool.not_eq_true', List.isEmpty_eq_false_iff, ne_eq,
      List.map_eq_nil_iff] at hc
    refine ⟨.of (sourceText line' (xs.map g)), ?_, h.exprs xs (List.infix_refl xs) hc.1 hc.2⟩
    rw [if_pos]
    simp [balanced_map h.kinds, hc]
  · cases he

theorem mapM_expr?_agree {α : Type} {f g : α → Token} {parts : List (List α)}
    {line line' : String} {R : Expr → Expr → Prop}
    (h : ∀ p ∈ parts, Agree line line' R f g p) {es : List Expr}
    (he : (parts.map (List.map f)).mapM (expr? line) = some es) :
    ∃ es', (parts.map (List.map g)).mapM (expr? line') = some es' ∧ List.Forall₂ R es es' := by
  induction parts generalizing es with
  | nil =>
    obtain rfl := Option.some.inj he
    exact ⟨[], rfl, .nil⟩
  | cons p parts ih =>
    simp only [List.map_cons, List.mapM_cons, Option.bind_eq_bind, Option.bind_eq_some_iff,
      Option.pure_def, Option.some.injEq] at he
    obtain ⟨e, hp, rest, hrest, rfl⟩ := he
    obtain ⟨e', hp', hr⟩ := uniform_expr? (h p List.mem_cons_self) hp
    obtain ⟨rest', hrest', hrs⟩ := ih (fun q hq => h q (List.mem_cons_of_mem p hq)) hrest
    exact ⟨e' :: rest', by simp [hp', hrest'], .cons hr hrs⟩

theorem uniform_items? : Uniform List.Forall₂ items? := by
  intro α f g xs line line' R h es he
  unfold items? at he ⊢
  split at he
  · next hnil =>
    obtain rfl := Option.some.inj he
    rw [if_pos (by simpa using hnil)]
    exact ⟨[], rfl, .nil⟩
  · next hnil =>
    rw [if_neg (by simpa using hnil)]
    obtain ⟨parts, hparts, hf, hg⟩ := splitAtTop_map h.kinds .comma
    rw [hf] at he
    rw [hg]
    -- the last part is empty in both runs or in neither
    have hlast : ((parts.map (List.map f)).getLast? = some [] ↔
        (parts.map (List.map g)).getLast? = some []) := by
      simp [List.getLast?_map]
    simp only [List.length_map, ← hlast] at he ⊢
    split at he
    · next hc =>
      rw [if_pos hc]
      rw [← List.map_dropLast] at he ⊢
      exact mapM_expr?_agree (fun p hp => h.isInfix (hparts p (List.mem_of_mem_dropLast hp))) he
    · next hc =>
      rw [if_neg hc]
      exact mapM_expr?_agree (fun p hp => h.isInfix (hparts p hp)) he

/-! ## Recognizers -/

/-- Reading the inside of a bracket that closes at the end of the run. -/
theorem Uniform.enclosed {β : Type} {S : (Expr → Expr → Prop) → β → β → Prop}
    {read : String → List Token → Option β} (h : Uniform S read) :
    Uniform S fun line ts => (enclosed? ts).bind (read line) := by
  intro α f g xs line line' R ha b hb
  obtain ⟨inside, hi, hb⟩ := Option.bind_eq_some_iff.1 hb
  obtain ⟨is, his, rfl, hg⟩ := enclosed?_map ha.kinds hi
  obtain ⟨b', hb', hs⟩ := h (ha.isInfix his) hb
  exact ⟨b', by simp only [hg, Option.bind_some, hb'], hs⟩

theorem uniform_slot? : Uniform Statement.Similar fun _ => slot? := by
  intro α f g xs line line' R h s hs
  change slot? (xs.map f) = some s at hs
  unfold slot? at hs
  split at hs
  · next heq =>
    obtain ⟨_, ys, h₁, hg₁, ha⟩ := h.cons heq
    obtain ⟨_, ys, h₂, hg₂, ha⟩ := ha.cons h₁
    obtain ⟨_, ys, h₃, hg₃, ha⟩ := ha.cons h₂
    obtain ⟨_, ys, h₄, hg₄, ha⟩ := ha.cons h₃
    obtain ⟨i, hi, rfl⟩ := Option.map_eq_some_iff.1 hs
    rw [hg₁, hg₂, hg₃, hg₄, Agree.nil h₄]
    exact ⟨_, by simp [slot?, hi], .printSlot⟩
  · cases hs

theorem uniform_argument? : Uniform Statement.Similar argument? := by
  intro α f g xs line line' R h s hs
  unfold argument? at hs ⊢
  split at hs
  · next hnil =>
    obtain rfl := Option.some.inj hs
    rw [if_pos (by simpa using hnil)]
    exact ⟨_, rfl, .print .none⟩
  · next hnil =>
    rw [if_neg (by simpa using hnil)]
    exact (uniform_slot?.orElse (uniform_expr?.map fun _ _ _ hr => .print (.some hr))) h hs

theorem uniform_print? : Uniform Statement.Similar print? := by
  intro α f g xs line line' R h s hs
  unfold print? at hs
  split at hs
  · next heq =>
    obtain ⟨_, ys, h₁, hg₁, ha⟩ := h.cons heq
    obtain ⟨_, ys, h₂, hg₂, ha⟩ := ha.cons h₁
    obtain ⟨_, ys, h₃, hg₃, ha⟩ := ha.cons h₂
    obtain ⟨_, ys, rfl, hg₄, ha⟩ := ha.cons h₃
    split at hs
    · next hc =>
      rw [hg₁, hg₂, hg₃, hg₄]
      simp only [print?, if_pos hc]
      exact uniform_argument?.enclosed ha hs
    · cases hs
  · cases hs

theorem uniform_newList? : Uniform ArrayInit.Similar newList? := by
  intro α f g xs line line' R h i hi
  unfold newList? at hi
  split at hi
  · next heq =>
    obtain ⟨_, ys, h₁, hg₁, ha⟩ := h.cons heq
    obtain ⟨_, ys, h₂, hg₂, ha⟩ := ha.cons h₁
    obtain ⟨_, ys, h₃, hg₃, ha⟩ := ha.cons h₂
    obtain ⟨_, ys, h₄, hg₄, ha⟩ := ha.cons h₃
    obtain ⟨_, ys, rfl, hg₅, ha⟩ := ha.cons h₄
    rw [hg₁, hg₂, hg₃, hg₄, hg₅]
    exact (uniform_items?.map fun _ _ _ hr => .items hr).enclosed ha hi
  · cases hi

theorem uniform_newSized? : Uniform ArrayInit.Similar newSized? := by
  intro α f g xs line line' R h i hi
  unfold newSized? at hi
  split at hi
  · next heq =>
    obtain ⟨_, ys, h₁, hg₁, ha⟩ := h.cons heq
    obtain ⟨_, ys, h₂, hg₂, ha⟩ := ha.cons h₁
    obtain ⟨_, ys, rfl, hg₃, ha⟩ := ha.cons h₂
    rw [hg₁, hg₂, hg₃]
    exact (uniform_expr?.map fun _ _ _ hr => .sized hr).enclosed ha hi
  · cases hi

theorem uniform_bareList? : Uniform ArrayInit.Similar bareList? := by
  intro α f g xs line line' R h i hi
  unfold bareList? at hi
  split at hi
  · next heq =>
    obtain ⟨_, ys, rfl, hg, ha⟩ := h.cons heq
    rw [hg]
    exact (uniform_items?.map fun _ _ _ hr => .items hr).enclosed ha hi
  · cases hi

theorem uniform_makeArray? : Uniform Statement.Similar makeArray? := by
  intro α f g xs line line' R h s hs
  unfold makeArray? at hs
  split at hs
  · next heq =>
    obtain ⟨_, ys, h₁, hg₁, ha⟩ := h.cons heq
    obtain ⟨_, ys, h₂, hg₂, ha⟩ := ha.cons h₁
    obtain ⟨_, ys, h₃, hg₃, ha⟩ := ha.cons h₂
    obtain ⟨_, ys, h₄, hg₄, ha⟩ := ha.cons h₃
    obtain ⟨_, ys, rfl, hg₅, ha⟩ := ha.cons h₄
    rw [hg₁, hg₂, hg₃, hg₄, hg₅]
    have hread := uniform_newList?.orElse (uniform_newSized?.orElse uniform_bareList?)
    exact hread.map (fun _ _ _ hr => Statement.Similar.makeArray hr) ha hs
  · next heq =>
    obtain ⟨_, ys, h₁, hg₁, ha⟩ := h.cons heq
    obtain ⟨_, ys, h₂, hg₂, ha⟩ := ha.cons h₁
    obtain ⟨_, ys, rfl, hg₃, ha⟩ := ha.cons h₂
    split at hs
    · next hvar =>
      rw [hg₁, hg₂, hg₃]
      simp only [makeArray?, if_pos hvar]
      have hread := uniform_newList?.orElse uniform_newSized?
      exact hread.map (fun _ _ _ hr => Statement.Similar.makeArray hr) ha hs
    · cases hs
  · cases hs

theorem uniform_construct? : Uniform Statement.Similar fun _ => construct? := by
  intro α f g xs line line' R h s hs
  change construct? (xs.map f) = some s at hs
  unfold construct? at hs
  split at hs
  · next heq =>
    obtain ⟨_, ys, h₁, hg₁, ha⟩ := h.cons heq
    obtain ⟨_, ys, h₂, hg₂, ha⟩ := ha.cons h₁
    obtain ⟨_, ys, h₃, hg₃, ha⟩ := ha.cons h₂
    obtain ⟨_, ys, h₄, hg₄, ha⟩ := ha.cons h₃
    obtain ⟨_, ys, h₅, hg₅, ha⟩ := ha.cons h₄
    obtain ⟨_, ys, rfl, hg₆, ha⟩ := ha.cons h₅
    obtain ⟨inside, hi, rfl⟩ := Option.map_eq_some_iff.1 hs
    obtain ⟨is, -, -, hg⟩ := enclosed?_map ha.kinds hi
    rw [hg₁, hg₂, hg₃, hg₄, hg₅, hg₆]
    exact ⟨_, by simp [construct?, hg], .construct⟩
  · cases hs

theorem startsList_cons (t : Token) (ts : List Token) :
    startsList (t :: ts) = decide (t.kind = .opening .curly) := by
  obtain ⟨kind, span⟩ := t
  cases kind with
  | opening bracket => cases bracket <;> rfl
  | _ => rfl

theorem startsList_map {α : Type} {f g : α → Token} {xs : List α} (h : SameKinds f g xs) :
    startsList (xs.map g) = startsList (xs.map f) := by
  cases xs with
  | nil => rfl
  | cons x xs => simp only [List.map_cons, startsList_cons, h.head]

theorem uniform_declare? : Uniform Statement.Similar declare? := by
  intro α f g xs line line' R h s hs
  unfold declare? at hs
  split at hs
  · next heq =>
    obtain ⟨_, ys, h₁, hg₁, ha⟩ := h.cons heq
    obtain ⟨_, ys, h₂, hg₂, ha⟩ := ha.cons h₁
    obtain ⟨_, ys, rfl, hg₃, ha⟩ := ha.cons h₂
    obtain ⟨parts, -, hf, hg⟩ := splitAtTop_map ha.kinds .comma
    split at hs
    · next hc =>
      rw [hg₁, hg₂, hg₃]
      rw [hf, List.length_map, ← startsList_map ha.kinds] at hc
      simp only [declare?, hg, List.length_map, if_pos hc]
      exact uniform_expr?.map (fun _ _ _ hr => Statement.Similar.declare hr) ha hs
    · cases hs
  · cases hs

theorem uniform_setField? : Uniform Statement.Similar setField? := by
  intro α f g xs line line' R h s hs
  unfold setField? at hs
  split at hs
  · next heq =>
    obtain ⟨_, ys, h₁, hg₁, ha⟩ := h.cons heq
    obtain ⟨_, ys, h₂, hg₂, ha⟩ := ha.cons h₁
    obtain ⟨_, ys, h₃, hg₃, ha⟩ := ha.cons h₂
    obtain ⟨_, ys, rfl, hg₄, ha⟩ := ha.cons h₃
    rw [hg₁, hg₂, hg₃, hg₄]
    exact uniform_expr?.map (fun _ _ _ hr => Statement.Similar.setField hr) ha hs
  · cases hs

theorem uniform_setSlot? : Uniform Statement.Similar setSlot? := by
  intro α f g xs line line' R h s hs
  unfold setSlot? at hs
  split at hs
  · next heq =>
    obtain ⟨_, ys, h₁, hg₁, ha⟩ := h.cons heq
    obtain ⟨_, ys, rfl, hg₂, ha⟩ := ha.cons h₁
    split at hs
    · next hb =>
      obtain ⟨is, as, his, has, rfl, heq', hg⟩ := bracketed?_map ha.kinds hb
      obtain ⟨_, vs, rfl, hg₃, hv⟩ := (ha.isInfix has.isInfix).cons heq'
      simp only [Option.bind_eq_bind, Option.bind_eq_some_iff, Option.pure_def,
        Option.some.injEq] at hs
      obtain ⟨i, hi, e, he, rfl⟩ := hs
      obtain ⟨i', hi', hri⟩ := uniform_expr? (ha.isInfix his) hi
      obtain ⟨e', he', hre⟩ := uniform_expr? hv he
      rw [hg₁, hg₂]
      refine ⟨.setSlot _ i' e', ?_, .setSlot hri hre⟩
      simp [setSlot?, hg, hg₃, hi', he']
    · cases hs
  · cases hs

theorem any_new_map {α : Type} {f g : α → Token} {xs : List α} (h : SameKinds f g xs) :
    (xs.map g).any (·.kind = .new) = (xs.map f).any (·.kind = .new) := by
  induction xs with
  | nil => rfl
  | cons x xs ih => simp only [List.map_cons, List.any_cons, h.head, ih h.tail]

theorem uniform_assign? : Uniform Statement.Similar assign? := by
  intro α f g xs line line' R h s hs
  unfold assign? at hs
  split at hs
  · next heq =>
    obtain ⟨_, ys, h₁, hg₁, ha⟩ := h.cons heq
    obtain ⟨_, ys, rfl, hg₂, ha⟩ := ha.cons h₁
    split at hs
    · cases hs
    · next hc =>
      rw [hg₁, hg₂]
      rw [← any_new_map ha.kinds] at hc
      simp only [assign?, if_neg hc]
      exact uniform_expr?.map (fun _ _ _ hr => Statement.Similar.assign hr) ha hs
  · cases hs

theorem uniform_update? : Uniform Statement.Similar update? := by
  intro α f g xs line line' R h s hs
  unfold update? at hs
  split at hs
  · next heq =>
    obtain ⟨_, ys, h₁, hg₁, ha⟩ := h.cons heq
    obtain ⟨_, ys, rfl, hg₂, ha⟩ := ha.cons h₁
    rw [hg₁, hg₂]
    exact uniform_expr?.map (fun _ _ _ hr => Statement.Similar.update hr) ha hs
  · cases hs

theorem uniform_step? : Uniform Statement.Similar fun _ => step? := by
  intro α f g xs line line' R h s hs
  change step? (xs.map f) = some s at hs
  unfold step? at hs
  split at hs
  · next heq =>
    obtain ⟨_, ys, h₁, hg₁, ha⟩ := h.cons heq
    obtain ⟨_, ys, h₂, hg₂, ha⟩ := ha.cons h₁
    rw [hg₁, hg₂, Agree.nil h₂]
    exact ⟨_, rfl, Option.some.inj hs ▸ .step⟩
  · next heq =>
    obtain ⟨_, ys, h₁, hg₁, ha⟩ := h.cons heq
    obtain ⟨_, ys, h₂, hg₂, ha⟩ := ha.cons h₁
    rw [hg₁, hg₂, Agree.nil h₂]
    exact ⟨_, rfl, Option.some.inj hs ▸ .step⟩
  · cases hs

theorem uniform_call? : Uniform Statement.Similar fun _ => call? := by
  intro α f g xs line line' R h s hs
  change call? (xs.map f) = some s at hs
  unfold call? at hs
  split at hs
  · next heq =>
    obtain ⟨_, ys, h₁, hg₁, ha⟩ := h.cons heq
    obtain ⟨_, ys, h₂, hg₂, ha⟩ := ha.cons h₁
    obtain ⟨_, ys, h₃, hg₃, ha⟩ := ha.cons h₂
    obtain ⟨_, ys, rfl, hg₄, ha⟩ := ha.cons h₃
    split at hs
    · cases hs
    · next hc =>
      obtain ⟨inside, hi, rfl⟩ := Option.map_eq_some_iff.1 hs
      obtain ⟨is, -, -, hg⟩ := enclosed?_map ha.kinds hi
      rw [hg₁, hg₂, hg₃, hg₄]
      exact ⟨_, by simp [call?, hc, hg], .call⟩
  · cases hs

theorem uniform_recognizers :
    Uniform Statement.Similar fun line ts => (recognizers line).findSome? (· ts) := by
  have h : Uniform Statement.Similar fun line ts =>
      [print?, makeArray?, fun _ => construct?, declare?, setField?, setSlot?, assign?, update?,
        fun _ => step?, fun _ => call?].findSome? fun read => read line ts := by
    refine Uniform.findSome? ?_
    simp only [List.mem_cons, List.not_mem_nil, or_false, forall_eq_or_imp, forall_eq]
    exact ⟨uniform_print?, uniform_makeArray?, uniform_construct?, uniform_declare?,
      uniform_setField?, uniform_setSlot?, uniform_assign?, uniform_update?, uniform_step?,
      uniform_call?⟩
  exact h

end Shape

theorem classify_similar {α : Type} {f g : α → Token} {xs : List α} {line line' : String}
    {R : Expr → Expr → Prop} (h : Agree line line' R f g xs) :
    (classify line (xs.map f)).Similar R (classify line' (xs.map g)) := by
  obtain ⟨ys, hys, hf, hg⟩ := dropEndWhile_map h.kinds (· = .semicolon)
  have ha := h.isInfix hys.isInfix
  unfold classify dropSemicolons
  rw [hf, hg]
  cases hr : (Shape.recognizers line).findSome? (· (ys.map f)) with
  | none =>
    rw [Shape.uniform_recognizers.none ha hr]
    exact .unrecognized
  | some s =>
    obtain ⟨s', hs', hsim⟩ := Shape.uniform_recognizers ha hr
    change (Shape.recognizers line').findSome? (· (ys.map g)) = some s' at hs'
    rw [hs']
    exact hsim

end SnippetConsole
