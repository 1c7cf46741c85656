import SnippetConsole.Expr.Reference
import SnippetConsole.Proofs.Token.Nested

/-!
# Operands of runs put together

Where one run is read to its end, a run behind it is read as if it stood alone, unless
it starts in a dot or a square bracket, which would go on with a name.

* `operands_plain`, `operands_ref`, `operands_broken` — one step of reading.
* `operands_append` — the operands of two runs, one behind the other.
* `operands_of_ofRun?` — a run that is one reference.
* `index_isInfix_of_mem_operands` — indices are runs within the run.
* `broken_mem_operands_append` — a bracket behind a run mends no reference in it.
-/

namespace SnippetConsole

variable {ts us : List Token}

/-! ## One step -/

theorem operands_nil : operands [] = [] := by rw [operands]

theorem operands_plain {t : Token} (ht : t.kind.name? = none) (ts : List Token) :
    operands (t :: ts) = .plain t.kind :: operands ts := by
  rw [operands]
  simp only [ht]

theorem operands_ref {t : Token} {rest : List Token} {name : String} {r : Reference}
    (ht : t.kind.name? = some name) (hread : Reference.read? (t :: ts) = some (r, rest)) :
    operands (t :: ts) = .ref r :: operands rest := by
  rw [operands]
  simp only [ht]
  split
  · next h =>
    obtain ⟨rfl, rfl⟩ := Prod.mk.inj (Option.some.inj (hread.symm.trans h))
    rfl
  · next h =>
    rw [hread] at h
    cases h

theorem operands_broken {t : Token} {name : String} (ht : t.kind.name? = some name)
    (hread : Reference.read? (t :: ts) = none) : operands (t :: ts) = [.broken] := by
  rw [operands]
  simp only [ht]
  split
  · next h =>
    rw [hread] at h
    cases h
  · rfl

/-! ## One run behind the other -/

/-- The run does not go on with a name in front of it. -/
def Quiet (ts : List Token) : Prop :=
  ∀ t ∈ ts.head?, t.kind ≠ .dot ∧ t.kind ≠ .opening .square

theorem quiet_nil : Quiet [] := nofun

theorem quiet_cons {t : Token} (hdot : t.kind ≠ .dot) (hsquare : t.kind ≠ .opening .square)
    (ts : List Token) : Quiet (t :: ts) := by
  intro u hu
  obtain rfl := Option.some.inj hu
  exact ⟨hdot, hsquare⟩

theorem bracketed?_append {inside rest : List Token} (h : bracketed? ts = some (inside, rest))
    (us : List Token) : bracketed? (ts ++ us) = some (inside, rest ++ us) := by
  obtain ⟨⟨i, closer, after⟩, h', he⟩ := Option.map_eq_some_iff.1 h
  obtain ⟨rfl, rfl⟩ := Prod.mk.inj he
  rw [bracketed?, untilClosed_append_right h' us]
  rfl

namespace Reference

theorem read?_binding {name : String} {span : Text.Span} (h : Quiet ts) :
    read? (⟨.word name, span⟩ :: ts) = some (.binding name, ts) := by
  cases ts with
  | nil => rfl
  | cons t ts =>
    obtain ⟨hdot, hsquare⟩ := h t rfl
    obtain ⟨kind, s⟩ := t
    cases kind with
    | dot => exact absurd rfl hdot
    | opening shape =>
      cases shape with
      | square => exact absurd rfl hsquare
      | _ => rfl
    | _ => rfl

/-- What is read stays when a run is put behind it that does not go on with a name. -/
theorem read?_append {r : Reference} {rest : List Token} (h : read? ts = some (r, rest))
    (hus : rest = [] → Quiet us) : read? (ts ++ us) = some (r, rest ++ us) := by
  fun_cases read? ts with
  | case1 object s₁ s₂ field s₃ rest' =>
    obtain ⟨rfl, rfl⟩ := Prod.mk.inj (Option.some.inj h)
    rfl
  | case2 => simp_all [read?]
  | case3 array s₁ s₂ ts =>
    simp only [read?, Option.map_eq_some_iff] at h
    obtain ⟨⟨index, after⟩, hclosed, he⟩ := h
    obtain ⟨rfl, rfl⟩ := Prod.mk.inj he
    simp only [List.cons_append, read?, bracketed?_append hclosed us, Option.map_some]
  | case4 name span rest' hdot hsquare =>
    simp only [read?, Option.some.injEq, Prod.mk.injEq] at h
    obtain ⟨rfl, rfl⟩ := h
    refine read?_binding ?_
    cases rest' with
    | nil => exact hus rfl
    | cons t rest' =>
      obtain ⟨kind, s⟩ := t
      refine quiet_cons ?_ ?_ _
      · rintro rfl
        exact hdot s rest' rfl
      · rintro rfl
        exact hsquare s rest' rfl
  | case5 => simp_all [read?]

end Reference

theorem operands_append (hts : .broken ∉ operands ts) (hus : Quiet us) :
    operands (ts ++ us) = operands ts ++ operands us := by
  fun_induction operands ts with
  | case1 => rfl
  | case2 t ts hname ih =>
    rw [List.cons_append, operands_plain hname,
      ih fun h => hts (List.mem_cons_of_mem _ h)]
    rfl
  | case3 t ts name hname r rest hread ih =>
    have hread' := Reference.read?_append hread fun _ => hus
    rw [List.cons_append] at hread' ⊢
    rw [operands_ref hname hread', ih fun h => hts (List.mem_cons_of_mem _ h)]
    rfl
  | case4 t ts name hname hread => exact absurd List.mem_cons_self hts

theorem Reference.exists_name_of_read? {t : Token} {r : Reference} {rest : List Token}
    (h : read? (t :: ts) = some (r, rest)) : ∃ name, t.kind.name? = some name := by
  obtain ⟨kind, span⟩ := t
  cases kind with
  | word name => exact ⟨name, rfl⟩
  | _ => cases h

theorem Reference.read?_of_ofRun? {r : Reference} (h : ofRun? ts = some r) :
    read? ts = some (r, []) := by
  unfold ofRun? at h
  split at h
  · next reference hread =>
    obtain rfl := Option.some.inj h
    exact hread
  · cases h

theorem operands_of_ofRun? {r : Reference} (h : Reference.ofRun? ts = some r) :
    operands ts = [.ref r] := by
  have hread := Reference.read?_of_ofRun? h
  cases ts with
  | nil => cases hread
  | cons t ts =>
    obtain ⟨name, hname⟩ := Reference.exists_name_of_read? hread
    rw [operands_ref hname hread, operands_nil]

/-! ## Runs within the run -/

/-- The run between the brackets of a reference, if it has any. -/
def Reference.index : Reference → List Token
  | .slot _ index => index
  | .binding _ => []
  | .member _ _ => []

theorem Reference.isInfix_of_read? {r : Reference} {rest : List Token}
    (h : read? ts = some (r, rest)) : r.index <:+: ts ∧ rest <:+ ts := by
  fun_cases read? ts with
  | case1 object s₁ s₂ field s₃ rest' =>
    obtain ⟨rfl, rfl⟩ := Prod.mk.inj (Option.some.inj h)
    exact ⟨List.nil_infix, ⟨[⟨.word object, s₁⟩, ⟨.dot, s₂⟩, ⟨.word field, s₃⟩], rfl⟩⟩
  | case2 => simp_all [read?]
  | case3 array s₁ s₂ ts =>
    simp only [read?, Option.map_eq_some_iff] at h
    obtain ⟨⟨index, after⟩, hclosed, he⟩ := h
    obtain ⟨rfl, rfl⟩ := Prod.mk.inj he
    obtain ⟨⟨i, closer, a⟩, hu, he⟩ := Option.map_eq_some_iff.1 hclosed
    obtain ⟨rfl, rfl⟩ := Prod.mk.inj he
    rw [← untilClosed_append hu]
    exact ⟨⟨[⟨.word array, s₁⟩, ⟨.opening .square, s₂⟩], closer :: a, by simp [index]⟩,
      ⟨⟨.word array, s₁⟩ :: ⟨.opening .square, s₂⟩ :: i ++ [closer], by simp⟩⟩
  | case4 name span rest' hdot hsquare =>
    simp only [read?, Option.some.injEq, Prod.mk.injEq] at h
    obtain ⟨rfl, rfl⟩ := h
    exact ⟨List.nil_infix, List.suffix_cons _ _⟩
  | case5 => simp_all [read?]

theorem index_isInfix_of_mem_operands {r : Reference} (h : .ref r ∈ operands ts) :
    r.index <:+: ts := by
  fun_induction operands ts with
  | case1 => cases h
  | case2 t ts hname ih =>
    rcases List.mem_cons.1 h with h | h
    · cases h
    · exact (ih h).trans (List.suffix_cons t ts).isInfix
  | case3 t ts name hname reference rest hread ih =>
    obtain ⟨hreference, hrest⟩ := Reference.isInfix_of_read? hread
    rcases List.mem_cons.1 h with h | h
    · obtain rfl := Operand.ref.inj h
      exact hreference
    · exact (ih h).trans hrest.isInfix
  | case4 t ts name hname hread =>
    rw [List.mem_singleton] at h
    cases h

/-! ## Runs that close their brackets -/

/-- A reference that is cut short stays so, as its brackets are closed before. -/
theorem Reference.read?_append_of_none {t closer : Token} {name : String} {shape : Bracket}
    (ht : t.kind.name? = some name) (h : read? (t :: ts) = none)
    (hclosed : ∀ s, s <:+ ts → height s ≤ 0) (hcloser : closer.kind = .closing shape) :
    read? (t :: (ts ++ closer :: us)) = none := by
  obtain ⟨kind, span⟩ := t
  obtain ⟨kind', span'⟩ := closer
  obtain rfl : kind' = .closing shape := hcloser
  cases kind with
  | word name =>
    rcases ts with _ | ⟨⟨k, s⟩, ts⟩
    · cases h
    cases k with
    | dot =>
      rcases ts with _ | ⟨⟨k, s'⟩, ts⟩
      · rfl
      · cases k with
        | word field => cases h
        | _ => rfl
    | opening b =>
      cases b with
      | square =>
        have hheight := hclosed _ (List.suffix_refl _)
        obtain ⟨found, hfound⟩ := exists_untilClosed Int.one_pos
          (show 1 + height ts ≤ 0 from hheight)
        simp only [read?, bracketed?, hfound] at h
        cases h
      | _ => cases h
    | _ => cases h
  | _ => cases ht

/-- In a run that closes all its brackets, a reference that is cut short stays so. -/
theorem broken_mem_operands_append {closer : Token} {shape : Bracket}
    (h : .broken ∈ operands ts) (hclosed : ∀ s, s <:+ ts → height s ≤ 0)
    (hcloser : closer.kind = .closing shape) (us : List Token) :
    .broken ∈ operands (ts ++ closer :: us) := by
  have hquiet : Quiet (closer :: us) := quiet_cons (by simp [hcloser]) (by simp [hcloser]) us
  fun_induction operands ts with
  | case1 => cases h
  | case2 t ts hname ih =>
    rw [List.cons_append, operands_plain hname]
    rcases List.mem_cons.1 h with h | h
    · cases h
    · exact List.mem_cons_of_mem _ (ih h fun s hs => hclosed s (hs.trans (List.suffix_cons t ts)))
  | case3 t ts name hname r rest hread ih =>
    have hread' := Reference.read?_append hread fun _ => hquiet
    rw [List.cons_append] at hread' ⊢
    rw [operands_ref hname hread']
    rcases List.mem_cons.1 h with h | h
    · cases h
    · have hrest := (Reference.isInfix_of_read? hread).2
      exact List.mem_cons_of_mem _ (ih h fun s hs => hclosed s (hs.trans hrest))
  | case4 t ts name hname hread =>
    rw [List.cons_append, operands_broken hname (Reference.read?_append_of_none hname hread
      (fun s hs => hclosed s (hs.trans (List.suffix_cons t ts))) hcloser)]
    exact List.mem_singleton_self _

end SnippetConsole
