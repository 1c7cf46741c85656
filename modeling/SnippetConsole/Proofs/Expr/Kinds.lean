import SnippetConsole.Proofs.Expr.Mentions

/-!
# Evaluation looks at kinds

The rules look at the kinds of tokens only, never at their places, and a level that
is as high as a text is long is never used up. So two texts that are read as the same
kinds are worth the same, whatever else stands between their tokens.

* `resolve_bare` — resolving a run does not look at the places of its tokens.
* `fillAlike_fillAt` — from the length of a text on, the level does not matter.
* `attempt_eq_of_kinds` — texts of the same kinds are resolved alike.
-/

namespace SnippetConsole

/-! ## Runs without places -/

/-- The token at no place in particular. -/
def Token.bare (t : Token) : Token := ⟨t.kind, ⟨0, 0⟩⟩

@[simp] theorem Token.kind_bare (t : Token) : t.bare.kind = t.kind := rfl

theorem map_bare_eq {ts us : List Token} (h : ts.map Token.kind = us.map Token.kind) :
    ts.map Token.bare = us.map Token.bare := by
  have hbare : Token.bare = (fun kind => (⟨kind, ⟨0, 0⟩⟩ : Token)) ∘ Token.kind := rfl
  rw [hbare, ← List.map_map, h, List.map_map]

/-- The reference, with its index at no place in particular. -/
def Reference.bare : Reference → Reference
  | .slot array index => .slot array (index.map Token.bare)
  | r => r

/-- The operand, with the index in it at no place in particular. -/
def Operand.bare : Operand → Operand
  | .ref r => .ref r.bare
  | operand => operand

/-! ## Reading a run without places -/

theorem untilClosed_bare (depth : Int) (ts : List Token) :
    untilClosed depth (ts.map Token.bare) = (untilClosed depth ts).map
      fun (inside, closer, after) =>
        (inside.map Token.bare, closer.bare, after.map Token.bare) := by
  induction ts generalizing depth with
  | nil => rfl
  | cons t ts ih =>
    have hslope : t.bare.kind.slope = t.kind.slope := rfl
    simp only [List.map_cons, untilClosed, hslope]
    split
    · rfl
    · split
      · rfl
      · rw [ih, Option.map_map, Option.map_map]
        rfl

theorem bracketed?_bare (ts : List Token) :
    bracketed? (ts.map Token.bare) = (bracketed? ts).map
      fun (inside, after) => (inside.map Token.bare, after.map Token.bare) := by
  rw [bracketed?, untilClosed_bare, bracketed?, Option.map_map, Option.map_map]
  rfl

theorem Reference.read?_bare (ts : List Token) :
    read? (ts.map Token.bare) = (read? ts).map fun (r, rest) => (r.bare, rest.map Token.bare) := by
  rcases ts with _ | ⟨⟨k, span⟩, ts⟩
  · rfl
  cases k with
  | word name =>
    rcases ts with _ | ⟨⟨k, span⟩, ts⟩
    · rfl
    cases k with
    | dot =>
      rcases ts with _ | ⟨⟨k, span⟩, ts⟩
      · rfl
      · cases k <;> rfl
    | opening b =>
      cases b with
      | square =>
        change (bracketed? (ts.map Token.bare)).map _ = ((bracketed? ts).map _).map _
        rw [bracketed?_bare, Option.map_map, Option.map_map]
        rfl
      | _ => rfl
    | _ => rfl
  | _ => rfl

theorem Reference.ofRun?_bare (ts : List Token) :
    ofRun? (ts.map Token.bare) = (ofRun? ts).map bare := by
  unfold ofRun?
  rw [read?_bare]
  rcases read? ts with _ | ⟨r, _ | ⟨t, rest⟩⟩ <;> rfl

theorem operands_bare (ts : List Token) :
    operands (ts.map Token.bare) = (operands ts).map Operand.bare := by
  fun_induction operands ts with
  | case1 => rw [List.map_nil, operands, List.map_nil]
  | case2 t ts hname ih =>
    rw [List.map_cons, operands]
    simp only [Token.kind_bare, hname, ih]
    rfl
  | case3 t ts name hname r rest hread ih =>
    have hread' : Reference.read? (t.bare :: ts.map Token.bare) =
        some (r.bare, rest.map Token.bare) := by
      rw [← List.map_cons, Reference.read?_bare, hread, Option.map_some]
    rw [List.map_cons, operands]
    simp only [Token.kind_bare, hname]
    split
    · next r' rest' h =>
      rw [hread'] at h
      obtain ⟨rfl, rfl⟩ := Prod.mk.inj (Option.some.inj h)
      rw [ih]
      rfl
    · next h =>
      rw [hread'] at h
      cases h
  | case4 t ts name hname hread =>
    have hread' : Reference.read? (t.bare :: ts.map Token.bare) = none := by
      rw [← List.map_cons, Reference.read?_bare, hread, Option.map_none]
    rw [List.map_cons, operands]
    simp only [Token.kind_bare, hname]
    split
    · next h =>
      rw [hread'] at h
      cases h
    · rfl

/-! ## Rules that look at kinds only -/

/-- The resolver does not look at the places of tokens. -/
def Blind (near : Resolver) : Prop := ∀ ts, near (ts.map Token.bare) = near ts

theorem Blind.eq {near : Resolver} (h : Blind near) {ts us : List Token}
    (hkinds : ts.map Token.kind = us.map Token.kind) : near ts = near us := by
  rw [← h ts, map_bare_eq hkinds, h]

section

variable {store : Store} {near far : Resolver}

theorem Reference.value_bare (hnear : Blind near) (r : Reference) :
    r.bare.value store near = r.value store near := by
  cases r with
  | binding | member => rfl
  | slot array index =>
    rw [bare, value, value]
    simp only [hnear index]

theorem referenceValue_bare (hnear : Blind near) : Blind (referenceValue store near) := by
  intro ts
  unfold referenceValue
  rw [Reference.ofRun?_bare]
  cases Reference.ofRun? ts with
  | none => rfl
  | some r => exact Reference.value_bare hnear r

theorem Operand.kindIn_bare (hfar : Blind far) (operand : Operand) :
    operand.bare.kindIn store far = operand.kindIn store far := by
  cases operand with
  | plain | broken => rfl
  | ref r => rw [bare, kindIn, kindIn, Reference.value_bare hfar]

theorem arithmeticValue_bare (hfar : Blind far) : Blind (arithmeticValue store far) := by
  intro ts
  unfold arithmeticValue
  have hoperands : (operands (ts.map Token.bare)).mapM (Operand.kindIn store far) =
      (operands ts).mapM (Operand.kindIn store far) := by
    rw [operands_bare, List.mapM_map]
    exact Attempt.mapM_congr fun operand _ => Operand.kindIn_bare hfar operand
  rw [Reference.ofRun?_bare, Option.isSome_map, hoperands]

theorem joinedValue_bare (hnear : Blind near) : Blind (joinedValue near) := by
  intro ts
  have hparts := (splitAtTop_run Token.kind_bare (.operator .add) ts).2
  have hvalues : (splitAtTop (.operator .add) (ts.map Token.bare)).mapM near =
      (splitAtTop (.operator .add) ts).mapM near := by
    rw [hparts, List.mapM_map]
    exact Attempt.mapM_congr fun part _ => hnear part
  unfold joinedValue
  simp only [hparts, List.length_map] at hvalues ⊢
  rw [hvalues]

theorem literalValue?_bare (ts : List Token) :
    literalValue? (ts.map Token.bare) = literalValue? ts := by
  rcases ts with _ | ⟨⟨kind, span⟩, us⟩
  · rfl
  · cases kind with
    | quoted quote raw => cases quote <;> cases us <;> rfl
    | _ => cases us <;> rfl

theorem interpolatedValue_bare (fill : String → Attempt String) :
    Blind (interpolatedValue fill) := by
  intro ts
  rcases ts with _ | ⟨⟨kind, span⟩, us⟩
  · rfl
  · cases kind with
    | quoted quote raw => cases quote <;> cases us <;> rfl
    | _ => cases us <;> rfl

theorem rules_bare (fill : String → Attempt String) (hnear : Blind near) (hfar : Blind far) :
    Blind (rules store fill near far) := by
  intro ts
  rw [rules, List.isEmpty_map, literalValue?_bare, interpolatedValue_bare,
    referenceValue_bare hnear, arithmeticValue_bare hfar, joinedValue_bare hnear, rules]

end

theorem resolve_bare (store : Store) (level room : Nat) : Blind (resolve store level room) :=
  @resolve_induction store (fun _ => True) Blind (fun _ _ => rfl)
    (fun fill _ _ _ => rules_bare fill) trivial (fun _ _ => trivial) level room

/-! ## Levels that are never used up -/

/-- How interpolated strings are filled at a level. -/
def fillAt (store : Store) : (level : Nat) → String → Attempt String
  | 0 => pure
  | level + 1 => interpolate store (resolve store level (deepest - 1))

theorem resolve_eq (store : Store) (level room : Nat) :
    resolve store level room = resolveIn store (fillAt store level) room := by
  cases level <;> rfl

/-- Text without holes needs no level. -/
theorem fillAt_empty (store : Store) (level : Nat) : fillAt store level "" = pure "" := by
  cases level with
  | zero => rfl
  | succ level =>
    rw [fillAt, interpolate, show pieces "".toList = [] by rw [String.toList_empty, pieces]]
    rfl

theorem length_lt_of_hole {cs inner : List Char} (h : Piece.hole inner ∈ pieces cs) :
    inner.length < cs.length := by
  have hlength := (Piece.source_isInfix h).length_le
  simp only [Piece.source, List.cons_append, List.length_cons, List.length_append] at hlength
  omega

theorem Store.agreeOn_self (store : Store) (name : String) : store.AgreeOn store name :=
  ⟨rfl, rfl, rfl⟩

section

variable {store : Store} {cs : List Char} {level level' n : Nat}

theorem resolve_of_fillAlike (h : FillAlike cs (fillAt store level) (fillAt store level'))
    (room : Nat) : AlikeWithin cs (resolve store level room) (resolve store level' room) := by
  rw [resolve_eq, resolve_eq]
  exact resolveIn_related (fun _ _ => rfl)
    (fun _ _ _ _ => rules_congr (fun name _ => store.agreeOn_self name) h) room

theorem fillAlike_fillAt (hcs : cs.length ≤ n) (hlevel : n ≤ level) (hlevel' : n ≤ level') :
    FillAlike cs (fillAt store level) (fillAt store level') := by
  -- a hole is shorter than the text it stands in, so the text in it is a level further down
  induction n generalizing cs level level' with
  | zero =>
    intro raw hraw
    obtain rfl : raw = "" := by
      rw [List.length_eq_zero_iff.1 (Nat.le_zero.1 hcs), List.infix_nil] at hraw
      exact String.toList_eq_nil_iff.1 hraw
    rw [fillAt_empty, fillAt_empty]
  | succ n ih =>
    intro raw hraw
    obtain ⟨level, rfl⟩ : ∃ k, level = k + 1 := Nat.exists_eq_add_one.2 (by omega)
    obtain ⟨level', rfl⟩ : ∃ k, level' = k + 1 := Nat.exists_eq_add_one.2 (by omega)
    refine interpolate_eq_of_holes fun inner hinner => ?_
    have hlength : inner.length ≤ n := by
      have := length_lt_of_hole hinner
      have := hraw.length_le
      omega
    exact holeValue_congr (fun name _ => store.agreeOn_self name)
      (resolve_of_fillAlike (ih hlength (by omega) (by omega)) (deepest - 1))
      (List.infix_refl inner)

/-- The length of a text is as good as any higher level. -/
theorem attempt_eq_resolve {text : String} {ts : List Token} (h : lex text = .ok ts)
    (hlevel : text.length ≤ level) :
    attempt store text = resolve store level (deepest + 1) ts := by
  have hlength : text.toList.length ≤ text.length := Nat.le_of_eq String.length_toList
  rw [attempt, h]
  exact resolve_of_fillAlike (fillAlike_fillAt hlength (Nat.le_refl _) hlevel) _ ts (within_of_lex h)

/-- And any run of the same kinds is as good as that of the text. -/
theorem evaluate?_eq_resolve {text : String} {ts us : List Token} (h : lex text = .ok ts)
    (hkinds : ts.map Token.kind = us.map Token.kind) (hlevel : text.length ≤ level) :
    evaluate? store text = ((resolve store level (deepest + 1) us).result 0).1 := by
  rw [evaluate?, attempt_eq_resolve h hlevel, (resolve_bare store level (deepest + 1)).eq hkinds]

end

/-- Texts that are read as the same kinds are resolved alike. -/
theorem attempt_eq_of_kinds {text text' : String} {ts us : List Token} (h : lex text = .ok ts)
    (h' : lex text' = .ok us) (hkinds : ts.map Token.kind = us.map Token.kind) (store : Store) :
    attempt store text = attempt store text' := by
  rw [attempt_eq_resolve h (Nat.le_max_left _ text'.length),
    attempt_eq_resolve h' (Nat.le_max_right text.length _), (resolve_bare store _ _).eq hkinds]

end SnippetConsole
