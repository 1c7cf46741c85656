import SnippetConsole.Proofs.Expr.Stepless

/-!
# Joining parts

A text whose parts have values of their own is joined from these values, unless all of
them are numbers: the operand of a part that is no number makes arithmetic on the whole
run fail. Joining adds up the numbers in front, and from the first other value on it
writes one value behind the other.

* `Applies.cases`, `Settles.cases` — how a part comes to its value.
* `arithmetic_ne_of_mixed` — a part that is no number makes arithmetic fail.
* `evaluate?_eq_some_iff_of_settles` — the values of the parts, joined.
* `joinValues_eq` — what is joined, written out.
* `evaluate?_of_parts` — the same for the values of the parts as texts.
-/

namespace SnippetConsole

open Arith

theorem exists_mem_of_forall₂ {α β : Type} {R : α → β → Prop} {xs : List α} {ys : List β} {y : β}
    (h : List.Forall₂ R xs ys) (hy : y ∈ ys) : ∃ x ∈ xs, R x y := by
  induction h with
  | nil => cases hy
  | cons hxy _ ih =>
    rcases List.mem_cons.1 hy with rfl | hy
    · exact ⟨_, List.mem_cons_self, hxy⟩
    · obtain ⟨x, hx, hxy⟩ := ih hy
      exact ⟨x, List.mem_cons_of_mem _ hx, hxy⟩

theorem Attempt.exists_result_of_mem {α β : Type} {f : α → Attempt β} {xs : List α} {ys : List β}
    {steps steps' : Nat} (h : (xs.mapM f).result steps = (some ys, steps')) {x : α} (hx : x ∈ xs) :
    ∃ y ∈ ys, ∃ before after, (f x).result before = (some y, after) := by
  induction xs generalizing steps ys with
  | nil => cases hx
  | cons x' xs ih =>
    obtain ⟨y, between, later, hy, hlater, rfl⟩ := result_mapM_cons_iff.1 h
    rcases List.mem_cons.1 hx with rfl | hx
    · exact ⟨y, List.mem_cons_self, steps, between, hy⟩
    · obtain ⟨z, hz, hresult⟩ := ih hlater hx
      exact ⟨z, List.mem_cons_of_mem _ hz, hresult⟩

/-! ## Literals in arithmetic -/

/-- The kind is a literal in quotes or a truth value. -/
def Kind.IsLiteral : Kind → Prop
  | .quoted _ _ => True
  | .truth _ => True
  | _ => False

theorem Kind.IsLiteral.slope {kind : Kind} (h : kind.IsLiteral) : kind.slope = 0 := by
  cases kind with
  | quoted | truth => rfl
  | _ => exact h.elim

theorem Kind.IsLiteral.not_isArithmetic {kind : Kind} (h : kind.IsLiteral) :
    ¬kind.IsArithmetic := by
  cases kind with
  | quoted | truth => exact id
  | _ => exact h.elim

section

variable {store : Store} {ts part : List Token} {v : Value}

/-! ## How a part comes to its value -/

/-- A part with a value is one literal token, or one reference with that value, or it is
arithmetic. -/
theorem Applies.cases {fill : String → Attempt String} {near far : Resolver} {steps steps' : Nat}
    (hsolid : Solid (.operator .add) 0 part) (h : Applies store fill near far part steps v steps') :
    (∃ t, part = [t] ∧ t.kind.IsLiteral) ∨
      (∃ r, Reference.ofRun? part = some r ∧
        (r.value store near).result steps = (some v, steps')) ∨
      (arithmeticValue store far part).result steps = (some v, steps') := by
  cases h with
  | literal hv =>
    unfold literalValue? at hv
    split at hv
    · exact .inl ⟨_, rfl, trivial⟩
    · exact .inl ⟨_, rfl, trivial⟩
    · exact .inl ⟨_, rfl, trivial⟩
    · cases hv
  | interpolated hts => exact .inl ⟨_, hts, trivial⟩
  | reference hr hv => exact .inr (.inl ⟨_, hr, hv⟩)
  | arithmetic hv => exact .inr (.inr hv)
  | joined _ hv =>
    rw [result_joinedValue_of_solid hsolid] at hv
    cases hv

theorem Settles.cases (hsolid : Solid (.operator .add) 0 part) (h : Settles store part (some v)) :
    (∃ t, part = [t] ∧ t.kind.IsLiteral) ∨
      (∃ r near before after, Reference.ofRun? part = some r ∧
        (r.value store near).result before = (some v, after)) ∨
      (.broken ∉ operands part ∧ v.IsNumber) := by
  rcases (applies_of_resolve (h 0 0 0 (by decide))).cases hsolid with ht | ⟨r, hr, hv⟩ | hv
  · exact .inl ht
  · exact .inr (.inl ⟨r, _, _, _, hr, hv⟩)
  · obtain ⟨-, kinds, tree, hkinds, -, rfl⟩ := arithmeticValue_eq_some_iff.1 hv
    exact .inr (.inr ⟨broken_not_mem_of_mapM hkinds, _, rfl⟩)

theorem operands_of_isLiteral {t : Token} (h : t.kind.IsLiteral) :
    operands [t] = [.plain t.kind] := by
  have hname : t.kind.name? = none := by
    cases hkind : t.kind with
    | quoted quote raw => rfl
    | truth b => rfl
    | _ => simp [hkind, Kind.IsLiteral] at h
  rw [operands_plain hname, operands_nil]

theorem Settles.broken_not_mem (hsolid : Solid (.operator .add) 0 part)
    (h : Settles store part (some v)) : .broken ∉ operands part := by
  rcases h.cases hsolid with ⟨t, rfl, ht⟩ | ⟨r, _, _, _, hr, -⟩ | ⟨hbroken, -⟩
  · simp [operands_of_isLiteral ht]
  · simp [operands_of_ofRun? hr]
  · exact hbroken

/-- Arithmetic on a run that holds the operands of the part makes the part a number. -/
theorem Settles.isNumber {far : Resolver} {steps steps' : Nat} {w : Value}
    (hsolid : Solid (.operator .add) 0 part) (hsquare : ∀ t ∈ part, t.kind ≠ .opening .square)
    (h : Settles store part (some v)) (hoperands : operands part ⊆ operands ts)
    (hw : (arithmeticValue store far ts).result steps = (some w, steps')) : v.IsNumber := by
  obtain ⟨-, kinds, tree, hkinds, htree, -⟩ := arithmeticValue_eq_some_iff.1 hw
  rcases h.cases hsolid with ⟨t, rfl, ht⟩ | ⟨r, near, before, after, hr, hv⟩ | ⟨-, hnumber⟩
  · -- the literal would be a kind of the arithmetic
    have hmem : Operand.plain t.kind ∈ operands ts :=
      hoperands (by rw [operands_of_isLiteral ht]; exact List.mem_cons_self)
    obtain ⟨kind, hkind, _, _, hresult⟩ := Attempt.exists_result_of_mem hkinds hmem
    obtain ⟨rfl, -⟩ := Attempt.result_pure_iff.1 hresult
    exact absurd (isArithmetic_of_ofKinds? htree _ hkind) ht.not_isArithmetic
  · -- the reference is a number to arithmetic, and it has one value
    have hmem : Operand.ref r ∈ operands ts :=
      hoperands (by rw [operands_of_ofRun? hr]; exact List.mem_cons_self)
    obtain ⟨kind, -, before', after', hresult⟩ := Attempt.exists_result_of_mem hkinds hmem
    obtain ⟨x, -, hx⟩ := Operand.kindIn_ref_eq_some_iff.1 hresult
    obtain ⟨o, ho⟩ := @Reference.settled_value store r
      (Reference.ne_slot_of_read? hsquare (Reference.read?_of_ofRun? hr)).1
    rw [ho] at hv hx
    obtain ⟨rfl, -⟩ := Prod.mk.inj hv
    obtain ⟨hv, -⟩ := Prod.mk.inj hx
    exact ⟨x, Option.some.inj hv⟩
  · exact hnumber

/-! ## The whole run -/

/-- Where no part breaks off, the whole run has the operands of all its parts. -/
theorem operands_subset_of_mem_splitAtTop
    (h : ∀ part ∈ splitAtTop (.operator .add) ts, .broken ∉ operands part)
    (hpart : part ∈ splitAtTop (.operator .add) ts) : operands part ⊆ operands ts := by
  -- what follows the first plus sign is shorter
  induction hlength : ts.length using Nat.strong_induction_on generalizing ts with
  | _ n ih =>
  rcases Grammar.solid_or_first_separator (.operator .add) 0 ts with
    hts | ⟨first, t, rest, rfl, ht, hzero, hfirst⟩
  · rw [Grammar.splitAtTop_of_solid hts, List.mem_singleton] at hpart
    rw [hpart]
    exact List.Subset.refl _
  · rw [Int.zero_add] at hzero
    rw [splitAtTop_append_cons hzero hfirst ht] at h hpart
    obtain ⟨hbroken, hrest⟩ := List.forall_mem_cons.1 h
    rw [operands_append_plus hbroken ht]
    rcases List.mem_cons.1 hpart with rfl | hpart
    · exact List.subset_append_left _ _
    · refine List.subset_append_of_subset_right _ (List.subset_cons_of_subset _ ?_)
      refine ih rest.length ?_ hrest hpart rfl
      rw [← hlength, List.length_append, List.length_cons]
      omega

variable {values : List Value}

theorem arithmetic_ne_of_mixed (hsquare : ∀ t ∈ ts, t.kind ≠ .opening .square)
    (hparts : List.Forall₂ (fun part v => Settles store part (some v))
      (splitAtTop (.operator .add) ts) values)
    (hmixed : ∃ v ∈ values, ¬v.IsNumber) (far : Resolver) {steps steps' : Nat} {w : Value} :
    (arithmeticValue store far ts).result steps ≠ (some w, steps') := by
  intro hw
  obtain ⟨v, hv, hnumber⟩ := hmixed
  obtain ⟨part, hpart, hsettles⟩ := exists_mem_of_forall₂ hparts hv
  have hbroken : ∀ part ∈ splitAtTop (.operator .add) ts, .broken ∉ operands part := by
    intro part hpart
    obtain ⟨v, -, hsettles⟩ := exists_mem_of_forall₂ hparts.flip hpart
    exact Settles.broken_not_mem (solid_of_mem_splitAtTop hpart) hsettles
  have hpartsquare : ∀ t ∈ part, t.kind ≠ .opening .square := fun t ht =>
    hsquare t (((splitAtTop_run (fun t => rfl) (.operator .add) ts).1 part hpart).subset ht)
  exact hnumber (Settles.isNumber (solid_of_mem_splitAtTop hpart) hpartsquare hsettles
    (operands_subset_of_mem_splitAtTop hbroken hpart) hw)

/-- Each part costs one step, and steps run out at the first part without one. -/
theorem result_mapM_eq_some_iff_of_settles {parts : List (List Token)}
    (h : List.Forall₂ (fun part v => Settles store part (some v)) parts values)
    (level room : Nat) {steps steps' : Nat} {ws : List Value} (hsteps : steps ≤ stepBudget) :
    (parts.mapM (resolve store (level + 1) (room + 1))).result steps = (some ws, steps') ↔
      ws = values ∧ steps' = steps + values.length ∧ steps + values.length ≤ stepBudget := by
  induction h generalizing steps ws with
  | nil =>
    rw [Attempt.result_mapM_nil_iff, List.length_nil, Nat.add_zero]
    exact ⟨fun h => ⟨h.1.symm, h.2.symm, hsteps⟩, fun h => ⟨h.1.symm, h.2.1.symm⟩⟩
  | @cons part v parts values hpart _ ih =>
    rw [Attempt.result_mapM_cons_iff, List.length_cons]
    constructor
    · rintro ⟨w, between, later, hw, hlater, rfl⟩
      have hlt : steps < stepBudget := by
        by_contra hge
        rw [result_resolve_of_exhausted (Nat.not_lt.1 hge)] at hw
        cases hw
      rw [hpart _ _ _ hlt] at hw
      obtain ⟨hv, rfl⟩ := Prod.mk.inj hw
      obtain rfl := Option.some.inj hv
      obtain ⟨rfl, rfl, hfits⟩ := (ih hlt).1 hlater
      exact ⟨rfl, by omega, by omega⟩
    · rintro ⟨rfl, rfl, hfits⟩
      have hlt : steps < stepBudget := by omega
      exact ⟨v, steps + 1, values, hpart _ _ _ hlt, (ih hlt).2 ⟨rfl, by omega, by omega⟩, rfl⟩

/-- A run whose parts have values, not all of them numbers, is joined from the values if
there is a step for each. -/
theorem evaluate?_eq_some_iff_of_settles {text : String} (hlex : lex text = .ok ts)
    (hsquare : ∀ t ∈ ts, t.kind ≠ .opening .square)
    (hparts : List.Forall₂ (fun part v => Settles store part (some v))
      (splitAtTop (.operator .add) ts) values)
    (htwo : 2 ≤ values.length) (hmixed : ∃ v ∈ values, ¬v.IsNumber) {w : Value} :
    evaluate? store text = some w ↔ values.length < stepBudget ∧ joinValues values = some w := by
  have hlength := hparts.length_eq
  have hdivided : ¬Solid (.operator .add) 0 ts := fun hsolid => by
    have := Grammar.splitAtTop_length_eq_one_iff.2 hsolid
    omega
  have hreference : Reference.ofRun? ts = none := ofRun?_of_divided (by omega)
  have harithmetic (far : Resolver) : (arithmeticValue store far ts).result 1 = (none, 1) := by
    obtain ⟨o, ho⟩ := @settled_arithmeticValue store ts hsquare
    cases o with
    | none => exact ho far 1
    | some w => exact absurd (ho far 1) (arithmetic_ne_of_mixed hsquare hparts hmixed far)
  have hevaluate : evaluate? store text =
      ((joinedValue (resolve store (text.length + 1) deepest) ts).result 1).1 := by
    rw [evaluate?_eq_resolve hlex rfl (Nat.le_succ text.length), resolve_succ,
      result_rules_of_not_atomic (by decide) fun hatomic => hdivided hatomic.solid,
      Attempt.result_orElse_of_none (referenceValue_of_none hreference),
      Attempt.result_orElse_of_none (harithmetic _)]
  have hmapM {steps' : Nat} {ws : List Value} := @result_mapM_eq_some_iff_of_settles store _ _
    hparts text.length (deepest - 1) 1 steps' ws (by decide)
  rw [hevaluate]
  constructor
  · intro h
    obtain ⟨-, ws, hws, hjoin⟩ := joinedValue_eq_some_iff.1 (Prod.ext h rfl)
    obtain ⟨rfl, -, hfits⟩ := hmapM.1 hws
    exact ⟨by omega, hjoin⟩
  · rintro ⟨hfits, hjoin⟩
    have hvalues := hmapM.2 ⟨rfl, rfl, by omega⟩
    exact congrArg Prod.fst (joinedValue_eq_some_iff.2 ⟨by omega, values, hvalues, hjoin⟩)

end

/-! ## What is joined -/

/-- Numbers added up from left to right, and shown; without numbers, nothing. -/
def shownSum : List Float → String
  | [] => ""
  | x :: xs => (Value.number (xs.foldl (· + ·) x)).shown

theorem Value.plus_of_not_isNumber {v w : Value} (h : ¬v.IsNumber ∨ ¬w.IsNumber) :
    v.plus w = .text (v.shown ++ w.shown) := by
  cases v with
  | number x =>
    cases w with
    | number y => exact (h.elim (· ⟨x, rfl⟩) (· ⟨y, rfl⟩)).elim
    | _ => rfl
  | _ => rfl

theorem foldl_plus_numbers (x : Float) (xs : List Float) :
    (xs.map Value.number).foldl Value.plus (.number x) = .number (xs.foldl (· + ·) x) := by
  induction xs generalizing x with
  | nil => rfl
  | cons y xs ih => exact ih (x + y)

/-- Numbers alone make a number. -/
theorem isNumber_of_forall {values : List Value} {w : Value} (h : joinValues values = some w)
    (hvalues : ∀ v ∈ values, v.IsNumber) : w.IsNumber := by
  have hfold {vs : List Value} {x : Float} (hvs : ∀ v ∈ vs, v.IsNumber) :
      (vs.foldl Value.plus (.number x)).IsNumber := by
    induction vs generalizing x with
    | nil => exact ⟨x, rfl⟩
    | cons v vs ih =>
      obtain ⟨⟨y, rfl⟩, hrest⟩ := List.forall_mem_cons.1 hvs
      exact ih hrest
  cases values with
  | nil => cases h
  | cons v vs =>
    obtain rfl := Option.some.inj h
    obtain ⟨⟨x, rfl⟩, hvs⟩ := List.forall_mem_cons.1 hvalues
    exact hfold hvs

/-- Behind a text all values are written one by one. -/
theorem foldl_plus_text (s : String) (vs : List Value) :
    vs.foldl Value.plus (.text s) = .text (s ++ String.join (vs.map Value.shown)) := by
  induction vs generalizing s with
  | nil => simp [String.join]
  | cons v vs ih =>
    have htext : ¬(Value.text s).IsNumber := nofun
    rw [List.foldl_cons, Value.plus_of_not_isNumber (.inl htext), ih, List.map_cons,
      String.join_cons, ← String.append_assoc]
    rfl

/-- Numbers in front are added up; from the first other value on, values are written. -/
theorem joinValues_eq {numbers : List Float} {first : Value} {rest : List Value}
    (hfirst : ¬first.IsNumber) (htwo : 2 ≤ (numbers.map Value.number ++ first :: rest).length) :
    joinValues (numbers.map Value.number ++ first :: rest) =
      some (.text (shownSum numbers ++ String.join ((first :: rest).map Value.shown))) := by
  cases numbers with
  | nil =>
    cases rest with
    | nil => simp at htwo
    | cons second rest =>
      rw [List.map_nil, List.nil_append, joinValues, List.foldl_cons,
        Value.plus_of_not_isNumber (.inl hfirst), foldl_plus_text]
      simp [shownSum, String.append_assoc]
  | cons x xs =>
    rw [List.map_cons, List.cons_append, joinValues, List.foldl_append, foldl_plus_numbers,
      List.foldl_cons, Value.plus_of_not_isNumber (.inr hfirst), foldl_plus_text]
    simp [shownSum, String.append_assoc]

/-! ## Values of parts -/

/-- A text without square brackets, cut at its plus signs into parts with values of their
own, the first numbers followed by a value that is none: it is worth the sum of these
numbers, shown, and behind it the other values, each as it is shown. -/
theorem evaluate?_of_parts {store : Store} {text : String} {ts : List Token}
    {numbers : List Float} {first : Value} {rest : List Value} (hlex : lex text = .ok ts)
    (hsquare : '[' ∉ text.toList) (htwo : 2 ≤ (splitAtTop (.operator .add) ts).length)
    (hfits : (splitAtTop (.operator .add) ts).length < stepBudget)
    (hvalues : (splitAtTop (.operator .add) ts).map
        (fun part => evaluate? store (sourceText text part)) =
      (numbers.map Value.number ++ first :: rest).map some)
    (hfirst : ¬first.IsNumber) :
    evaluate? store text =
      some (.text (shownSum numbers ++ String.join ((first :: rest).map Value.shown))) := by
  have hts := unindexed_of_lex hlex hsquare
  have hlength := congrArg List.length hvalues
  rw [List.length_map, List.length_map] at hlength
  rw [← List.forall₂_eq_eq_eq, List.forall₂_map_left_iff, List.forall₂_map_right_iff] at hvalues
  have hparts : List.Forall₂ (fun part v => Settles store part (some v))
      (splitAtTop (.operator .add) ts) (numbers.map Value.number ++ first :: rest) :=
    ((List.forall₂_and_left _ _).2 ⟨fun _ hpart => hpart, hvalues⟩).imp
      fun part v h => settles_of_evaluate? hlex hts h.1 h.2
  rw [hlength] at htwo hfits
  have hmixed : ∃ v ∈ numbers.map Value.number ++ first :: rest, ¬v.IsNumber :=
    ⟨first, by simp, hfirst⟩
  exact (evaluate?_eq_some_iff_of_settles hlex hts.square hparts htwo hmixed).2
    ⟨hfits, joinValues_eq hfirst htwo⟩

/-- Numbers in front of a name, and numbers behind it. -/
theorem evaluate?_of_parts_name :
    let store := ({} : Store).define "s" (.text "!")
    let text := "1 + 2 * 3 + s + 4 + 5"
    let ts : List Token := [⟨.number 1, ⟨0, 1⟩⟩, ⟨.operator .add, ⟨2, 3⟩⟩, ⟨.number 2, ⟨4, 5⟩⟩,
      ⟨.operator .mul, ⟨6, 7⟩⟩, ⟨.number 3, ⟨8, 9⟩⟩, ⟨.operator .add, ⟨10, 11⟩⟩,
      ⟨.word "s", ⟨12, 13⟩⟩, ⟨.operator .add, ⟨14, 15⟩⟩, ⟨.number 4, ⟨16, 17⟩⟩,
      ⟨.operator .add, ⟨18, 19⟩⟩, ⟨.number 5, ⟨20, 21⟩⟩]
    lex text = .ok ts ∧ '[' ∉ text.toList ∧ 2 ≤ (splitAtTop (.operator .add) ts).length ∧
      (splitAtTop (.operator .add) ts).length < stepBudget ∧
      (splitAtTop (.operator .add) ts).map (fun part => evaluate? store (sourceText text part)) =
        [some (.number 1), some (.number 6), some (.text "!"), some (.number 4),
          some (.number 5)] ∧
      evaluate? store text = some (.text "7!45") := by
  intro store text ts
  have hlex : lex text = .ok ts := by decide +kernel
  have hsquare : '[' ∉ text.toList := by decide
  have hvalues : (splitAtTop (.operator .add) ts).map
      (fun part => evaluate? store (sourceText text part)) =
        ([1, 6].map Value.number ++ Value.text "!" :: [.number 4, .number 5]).map some := by
    decide +kernel
  have htext : ¬(Value.text "!").IsNumber := nofun
  have hvalue := evaluate?_of_parts hlex hsquare (by decide) (by decide) hvalues htext
  have hshown : shownSum [1, 6] ++
      String.join ([Value.text "!", .number 4, .number 5].map Value.shown) = "7!45" := by
    decide +kernel
  rw [hshown] at hvalue
  exact ⟨hlex, hsquare, by decide, by decide, hvalues, hvalue⟩

end SnippetConsole
