import SnippetConsole.Proofs.Expr.Evaluation
import SnippetConsole.Proofs.Store.OneLine
import SnippetConsole.Proofs.Token.Within

/-!
# Values of expressions on one line

What an expression shows is put together from parts of its text, values in the store
and numbers. So on one line, and in a store on one line, it is worth something that
shows as one line, and that is so too where it stands for its own text.

* `oneLine_resolve` — each rule keeps to one line if the resolvers it calls do.
* `Expr.oneLine_value` — the value of an expression shows as one line.
-/

namespace SnippetConsole

/-! ## Rules -/

section

variable {s : Store} {cs : List Char} {near far : Resolver} {ts : List Token}

/-- Runs whose texts are parts of `cs` come to values on one line. -/
def OneLineWithin (cs : List Char) (r : Resolver) : Prop :=
  ∀ ts, Within cs ts → (r ts).Ensures Value.OneLine

/-- Raw texts that are parts of `cs` are filled on one line. -/
def FillsOneLine (cs : List Char) (fill : String → Attempt String) : Prop :=
  ∀ raw : String, raw.toList <:+: cs → (fill raw).Ensures Text.OneLine

theorem oneLine_foldl_plus {v : Value} {vs : List Value} (hv : v.OneLine)
    (hvs : ∀ w ∈ vs, w.OneLine) : (vs.foldl Value.plus v).OneLine := by
  induction vs generalizing v with
  | nil => exact hv
  | cons w vs ih =>
    obtain ⟨hw, hvs⟩ := List.forall_mem_cons.1 hvs
    exact ih (hv.plus hw) hvs

theorem oneLine_joinedValue (hnear : OneLineWithin cs near) (hts : Within cs ts) :
    (joinedValue near ts).Ensures Value.OneLine := by
  have hparts : ((splitAtTop (.operator .add) ts).mapM near).Ensures fun vs =>
      ∀ v ∈ vs, v.OneLine :=
    Attempt.ensures_mapM fun part hpart => hnear part (within_of_mem_splitAtTop hts hpart)
  have hjoin (vs : List Value) (hvs : ∀ v ∈ vs, v.OneLine) :
      (Attempt.ofOption (joinValues vs)).Ensures Value.OneLine := by
    refine Attempt.ensures_ofOption fun v hv => ?_
    cases vs with
    | nil => cases hv
    | cons w vs =>
      obtain rfl := Option.some.inj hv
      obtain ⟨hw, hvs⟩ := List.forall_mem_cons.1 hvs
      exact oneLine_foldl_plus hw hvs
  unfold joinedValue
  simp only
  split
  · exact Attempt.ensures_failure_bind _
  · exact hparts.bind hjoin

theorem oneLine_arithmeticValue (s : Store) (far : Resolver) (ts : List Token) :
    (arithmeticValue s far ts).Ensures Value.OneLine := by
  unfold arithmeticValue
  split
  · exact Attempt.ensures_failure
  · refine (Attempt.ensures_true _).bind fun kinds _ => ?_
    refine (Attempt.ensures_true _).bind fun tree _ => ?_
    exact Attempt.ensures_pure (Value.oneLine_number _)

theorem oneLine_interpolatedValue {fill : String → Attempt String} (hfill : FillsOneLine cs fill)
    (hts : Within cs ts) : (interpolatedValue fill ts).Ensures Value.OneLine := by
  unfold interpolatedValue
  split
  · exact (hfill _ hts.quoted).bind fun text htext => Attempt.ensures_pure htext
  · exact Attempt.ensures_failure

variable (hcs : '\n' ∉ cs)

include hcs in
theorem oneLine_literalValue? (hts : Within cs ts) {v : Value} (hv : literalValue? ts = some v) :
    v.OneLine := by
  have hraw {raw : String} (h : raw.toList <:+: cs) : (Value.text raw).OneLine :=
    fun hmem => hcs (h.subset hmem)
  unfold literalValue? at hv
  split at hv
  · obtain rfl := Option.some.inj hv
    exact hraw hts.quoted
  · obtain rfl := Option.some.inj hv
    exact hraw hts.quoted
  · obtain rfl := Option.some.inj hv
    exact Value.oneLine_truth _
  · cases hv

variable (hs : s.OneLine)
include hs

theorem Reference.oneLine_value (near : Resolver) (r : Reference) :
    (r.value s near).Ensures Value.OneLine := by
  cases r with
  | binding name => exact Attempt.ensures_ofOption (hs.bindings name)
  | member object field =>
    refine Attempt.ensures_ofOption fun v hv => ?_
    obtain ⟨o, ho, hv⟩ := Option.bind_eq_some_iff.1 hv
    exact (hs.objects object o ho).fields field v hv
  | slot array index =>
    have harray : (Attempt.ofOption (s.array? array)).Ensures Slots.OneLine :=
      Attempt.ensures_ofOption (hs.arrays array)
    refine harray.bind fun a ha => ?_
    refine (Attempt.ensures_true _).bind fun i _ => ?_
    refine Attempt.ensures_ofOption fun v hv => ?_
    obtain ⟨n, -, hv⟩ := Option.bind_eq_some_iff.1 hv
    exact ha n v hv

theorem oneLine_referenceValue (near : Resolver) (ts : List Token) :
    (referenceValue s near ts).Ensures Value.OneLine :=
  (Attempt.ensures_true _).bind fun r _ => Reference.oneLine_value hs near r

theorem oneLine_holeValue (near : Resolver) (inner : List Char) :
    (holeValue s near inner).Ensures Value.OneLine := by
  unfold holeValue
  split
  · exact oneLine_referenceValue hs near _
  · exact Attempt.ensures_failure

include hcs

theorem oneLine_interpolate (near : Resolver) : FillsOneLine cs (interpolate s near) := by
  intro raw hraw
  have hpieces : ((pieces raw.toList).mapM (Piece.fill s near)).Ensures fun filled =>
      ∀ ds ∈ filled, '\n' ∉ ds := by
    refine Attempt.ensures_mapM fun p hp => ?_
    have hsource : '\n' ∉ p.source :=
      fun hmem => hcs (((Piece.source_isInfix hp).trans hraw).subset hmem)
    cases p with
    | char c => exact Attempt.ensures_pure hsource
    | hole inner =>
      refine Attempt.Ensures.orElse ?_ (Attempt.ensures_pure hsource)
      exact (oneLine_holeValue hs near inner).bind fun v hv => Attempt.ensures_pure hv
  refine hpieces.bind fun filled hfilled => Attempt.ensures_pure ?_
  rw [Text.OneLine, String.toList_ofList, List.mem_flatten]
  rintro ⟨ds, hds, hmem⟩
  exact hfilled ds hds hmem

theorem oneLine_rules {fill : String → Attempt String} (hfill : FillsOneLine cs fill)
    (hnear : OneLineWithin cs near) : OneLineWithin cs (rules s fill near far) := by
  intro ts hts
  refine (Attempt.ensures_true _).bind fun _ _ => ?_
  have hrules : (Attempt.ofOption (literalValue? ts) <|> interpolatedValue fill ts <|>
      referenceValue s near ts <|> arithmeticValue s far ts <|>
        joinedValue near ts).Ensures Value.OneLine := by
    refine .orElse (Attempt.ensures_ofOption fun v => oneLine_literalValue? hcs hts) ?_
    refine .orElse (oneLine_interpolatedValue hfill hts) ?_
    refine .orElse (oneLine_referenceValue hs near ts) ?_
    exact .orElse (oneLine_arithmeticValue s far ts) (oneLine_joinedValue hnear hts)
  simp only
  split
  · exact Attempt.ensures_failure_bind _
  · exact hrules

/-- At every level and with every room, runs come to values on one line. -/
theorem oneLine_resolve (level room : Nat) : OneLineWithin cs (resolve s level room) := by
  refine resolve_induction ?_ ?_ ?_ (fun near _ => oneLine_interpolate hcs hs near) level room
  · exact fun fill ts _ => (Attempt.ensures_true _).bind fun _ _ => Attempt.ensures_failure
  · exact fun fill near far hfill hnear _ => oneLine_rules hcs hs hfill hnear
  · exact fun raw hraw => Attempt.ensures_pure fun hmem => hcs (hraw.subset hmem)

end

/-! ## Whole texts -/

theorem oneLine_of_evaluate? {s : Store} {text : String} {v : Value} (htext : Text.OneLine text)
    (hs : s.OneLine) (hv : evaluate? s text = some v) : v.OneLine := by
  have hattempt : (attempt s text).Ensures Value.OneLine := by
    unfold attempt
    split
    · next hlex => exact oneLine_resolve htext hs _ _ _ (within_of_lex hlex)
    · exact Attempt.ensures_failure
  exact hattempt 0 _ v (Prod.ext hv rfl)

/-- An expression on one line is worth a value on one line, also where that is its own
text. -/
theorem Expr.oneLine_value {s : Store} {expr : Expr} (htext : Text.OneLine expr.text)
    (hs : s.OneLine) : (expr.value s).OneLine := by
  unfold value
  cases hv : evaluate? s expr.text with
  | none => exact htext
  | some v => exact oneLine_of_evaluate? htext hs hv

end SnippetConsole
