import SnippetConsole.Proofs.Expr.Evaluation
import SnippetConsole.Proofs.Token.Within

/-!
# Evaluation looks up what the text mentions

A name is looked up only if a token carries it, and what tokens carry is written in
the text, in the holes of an interpolated string too. So two stores that hold the
same under all names in a text are alike to every rule, and the two evaluations take
the same steps to the same end, also where a rule fails and the next one is tried.

* `resolve_congr` — resolvers of stores that agree on a text are equal on its runs.
* `evaluate?_congr` — the value and the steps of a text depend on the names in it.
-/

namespace SnippetConsole

/-! ## Stores that agree -/

/-- Two stores hold the same under a name: the same value, the same fields of an
object, the same array. The class of an object does not matter. -/
structure Store.AgreeOn (s s' : Store) (name : String) : Prop where
  binding : s.get? name = s'.get? name
  fields : (s.object? name).map Object.fields = (s'.object? name).map Object.fields
  array : s.array? name = s'.array? name

theorem Store.AgreeOn.field? {s s' : Store} {name : String} (h : s.AgreeOn s' name)
    (field : String) :
    (s.object? name).bind (·.field? field) = (s'.object? name).bind (·.field? field) := by
  have hfields (o? : Option Object) :
      o?.bind (·.field? field) = (o?.map Object.fields).bind (·[field]?) := by
    cases o? <;> rfl
  rw [hfields, hfields, h.fields]

/-! ## Rules that look up the same -/

section

variable {s s' : Store} {near near' far far' : Resolver} {ts : List Token}

theorem interpolatedValue_eq_of_fill {fill fill' : String → Attempt String}
    (h : ∀ raw span, ts = [⟨.quoted .interpolated raw, span⟩] → fill raw = fill' raw) :
    interpolatedValue fill ts = interpolatedValue fill' ts := by
  unfold interpolatedValue
  split
  · next raw span => rw [h raw span rfl]
  · rfl

theorem referenceValue_eq_of_value
    (h : ∀ r, Reference.ofRun? ts = some r → r.value s near = r.value s' near') :
    referenceValue s near ts = referenceValue s' near' ts := by
  unfold referenceValue
  cases hr : Reference.ofRun? ts with
  | none => rfl
  | some r => exact h r hr

theorem holeValue_eq_of_reference {inner : List Char}
    (h : ∀ ts, lex (String.ofList (Text.trimChars inner)) = .ok ts →
      referenceValue s near ts = referenceValue s' near' ts) :
    holeValue s near inner = holeValue s' near' inner := by
  unfold holeValue
  cases hlex : lex (String.ofList (Text.trimChars inner)) with
  | error e => rfl
  | ok ts => exact h ts hlex

/-- The holes of a text decide what it becomes. -/
theorem interpolate_eq_of_holes {raw : String} (h : ∀ inner, .hole inner ∈ pieces raw.toList →
    holeValue s near inner = holeValue s' near' inner) :
    interpolate s near raw = interpolate s' near' raw := by
  unfold interpolate
  rw [Attempt.mapM_congr]
  intro p hp
  cases p with
  | char c => rfl
  | hole inner => rw [Piece.fill, Piece.fill, h inner hp]

theorem arithmeticValue_eq_of_value
    (h : ∀ r, .ref r ∈ operands ts → r.value s far = r.value s' far') :
    arithmeticValue s far ts = arithmeticValue s' far' ts := by
  unfold arithmeticValue
  rw [Attempt.mapM_congr]
  intro operand hoperand
  cases operand with
  | plain kind => rfl
  | broken => rfl
  | ref r => rw [Operand.kindIn, Operand.kindIn, h r hoperand]

theorem joinedValue_eq_of_parts
    (h : ∀ part ∈ splitAtTop (.operator .add) ts, near part = near' part) :
    joinedValue near ts = joinedValue near' ts := by
  have hparts : (splitAtTop (.operator .add) ts).mapM near =
      (splitAtTop (.operator .add) ts).mapM near' := Attempt.mapM_congr h
  unfold joinedValue
  simp only [hparts]

end

/-! ## Rules in stores that agree -/

section

variable {s s' : Store} {cs : List Char} {near near' far far' : Resolver} {ts : List Token}

/-- The resolvers are equal on all runs whose texts are parts of `cs`. -/
def AlikeWithin (cs : List Char) (near near' : Resolver) : Prop :=
  ∀ ts, Within cs ts → near ts = near' ts

/-- The fillers are equal on all raw texts that are parts of `cs`. -/
def FillAlike (cs : List Char) (fill fill' : String → Attempt String) : Prop :=
  ∀ raw : String, raw.toList <:+: cs → fill raw = fill' raw

variable (hs : ∀ name : String, name.toList <:+: cs → s.AgreeOn s' name)
include hs

theorem Reference.value_congr (hnear : AlikeWithin cs near near') {r : Reference}
    (hr : r.Within cs) : r.value s near = r.value s' near' := by
  cases r with
  | binding name =>
    rw [value, value, (hs name hr).binding]
  | member object field =>
    rw [value, value, (hs object hr).field?]
  | slot array index =>
    obtain ⟨harray, hindex⟩ := hr
    rw [value, value, (hs array harray).array, hnear index hindex]

theorem referenceValue_congr (hnear : AlikeWithin cs near near') (hts : Within cs ts) :
    referenceValue s near ts = referenceValue s' near' ts :=
  referenceValue_eq_of_value fun _ hr =>
    Reference.value_congr hs hnear (Reference.within_of_ofRun? hr hts)

theorem holeValue_congr {inner : List Char} (hnear : AlikeWithin cs near near')
    (hinner : inner <:+: cs) : holeValue s near inner = holeValue s' near' inner :=
  holeValue_eq_of_reference fun _ hlex =>
    referenceValue_congr hs hnear ((within_of_lex_hole hlex).mono hinner)

theorem interpolate_congr (hnear : AlikeWithin cs near near') :
    FillAlike cs (interpolate s near) (interpolate s' near') := fun _ hraw =>
  interpolate_eq_of_holes fun _ hhole =>
    holeValue_congr hs hnear ((Piece.isInfix_of_hole hhole).trans hraw)

theorem arithmeticValue_congr (hfar : AlikeWithin cs far far') (hts : Within cs ts) :
    arithmeticValue s far ts = arithmeticValue s' far' ts :=
  arithmeticValue_eq_of_value fun _ hr =>
    Reference.value_congr hs hfar (within_of_mem_operands hr hts)

omit hs in
theorem interpolatedValue_congr {fill fill' : String → Attempt String}
    (hfill : FillAlike cs fill fill') (hts : Within cs ts) :
    interpolatedValue fill ts = interpolatedValue fill' ts :=
  interpolatedValue_eq_of_fill fun raw _ heq => hfill raw (heq ▸ hts).quoted

omit hs in
theorem joinedValue_congr (hnear : AlikeWithin cs near near') (hts : Within cs ts) :
    joinedValue near ts = joinedValue near' ts :=
  joinedValue_eq_of_parts fun part hpart => hnear part (within_of_mem_splitAtTop hts hpart)

theorem rules_congr {fill fill' : String → Attempt String} (hfill : FillAlike cs fill fill')
    (hnear : AlikeWithin cs near near') (hfar : AlikeWithin cs far far') :
    AlikeWithin cs (rules s fill near far) (rules s' fill' near' far') := by
  intro ts hts
  rw [rules, rules, interpolatedValue_congr hfill hts, referenceValue_congr hs hnear hts,
    arithmeticValue_congr hs hfar hts, joinedValue_congr hnear hts]

theorem resolve_congr (level room : Nat) :
    AlikeWithin cs (resolve s level room) (resolve s' level room) :=
  resolve_related (fun _ _ _ _ => rfl) (fun _ _ _ _ _ _ => rules_congr hs) (fun _ _ => rfl)
    (fun _ _ => interpolate_congr hs) level room

end

/-! ## The whole text -/

section

variable {s s' : Store} {text : String}
  (h : ∀ name : String, name.toList <:+: text.toList → s.AgreeOn s' name)
include h

theorem attempt_congr : attempt s text = attempt s' text := by
  unfold attempt
  cases hlex : lex text with
  | error e => rfl
  | ok ts => exact resolve_congr h text.length (deepest + 1) ts (within_of_lex hlex)

/-- Two stores that hold the same under all names that occur in a text give it the same
value, by the same number of steps. -/
theorem evaluate?_congr :
    evaluate? s text = evaluate? s' text ∧ stepsUsed s text = stepsUsed s' text := by
  rw [evaluate?, evaluate?, stepsUsed, stepsUsed, attempt_congr h]
  exact ⟨rfl, rfl⟩

end

/-- A hole looks up the name in it. What all tables hold under another name does not
matter. -/
theorem evaluate?_congr_hole :
    let s := ({} : Store).define "a" (.text "x")
    let s' := ((s.define "z" (.text "y")).putObject "z" (.ofClass "Car")).putArray "z" (.unset 1)
    let text := "$\"\x7ba\x7d b\""
    (∀ name : String, name.toList <:+: text.toList → s.AgreeOn s' name) ∧
      (evaluate? s text = evaluate? s' text ∧ stepsUsed s text = stepsUsed s' text) ∧
      evaluate? s' text = some (.text "x b") := by
  intro s s' text
  have hagree : ∀ name : String, name.toList <:+: text.toList → s.AgreeOn s' name := by
    intro name hname
    have hne : "z" ≠ name := by
      rintro rfl
      exact absurd hname (by decide)
    constructor <;> simp [s, s', hne]
  exact ⟨hagree, evaluate?_congr hagree, by decide +kernel⟩

end SnippetConsole
