import SnippetConsole.Proofs.Expr.Naming
import SnippetConsole.Proofs.Expr.Overrun

/-!
# Calls nested in one another

Resolving a run calls for its parts and indices, each one or two levels further down. The
index in a hole starts again two levels below the top, so the levels alone would not bound
how deep such calls are nested. But no part of a raw text is read as an interpolated string,
so a hole leads to no other hole, and the levels are gone through twice at most.

* `resolveCapped` — resolving with a cap on the nesting of calls.
* `rules_eq_of_isInfix` — the rules call for runs within the run only.
* `resolveCapped_of_uninterpolated` — a run without strings nests calls as deep as it has
  room.
* `holeValue_congr_fill` — a hole in which no string stands fills none.
* `resolveCapped_eq_resolve` — the cap that is enough for any run of a text.
* `nesting_of_lex` — the holes and the calls of a whole text.
-/

namespace SnippetConsole

/-- Resolves a run by the calls that resolving makes, of which so many may be nested inside
this one. A call inside the last of them is not made, and `beyond` answers in its place. -/
def resolveCapped (store : Store) (beyond : Resolver) : (nested room : Nat) → Resolver
  | _, 0 => fun _ => do .step; failure
  | 0, _ + 1 => rules store (interpolate store beyond) beyond beyond
  | nested + 1, room + 1 =>
    rules store (interpolate store (resolveCapped store beyond nested (deepest - 1)))
      (resolveCapped store beyond nested room) (resolveCapped store beyond nested (room - 1))

section

variable {store : Store} {fill fill' : String → Attempt String}
  {beyond near near' far far' : Resolver} {ts : List Token} {level nested room : Nat}

/-! ## The calls of one run -/

theorem Reference.value_eq_of_index {r : Reference} (h : near r.index = near' r.index) :
    r.value store near = r.value store near' := by
  cases r with
  | binding name => rfl
  | member object field => rfl
  | slot array ts =>
    rw [Reference.index] at h
    rw [value, value, h]

theorem referenceValue_eq_of_isInfix (hnear : ∀ us, us <:+: ts → near us = near' us) :
    referenceValue store near ts = referenceValue store near' ts := by
  refine referenceValue_eq_of_value fun r hr => Reference.value_eq_of_index (hnear _ ?_)
  exact (Reference.isInfix_of_read? (Reference.read?_of_ofRun? hr)).1

/-- The rules call for runs within the run only. -/
theorem rules_eq_of_isInfix
    (hfill : ∀ raw span, ts = [⟨.quoted .interpolated raw, span⟩] → fill raw = fill' raw)
    (hnear : ∀ us, us <:+: ts → near us = near' us)
    (hfar : ∀ us, us <:+: ts → far us = far' us) :
    rules store fill near far ts = rules store fill' near' far' ts := by
  have harithmetic : arithmeticValue store far ts = arithmeticValue store far' ts :=
    arithmeticValue_eq_of_value fun r hr =>
      Reference.value_eq_of_index (hfar _ (index_isInfix_of_mem_operands hr))
  have hjoined : joinedValue near ts = joinedValue near' ts :=
    joinedValue_eq_of_parts fun part hpart =>
      hnear part ((splitAtTop_run (fun _ => rfl) (.operator .add) ts).1 part hpart)
  rw [rules, rules, interpolatedValue_eq_of_fill hfill, referenceValue_eq_of_isInfix hnear,
    harithmetic, hjoined]

/-! ## Runs without strings -/

/-- A run without strings nests calls as deep as it has room, however strings are filled. -/
theorem resolveCapped_of_uninterpolated (hts : Uninterpolated ts) (hroom : room ≤ nested) :
    resolveCapped store beyond nested room ts = resolveIn store fill room ts := by
  induction room using Nat.strong_induction_on generalizing nested ts with
  | h room ih =>
    cases room with
    | zero => rw [resolveCapped, resolveIn]
    | succ room =>
      obtain ⟨nested, rfl⟩ : ∃ n, nested = n + 1 := Nat.exists_eq_add_one.2 (by omega)
      rw [resolveCapped, resolveIn_succ]
      refine rules_eq_of_isInfix (fun raw span heq => ?_) (fun us hus => ?_) fun us hus => ?_
      · subst heq
        exact absurd rfl (hts _ List.mem_cons_self raw)
      · exact ih room (by omega) (hts.isInfix hus) (by omega)
      · exact ih (room - 1) (by omega) (hts.isInfix hus) (by omega)

theorem resolveIn_congr_fill (hts : Uninterpolated ts) (fill fill' : String → Attempt String) :
    resolveIn store fill room ts = resolveIn store fill' room ts := by
  have hcapped (fill : String → Attempt String) : resolveIn store fill room ts =
      resolveCapped store (fun _ => failure) room room ts :=
    (resolveCapped_of_uninterpolated hts (Nat.le_refl room)).symm
  rw [hcapped fill, hcapped fill']

/-- A hole in which no string stands does not depend on how strings are filled. -/
theorem holeValue_congr_fill {inner : List Char}
    (h : ∀ us, lex (String.ofList (Text.trimChars inner)) = .ok us → Uninterpolated us) :
    holeValue store (resolveIn store fill room) inner =
      holeValue store (resolveIn store fill' room) inner := by
  refine holeValue_eq_of_reference fun us hlex => referenceValue_eq_of_isInfix fun vs hvs => ?_
  exact resolveIn_congr_fill ((h us hlex).isInfix hvs) fill fill'

/-! ## Strings -/

/-- Filling a string in whose holes no other stands nests calls as deep as a hole has room. -/
theorem interpolate_resolveCapped {raw : String} (hraw : Unnested raw)
    (hnested : deepest - 1 ≤ nested) :
    interpolate store (resolveCapped store beyond nested (deepest - 1)) raw =
      fillAt store (level + 1) raw := by
  refine interpolate_eq_of_holes fun inner hinner => ?_
  refine holeValue_eq_of_reference fun us hlex => referenceValue_eq_of_isInfix fun vs hvs => ?_
  have hus : Uninterpolated us := fun u hu => hraw inner us hinner hlex u hu
  rw [resolve_eq, resolveCapped_of_uninterpolated (hus.isInfix hvs) hnested]

/-- Calls are nested as deep as the run has room down to its strings, and as deep as a hole
has room inside those. -/
theorem resolveCapped_eq_resolve
    (hts : ∀ t ∈ ts, ∀ raw, t.kind = .quoted .interpolated raw → Unnested raw)
    (hnested : deepest + room ≤ nested + 1) :
    resolveCapped store beyond nested room ts = resolve store (level + 1) room ts := by
  induction room using Nat.strong_induction_on generalizing nested ts with
  | h room ih =>
    cases room with
    | zero => rw [resolveCapped, resolve, resolveIn]
    | succ room =>
      have hdeepest : 1 ≤ deepest := by decide
      obtain ⟨nested, rfl⟩ : ∃ n, nested = n + 1 := Nat.exists_eq_add_one.2 (by omega)
      have hsub {us : List Token} (hus : us <:+: ts) :
          ∀ t ∈ us, ∀ raw, t.kind = .quoted .interpolated raw → Unnested raw :=
        fun t ht => hts t (hus.subset ht)
      rw [resolveCapped, resolve_succ]
      refine rules_eq_of_isInfix (fun raw span heq => ?_) (fun us hus => ?_) fun us hus => ?_
      · subst heq
        exact interpolate_resolveCapped (hts _ List.mem_cons_self raw rfl) (by omega)
      · exact ih room (by omega) (hsub hus) (by omega)
      · exact ih (room - 1) (by omega) (hsub hus) (by omega)

end

/-! ## Whole texts -/

/-- Nothing between an opening brace of an interpolated string and a closing one behind it is
read as another such string. So the value of a hole does not depend on how strings are filled,
and the calls inside the outermost one are nested at most twice as deep as the levels go:
whatever would answer a call nested deeper, all values and steps are the same. -/
theorem nesting_of_lex {text : String} {ts : List Token} (h : lex text = .ok ts) :
    (∀ raw span, ⟨.quoted .interpolated raw, span⟩ ∈ ts → ∀ before inner after,
      raw.toList = before ++ '\x7b' :: (inner ++ '\x7d' :: after) →
        (∀ us, lex (String.ofList (Text.trimChars inner)) = .ok us →
          ∀ u ∈ us, ∀ raw', u.kind ≠ .quoted .interpolated raw') ∧
        ∀ store fill fill' room, holeValue store (resolveIn store fill room) inner =
          holeValue store (resolveIn store fill' room) inner) ∧
      ∀ store beyond,
        resolveCapped store beyond (2 * deepest) (deepest + 1) ts = attempt store text := by
  constructor
  · intro raw span hmem before inner after hraw
    have hpart : inner <:+: raw.toList := ⟨before ++ ['\x7b'], '\x7d' :: after, by simp [hraw]⟩
    have hinner : ∀ us, lex (String.ofList (Text.trimChars inner)) = .ok us → Uninterpolated us :=
      fun _ hlex => ne_interpolated_of_lex_part h hmem rfl hpart hlex
    exact ⟨hinner, fun _ _ _ _ => holeValue_congr_fill hinner⟩
  · intro store beyond
    rw [attempt_eq_resolve h (Nat.le_succ text.length)]
    exact resolveCapped_eq_resolve (fun t ht raw hkind => unnested_of_lex h ht hkind) (by omega)

/-- The quote in the hole is escaped in the string, and in a comment for the index. -/
theorem nesting_of_lex_comment :
    let store := ({} : Store).putArray "n" (.ofValues [.number 7])
    let inner := "n[/*$\\\"*/0]"
    let raw := "\x7b" ++ inner ++ "\x7d"
    let text := "$\"" ++ raw ++ "\""
    let ts := [⟨.quoted .interpolated raw, ⟨0, 16⟩⟩]
    lex text = .ok ts ∧
      lex (String.ofList (Text.trimChars inner.toList)) = .ok [⟨.word "n", ⟨0, 1⟩⟩,
        ⟨.opening .square, ⟨1, 2⟩⟩, ⟨.number 0, ⟨9, 10⟩⟩, ⟨.closing .square, ⟨10, 11⟩⟩] ∧
      holeValue store (resolveIn store pure deepest) inner.toList =
        holeValue store (resolveIn store (fun _ => failure) deepest) inner.toList ∧
      resolveCapped store (fun _ => failure) (2 * deepest) (deepest + 1) ts = attempt store text ∧
      evaluate? store text = some (.text "7") := by
  intro store inner raw text ts
  have hlex : lex text = .ok ts := by decide +kernel
  obtain ⟨hholes, hnesting⟩ := nesting_of_lex hlex
  have hhole := hholes raw ⟨0, 16⟩ List.mem_cons_self [] inner.toList [] (by decide)
  exact ⟨hlex, by decide +kernel, hhole.2 store _ _ _, hnesting store _, by decide +kernel⟩

end SnippetConsole
