import SnippetConsole.Proofs.Expr.Holes

/-!
# Strings that name nothing

A hole becomes something else only through what is stored under a name in it. Where nothing
is, every hole stays as it is written, braces included, and so does the whole string.

* `Store.Lacks` — nothing is stored under a name.
* `result_holeValue_of_lacks` — a hole without stored names has no value and takes no steps.
* `fills_of_lacks` — pieces without stored names stay as they are written.
* `evaluate?_interpolated_of_lacks` — an interpolated string is worth its raw text.
-/

namespace SnippetConsole

/-- Nothing is stored under the name: no value, no object and no array. -/
structure Store.Lacks (store : Store) (name : String) : Prop where
  binding : store.get? name = none
  object : store.object? name = none
  array : store.array? name = none

section

variable {store : Store} {cs : List Char}
  (h : ∀ name : String, name.toList <:+: cs → store.Lacks name)
include h

/-! ## Holes -/

/-- An array that does not exist costs no steps for the index. -/
theorem Reference.result_value_of_lacks {r : Reference} (hr : r.Within cs) (near : Resolver)
    (steps : Nat) : (r.value store near).result steps = (none, steps) := by
  cases r with
  | binding name => rw [value, (h name hr).binding, Attempt.result_ofOption]
  | member object field =>
    rw [value, (h object hr).object, Option.bind_none, Attempt.result_ofOption]
  | slot array index =>
    rw [value, (h array hr.1).array, Attempt.result_bind, Attempt.result_ofOption]

theorem result_holeValue_of_lacks {inner : List Char} (hinner : inner <:+: cs)
    (near : Resolver) (steps : Nat) : (holeValue store near inner).result steps = (none, steps) := by
  unfold holeValue
  split
  · next ts hlex =>
    have hts : Within cs ts := (within_of_lex_hole hlex).mono hinner
    unfold referenceValue
    rw [Attempt.result_bind, Attempt.result_ofOption]
    cases hr : Reference.ofRun? ts with
    | none => rfl
    | some r => exact Reference.result_value_of_lacks h (Reference.within_of_ofRun? hr hts) near steps
  · rfl

/-! ## Pieces -/

theorem fills_piece_of_lacks {piece : Piece} (hpiece : piece.source <:+: cs) :
    Fills store [piece] piece.source := by
  refine ⟨[piece.source], by simp, fun near steps => ?_⟩
  refine Attempt.result_mapM_cons_iff.2 ⟨_, steps, [], ?_, rfl, rfl⟩
  cases piece with
  | char c => rfl
  | hole inner =>
    have hinner : inner <:+: cs := List.IsInfix.trans ⟨['\x7b'], ['\x7d'], rfl⟩ hpiece
    refine Attempt.result_orElse_eq_some_iff.2 (.inr ⟨steps, ?_, rfl⟩)
    rw [Attempt.result_bind, result_holeValue_of_lacks h hinner]

/-- The pieces put together again are the text they were cut from. -/
theorem fills_of_lacks {ps : List Piece} (hps : ∀ piece ∈ ps, piece.source <:+: cs) :
    Fills store ps (ps.flatMap Piece.source) := by
  induction ps with
  | nil => exact fills_chars store []
  | cons piece ps ih =>
    obtain ⟨hpiece, hrest⟩ := List.forall_mem_cons.1 hps
    exact (fills_piece_of_lacks h hpiece).append (ih hrest)

end

/-! ## Whole strings -/

/-- An interpolated string whose text holds no name of anything in the store is worth exactly
that text, braces and all, whatever it holds besides. -/
theorem evaluate?_interpolated_of_lacks {store : Store} {raw : String} {span : Text.Span}
    (hlex : lex (interpolated raw) = .ok [⟨.quoted .interpolated raw, span⟩])
    (h : ∀ name : String, name.toList <:+: raw.toList → store.Lacks name) :
    evaluate? store (interpolated raw) = some (.text raw) ∧
      (Expr.of (interpolated raw)).value store = .text raw := by
  have hfills : Fills store (pieces raw.toList) raw.toList := by
    have hsource := fills_of_lacks h fun _ => Piece.source_isInfix
    rwa [source_pieces] at hsource
  have hvalue : evaluate? store (interpolated raw) = some (.text raw) := by
    rw [evaluate?_of_fills hlex hfills, String.ofList_toList]
  refine ⟨hvalue, ?_⟩
  rw [Expr.of, Text.trim, (tight_interpolated raw).trimChars, String.ofList_toList, Expr.value,
    hvalue, Option.getD_some]

/-- Braces in every arrangement and characters of several bytes. The names in the holes are
only the beginnings of names in the store. -/
theorem evaluate?_interpolated_of_lacks_braces :
    let store := ((({} : Store).define "xs" (.number 5)).putObject "car" (.ofClass "Car")).putArray
      "ns" (.unset 1)
    let raw := "\x7d é \x7b\x7bx\x7d\x7d  \x7b n[0] \x7d\x7bx.r\x7d\x7b\x7d 🙂\x7b"
    lex (interpolated raw) = .ok [⟨.quoted .interpolated raw, ⟨0, 36⟩⟩] ∧
      (∀ name : String, name.toList <:+: raw.toList → store.Lacks name) ∧
      evaluate? store (interpolated raw) = some (.text raw) ∧
        (Expr.of (interpolated raw)).value store = .text raw := by
  intro store raw
  have hlex : lex (interpolated raw) = .ok [⟨.quoted .interpolated raw, ⟨0, 36⟩⟩] := by
    decide +kernel
  have hlacks : ∀ name : String, name.toList <:+: raw.toList → store.Lacks name := by
    intro name hname
    have hne (other : String) (hother : ¬other.toList <:+: raw.toList) : other ≠ name := by
      rintro rfl
      exact hother hname
    have hempty : ({} : Store).Lacks name := ⟨rfl, rfl, rfl⟩
    constructor
    · simpa [store, hne "xs" (by decide)] using hempty.binding
    · simpa [store, hne "car" (by decide)] using hempty.object
    · simpa [store, hne "ns" (by decide)] using hempty.array
  exact ⟨hlex, hlacks, evaluate?_interpolated_of_lacks hlex hlacks⟩

end SnippetConsole
