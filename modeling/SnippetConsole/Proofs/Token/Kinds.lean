import Mathlib.Data.List.Infix
import SnippetConsole.Proofs.Text.Blank
import SnippetConsole.Token.Nesting

/-!
# Runs with the same kinds

The functions on brackets and separators look at kinds only. Two runs with the
same kinds are written `xs.map f` and `xs.map g`, so that the parts found in one
and the parts found in the other are the images of the same parts of `xs`.

* `untilClosed_map`, `splitAtTop_map` — both runs are cut at the same places.
-/

namespace SnippetConsole

variable {α : Type} {f g : α → Token} {xs : List α}

/-- The two functions give tokens of the same kind. -/
def SameKinds (f g : α → Token) (xs : List α) : Prop := ∀ x ∈ xs, (f x).kind = (g x).kind

namespace SameKinds

theorem symm (h : SameKinds f g xs) : SameKinds g f xs := fun x hx => (h x hx).symm

theorem sublist {ys : List α} (h : SameKinds f g xs) (hs : ys.Sublist xs) : SameKinds f g ys :=
  fun x hx => h x (hs.subset hx)

theorem head {x : α} (h : SameKinds f g (x :: xs)) : (f x).kind = (g x).kind :=
  h x List.mem_cons_self

theorem tail {x : α} (h : SameKinds f g (x :: xs)) : SameKinds f g xs :=
  h.sublist (List.sublist_cons_self x xs)

end SameKinds

theorem balancedFrom_map (h : SameKinds f g xs) (depth : Int) :
    balancedFrom depth (xs.map g) = balancedFrom depth (xs.map f) := by
  induction xs generalizing depth with
  | nil => rfl
  | cons x xs ih => simp only [List.map_cons, balancedFrom, h.head, ih h.tail]

theorem balanced_map (h : SameKinds f g xs) : balanced (xs.map g) = balanced (xs.map f) :=
  balancedFrom_map h 0

/-! ## Brackets -/

theorem untilClosed_map (h : SameKinds f g xs) {depth : Int} {inside after : List Token}
    {closer : Token} (hu : untilClosed depth (xs.map f) = some (inside, closer, after)) :
    ∃ is x as, xs = is ++ x :: as ∧ is.map f = inside ∧ f x = closer ∧ as.map f = after ∧
      untilClosed depth (xs.map g) = some (is.map g, g x, as.map g) := by
  induction xs generalizing depth inside with
  | nil => cases hu
  | cons x xs ih =>
    -- from here on both runs are at the same depth
    simp only [List.map_cons, untilClosed, ← h.head] at hu ⊢
    by_cases hz : depth + (f x).kind.slope = 0
    · rw [if_pos hz] at hu ⊢
      simp only [Option.some.injEq, Prod.mk.injEq] at hu
      obtain ⟨rfl, rfl, rfl⟩ := hu
      exact ⟨[], x, xs, rfl, rfl, rfl, rfl, rfl⟩
    · by_cases hn : depth + (f x).kind.slope < 0
      · rw [if_neg hz, if_pos hn] at hu
        cases hu
      · rw [if_neg hz, if_neg hn] at hu ⊢
        obtain ⟨⟨i, c, a⟩, hu', he⟩ := Option.map_eq_some_iff.1 hu
        simp only [Prod.mk.injEq] at he
        obtain ⟨rfl, rfl, rfl⟩ := he
        obtain ⟨is, y, as, rfl, rfl, rfl, rfl, hg⟩ := ih h.tail hu'
        exact ⟨x :: is, y, as, rfl, rfl, rfl, rfl, by rw [hg]; rfl⟩

theorem bracketed?_map (h : SameKinds f g xs) {inside after : List Token}
    (hb : bracketed? (xs.map f) = some (inside, after)) :
    ∃ is as, is <:+: xs ∧ as <:+ xs ∧ is.map f = inside ∧ as.map f = after ∧
      bracketed? (xs.map g) = some (is.map g, as.map g) := by
  obtain ⟨⟨i, c, a⟩, hu, he⟩ := Option.map_eq_some_iff.1 hb
  simp only [Prod.mk.injEq] at he
  obtain ⟨rfl, rfl⟩ := he
  obtain ⟨is, x, as, rfl, rfl, rfl, rfl, hg⟩ := untilClosed_map h hu
  refine ⟨is, as, ?_, ?_, rfl, rfl, ?_⟩
  · exact ⟨[], x :: as, by simp⟩
  · exact ⟨is ++ [x], by simp⟩
  · rw [bracketed?, hg]
    rfl

theorem enclosed?_eq_some_iff {ts inside : List Token} :
    enclosed? ts = some inside ↔ bracketed? ts = some (inside, []) := by
  unfold enclosed?
  split
  · next h => simp [h]
  · next h =>
    constructor
    · intro he
      cases he
    · intro hb
      exact absurd hb (h inside)

theorem enclosed?_map (h : SameKinds f g xs) {inside : List Token}
    (he : enclosed? (xs.map f) = some inside) :
    ∃ is, is <:+: xs ∧ is.map f = inside ∧ enclosed? (xs.map g) = some (is.map g) := by
  obtain ⟨is, as, his, -, hi, ha, hb⟩ := bracketed?_map h (enclosed?_eq_some_iff.1 he)
  rw [List.map_eq_nil_iff.1 ha] at hb
  exact ⟨is, his, hi, enclosed?_eq_some_iff.2 hb⟩

/-! ## Separators -/

theorem splitFrom_map (h : SameKinds f g xs) (separator : Kind) (depth : Int) :
    ∃ part parts, part <+: xs ∧ (∀ p ∈ parts, p <:+: xs) ∧
      splitFrom separator depth (xs.map f) = (part :: parts).map (List.map f) ∧
      splitFrom separator depth (xs.map g) = (part :: parts).map (List.map g) := by
  induction xs generalizing depth with
  | nil => exact ⟨[], [], List.nil_prefix, by simp, rfl, rfl⟩
  | cons x xs ih =>
    simp only [List.map_cons, splitFrom, ← h.head]
    by_cases hs : depth = 0 ∧ (f x).kind = separator
    · obtain ⟨part, parts, hp, hps, hf, hg⟩ := ih h.tail depth
      refine ⟨[], part :: parts, List.nil_prefix, ?_, ?_, ?_⟩
      · intro p hmem
        rcases List.mem_cons.1 hmem with rfl | hmem
        · exact hp.isInfix.trans (List.suffix_cons x xs).isInfix
        · exact (hps p hmem).trans (List.suffix_cons x xs).isInfix
      · rw [if_pos hs, hf]
        rfl
      · rw [if_pos hs, hg]
        rfl
    · obtain ⟨part, parts, hp, hps, hf, hg⟩ := ih h.tail (depth + (f x).kind.slope)
      refine ⟨x :: part, parts, List.cons_prefix_cons.2 ⟨rfl, hp⟩, ?_, ?_, ?_⟩
      · intro p hmem
        exact (hps p hmem).trans (List.suffix_cons x xs).isInfix
      · rw [if_neg hs, hf]
        rfl
      · rw [if_neg hs, hg]
        rfl

theorem splitAtTop_map (h : SameKinds f g xs) (separator : Kind) :
    ∃ parts : List (List α), (∀ p ∈ parts, p <:+: xs) ∧
      splitAtTop separator (xs.map f) = parts.map (List.map f) ∧
      splitAtTop separator (xs.map g) = parts.map (List.map g) := by
  obtain ⟨part, parts, hp, hps, hf, hg⟩ := splitFrom_map h separator 0
  refine ⟨part :: parts, ?_, hf, hg⟩
  intro p hmem
  rcases List.mem_cons.1 hmem with rfl | hmem
  · exact hp.isInfix
  · exact hps p hmem

/-- The parts of a run are runs within it, and a change that keeps the kinds keeps
the places where it is cut. -/
theorem splitAtTop_run {h : Token → Token} (hh : ∀ t, (h t).kind = t.kind) (separator : Kind)
    (ts : List Token) :
    (∀ part ∈ splitAtTop separator ts, part <:+: ts) ∧
      splitAtTop separator (ts.map h) = (splitAtTop separator ts).map (List.map h) := by
  have hsame : SameKinds id h ts := fun t _ => (hh t).symm
  obtain ⟨parts, hparts, hid, hmap⟩ := splitAtTop_map hsame separator
  have hmapid : List.map (id : Token → Token) = id := funext List.map_id
  rw [hmapid, List.map_id, id_eq] at hid
  rw [hid]
  exact ⟨hparts, hmap⟩

/-! ## Ends of a run -/

theorem dropEndWhile_map (h : SameKinds f g xs) (p : Kind → Bool) :
    ∃ ys, ys <+: xs ∧ Text.dropEndWhile (fun t => p t.kind) (xs.map f) = ys.map f ∧
      Text.dropEndWhile (fun t => p t.kind) (xs.map g) = ys.map g := by
  simp only [Text.dropEndWhile_eq]
  -- induction from the end, where the tokens are dropped
  induction xs using List.reverseRecOn with
  | nil => exact ⟨[], List.nil_prefix, rfl, rfl⟩
  | append_singleton xs x ih =>
    have hx : (f x).kind = (g x).kind := h x (by simp)
    rw [List.map_append, List.map_append, List.map_singleton, List.map_singleton]
    by_cases hp : p (f x).kind = true
    · obtain ⟨ys, hys, hf, hg⟩ := ih (h.sublist (List.sublist_append_left xs [x]))
      refine ⟨ys, hys.trans (List.prefix_append xs [x]), ?_, ?_⟩
      · rw [List.rdropWhile_concat_pos (fun t : Token => p t.kind) _ _ hp, hf]
      · rw [hx] at hp
        rw [List.rdropWhile_concat_pos (fun t : Token => p t.kind) _ _ hp, hg]
    · refine ⟨xs ++ [x], List.prefix_refl _, ?_, ?_⟩
      · rw [List.rdropWhile_concat_neg (fun t : Token => p t.kind) _ _ hp, List.map_append,
          List.map_singleton]
      · rw [hx] at hp
        rw [List.rdropWhile_concat_neg (fun t : Token => p t.kind) _ _ hp, List.map_append,
          List.map_singleton]

end SnippetConsole
