import Mathlib.Data.List.DropRight
import SnippetConsole.Text.Lines

/-!
# Trimming, words and lines

* `trimChars_around` — trimming stops at the first and the last character of a
  text that starts and ends in no blank.
* `words_of_head` — the first word is what stands before the first blank.
* `rawLines_intercalate` — texts without newlines, joined by newlines, are lines.
-/

namespace SnippetConsole.Text

/-! ## Trimming -/

theorem of_mem_head?_dropWhile {α : Type} {p : α → Bool} {xs : List α} :
    ∀ x ∈ (xs.dropWhile p).head?, p x = false := by
  intro x hx
  have := List.head?_dropWhile_not p xs
  rw [Option.mem_def.1 hx] at this
  exact this

theorem dropEndWhile_eq {α : Type} (p : α → Bool) (xs : List α) :
    dropEndWhile p xs = xs.rdropWhile p := rfl

/-- What is left after trimming is a part of the text. -/
theorem trimChars_isInfix (cs : List Char) : trimChars cs <:+: cs := by
  rw [trimChars, dropEndWhile_eq]
  exact (List.rdropWhile_prefix _ _).isInfix.trans (List.dropWhile_suffix _).isInfix

/-- The text starts and ends in characters that are not blank. -/
structure Tight (cs : List Char) : Prop where
  head : ∃ c, cs.head? = some c ∧ isBlank c = false
  getLast : ∃ c, cs.getLast? = some c ∧ isBlank c = false

theorem Tight.reverse {cs : List Char} (h : Tight cs) : Tight cs.reverse := by
  obtain ⟨c, hc, hcb⟩ := h.head
  obtain ⟨d, hd, hdb⟩ := h.getLast
  exact ⟨⟨d, by simp [hd], hdb⟩, ⟨c, by simp [hc], hcb⟩⟩

theorem Tight.dropWhile_append {body : List Char} (h : Tight body) (lead trail : List Char) :
    (lead ++ (body ++ trail)).dropWhile isBlank = lead.dropWhile isBlank ++ (body ++ trail) := by
  obtain ⟨c, hc, hcb⟩ := h.head
  obtain ⟨cs, rfl⟩ := List.head?_eq_some_iff.1 hc
  rw [List.dropWhile_append]
  split
  · next hnil =>
    rw [List.isEmpty_iff.1 hnil, List.cons_append, List.dropWhile_cons_of_neg (by simp [hcb])]
    rfl
  · rfl

theorem Tight.dropEndWhile_append {body : List Char} (h : Tight body) (lead trail : List Char) :
    dropEndWhile isBlank (lead ++ body ++ trail) =
      lead ++ body ++ dropEndWhile isBlank trail := by
  have hreverse : (lead ++ body ++ trail).reverse =
      trail.reverse ++ (body.reverse ++ lead.reverse) := by simp
  rw [dropEndWhile, hreverse, h.reverse.dropWhile_append]
  simp [dropEndWhile]

theorem Tight.trimChars_around {body : List Char} (h : Tight body) (lead trail : List Char) :
    trimChars (lead ++ body ++ trail) =
      lead.dropWhile isBlank ++ body ++ dropEndWhile isBlank trail := by
  rw [trimChars, List.append_assoc, h.dropWhile_append, ← List.append_assoc,
    h.dropEndWhile_append]

theorem Tight.trimChars {body : List Char} (h : Tight body) : trimChars body = body := by
  simpa [dropEndWhile] using h.trimChars_around [] []

/-! ## Cutting -/

theorem head?_cut (p : Char → Bool) (cs : List Char) :
    (cut p cs).head? = some (cs.takeWhile (!p ·)) := by
  induction cs with
  | nil => rfl
  | cons c cs ih =>
    rw [cut_cons]
    cases hc : p c with
    | true => simp [hc]
    | false =>
      obtain ⟨pieces, hp⟩ := List.head?_eq_some_iff.1 ih
      simp [hp, hc]

theorem cut_eq_singleton {p : Char → Bool} {cs : List Char} (h : ∀ c ∈ cs, p c = false) :
    cut p cs = [cs] := by
  induction cs with
  | nil => rfl
  | cons c cs ih =>
    rw [cut_cons, ih fun d hd => h d (List.mem_cons_of_mem c hd), h c List.mem_cons_self]
    rfl

/-- A piece has no character at which the text is cut. -/
theorem not_of_mem_cut {p : Char → Bool} {cs piece : List Char} (h : piece ∈ cut p cs) {c : Char}
    (hc : c ∈ piece) : p c = false := by
  induction cs generalizing piece with
  | nil =>
    obtain rfl := List.mem_singleton.1 h
    cases hc
  | cons d cs ih =>
    rw [cut_cons] at h
    split at h
    · rcases List.mem_cons.1 h with rfl | h
      · cases hc
      · exact ih h hc
    · next hd =>
      obtain ⟨first, rest, hcut⟩ := List.exists_cons_of_ne_nil (cut_ne_nil p cs)
      rw [hcut] at h ih
      rw [List.modifyHead_cons] at h
      rcases List.mem_cons.1 h with rfl | h
      · rcases List.mem_cons.1 hc with rfl | hc
        · exact Bool.eq_false_iff.2 hd
        · exact ih List.mem_cons_self hc
      · exact ih (List.mem_cons_of_mem _ h) hc

/-- The first word of a text that does not start in a blank. -/
def firstWord (cs : List Char) : String := String.ofList (cs.takeWhile (!isBlank ·))

theorem words_of_head {cs : List Char} (h : ∃ c, cs.head? = some c ∧ isBlank c = false) :
    ∃ ws, words (String.ofList cs) = firstWord cs :: ws := by
  obtain ⟨c, hc, hblank⟩ := h
  obtain ⟨ds, rfl⟩ := List.head?_eq_some_iff.1 hc
  obtain ⟨pieces, hp⟩ := List.head?_eq_some_iff.1 (head?_cut isBlank (c :: ds))
  rw [words, String.toList_ofList, hp, List.filter_cons_of_pos (by simp [hblank])]
  exact ⟨_, rfl⟩

/-! ## Lines -/

theorem rawLines_eq_singleton {text : String} (h : '\n' ∉ text.toList) :
    rawLines text = [text.toList] := by
  refine cut_eq_singleton fun c hc => ?_
  rw [beq_eq_false_iff_ne]
  rintro rfl
  exact h hc

theorem newline_not_mem_of_mem_lines {source : String} {line : Line} (h : line ∈ lines source) :
    '\n' ∉ line.text.toList := by
  obtain ⟨⟨cs, n⟩, hmem, rfl⟩ := List.mem_map.1 h
  rw [String.toList_ofList]
  intro hnewline
  have hcs := (trimChars_isInfix cs).subset hnewline
  have hpiece := List.mem_of_mem_take (List.fst_mem_of_mem_zipIdx hmem)
  exact absurd (not_of_mem_cut hpiece hcs) (by decide)

theorem rawLines_intercalate {texts : List String} (hne : texts ≠ [])
    (h : ∀ text ∈ texts, '\n' ∉ text.toList) :
    rawLines ("\n".intercalate texts) = texts.map String.toList := by
  induction texts with
  | nil => exact absurd rfl hne
  | cons text texts ih =>
    have hline := rawLines_eq_singleton (h text List.mem_cons_self)
    cases texts with
    | nil => rw [String.intercalate_singleton, hline, List.map_singleton]
    | cons next texts =>
      rw [String.intercalate_cons_cons, rawLines_append, hline,
        ih (List.cons_ne_nil next texts) fun t ht => h t (List.mem_cons_of_mem text ht)]
      rfl

theorem numbered_forall₂ (first : Nat) (raw : List (List Char)) :
    List.Forall₂ (fun line cs => line.text = String.ofList (trimChars cs)) (numbered first raw)
      raw := by
  induction raw generalizing first with
  | nil => exact .nil
  | cons cs raw ih => exact .cons rfl (ih (first + 1))

end SnippetConsole.Text
