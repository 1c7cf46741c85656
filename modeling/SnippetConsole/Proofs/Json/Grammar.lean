import SnippetConsole.Json.Reading
import SnippetConsole.Json.Writing
import SnippetConsole.Proofs.Json.Numbers
import SnippetConsole.Proofs.Json.Quoted

/-!
# Texts of a tree

A tree has many texts, which differ in the blanks around their tokens. The relation
`Written` says which they are. Reading does not look at blanks and finds the tree of
every such text; the blanks behind it may be left over. The room that a reader is given
bounds how deep values are nested, so a room above the length of the text is enough.

* `Written` — the trees with their texts.
* `value_append` — the tree of a text is read, up to blanks at the end of the text.
* `ofText?_of_written` — the same for a text on its own.
-/

namespace SnippetConsole.Json

/-! ## Blanks -/

def Blanks (cs : List Char) : Prop := ∀ c ∈ cs, isBlank c = true

theorem blanks_nil : Blanks [] := fun _ hc => absurd hc List.not_mem_nil

theorem skipBlanks_append {blanks : List Char} (h : Blanks blanks) (cs : List Char) :
    skipBlanks (blanks ++ cs) = skipBlanks cs :=
  List.dropWhile_append_of_pos h

theorem skipBlanks_cons {c : Char} (h : isBlank c = false) (cs : List Char) :
    skipBlanks (c :: cs) = c :: cs := by
  rw [skipBlanks, List.dropWhile_cons_of_neg (by simp [h])]

/-! ## The grammar -/

/-- Texts with a comma before each but the first. -/
def separated : List (List Char) → List Char
  | [] => []
  | text :: texts => text ++ texts.flatMap (',' :: ·)

theorem length_separated (texts : List (List Char)) :
    (separated texts).length = texts.flatten.length + (texts.length - 1) := by
  have hmore (texts : List (List Char)) :
      (texts.flatMap (',' :: ·)).length = texts.flatten.length + texts.length := by
    induction texts with
    | nil => rfl
    | cons text texts ih =>
      rw [List.flatMap_cons, List.length_append, ih, List.flatten_cons, List.length_append,
        List.length_cons, List.length_cons]
      omega
  cases texts with
  | nil => rfl
  | cons text texts =>
    rw [separated, List.length_append, hmore, List.flatten_cons, List.length_append,
      List.length_cons]
    omega

theorem length_le_of_mem {text : List Char} {texts : List (List Char)} (h : text ∈ texts) :
    text.length ≤ (separated texts).length := by
  rw [length_separated]
  exact (List.sublist_flatten_of_mem h).length_le.trans (Nat.le_add_right _ _)

theorem length_le_separated (texts : List (List Char)) :
    texts.length ≤ (separated texts).length + 1 := by
  rw [length_separated]
  omega

/-- A member of an object with its text: blanks, the name, blanks again, a colon and the
text of the value. -/
structure MemberText where
  before : List Char
  name : String
  between : List Char
  value : Json
  text : List Char

namespace MemberText

def member (m : MemberText) : String × Json := (m.name, m.value)

def chars (m : MemberText) : List Char :=
  m.before ++ (inQuotes m.name ++ (m.between ++ ':' :: m.text))

/-- What stands in front of the value may stand there. -/
structure Plain (m : MemberText) : Prop where
  before : Blanks m.before
  name : RawText m.name.toList
  between : Blanks m.between

end MemberText

/-- The texts of a tree, blanks around it included. -/
inductive Written : Json → List Char → Prop
  | blank {c : Char} {json : Json} {cs : List Char} (hc : isBlank c = true)
      (h : Written json cs) : Written json (c :: cs)
  | behind {c : Char} {json : Json} {cs : List Char} (hc : isBlank c = true)
      (h : Written json cs) : Written json (cs ++ [c])
  | null : Written .null ['n', 'u', 'l', 'l']
  | yes : Written (.bool true) ['t', 'r', 'u', 'e']
  | no : Written (.bool false) ['f', 'a', 'l', 's', 'e']
  | number {text : String} (h : NumeralText text.toList) : Written (.number text) text.toList
  | string {text : String} (h : RawText text.toList) : Written (.string text) (inQuotes text)
  | array {items : List (Json × List Char)} {blanks : List Char}
      (hitems : ∀ item ∈ items, Written item.1 item.2) (hblanks : Blanks blanks) :
      Written (.array (items.map Prod.fst))
        ('[' :: (separated (items.map Prod.snd) ++ (blanks ++ [']'])))
  | object {members : List MemberText} {blanks : List Char}
      (hplain : ∀ m ∈ members, m.Plain)
      (hvalues : ∀ m ∈ members, Written m.value m.text) (hblanks : Blanks blanks) :
      Written (.object (members.map MemberText.member))
        ('\x7b' :: (separated (members.map MemberText.chars) ++ (blanks ++ ['\x7d'])))

theorem Written.blanks {json : Json} {blanks cs : List Char} (hblanks : Blanks blanks)
    (h : Written json cs) : Written json (blanks ++ cs) := by
  induction blanks with
  | nil => exact h
  | cons c blanks ih =>
    obtain ⟨hc, hblanks⟩ := List.forall_mem_cons.1 hblanks
    exact .blank hc (ih hblanks)

/-! ## Items -/

/-- A text that a reader reads up to blanks at its end, and that no closing bracket
starts. -/
structure ReadAs {α : Type} (item : Reader α) (a : α) (cs : List Char) : Prop where
  read : ∃ left, Blanks left ∧
    ∀ rest, EndsNumeral rest → item (cs ++ rest) = some (a, left ++ rest)
  start : ∃ c tail, (∀ rest, skipBlanks (cs ++ rest) = c :: (tail ++ rest)) ∧ c ∉ [']', '\x7d']

theorem endsNumeral_blank {c : Char} (hc : isBlank c = true) (rest : List Char) :
    EndsNumeral (c :: rest) := by
  simp only [isBlank, Bool.or_eq_true, decide_eq_true_eq] at hc
  rcases hc with ((rfl | rfl) | rfl) | rfl <;>
    exact endsNumeral_cons (by decide) (by decide) rest

/-- Blanks in front of a comma or a closing bracket are passed over. -/
theorem moreItems_blanks {α : Type} (item : Reader α) (close : Char) (room : Nat)
    {left : List Char} (hleft : Blanks left) (cs : List Char) :
    moreItems item close room (left ++ cs) = moreItems item close room cs := by
  cases room with
  | zero => rfl
  | succ room => rw [moreItems, moreItems, skipBlanks_append hleft]

section

variable {α : Type} {item : Reader α} {close : Char} (hclose : close ∈ [']', '\x7d'])
  {blanks : List Char} (hblanks : Blanks blanks)
include hclose hblanks

theorem endsNumeral_close (rest : List Char) : EndsNumeral (blanks ++ close :: rest) := by
  cases blanks with
  | nil =>
    simp only [List.mem_cons, List.not_mem_nil, or_false] at hclose
    rcases hclose with rfl | rfl <;> exact endsNumeral_cons (by decide) (by decide) rest
  | cons c blanks => exact endsNumeral_blank (hblanks c List.mem_cons_self) _

theorem skipBlanks_close (rest : List Char) :
    skipBlanks (blanks ++ close :: rest) = close :: rest := by
  rw [skipBlanks_append hblanks, skipBlanks_cons]
  simp only [List.mem_cons, List.not_mem_nil, or_false] at hclose
  rcases hclose with rfl | rfl <;> rfl

theorem endsNumeral_more (texts : List (List Char)) (rest : List Char) :
    EndsNumeral (texts.flatMap (',' :: ·) ++ (blanks ++ close :: rest)) := by
  cases texts with
  | nil => exact endsNumeral_close hclose hblanks rest
  | cons => exact endsNumeral_cons (by decide) (by decide) _

section

-- the items of a list, with what each is read as and its text
variable {ι : Type} {list : List ι} {result : ι → α} {text : ι → List Char}
  (h : ∀ i ∈ list, ReadAs item (result i) (text i)) {room : Nat}
include h

theorem moreItems_append (hroom : list.length < room) (rest : List Char) :
    moreItems item close room ((list.map text).flatMap (',' :: ·) ++ (blanks ++ close :: rest)) =
      some (list.map result, rest) := by
  induction list generalizing room with
  | nil =>
    obtain ⟨room, rfl⟩ := Nat.exists_eq_add_one_of_ne_zero (Nat.ne_of_gt hroom)
    rw [List.map_nil, List.flatMap_nil, List.nil_append, moreItems,
      skipBlanks_close hclose hblanks]
    simp
  | cons i list ih =>
    obtain ⟨room, rfl⟩ := Nat.exists_eq_add_one_of_ne_zero (Nat.ne_of_gt (Nat.zero_lt_of_lt hroom))
    obtain ⟨hi, hlist⟩ := List.forall_mem_cons.1 h
    have hcomma : ',' ≠ close := by
      rintro rfl
      exact absurd hclose (by decide)
    obtain ⟨left, hleft, hread⟩ := hi.read
    have hfirst := hread _ (endsNumeral_more hclose hblanks (list.map text) rest)
    have hmore := ih hlist (Nat.lt_of_succ_lt_succ hroom)
    rw [List.map_cons, List.flatMap_cons, List.cons_append, List.cons_append, List.append_assoc,
      moreItems, skipBlanks_cons rfl]
    simp [hcomma, hfirst, moreItems_blanks item close room hleft, hmore]

theorem items_append (hroom : list.length ≤ room) (rest : List Char) :
    items item close room (separated (list.map text) ++ (blanks ++ close :: rest)) =
      some (list.map result, rest) := by
  cases list with
  | nil =>
    rw [List.map_nil, separated, List.nil_append, items, skipBlanks_close hclose hblanks]
    simp
  | cons i list =>
    obtain ⟨hi, hlist⟩ := List.forall_mem_cons.1 h
    obtain ⟨c, tail, hstart, hc⟩ := hi.start
    have hne : c ≠ close := by
      rintro rfl
      exact hc hclose
    obtain ⟨left, hleft, hread⟩ := hi.read
    have hfirst := hread _ (endsNumeral_more hclose hblanks (list.map text) rest)
    have hmore := moreItems_append hclose hblanks hlist hroom rest
    rw [List.map_cons, separated, List.append_assoc, items, hstart]
    simp [hne, hfirst, moreItems_blanks item close room hleft, hmore]

end

end

theorem readAs_member {item : Reader Json} {m : MemberText} (hplain : m.Plain)
    (h : ReadAs item m.value m.text) : ReadAs (namedItem item) m.member m.chars := by
  have hstart (rest : List Char) : skipBlanks (m.chars ++ rest) =
      '"' :: (m.name.toList ++ '"' :: (m.between ++ ':' :: m.text) ++ rest) := by
    rw [MemberText.chars, List.append_assoc, skipBlanks_append hplain.before, inQuotes,
      List.cons_append, List.cons_append, List.cons_append, skipBlanks_cons rfl]
    simp
  have hcolon (rest : List Char) : skipBlanks (m.between ++ ':' :: rest) = ':' :: rest := by
    rw [skipBlanks_append hplain.between, skipBlanks_cons rfl]
  obtain ⟨left, hleft, hread⟩ := h.read
  refine ⟨⟨left, hleft, fun rest hrest => ?_⟩, ⟨_, _, hstart, by decide⟩⟩
  rw [namedItem, hstart]
  simp [raw_append hplain.name, hcolon, hread rest hrest, MemberText.member]

/-! ## Values -/

/-- The first character of a number. -/
theorem exists_cons_of_numeralText {cs : List Char} (h : NumeralText cs) :
    ∃ c tail, cs = c :: tail ∧ (c = '-' ∨ c.isDigit = true) := by
  obtain @⟨sign, whole, fraction, power, hsign, hwhole, -, -⟩ := h
  obtain ⟨c, ds, rfl⟩ := List.exists_cons_of_ne_nil hwhole.ne_nil
  simp only [List.mem_cons, List.not_mem_nil, or_false] at hsign
  rcases hsign with rfl | rfl
  · exact ⟨c, _, rfl, .inr (hwhole.isDigit c List.mem_cons_self)⟩
  · exact ⟨'-', _, rfl, .inl rfl⟩

section

variable {c : Char} (hc : c = '-' ∨ c.isDigit = true)
include hc

theorem ne_of_starts_number {d : Char} (hd : ¬(d = '-' ∨ d.isDigit = true)) : c ≠ d := by
  rintro rfl
  exact hd hc

theorem isBlank_of_starts_number : isBlank c = false := by
  simp only [isBlank, Bool.or_eq_false_iff, decide_eq_false_iff_not]
  refine ⟨⟨⟨?_, ?_⟩, ?_⟩, ?_⟩ <;> exact ne_of_starts_number hc (by decide)

/-- What starts like a number is no other kind of value. -/
theorem value_eq_numberText (room : Nat) (cs : List Char) :
    value (room + 1) (c :: cs) = numberText (c :: cs) := by
  rw [value, skipBlanks_cons (isBlank_of_starts_number hc)]
  split
  case h_7 => rfl
  all_goals
    next heq => exact absurd (List.cons.inj heq).1 (ne_of_starts_number hc (by decide))

end

theorem numberText_append {text : String} (h : NumeralText text.toList) {rest : List Char}
    (hrest : EndsNumeral rest) : numberText (text.toList ++ rest) = some (.number text, rest) := by
  obtain ⟨n, hn⟩ := numeral?_append h hrest
  simp [numberText, hn]

theorem Written.start {json : Json} {cs : List Char} (h : Written json cs) :
    ∃ c tail, (∀ rest, skipBlanks (cs ++ rest) = c :: (tail ++ rest)) ∧ c ∉ [']', '\x7d'] := by
  induction h with
  | @blank c json cs hc _ ih =>
    obtain ⟨d, tail, hd, hmem⟩ := ih
    refine ⟨d, tail, fun rest => ?_, hmem⟩
    rw [← hd, List.cons_append, skipBlanks, List.dropWhile_cons_of_pos hc, skipBlanks]
  | @behind c json cs _ _ ih =>
    obtain ⟨d, tail, hd, hmem⟩ := ih
    exact ⟨d, tail ++ [c], fun rest => by simpa using hd (c :: rest), hmem⟩
  | null => exact ⟨'n', _, fun _ => skipBlanks_cons rfl _, by decide⟩
  | yes => exact ⟨'t', _, fun _ => skipBlanks_cons rfl _, by decide⟩
  | no => exact ⟨'f', _, fun _ => skipBlanks_cons rfl _, by decide⟩
  | number h =>
    obtain ⟨c, tail, heq, hc⟩ := exists_cons_of_numeralText h
    refine ⟨c, tail, fun rest => ?_, ?_⟩
    · rw [heq, List.cons_append, skipBlanks_cons (isBlank_of_starts_number hc)]
    · simp [ne_of_starts_number hc]
  | string => exact ⟨'"', _, fun _ => skipBlanks_cons rfl _, by decide⟩
  | array => exact ⟨'[', _, fun _ => skipBlanks_cons rfl _, by decide⟩
  | object => exact ⟨'\x7b', _, fun _ => skipBlanks_cons rfl _, by decide⟩

/-- The tree of a text is read, up to blanks at the end of the text, in any room above its
length. -/
theorem value_append {json : Json} {cs : List Char} (h : Written json cs) {room : Nat}
    (hroom : cs.length < room) :
    ∃ left, Blanks left ∧
      ∀ rest, EndsNumeral rest → value room (cs ++ rest) = some (json, left ++ rest) := by
  obtain ⟨room, rfl⟩ := Nat.exists_eq_add_one_of_ne_zero (Nat.ne_of_gt (Nat.zero_lt_of_lt hroom))
  induction h generalizing room with
  | @blank c json cs hc h ih =>
    obtain ⟨left, hleft, hread⟩ := ih _ (Nat.lt_of_succ_lt hroom)
    refine ⟨left, hleft, fun rest hrest => ?_⟩
    rw [← hread rest hrest, List.cons_append, value, value, skipBlanks,
      List.dropWhile_cons_of_pos hc, ← skipBlanks]
  | @behind c json cs hc h ih =>
    rw [List.length_append] at hroom
    obtain ⟨left, hleft, hread⟩ := ih _ (Nat.lt_of_succ_lt hroom)
    refine ⟨left ++ [c], List.forall_mem_append.2 ⟨hleft, List.forall_mem_singleton.2 hc⟩, ?_⟩
    intro rest _
    simpa using hread (c :: rest) (endsNumeral_blank hc rest)
  | null => exact ⟨[], blanks_nil, fun rest _ => by rw [value]; rfl⟩
  | yes => exact ⟨[], blanks_nil, fun rest _ => by rw [value]; rfl⟩
  | no => exact ⟨[], blanks_nil, fun rest _ => by rw [value]; rfl⟩
  | number h =>
    obtain ⟨c, tail, heq, hc⟩ := exists_cons_of_numeralText h
    refine ⟨[], blanks_nil, fun rest hrest => ?_⟩
    rw [heq, List.cons_append, value_eq_numberText hc, ← List.cons_append, ← heq]
    exact numberText_append h hrest
  | string h =>
    refine ⟨[], blanks_nil, fun rest _ => ?_⟩
    rw [value, inQuotes, List.append_assoc, List.cons_append, skipBlanks_cons rfl]
    simp [raw_append h]
  | @array items blanks hitems hblanks ih =>
    have hlength := length_le_separated (items.map Prod.snd)
    simp only [List.length_cons, List.length_append, List.length_map] at hroom hlength
    -- an item is shorter than the list by two brackets, and has one room less
    have hitem : ∀ item ∈ items, ReadAs (value room) item.1 item.2 := by
      intro item hmem
      have hle := length_le_of_mem (List.mem_map_of_mem (f := Prod.snd) hmem)
      obtain ⟨room, rfl⟩ := Nat.exists_eq_add_one_of_ne_zero (n := room) (by omega)
      exact ⟨ih item hmem room (by omega), (hitems item hmem).start⟩
    refine ⟨[], blanks_nil, fun rest _ => ?_⟩
    rw [List.cons_append, value, skipBlanks_cons rfl]
    simp only [List.append_assoc, List.singleton_append]
    rw [items_append (by decide) hblanks hitem]
    · rfl
    · rw [List.length_append, List.length_append, List.length_cons]
      omega
  | @object members blanks hplain hvalues hblanks ih =>
    have hlength := length_le_separated (members.map MemberText.chars)
    simp only [List.length_cons, List.length_append, List.length_map] at hroom hlength
    have hmember : ∀ m ∈ members, ReadAs (namedItem (value room)) m.member m.chars := by
      intro m hmem
      have hle := length_le_of_mem (List.mem_map_of_mem (f := MemberText.chars) hmem)
      rw [MemberText.chars, List.length_append, List.length_append, List.length_append,
        List.length_cons] at hle
      obtain ⟨room, rfl⟩ := Nat.exists_eq_add_one_of_ne_zero (n := room) (by omega)
      exact readAs_member (hplain m hmem) ⟨ih m hmem room (by omega), (hvalues m hmem).start⟩
    refine ⟨[], blanks_nil, fun rest _ => ?_⟩
    rw [List.cons_append, value, skipBlanks_cons rfl]
    simp only [List.append_assoc, List.singleton_append]
    rw [items_append (by decide) hblanks hmember]
    · rfl
    · rw [List.length_append, List.length_append, List.length_cons]
      omega

theorem ofText?_of_written {json : Json} {cs : List Char} (h : Written json cs) :
    ofText? (String.ofList cs) = some json := by
  obtain ⟨left, hleft, hread⟩ := value_append h (Nat.lt_succ_self cs.length)
  have hvalue := hread [] endsNumeral_nil
  rw [List.append_nil, List.append_nil] at hvalue
  have hend : skipBlanks left = [] := List.dropWhile_eq_nil_iff.2 hleft
  simp only [ofText?, String.toList_ofList, hvalue, hend, if_true]

end SnippetConsole.Json
