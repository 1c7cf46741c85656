import SnippetConsole.Json.Library
import SnippetConsole.Proofs.Json.Trees

/-!
# What is asked of a library

Whoever writes and reads JSON is asked for four things: it writes JSON text, it reads JSON
text, it reads a finite number back from the text written for it, and it reads records and
choices as they are declared. The library of this project does all but the third, for its
reading of numbers rounds more than once.

* `Library.Writes`, `Library.Reads`, `Library.RestoresNumbers`, `Library.ReadsDeclared` —
  what is asked.
* `Library.writes_own`, `Library.reads_own`, `Library.readsDeclared_own` — the own library.
* `Library.tree?_of_written` — a tree is read back from both texts that are written for it.
-/

namespace SnippetConsole.Json

/-- A value without brackets. -/
def isPlain : Json → Bool
  | .array _ | .object _ => false
  | _ => true

/-- No brackets stand within brackets. -/
def IsFlat : Json → Prop
  | .array items => ∀ item ∈ items, item.isPlain = true
  | .object members => ∀ m ∈ members, m.2.isPlain = true
  | _ => True

theorem isFlat_of_isPlain {json : Json} (h : json.isPlain = true) : json.IsFlat := by
  cases json with
  | null | bool | number | string => trivial
  | array | object => cases h

namespace Library

/-- The library writes JSON text: strings with their escapes, finite doubles as numbers,
and for a tree that has a text one of its texts. -/
structure Writes (lib : Library) : Prop where
  escaped : ∀ text, lib.escaped text = String.ofList (escape text.toList)
  number : ∀ x, x.isFinite = true → NumeralText (lib.number x).toList
  compact : ∀ json cs, Written json cs → Written json (lib.compact json).toList
  indented : ∀ json cs, Written json cs → Written json (lib.indented json).toList

/-- The library reads JSON text: every text of a tree, and what stands between quotes. It
may bound how deep brackets are nested, so it is asked for flat trees only. -/
structure Reads (lib : Library) : Prop where
  tree : ∀ json text, json.IsFlat → Written json text.toList → lib.tree? text = some json
  text : ∀ raw, RawText raw.toList → lib.text? raw = (unescape? raw.toList).map String.ofList

/-- The library reads a finite double back from the number that it writes for it. -/
def RestoresNumbers (lib : Library) : Prop :=
  ∀ x, x.isFinite = true → lib.double? (lib.number x) = some x

/-- The library reads what is declared: the members of a record, where each is one of its
fields and none appears twice, and a choice by the first of its forms that fits. -/
structure ReadsDeclared (lib : Library) : Prop where
  fields : ∀ names members, (∀ name ∈ members.map Prod.fst, escape name.toList = name.toList) →
    (∀ name ∈ members.map Prod.fst, name ∈ names) → (members.map Prod.fst).Nodup →
      lib.fields? names (.object members) = some members
  firstOf : ∀ {α : Type} (forms : List (Json → Option α)) json,
    lib.firstOf? forms json = forms.findSome? (· json)

/-! ## The own library -/

theorem writes_own : own.Writes where
  escaped _ := rfl
  number _ := numeralText_write layout
  compact json _ h := by
    show Written json (toText json).toList
    rw [toText, String.toList_ofList]
    exact h.compact
  indented json _ h := by
    show Written json (toLines json).toList
    rw [toLines, String.toList_ofList]
    exact h.indented 0

theorem reads_own : own.Reads where
  tree json text _ h := by
    show ofText? text = some json
    rw [← text.ofList_toList]
    exact ofText?_of_written h
  text _ _ := rfl

theorem fields?_object {names : List String} {members : List (String × Json)}
    (hplain : ∀ name ∈ members.map Prod.fst, escape name.toList = name.toList)
    (hknown : ∀ name ∈ members.map Prod.fst, name ∈ names)
    (hnodup : (members.map Prod.fst).Nodup) :
    (Json.object members).fields? names = some members := by
  have hread : (members.mapM fun m =>
      (unescape? m.1.toList).map fun name => (String.ofList name, m.2)) = some members := by
    clear hknown hnodup
    induction members with
    | nil => rfl
    | cons m members ih =>
      obtain ⟨hm, hplain⟩ := List.forall_mem_cons.1 hplain
      have hread := unescape?_escape m.1.toList
      rw [hm] at hread
      simp [List.mapM_cons, hread, ih hplain]
  have hfilter : members.filter (·.1 ∈ names) = members :=
    List.filter_eq_self.2 fun m hm => decide_eq_true (hknown _ (List.mem_map_of_mem hm))
  have hfields : (Json.object members).fields? names =
      (members.mapM fun m =>
        (unescape? m.1.toList).map fun name => (String.ofList name, m.2)).bind fun members =>
          if ((members.filter (·.1 ∈ names)).map Prod.fst).Nodup then
            some (members.filter (·.1 ∈ names))
          else none := rfl
  rw [hfields, hread, Option.bind_some, hfilter, if_pos hnodup]

theorem readsDeclared_own : own.ReadsDeclared where
  fields _ _ := fields?_object
  firstOf _ _ := rfl

/-- With as many as seventeen digits a double may come back as one of its neighbours. -/
example : own.double? (own.number 503.2) = some 503.2 ∧
    own.double? (own.number 0.12345600000000001) ≠ some 0.12345600000000001 := by decide +kernel

/-! ## Writing and reading -/

variable {lib : Library} (hwrites : lib.Writes)
include hwrites

theorem written_ofString (text : String) :
    Written (lib.ofString text) (lib.ofString text).compact := by
  rw [ofString, Json.compact, hwrites.escaped]
  exact .string (by rw [String.toList_ofList]; exact rawText_escape _)

theorem written_ofFloat {x : Float} (h : x.isFinite = true) :
    Written (lib.ofFloat x) (lib.ofFloat x).compact := by
  rw [ofFloat, Json.compact]
  exact .number (hwrites.number x h)

variable (hreads : lib.Reads)
include hreads

theorem string?_ofString (text : String) : lib.string? (lib.ofString text) = some text := by
  rw [ofString, string?, hwrites.escaped, hreads.text _ (by simpa using rawText_escape _)]
  simp [unescape?_escape]

/-- A tree is read back from both texts that are written for it. -/
theorem tree?_of_written {json : Json} {cs : List Char} (hflat : json.IsFlat)
    (h : Written json cs) {text : String} (htext : text ∈ [lib.compact json, lib.indented json]) :
    lib.tree? text = some json := by
  refine hreads.tree json text hflat ?_
  simp only [List.mem_cons, List.not_mem_nil, or_false] at htext
  rcases htext with rfl | rfl
  · exact hwrites.compact json cs h
  · exact hwrites.indented json cs h

end Library

end SnippetConsole.Json
