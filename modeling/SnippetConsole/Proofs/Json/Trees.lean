import SnippetConsole.Proofs.Json.Grammar

/-!
# The texts that the writers make

Both writers put a comma in front of every item but the first; they differ in the
blanks alone. So a tree that has a text at all, one whose numbers and strings are well
formed, has these two texts among its own and is read back from them.

* `Written.compact`, `Written.indented` — what the writers make is a text of the tree.
* `ofText?_toText` — a tree is read back from both.
-/

namespace SnippetConsole.Json

/-! ## Items and members -/

theorem compactItems_eq (items : List Json) :
    compactItems items = (items.map compact).flatMap (',' :: ·) := by
  induction items with
  | nil => rfl
  | cons item items ih => rw [compactItems, ih]; simp

theorem compact_array (items : List Json) :
    compact (.array items) = '[' :: (separated (items.map compact) ++ [']']) := by
  cases items with
  | nil => rfl
  | cons item items => rw [compact, compactItems_eq]; simp [separated]

theorem compactMembers_eq (members : List (String × Json)) :
    compactMembers members =
      (members.map fun m => inQuotes m.1 ++ ':' :: compact m.2).flatMap (',' :: ·) := by
  induction members with
  | nil => rfl
  | cons m members ih => rw [compactMembers, ih]; simp

theorem compact_object (members : List (String × Json)) :
    compact (.object members) =
      '\x7b' :: (separated (members.map fun m => inQuotes m.1 ++ ':' :: compact m.2) ++
        ['\x7d']) := by
  cases members with
  | nil => rfl
  | cons m members => rw [compact, compactMembers_eq]; simp [separated]

theorem indentedItems_eq (depth : Nat) (items : List Json) :
    indentedItems depth items =
      (items.map fun item => newLine depth ++ indented depth item).flatMap (',' :: ·) := by
  induction items with
  | nil => rfl
  | cons item items ih => rw [indentedItems, ih]; simp

theorem indentedMembers_eq (depth : Nat) (members : List (String × Json)) :
    indentedMembers depth members =
      (members.map fun m =>
        newLine depth ++ (inQuotes m.1 ++ ':' :: ' ' :: indented depth m.2)).flatMap
          (',' :: ·) := by
  induction members with
  | nil => rfl
  | cons m members ih => rw [indentedMembers, ih]; simp

theorem indented_array (depth : Nat) {items : List Json} (h : items ≠ []) :
    indented depth (.array items) =
      '[' :: (separated (items.map fun item => newLine (depth + 1) ++ indented (depth + 1) item) ++
        (newLine depth ++ [']'])) := by
  obtain ⟨item, items, rfl⟩ := List.exists_cons_of_ne_nil h
  rw [indented, indentedItems_eq]
  simp [separated]

theorem indented_object (depth : Nat) {members : List (String × Json)} (h : members ≠ []) :
    indented depth (.object members) =
      '\x7b' :: (separated (members.map fun m =>
          newLine (depth + 1) ++ (inQuotes m.1 ++ ':' :: ' ' :: indented (depth + 1) m.2)) ++
        (newLine depth ++ ['\x7d'])) := by
  obtain ⟨m, members, rfl⟩ := List.exists_cons_of_ne_nil h
  rw [indented, indentedMembers_eq]
  simp [separated]

/-! ## Texts of the tree -/

theorem blanks_newLine (depth : Nat) : Blanks (newLine depth) := by
  intro c hc
  rcases List.mem_cons.1 hc with rfl | hc
  · rfl
  · obtain rfl := List.eq_of_mem_replicate hc
    rfl

section

variable (text : Json → List Char) {blanks : List Char} (hblanks : Blanks blanks)
include hblanks

theorem written_array {items : List Json} (h : ∀ item ∈ items, Written item (text item)) :
    Written (.array items) ('[' :: (separated (items.map text) ++ (blanks ++ [']']))) := by
  let texts := items.map fun item => (item, text item)
  have htexts : ∀ t ∈ texts, Written t.1 t.2 := List.forall_mem_map.2 h
  simpa [texts, Function.comp_def] using Written.array htexts hblanks

theorem written_object {before : List Char} (hbefore : Blanks before)
    {members : List (String × Json)} (hnames : ∀ m ∈ members, RawText m.1.toList)
    (hvalues : ∀ m ∈ members, Written m.2 (text m.2)) :
    Written (.object members)
      ('\x7b' :: (separated (members.map fun m => before ++ (inQuotes m.1 ++ ':' :: text m.2)) ++
        (blanks ++ ['\x7d']))) := by
  let texts := members.map fun m => MemberText.mk before m.1 [] m.2 (text m.2)
  have htexts : ∀ t ∈ texts, t.Plain :=
    List.forall_mem_map.2 fun m hm => ⟨hbefore, hnames m hm, blanks_nil⟩
  have hvalues : ∀ t ∈ texts, Written t.value t.text := List.forall_mem_map.2 hvalues
  simpa [texts, Function.comp_def, MemberText.member, MemberText.chars] using
    Written.object htexts hvalues hblanks

end

theorem written_compact_object {members : List (String × Json)}
    (hnames : ∀ m ∈ members, RawText m.1.toList)
    (hvalues : ∀ m ∈ members, Written m.2 m.2.compact) :
    Written (.object members) (compact (.object members)) := by
  rw [compact_object]
  simpa only [List.nil_append] using
    written_object Json.compact blanks_nil blanks_nil hnames hvalues

theorem Written.compact {json : Json} {cs : List Char} (h : Written json cs) :
    Written json json.compact := by
  induction h with
  | blank _ _ ih | behind _ _ ih => exact ih
  | null => exact .null
  | yes => exact .yes
  | no => exact .no
  | number h => rw [Json.compact]; exact .number h
  | string h => rw [Json.compact]; exact .string h
  | array _ _ ih =>
    rw [compact_array]
    exact written_array Json.compact blanks_nil (List.forall_mem_map.2 ih)
  | object hplain _ _ ih =>
    exact written_compact_object (List.forall_mem_map.2 fun m hm => (hplain m hm).name)
      (List.forall_mem_map.2 ih)

theorem Written.indented {json : Json} {cs : List Char} (h : Written json cs) (depth : Nat) :
    Written json (json.indented depth) := by
  induction h generalizing depth with
  | blank _ _ ih | behind _ _ ih => exact ih depth
  | null => exact .null
  | yes => exact .yes
  | no => exact .no
  | number h => exact .number h
  | string h => exact .string h
  | @array items blanks hitems hblanks ih =>
    -- nothing is indented between the brackets of an empty list
    rcases eq_or_ne items [] with rfl | hne
    · exact (Written.array hitems hblanks).compact
    · rw [indented_array depth (by simpa using hne)]
      refine written_array _ (blanks_newLine depth) (List.forall_mem_map.2 fun item hitem => ?_)
      exact .blanks (blanks_newLine _) (ih item hitem _)
  | @object members blanks hplain hvalues hblanks ih =>
    rcases eq_or_ne members [] with rfl | hne
    · exact (Written.object hplain hvalues hblanks).compact
    · rw [indented_object depth (by simpa using hne)]
      have hitems : ∀ m ∈ members.map MemberText.member,
          Written m.2 (' ' :: m.2.indented (depth + 1)) :=
        List.forall_mem_map.2 fun m hm => .blank rfl (ih m hm (depth + 1))
      exact written_object (fun item => ' ' :: item.indented (depth + 1)) (blanks_newLine depth)
        (blanks_newLine _)
        (List.forall_mem_map.2 fun m hm => (hplain m hm).name) hitems

/-- A tree with a text is read back from both texts that are written for it. -/
theorem ofText?_toText {json : Json} {cs : List Char} (h : Written json cs) :
    ofText? json.toText = some json ∧ ofText? json.toLines = some json :=
  ⟨ofText?_of_written h.compact, ofText?_of_written (h.indented 0)⟩

end SnippetConsole.Json
