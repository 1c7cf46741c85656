import SnippetConsole.Json.Values
import SnippetConsole.Outcome
import SnippetConsole.Proofs.Json.Library

/-!
# Reading back outcomes and values

An outcome is read back from its JSON text, compact or indented, with its output
and its error as they were, whatever characters are in them, and a value is read
back with its kind. Only a number rests on how the library reads and writes it: an
outcome or a value is the same again just when its number is.

* `Outcome.read?_eq_some_iff`, `Value.read?_eq_some_iff` — one outcome or value.
* `read?_eq_some` — all of them, by a library that restores numbers.
-/

namespace SnippetConsole

open Json (Library)

variable {lib : Library}

theorem Json.written_bool (b : Bool) : Written (.bool b) (compact (.bool b)) := by
  cases b with
  | true => exact .yes
  | false => exact .no

/-! ## Outcomes -/

namespace Outcome

variable (o : Outcome)

section

variable (lib : Library)

/-- The members of an outcome that are written. -/
def members : List (String × Json) :=
  [("success", .bool o.success), ("output", lib.ofString o.output)] ++
    (o.error.map fun e => ("error", lib.ofString e)).toList ++
    [("executionTimeMs", lib.ofFloat o.timeMs)]

theorem tree_eq : o.tree lib = .object (o.members lib) := by
  obtain ⟨success, output, error, timeMs⟩ := o
  cases error <;> rfl

theorem members_names : (o.members lib).map Prod.fst =
    if o.error.isSome then fieldNames else ["success", "output", "executionTimeMs"] := by
  obtain ⟨success, output, error, timeMs⟩ := o
  cases error <;> rfl

theorem escape_names :
    ∀ name ∈ (o.members lib).map Prod.fst, Json.escape name.toList = name.toList := by
  rw [members_names]
  split <;> decide

theorem isFlat_tree : (o.tree lib).IsFlat := by
  rw [tree_eq]
  obtain ⟨success, output, error, timeMs⟩ := o
  cases error <;> simp [Json.IsFlat, members, Json.isPlain, Library.ofString, Library.ofFloat]

theorem lookup_output : (o.members lib).lookup "output" = some (lib.ofString o.output) := rfl

theorem lookup_error : (o.members lib).lookup "error" = o.error.map lib.ofString := by
  obtain ⟨success, output, error, timeMs⟩ := o
  cases error <;> rfl

theorem lookup_timeMs :
    (o.members lib).lookup "executionTimeMs" = some (lib.ofFloat o.timeMs) := by
  obtain ⟨success, output, error, timeMs⟩ := o
  cases error <;> rfl

end

theorem fields?_tree (hdeclared : lib.ReadsDeclared) :
    lib.fields? fieldNames (o.tree lib) = some (o.members lib) := by
  rw [tree_eq]
  refine hdeclared.fields _ _ (o.escape_names lib) ?_ ?_ <;>
  · rw [members_names]
    split <;> decide

variable (hwrites : lib.Writes)
include hwrites

/-- A finite time is all that an outcome needs to be written as JSON. -/
theorem written_tree (h : o.timeMs.isFinite = true) :
    Json.Written (o.tree lib) (o.tree lib).compact := by
  rw [tree_eq]
  refine Json.written_compact_object ?_ ?_
  · intro m hm
    rw [← o.escape_names lib _ (List.mem_map_of_mem hm)]
    exact Json.rawText_escape _
  · obtain ⟨success, output, error, timeMs⟩ := o
    have hsuccess := Json.written_bool success
    have houtput := Library.written_ofString hwrites output
    have htime := Library.written_ofFloat hwrites h
    cases error with
    | none => simpa [members] using ⟨hsuccess, houtput, htime⟩
    | some e =>
      simpa [members] using ⟨hsuccess, houtput, Library.written_ofString hwrites e, htime⟩

variable (hreads : lib.Reads)
include hreads

/-- The error is absent just when there is none. -/
theorem error_members :
    Json.Fields.withDefault? (o.members lib) "error" (Json.nullable? lib.string?) none =
      some o.error := by
  rw [Json.Fields.withDefault?, lookup_error]
  cases o.error with
  | none => rfl
  | some e =>
    show (lib.string? (lib.ofString e)).map some = some (some e)
    rw [Library.string?_ofString hwrites hreads, Option.map_some]

variable (hdeclared : lib.ReadsDeclared)
include hdeclared

/-- The time is read back from its digits, and all else is the same. -/
theorem ofTree?_tree : ofTree? lib (o.tree lib) =
    (lib.double? (lib.number o.timeMs)).map fun t => { o with timeMs := t } := by
  have hsuccess : Json.Fields.required? (o.members lib) "success" Json.bool? =
      some o.success := rfl
  have houtput : Json.Fields.required? (o.members lib) "output" lib.string? =
      some o.output := by
    rw [Json.Fields.required?, lookup_output, Option.bind_some,
      Library.string?_ofString hwrites hreads]
  have htime : Json.Fields.required? (o.members lib) "executionTimeMs" lib.float? =
      lib.double? (lib.number o.timeMs) := by
    rw [Json.Fields.required?, lookup_timeMs, Option.bind_some]
    rfl
  rw [ofTree?, o.fields?_tree hdeclared]
  simp only [Option.bind_eq_bind, Option.bind_some, hsuccess, houtput,
    o.error_members hwrites hreads, htime, Option.pure_def, Option.map_eq_bind,
    Function.comp_def]

/-- An outcome is read back from either text just when its time is read back. -/
theorem read?_eq_some_iff (h : o.timeMs.isFinite = true) {text : String}
    (htext : text ∈ [lib.compact (o.tree lib), lib.indented (o.tree lib)]) :
    read? lib text = some o ↔ lib.double? (lib.number o.timeMs) = some o.timeMs := by
  have htree := Library.tree?_of_written hwrites hreads (o.isFlat_tree lib)
    (o.written_tree hwrites h) htext
  rw [read?, htree, Option.bind_some, o.ofTree?_tree hwrites hreads hdeclared]
  obtain ⟨success, output, error, timeMs⟩ := o
  simp [Option.map_eq_some_iff]

end Outcome

/-! ## Values -/

namespace Value

/-- Neither infinite nor what is not a number. -/
def IsFinite : Value → Prop
  | .number x => x.isFinite = true
  | .truth _ | .text _ => True

theorem isPlain_tree (lib : Library) (v : Value) : (v.tree lib).isPlain = true := by
  cases v <;> rfl

variable (hwrites : lib.Writes)
include hwrites

theorem written_tree {v : Value} (h : v.IsFinite) :
    Json.Written (v.tree lib) (v.tree lib).compact := by
  cases v with
  | number x => exact Library.written_ofFloat hwrites h
  | truth b => exact Json.written_bool b
  | text s => exact Library.written_ofString hwrites s

variable (hreads : lib.Reads) (hdeclared : lib.ReadsDeclared)
include hreads hdeclared

/-- The number comes first of the forms, but no other form looks like one. -/
theorem ofTree?_tree_iff (v : Value) : ofTree? lib (v.tree lib) = some v ↔
    ∀ x, v = .number x → lib.double? (lib.number x) = some x := by
  rw [ofTree?, hdeclared.firstOf]
  cases v with
  | number x =>
    cases hx : lib.double? (lib.number x) <;>
      simp [forms, tree, Library.ofFloat, Library.float?, Library.string?, Json.bool?, hx]
  | truth b => simp [forms, tree, Library.float?, Json.bool?]
  | text s =>
    have hs := Library.string?_ofString hwrites hreads s
    rw [Library.ofString] at hs
    simp [forms, tree, Library.ofString, Library.float?, Json.bool?, hs]

/-- A value is read back just when it is no number or its number is read back. -/
theorem read?_eq_some_iff {v : Value} (h : v.IsFinite) :
    read? lib (lib.compact (v.tree lib)) = some v ↔
      ∀ x, v = .number x → lib.double? (lib.number x) = some x := by
  have htree := Library.tree?_of_written hwrites hreads
    (Json.isFlat_of_isPlain (v.isPlain_tree lib)) (written_tree hwrites h) List.mem_cons_self
  rw [read?, htree, Option.bind_some, ofTree?_tree_iff hwrites hreads hdeclared]

end Value

/-- A library that writes and reads JSON text, restores finite numbers and reads what is
declared gives every outcome with a finite time and every finite value back as it was. -/
theorem read?_eq_some {lib : Library} (hwrites : lib.Writes) (hreads : lib.Reads)
    (hnumbers : lib.RestoresNumbers) (hdeclared : lib.ReadsDeclared) :
    (∀ o : Outcome, o.timeMs.isFinite = true →
      ∀ text ∈ [lib.compact (o.tree lib), lib.indented (o.tree lib)],
        Outcome.read? lib text = some o) ∧
    ∀ v : Value, v.IsFinite → Value.read? lib (lib.compact (v.tree lib)) = some v := by
  constructor
  · intro o ho text htext
    exact (o.read?_eq_some_iff hwrites hreads hdeclared ho htext).2 (hnumbers o.timeMs ho)
  · intro v hv
    refine (Value.read?_eq_some_iff hwrites hreads hdeclared hv).2 fun x hx => ?_
    subst hx
    exact hnumbers x hv

/-! ## A library that restores numbers -/

namespace Json.Library

open Float.Model Float.Model.UnpackedFloat in
instance (word : BitVec 64) : Decidable (Format.binary64.Valid word) :=
  decidable_of_iff
    (@unpackExponent Format.binary64 word = -1#_ →
      @unpackMantissa Format.binary64 word ≠ 0#_ → word = packedNaN Format.binary64)
    ⟨Format.Valid.mk, Format.Valid.eq_packedNaN⟩

/-- The double with the given bits, if there is one. -/
def ofWord? (n : Nat) : Option Float :=
  if h : Float.Model.Format.binary64.Valid n.toUInt64.toBitVec then some ⟨⟨n.toUInt64, h⟩⟩
  else none

theorem ofWord?_toBits (x : Float) : ofWord? x.toBits.toNat = some x := by
  have hword : x.toBits.toNat.toUInt64 = x.toBits := UInt64.ofNat_toNat
  rw [ofWord?, dif_pos (by rw [hword]; exact x.toModel.valid)]
  simp only [hword]
  rfl

/-- The text is nothing but digits. -/
def isWord (text : String) : Bool := text.toList.all Char.isDigit

/-- The own library, but a double that would come back from its digits as another one is
written by its bits, as a whole number. -/
def restoring : Library where
  __ := own
  number x :=
    if own.double? (own.number x) = some x ∧ isWord (own.number x) = false then own.number x
    else String.ofList (Decimal.digits x.toBits.toNat)
  double? text :=
    if isWord text then ofWord? (Nat.ofDigitChars 10 text.toList 0) else own.double? text

theorem number_restoring (x : Float) : restoring.number x =
    if own.double? (own.number x) = some x ∧ isWord (own.number x) = false then own.number x
    else String.ofList (Decimal.digits x.toBits.toNat) := by
  rw [restoring]

theorem double?_restoring (text : String) : restoring.double? text =
    if isWord text then ofWord? (Nat.ofDigitChars 10 text.toList 0) else own.double? text := by
  rw [restoring]

theorem restoresNumbers_restoring : restoring.RestoresNumbers := by
  intro x _
  rw [double?_restoring, number_restoring]
  split
  · next h => rw [h.2, if_neg Bool.false_ne_true, h.1]
  · have hword : isWord (String.ofList (Decimal.digits x.toBits.toNat)) = true := by
      rw [isWord, String.toList_ofList, List.all_eq_true]
      exact (digits_digits _).isDigit
    rw [if_pos hword, String.toList_ofList, Decimal.digits, Nat.ofDigitChars_ten_toDigits,
      ofWord?_toBits]

theorem whole_digits (n : Nat) : Whole (Decimal.digits n) := by
  refine ⟨digits_digits n, fun h => ?_⟩
  rcases Nat.eq_zero_or_pos n with rfl | hpos
  · rfl
  · exact absurd h (Decimal.head_digits hpos)

theorem writes_restoring : restoring.Writes where
  escaped := writes_own.escaped
  number x h := by
    rw [number_restoring]
    split
    · exact writes_own.number x h
    · rw [String.toList_ofList]
      simpa using NumeralText.mk List.mem_cons_self (whole_digits _) .none .none
  compact := writes_own.compact
  indented := writes_own.indented

theorem reads_restoring : restoring.Reads := ⟨reads_own.tree, reads_own.text⟩

theorem readsDeclared_restoring : restoring.ReadsDeclared :=
  ⟨readsDeclared_own.fields, readsDeclared_own.firstOf⟩

end Json.Library

/-- Characters that need escapes or lie beyond the basic plane, and texts that look
like other values. -/
theorem read?_eq_some_lookalikes :
    let lib := Library.restoring
    let o : Outcome := ⟨false, "\x00\x1f\\u0041\"\\/\n\t\x7fé\uffff😀", some "null", 503.2⟩
    o.timeMs.isFinite = true ∧ lib.compact (o.tree lib) = o.toJson.toText ∧
      Outcome.read? lib (lib.compact (o.tree lib)) = some o ∧
      Outcome.read? lib (lib.indented (o.tree lib)) = some o ∧
      ∀ v ∈ [Value.text "true", .truth true, .text "503.2", .number 503.2],
        v.IsFinite ∧ Value.read? lib (lib.compact (v.tree lib)) = some v := by
  intro lib o
  have hfinite : (503.2 : Float).isFinite = true := by decide +kernel
  have htext : lib.compact (o.tree lib) = o.toJson.toText := by decide +kernel
  obtain ⟨houtcomes, hvalues⟩ := read?_eq_some Library.writes_restoring Library.reads_restoring
    Library.restoresNumbers_restoring Library.readsDeclared_restoring
  refine ⟨hfinite, htext, houtcomes o hfinite _ List.mem_cons_self,
    houtcomes o hfinite _ (List.mem_cons_of_mem _ List.mem_cons_self), ?_⟩
  have hvalue (v : Value) (hv : v.IsFinite) :
      v.IsFinite ∧ Value.read? lib (lib.compact (v.tree lib)) = some v := ⟨hv, hvalues v hv⟩
  simp only [List.forall_mem_cons, List.not_mem_nil, false_imp_iff, implies_true, and_true]
  exact ⟨hvalue _ trivial, hvalue _ trivial, hvalue _ trivial, hvalue _ hfinite⟩

end SnippetConsole
