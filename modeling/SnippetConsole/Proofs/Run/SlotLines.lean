import SnippetConsole.Proofs.Decimal.Whole
import SnippetConsole.Proofs.Expr.SlotText
import SnippetConsole.Proofs.Run.Literals

/-!
# Lines that print a slot

A line that prints a slot with a literal number is recognized as such if the number is
an index. Otherwise it prints an expression, and an expression without a value prints
its own text.

* `SlotText.classify_callTokens` — which statement the line holds.
* `Machine.execute_print_slot` — a slot is printed alike as a slot, as an expression and
  in braces.
* `Progress.runLine_slotLine_iff` — up to which index a slot that does not exist is
  silent.
* `Progress.not_silent_of_greatest` — the next index prints the text of the slot.
-/

namespace SnippetConsole

open Text Lexer

/-- The line that prints a slot. -/
def slotLine (array index : String) : String :=
  "Console.WriteLine(" ++ slotText array index ++ ");"

namespace SlotText

variable (s : SlotText)

/-! ## Reading the line -/

/-- The call that prints the slot. -/
def call : String := "Console.WriteLine(" ++ s.text ++ ")"

/-- What stands before the slot. -/
def opening : List Char := "Console.WriteLine(".toList

theorem opening_eq : opening = "Console.WriteLine".toList ++ ['('] := by decide

-- with literals in place of the variables the same rewriting would unfold them
theorem toList_between (before text after : String) :
    (before ++ text ++ after).toList = before.toList ++ (text.toList ++ after.toList) := by
  simp only [String.toList_append, List.append_assoc]

theorem toList_call : s.call.toList = opening ++ (s.text.toList ++ [')']) := by
  have hend : ")".toList = [')'] := by decide
  have h : s.call.toList = opening ++ (s.text.toList ++ ")".toList) := toList_between _ _ _
  rwa [hend] at h

theorem slotLine_eq : slotLine s.array s.index = s.call ++ ";" := by
  have hend : ");".toList = [')', ';'] := by decide
  have hsemicolon : ";".toList = [';'] := by decide
  have h : (slotLine s.array s.index).toList = opening ++ (s.text.toList ++ ");".toList) :=
    toList_between _ _ _
  rw [← String.toList_inj, h, String.toList_append, toList_call, hend, hsemicolon]
  simp only [List.append_assoc, List.singleton_append]

/-- The tokens of the call. -/
def callTokens : List Token :=
  let last := 18 + byteCount s.text.toList
  [⟨.word "Console", ⟨0, 7⟩⟩, ⟨.dot, ⟨7, 8⟩⟩, ⟨.word "WriteLine", ⟨8, 17⟩⟩,
    ⟨.opening .round, ⟨17, 18⟩⟩] ++
    (s.tokens.map (Token.shift 18) ++ [⟨.closing .round, ⟨last, last + 1⟩⟩])

theorem reads_call : Reads [] 0 s.callTokens s.call.toList := by
  have hlex : SnippetConsole.lex "Console.WriteLine" = .ok [⟨.word "Console", ⟨0, 7⟩⟩,
      ⟨.dot, ⟨7, 8⟩⟩, ⟨.word "WriteLine", ⟨8, 17⟩⟩] := by cbv
  have hbytes : byteCount "Console.WriteLine".toList = 17 := by decide
  have hwriter := (reads_of_lex hlex hbytes.symm).concat_mark (by decide : '(' ∈ marks)
    (fun _ => rfl) ((s.text.toList ++ [')']) ++ [])
  have hslot := (s.reads.shift 18).concat_mark (by decide : ')' ∈ marks) (fun _ => rfl) []
  rw [Nat.zero_add, hbytes] at hwriter
  rw [Nat.zero_add] at hslot
  rw [toList_call, opening_eq]
  have hstart : 0 + byteCount ("Console.WriteLine".toList ++ ['(']) = 18 := by decide
  have hall := hwriter.append_of_eq hstart hslot
  exact hall

theorem lex_call : SnippetConsole.lex s.call = .ok s.callTokens := by
  have h := s.reads_call.lex
  rwa [String.ofList_toList] at h

/-! ## Its statement -/

/-- The slot, if the number is an index, and else the text as an expression. -/
def statement : Statement :=
  match index? s.number with
  | some i => .printSlot s.array i
  | none => .print (some ⟨s.text⟩)

theorem expr_text : Expr.of s.text = ⟨s.text⟩ := by
  rw [Expr.of, trim, s.tight.trimChars, String.ofList_toList]

theorem sourceText_slot : sourceText s.call (s.tokens.map (Token.shift 18)) = s.text := by
  have hbytes : byteCount opening = 18 := by decide
  have h := Reads.sourceText_moved s.reads rfl opening [')']
  rwa [List.append_assoc, ← toList_call, hbytes, String.ofList_toList, String.ofList_toList] at h

theorem classify_callTokens : classify s.call s.callTokens = s.statement := by
  have hargument : Shape.argument? s.call (s.tokens.map (Token.shift 18)) = some s.statement := by
    have hslot : Shape.slot? (s.tokens.map (Token.shift 18)) =
        (index? s.number).map (.printSlot s.array) := rfl
    have hexpr : Shape.expr? s.call (s.tokens.map (Token.shift 18)) = some ⟨s.text⟩ := by
      show some (Expr.of (sourceText s.call (s.tokens.map (Token.shift 18)))) = _
      rw [sourceText_slot, expr_text]
    rw [Shape.argument?, hslot, hexpr, statement]
    cases index? s.number <;> rfl
  have hprint : Shape.print? s.call (dropSemicolons s.callTokens) = some s.statement := by
    have hname : "Console" = "Console" ∧ "WriteLine" ∈ consoleWriters := ⟨rfl, by decide⟩
    show (if "Console" = "Console" ∧ "WriteLine" ∈ consoleWriters then
      Shape.argument? s.call (s.tokens.map (Token.shift 18)) else none) = _
    rw [if_pos hname, hargument]
  rw [classify, Shape.recognizers, List.findSome?_cons, hprint]
  rfl

theorem recognized_statement : s.statement.recognized = true := by
  rw [statement]
  cases index? s.number <;> rfl

theorem sourceText_callTokens : sourceText s.call s.callTokens = s.call := by
  have h := s.reads_call.sourceText_eq rfl
  rwa [String.ofList_toList] at h

theorem call_ne_empty : s.call ≠ "" := by
  intro h
  have hlist := congrArg String.toList h
  rw [toList_call] at hlist
  simp at hlist

theorem newline_not_mem_call : '\n' ∉ s.call.toList := by
  have hopening : '\n' ∉ opening := by decide
  have htext : '\n' ∉ s.text.toList := s.not_mem (by decide) (by decide)
  simp [toList_call, hopening, htext]

theorem isNoise_call : isNoise (s.call ++ ";") = false := by
  have hopening : opening = 'C' :: "onsole.WriteLine(".toList := by decide
  have hend : ";".toList = [';'] := by decide
  have hcall : s.call ++ ";" = String.ofList ('C' :: ("onsole.WriteLine(".toList ++
      (s.text.toList ++ [')']) ++ [';'])) := by
    rw [← String.toList_inj, String.toList_append, hend, toList_call, String.toList_ofList,
      hopening, List.cons_append, List.cons_append]
  rw [hcall]
  exact isNoise_of_head (by decide) (by decide) (by decide)

theorem kind_ne_semicolon : ∀ t ∈ s.callTokens, t.kind ≠ .semicolon := by
  simp [callTokens, tokens, indexToken]

theorem bare_callTokens : ∀ t ∈ s.callTokens.head?, t.isBrace = false := by
  simp [callTokens, Token.isBrace]

/-- The call as a statement text. -/
def statementText : StatementText where
  text := s.call
  tokens := s.callTokens
  lex := s.lex_call
  whole := s.sourceText_callTokens
  ne_empty := s.call_ne_empty
  oneLine := s.newline_not_mem_call
  balanced := rfl
  solid := height_ne_zero_of_forall s.kind_ne_semicolon
  bare := s.bare_callTokens
  visible := s.isNoise_call

theorem holds (number : Nat) : (⟨number, slotLine s.array s.index⟩ : Line).Holds s.statement := by
  have hrecognized : (classify s.call s.callTokens).recognized = true := by
    rw [classify_callTokens, recognized_statement]
  have h := @StatementText.holds s.statementText ⟨number, _⟩ s.slotLine_eq hrecognized
  rwa [show classify s.statementText.text s.statementText.tokens = s.statement from
    s.classify_callTokens] at h

/-- The line is the statement, as a whole and as its only part. -/
theorem exists_lex_line : ∃ ts, SnippetConsole.lex (slotLine s.array s.index) = .ok ts ∧
    classify (slotLine s.array s.index) ts = s.statement ∧
    (statementRuns ts).map (classify (slotLine s.array s.index)) = [s.statement] := by
  obtain ⟨ts, hts, hwhole, hruns, hpart⟩ := s.statementText.exists_lex_line
  have hstatement : classify s.statementText.text s.statementText.tokens = s.statement :=
    s.classify_callTokens
  rw [hstatement] at hwhole hpart
  rw [slotLine_eq]
  refine ⟨ts, hts, hwhole, ?_⟩
  rw [hruns]
  exact congrArg (fun statement => [statement]) hpart

end SlotText

/-! ## A slot that exists -/

/-- An expression with a value prints the text of the value. -/
theorem Statement.effect_print {limits : Limits} {store : Store} {expr : Expr} {v : Value}
    (h : evaluate? store expr.text = some v) :
    Statement.effect limits store (.print (some expr)) = .ok (.print v.shown) := by
  rw [effect, Expr.value, h]
  rfl

namespace Machine

variable {m : Machine} {array index : String} {span : Span} {x : Float} {slots : Slots}
  {i : Nat} {content : Option Value}

/-- A slot is printed alike as a slot, as an expression, and in the braces of an
interpolated string; a slot that is not set is printed as `null`. The line that prints it
is recognized as printing the slot. -/
theorem execute_print_slot (hexec : m.executed < m.limits.statements)
    (hroom : m.console.lines.size < m.console.capacity)
    (harray : lex array = .ok [⟨.word array, span⟩])
    (hslots : m.store.array? array = some slots) (hcontent : slots.slots[i]? = some content)
    (hindex : lex index = .ok [⟨.number x, ⟨0, byteCount index.toList⟩⟩])
    (hx : index? x = some i) :
    let shown := (content.map Value.shown).getD "null"
    m.execute (.printSlot array i) = (m.printed [shown], none) ∧
      m.execute (.print (some (.of (slotText array index)))) = (m.printed [shown], none) ∧
      m.execute (.print (some (.of (interpolated (placeholder (slotText array index)))))) =
        (m.printed [shown], none) ∧
      ∃ ts, lex (slotLine array index) = .ok ts ∧
        classify (slotLine array index) ts = .printSlot array i ∧
        (statementRuns ts).map (classify (slotLine array index)) = [.printSlot array i] := by
  intro shown
  obtain ⟨s, rfl, rfl, rfl⟩ : ∃ s : SlotText, s.array = array ∧ s.index = index ∧ s.number = x :=
    ⟨⟨array, index, x, ⟨span, harray⟩, hindex⟩, rfl, rfl, rfl⟩
  have hread : slots.read? i = some (content.getD (.text unsetText)) := by
    rw [Slots.read?, hcontent]
    rfl
  have hvalue : s.value? m.store = some (content.getD (.text unsetText)) := by
    rw [SlotText.value?, hslots, Option.bind_some, hx, Option.bind_some, hread]
  have hshown : (content.getD (.text unsetText)).shown = shown := by
    cases content <;> rfl
  refine ⟨execute_of_print hexec hroom ?_, execute_of_print hexec hroom ?_,
    execute_of_print hexec hroom ?_, ?_⟩
  · -- a slot is read without its text
    rw [Statement.effect, hslots, Option.bind_some, hread, ← hshown]
    rfl
  · have heval : evaluate? m.store (Expr.of s.text).text =
        some (content.getD (.text unsetText)) := by
      rw [s.expr_text, s.evaluate?_text, hvalue]
    rw [← hshown]
    exact Statement.effect_print heval
  · -- the text of the value is filled in, and not read for braces again
    have heval : evaluate? m.store (Expr.of (interpolated (placeholder s.text))).text =
        some (.text shown) := by
      rw [Expr.of, trim, (tight_interpolated _).trimChars, String.ofList_toList,
        s.evaluate?_interpolated hvalue, hshown]
    exact Statement.effect_print heval
  · have h := s.exists_lex_line
    rwa [SlotText.statement, hx] at h

/-- A slot that holds braces, with an index that is written as a fraction. -/
theorem execute_print_slot_braces :
    let slots : Slots := ⟨#[none, some (.text "\x7bx\x7d")]⟩
    let m : Machine := { Machine.new {} with store := Store.putArray {} "a" slots }
    m.executed < m.limits.statements ∧ m.console.lines.size < m.console.capacity ∧
      m.store.array? "a" = some slots ∧ index? 1 = some 1 ∧
      m.execute (.print (some (.of (interpolated (placeholder (slotText "a" "1.0f")))))) =
        (m.printed ["\x7bx\x7d"], none) := by
  intro slots m
  have hcontent : slots.slots[1]? = some (some (.text "\x7bx\x7d")) := rfl
  have hexec : m.executed < m.limits.statements := by decide
  have hroom : m.console.lines.size < m.console.capacity := by decide
  have harray : lex "a" = .ok [⟨.word "a", ⟨0, 1⟩⟩] := by decide +kernel
  have hslots : m.store.array? "a" = some slots := by decide +kernel
  have hindex : lex "1.0f" = .ok [⟨.number 1, ⟨0, byteCount "1.0f".toList⟩⟩] := by
    decide +kernel
  have hx : index? 1 = some 1 := by decide +kernel
  exact ⟨hexec, hroom, hslots, hx,
    (execute_print_slot hexec hroom harray hslots hcontent hindex hx).2.2.1⟩

end Machine

/-! ## A slot that does not exist -/

/-- Digits are read as one number. -/
theorem lex_digits {ds : String} (h : Decimal.Digits ds.toList) :
    lex ds = .ok [⟨.number (Decimal.ofDigits ds.toList []), ⟨0, byteCount ds.toList⟩⟩] := by
  obtain ⟨c, cs, hcs⟩ := List.exists_cons_of_ne_nil h.ne_nil
  have hc : c.isDigit = true := h.isDigit c (by simp [hcs])
  obtain ⟨htake, hdrop⟩ := @Decimal.span_digits ds.toList [] h (by simp)
  rw [List.append_nil, hcs] at htake hdrop
  have hstarts : Starts (c :: (cs ++ [])) := by
    refine starts_cons_iff.2 ⟨isBlank_of_continuesWord (continuesWord_of_isDigit hc), ?_⟩
    rintro rfl
    exact absurd hc (by decide)
  have hnumber : lexeme c (cs ++ []) =
      .ok ⟨.number (Decimal.ofDigits (c :: cs) []), c :: cs, []⟩ := by
    rw [List.append_nil, lexeme_of_isDigit hc, Lexer.number, htake, hdrop]
    simp [fraction, suffix]
  have h := (Reads.lexeme hstarts hnumber 0).lex
  rw [← hcs, Nat.zero_add, String.ofList_toList] at h
  exact h

/-- The slot of a name and digits. -/
def SlotText.ofDigits (array ds : String)
    (harray : ∃ span, SnippetConsole.lex array = .ok [⟨.word array, span⟩])
    (hds : Decimal.Digits ds.toList) : SlotText where
  array := array
  index := ds
  number := Decimal.ofDigits ds.toList []
  array_lex := harray
  index_lex := lex_digits hds

theorem Machine.printed_ne_tick (m : Machine) (line : String) : m.printed [line] ≠ m.tick := by
  intro h
  have hlines := congrArg (fun m => m.console.lines.size) h
  simp [printed, tick] at hlines

namespace Progress

variable {p : Progress}

/-- With an index that the array does not have, the line is counted. -/
theorem runLine_slot_of_index (s : SlotText) {i : Nat}
    (hexec : p.machine.executed < p.machine.limits.statements) (hindex : index? s.number = some i)
    (hbeyond : ∀ slots, p.machine.store.array? s.array = some slots → slots.size ≤ i)
    (number : Nat) :
    p.runLine ⟨number, slotLine s.array s.index⟩ = .ok { p with machine := p.machine.tick } := by
  have hread : (p.machine.store.array? s.array).bind (·.read? i) = none := by
    rw [Option.bind_eq_none_iff]
    intro slots hslots
    rw [Slots.read?, Array.getElem?_eq_none (hbeyond slots hslots)]
    rfl
  have hline := s.holds number
  rw [SlotText.statement, hindex] at hline
  refine runLine_of_holds hline (Machine.Step.idle hexec ?_).execute
  show Except.ok (Effect.ofLine? (((p.machine.store.array? s.array).bind
    (·.read? i)).map Value.shown)) = _
  rw [hread]
  rfl

/-- With a number that is no index, the line prints the text of the slot. -/
theorem runLine_slot_of_not_index (s : SlotText)
    (hexec : p.machine.executed < p.machine.limits.statements)
    (hroom : p.machine.console.lines.size < p.machine.console.capacity)
    (hindex : index? s.number = none) (number : Nat) :
    p.runLine ⟨number, slotLine s.array s.index⟩ =
      .ok { p with machine := p.machine.printed [s.text] } := by
  have hvalue : evaluate? p.machine.store s.text = none := by
    rw [s.evaluate?_text, SlotText.value?, hindex]
    cases p.machine.store.array? s.array <;> rfl
  have hline := s.holds number
  rw [SlotText.statement, hindex] at hline
  refine runLine_of_holds hline (Machine.execute_of_print hexec hroom ?_)
  rw [Statement.effect, Expr.value, hvalue]
  rfl

/-- Beyond the greatest index the line prints the text of the slot, whatever the array is. -/
theorem runLine_slotLine_of_lt {array ds : String} {span : Span}
    (hexec : p.machine.executed < p.machine.limits.statements)
    (hroom : p.machine.console.lines.size < p.machine.console.capacity)
    (harray : lex array = .ok [⟨.word array, span⟩]) (hds : Decimal.Digits ds.toList)
    (hlt : greatestIndex < Decimal.natOfDigits ds.toList) (number : Nat) :
    p.runLine ⟨number, slotLine array ds⟩ =
      .ok { p with machine := p.machine.printed [slotText array ds] } := by
  refine runLine_slot_of_not_index (.ofDigits array ds ⟨span, harray⟩ hds) hexec hroom ?_ number
  show index? (Decimal.ofDigits ds.toList []) = none
  rw [Decimal.index?_ofDigits, if_neg (Nat.not_le_of_lt hlt)]

/-- A line that prints a slot that does not exist is silent exactly up to the greatest
index. Beyond that it prints the text of the slot. -/
theorem runLine_slotLine_iff {array ds : String} {span : Span}
    (hexec : p.machine.executed < p.machine.limits.statements)
    (hroom : p.machine.console.lines.size < p.machine.console.capacity)
    (harray : lex array = .ok [⟨.word array, span⟩]) (hds : Decimal.Digits ds.toList)
    (hbeyond : ∀ slots, p.machine.store.array? array = some slots →
      slots.size ≤ Decimal.natOfDigits ds.toList) (number : Nat) :
    (p.runLine ⟨number, slotLine array ds⟩ = .ok { p with machine := p.machine.tick } ↔
        Decimal.natOfDigits ds.toList ≤ greatestIndex) ∧
      (greatestIndex < Decimal.natOfDigits ds.toList →
        p.runLine ⟨number, slotLine array ds⟩ =
          .ok { p with machine := p.machine.printed [slotText array ds] }) := by
  refine ⟨⟨fun h => ?_, fun hle => ?_⟩,
    fun hlt => runLine_slotLine_of_lt hexec hroom harray hds hlt number⟩
  · by_contra hgt
    rw [runLine_slotLine_of_lt hexec hroom harray hds (Nat.lt_of_not_le hgt)] at h
    exact Machine.printed_ne_tick _ _ (congrArg (fun p => p.machine) (Except.ok.inj h))
  · refine runLine_slot_of_index (.ofDigits array ds ⟨span, harray⟩ hds) hexec ?_ hbeyond number
    show index? (Decimal.ofDigits ds.toList []) = _
    rw [Decimal.index?_ofDigits, if_pos hle]

/-- A fifth slot of an array with three. -/
theorem runLine_slotLine_iff_four :
    let p : Progress := ⟨{ Machine.new {} with store := Store.putArray {} "a" (.unset 3) }, #[]⟩
    p.machine.executed < p.machine.limits.statements ∧
      p.machine.console.lines.size < p.machine.console.capacity ∧
      p.machine.store.array? "a" = some (.unset 3) ∧ Decimal.natOfDigits "4".toList = 4 ∧
      p.runLine ⟨2, "Console.WriteLine(a[4]);"⟩ = .ok { p with machine := p.machine.tick } := by
  intro p
  have hexec : p.machine.executed < p.machine.limits.statements := by decide
  have hroom : p.machine.console.lines.size < p.machine.console.capacity := by decide
  have harray : lex "a" = .ok [⟨.word "a", ⟨0, 1⟩⟩] := by decide +kernel
  have hslots : p.machine.store.array? "a" = some (.unset 3) := by decide +kernel
  have hds : Decimal.Digits "4".toList :=
    ⟨by decide, List.all_iff_forall_prop.1 (by decide)⟩
  have hfour : Decimal.natOfDigits "4".toList = 4 := by decide
  have hbeyond : ∀ slots, p.machine.store.array? "a" = some slots →
      slots.size ≤ Decimal.natOfDigits "4".toList := by
    rintro slots h
    obtain rfl := Option.some.inj (hslots.symm.trans h)
    decide
  have hle : Decimal.natOfDigits "4".toList ≤ greatestIndex := by decide
  exact ⟨hexec, hroom, hslots, hfour,
    (runLine_slotLine_iff hexec hroom harray hds hbeyond 2).1.2 hle⟩

/-- A slot of an array with three that is not silent. -/
theorem not_silent_of_greatest :
    let p : Progress := ⟨{ Machine.new {} with store := Store.putArray {} "a" (.unset 3) }, #[]⟩
    p.machine.executed < p.machine.limits.statements ∧
      p.machine.console.lines.size < p.machine.console.capacity ∧
      p.machine.store.array? "a" = some (.unset 3) ∧ 3 ≤ 4294967296 ∧
      p.machine.printed ["a[4294967296]"] ≠ p.machine.tick ∧
      p.runLine ⟨2, "Console.WriteLine(a[4294967296]);"⟩ =
        .ok { p with machine := p.machine.printed ["a[4294967296]"] } := by
  intro p
  have hexec : p.machine.executed < p.machine.limits.statements := by decide
  have hroom : p.machine.console.lines.size < p.machine.console.capacity := by decide
  have harray : lex "a" = .ok [⟨.word "a", ⟨0, 1⟩⟩] := by decide +kernel
  have hslots : p.machine.store.array? "a" = some (.unset 3) := by decide +kernel
  have hds : Decimal.Digits "4294967296".toList :=
    ⟨by decide, List.all_iff_forall_prop.1 (by decide)⟩
  have hlt : greatestIndex < Decimal.natOfDigits "4294967296".toList := by decide
  exact ⟨hexec, hroom, hslots, by decide, Machine.printed_ne_tick _ _,
    runLine_slotLine_of_lt hexec hroom harray hds hlt 2⟩

end Progress

end SnippetConsole
