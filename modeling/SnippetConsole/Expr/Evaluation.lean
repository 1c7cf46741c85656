import SnippetConsole.Arith.Reading
import SnippetConsole.Expr.Pieces
import SnippetConsole.Expr.Reference
import SnippetConsole.Statement.Basic
import SnippetConsole.Store.Basic
import SnippetConsole.Token.Lexer

/-!
# Evaluating expressions

An expression is resolved by the first rule that applies to its tokens:

* a literal in quotes or a truth value;
* an interpolated string;
* a reference to a bound name, a field of an object or a slot of an array;
* arithmetic over numbers and references to numbers;
* the values of its parts between `+` signs, joined from left to right.

Resolving a run of tokens costs one step, and resolving an index or a part goes
one level deeper. An expression that runs out of steps or levels has no value,
like one to which no rule applies; it then stands for its own source text.
-/

namespace SnippetConsole

/-- The steps that one expression may take. -/
def stepBudget : Nat := 4096

/-- A computation that may fail and that counts steps, also when it fails. -/
abbrev Attempt := OptionT (StateM Nat)

namespace Attempt

/-- What is already known to succeed or fail, at no cost. -/
def ofOption {α : Type} (a : Option α) : Attempt α := OptionT.mk (pure a)

/-- Takes one step, and fails beyond the budget. -/
def step : Attempt Unit := do
  modify (· + 1)
  if stepBudget < (← get) then failure

/-- The outcome of an attempt and the number of steps at its end. -/
def result {α : Type} (a : Attempt α) (steps : Nat) : Option α × Nat := Id.run (StateT.run a.run steps)

end Attempt

/-! ## Rules -/

/-- How runs of tokens are resolved one level further down. -/
abbrev Resolver := List Token → Attempt Value

/-- A literal in quotes is its raw text; a truth value is itself. -/
def literalValue? : List Token → Option Value
  | [⟨.quoted .string raw, _⟩] => some (.text raw)
  | [⟨.quoted .character raw, _⟩] => some (.text raw)
  | [⟨.truth b, _⟩] => some (.truth b)
  | _ => none

/-- The value of a reference. An index is resolved only for an array that
exists. -/
def Reference.value (store : Store) (index : Resolver) : Reference → Attempt Value
  | .binding name => .ofOption (store.get? name)
  | .member object field => .ofOption ((store.object? object).bind (·.field? field))
  | .slot array ts => do
    let slots ← .ofOption (store.array? array)
    let i ← index ts
    .ofOption (i.index?.bind slots.read?)

/-- The value of a run that is one reference. -/
def referenceValue (store : Store) (index : Resolver) (ts : List Token) : Attempt Value := do
  let reference ← .ofOption (Reference.ofRun? ts)
  reference.value store index

/-- The value of a hole: its text, trimmed, has to be one reference. -/
def holeValue (store : Store) (index : Resolver) (inner : List Char) : Attempt Value :=
  match lex (String.ofList (Text.trimChars inner)) with
  | .ok ts => referenceValue store index ts
  | .error _ => failure

/-- What a piece of interpolated text becomes. A hole without a value stays as it
is written. -/
def Piece.fill (store : Store) (index : Resolver) : Piece → Attempt (List Char)
  | .char c => pure [c]
  | .hole inner =>
    (do return (← holeValue store index inner).shown.toList) <|> pure (Piece.hole inner).source

/-- The raw text of an interpolated string with its holes filled. -/
def interpolate (store : Store) (index : Resolver) (raw : String) : Attempt String := do
  let filled ← (pieces raw.toList).mapM (Piece.fill store index)
  return String.ofList filled.flatten

/-- The value of a run that is one interpolated string. -/
def interpolatedValue (fill : String → Attempt String) : List Token → Attempt Value
  | [⟨.quoted .interpolated raw, _⟩] => return .text (← fill raw)
  | _ => failure

/-- The kind that stands for an operand: a reference becomes its number. -/
def Operand.kindIn (store : Store) (index : Resolver) : Operand → Attempt Kind
  | .plain kind => pure kind
  | .ref reference => do
    let value ← reference.value store index
    .number <$> .ofOption value.number?
  | .broken => failure

/-- The number of a run that is arithmetic. A run that is only a reference has
been tried as one before. -/
def arithmeticValue (store : Store) (index : Resolver) (ts : List Token) : Attempt Value :=
  if (Reference.ofRun? ts).isSome then failure
  else do
    let kinds ← (operands ts).mapM (Operand.kindIn store index)
    let tree ← .ofOption (Tree.ofKinds? kinds)
    return .number tree.eval

/-- Values joined from left to right. -/
def joinValues : List Value → Option Value
  | [] => none
  | first :: rest => some (rest.foldl Value.plus first)

/-- The joined values of the parts between `+` signs, if there are at least two. -/
def joinedValue (part : Resolver) (ts : List Token) : Attempt Value := do
  let parts := splitAtTop (.operator .add) ts
  if parts.length < 2 then failure
  let values ← parts.mapM part
  .ofOption (joinValues values)

/-! ## Resolving -/

/-- Tries the rules in order. Indices of references are resolved by `near`, those
of references in arithmetic by `far`. -/
def rules (store : Store) (fill : String → Attempt String) (near far : Resolver) : Resolver :=
  fun ts => do
    .step
    if ts.isEmpty then failure
    .ofOption (literalValue? ts) <|> interpolatedValue fill ts <|> referenceValue store near ts <|>
      arithmeticValue store far ts <|> joinedValue near ts

/-- Resolves a run with room for so many further levels. References in arithmetic
lie two levels below the run, all else one. -/
def resolveIn (store : Store) (fill : String → Attempt String) : (room : Nat) → Resolver
  | 0 => fun _ => do .step; failure
  | 1 => rules store fill (resolveIn store fill 0) (resolveIn store fill 0)
  | room + 2 => rules store fill (resolveIn store fill (room + 1)) (resolveIn store fill room)

/-- Resolves a run with interpolated strings nested to the given level. The index
of a reference in a hole starts again two levels below the top. -/
def resolve (store : Store) : (level room : Nat) → Resolver
  | 0, room => resolveIn store pure room
  | level + 1, room =>
    resolveIn store (interpolate store (resolve store level (deepest - 1))) room

/-- Resolves a source text. A string within a string is shorter than the text, so
the length of the text is a level that is never used up. -/
def attempt (store : Store) (text : String) : Attempt Value :=
  match lex text with
  | .ok ts => resolve store text.length (deepest + 1) ts
  | .error _ => failure

/-- The value of a source text, if a rule applies. -/
def evaluate? (store : Store) (text : String) : Option Value := ((attempt store text).result 0).1

/-- The steps taken to resolve a source text. -/
def stepsUsed (store : Store) (text : String) : Nat := ((attempt store text).result 0).2

/-- The value of an expression, or else its source text. -/
def Expr.value (store : Store) (expr : Expr) : Value :=
  (evaluate? store expr.text).getD (.text expr.text)

end SnippetConsole
