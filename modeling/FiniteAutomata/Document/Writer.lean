import FiniteAutomata.Document.Basic
import FiniteAutomata.Json.Writer

/-!
Documents written as JSON. The fields stand in a fixed order, and none is left out.
-/

namespace FiniteAutomata.Document

def labelJson : Label → Json
  | none => .null
  | some c => .string (String.singleton c)

def moveJson (e : Edge Char) : Json :=
  .object [("source", .int e.source), ("symbol", labelJson e.label), ("target", .int e.target)]

def toJson (d : Document) : Json :=
  .object [("kind", .string (kindName d.kind)), ("states", .int d.states),
    ("final_states", .array (d.finals.map .int)), ("moves", .array (d.moves.map moveJson))]

inductive DumpError where
  | integerTooLarge

def DumpError.message : DumpError → String
  | integerTooLarge => "Integer exceeds 64-bit range"

def toText? (d : Document) (indent : Bool) : Except DumpError String :=
  (d.toJson.toText? indent).elim (.error .integerTooLarge) .ok

end FiniteAutomata.Document
