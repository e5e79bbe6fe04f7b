import ArrayEquations.Index
import ArrayEquations.Json.Decode

/-!
# ArrayEquations — options of a transcription

What a user may change about the equations, and its form as a document. Every field
of the document may be left out; other fields are refused.
-/

namespace ArrayEquations

/-- The options of a transcription. -/
structure Options where
  /-- What stands between two equations. -/
  lineSeparator : String := " \\\\\n"
  /-- What stands before the symbol of a tangent. -/
  tangentPrefix : String := "d"
  /-- What stands before the symbol of a cotangent. -/
  cotangentPrefix : String := "\\delta "
  /-- The letters of index symbols, in order. -/
  indexAlphabet : String := defaultAlphabet
  /-- The symbol on the left of output equations, if it is not the function's name. -/
  functionName : Option String := none
  /-- Whether passes are reported while they run. -/
  verbose : Bool := false
  deriving DecidableEq, Repr

namespace Options

/-- The options as a document. -/
def toJson (o : Options) : Json :=
  Json.ofFields
    [ ("line_separator", .ofString o.lineSeparator),
      ("tangent_prefix", .ofString o.tangentPrefix),
      ("cotangent_prefix", .ofString o.cotangentPrefix),
      ("index_alphabet", .ofString o.indexAlphabet),
      ("function_name", (o.functionName.map Json.ofString).getD .null),
      ("verbose", .bool o.verbose) ]

/-- The fields of a document of options that were met so far. -/
structure Fields where
  lineSeparator : Option String := none
  tangentPrefix : Option String := none
  cotangentPrefix : Option String := none
  indexAlphabet : Option String := none
  functionName : Option (Option String) := none
  verbose : Option Bool := none

/-- Takes one field of a document of options. -/
def Fields.take (f : Fields) (key : String) (value : Json) : Except DecodeError Fields :=
  match key with
  | "line_separator" =>
    return { f with lineSeparator := ← Json.once key f.lineSeparator value.asString }
  | "tangent_prefix" =>
    return { f with tangentPrefix := ← Json.once key f.tangentPrefix value.asString }
  | "cotangent_prefix" =>
    return { f with cotangentPrefix := ← Json.once key f.cotangentPrefix value.asString }
  | "index_alphabet" =>
    return { f with indexAlphabet := ← Json.once key f.indexAlphabet value.asString }
  | "function_name" =>
    return { f with functionName := ← Json.once key f.functionName (value.asOption Json.asString) }
  | "verbose" => return { f with verbose := ← Json.once key f.verbose value.asBool }
  | key => throw (.unknownField key)

/-- The options of a document's value. -/
def ofJson (j : Json) : Except DecodeError Options := do
  let f ← j.decodeFields Fields.take {}
  let standard : Options := {}
  return {
    lineSeparator := f.lineSeparator.getD standard.lineSeparator
    tangentPrefix := f.tangentPrefix.getD standard.tangentPrefix
    cotangentPrefix := f.cotangentPrefix.getD standard.cotangentPrefix
    indexAlphabet := f.indexAlphabet.getD standard.indexAlphabet
    functionName := f.functionName.getD standard.functionName
    verbose := f.verbose.getD standard.verbose }

/-- The options of a document's text. -/
def ofText (text : String) : Except DecodeError Options := decodeText ofJson text

end Options

end ArrayEquations
