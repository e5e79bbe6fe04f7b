import ArrayEquations.Digest
import ArrayEquations.Interchange
import ArrayEquations.Options

/-!
# ArrayEquations — provenance

Where equations come from: the digest of the trace, the digest of the options, and the
version of the program. Equal traces have equal digests, however they were made.
-/

namespace ArrayEquations

/-- Where equations come from. -/
structure Provenance where
  traceHash : String
  optionsFingerprint : String
  version : String
  deriving DecidableEq, Repr

namespace Provenance

/-- The version of the program. -/
def programVersion : String := "0.1.0"

/-- The provenance of the equations of a trace under options. -/
def ofTrace (t : Trace) (o : Options) : Provenance where
  traceHash := Digest.digestText t.compactText
  optionsFingerprint := Digest.digestText o.toJson.compact
  version := programVersion

/-- The document of a provenance. -/
def toJson (p : Provenance) : Json :=
  Json.ofFields
    [ ("trace_hash", .ofString p.traceHash),
      ("options_fingerprint", .ofString p.optionsFingerprint),
      ("tracetex_version", .ofString p.version) ]

/-- The document of a provenance as text, ended by a new line. -/
def text (p : Provenance) : String := p.toJson.pretty 0 ++ "\n"

end Provenance

end ArrayEquations
