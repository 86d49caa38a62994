import CoreLowering.Core.Version
import CoreLowering.Digest.Sha256

/-!
# Requests

A request to lower a unit is its bytes and some options.  The key of a
request is a digest of all that has a say in the lowered program.
-/

namespace CoreLowering.Compile

/-- The number of the layout in which results are stored.  Results of another
layout are not used. -/
def schema : Nat := 1

/-- How a unit is lowered. -/
structure Options where
  target : Version := .unknown
  debug : Bool := false
  /-- Leaves the fixed-point combinator free. -/
  noLink : Bool := false
  /-- How many findings are kept; the usual number if it is not positive. -/
  maxDiagnostics : Int := 0

namespace Options

def version (o : Options) : Version := o.target.orStandard

def limit (o : Options) : Int :=
  if o.maxDiagnostics ≤ 0 then 100 else o.maxDiagnostics

/-- The options that have a say in the program, as a text. -/
def settings (o : Options) : String :=
  "schema=" ++ toString schema ++ " target=" ++ o.version.name ++
    " debug=" ++ toString o.debug ++ " nolink=" ++ toString o.noLink

end Options

def contentDigest (content : Bytes) : Bytes := Digest.sha256 content

/-- The digest of digests, one after the other. -/
def combine (content : Bytes) (parts : List Bytes) : Bytes :=
  Digest.sha256 (content ++ parts.flatten)

def key (unit : Bytes) (o : Options) : Bytes :=
  combine (contentDigest unit) [contentDigest (Bytes.ofString o.settings)]

end CoreLowering.Compile
