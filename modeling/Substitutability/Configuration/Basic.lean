import Substitutability.Corpus.Basic
import Substitutability.Extraction

/-!
# Configurations

The settings of one run. Names stay as they were given until `rejection?` has
checked them; numbers have the width in which they are stored.
-/

set_option autoImplicit false

namespace Substitutability

structure Configuration where
  minLength : Int32 := 1
  maxLength : Option Int32 := none
  contextWidth : Int32 := 0
  granularity : Bytes := utf8 "word"
  segmentation : Bytes := utf8 "period"
  /-- The number of contexts that make a class productive. -/
  minObservations : UInt64 := 2
  reportFormat : Bytes := utf8 "auto"
  visualize : Bool := false
  lite : Bool := false
  renderFormat : Bytes := utf8 "dot"
  verbose : Bool := true
  deriving DecidableEq, Repr

namespace Configuration

def policy (c : Configuration) : LengthPolicy :=
  ⟨c.minLength, c.maxLength⟩

def shouldRender (c : Configuration) : Bool :=
  c.visualize && !c.lite

def reportFormats : List Bytes :=
  ["auto", "text", "markdown", "json"].map utf8

def renderFormats : List Bytes :=
  ["dot", "html"].map utf8

def lengthRejection? (c : Configuration) : Option Rejection :=
  if c.minLength.toInt ≤ 0 then some .minimumLength
  else match c.maxLength with
    | none => none
    | some maximum =>
      if maximum.toInt ≤ 0 then some .maximumLength
      else if maximum.toInt < c.minLength.toInt then some (.crossedLengths c.minLength maximum)
      else none

def nameRejection? (c : Configuration) : Option Rejection :=
  match Granularity.ofName c.granularity with
  | .error _ => some (.granularity c.granularity)
  | .ok _ =>
    if c.segmentation ≠ utf8 "period" ∧ c.segmentation ≠ utf8 "line" then
      some (.segmentation c.segmentation)
    else none

def outputRejection? (c : Configuration) : Option Rejection :=
  if c.minObservations = 0 then some .observations
  else if c.reportFormat ∉ reportFormats then some (.reportFormat c.reportFormat)
  else if c.renderFormat ∉ renderFormats then some (.renderFormat c.renderFormat)
  else none

def rejection? (c : Configuration) : Option Rejection :=
  (c.lengthRejection?.or (if c.contextWidth.toInt < 0 then some .contextWidth else none)).or
    (c.nameRejection?.or c.outputRejection?)

end Configuration

end Substitutability
