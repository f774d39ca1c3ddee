import Substitutability.Context
import Substitutability.Json.Value

/-!
# Failures

Every way in which a command can fail, by cause. The texts that a user sees are
written in one place, the `message` of each kind.
-/

set_option autoImplicit false

namespace Substitutability

inductive PathFault
  | missing
  | notFolder
  | nameTooLong
  deriving DecidableEq, Repr

def PathFault.reason : PathFault → Bytes
  | .missing => utf8 "No such file or directory"
  | .notFolder => utf8 "Not a directory"
  | .nameTooLong => utf8 "File name too long"

inductive InputFault
  | pathMissing (path : Bytes)
  | noSentences (path : Bytes)
  | folderUnreadable (path : Bytes) (fault : PathFault)
  | corpusUnopened (path : Bytes)
  | corpusEmpty (name : Bytes)
  | configurationUnopened (path : Bytes)
  | configurationMalformed (path : Bytes) (fault : Json.Fault)
  | reportUnwritten (path : Bytes)
  | fileUnwritten (path : Bytes)
  | stated (message : Bytes)
  deriving DecidableEq, Repr

def InputFault.message : InputFault → Bytes
  | .pathMissing path => utf8 "Input path does not exist or is not readable: " ++ path
  | .noSentences path => utf8 "No sentences found in input: " ++ path
  | .folderUnreadable path fault =>
    utf8 "Cannot read directory " ++ path ++ utf8 ": " ++ fault.reason
  | .corpusUnopened path => utf8 "Failed to open corpus file: " ++ path
  | .corpusEmpty name => utf8 "Corpus '" ++ name ++ utf8 "' contains no sentences"
  | .configurationUnopened path => utf8 "Failed to open config file: " ++ path
  | .configurationMalformed path fault =>
    utf8 "Failed to parse config file " ++ path ++ utf8 ": " ++ fault.message
  | .reportUnwritten path => utf8 "Cannot open file for writing: " ++ path
  | .fileUnwritten path => utf8 "Failed to open file for writing: " ++ path
  | .stated message => message

inductive Rejection
  | minimumLength
  | maximumLength
  | crossedLengths (minimum maximum : Int32)
  | contextWidth
  | granularity (name : Bytes)
  | segmentation (name : Bytes)
  | observations
  | reportFormat (name : Bytes)
  | renderFormat (name : Bytes)
  deriving DecidableEq, Repr

def unknownGranularityMessage (name : Bytes) : Bytes :=
  utf8 "Unknown granularity: " ++ name ++ utf8 " (expected 'word' or 'character')"

def crossedLengthsMessage (minimum maximum : Int32) : Bytes :=
  utf8 "Minimum substring length (" ++ Bytes.ofInt minimum.toInt ++
    utf8 ") is greater than maximum (" ++ Bytes.ofInt maximum.toInt ++ utf8 ")"

def noObservationsMessage : Bytes :=
  utf8 "Minimum observations for a productive class must be positive"

def Rejection.message : Rejection → Bytes
  | .minimumLength => utf8 "Minimum substring length must be positive"
  | .maximumLength => utf8 "Maximum substring length must be positive"
  | .crossedLengths minimum maximum => crossedLengthsMessage minimum maximum
  | .contextWidth => utf8 "Context width must not be negative"
  | .granularity name => Bytes.untilNul (unknownGranularityMessage name)
  | .segmentation name => utf8 "Segmentation must be 'period' or 'line', got '" ++ name ++ utf8 "'"
  | .observations => noObservationsMessage
  | .reportFormat name => utf8 "Invalid report format: " ++ name
  | .renderFormat name => utf8 "Invalid render format: " ++ name

inductive ConfigurationFault
  | unknownGranularity (name : Bytes)
  | unknownSegmentation (name : Bytes)
  | noSegmentation
  | minimumLength (length : Int32)
  | maximumLength (length : Int32)
  | crossedLengths (minimum maximum : Int32)
  | contextWidth (width : Int32)
  | noObservations
  | fewObservations (count : Int64)
  | valueKind (fault : Json.Fault)
  | variableNotInteger (name value : Bytes)
  | rejected (reason : Rejection)
  | unknownReportFormat (name : Bytes)
  | unknownRenderFormat (name : Bytes)
  | notInteger (value : Bytes)
  | unexpectedWord (word : Bytes)
  | unknownOption (word : Bytes)
  | flagValue (name : Bytes)
  | valueMissing (word : Bytes)
  | valueNotAllowed (name value : Bytes) (choices : List Bytes)
  | optionMissing (name : Bytes)
  | stated (message : Bytes)
  deriving DecidableEq, Repr

def commaList (items : List Bytes) : Bytes :=
  Bytes.join (utf8 ", ") items

def ConfigurationFault.message : ConfigurationFault → Bytes
  | .unknownGranularity name => unknownGranularityMessage name
  | .unknownSegmentation name =>
    utf8 "Unknown segmentation: " ++ name ++ utf8 " (expected 'period' or 'line')"
  | .noSegmentation => utf8 "CorpusLoader requires a segmentation strategy"
  | .minimumLength length =>
    utf8 "Minimum substring length must be positive, got " ++ Bytes.ofInt length.toInt
  | .maximumLength length =>
    utf8 "Maximum substring length must be positive, got " ++ Bytes.ofInt length.toInt
  | .crossedLengths minimum maximum => crossedLengthsMessage minimum maximum
  | .contextWidth width =>
    utf8 "Context width must not be negative, got " ++ Bytes.ofInt width.toInt
  | .noObservations => noObservationsMessage
  | .fewObservations count =>
    utf8 "min_observations must be >= 1, got " ++ Bytes.ofInt count.toInt
  | .valueKind fault => utf8 "Invalid value type in configuration: " ++ fault.message
  | .variableNotInteger name value =>
    name ++ utf8 " must be an integer, got '" ++ value ++ utf8 "'"
  | .rejected reason => utf8 "Invalid configuration: " ++ reason.message
  | .unknownReportFormat name =>
    utf8 "Unknown report format: " ++ name ++ utf8 " (expected 'text', 'markdown' or 'json')"
  | .unknownRenderFormat name =>
    utf8 "Unknown render format: " ++ name ++ utf8 " (expected 'dot' or 'html')"
  | .notInteger value => utf8 "Expected an integer, got '" ++ value ++ utf8 "'"
  | .unexpectedWord word => utf8 "Unexpected argument: " ++ word
  | .unknownOption word => utf8 "Unknown argument: " ++ word
  | .flagValue name => utf8 "Flag --" ++ name ++ utf8 " takes no value"
  | .valueMissing word => utf8 "Argument " ++ word ++ utf8 " requires a value"
  | .valueNotAllowed name value choices =>
    utf8 "Invalid value for --" ++ name ++ utf8 ": '" ++ value ++ utf8 "' (expected one of: " ++
      commaList choices ++ utf8 ")"
  | .optionMissing name => utf8 "Missing required argument: --" ++ name
  | .stated message => message

inductive PartitionFault
  | indexOutOfPlace (index position : Nat)
  | sharedMember (member : Phrase)
  deriving DecidableEq, Repr

def PartitionFault.message : PartitionFault → Bytes
  | .indexOutOfPlace index position =>
    utf8 "Class ids must be consecutive from 0, got " ++ Bytes.ofNat index ++
      utf8 " at position " ++ Bytes.ofNat position
  | .sharedMember member =>
    utf8 "Substring \"" ++ Phrase.label [Bytes.space] member ++
      utf8 "\" belongs to more than one class"

inductive Failure
  | input (fault : InputFault)
  | configuration (fault : ConfigurationFault)
  | partition (fault : PartitionFault)
  | document (fault : Json.Fault)
  | documentIsFolder
  deriving DecidableEq, Repr

def Failure.fullMessage : Failure → Bytes
  | .input fault => fault.message
  | .configuration fault => fault.message
  | .partition fault => fault.message
  | .document fault => fault.message
  | .documentIsFolder => utf8 "basic_filebuf::underflow error reading the file: Is a directory"

/-- What a user is told; a message ends at its first NUL byte. -/
def Failure.message (failure : Failure) : Bytes :=
  Bytes.untilNul failure.fullMessage

end Substitutability
