import Substitutability.CommandLine.Arguments
import Substitutability.Configuration.Basic

/-!
# Options that belong to a configuration

Each of these options stands for a field of a configuration. Commands choose the
ones that they take. Every option that was given replaces its field; the other
fields stay as they are. Flags can only be switched to one side.
-/

set_option autoImplicit false

namespace Substitutability.Commands.Options

def format : OptionSpec where
  name := utf8 "format"
  short := utf8 "f"
  description := utf8 "Report format; auto uses the output extension"
  choices := ["auto", "text", "markdown", "json"].map utf8

def minLength : OptionSpec where
  name := utf8 "min-length"
  short := utf8 "m"
  description := utf8 "Minimum substring length in tokens (default: 1)"

def maxLength : OptionSpec where
  name := utf8 "max-length"
  short := utf8 "M"
  description := utf8 "Maximum substring length in tokens (default: sentence length - 1)"

def contextWidth : OptionSpec where
  name := utf8 "context-width"
  short := utf8 "w"
  description := utf8 "Context tokens kept on each side, 0 = whole sentence (default: 0)"

def granularity : OptionSpec where
  name := utf8 "granularity"
  short := utf8 "g"
  description := utf8 "Token granularity: word or character (default: word)"

def segmentation : OptionSpec where
  name := utf8 "segmentation"
  short := utf8 "s"
  description := utf8 "Sentence segmentation (default: period)"
  choices := ["period", "line"].map utf8

def visualize : OptionSpec where
  name := utf8 "visualize"
  short := utf8 "v"
  description := utf8 "Render the substitution graph next to the report"
  isFlag := true

def renderFormat : OptionSpec where
  name := utf8 "render-format"
  short := utf8 "r"
  description := utf8 "Graph rendering (default: dot)"
  choices := ["dot", "html"].map utf8

def lite : OptionSpec where
  name := utf8 "lite"
  short := utf8 "l"
  description := utf8 "Never render, even with --visualize"
  isFlag := true

def quiet : OptionSpec where
  name := utf8 "quiet"
  short := utf8 "q"
  description := utf8 "No progress output or summary"
  isFlag := true

end Substitutability.Commands.Options

namespace Substitutability

namespace Arguments

def intOr (args : Arguments) (o : OptionSpec) (old : Int32) : Except ConfigurationFault Int32 :=
  (args.int? o.name).map (·.getD old)

def textOr (args : Arguments) (o : OptionSpec) (old : Bytes) : Bytes :=
  (args.value? o.name).getD old

def flag (args : Arguments) (o : OptionSpec) : Bool :=
  args.has o.name

end Arguments

open Commands in
def Configuration.override (c : Configuration) (args : Arguments) :
    Except ConfigurationFault Configuration := do
  let minLength ← args.intOr Options.minLength c.minLength
  let maxLength := (← args.int? Options.maxLength.name).or c.maxLength
  let contextWidth ← args.intOr Options.contextWidth c.contextWidth
  return { c with
    minLength := minLength
    maxLength := maxLength
    contextWidth := contextWidth
    granularity := args.textOr Options.granularity c.granularity
    segmentation := args.textOr Options.segmentation c.segmentation
    reportFormat := args.textOr Options.format c.reportFormat
    renderFormat := args.textOr Options.renderFormat c.renderFormat
    visualize := c.visualize || args.flag Options.visualize
    lite := c.lite || args.flag Options.lite
    verbose := c.verbose && !args.flag Options.quiet }

end Substitutability
