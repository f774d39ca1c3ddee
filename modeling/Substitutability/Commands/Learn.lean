import Substitutability.CommandLine.Program
import Substitutability.Commands.Options
import Substitutability.Configuration.Document
import Substitutability.Drawing.Page
import Substitutability.Learning.Learner
import Substitutability.Report.Markup

/-!
# The command that learns

It reads a text or a folder of texts, learns a grammar, and writes or prints a
report. If a drawing is wanted it stands next to the report, under the same name
with another extension.
-/

set_option autoImplicit false

namespace Substitutability.Commands.Learn

def input : OptionSpec where
  name := utf8 "input"
  short := utf8 "i"
  description := utf8 "Input text file or directory of text files"
  required := true

def output : OptionSpec where
  name := utf8 "output"
  short := utf8 "o"
  description := utf8 "Report path (default: slg_report_<HH_MM_SS>.txt)"

def print : OptionSpec where
  name := utf8 "print"
  short := utf8 "p"
  description := utf8 "Print the report to stdout instead of writing a file"
  isFlag := true

def config : OptionSpec where
  name := utf8 "config"
  short := utf8 "c"
  description := utf8 "JSON configuration file; flags override its values"

def options : List OptionSpec :=
  [input, output, print, Options.format, Options.minLength, Options.maxLength,
    Options.contextWidth, Options.granularity, Options.segmentation, Options.visualize,
    Options.renderFormat, Options.lite, config, Options.quiet]

def base (args : Arguments) : Job Configuration :=
  match args.value? config.name with
  | some path => Configuration.ofFile path
  | none => Configuration.ofEnvironment

/-- The configuration with all options applied; printing the report silences
everything else. -/
def effective (args : Arguments) : Job Configuration := do
  let c ← Job.ofConfiguration ((← base args).override args)
  return { c with verbose := c.verbose && !args.flag print }

def timedPath (c : Clock) : Bytes :=
  utf8 "slg_report_" ++ c.here.time "_" ++ utf8 ".txt"

def outputPath (args : Arguments) : Job Bytes :=
  match args.value? output.name with
  | some path => return path
  | none => return timedPath (← Job.clock)

/-- A report that is printed has no path whose extension could tell its format. -/
def reportFormat (args : Arguments) (c : Configuration) (path : Bytes) :
    Except ConfigurationFault Report.Format :=
  if args.flag print then Report.Format.resolve c.reportFormat []
  else Report.Format.resolve c.reportFormat path

def reportText (format : Report.Format) (l : Learned) : Job Bytes := do
  let title := utf8 "Substitutable Language Grammar: " ++ l.corpus.name
  let settings : Report.Settings := { title := title, generated := some (← Job.clock).universal }
  Job.ofDocument (Report.write format settings l)

def deliver (args : Arguments) (path report : Bytes) : Job Unit := do
  if args.flag print then Job.print report
  else
    Report.save path report
    Job.printLine (utf8 "Report written to: " ++ path)

def drawNextTo (c : Configuration) (path : Bytes) (l : Learned) : Job Unit := do
  if c.shouldRender then
    let format ← Job.ofConfiguration (Drawing.Format.ofName c.renderFormat)
    l.draw format (Path.withExtension format.extension path)

def finish (args : Arguments) (c : Configuration) (l : Learned) : Job Unit := do
  let path ← outputPath args
  let format ← Job.ofConfiguration (reportFormat args c path)
  deliver args path (← reportText format l)
  drawNextTo c path l
  if c.verbose then Job.print l.summary.text

def nothingLearned (path : Bytes) : Bytes :=
  utf8 "Error: no substrings extracted from " ++ path ++
    utf8 "; every sentence is too short for the length policy\n"

def act (args : Arguments) : Job Int32 := do
  let path ← Job.ofConfiguration (args.require input.name)
  let c ← effective args
  let learner ← Job.ofConfiguration c.learner?
  if c.verbose then Job.printLine (utf8 "Learning from: " ++ path)
  let l ← learner.learnPath path
  if l.contexts.isEmpty then
    Job.warn (nothingLearned path)
    return 1
  else
    finish args c l
    return 0

def command : Command where
  name := utf8 "learn"
  description := utf8 "Learn a substitutable grammar from a text file or directory"
  options := options
  act := act

end Substitutability.Commands.Learn
