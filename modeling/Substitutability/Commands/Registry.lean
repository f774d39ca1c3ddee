import Substitutability.CommandLine.Program
import Substitutability.Commands.Learn
import Substitutability.Commands.Options
import Substitutability.Configuration.Document
import Substitutability.Corpus.Basic
import Substitutability.Drawing.Page
import Substitutability.Learning.Learner
import Substitutability.Report.Markup

/-!
# The program and its smaller commands

One command writes the default configuration to a file, to be changed by hand.
One learns from each sample corpus in turn, prints the reports, and puts the
drawings, if wanted, into the current folder. The program has these two and the
command that learns.
-/

set_option autoImplicit false

namespace Substitutability.Commands.Config

def output : OptionSpec where
  name := utf8 "output"
  short := utf8 "o"
  description := utf8 "Output path for the configuration"
  default := utf8 "slg_config.json"

def act (args : Arguments) : Job Int32 := do
  let path := (args.value? output.name).getD []
  Configuration.toFile path {}
  Job.printLine (utf8 "Default configuration written to: " ++ path)
  Job.printLine (utf8 "Use it with: slg learn --input <path> --config " ++ path)
  return 0

def command : Command where
  name := utf8 "config"
  description := utf8 "Write a default JSON configuration file"
  options := [output]
  act := act

end Substitutability.Commands.Config

namespace Substitutability.Commands.Demo

def format : OptionSpec :=
  { Options.format with
    description := utf8 "Report format (default: text)"
    choices := ["text", "markdown", "json"].map utf8 }

def visualize : OptionSpec :=
  { Options.visualize with
    description := utf8 "Render each substitution graph to the current directory" }

def reportFormat (c : Configuration) : Except ConfigurationFault Report.Format :=
  if c.reportFormat = Report.Format.automatic then .ok .text
  else Report.Format.ofName c.reportFormat

def divider : Report.Format → Bytes
  | .json => []
  | _ => Bytes.lines [[], Bytes.ruler 79 61, []]

def showSample (c : Configuration) (learner : Learner) (format : Report.Format)
    (corpus : Corpus) : Job Unit := do
  let l ← learner.learn corpus
  Job.print (divider format)
  Job.printLine (← Job.ofDocument (Report.write format { title := corpus.name } l))
  if c.shouldRender then
    let drawing ← Job.ofConfiguration (Drawing.Format.ofName c.renderFormat)
    l.draw drawing (corpus.name ++ drawing.extension)

def act (args : Arguments) : Job Int32 := do
  let c ← Job.ofConfiguration (Configuration.override { verbose := false } args)
  let learner ← Job.ofConfiguration c.learner?
  let format ← Job.ofConfiguration (reportFormat c)
  Corpus.samples.forM (showSample c learner format)
  return 0

def command : Command where
  name := utf8 "demo"
  description := utf8 "Run the built-in toy grammar and word corpora"
  options := [format, visualize, Options.renderFormat, Options.lite]
  act := act

end Substitutability.Commands.Demo

namespace Substitutability.Commands

def all : List Command :=
  [Learn.command, Demo.command, Config.command]

def program (name version : Bytes) : Program :=
  Program.ofCommands name version all

end Substitutability.Commands
