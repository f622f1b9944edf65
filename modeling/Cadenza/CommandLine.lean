/-!
# The command line

What the program is asked to do by its arguments. The configuration file may be named before the
task as well as after it, and once in each of these places; the one after the task counts.
-/

namespace Cadenza.CommandLine

set_option autoImplicit false

inductive Task where
  | print
  | play
  deriving DecidableEq, Repr

inductive Topic where
  | program
  | task (t : Task)
  | help
  deriving DecidableEq, Repr

inductive Request where
  | run (config : Option String) (task : Task)
  | help (topic : Topic)
  | version
  deriving DecidableEq, Repr

/-- The last value of the option for the configuration, which is looked at only when the next option
comes or the arguments end. -/
inductive Reading where
  | nothing
  | wanted
  | given (value : String)
  deriving DecidableEq, Repr

structure Options where
  config : Option String
  last : Reading
  deriving DecidableEq, Repr

def Options.empty : Options :=
  ⟨none, .nothing⟩

/-- Takes in the last value. It must be there, must not be empty, and must be the only one. -/
def Options.settle (o : Options) : Option Options :=
  match o.last with
  | .nothing => some o
  | .wanted => none
  | .given value =>
      if value.isEmpty || o.config.isSome then none else some ⟨some value, .nothing⟩

inductive Argument where
  | word
  | escape
  | configNext
  | config (value : String)
  | help
  | version
  | unknown
  deriving DecidableEq, Repr

def dropEquals : List Char → List Char
  | '=' :: rest => rest
  | cs => cs

/-- Of short options in one argument the first decides: it takes the rest as its value, or ends the
program. -/
def classify (arg : String) : Argument :=
  match arg.toList with
  | ['-'] => .word
  | ['-', '-'] => .escape
  | '-' :: '-' :: long =>
      let name := String.ofList (long.takeWhile (· != '='))
      match long.dropWhile (· != '='), name with
      | [], "config" => .configNext
      | [], "help" => .help
      | [], "version" => .version
      | _ :: value, "config" => .config (String.ofList value)
      | _, _ => .unknown
  | ['-', 'c'] => .configNext
  | '-' :: 'c' :: value => .config (String.ofList (dropEquals value))
  | '-' :: 'h' :: _ => .help
  | '-' :: 'V' :: _ => .version
  | '-' :: _ => .unknown
  | _ => .word

def readTask (task : Task) : Options → List String → Option (Request × Options)
  | o, [] => o.settle.map fun o => (.run o.config task, o)
  | o, arg :: rest =>
      match classify arg with
      | .word =>
          if o.last = .wanted then readTask task { o with last := .given arg } rest else none
      | .escape => if rest.isEmpty then o.settle.map fun o => (.run o.config task, o) else none
      | .configNext => o.settle.bind fun o => readTask task { o with last := .wanted } rest
      | .config value => do
          let before ← o.settle
          let after ← { before with last := .given value }.settle
          readTask task after rest
      | .help => o.settle.map fun o => (.help (.task task), o)
      | .version => none
      | .unknown => none

/-- Adds the configuration named before the task to a request. -/
def Request.inherit (r : Request) (o : Options) : Option Request :=
  match r with
  | .run config task => o.settle.map fun o => .run (config <|> o.config) task
  | r => some r

def helpTopic? : List String → Option Topic
  | [] => some .program
  | ["print"] => some (.task .print)
  | ["play"] => some (.task .play)
  | ["help"] => some .help
  | _ => none

/-- Reads the arguments up to a task and on; without a task the timelines are printed. -/
def readProgram : Options → List String → Option Request
  | o, [] => Request.inherit (.run none .print) o
  | o, arg :: rest =>
      match classify arg with
      | .word =>
          if o.last = .wanted then readProgram { o with last := .given arg } rest
          else
            match arg with
            | "print" => (readTask .print .empty rest).bind fun r => r.1.inherit o
            | "play" => (readTask .play .empty rest).bind fun r => r.1.inherit o
            | "help" => (helpTopic? rest).map Request.help
            | _ => none
      | .escape => if rest.isEmpty then Request.inherit (.run none .print) o else none
      | .configNext => o.settle.bind fun o => readProgram { o with last := .wanted } rest
      | .config value => do
          let before ← o.settle
          let after ← { before with last := .given value }.settle
          readProgram after rest
      | .help => o.settle.map fun _ => .help .program
      | .version => o.settle.map fun _ => .version
      | .unknown => none

def parse? (args : List String) : Option Request :=
  readProgram .empty args

def versionText : String :=
  "notechain 0.1.0"

def configOption : String :=
  "  -c, --config <CONFIG>  Configuration file, overrides the NOTECHAIN_CONFIG variable"

def helpOption : String :=
  "  -h, --help             Print help"

def Task.describe : Task → String
  | .print => "Print the normalized timeline of every track (default)"
  | .play => "Play the tracks through the log synth"

def Task.name : Task → String
  | .print => "print"
  | .play => "play"

def Topic.lines : Topic → List String
  | .program =>
      [ "Compiles the demo composition into note events", "",
        "Usage: notechain [OPTIONS] [COMMAND]", "",
        "Commands:",
        s!"  print  {Task.print.describe}",
        s!"  play   {Task.play.describe}",
        "  help   Print this message or the help of the given subcommand(s)", "",
        "Options:", configOption, helpOption, "  -V, --version          Print version" ]
  | .task t =>
      [ t.describe, "", s!"Usage: notechain {t.name} [OPTIONS]", "",
        "Options:", configOption, helpOption ]
  | .help =>
      [ "Print this message or the help of the given subcommand(s)", "",
        "Usage: notechain help [COMMAND]...", "",
        "Arguments:", "  [COMMAND]...  Print help for the subcommand(s)" ]

end Cadenza.CommandLine
