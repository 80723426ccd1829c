/-!
# Help texts

What the program says about itself and its commands.
-/

namespace IndexedGrammar.CommandLine

/-- The commands of the program. -/
inductive Topic where
  | program
  | parse
  | generate
  | count
  | score
  | check
  | help
deriving DecidableEq

namespace Topic

/-- The command of a name. -/
def ofName? : String → Option Topic
  | "parse" => some parse
  | "generate" => some generate
  | "count" => some count
  | "score" => some score
  | "check" => some check
  | "help" => some help
  | _ => none

/-- The options that every command takes. -/
def settingsOptions : List String :=
  ["      --config <CONFIG>                    Settings file (TOML); flags below override it",
    "      --max-stack-depth <MAX_STACK_DEPTH>  Deepest stack a compiled category may carry",
    "      --max-states <MAX_STATES>            Work a single chart column may do before giving up",
    "      --count-depth <COUNT_DEPTH>          Tallest derivation counted"]

/-- The options of a command, in the order in which they are shown. -/
def options : Topic → List String
  | program => settingsOptions ++
    ["  -h, --help                               Print help",
      "  -V, --version                            Print version"]
  | parse => ["  -c, --chart                              Print the parse chart"] ++
    settingsOptions ++
    ["  -h, --help                               Print help"]
  | generate => settingsOptions.take 1 ++
    ["  -l, --length <LENGTH>                    [default: 5]"] ++
    (settingsOptions.drop 1).take 1 ++
    ["  -t, --trees                              Print each derivation, not just the counts"] ++
    settingsOptions.drop 2 ++
    ["  -h, --help                               Print help"]
  | count => settingsOptions.take 1 ++
    ["  -l, --length <LENGTH>                    Longest sentence to report"] ++
    settingsOptions.drop 1 ++
    ["  -h, --help                               Print help"]
  | score | check => settingsOptions ++ ["  -h, --help                               Print help"]
  | help => []

/-- The files that commands read a grammar from. -/
def grammarArguments : List String :=
  ["  <GRAMMAR>  Schema grammar file",
    "  <LEXICON>  Lexicon file, one `POS: word word ...` line per part of speech"]

/-- What a command is for, how it is called, and what it takes. -/
def lines : Topic → List String
  | program =>
    ["Compile, parse and count Linear Indexed Grammars", "",
      "Usage: lig [OPTIONS] <COMMAND>", "",
      "Commands:",
      "  parse     Read sentences from stdin and print their parses",
      "  generate  Derive every part-of-speech sequence up to a length",
      "  count     Count derivations per sentence length without building charts",
      "  score     Score the grammar against a corpus, one sentence per line",
      "  check     Compile the grammar and print its static rules",
      "  help      Print this message or the help of the given subcommand(s)", "",
      "Options:"] ++ program.options
  | parse =>
    ["Read sentences from stdin and print their parses", "",
      "Usage: lig parse [OPTIONS] <GRAMMAR> <LEXICON>", "",
      "Arguments:"] ++ grammarArguments ++ ["", "Options:"] ++ parse.options
  | generate =>
    ["Derive every part-of-speech sequence up to a length", "",
      "Usage: lig generate [OPTIONS] <GRAMMAR> <LEXICON>", "",
      "Arguments:"] ++ grammarArguments ++ ["", "Options:"] ++ generate.options
  | count =>
    ["Count derivations per sentence length without building charts", "",
      "Usage: lig count [OPTIONS] <GRAMMAR> <LEXICON>", "",
      "Arguments:"] ++ grammarArguments ++ ["", "Options:"] ++ count.options
  | score =>
    ["Score the grammar against a corpus, one sentence per line", "",
      "Usage: lig score [OPTIONS] <GRAMMAR> <LEXICON> <CORPUS>", "",
      "Arguments:"] ++ grammarArguments ++ ["  <CORPUS>   ", "", "Options:"] ++ score.options
  | check =>
    ["Compile the grammar and print its static rules", "",
      "Usage: lig check [OPTIONS] <GRAMMAR> <LEXICON>", "",
      "Arguments:"] ++ grammarArguments ++ ["", "Options:"] ++ check.options
  | help =>
    ["Print this message or the help of the given subcommand(s)", "",
      "Usage: lig help [COMMAND]...", "",
      "Arguments:",
      "  [COMMAND]...  Print help for the subcommand(s)"]

/-- The help text of a command. -/
def text (topic : Topic) : String :=
  String.join (topic.lines.map (· ++ "\n"))

end Topic

end IndexedGrammar.CommandLine
