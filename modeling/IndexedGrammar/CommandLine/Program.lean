import IndexedGrammar.CommandLine.Arguments
import IndexedGrammar.Forest.Parsing
import IndexedGrammar.Grammar.Expansion
import IndexedGrammar.Lexicon.Reader
import IndexedGrammar.Number.Fixed
import IndexedGrammar.Schema.Reader
import IndexedGrammar.Score
import IndexedGrammar.Settings.Reader

/-!
# The program

A call of the program reads its files, compiles the grammar, and shows what it was asked for. What
it writes depends on its arguments, the texts of its files and its standard input alone. A call that
fails tells why, and what it was doing if that was with a file; a sentence that cannot be parsed
does not end a session.
-/

namespace IndexedGrammar.CommandLine

/-- The texts of files, or why they cannot be read. -/
abbrev Files := String → Except FileFault String

/-- What a call leaves behind. -/
structure Output where
  exitCode : Nat
  stdout : String
  stderr : String
deriving DecidableEq

/-- Why a call failed. -/
structure Report where
  /-- What was being done with a file. -/
  context : Option String
  cause : String

namespace Report

/-- The report on the standard error output: the context, if there is one, with the cause below. -/
def text (report : Report) : String :=
  match report.context with
  | some context => "Error: " ++ context ++ "\n\nCaused by:\n    " ++ report.cause ++ "\n"
  | none => "Error: " ++ report.cause ++ "\n"

/-- The report of a fault met while doing something. -/
def ofFault (context : String) (fault : Fault) : Report :=
  ⟨some context, fault.message⟩

/-- The report of a failure. -/
def ofFailure : Failure → Report
  | .fault fault => ⟨none, fault.message⟩
  | .breach breach => ⟨none, breach.message⟩

end Report

/-- Reads a file. -/
def readFile {α : Type} (files : Files) (context : String) (read : String → Except Fault α)
    (path : String) : Except Report α :=
  match files path with
  | .error fault => .error (.ofFault (context ++ path) (.file fault))
  | .ok text => (read text).mapError (.ofFault (context ++ path))

/-- The settings of a call: those of its settings file, with those of its arguments over them. -/
def settingsOf (files : Files) (overrides : Overrides) : Except Report Settings := do
  let settings ← match overrides.config with
    | none => pure ({} : Settings)
    | some path => do
      let text ← readFile files "reading " .ok path
      match Settings.read text with
      | some settings => pure settings
      | none => throw ⟨some ("parsing " ++ path), "invalid settings"⟩
  return { settings with
    maxStackDepth := overrides.maxStackDepth.getD settings.maxStackDepth
    maxStatesPerColumn := overrides.maxStates.getD settings.maxStatesPerColumn
    countDepth := overrides.countDepth.getD settings.countDepth }

/-- What most commands work with. -/
structure Loaded where
  settings : Settings
  lexicon : Lexicon
  grammar : Grammar

/-- Reads the files of a call and compiles its grammar. -/
def load (files : Files) (call : Invocation) : Except Report Loaded := do
  let settings ← settingsOf files call.overrides
  let schema ← readFile files "loading grammar " Schema.read call.grammar
  let lexicon ← readFile files "loading lexicon " Lexicon.read call.lexicon
  let grammar ← (compile schema lexicon.partsOfSpeech settings).mapError
    fun fault => .ofFailure (.fault fault)
  return ⟨settings, lexicon, grammar⟩

/-- The ending of a noun after a number. -/
def plural (n : Nat) : String :=
  if n = 1 then "" else "s"

/-- A number at the right end of a field. -/
def padLeft (width n : Nat) : String :=
  let digits := toString n
  String.ofList (List.replicate (width - digits.length) ' ') ++ digits

/-- Counts by length, one a line. -/
def countsText (counts : Counts) : String :=
  String.join (counts.toList.map fun (length, n) =>
    padLeft 4 length ++ "  " ++ toString n ++ "\n")

/-- The parses of a sentence, behind its chart if that is asked for. -/
def parseText (loaded : Loaded) (showChart : Bool) (sentence : List String) :
    Except Failure String := do
  let chart ← Chart.parse loaded.grammar loaded.lexicon (loaded.settings.budget false) sentence
  let trees := (Forest.ofChart chart loaded.grammar).trees
  let chartText := if showChart then "chart:\n" ++ chart.text loaded.grammar ++ "\n\n" else ""
  return chartText ++
    "Parsed " ++ toString trees.length ++ " tree" ++ plural trees.length ++ "\n" ++
    String.join (trees.map fun tree => tree.longText Category.text id ++ "\n\n")

/-- What shows that a sentence can be entered. -/
def prompt : String := "> "

/-- What a line of a session leads to on the standard output and the standard error output. -/
def answerLine (loaded : Loaded) (showChart : Bool) (line : String) : String × String :=
  let words := Text.words (line.map Char.toLower)
  if words.isEmpty then ("", "")
  else match parseText loaded showChart words with
    | .ok text => (text, "")
    | .error failure => ("", "error: " ++ (Report.ofFailure failure).cause ++ "\n")

/-- The output of a session: a prompt in front of every line and of the end. -/
def session (loaded : Loaded) (showChart : Bool) (input : String) : Output :=
  let answers := (Text.lines input).map (answerLine loaded showChart)
  ⟨0, String.join (answers.map fun (out, _) => prompt ++ out) ++ prompt,
    String.join (answers.map Prod.snd)⟩

/-- The derivations up to a length: their counts, then their trees if asked for. -/
def generateText (loaded : Loaded) (length : Nat) (showTrees : Bool) : Except Failure String := do
  let forest ← loaded.grammar.generate (loaded.settings.budget false) length
  let trees := if showTrees then forest.trees else []
  return countsText (forest.countsByLength loaded.settings.countDepth) ++
    String.join (trees.map fun tree => tree.text Category.text id ++ "\n")

/-- A score as a table with a summary. -/
def scoreText (score : Score) : String :=
  "length  observed  possible\n" ++
    String.join (score.possible.toList.map fun (length, possible) =>
      padLeft 6 length ++ "  " ++ padLeft 8 (score.observed.count length) ++ "  " ++
        padLeft 8 possible ++ "\n") ++
    toString score.unexplained ++ " of " ++ toString score.sentences ++ " sentence" ++
    plural score.sentences ++ " unexplained\n" ++
    "probability " ++ Number.fixedText 6 score.probability ++ "\n"

/-- The compiled grammar with a summary. -/
def checkText (g : Grammar) : String :=
  let rules := g.rules.length
  let nullables := g.nullables.size
  g.text ++ toString rules ++ " rule" ++ plural rules ++ ", " ++ toString nullables ++
    " nullable categor" ++ (if nullables = 1 then "y" else "ies") ++ "\n"

/-- Runs a command. -/
def runCommand (files : Files) (loaded : Loaded) (input : String) :
    Command → Except Report Output
  | .parse showChart => .ok (session loaded showChart input)
  | .generate length showTrees => do
    return ⟨0, ← (generateText loaded length showTrees).mapError .ofFailure, ""⟩
  | .count length => do
    let counts ← (countDerivations? loaded.grammar loaded.settings.countDepth length).mapError
      fun breach => .ofFailure (.breach breach)
    return ⟨0, countsText counts, ""⟩
  | .score path => do
    let corpus ← readFile files "loading corpus " (fun text => .ok (Corpus.read text)) path
    let score ← (evaluate loaded.grammar loaded.lexicon loaded.settings false corpus).mapError
      .ofFailure
    return ⟨0, scoreText score, ""⟩
  | .check => .ok ⟨0, checkText loaded.grammar, ""⟩

/-- The output of a call that only tells about the program. A call that cannot be understood is
answered on the standard error output. -/
def stopOutput : Stop → Output
  | .help topic => ⟨0, topic.text, ""⟩
  | .version => ⟨0, "lig 0.1.0\n", ""⟩
  | .usage => ⟨2, "", "error: bad arguments\n\n" ++ Topic.program.text⟩

/-- The output of a call that failed or ended well. -/
def outputOf : Except Report Output → Output
  | .ok output => output
  | .error report => ⟨1, "", report.text⟩

/-- Runs the program. -/
def run (files : Files) (arguments : List String) (input : String) : Output :=
  match readArguments arguments with
  | .error stop => stopOutput stop
  | .ok call => outputOf do
    let loaded ← load files call
    runCommand files loaded input call.command

end IndexedGrammar.CommandLine
