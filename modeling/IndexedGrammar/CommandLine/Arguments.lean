import IndexedGrammar.CommandLine.Help

/-!
# Command-line arguments

Arguments come in two layers: those in front of the command, and those behind it. Each layer has its
options, which have a long name and perhaps a short one, and may take a value; everything else is a
plain argument. An option is given once in a layer. The options for settings can be given in both
layers, and then the one behind the command counts.

Arguments are taken in order, so asking for help works as long as nothing in front of it is wrong.
An option whose value is an argument of its own is checked when its layer goes on or ends. The layer
in front of the command ends only when the one behind it has been read: help for a command can be
had even if the option right in front of the command is wrong.
-/

namespace IndexedGrammar.CommandLine

/-- What an option takes. -/
inductive Taking where
  | nothing
  | number
  | path
deriving DecidableEq

/-- An option of a layer. -/
structure OptionSpec where
  long : String
  short : Option Char
  taking : Taking

/-- The options that every layer has. -/
def settingsSpecs : List OptionSpec :=
  [⟨"config", none, .path⟩, ⟨"max-stack-depth", none, .number⟩, ⟨"max-states", none, .number⟩,
    ⟨"count-depth", none, .number⟩, ⟨"help", some 'h', .nothing⟩]

/-- The options in front of the command. -/
def programSpecs : List OptionSpec :=
  ⟨"version", some 'V', .nothing⟩ :: settingsSpecs

/-- The options behind a command. -/
def Topic.specs : Topic → List OptionSpec
  | parse => ⟨"chart", some 'c', .nothing⟩ :: settingsSpecs
  | generate => ⟨"length", some 'l', .number⟩ :: ⟨"trees", some 't', .nothing⟩ :: settingsSpecs
  | count => ⟨"length", some 'l', .number⟩ :: settingsSpecs
  | score | check => settingsSpecs
  | program => programSpecs
  | help => []

/-- How many plain arguments a command takes. -/
def Topic.arity : Topic → Nat
  | parse | generate | count | check => 2
  | score => 3
  | program | help => 0

/-- Why the program is not run. -/
inductive Stop where
  | help (topic : Topic)
  | version
  | usage
deriving DecidableEq

/-- A number of 64 bits, perhaps with a plus sign. -/
def number? (text : String) : Option Nat :=
  let digits := match text.toList with
    | '+' :: rest => rest
    | digits => digits
  if digits.isEmpty || !digits.all Char.isDigit then none
  else
    let n := digits.foldl (fun n digit => n * 10 + (digit.toNat - '0'.toNat)) 0
    if n < Nat.pow 2 64 then some n else none

/-- The options and plain arguments given in a layer. -/
structure Layer where
  /-- Options with their values, which are empty if they take none. -/
  given : List (String × String)
  /-- Plain arguments, the last one first. -/
  plain : List String
  /-- The option given last, with its value, as long as it is not checked. -/
  pending : Option (OptionSpec × String)

namespace Layer

/-- The layer in which nothing is given. -/
def empty : Layer := ⟨[], [], none⟩

/-- Whether an option is given. -/
def has (layer : Layer) (long : String) : Bool :=
  (layer.given.lookup long).isSome

/-- The value of an option. -/
def path? (layer : Layer) (long : String) : Option String :=
  layer.given.lookup long

/-- The number given as the value of an option. -/
def number? (layer : Layer) (long : String) : Option Nat :=
  (layer.given.lookup long).bind CommandLine.number?

/-- Checks and notes an option. It may not be given twice, and its value has to be of the right
form. -/
def note (layer : Layer) (topic : Topic) (spec : OptionSpec) (value : String) :
    Except Stop Layer :=
  if spec.long = "help" then .error (.help topic)
  else if spec.long = "version" then .error .version
  else if layer.has spec.long then .error .usage
  else if spec.taking = .number && (CommandLine.number? value).isNone then .error .usage
  else if spec.taking = .path && value.isEmpty then .error .usage
  else .ok { layer with given := (spec.long, value) :: layer.given }

/-- Checks and notes the option that is not checked yet. -/
def settle (layer : Layer) (topic : Topic) : Except Stop Layer :=
  match layer.pending with
  | none => .ok layer
  | some (spec, value) => { layer with pending := none }.note topic spec value

/-- Goes on with an option that stands in one argument. -/
def give (layer : Layer) (topic : Topic) (spec : OptionSpec) (value : String) :
    Except Stop Layer := do
  (← layer.settle topic).note topic spec value

/-- Goes on with an option whose value is an argument of its own. -/
def await (layer : Layer) (topic : Topic) (spec : OptionSpec) (value : String) :
    Except Stop Layer := do
  return { ← layer.settle topic with pending := some (spec, value) }

/-- Goes on with a plain argument, which may not be empty. -/
def add (layer : Layer) (topic : Topic) (value : String) : Except Stop Layer := do
  let layer ← layer.settle topic
  if value.isEmpty || topic.arity ≤ layer.plain.length then throw .usage
  else return { layer with plain := value :: layer.plain }

end Layer

/-- Whether an argument is written like an option. -/
def looksLikeOption (argument : String) : Bool :=
  match argument.toList with
  | '-' :: _ :: _ => true
  | _ => false

/-- Takes the value of an option off the arguments. -/
def takeValue : List String → Except Stop (String × List String)
  | [] => .error .usage
  | value :: rest => if looksLikeOption value then .error .usage else .ok (value, rest)

/-- Reads an option with a long name, behind the hyphens. -/
def readLong (topic : Topic) (layer : Layer) (text : List Char) (rest : List String) :
    Except Stop (Layer × List String) := do
  let name := String.ofList (text.takeWhile (· ≠ '='))
  let behind := text.dropWhile (· ≠ '=')
  match topic.specs.find? (fun spec => spec.long = name), behind with
  | none, _ => throw .usage
  | some spec, [] =>
    if spec.taking = .nothing then return (← layer.give topic spec "", rest)
    else
      let (value, rest) ← takeValue rest
      return (← layer.await topic spec value, rest)
  | some spec, _ :: value =>
    if spec.taking = .nothing then throw .usage
    else return (← layer.give topic spec (String.ofList value), rest)

/-- Reads options with short names, behind the hyphen. One that takes a value ends the argument. -/
def readShort (topic : Topic) (rest : List String) :
    Layer → List Char → Except Stop (Layer × List String)
  | layer, [] => return (layer, rest)
  | layer, c :: more => do
    match topic.specs.find? (fun spec => spec.short = some c) with
    | none => throw .usage
    | some spec =>
      if spec.taking = .nothing then readShort topic rest (← layer.give topic spec "") more
      else match more with
        | [] =>
          let (value, rest) ← takeValue rest
          return (← layer.await topic spec value, rest)
        | '=' :: value => return (← layer.give topic spec (String.ofList value), rest)
        | value => return (← layer.give topic spec (String.ofList value), rest)

/-- Reads one argument of a layer, given those behind it. -/
def readOne (topic : Topic) (layer : Layer) (argument : String) (rest : List String) :
    Except Stop (Layer × List String) :=
  match argument.toList with
  | '-' :: '-' :: text => readLong topic layer text rest
  | '-' :: c :: text => readShort topic rest layer (c :: text)
  | _ => do return (← layer.add topic argument, rest)

/-- Reads the arguments behind a command. Behind two hyphens all arguments are plain. The number of
arguments bounds the steps. -/
def readLayer (topic : Topic) : Nat → Layer → List String → Except Stop Layer
  | 0, layer, _ => layer.settle topic
  | _ + 1, layer, [] => layer.settle topic
  | steps + 1, layer, argument :: rest =>
    if argument = "--" then do
      (← rest.foldlM (fun layer value => layer.add topic value) layer).settle topic
    else do
      let (layer, rest) ← readOne topic layer argument rest
      readLayer topic steps layer rest

/-- Reads the arguments up to the command, and checks all but the last. Gives the command and the
arguments behind it as well. -/
def readFront : Nat → Layer → List String → Except Stop (Layer × Topic × List String)
  | 0, _, _ => .error .usage
  | _ + 1, _, [] => .error .usage
  | steps + 1, layer, argument :: rest =>
    if argument = "--" then .error .usage
    else if looksLikeOption argument then do
      let (layer, rest) ← readOne .program layer argument rest
      readFront steps layer rest
    else match Topic.ofName? argument with
      | some topic => .ok (layer, topic, rest)
      | none => .error .usage

/-- Settings given on the command line. -/
structure Overrides where
  config : Option String
  maxStackDepth : Option Nat
  maxStates : Option Nat
  countDepth : Option Nat

/-- What the program is to do with the grammar. -/
inductive Command where
  /-- Parse the sentences of the standard input, and show charts if asked to. -/
  | parse (chart : Bool)
  /-- Derive all sentences up to a length, and show trees if asked to. -/
  | generate (length : Nat) (trees : Bool)
  /-- Count derivations by length. -/
  | count (length : Option Nat)
  /-- Score the grammar against a corpus. -/
  | score (corpus : String)
  /-- Show the compiled grammar. -/
  | check

/-- A call of the program. -/
structure Invocation where
  overrides : Overrides
  grammar : String
  lexicon : String
  command : Command

/-- The files a call may read. -/
def Invocation.files (call : Invocation) : List String :=
  call.overrides.config.toList ++ [call.grammar, call.lexicon] ++
    match call.command with
    | .score corpus => [corpus]
    | _ => []

/-- The topic that the names behind `help` stand for. -/
def helpTopic : List String → Stop
  | [] => .help .program
  | [name] =>
    match Topic.ofName? name with
    | some topic => .help topic
    | none => .usage
  | _ => .usage

/-- The call that two layers stand for. -/
def invocationOf (topic : Topic) (front layer : Layer) : Except Stop Invocation :=
  let overrides : Overrides :=
    ⟨(layer.path? "config").or (front.path? "config"),
      (layer.number? "max-stack-depth").or (front.number? "max-stack-depth"),
      (layer.number? "max-states").or (front.number? "max-states"),
      (layer.number? "count-depth").or (front.number? "count-depth")⟩
  match topic, layer.plain.reverse with
  | .parse, [grammar, lexicon] => .ok ⟨overrides, grammar, lexicon, .parse (layer.has "chart")⟩
  | .generate, [grammar, lexicon] =>
    .ok ⟨overrides, grammar, lexicon,
      .generate ((layer.number? "length").getD 5) (layer.has "trees")⟩
  | .count, [grammar, lexicon] => .ok ⟨overrides, grammar, lexicon, .count (layer.number? "length")⟩
  | .score, [grammar, lexicon, corpus] => .ok ⟨overrides, grammar, lexicon, .score corpus⟩
  | .check, [grammar, lexicon] => .ok ⟨overrides, grammar, lexicon, .check⟩
  | _, _ => .error .usage

/-- Reads the arguments of the program. -/
def readArguments (arguments : List String) : Except Stop Invocation := do
  let (front, topic, rest) ← readFront (arguments.length + 1) .empty arguments
  if topic = .help then throw (helpTopic rest)
  let layer ← readLayer topic (rest.length + 1) .empty rest
  invocationOf topic (← front.settle .program) layer

end IndexedGrammar.CommandLine
