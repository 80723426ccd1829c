import IndexedGrammar.Rule

/-!
# Faults and breaches

A fault is an outcome a caller has to expect: a rule or grammar that is not well formed, a parse
that costs more than its limit, a cancelled parse, a source text that cannot be read. A breach is a
call that its caller should not have made; nothing is promised after one.

Each is a cause, and its wording is kept in one place.
-/

namespace IndexedGrammar

/-- What is wrong with a rule or a grammar. -/
inductive Defect where
  /-- A rule needs one or two right-hand categories. -/
  | arity (rule : Rule)
  /-- The empty category has no rules. -/
  | epsilonExpanded (rule : Rule)
  /-- The empty category stands alone on the right-hand side. -/
  | epsilonNotAlone (rule : Rule)
  /-- A stack goes to one child. -/
  | severalHeirs (rule : Rule)
  /-- A child can only inherit a stack that the left-hand side has. -/
  | orphanHeir (rule : Rule)
  /-- A rule pushes or pops, not both. -/
  | pushesAndPops (rule : Rule)
  /-- A rule moves one stack symbol at a time. -/
  | movesSeveral (rule : Rule)
  /-- A stack text that is not a list of symbols with at most one wildcard. -/
  | badStack (category : Category)
  /-- A compiled rule has no wildcards. -/
  | wildcardLeft (rule : Rule)
  /-- Some category can be expanded to itself without consuming anything. -/
  | cyclicUnit
  /-- A defect of the rule written on this line. -/
  | onLine (line : Nat) (defect : Defect)
deriving DecidableEq

namespace Defect

/-- The wording of a defect. -/
def message : Defect → String
  | arity r => "rule must have 1 or 2 right-hand categories: " ++ r.text
  | epsilonExpanded r => "epsilon can't be rewritten: " ++ r.text
  | epsilonNotAlone r => "epsilon must be the only right-hand category: " ++ r.text
  | severalHeirs r => "only one child can inherit the stack: " ++ r.text
  | orphanHeir r => "a child inherits a stack the parent doesn't have: " ++ r.text
  | pushesAndPops r => "rule both pushes and pops: " ++ r.text
  | movesSeveral r => "rule moves more than one stack symbol: " ++ r.text
  | badStack c => "bad stack annotation on " ++ c.text
  | wildcardLeft r => r.text ++ " has a wildcard"
  | cyclicUnit => "cyclic unit production"
  | onLine line defect => "line " ++ toString line ++ ": " ++ defect.message

end Defect

/-- What a reader was looking for. -/
inductive Expected where
  /-- A name. -/
  | name
  /-- The arrow of a rule. -/
  | arrow
  /-- One given character. -/
  | char (c : Char)
deriving DecidableEq

/-- The pattern by which an error message shows what was expected. -/
def Expected.text : Expected → String
  | name => "[a-zA-Z0-9\\-_']+"
  | arrow => "->"
  | char c => c.toString

/-- Where in a source text a reader was. -/
inductive Place where
  | line (number : Nat)
  | ruleLhs
  | ruleArrow
  | ruleRhs
  | category
  | name
  | stackOf (word : String)
deriving DecidableEq

/-- The wording of a place. -/
def Place.text : Place → String
  | line number => "line " ++ toString number
  | ruleLhs => "rule lhs"
  | ruleArrow => "rule arrow"
  | ruleRhs => "rule rhs"
  | category => "category"
  | name => "name"
  | stackOf word => "stack of " ++ word

/-- Why a source text could not be read. -/
inductive Unreadable where
  /-- Something is missing in front of the rest of the line. -/
  | missing (expected : Expected) (rest : String)
  /-- A part of speech is not followed by a colon. -/
  | noColon (partOfSpeech : String)
  /-- A grammar without rules. -/
  | noRules
deriving DecidableEq

/-- The wording of a reader's complaint. -/
def Unreadable.message : Unreadable → String
  | missing expected rest => "couldn't match " ++ expected.text ++ " at '" ++ rest ++ "'"
  | noColon partOfSpeech => "expected ':' after " ++ partOfSpeech
  | noRules => "empty ruleset"

/-- Why a file could not be read. -/
inductive FileFault where
  | notFound
  | notADirectory
  | isADirectory
  /-- A name on the path, or the whole path, is longer than the system allows. -/
  | nameTooLong
deriving DecidableEq

/-- The wording of a file fault, with the system's number for it. -/
def FileFault.message : FileFault → String
  | notFound => "No such file or directory (os error 2)"
  | notADirectory => "Not a directory (os error 20)"
  | isADirectory => "Is a directory (os error 21)"
  | nameTooLong => "File name too long (os error 36)"

/-- An outcome a caller has to expect. -/
inductive Fault where
  /-- A rule or grammar that is not well formed. -/
  | malformed (defect : Defect)
  /-- A column took more work than its limit. -/
  | unbounded (column limit : Nat)
  /-- Cancellation was requested. -/
  | cancelled
  /-- A source text could not be read; the places lead from the outermost to the innermost. -/
  | unreadable (places : List Place) (cause : Unreadable)
  /-- A file could not be read. -/
  | file (cause : FileFault)
deriving DecidableEq

namespace Fault

/-- The wording of a fault. -/
def message : Fault → String
  | malformed defect => "malformed hypothesis: " ++ defect.message
  | unbounded column limit =>
    "unbounded derivation: column " ++ toString column ++ " exceeded " ++ toString limit ++
      " states"
  | cancelled => "parse cancelled"
  | unreadable places cause =>
    "syntax error: " ++ String.join (places.map fun place => place.text ++ ": ") ++ cause.message
  | file cause => cause.message

/-- Whether the fault speaks against the grammar, rather than against its source or the caller. -/
def rejectsHypothesis : Fault → Bool
  | malformed _ => true
  | unbounded _ _ => true
  | _ => false

/-- Adds the place around a reader's complaint; other faults stay as they are. -/
def within (place : Place) : Fault → Fault
  | unreadable places cause => unreadable (place :: places) cause
  | fault => fault

end Fault

/-- A call that its caller should not have made. -/
inductive Breach where
  | indexOutOfBounds
  | notLatestRule
  | alreadyBuilt
  | insertOutsideTransaction
  | insertingDeadRule
  | lookupOutOfSync
  | indexOutOfSync
  | linkedToRemoved
  | transactionOpen
  | nothingToAccept
  | nothingToReject
  | changeOutsideTransaction
  | notClosedUnderRenaming
  | lengthOverflow
deriving DecidableEq

/-- The wording of a breach. -/
def Breach.message : Breach → String
  | indexOutOfBounds => "index out of bounds"
  | notLatestRule => "only the latest rule can be retracted"
  | alreadyBuilt => "chart was already built"
  | insertOutsideTransaction => "rule inserted outside a transaction"
  | insertingDeadRule => "inserting a rule the grammar doesn't have"
  | lookupOutOfSync => "chart lookup out of sync"
  | indexOutOfSync => "chart index out of sync"
  | linkedToRemoved => "live state linked to a removed one"
  | transactionOpen => "transaction already open"
  | nothingToAccept => "no transaction to accept"
  | nothingToReject => "no transaction to reject"
  | changeOutsideTransaction => "grammar changed outside a transaction"
  | notClosedUnderRenaming => "rule space is closed under renaming nonterminals"
  | lengthOverflow => "attempt to add with overflow"

/-- Whatever ends a computation. -/
inductive Failure where
  | fault (fault : Fault)
  | breach (breach : Breach)
deriving DecidableEq

end IndexedGrammar
