import IndexedGrammar.Schema
import IndexedGrammar.Source.Scan

/-!
# Reading schema grammars

A statement is a category, an arrow, and the categories it expands to; with none of them the
rule is an epsilon rule. All statements are read before the rules are checked.
-/

namespace IndexedGrammar

/-- Reads a rule from a statement. -/
def Rule.read (line : List Char) : Except Fault Rule := do
  let (lhs, line) ← Source.within .ruleLhs (Source.scanCategory (Source.skipSpace line))
  let line ← Source.scanArrow (Source.skipSpace line)
  let rhs ← Source.within .ruleRhs (Source.readList Source.scanCategory line)
  return if rhs.isEmpty then .epsilon lhs else ⟨lhs, rhs, none⟩

namespace Schema

/-- Adds the line number to a defect. -/
def onLine (line : Nat) : Fault → Fault
  | .malformed defect => .malformed (.onLine line defect)
  | fault => fault

/-- Reads a schema grammar, which has at least one rule. -/
def read (text : String) : Except Fault Schema := do
  let rules ← (Source.statements text).mapM fun (number, line) => do
    let rule ← Source.within (.line number) (Rule.read line)
    return (number, rule)
  if rules.isEmpty then
    throw (.unreadable [] .noRules)
  rules.foldlM (fun schema (number, rule) => (schema.insert rule).mapError (onLine number)) empty

end Schema

end IndexedGrammar
