import IndexedGrammar.Grammar.UnitCycle
import IndexedGrammar.Grammar.Expressible
import IndexedGrammar.Settings

/-!
# Expansion of schema grammars

A schema rule applies to a concrete category if its left-hand side matches it; what the wildcard
captures is handed to the heir. Expansion collects all instances of rules for the categories that
can be reached from the start category, breadth first. A heir's stack is bounded, so the categories
reached are among finitely many, and no category is expanded twice.
-/

namespace IndexedGrammar

/-- The right-hand category that a written one stands for, given what the wildcard captured. There
is none if its stack is too deep, or if it is a part of speech with a stack. -/
def Category.filled? (partsOfSpeech : Std.ExtTreeSet String) (maxDepth : Nat) (captured : String)
    (written : Category) : Option Category :=
  match written.pattern? with
  | none =>
    if 0 < written.depth && partsOfSpeech.contains written.name then none else some written
  | some p =>
    let child : Category := ⟨written.name, p.substitute captured⟩
    if maxDepth < child.depth then none
    else if 0 < child.depth && partsOfSpeech.contains child.name then none
    else some child

/-- The right-hand side of the instance of a schema rule for a concrete category, if the rule
applies to it. A left-hand side without a wildcard applies to itself alone, as it is written. -/
def Rule.instance? (partsOfSpeech : Std.ExtTreeSet String) (maxDepth : Nat) (r : Rule)
    (c : Category) : Option (List Category) :=
  if r.lhs.name ≠ c.name then none
  else match r.lhs.pattern? with
    | none => if r.lhs = c then some r.rhs else none
    | some p =>
      match p.capture c.stack with
      | none => none
      | some captured =>
        if !captured.isEmpty && r.heir?.isNone then none
        else r.rhs.mapM (Category.filled? partsOfSpeech maxDepth captured)

/-- An expansion under way. -/
structure Expansion where
  /-- The rules found so far. -/
  grammar : Grammar
  /-- The categories still to be expanded, in order. -/
  queue : List Category
  /-- The categories ever put into the queue. -/
  seen : CategorySet

namespace Expansion

variable (s : Schema) (maxDepth : Nat)

/-- Queues a category that was met for the first time, if it can have rules. -/
def meet (e : Expansion) (c : Category) : Expansion :=
  if e.grammar.isNonterminal c && !e.seen.contains c && s.admits maxDepth c then
    { e with queue := e.queue ++ [c], seen := e.seen.insert c }
  else e

/-- Adds the instance of a numbered schema rule for a category, unless that production is there. -/
def apply (c : Category) (e : Expansion) (numbered : Nat × Rule) : Expansion :=
  match numbered.2.instance? e.grammar.partsOfSpeech maxDepth c with
  | none => e
  | some rhs =>
    let e := rhs.foldl (meet s maxDepth) e
    if e.grammar.containsProduction c rhs then e
    else { e with grammar := e.grammar.insert ⟨c, rhs, some numbered.1⟩ }

/-- Adds all rules for a category. -/
def expand (c : Category) (e : Expansion) : Expansion :=
  let e := (s.rulesNamed c.name).foldl (apply s maxDepth c) e
  { e with grammar := e.grammar.markExpanded c }

/-- How many expressible categories have not been met. -/
def unseen (e : Expansion) : Nat :=
  (s.expressible maxDepth).countP fun c => !e.seen.contains c

/-- What is left to be done: the categories in the queue and those that may still enter it. -/
def weight (e : Expansion) : Nat :=
  e.unseen s maxDepth + e.queue.length

/-- Meeting a new category of a list leaves fewer of them to be met. -/
theorem countP_insert_lt {seen : CategorySet} {c : Category} {categories : List Category}
    (hmem : c ∈ categories) (hnew : seen.contains c = false) :
    (categories.countP fun d => !(seen.insert c).contains d) + 1 ≤
      categories.countP fun d => !seen.contains d := by
  induction categories with
  | nil => simp at hmem
  | cons d rest ih =>
    have hle : (rest.countP fun d => !(seen.insert c).contains d) ≤
        rest.countP fun d => !seen.contains d :=
      List.countP_mono_left fun e _ h => by
        simp only [Std.ExtTreeSet.contains_insert, Bool.not_eq_true', Bool.or_eq_false_iff] at h ⊢
        exact h.2
    simp only [List.countP_cons]
    by_cases hd : c = d
    · subst hd
      simpa [hnew] using hle
    · have hrest := ih ((List.mem_cons.mp hmem).resolve_left hd)
      have hcontains : (seen.insert c).contains d = seen.contains d := by
        simp [Std.ExtTreeSet.contains_insert, hd]
      rw [hcontains]
      omega

/-- Queueing a category adds no work, since it was still to be met. -/
theorem weight_meet_le (e : Expansion) (c : Category) :
    (e.meet s maxDepth c).weight s maxDepth ≤ e.weight s maxDepth := by
  unfold meet
  split
  · next h =>
    simp only [Bool.and_eq_true, Bool.not_eq_true'] at h
    have := countP_insert_lt (Schema.mem_expressible_of_admits h.2) h.1.2
    simp only [weight, unseen, List.length_append, List.length_singleton]
    omega
  · exact Nat.le_refl _

/-- Queueing the categories of a right-hand side adds no work. -/
theorem weight_foldl_meet_le (e : Expansion) (rhs : List Category) :
    (rhs.foldl (meet s maxDepth) e).weight s maxDepth ≤ e.weight s maxDepth := by
  induction rhs generalizing e with
  | nil => exact Nat.le_refl _
  | cons c rest ih => exact Nat.le_trans (ih _) (weight_meet_le s maxDepth e c)

/-- Adding an instance of a rule adds no work. -/
theorem weight_apply_le (c : Category) (e : Expansion) (numbered : Nat × Rule) :
    (e.apply s maxDepth c numbered).weight s maxDepth ≤ e.weight s maxDepth := by
  unfold apply
  split
  · exact Nat.le_refl _
  · next rhs _ =>
    have := weight_foldl_meet_le s maxDepth e rhs
    dsimp only
    split <;> exact this

/-- Adding all rules for a category adds no work. -/
theorem weight_expand_le (c : Category) (e : Expansion) :
    (e.expand s maxDepth c).weight s maxDepth ≤ e.weight s maxDepth := by
  suffices h : ∀ rules : List (Nat × Rule), ∀ e : Expansion,
      (rules.foldl (apply s maxDepth c) e).weight s maxDepth ≤ e.weight s maxDepth from h _ e
  intro rules
  induction rules with
  | nil => exact fun e => Nat.le_refl _
  | cons r rest ih => exact fun e => Nat.le_trans (ih _) (weight_apply_le s maxDepth c e r)

/-- Expands the categories in the queue until none is left. -/
def run (e : Expansion) : Expansion :=
  match _ : e.queue with
  | [] => e
  | c :: rest => run (expand s maxDepth c { e with queue := rest })
termination_by e.weight s maxDepth
decreasing_by
  have := weight_expand_le s maxDepth c { e with queue := rest }
  simp only [weight, unseen, *, List.length_cons] at this ⊢
  omega

/-- The expansion before its first step. -/
def initial (partsOfSpeech : Std.ExtTreeSet String) (settings : Settings) : Expansion :=
  let start := Category.bare settings.start
  ⟨Grammar.new start settings.gamma partsOfSpeech, [start], Std.ExtTreeSet.ofList [start]⟩

end Expansion

/-- The rules reachable from the start category. A grammar with a unit cycle is malformed. -/
def compile (s : Schema) (partsOfSpeech : Std.ExtTreeSet String) (settings : Settings) :
    Except Fault Grammar :=
  let g := ((Expansion.initial partsOfSpeech settings).run s settings.maxStackDepth).grammar
  if g.hasUnitCycle then .error (.malformed .cyclicUnit) else .ok g

end IndexedGrammar
