import IndexedGrammar.Proofs.Expansion.Compiled
import IndexedGrammar.Proofs.StackPattern.Texts
import Mathlib.Algebra.BigOperators.Ring.Finset

/-!
# Expansion ends

A turn of expansion takes the first category out of the queue, works out what each schema rule makes of it, and
queues whatever is met for the first time. The depth of a stack that is handed down is reckoned from the depths
of the category and the patterns, and no turn asks whether a category can be expressed. Rules may push symbols
for ever or lead back to each other. Still, what is met is written on a right-hand side without a wildcard,
however deep it is, or it is the name of an heir with a bounded stack over the symbols that are written there.
So no category is taken twice, there are no more turns than such categories, and the turns lead to what the
expansion is defined to be.
-/

namespace IndexedGrammar

namespace Stack

/-- The stacks of bounded depth over an alphabet, counted by their depths. -/
theorem length_stacksOver (alphabet : List String) (depth : Nat) :
    (stacksOver alphabet depth).length = ∑ i ∈ Finset.range (depth + 1), alphabet.length ^ i := by
  induction depth with
  | zero => rfl
  | succ depth ih =>
    have hstep : (stacksOver alphabet (depth + 1)).length =
        alphabet.length * (stacksOver alphabet depth).length + 1 := by
      simp only [stacksOver, List.length_cons, List.length_flatMap, List.length_map, List.map_const',
        List.sum_replicate_nat]
    rw [hstep, ih, Finset.sum_range_succ' _ (depth + 1), Finset.mul_sum, pow_zero]
    simp only [pow_succ']

end Stack

namespace Category

variable {partsOfSpeech : Std.ExtTreeSet String} {maxDepth : Nat} {captured : String} {written : Category}

/-- The right-hand category that a written one stands for, given a captured text and its depth. There is none if
the depths add up to more than the bound, or if it is a part of speech with a stack. -/
def handed? (partsOfSpeech : Std.ExtTreeSet String) (maxDepth : Nat) (captured : String) (capturedDepth : Nat)
    (written : Category) : Option Category :=
  match written.pattern? with
  | none =>
    if 0 < written.depth && partsOfSpeech.contains written.name then none else some written
  | some p =>
    if maxDepth < capturedDepth + p.depth then none
    else
      let child : Category := ⟨written.name, p.substitute captured⟩
      if 0 < child.depth && partsOfSpeech.contains child.name then none else some child

/-- The depth of the stack that is handed down need not be counted if that of the captured text is known. -/
theorem handed?_eq (h : written.hasProperStack = true) (hcaptured : Stack.IsConcrete captured) :
    written.handed? partsOfSpeech maxDepth captured (Stack.symbols captured).length =
      written.filled? partsOfSpeech maxDepth captured := by
  unfold handed? filled?
  cases hp : written.pattern? with
  | none => rfl
  | some p =>
    dsimp only
    rw [depth_substitute h hp hcaptured, Nat.add_comm]

end Category

namespace Rule

variable {partsOfSpeech : Std.ExtTreeSet String} {maxDepth : Nat} {r : Rule} {c : Category}

/-- The right-hand side of the instance of a schema rule for a concrete category, where the depth of what is
captured is that of the category less that of the pattern. -/
def unified? (partsOfSpeech : Std.ExtTreeSet String) (maxDepth : Nat) (r : Rule) (c : Category) :
    Option (List Category) :=
  if r.lhs.name ≠ c.name then none
  else match r.lhs.pattern? with
    | none => if r.lhs = c then some r.rhs else none
    | some p =>
      match p.capture c.stack with
      | none => none
      | some captured =>
        if !captured.isEmpty && r.heir?.isNone then none
        else r.rhs.mapM (Category.handed? partsOfSpeech maxDepth captured (c.depth - p.depth))

/-- Reckoning depths gives the instances of a rule that counting them gives. -/
theorem unified?_eq (hr : r.Proper) (hc : Stack.IsConcrete c.stack) :
    r.unified? partsOfSpeech maxDepth c = r.instance? partsOfSpeech maxDepth c := by
  unfold unified? instance?
  cases hp : r.lhs.pattern? with
  | none => rfl
  | some p =>
    cases hcapture : p.capture c.stack with
    | none => simp only [hcapture]
    | some captured =>
      have hlhs := hr.hasProperStack r.lhs List.mem_cons_self
      have hdepth := Category.depth_eq_add_of_capture hlhs hp hc hcapture
      obtain ⟨hcaptured, -⟩ := (StackPattern.capture_eq_some_iff hc).mp hcapture
      have hrhs : ∀ written ∈ r.rhs,
          Category.handed? partsOfSpeech maxDepth captured (c.depth - p.depth) written =
            Category.filled? partsOfSpeech maxDepth captured written := by
        intro written hwritten
        rw [hdepth, Nat.add_sub_cancel_left]
        exact Category.handed?_eq (hr.hasProperStack written (List.mem_cons_of_mem _ hwritten)) hcaptured
      simp only [hcapture, mapM_congr hrhs]

end Rule

namespace Schema

variable {s : Schema} {partsOfSpeech : Std.ExtTreeSet String} {settings : Settings} {c : Category}

/-- The start category, the categories that are written on right-hand sides without a wildcard, and for each one
with a wildcard its name with all bounded stacks over the symbols that are written there. -/
def withinReach (s : Schema) (settings : Settings) : List Category :=
  .bare settings.start :: s.plainChildren.dedup ++
    (s.children.filter Category.hasWildcard).dedup.flatMap fun written =>
      (Stack.stacksOver s.alphabet.dedup settings.maxStackDepth).map (Category.ofSymbols written.name)

/-- Every category that is reached is among these. -/
theorem Reaches.mem_withinReach (hs : s.Valid) (h : s.Reaches partsOfSpeech settings c) :
    c ∈ s.withinReach settings := by
  rw [withinReach, List.cons_append, List.mem_cons, List.mem_append]
  cases h with
  | start => exact .inl rfl
  | child hc hr hyields hd =>
    obtain ⟨hspells, hplain | ⟨hname, hdepth⟩⟩ := (hc.spells hs).child hs hr hyields hd
    · exact .inr (.inl (List.mem_dedup.mpr hplain))
    · obtain ⟨written, hwritten, hname⟩ := List.mem_map.mp hname
      rw [Category.depth_eq_length hspells.isConcrete] at hdepth
      refine .inr (.inr (List.mem_flatMap.mpr ⟨written, List.mem_dedup.mpr hwritten, ?_⟩))
      refine List.mem_map.mpr ⟨c.symbols, Stack.mem_stacksOver hdepth fun symbol hsymbol =>
        List.mem_dedup.mpr (hspells.mem_alphabet symbol hsymbol), ?_⟩
      rw [Category.ofSymbols, hname, Category.symbols, hspells.isConcrete.join_symbols]

/-- These are one, one for each right-hand category without a wildcard, and for each one with a wildcard as many
as there are bounded stacks. -/
theorem length_withinReach (s : Schema) (settings : Settings) :
    (s.withinReach settings).length = 1 + s.plainChildren.dedup.length +
      (s.children.filter Category.hasWildcard).dedup.length *
        ∑ i ∈ Finset.range (settings.maxStackDepth + 1), s.alphabet.dedup.length ^ i := by
  simp only [withinReach, List.cons_append, List.length_cons, List.length_append, List.length_flatMap,
    List.length_map, List.map_const', List.sum_replicate_nat, Stack.length_stacksOver]
  omega

end Schema

namespace Expansion

/-- Queues a category that was met for the first time, if it can have rules, whatever it is. -/
def meetFreely (e : Expansion) (c : Category) : Expansion :=
  if e.grammar.isNonterminal c && !e.seen.contains c then
    { e with queue := e.queue ++ [c], seen := e.seen.insert c }
  else e

/-- Adds what a numbered schema rule makes of a category, unless that production is there. -/
def applyFreely (maxDepth : Nat) (c : Category) (e : Expansion) (numbered : Nat × Rule) : Expansion :=
  match numbered.2.unified? e.grammar.partsOfSpeech maxDepth c with
  | none => e
  | some rhs =>
    let e := rhs.foldl meetFreely e
    if e.grammar.containsProduction c rhs then e
    else { e with grammar := e.grammar.insert ⟨c, rhs, some numbered.1⟩ }

/-- Adds what all rules of its name make of a category. -/
def expandFreely (s : Schema) (maxDepth : Nat) (c : Category) (e : Expansion) : Expansion :=
  let e := (s.rulesNamed c.name).foldl (applyFreely maxDepth c) e
  { e with grammar := e.grammar.markExpanded c }

/-- Takes the first category out of the queue, and expands it unless that was done before. -/
def turn (s : Schema) (maxDepth : Nat) (e : Expansion) : Option (Category × Expansion) :=
  match e.queue with
  | [] => none
  | c :: rest =>
    let e := { e with queue := rest }
    some (c, if e.grammar.expanded.contains c then e else e.expandFreely s maxDepth c)

/-- Turns of an expansion, with the categories that were taken out of the queue. -/
inductive Turns (s : Schema) (maxDepth : Nat) (before : Expansion) : List Category → Expansion → Prop
  | none : Turns s maxDepth before [] before
  | next {taken : List Category} {e after : Expansion} {c : Category} : Turns s maxDepth before taken e →
      e.turn s maxDepth = some (c, after) → Turns s maxDepth before (taken ++ [c]) after

variable {s : Schema} {partsOfSpeech : Std.ExtTreeSet String} {settings : Settings} {maxDepth : Nat}
  {e after : Expansion} {c : Category} {taken : List Category}

/-- No admitted category needs the question whether it is admitted. -/
theorem foldl_meetFreely_eq {rhs : List Category} (h : ∀ d ∈ rhs, s.admits maxDepth d = true) :
    rhs.foldl meetFreely e = rhs.foldl (meet s maxDepth) e := by
  refine List.foldl_ext _ _ e fun e d hd => ?_
  rw [meetFreely, meet, h d hd, Bool.and_true]

/-- A category that the schema spells is expanded as it is where that question is asked. -/
theorem expandFreely_eq (hs : s.Valid) (hc : s.Spells c) :
    e.expandFreely s maxDepth c = e.expand s maxDepth c := by
  have hrules : (s.rulesNamed c.name).foldl (applyFreely maxDepth c) e =
      (s.rulesNamed c.name).foldl (apply s maxDepth c) e := by
    refine List.foldl_ext _ _ e fun e numbered hnumbered => ?_
    have hr : numbered.2 ∈ s.rules := Array.mem_of_getElem? (Schema.mem_rulesNamed.mp hnumbered).1
    rw [applyFreely, apply, Rule.unified?_eq (hs _ hr) hc.isConcrete]
    cases hinstance : numbered.2.instance? e.grammar.partsOfSpeech maxDepth c with
    | none => rfl
    | some rhs =>
      have hyields := (Rule.instance?_eq_some_iff (hs _ hr) hc.isConcrete).mp hinstance
      dsimp only
      rw [foldl_meetFreely_eq fun d hd => hc.admits_child hs hr hyields hd]
  rw [expandFreely, expand, hrules]

/-- A turn of a consistent expansion expands the first category of the queue, which was not expanded before. -/
theorem Consistent.turn_eq (hs : s.Valid) (h : e.Consistent s partsOfSpeech settings) {rest : List Category}
    (hqueue : e.queue = c :: rest) : c ∉ e.grammar.expanded ∧ e.turn s settings.maxStackDepth =
      some (c, Expansion.expand s settings.maxStackDepth c { e with queue := rest }) := by
  have hmem : c ∈ e.queue := hqueue ▸ List.mem_cons_self
  have hnew : c ∉ e.grammar.expanded := h.not_taken hmem
  have hspells : s.Spells c := (h.reaches (h.mem_seen.mpr (.inl hmem))).spells hs
  refine ⟨hnew, ?_⟩
  rw [turn, hqueue]
  dsimp only
  rw [if_neg (by rwa [← Std.ExtTreeSet.mem_iff_contains]), expandFreely_eq hs hspells]

/-- What holds after some turns: the expansion is consistent, leads to the same end as at first, and exactly the
categories that were taken have been expanded, each once. -/
structure Turned (s : Schema) (partsOfSpeech : Std.ExtTreeSet String) (settings : Settings)
    (taken : List Category) (e : Expansion) : Prop where
  consistent : e.Consistent s partsOfSpeech settings
  run_eq : e.run s settings.maxStackDepth =
    (initial partsOfSpeech settings).run s settings.maxStackDepth
  nodup : taken.Nodup
  mem_taken : ∀ {c}, c ∈ taken ↔ c ∈ e.grammar.expanded

/-- One turn keeps what holds. -/
theorem Turned.next (hs : s.Valid) (h : Turned s partsOfSpeech settings taken e)
    (hturn : e.turn s settings.maxStackDepth = some (c, after)) :
    Turned s partsOfSpeech settings (taken ++ [c]) after := by
  cases hqueue : e.queue with
  | nil =>
    rw [turn, hqueue] at hturn
    exact nomatch hturn
  | cons first rest =>
    obtain ⟨hnew, heq⟩ := h.consistent.turn_eq hs hqueue
    obtain ⟨rfl, rfl⟩ := Prod.mk.inj (Option.some.inj (heq.symm.trans hturn))
    refine ⟨h.consistent.expand hs hqueue, (run_of_cons hqueue).symm.trans h.run_eq, ?_, fun {d} => ?_⟩
    · rw [← List.concat_eq_append]
      exact h.nodup.concat fun hmem => hnew (h.mem_taken.mp hmem)
    · rw [mem_expanded_expand, List.mem_append, List.mem_singleton]
      exact or_congr_left h.mem_taken

/-- Any number of turns lead to what holds. -/
theorem Turns.turned (hs : s.Valid)
    (h : Turns s settings.maxStackDepth (initial partsOfSpeech settings) taken e) :
    Turned s partsOfSpeech settings taken e := by
  induction h with
  | none =>
    refine ⟨consistent_initial, rfl, List.nodup_nil, fun {c} => ?_⟩
    simp [initial, Grammar.new, Grammar.insert]
  | next _ hturn ih => exact ih.next hs hturn

/-- Turns can be taken until the queue is empty. -/
theorem Turns.exists_end (hs : s.Valid)
    (h : Turns s settings.maxStackDepth (initial partsOfSpeech settings) taken e) :
    ∃ more after, Turns s settings.maxStackDepth (initial partsOfSpeech settings) (taken ++ more) after ∧
      after.queue = [] := by
  induction e using Expansion.run.induct s settings.maxStackDepth generalizing taken with
  | case1 e hqueue => exact ⟨[], e, by rwa [List.append_nil], hqueue⟩
  | case2 e c rest hqueue ih =>
    obtain ⟨-, hturn⟩ := (h.turned hs).consistent.turn_eq hs hqueue
    obtain ⟨more, after, hturns, hempty⟩ := ih (h.next hturn)
    exact ⟨c :: more, after, by rwa [List.append_assoc, List.singleton_append] at hturns, hempty⟩

/-- The categories that are taken in some turns are as many as can be reached at most. -/
theorem Turned.length_le (hs : s.Valid) (h : Turned s partsOfSpeech settings taken e) :
    taken.length ≤ (s.withinReach settings).length := by
  refine (List.subperm_of_subset h.nodup fun c hc => ?_).length_le
  have hseen : c ∈ e.seen := h.consistent.mem_seen.mpr (.inr (h.mem_taken.mp hc))
  exact (h.consistent.reaches hseen).mem_withinReach hs

end Expansion

/-- Expanding a schema grammar ends. However many turns are taken, no category is taken out of the queue twice,
those taken are the ones that were expanded, and they are at most one more than the right-hand categories without
a wildcard and, for each right-hand category with one, the stacks of bounded depth over the symbols that are
written on right-hand sides. More turns can be taken until the queue is empty, and what the rules then are is what
compilation leads to. -/
theorem compile_ends {rules : List Rule} {s : Schema} (hs : Schema.ofRules rules = .ok s)
    (partsOfSpeech : Std.ExtTreeSet String) (settings : Settings) {taken : List Category} {e : Expansion}
    (h : Expansion.Turns s settings.maxStackDepth (Expansion.initial partsOfSpeech settings) taken e) :
    taken.Nodup ∧ (∀ c, c ∈ taken ↔ c ∈ e.grammar.expanded) ∧
    taken.length ≤ 1 + s.plainChildren.dedup.length +
      (s.children.filter Category.hasWildcard).dedup.length *
        ∑ i ∈ Finset.range (settings.maxStackDepth + 1), s.alphabet.dedup.length ^ i ∧
    ∃ more after,
      Expansion.Turns s settings.maxStackDepth (Expansion.initial partsOfSpeech settings)
        (taken ++ more) after ∧
      after.queue = [] ∧
      compile s partsOfSpeech settings =
        if after.grammar.hasUnitCycle then .error (.malformed .cyclicUnit) else .ok after.grammar := by
  have hvalid := Schema.valid_ofRules hs
  have hturned := h.turned hvalid
  obtain ⟨more, after, hturns, hempty⟩ := h.exists_end hvalid
  have hrun := (hturns.turned hvalid).run_eq
  rw [Expansion.run_of_nil hempty] at hrun
  refine ⟨hturned.nodup, fun c => hturned.mem_taken, ?_, more, after, hturns, hempty, ?_⟩
  · rw [← Schema.length_withinReach]
    exact hturned.length_le hvalid
  · rw [compile, ← hrun]

/-- Rules that push a symbol for ever, on an empty stack and on one of four symbols. -/
def Sample.climbing : List Rule :=
  [⟨.bare "START", [.bare "T", ⟨"T", "x.x.x.x"⟩], none⟩, ⟨⟨"T", "*"⟩, [.bare "n", ⟨"T", "*.x"⟩], none⟩]

/-- With the usual bound of three symbols, no more than eight categories are expanded under these rules. -/
theorem compile_ends_climbing : ∃ s taken e, Schema.ofRules Sample.climbing = .ok s ∧
    Expansion.Turns s 3 (.initial (.ofList ["n"]) {}) taken e ∧ e.queue = [] ∧
    taken.Nodup ∧ taken.length ≤ 8 := by
  have hs : Schema.ofRules Sample.climbing = .ok ⟨Sample.climbing.toArray⟩ :=
    Sample.ok_of_toOption (by decide +kernel)
  obtain ⟨-, -, -, taken, e, hturns, hqueue, -⟩ := compile_ends hs (.ofList ["n"]) {} .none
  obtain ⟨hnodup, -, hlength, -⟩ := compile_ends hs (.ofList ["n"]) {} hturns
  have hbound : 1 + (Schema.mk Sample.climbing.toArray).plainChildren.dedup.length +
      ((Schema.mk Sample.climbing.toArray).children.filter Category.hasWildcard).dedup.length *
        ∑ i ∈ Finset.range (3 + 1), (Schema.mk Sample.climbing.toArray).alphabet.dedup.length ^ i = 8 := by
    decide +kernel
  exact ⟨_, taken, e, hs, hturns, hqueue, hnodup, hlength.trans hbound.le⟩

end IndexedGrammar
