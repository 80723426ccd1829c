import IndexedGrammar.Proofs.Result
import IndexedGrammar.Proofs.Session.Follows
import IndexedGrammar.Session

/-!
# The charts of a session

A session has one chart for each sentence of its corpus, in their order. What an operation does to each
chart it does to all of them. The exception is an insertion that is given up at some chart: the charts in
front of it have the new rule, and those behind it do not, so that from then on none of them counts.
-/

namespace IndexedGrammar

/-! Faults of runs -/

/-- Whether a fault ends a run that was under way. -/
def Fault.givesUp : Fault → Bool
  | .unbounded _ _ | .cancelled => true
  | _ => false

/-- Columns are only given up for reasons of the run. -/
theorem Run.givesUp_columns {g : Grammar} {budget : Budget} {columns : List Nat} {run : Run}
    {fault : Fault} (h : (Run.columns g budget columns run).2 = some fault) : fault.givesUp = true := by
  induction columns generalizing run with
  | nil => contradiction
  | cons k rest ih =>
    unfold Run.columns at h
    split at h
    · obtain rfl := Option.some.inj h
      rfl
    · split at h
      · exact ih h
      · obtain rfl := Option.some.inj h
        rfl

/-- An insertion into a chart is only given up for reasons of the run. -/
theorem Editor.givesUp_insertRule {g : Grammar} {e e' : Editor} {id : Nat} {fault : Fault}
    (hinsert : e.insertRule g id = .ok (e', some fault)) : fault.givesUp = true := by
  unfold Editor.insertRule Editor.afterRun at hinsert
  split at hinsert
  · contradiction
  · split at hinsert
    · split at hinsert
      · contradiction
      · have hfault := (Prod.mk.inj (Except.ok.inj hinsert)).2
        unfold Run.insertRule at hfault
        dsimp only at hfault
        split at hfault
        · contradiction
        · exact Run.givesUp_columns hfault
    · contradiction

/-! The charts of a corpus -/

/-- The chart of a sentence, which follows a grammar, with the length of the sentence and how often it
occurs. -/
structure Parsed.Follows (u : Upkeep) (lexicon : Lexicon) (g : Grammar) (before : Option Grammar)
    (failed : Bool) (sentence : List String × Nat) (parsed : Parsed Editor) : Prop where
  length : parsed.length = sentence.1.length
  occurrences : parsed.occurrences = sentence.2
  outcome : parsed.outcome.Follows u (Chart.forSentence lexicon sentence.1) g before failed

variable {u : Upkeep} {lexicon : Lexicon} {g g' : Grammar} {before before' : Option Grammar} {failed failed' : Bool}
  {sentences : List (List String × Nat)} {charts charts' : List (Parsed Editor)}

/-- The charts of a corpus follow the grammar they are parsed with. -/
theorem Corpus.parse_follows (hg : u.admits g) {corpus : Corpus} {budget : Budget}
    (hparse : corpus.parse g lexicon budget = .ok charts) :
    List.Forall₂ (Parsed.Follows u lexicon g none false) corpus.distinct charts := by
  have hsame : List.Forall₂ (· = ·) corpus.distinct corpus.distinct := List.forall₂_refl _
  refine forall₂_mapM (fun sentence other parsed heq hparsed => ?_) hsame hparse
  subst heq
  obtain ⟨e, he, hparsed⟩ := bind_eq_ok.mp hparsed
  obtain rfl := Except.ok.inj hparsed
  exact ⟨rfl, rfl, Editor.follows_parse hg he⟩

namespace Session

/-- The charts follow the grammar wherever their runs find a request for cancellation. -/
theorem requestAt_follows {s : Session} (columns : Nat → Option Nat)
    (h : List.Forall₂ (Parsed.Follows u lexicon g before failed) sentences s.charts) :
    List.Forall₂ (Parsed.Follows u lexicon g before failed) sentences (s.requestAt columns).charts :=
  forall₂_mapIdx (fun _ _ _ hparsed =>
    ⟨hparsed.length, hparsed.occurrences, hparsed.outcome.requestAt _⟩) h

/-- A change that every chart follows, unless it fails. -/
theorem mapChartsM_follows {change : Editor → Except Breach Editor}
    (hchange : ∀ {blank e e'}, Editor.Follows u blank g before failed e → change e = .ok e' →
      Editor.Follows u blank g' before' failed' e') {s s' : Session}
    (hok : s.mapChartsM change = .ok s')
    (h : List.Forall₂ (Parsed.Follows u lexicon g before failed) sentences s.charts) :
    ∃ charts, s' = { s with charts := charts } ∧
      List.Forall₂ (Parsed.Follows u lexicon g' before' failed') sentences charts := by
  obtain ⟨charts, hcharts, hok⟩ := bind_eq_ok.mp hok
  obtain rfl := Except.ok.inj hok
  refine ⟨charts, rfl, forall₂_mapM (fun sentence parsed parsed' hparsed hchanged => ?_) h hcharts⟩
  obtain ⟨e, he, hchanged⟩ := bind_eq_ok.mp hchanged
  obtain rfl := Except.ok.inj hchanged
  exact ⟨hparsed.length, hparsed.occurrences, hchange hparsed.outcome he⟩

/-- An insertion into charts is only given up for reasons of a run. -/
theorem givesUp_changeCharts {id : Nat} {fault : Fault}
    (hok : changeCharts (fun e => e.insertRule g id) charts = .ok (charts', some fault)) :
    fault.givesUp = true := by
  induction charts generalizing charts' with
  | nil => exact absurd (Prod.mk.inj (Except.ok.inj hok)).2 nofun
  | cons parsed rest ih =>
    obtain ⟨⟨e, given⟩, he, hok⟩ := bind_eq_ok.mp hok
    cases given with
    | some f =>
      obtain rfl := Option.some.inj (Prod.mk.inj (Except.ok.inj hok)).2
      exact Editor.givesUp_insertRule he
    | none =>
      obtain ⟨⟨rest', later⟩, hlater, hok⟩ := bind_eq_ok.mp hok
      obtain rfl := (Prod.mk.inj (Except.ok.inj hok)).2
      exact ih hlater

/-- An insertion that every chart follows, unless it is given up at one of them. -/
theorem changeCharts_follows (hg : u.admits g) {r : Rule} (hinserted : u.admits (g.insert r)) {fault : Option Fault}
    (h : List.Forall₂ (Parsed.Follows u lexicon g before failed) sentences charts)
    (hok : changeCharts (fun e => e.insertRule (g.insert r) g.size) charts = .ok (charts', fault)) :
    List.Forall₂ (Parsed.Follows u lexicon (g.insert r) before (failed || fault.isSome)) sentences
      charts' := by
  induction h generalizing charts' fault with
  | nil =>
    obtain ⟨rfl, rfl⟩ := Prod.mk.inj (Except.ok.inj hok)
    exact .nil
  | @cons sentence parsed sentences charts hparsed hrest ih =>
    obtain ⟨⟨e, given⟩, he, hok⟩ := bind_eq_ok.mp hok
    have hfirst := hparsed.outcome.insertRule hg hinserted he
    cases given with
    | some f =>
      obtain ⟨rfl, rfl⟩ := Prod.mk.inj (Except.ok.inj hok)
      rw [Option.isSome_some, Bool.or_true] at hfirst ⊢
      refine .cons ⟨hparsed.length, hparsed.occurrences, hfirst⟩ (hrest.imp fun _ _ hother => ?_)
      exact ⟨hother.length, hother.occurrences, hother.outcome.outdate r⟩
    | none =>
      obtain ⟨⟨rest, later⟩, hlater, hok⟩ := bind_eq_ok.mp hok
      obtain ⟨rfl, rfl⟩ := Prod.mk.inj (Except.ok.inj hok)
      rw [Option.isSome_none, Bool.or_false] at hfirst
      exact .cons ⟨hparsed.length, hparsed.occurrences, hfirst.mono later.isSome⟩ (ih hlater)

end Session

end IndexedGrammar
