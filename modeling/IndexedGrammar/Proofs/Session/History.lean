import IndexedGrammar.Proofs.Score
import IndexedGrammar.Proofs.Session.Charts

/-!
# Histories of sessions

A session is opened with a grammar and a corpus, and then goes through transactions, in which rules are
inserted, refused, removed and pruned. At every point its charts follow its grammar, and the changes of the
open transaction lead back to the grammar before it. After an insertion that was given up, more changes can
be made, but in the end the transaction has to be rejected.

So whenever no change of the charts has failed, the score of a session is that of its grammar, evaluated
anew.
-/

namespace IndexedGrammar.Session

/-- Whether an insertion was given up while the charts were changed. A rule that is refused changes
nothing. -/
def gaveUp : Except Fault Nat → Bool
  | .error fault => fault.givesUp
  | .ok _ => false

/-- Sessions on a corpus as they come about, and whether a change of the charts has failed since the open
transaction began. The session is opened with a fit grammar, and no rule that is inserted, rather than
refused, uses the synthetic name; a request for cancellation can be found at any column of any chart; and a
transaction in which a change has failed is not accepted. -/
inductive History (lexicon : Lexicon) (settings : Settings) (corpus : Corpus) : Session → Bool → Prop
  | opened {s : Session} {g : Grammar} {cancellable cancelled : Bool} :
      g.Fit → ofCorpus g lexicon settings cancellable cancelled corpus = .ok s →
      History lexicon settings corpus s false
  | request {s : Session} {failed : Bool} (columns : Nat → Option Nat) :
      History lexicon settings corpus s failed → History lexicon settings corpus (s.requestAt columns) failed
  | begin {s s' : Session} {failed : Bool} :
      History lexicon settings corpus s failed → s.begin = .ok s' →
      History lexicon settings corpus s' failed
  | insertRule {s s' : Session} {failed : Bool} {r : Rule} {result : Except Fault Nat} :
      History lexicon settings corpus s failed → s.insertRule r = .ok (s', result) →
      ((∀ defect, result ≠ .error (.malformed defect)) → s.grammar.RootUnusedIn r) →
      History lexicon settings corpus s' (failed || gaveUp result)
  | removeRule {s s' : Session} {failed : Bool} {id : Nat} {inUse : Bool} :
      History lexicon settings corpus s failed → s.removeRule id = .ok (s', inUse) →
      History lexicon settings corpus s' failed
  | pruneUnused {s s' : Session} {failed : Bool} {unused : List Nat} :
      History lexicon settings corpus s failed → s.pruneUnused = .ok (s', unused) →
      History lexicon settings corpus s' failed
  | accept {s s' : Session} :
      History lexicon settings corpus s false → s.accept = .ok s' →
      History lexicon settings corpus s' false
  | reject {s s' : Session} {failed : Bool} :
      History lexicon settings corpus s failed → s.reject = .ok s' →
      History lexicon settings corpus s' false

/-- Sessions on a corpus as they come about with any grammar and any rules, and whether a change of the charts has
failed since the open transaction began. A request for cancellation can be found at any column of any chart, and a
transaction in which a change has failed is not accepted. -/
inductive Course (lexicon : Lexicon) (settings : Settings) (corpus : Corpus) : Session → Bool → Prop
  | opened {s : Session} {g : Grammar} {cancellable cancelled : Bool} :
      g.Reachable → ofCorpus g lexicon settings cancellable cancelled corpus = .ok s →
      Course lexicon settings corpus s false
  | request {s : Session} {failed : Bool} (columns : Nat → Option Nat) :
      Course lexicon settings corpus s failed → Course lexicon settings corpus (s.requestAt columns) failed
  | begin {s s' : Session} {failed : Bool} :
      Course lexicon settings corpus s failed → s.begin = .ok s' → Course lexicon settings corpus s' failed
  | insertRule {s s' : Session} {failed : Bool} {r : Rule} {result : Except Fault Nat} :
      Course lexicon settings corpus s failed → s.insertRule r = .ok (s', result) →
      Course lexicon settings corpus s' (failed || gaveUp result)
  | removeRule {s s' : Session} {failed : Bool} {id : Nat} {inUse : Bool} :
      Course lexicon settings corpus s failed → s.removeRule id = .ok (s', inUse) →
      Course lexicon settings corpus s' failed
  | pruneUnused {s s' : Session} {failed : Bool} {unused : List Nat} :
      Course lexicon settings corpus s failed → s.pruneUnused = .ok (s', unused) →
      Course lexicon settings corpus s' failed
  | accept {s s' : Session} :
      Course lexicon settings corpus s false → s.accept = .ok s' → Course lexicon settings corpus s' false
  | reject {s s' : Session} {failed : Bool} :
      Course lexicon settings corpus s failed → s.reject = .ok s' → Course lexicon settings corpus s' false

/-- What holds of a session on a corpus whose charts are kept up with its grammar, with the grammar before the open
transaction, if one is open, and whether a change of the charts has failed since then. -/
structure Coherent (u : Upkeep) (lexicon : Lexicon) (settings : Settings) (corpus : Corpus)
    (before : Option Grammar) (failed : Bool) (s : Session) : Prop where
  settings_eq : s.settings = settings
  admitted : u.admits s.grammar
  charts : List.Forall₂ (Parsed.Follows u lexicon s.grammar before failed) corpus.distinct s.charts
  inTransaction_eq : s.inTransaction = before.isSome
  back : ∀ g₀ ∈ before, u.admits g₀ ∧ ∀ changes ∈ s.changes, changes.foldlM takeBack s.grammar = .ok g₀
  sound : before = none → failed = false

variable {u : Upkeep} {lexicon : Lexicon} {settings : Settings} {corpus : Corpus} {before : Option Grammar}
  {failed : Bool} {s s' : Session}

/-- What comes about with a fit grammar comes about. -/
theorem History.course (h : History lexicon settings corpus s failed) : Course lexicon settings corpus s failed := by
  induction h with
  | opened hg hopen => exact .opened hg.reachable hopen
  | request columns _ ih => exact .request columns ih
  | begin _ hbegin ih => exact .begin ih hbegin
  | insertRule _ hinsert _ ih => exact .insertRule ih hinsert
  | removeRule _ hremove ih => exact .removeRule ih hremove
  | pruneUnused _ hprune ih => exact .pruneUnused ih hprune
  | accept _ haccept ih => exact .accept ih haccept
  | reject _ hreject ih => exact .reject ih hreject

/-- A session outside a transaction is coherent if its charts follow its grammar. -/
theorem coherent_of_charts (hsettings : s.settings = settings) (hadmitted : u.admits s.grammar)
    (hcharts : List.Forall₂ (Parsed.Follows u lexicon s.grammar none false) corpus.distinct s.charts)
    (hchanges : s.changes = none) : Coherent u lexicon settings corpus none false s where
  settings_eq := hsettings
  admitted := hadmitted
  charts := hcharts
  inTransaction_eq := congrArg Option.isSome hchanges
  back g₀ h := absurd h (Option.not_mem_none g₀)
  sound _ := rfl

/-- A change that is noted, and that can be taken back, leads back as far as before. -/
theorem Coherent.back_note (h : Coherent u lexicon settings corpus before failed s) {g : Grammar}
    {change : Change} (hback : takeBack g change = .ok s.grammar) :
    ∀ g₀ ∈ before, u.admits g₀ ∧
      ∀ changes ∈ s.changes.map (change :: ·), changes.foldlM takeBack g = .ok g₀ := by
  intro g₀ hg₀
  obtain ⟨hadmitted, hearlier⟩ := h.back g₀ hg₀
  refine ⟨hadmitted, fun changes hchanges => ?_⟩
  obtain ⟨earlier, hmem, rfl⟩ := Option.mem_map.mp hchanges
  rw [List.foldlM_cons, hback]
  exact hearlier earlier hmem

/-- A session is coherent when it is opened. -/
theorem coherent_ofCorpus {g : Grammar} (hg : u.admits g) {cancellable cancelled : Bool}
    (hopen : ofCorpus g lexicon settings cancellable cancelled corpus = .ok s) :
    Coherent u lexicon settings corpus none false s := by
  obtain ⟨charts, hcharts, hopen⟩ := bind_eq_ok.mp hopen
  obtain rfl := Except.ok.inj hopen
  exact coherent_of_charts rfl hg (Corpus.parse_follows hg hcharts) rfl

/-- Requesting cancellation keeps a session coherent. -/
theorem Coherent.requestAt (h : Coherent u lexicon settings corpus before failed s) (columns : Nat → Option Nat) :
    Coherent u lexicon settings corpus before failed (s.requestAt columns) :=
  { h with charts := requestAt_follows columns h.charts }

/-- A transaction that is opened leads back to the grammar as it is. -/
theorem Coherent.begin (h : Coherent u lexicon settings corpus before failed s) (hbegin : s.begin = .ok s') :
    failed = false ∧ Coherent u lexicon settings corpus (some s.grammar) false s' := by
  unfold Session.begin at hbegin
  split at hbegin
  · contradiction
  · next hopen =>
    have hnone : before = none := by
      rw [h.inTransaction_eq] at hopen
      simpa using hopen
    obtain rfl := h.sound hnone
    subst hnone
    obtain ⟨changed, hchanged, hbegin⟩ := bind_eq_ok.mp hbegin
    obtain rfl := Except.ok.inj hbegin
    obtain ⟨charts, rfl, hcharts⟩ := mapChartsM_follows Editor.Follows.begin hchanged h.charts
    refine ⟨rfl, h.settings_eq, h.admitted, hcharts, rfl, fun g₀ hg₀ => ?_, fun h => absurd h (by simp)⟩
    obtain rfl := Option.mem_some.mp hg₀
    refine ⟨h.admitted, fun changes hchanges => ?_⟩
    obtain rfl := Option.mem_some.mp hchanges
    rfl

/-- What an insertion comes to: the rule is refused and nothing changes, or it is well-formed, closes no
unit cycle, and goes into the grammar and the charts. -/
theorem insertRule_cases (hg : s.grammar.Reachable) {r : Rule} {result : Except Fault Nat}
    (hinsert : s.insertRule r = .ok (s', result)) :
    (∃ defect, result = .error (.malformed defect) ∧ s' = s) ∨
    (s.inTransaction = true ∧ r.WellFormed ∧ (s.grammar.insert r).hasUnitCycle = false ∧ ∃ charts fault,
      changeCharts (fun e => e.insertRule (s.grammar.insert r) s.grammar.size) s.charts =
        .ok (charts, fault) ∧
      s' = { s with
        grammar := s.grammar.insert r
        charts := charts
        changes := s.changes.map (.inserted s.grammar.size :: ·) } ∧
      result = match fault with
        | some fault => .error fault
        | none => .ok s.grammar.size) := by
  unfold insertRule at hinsert
  split at hinsert
  · contradiction
  · next hopen =>
    rw [Bool.not_eq_true', Bool.not_eq_false] at hopen
    split at hinsert
    · next defect _ =>
      obtain ⟨rfl, rfl⟩ := Prod.mk.inj (Except.ok.inj hinsert)
      exact .inl ⟨defect, rfl, rfl⟩
    · next hdefect =>
      dsimp only at hinsert
      split at hinsert
      -- the cycle is found in the grammar with the rule, which is taken back
      · rw [Grammar.retract_insert hg r] at hinsert
        obtain ⟨rfl, rfl⟩ := Prod.mk.inj (Except.ok.inj hinsert)
        exact .inl ⟨.cyclicUnit, rfl, rfl⟩
      · next hcycle =>
        have hr : r.WellFormed := by
          unfold ruleDefect? at hdefect
          split at hdefect
          · contradiction
          · assumption
        obtain ⟨⟨charts, fault⟩, hcharts, hinsert⟩ := bind_eq_ok.mp hinsert
        refine .inr ⟨hopen, hr, Bool.eq_false_iff.mpr hcycle, charts, fault, hcharts, ?_⟩
        cases fault with
        | none =>
          obtain ⟨rfl, rfl⟩ := Prod.mk.inj (Except.ok.inj hinsert)
          exact ⟨rfl, rfl⟩
        | some fault =>
          obtain ⟨rfl, rfl⟩ := Prod.mk.inj (Except.ok.inj hinsert)
          exact ⟨rfl, rfl⟩

/-- An insertion keeps a session coherent, and fails only if it is given up. -/
theorem Coherent.insertRule (h : Coherent u lexicon settings corpus before failed s) {r : Rule}
    {result : Except Fault Nat} (hinsert : s.insertRule r = .ok (s', result))
    (hinserted : r.WellFormed → (s.grammar.insert r).hasUnitCycle = false →
      (∀ defect, result ≠ .error (.malformed defect)) → u.admits (s.grammar.insert r)) :
    Coherent u lexicon settings corpus before (failed || gaveUp result) s' := by
  have hreachable := u.reachable h.admitted
  rcases insertRule_cases hreachable hinsert with
    ⟨defect, rfl, rfl⟩ | ⟨hopen, hr, hcycle, charts, fault, hcharts, rfl, hresult⟩
  · have hrefused : gaveUp (.error (.malformed defect)) = false := rfl
    rw [hrefused, Bool.or_false]
    exact h
  · have hgave : gaveUp result = fault.isSome ∧ ∀ defect, result ≠ .error (.malformed defect) := by
      rw [hresult]
      cases fault with
      | none => exact ⟨rfl, nofun⟩
      | some fault =>
        have hgives : fault.givesUp = true := givesUp_changeCharts hcharts
        refine ⟨hgives, fun defect heq => ?_⟩
        rw [Except.error.inj heq] at hgives
        contradiction
    have hadmits := hinserted hr hcycle hgave.2
    rw [hgave.1]
    refine ⟨h.settings_eq, hadmits, changeCharts_follows h.admitted hadmits h.charts hcharts, ?_,
      h.back_note (Grammar.retract_insert hreachable r), fun hnone => ?_⟩
    · rw [← h.inTransaction_eq, inTransaction, inTransaction, Option.isSome_map]
    · rw [h.inTransaction_eq, hnone] at hopen
      contradiction

/-- A removal keeps a session coherent. -/
theorem Coherent.removeRule (h : Coherent u lexicon settings corpus before failed s) {id : Nat} {inUse : Bool}
    (hremove : s.removeRule id = .ok (s', inUse)) : Coherent u lexicon settings corpus before failed s' := by
  unfold Session.removeRule at hremove
  split at hremove
  · contradiction
  · next hopen =>
    have hbefore : before.isSome = true := by
      rw [← h.inTransaction_eq]
      simpa using hopen
    split at hremove
    · obtain ⟨rfl, -⟩ := Prod.mk.inj (Except.ok.inj hremove)
      exact h
    · next grammar hgrammar =>
      obtain ⟨changed, hchanged, hremove⟩ := bind_eq_ok.mp hremove
      obtain ⟨rfl, -⟩ := Prod.mk.inj (Except.ok.inj hremove)
      obtain ⟨charts, rfl, hcharts⟩ := mapChartsM_follows
        (fun hfollows => hfollows.removeRule h.admitted hgrammar hbefore) hchanged h.charts
      have hrestore : takeBack grammar (.removed id) = .ok s.grammar := by
        rw [takeBack, Grammar.restore?_of_remove (u.reachable h.admitted) hgrammar, Option.getD_some]
      refine ⟨h.settings_eq, u.remove h.admitted hgrammar, hcharts, ?_, h.back_note hrestore, h.sound⟩
      rw [← h.inTransaction_eq]
      exact Option.isSome_map

/-- Removals, one after the other, keep a session coherent. -/
theorem Coherent.removeRules (h : Coherent u lexicon settings corpus before failed s) {ids : List Nat}
    (hremove : ids.foldlM (fun s id => do return (← s.removeRule id).1) s = .ok s') :
    Coherent u lexicon settings corpus before failed s' := by
  induction ids generalizing s with
  | nil =>
    obtain rfl := Except.ok.inj hremove
    exact h
  | cons id ids ih =>
    rw [List.foldlM_cons] at hremove
    obtain ⟨next, hnext, hremove⟩ := bind_eq_ok.mp hremove
    obtain ⟨⟨removed, inUse⟩, hremoved, hnext⟩ := bind_eq_ok.mp hnext
    obtain rfl := Except.ok.inj hnext
    exact ih (h.removeRule hremoved) hremove

/-- Pruning keeps a session coherent. -/
theorem Coherent.pruneUnused (h : Coherent u lexicon settings corpus before failed s) {unused : List Nat}
    (hprune : s.pruneUnused = .ok (s', unused)) : Coherent u lexicon settings corpus before failed s' := by
  obtain ⟨pruned, hpruned, hprune⟩ := bind_eq_ok.mp hprune
  obtain ⟨rfl, -⟩ := Prod.mk.inj (Except.ok.inj hprune)
  exact h.removeRules hpruned

/-- Accepting a transaction in which nothing has failed keeps a session coherent. -/
theorem Coherent.accept (h : Coherent u lexicon settings corpus before false s) (haccept : s.accept = .ok s') :
    Coherent u lexicon settings corpus none false s' := by
  unfold Session.accept at haccept
  split at haccept
  · contradiction
  · obtain ⟨charts, rfl, hcharts⟩ := mapChartsM_follows Editor.Follows.accept haccept h.charts
    exact coherent_of_charts h.settings_eq h.admitted hcharts rfl

/-- Rejecting a transaction goes back to the grammar before it, whatever has failed. -/
theorem Coherent.reject (h : Coherent u lexicon settings corpus before failed s) (hreject : s.reject = .ok s') :
    Coherent u lexicon settings corpus none false s' := by
  unfold Session.reject at hreject
  split at hreject
  · contradiction
  · next changes hchanges =>
    have hopen := h.inTransaction_eq
    rw [inTransaction, hchanges, Option.isSome_some] at hopen
    obtain ⟨g₀, rfl⟩ := Option.isSome_iff_exists.mp hopen.symm
    obtain ⟨hadmitted, hback⟩ := h.back g₀ rfl
    obtain ⟨changed, hchanged, hreject⟩ := bind_eq_ok.mp hreject
    obtain ⟨charts, rfl, hcharts⟩ := mapChartsM_follows Editor.Follows.reject hchanged h.charts
    obtain ⟨grammar, hgrammar, hreject⟩ := bind_eq_ok.mp hreject
    obtain rfl := Except.ok.inj ((hback changes hchanges).symm.trans hgrammar)
    obtain rfl := Except.ok.inj hreject
    exact coherent_of_charts h.settings_eq hadmitted hcharts rfl

/-- Whatever grammar a session is opened with, and whatever rules are inserted, its charts sustain themselves. -/
theorem Course.coherent (h : Course lexicon settings corpus s failed) :
    ∃ before, Coherent .ofSustained lexicon settings corpus before failed s := by
  induction h with
  | opened hg hopen => exact ⟨none, coherent_ofCorpus hg hopen⟩
  | request columns _ ih =>
    obtain ⟨before, h⟩ := ih
    exact ⟨before, h.requestAt columns⟩
  | begin _ hbegin ih =>
    obtain ⟨before, h⟩ := ih
    obtain ⟨rfl, h'⟩ := h.begin hbegin
    exact ⟨_, h'⟩
  | insertRule _ hinsert ih =>
    obtain ⟨before, h⟩ := ih
    exact ⟨before, h.insertRule hinsert fun _ _ _ => h.admitted.insert _⟩
  | removeRule _ hremove ih =>
    obtain ⟨before, h⟩ := ih
    exact ⟨before, h.removeRule hremove⟩
  | pruneUnused _ hprune ih =>
    obtain ⟨before, h⟩ := ih
    exact ⟨before, h.pruneUnused hprune⟩
  | accept _ haccept ih =>
    obtain ⟨before, h⟩ := ih
    exact ⟨none, h.accept haccept⟩
  | reject _ hreject ih =>
    obtain ⟨before, h⟩ := ih
    exact ⟨none, h.reject hreject⟩

/-- The charts of a session hold what its grammar finds, as long as the grammar stays fit. -/
theorem History.coherent (h : History lexicon settings corpus s failed) :
    ∃ before, Coherent .ofHolds lexicon settings corpus before failed s := by
  induction h with
  | opened hg hopen => exact ⟨none, coherent_ofCorpus hg hopen⟩
  | request columns _ ih =>
    obtain ⟨before, h⟩ := ih
    exact ⟨before, h.requestAt columns⟩
  | begin _ hbegin ih =>
    obtain ⟨before, h⟩ := ih
    obtain ⟨rfl, h'⟩ := h.begin hbegin
    exact ⟨_, h'⟩
  | insertRule _ hinsert hunused ih =>
    obtain ⟨before, h⟩ := ih
    exact ⟨before, h.insertRule hinsert fun hr hcycle hresult => h.admitted.insert hr hcycle (hunused hresult)⟩
  | removeRule _ hremove ih =>
    obtain ⟨before, h⟩ := ih
    exact ⟨before, h.removeRule hremove⟩
  | pruneUnused _ hprune ih =>
    obtain ⟨before, h⟩ := ih
    exact ⟨before, h.pruneUnused hprune⟩
  | accept _ haccept ih =>
    obtain ⟨before, h⟩ := ih
    exact ⟨none, h.accept haccept⟩
  | reject _ hreject ih =>
    obtain ⟨before, h⟩ := ih
    exact ⟨none, h.reject hreject⟩

/-- Charts of the same corpus that follow the same grammar are read as forests that are alike. -/
theorem alike_readForests {g : Grammar} (hg : g.Fit) {before other : Option Grammar}
    {sentences : List (List String × Nat)} {charts charts' : List (Parsed Editor)}
    (h : List.Forall₂ (Parsed.Follows .ofHolds lexicon g before false) sentences charts)
    (h' : List.Forall₂ (Parsed.Follows .ofHolds lexicon g other false) sentences charts') :
    List.Forall₂ Parsed.Alike (Corpus.readForests g charts) (Corpus.readForests g charts') := by
  induction h generalizing charts' with
  | nil =>
    cases h'
    exact .nil
  | @cons sentence parsed sentences charts hparsed _ ih =>
    cases h' with
    | @cons _ parsed' _ charts' hparsed' hrest =>
      refine .cons ⟨hparsed.length.trans hparsed'.length.symm,
        hparsed.occurrences.trans hparsed'.occurrences.symm, ?_⟩ (ih hrest)
      exact Forest.alike_ofChart (hparsed.outcome.twins hg hparsed'.outcome).readAlike

/-- Charts that follow a grammar can be read. -/
theorem read_of_follows {g : Grammar} (hg : g.Fit) {sentences : List (List String × Nat)}
    {charts : List (Parsed Editor)}
    (h : List.Forall₂ (Parsed.Follows .ofHolds lexicon g before false) sentences charts) :
    ∀ parsed ∈ charts, Forest.read parsed.outcome.chart g = .ok (Forest.ofChart parsed.outcome.chart g) := by
  induction h with
  | nil => exact fun _ hparsed => absurd hparsed List.not_mem_nil
  | cons hparsed _ ih =>
    have hsettled := hparsed.outcome.keptUp.settled hg
    exact List.forall_mem_cons.mpr ⟨Forest.read_eq_ok hsettled.grounded hsettled.indexed.isSome_rootRule?, ih⟩

/-- At every point of a history at which no change of the charts has failed, every chart can be read, and
the score of the session is that of its grammar, evaluated anew on the corpus. -/
theorem score_eq_evaluate {cancelled : Bool} {score : Score}
    (h : History lexicon settings corpus s false)
    (hevaluate : evaluate s.grammar lexicon settings cancelled corpus = .ok score) :
    (∀ parsed ∈ s.charts, Forest.read parsed.outcome.chart s.grammar =
      .ok (Forest.ofChart parsed.outcome.chart s.grammar)) ∧ s.score = score := by
  obtain ⟨before, hs⟩ := h.coherent
  obtain ⟨charts, hcharts, hevaluate⟩ := bind_eq_ok.mp hevaluate
  obtain rfl := Except.ok.inj hevaluate
  refine ⟨read_of_follows hs.admitted hs.charts, ?_⟩
  rw [Session.score, forests, hs.settings_eq]
  exact Score.tally_eq _ _ (alike_readForests hs.admitted hs.charts (Corpus.parse_follows hs.admitted hcharts))

open Sample in
/-- Lists cannot be doubled under tight settings, so the first transaction is rejected. The second one inserts
another rule under the number that was given back, and is accepted. -/
theorem score_eq_evaluate_lists : ∃ (s₀ s₁ s₂ s₃ s₄ s₅ s₆ : Session) (score : Score),
    ofCorpus lists words tight false false sentences = .ok s₀ ∧ s₀.begin = .ok s₁ ∧
    s₁.insertRule doubled = .ok (s₂, .error (.unbounded 2 10)) ∧ s₂.reject = .ok s₃ ∧
    s₃.begin = .ok s₄ ∧ s₄.insertRule pair = .ok (s₅, .ok 3) ∧ s₅.accept = .ok s₆ ∧
    evaluate s₆.grammar words tight false sentences = .ok score ∧ s₆.score = score := by
  have hrun : ((ofCorpus lists words tight false false sentences).toOption.bind fun s₀ =>
      (s₀.begin.toOption.filter fun s₁ => s₁.grammar.RootUnusedIn doubled).bind fun s₁ =>
        ((s₁.insertRule doubled).toOption.filter fun tried =>
          tried.2 = .error (.unbounded 2 10)).bind fun tried => tried.1.reject.toOption.bind fun s₃ =>
            (s₃.begin.toOption.filter fun s₄ => s₄.grammar.RootUnusedIn pair).bind fun s₄ =>
              ((s₄.insertRule pair).toOption.filter fun grown => grown.2 = .ok 3).bind fun grown =>
                grown.1.accept.toOption.bind fun s₆ =>
                  (evaluate s₆.grammar words tight false sentences).toOption).isSome = true := by
    decide +kernel
  obtain ⟨score, hrun⟩ := Option.isSome_iff_exists.mp hrun
  simp only [Option.bind_eq_some_iff, Option.filter_eq_some_iff, decide_eq_true_eq] at hrun
  obtain ⟨s₀, hopen, s₁, ⟨hbegin, hdoubled⟩, ⟨s₂, given⟩, ⟨htried, hgiven⟩, s₃, hreject, s₄,
    ⟨hagain, hpair⟩, ⟨s₅, result⟩, ⟨hgrown, hresult⟩, s₆, haccept, hevaluate⟩ := hrun
  obtain rfl : given = .error (.unbounded 2 10) := hgiven
  obtain rfl : result = .ok 3 := hresult
  have hopen := ok_of_toOption hopen
  have hbegin := ok_of_toOption hbegin
  have htried := ok_of_toOption htried
  have hreject := ok_of_toOption hreject
  have hagain := ok_of_toOption hagain
  have hgrown := ok_of_toOption hgrown
  have haccept := ok_of_toOption haccept
  have hevaluate := ok_of_toOption hevaluate
  have hfailed : History words tight sentences s₂ true :=
    .insertRule (.begin (.opened fit_lists hopen) hbegin) htried fun _ => hdoubled
  have hdone : History words tight sentences s₆ false :=
    .accept (.insertRule (.begin (.reject hfailed hreject) hagain) hgrown fun _ => hpair) haccept
  exact ⟨s₀, s₁, s₂, s₃, s₄, s₅, s₆, score, hopen, hbegin, htried, hreject, hagain, hgrown, haccept,
    hevaluate, (score_eq_evaluate hdone hevaluate).2⟩

end IndexedGrammar.Session
