import IndexedGrammar.Proofs.Session.History

/-!
# Rejecting transactions

In a transaction, rules are inserted, refused, removed and pruned, and insertions are given up in the middle
of the charts, because a column takes too much work or because cancellation was requested. Whatever came of
it, every chart has a journal that leads back to the chart before the transaction, and the changes of the
grammar, taken back from the latest to the first, lead back to the grammar before it.

Nothing is asked of the grammar a session is opened with, and a transaction may be accepted even though an
insertion was given up in it.
-/

namespace IndexedGrammar

/-- What a change of a chart keeps: the chart is sound for a grammar, and its journal leads back as far as
before. -/
structure Parsed.Keeps (g : Grammar) (old new : Parsed Editor) : Prop where
  length : new.length = old.length
  occurrences : new.occurrences = old.occurrences
  sound : Editor.Sound g new.outcome
  inTransaction_eq : new.outcome.inTransaction = old.outcome.inTransaction
  leadsBackTo : ∀ {base}, old.outcome.LeadsBackTo base → new.outcome.LeadsBackTo base

/-- The chart of a sentence as it was before a transaction: nothing waits, and no transaction is open. -/
structure Parsed.IsBack (now before : Parsed Editor) : Prop where
  length : now.length = before.length
  occurrences : now.occurrences = before.occurrences
  chart : now.outcome.chart = before.outcome.chart
  agendas : now.outcome.agendas = before.outcome.agendas
  closed : now.outcome.inTransaction = false

variable {g : Grammar} {parsed parsed' : Parsed Editor}

/-- A noted change keeps this. -/
theorem Editor.Noted.keeps {e : Editor} (h : Noted g parsed.outcome e) (hparsed : Sound g parsed.outcome) :
    parsed.Keeps g { parsed with outcome := e } :=
  ⟨rfl, rfl, h.sound hparsed, h.inTransaction_eq, fun hback => h.leadsBackTo hback⟩

namespace Session

variable {s s' s'' s₀ : Session}

/-- An insertion keeps what holds of the charts, wherever it is given up. -/
theorem keeps_changeCharts {id : Nat} {charts charts' : List (Parsed Editor)} {fault : Option Fault}
    (hsound : ∀ parsed ∈ charts, Editor.Sound g parsed.outcome)
    (hok : changeCharts (fun e => e.insertRule g id) charts = .ok (charts', fault)) :
    List.Forall₂ (Parsed.Keeps g) charts charts' := by
  induction charts generalizing charts' fault with
  | nil =>
    obtain ⟨rfl, rfl⟩ := Prod.mk.inj (Except.ok.inj hok)
    exact .nil
  | cons parsed rest ih =>
    obtain ⟨hparsed, hrest⟩ := List.forall_mem_cons.mp hsound
    obtain ⟨⟨e, given⟩, he, hok⟩ := bind_eq_ok.mp hok
    have hfirst := (hparsed.noted_insertRule he).keeps hparsed
    cases given with
    | some f =>
      -- the charts behind are as they were
      obtain ⟨rfl, rfl⟩ := Prod.mk.inj (Except.ok.inj hok)
      refine .cons hfirst (List.forall₂_same.mpr fun other hother => ?_)
      exact ⟨rfl, rfl, hrest other hother, rfl, fun hback => hback⟩
    | none =>
      obtain ⟨⟨rest', later⟩, hlater, hok⟩ := bind_eq_ok.mp hok
      obtain ⟨rfl, rfl⟩ := Prod.mk.inj (Except.ok.inj hok)
      exact .cons hfirst (ih hrest hlater)

/-- One change of a session: cancellation is requested, which the next insertion may find at any column of any
chart, a rule is inserted or refused, and rules are removed and pruned. -/
inductive Edit : Session → Session → Prop
  | request (s : Session) (columns : Nat → Option Nat) : Edit s (s.requestAt columns)
  | insertRule {s s' : Session} {r : Rule} {result : Except Fault Nat} :
      s.insertRule r = .ok (s', result) → Edit s s'
  | removeRule {s s' : Session} {id : Nat} {inUse : Bool} :
      s.removeRule id = .ok (s', inUse) → Edit s s'
  | pruneUnused {s s' : Session} {unused : List Nat} :
      s.pruneUnused = .ok (s', unused) → Edit s s'

/-- Changes of a session, one after the other. -/
abbrev Edits : Session → Session → Prop :=
  Relation.ReflTransGen Edit

/-- Sessions as they come about, with any grammar, over any number of transactions. -/
inductive Arises : Session → Prop
  | opened {s : Session} {g : Grammar} {lexicon : Lexicon} {settings : Settings}
      {cancellable cancelled : Bool} {corpus : Corpus} :
      g.Reachable → ofCorpus g lexicon settings cancellable cancelled corpus = .ok s → Arises s
  | edit {s s' : Session} : Arises s → Edit s s' → Arises s'
  | begin {s s' : Session} : Arises s → s.begin = .ok s' → Arises s'
  | accept {s s' : Session} : Arises s → s.accept = .ok s' → Arises s'
  | reject {s s' : Session} : Arises s → s.reject = .ok s' → Arises s'

/-- What holds of the charts of a session: they are sound for its grammar, and in a transaction when it
is in one. -/
structure Aligned (s : Session) : Prop where
  reachable : s.grammar.Reachable
  sound : ∀ parsed ∈ s.charts, Editor.Sound s.grammar parsed.outcome
  inTransaction_eq : ∀ parsed ∈ s.charts, parsed.outcome.inTransaction = s.inTransaction

/-- The open transaction of a session leads back to an earlier session. -/
structure LeadsBackTo (s s₀ : Session) : Prop where
  settings_eq : s.settings = s₀.settings
  cancellable_eq : s.cancellable = s₀.cancellable
  grammar : ∃ changes, s.changes = some changes ∧ changes.foldlM takeBack s.grammar = .ok s₀.grammar
  charts : List.Forall₂ (fun now before : Parsed Editor => now.length = before.length ∧
    now.occurrences = before.occurrences ∧ now.outcome.LeadsBackTo before.outcome.chart) s.charts s₀.charts

/-- A change of a session that leads back as far as before. -/
structure Noted (s s' : Session) : Prop where
  aligned : s'.Aligned
  inTransaction_eq : s'.inTransaction = s.inTransaction
  leadsBackTo : ∀ {s₀}, s.LeadsBackTo s₀ → s'.LeadsBackTo s₀

/-- Nothing was changed. -/
theorem Noted.refl (h : s.Aligned) : Noted s s :=
  ⟨h, rfl, id⟩

/-- One change after the other. -/
theorem Noted.trans (h : Noted s s') (h' : Noted s' s'') : Noted s s'' :=
  ⟨h'.aligned, h'.inTransaction_eq.trans h.inTransaction_eq, fun hback => h'.leadsBackTo (h.leadsBackTo hback)⟩

/-- A change of the grammar that can be taken back is noted if every chart keeps to it. -/
theorem Aligned.noted (h : s.Aligned) (hg : g.Reachable) {changes : List Change}
    (hback : changes.foldlM takeBack g = .ok s.grammar) {charts : List (Parsed Editor)}
    (hcharts : List.Forall₂ (Parsed.Keeps g) s.charts charts) :
    Noted s { s with grammar := g, charts := charts, changes := s.changes.map (changes ++ ·) } := by
  have hopen : (s.changes.map (changes ++ ·)).isSome = s.inTransaction := Option.isSome_map
  refine ⟨⟨hg, fun now hnow => ?_, fun now hnow => ?_⟩, hopen, fun hs => ?_⟩
  · obtain ⟨old, -, hkeeps⟩ := exists_of_forall₂ hcharts hnow
    exact hkeeps.sound
  · obtain ⟨old, hold, hkeeps⟩ := exists_of_forall₂ hcharts hnow
    exact hkeeps.inTransaction_eq.trans ((h.inTransaction_eq old hold).trans hopen.symm)
  · obtain ⟨earlier, hearlier, hgrammar⟩ := hs.grammar
    refine ⟨hs.settings_eq, hs.cancellable_eq, ⟨changes ++ earlier, ?_, ?_⟩, ?_⟩
    · exact congrArg (Option.map (changes ++ ·)) hearlier
    · rw [List.foldlM_append, hback]
      exact hgrammar
    · refine forall₂_across (fun old now before hkeeps hback => ?_) hcharts hs.charts
      obtain ⟨hlength, hoccurrences, hleads⟩ := hback
      exact ⟨hkeeps.length.trans hlength, hkeeps.occurrences.trans hoccurrences, hkeeps.leadsBackTo hleads⟩

/-- Requesting cancellation is noted. -/
theorem Aligned.requestAt (h : s.Aligned) (columns : Nat → Option Nat) : Noted s (s.requestAt columns) := by
  have hcharts : List.Forall₂ (Parsed.Keeps s.grammar) s.charts (s.requestAt columns).charts := by
    have hsound : List.Forall₂ (fun old parsed => Editor.Sound s.grammar parsed.outcome ∧ old = parsed)
        s.charts s.charts := List.forall₂_same.mpr fun parsed hparsed => ⟨h.sound parsed hparsed, rfl⟩
    refine forall₂_mapIdx (fun n old parsed hold => ?_) hsound
    obtain ⟨hsound, rfl⟩ := hold
    exact ⟨rfl, rfl, hsound.requestAt _, rfl, fun hback => hback.requestAt _⟩
  have hback : ([] : List Change).foldlM takeBack s.grammar = .ok s.grammar := rfl
  have hnoted := h.noted h.reachable hback hcharts
  have hchanges : s.changes.map ([] ++ ·) = s.changes := by cases s.changes <;> rfl
  rwa [hchanges] at hnoted

/-- The charts of a session are sound for its grammar with one more rule. -/
theorem Aligned.sound_insert (h : s.Aligned) (r : Rule) :
    ∀ parsed ∈ s.charts, Editor.Sound (s.grammar.insert r) parsed.outcome := fun parsed hparsed =>
  (h.sound parsed hparsed).regrammar (Editor.sameRules_insert (h.sound parsed hparsed).filed r)

/-- An insertion is noted, whatever comes of it. -/
theorem Aligned.insertRule (h : s.Aligned) {r : Rule} {result : Except Fault Nat}
    (hinsert : s.insertRule r = .ok (s', result)) : Noted s s' := by
  rcases insertRule_cases h.reachable hinsert with ⟨-, -, rfl⟩ | ⟨-, -, -, charts, fault, hcharts, rfl, -⟩
  · exact .refl h
  · have hback : [Change.inserted s.grammar.size].foldlM takeBack (s.grammar.insert r) = .ok s.grammar := by
      rw [List.foldlM_cons, takeBack, Grammar.retract_insert h.reachable r]
      rfl
    exact h.noted (.insert r h.reachable) hback (keeps_changeCharts (h.sound_insert r) hcharts)

/-- In a transaction a rule can be removed from every chart, which is noted. -/
theorem Aligned.exists_removeRule (h : s.Aligned) (hopen : s.inTransaction = true) (id : Nat) :
    ∃ s', s.removeRule id = .ok (s', (s.grammar.remove? id).isSome) ∧ Noted s s' := by
  cases hg : s.grammar.remove? id with
  | none =>
    refine ⟨s, ?_, .refl h⟩
    rw [Session.removeRule, hopen, hg]
    rfl
  | some g =>
    have hremoved : ∃ charts : List (Parsed Editor),
        (s.charts.mapM fun parsed => do return { parsed with outcome := ← parsed.outcome.removeRule g id }) =
          .ok charts ∧ List.Forall₂ (fun now old => old.Keeps g now) charts s.charts := by
      refine exists_mapM_mem fun parsed hmem => ?_
      have hsound := (h.sound parsed hmem).regrammar (Editor.sameRules_remove hg)
      obtain ⟨hnoted, heq⟩ := hsound.removeRule_eq id
      rw [h.inTransaction_eq parsed hmem, hopen, if_pos rfl] at heq
      exact ⟨_, bind_eq_ok.mpr ⟨_, heq, rfl⟩, hnoted.keeps hsound⟩
    obtain ⟨charts, hcharts, hkeeps⟩ := hremoved
    have hback : [Change.removed id].foldlM takeBack g = .ok s.grammar := by
      rw [List.foldlM_cons, takeBack, Grammar.restore?_of_remove h.reachable hg]
      rfl
    refine ⟨_, ?_, h.noted (.remove h.reachable hg) hback hkeeps.flip⟩
    rw [Session.removeRule, hopen, hg]
    exact bind_eq_ok.mpr ⟨_, bind_eq_ok.mpr ⟨charts, hcharts, rfl⟩, rfl⟩

/-- A removal is noted. -/
theorem Aligned.removeRule (h : s.Aligned) {id : Nat} {inUse : Bool}
    (hremove : s.removeRule id = .ok (s', inUse)) : Noted s s' := by
  have hopen : s.inTransaction = true := by
    unfold Session.removeRule at hremove
    split at hremove
    · contradiction
    · next hopen => simpa using hopen
  obtain ⟨removed, hremoved, hnoted⟩ := h.exists_removeRule hopen id
  obtain ⟨rfl, -⟩ := Prod.mk.inj (Except.ok.inj (hremoved.symm.trans hremove))
  exact hnoted

/-- Removals, one after the other, are noted. -/
theorem Aligned.removeRules (h : s.Aligned) {ids : List Nat}
    (hremove : ids.foldlM (fun s id => do return (← s.removeRule id).1) s = .ok s') : Noted s s' := by
  induction ids generalizing s with
  | nil =>
    obtain rfl := Except.ok.inj hremove
    exact .refl h
  | cons id ids ih =>
    rw [List.foldlM_cons] at hremove
    obtain ⟨next, hnext, hremove⟩ := bind_eq_ok.mp hremove
    obtain ⟨⟨removed, inUse⟩, hremoved, hnext⟩ := bind_eq_ok.mp hnext
    obtain rfl := Except.ok.inj hnext
    have hnoted := h.removeRule hremoved
    exact hnoted.trans (ih hnoted.aligned hremove)

/-- In a transaction rules can be removed one after the other, so that pruning does not fail. -/
theorem Aligned.exists_pruneUnused (h : s.Aligned) (hopen : s.inTransaction = true) :
    ∃ s' unused, s.pruneUnused = .ok (s', unused) := by
  have hremove (ids : List Nat) :
      ∃ s', ids.foldlM (fun s id => do return (← s.removeRule id).1) s = .ok s' := by
    induction ids generalizing s with
    | nil => exact ⟨s, rfl⟩
    | cons id ids ih =>
      obtain ⟨next, hnext, hnoted⟩ := h.exists_removeRule hopen id
      obtain ⟨s', hs'⟩ := ih hnoted.aligned (hnoted.inTransaction_eq.trans hopen)
      refine ⟨s', ?_⟩
      rw [List.foldlM_cons]
      exact bind_eq_ok.mpr ⟨next, bind_eq_ok.mpr ⟨_, hnext, rfl⟩, hs'⟩
  obtain ⟨s', hs'⟩ := hremove _
  exact ⟨s', _, bind_eq_ok.mpr ⟨s', hs', rfl⟩⟩

/-- Every change of a session is noted. -/
theorem Edit.noted (h : Edit s s') (hs : s.Aligned) : Noted s s' := by
  cases h with
  | request columns => exact hs.requestAt columns
  | insertRule hinsert => exact hs.insertRule hinsert
  | removeRule hremove => exact hs.removeRule hremove
  | pruneUnused hprune =>
    obtain ⟨pruned, hpruned, hprune⟩ := bind_eq_ok.mp hprune
    obtain ⟨rfl, -⟩ := Prod.mk.inj (Except.ok.inj hprune)
    exact hs.removeRules hpruned

/-- Changes of a session, one after the other, are noted. -/
theorem Edits.noted (h : Edits s s') (hs : s.Aligned) : Noted s s' := by
  induction h with
  | refl => exact .refl hs
  | tail _ hedit ih => exact ih.trans (hedit.noted ih.aligned)

/-- Opening a transaction leads back to the session as it is. -/
theorem Aligned.begin (h : s.Aligned) (hclosed : s.inTransaction = false) :
    ∃ s', s.begin = .ok s' ∧ s'.Aligned ∧ s'.LeadsBackTo s := by
  have hopened : ∃ charts : List (Parsed Editor),
      (s.charts.mapM fun parsed => do return { parsed with outcome := ← parsed.outcome.begin }) = .ok charts ∧
      List.Forall₂ (fun now before => (now.length = before.length ∧ now.occurrences = before.occurrences ∧
        now.outcome.LeadsBackTo before.outcome.chart) ∧ Editor.Sound s.grammar now.outcome)
        charts s.charts := by
    refine exists_mapM_mem fun parsed hmem => ?_
    have hbegin : parsed.outcome.begin =
        .ok { parsed.outcome with journal := some (.start parsed.outcome.chart) } := by
      rw [Editor.begin, h.inTransaction_eq parsed hmem, hclosed]
      rfl
    obtain ⟨hsound, hback⟩ := (h.sound parsed hmem).begin hbegin
    exact ⟨_, bind_eq_ok.mpr ⟨_, hbegin, rfl⟩, ⟨rfl, rfl, hback⟩, hsound⟩
  obtain ⟨charts, hcharts, hback⟩ := hopened
  refine ⟨{ s with charts := charts, changes := some [] }, ?_, ⟨h.reachable, ?_, ?_⟩, ?_⟩
  · rw [Session.begin, hclosed]
    exact bind_eq_ok.mpr ⟨_, bind_eq_ok.mpr ⟨charts, hcharts, rfl⟩, rfl⟩
  · intro now hnow
    obtain ⟨_, _, _, hsound⟩ := exists_of_forall₂ hback.flip hnow
    exact hsound
  · intro now hnow
    obtain ⟨_, _, ⟨_, _, hleads⟩, _⟩ := exists_of_forall₂ hback.flip hnow
    exact hleads.inTransaction
  · exact ⟨rfl, rfl, ⟨[], rfl, rfl⟩, hback.imp fun _ _ hnow => hnow.1⟩

/-- A sound editor outside a transaction that is led back to is given back with nothing waiting. -/
theorem isBack_reject {now before : Parsed Editor} (hnow : Editor.Sound s.grammar now.outcome)
    (hbefore : Editor.Sound s₀.grammar before.outcome)
    (hback : now.length = before.length ∧ now.occurrences = before.occurrences ∧
      now.outcome.LeadsBackTo before.outcome.chart) :
    ∃ e, now.outcome.reject = .ok e ∧ Parsed.IsBack { now with outcome := e } before := by
  obtain ⟨hlength, hoccurrences, hleads⟩ := hback
  refine ⟨_, hleads.reject hnow.size_agendas, hlength, hoccurrences, rfl, ?_, rfl⟩
  exact (Array.eq_replicate_iff.mpr ⟨hbefore.size_agendas, hbefore.idle⟩).symm

/-- Rejecting a transaction leads to the session as it was, but for what its runs may cost. -/
theorem LeadsBackTo.reject (h : s.LeadsBackTo s₀) (hs : s.Aligned) (h₀ : s₀.Aligned)
    (hclosed : s₀.inTransaction = false) :
    ∃ charts, s.reject = .ok { s₀ with charts := charts } ∧
      List.Forall₂ Parsed.IsBack charts s₀.charts := by
  obtain ⟨changes, hchanges, hgrammar⟩ := h.grammar
  have hrejected : ∃ charts : List (Parsed Editor),
      (s.charts.mapM fun parsed => do return { parsed with outcome := ← parsed.outcome.reject }) =
        .ok charts ∧ List.Forall₂ Parsed.IsBack charts s₀.charts := by
    have hboth := (List.forall₂_and_left _ _).mpr ⟨hs.sound, h.charts⟩
    have hall := ((List.forall₂_and_left _ _).mpr ⟨h₀.sound, hboth.flip⟩).flip
    refine exists_mapM (fun now before hpair => ?_) hall
    obtain ⟨hbefore, hnow, hback⟩ := hpair
    obtain ⟨e, he, hisBack⟩ := isBack_reject hnow hbefore hback
    exact ⟨_, bind_eq_ok.mpr ⟨e, he, rfl⟩, hisBack⟩
  obtain ⟨charts, hcharts, hback⟩ := hrejected
  refine ⟨charts, ?_, hback⟩
  have hnone : s₀.changes = none := Option.isNone_iff_eq_none.mp (by simpa [inTransaction] using hclosed)
  rw [Session.reject, hchanges]
  refine bind_eq_ok.mpr ⟨_, bind_eq_ok.mpr ⟨charts, hcharts, rfl⟩, bind_eq_ok.mpr ⟨_, hgrammar, ?_⟩⟩
  rw [← h.settings_eq, ← h.cancellable_eq, ← hnone]
  rfl

/-- What holds of every session that comes about: its charts are aligned with its grammar, and an open
transaction leads back to a session of which this holds as well. -/
structure Sound (s : Session) : Prop where
  aligned : s.Aligned
  base : s.inTransaction = true → ∃ s₀, s₀.Aligned ∧ s₀.inTransaction = false ∧ s.LeadsBackTo s₀

/-- A session outside a transaction is sound if its charts are aligned. -/
theorem sound_of_closed (h : s.Aligned) (hclosed : s.inTransaction = false) : s.Sound :=
  ⟨h, fun hopen => absurd (hclosed.symm.trans hopen) Bool.false_ne_true⟩

/-- A session is sound when it is opened. -/
theorem sound_ofCorpus (hg : g.Reachable) {lexicon : Lexicon} {settings : Settings}
    {cancellable cancelled : Bool} {corpus : Corpus}
    (hopen : ofCorpus g lexicon settings cancellable cancelled corpus = .ok s) : s.Sound := by
  obtain ⟨charts, hcharts, hopen⟩ := bind_eq_ok.mp hopen
  obtain rfl := Except.ok.inj hopen
  have hparsed : ∀ parsed ∈ charts,
      Editor.Sound g parsed.outcome ∧ parsed.outcome.inTransaction = false := by
    intro parsed hmem
    obtain ⟨⟨words, occurrences⟩, -, hparsed⟩ := exists_of_forall₂ (mapM_eq_ok.mp hcharts) hmem
    obtain ⟨e, he, hparsed⟩ := bind_eq_ok.mp hparsed
    obtain rfl := Except.ok.inj hparsed
    exact Editor.sound_parse he
  refine sound_of_closed ⟨hg, ?_, ?_⟩ rfl
  · exact fun parsed hmem => (hparsed parsed hmem).1
  · exact fun parsed hmem => (hparsed parsed hmem).2

/-- A change leaves a sound session. -/
theorem Edit.sound (h : Edit s s') (hs : s.Sound) : s'.Sound := by
  have hnoted := h.noted hs.aligned
  refine ⟨hnoted.aligned, fun hopen => ?_⟩
  obtain ⟨s₀, h₀, hclosed, hback⟩ := hs.base (hnoted.inTransaction_eq ▸ hopen)
  exact ⟨s₀, h₀, hclosed, hnoted.leadsBackTo hback⟩

/-- Opening a transaction leaves a sound session. -/
theorem Sound.begin (h : s.Sound) (hbegin : s.begin = .ok s') : s'.Sound := by
  have hclosed : s.inTransaction = false := by
    unfold Session.begin at hbegin
    split at hbegin
    · contradiction
    · next hopen => simpa using hopen
  obtain ⟨opened, hopened, haligned, hback⟩ := h.aligned.begin hclosed
  obtain rfl := Except.ok.inj (hopened.symm.trans hbegin)
  exact ⟨haligned, fun _ => ⟨s, h.aligned, hclosed, hback⟩⟩

/-- Accepting a transaction leaves a sound session. -/
theorem Sound.accept (h : s.Sound) (haccept : s.accept = .ok s') : s'.Sound := by
  unfold Session.accept at haccept
  split at haccept
  · contradiction
  · obtain ⟨charts, hcharts, haccept⟩ := bind_eq_ok.mp haccept
    obtain rfl := Except.ok.inj haccept
    have haccepted : ∀ now ∈ charts,
        Editor.Sound s.grammar now.outcome ∧ now.outcome.inTransaction = false := by
      intro now hnow
      obtain ⟨parsed, hparsed, hnow⟩ := exists_of_forall₂ (mapM_eq_ok.mp hcharts) hnow
      obtain ⟨e, he, hnow⟩ := bind_eq_ok.mp hnow
      obtain rfl := Except.ok.inj hnow
      obtain ⟨hsound, hclosed, -⟩ := (h.aligned.sound parsed hparsed).accept he
      exact ⟨hsound, hclosed⟩
    refine sound_of_closed ⟨h.aligned.reachable, ?_, ?_⟩ rfl
    · exact fun now hnow => (haccepted now hnow).1
    · exact fun now hnow => (haccepted now hnow).2

/-- Rejecting a transaction leaves a sound session. -/
theorem Sound.reject (h : s.Sound) (hreject : s.reject = .ok s') : s'.Sound := by
  have hopen : s.inTransaction = true := by
    unfold Session.reject at hreject
    split at hreject
    · contradiction
    · next changes hchanges => rw [inTransaction, hchanges, Option.isSome_some]
  obtain ⟨s₀, h₀, hclosed, hback⟩ := h.base hopen
  obtain ⟨charts, heq, hcharts⟩ := hback.reject h.aligned h₀ hclosed
  obtain rfl := Except.ok.inj (heq.symm.trans hreject)
  refine sound_of_closed ⟨h₀.reachable, fun now hnow => ?_, fun now hnow => ?_⟩ hclosed
  · obtain ⟨before, hbefore, hisBack⟩ := exists_of_forall₂ hcharts.flip hnow
    have hsound := h₀.sound before hbefore
    refine ⟨hisBack.chart ▸ hsound.filed, ?_, ?_, fun hopen => ?_⟩
    · rw [hisBack.agendas, hisBack.chart]
      exact hsound.size_agendas
    · rw [hisBack.agendas]
      exact hsound.idle
    · exact absurd (hisBack.closed.symm.trans hopen) Bool.false_ne_true
  · obtain ⟨before, hbefore, hisBack⟩ := exists_of_forall₂ hcharts.flip hnow
    exact hisBack.closed.trans hclosed.symm

/-- Every session that comes about is sound. -/
theorem Arises.sound (h : Arises s) : s.Sound := by
  induction h with
  | opened hg hopen => exact sound_ofCorpus hg hopen
  | edit _ hedit ih => exact hedit.sound ih
  | begin _ hbegin ih => exact ih.begin hbegin
  | accept _ haccept ih => exact ih.accept haccept
  | reject _ hreject ih => exact ih.reject hreject

/-- A session outside a transaction can open one. Whatever is done in it, whatever is refused and wherever an
insertion is given up, the transaction can be rejected; that gives back the session with its grammar, and with
every chart as it was. -/
theorem reject_restores (h : Arises s) (hclosed : s.inTransaction = false) :
    ∃ s₁, s.begin = .ok s₁ ∧ ∀ s₂, Edits s₁ s₂ →
      ∃ charts, s₂.reject = .ok { s with charts := charts } ∧ List.Forall₂ Parsed.IsBack charts s.charts := by
  have haligned := h.sound.aligned
  obtain ⟨s₁, hbegin, haligned₁, hback⟩ := haligned.begin hclosed
  refine ⟨s₁, hbegin, fun s₂ hedits => ?_⟩
  have hnoted := Edits.noted hedits haligned₁
  exact (hnoted.leadsBackTo hback).reject hnoted.aligned haligned hclosed

open Sample in
/-- Lists cannot be doubled under tight settings, and then an insertion of pairs finds a request for cancellation
in the middle of the first chart. After that a rule is removed and others are pruned; all of it is taken back. -/
theorem reject_restores_lists : ∃ (s s₁ s₂ s₃ s₄ s₅ : Session) (charts : List (Parsed Editor))
    (unused : List Nat),
    ofCorpus lists words tight true false sentences = .ok s ∧ s.begin = .ok s₁ ∧
    s₁.insertRule doubled = .ok (s₂, .error (.unbounded 2 10)) ∧
    (s₂.requestAt fun _ => some 1).insertRule pair = .ok (s₃, .error .cancelled) ∧
    s₃.removeRule 2 = .ok (s₄, true) ∧ s₄.pruneUnused = .ok (s₅, unused) ∧
    s₅.reject = .ok { s with charts := charts } ∧ List.Forall₂ Parsed.IsBack charts s.charts := by
  have hrun : ((ofCorpus lists words tight true false sentences).toOption.bind fun s =>
      (s.begin.toOption.filter fun _ => !s.inTransaction).bind fun s₁ =>
        ((s₁.insertRule doubled).toOption.filter fun tried => tried.2 = .error (.unbounded 2 10)).bind
          fun tried => ((tried.1.requestAt fun _ => some 1).insertRule pair).toOption.filter fun changed =>
            changed.2 = .error .cancelled && changed.1.inTransaction &&
              (changed.1.grammar.remove? 2).isSome).isSome = true := by
    decide +kernel
  obtain ⟨⟨s₃, result⟩, hrun⟩ := Option.isSome_iff_exists.mp hrun
  simp only [Option.bind_eq_some_iff, Option.filter_eq_some_iff, decide_eq_true_eq, Bool.and_eq_true,
    Bool.not_eq_true'] at hrun
  obtain ⟨s, hopen, s₁, ⟨hbegin, hclosed⟩, ⟨s₂, given⟩, ⟨htried, hgiven⟩, hpairs, ⟨hresult, hin⟩, hlive⟩ :=
    hrun
  obtain rfl : given = .error (.unbounded 2 10) := hgiven
  obtain rfl : result = .error .cancelled := hresult
  have hopen := ok_of_toOption hopen
  have hbegin := ok_of_toOption hbegin
  have htried := ok_of_toOption htried
  have hpairs := ok_of_toOption hpairs
  have hs : Arises s := .opened (.insert longer reachable_singles) hopen
  have hgrown : Edits s₁ s₃ :=
    ((Relation.ReflTransGen.single (.insertRule htried)).tail (.request _ _)).tail (.insertRule hpairs)
  have haligned := (Edits.noted hgrown (hs.sound.begin hbegin).aligned).aligned
  -- what follows goes through whatever the charts are, so that it is not evaluated
  obtain ⟨s₄, hremove, hnoted⟩ := haligned.exists_removeRule hin 2
  obtain ⟨s₅, unused, hprune⟩ := hnoted.aligned.exists_pruneUnused (hnoted.inTransaction_eq.trans hin)
  rw [hlive] at hremove
  obtain ⟨opened, hopened, hreject⟩ := reject_restores hs hclosed
  obtain rfl := Except.ok.inj (hbegin.symm.trans hopened)
  obtain ⟨charts, hrejected, hback⟩ := hreject s₅ ((hgrown.tail (.removeRule hremove)).tail (.pruneUnused hprune))
  exact ⟨s, s₁, s₂, s₃, s₄, s₅, charts, unused, hopen, hbegin, htried, hpairs, hremove, hprune, hrejected, hback⟩

end Session

end IndexedGrammar
