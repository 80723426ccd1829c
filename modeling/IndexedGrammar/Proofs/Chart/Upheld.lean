import IndexedGrammar.Proofs.Chart.Columns

/-!
# What runs uphold

A property of charts is upheld if beginning the synthetic rule keeps it, and so do additions that the chart calls for
and predictions of nonterminals that a state expects. Then every build and every insertion of a rule keeps it, to
the end or up to where it is given up.
-/

namespace IndexedGrammar.Run

variable {g : Grammar} {start : Chart} {k : Nat} {run : Run} {agendas : Array Agenda} {c : Chart}

/-- A property of charts that a run upholds: it is kept when the synthetic rule is begun, by additions that the chart
calls for, and when a nonterminal is predicted that a state expects. -/
structure Upheld (g : Grammar) (motive : Chart → Prop) : Prop where
  root : ∀ {run}, run.chart.Filed g → motive run.chart →
    (add g run ⟨Grammar.rootId, 0, 0⟩ 0 .predicted).breach = none →
    motive (add g run ⟨Grammar.rootId, 0, 0⟩ 0 .predicted).chart
  add : ∀ {run k item stop d}, run.chart.Filed g → motive run.chart → run.chart.Warrants g k item stop d →
    (add g run item stop d).breach = none → motive (add g run item stop d).chart
  predict : ∀ {c k id s symbol}, c.Filed g → motive c → c.Live id s → s.stop = k → g.Expects s.item symbol →
    g.isNonterminal symbol = true → motive (c.predict k symbol)

section Upheld

variable {motive : Chart → Prop}

/-- What is upheld is kept together with whatever else is kept. -/
theorem Upheld.beside (hupheld : Upheld g motive) {kept : Run → Prop} (hkept : Kept g k kept) :
    Kept g k fun run => kept run ∧ motive run.chart :=
  hkept.beside (fun h => hupheld.add (hkept.filed h).1) fun h => hupheld.predict (hkept.filed h).1

/-- Serving a state that waits keeps what is upheld, whichever it is. -/
theorem Upheld.serve (hupheld : Upheld g motive) {first : Nat} (hfirst : first ≤ k)
    (hrun : run.Orderly g start first) (h : motive run.chart) {agenda rest : Agenda} {id : Nat} (work : Nat)
    (hagenda : run.agendas[k]? = some agenda)
    (hrest : ∀ other, other ∈ agenda.toList ↔ other = id ∨ other ∈ rest.toList)
    (hok : (process g { run with agendas := run.agendas.setIfInBounds k rest, work := work } k id).breach =
      none) :
    motive (process g { run with agendas := run.agendas.setIfInBounds k rest, work := work } k id).chart := by
  obtain ⟨s, hs, hstop⟩ := hrun.waiting ⟨agenda, hagenda, (hrest id).mpr (.inl rfl)⟩
  have hk : k < run.chart.columns.size := hstop ▸ (hrun.filed.bounds hs.spot?).2
  have hleft := hrun.leave work hagenda fun other hother => (hrest other).mpr (.inr hother)
  exact (process_spec (hupheld.beside (kept_orderly g start hfirst)) ⟨⟨hleft, hk⟩, h⟩ hs hstop hok).1.2

/-- Being orderly is kept from column to column together with what is upheld. -/
theorem Upheld.worked (hupheld : Upheld g motive) (start : Chart) :
    Worked g start fun k run => run.Orderly g start k ∧ motive run.chart where
  orderly h := h.1
  idle h hidle := ⟨(worked_orderly g start).idle h.1 hidle, h.2⟩
  work work h := ⟨(worked_orderly g start).work work h.1, h.2⟩
  process work h hagenda hpop hs hstop hok :=
    ⟨(worked_orderly g start).process work h.1 hagenda hpop hs hstop hok,
      hupheld.serve (Nat.le_refl _) h.1 h.2 work hagenda (fun _ => Agenda.mem_toList_of_pop? hpop) hok⟩

/-- Working off columns, to the end or not, keeps what is upheld. -/
theorem Upheld.onwards (hupheld : Upheld g motive) (budget : Budget) (hrun : run.Orderly g start k)
    (h : motive run.chart) (hok : (run.onwards g budget k).1.breach = none) :
    motive (run.onwards g budget k).1.chart := by
  rcases columns_spec (hupheld.worked start) budget _ ⟨hrun, h⟩ hok with ⟨-, -, hend⟩ |
    ⟨-, j, run', ⟨-, hend⟩, heq⟩
  · exact hend
  · rw [Run.onwards, heq]
    exact hend

/-- A build keeps what is upheld. -/
theorem Upheld.build (hupheld : Upheld g motive) (budget : Budget) (hc : c.Filed g) (h : motive c)
    (hsize : agendas.size = c.columns.size) (hidle : ∀ agenda ∈ agendas, agenda = .empty)
    (hok : ((Run.on c agendas).build g budget).1.breach = none) :
    motive ((Run.on c agendas).build g budget).1.chart := by
  have hcolumns : 0 < c.columns.size := hc.size_columns ▸ Nat.succ_pos _
  have hadd := breach_columns hok
  exact hupheld.onwards budget
    ((orderly_on hc hsize hidle 0).add (admits_begun hcolumns (Nat.le_refl 0)) hadd)
    (hupheld.root hc h hadd) hok

/-- Inserting a rule keeps what is upheld, if beginning the rule keeps it where its category is predicted. -/
theorem Upheld.insertRule (hupheld : Upheld g motive) (budget : Budget) (hc : c.Filed g) (h : motive c)
    (hsize : agendas.size = c.columns.size) (hidle : ∀ agenda ∈ agendas, agenda = .empty) {rule : Nat}
    {lhs : Category}
    (hbegin : ∀ {run k}, run.chart.Filed g → motive run.chart → run.chart.isPredicted k lhs = true →
      (Run.add g run ⟨rule, 0, k⟩ k .predicted).breach = none →
      motive (Run.add g run ⟨rule, 0, k⟩ k .predicted).chart)
    (hok : ((Run.on c agendas).insertRule g budget rule lhs).1.breach = none) :
    motive ((Run.on c agendas).insertRule g budget rule lhs).1.chart := by
  unfold Run.insertRule at hok ⊢
  dsimp only at hok ⊢
  -- the rule is begun wherever its category is predicted, before any column is worked off
  have hbegun {first : Nat} (hfirst : ∀ k ∈ c.predictedAt lhs, first ≤ k)
      (hrule : ((Run.on c agendas).beginRule g rule (c.predictedAt lhs)).breach = none) :
      ((Run.on c agendas).beginRule g rule (c.predictedAt lhs)).Orderly g c first ∧
        motive ((Run.on c agendas).beginRule g rule (c.predictedAt lhs)).chart := by
    refine beginRule_spec (motive := fun run => run.Orderly g c first ∧ motive run.chart)
      (fun run k hk h hok' => ?_) ⟨orderly_on hc hsize hidle first, h⟩ hrule
    obtain ⟨hlt, hpredicted⟩ := mem_predictedAt.mp hk
    exact ⟨h.1.add (admits_begun (h.1.grows.size_columns ▸ hlt) (hfirst k hk)) hok',
      hbegin h.1.filed h.2 (h.1.grows.isPredicted hpredicted) hok'⟩
  split at hok
  · next hnil =>
    have hempty : c.predictedAt lhs = [] := hnil
    exact (@hbegun 0 (by simp [hempty]) hok).2
  · next first rest hcons =>
    have hlist : c.predictedAt lhs = first :: rest := hcons
    obtain ⟨horderly, hmotive⟩ := hbegun (fun k hk => le_of_mem_predictedAt hlist hk) (breach_columns hok)
    exact hupheld.onwards budget horderly hmotive hok

end Upheld

end IndexedGrammar.Run
