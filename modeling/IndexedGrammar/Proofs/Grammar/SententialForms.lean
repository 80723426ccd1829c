import IndexedGrammar.Proofs.Grammar.Rewriting
import IndexedGrammar.Proofs.Sample

/-!
# Sentential forms

A sentential form is a list of categories. A live rule rewrites one occurrence of its left-hand side to its
right-hand symbols, where the empty category stands for no symbol at all. A form is rewritten to nothing if
and only if every category in it is, and to a single category if and only if one category in it is a chain of
unit steps away from it while all others are rewritten to nothing.

So the nullable categories are those that are rewritten to nothing, and there is a unit cycle exactly if some
category is rewritten to itself alone.
-/

namespace IndexedGrammar

open Relation (ReflTransGen TransGen)

/-- The symbols that a rule writes. The empty category writes none. -/
def Rule.symbols (r : Rule) : List Category :=
  r.rhs.filter fun c => !c.isEpsilon

/-- A category is a symbol that a rule writes if it occurs on the right and is not empty. -/
theorem Rule.mem_symbols {r : Rule} {c : Category} : c ∈ r.symbols ↔ c ∈ r.rhs ∧ c.isEpsilon = false := by
  simp [Rule.symbols]

namespace Grammar

/-- One sentential form is rewritten to another by a live rule other than the synthetic one. -/
inductive Rewrites (g : Grammar) : List Category → List Category → Prop
  | rule {id : Nat} {r : Rule} (before after : List Category) : (id, r) ∈ g.rules →
      Rewrites g (before ++ r.lhs :: after) (before ++ (r.symbols ++ after))

/-- One sentential form is rewritten to another in any number of steps. -/
def Derives (g : Grammar) : List Category → List Category → Prop :=
  ReflTransGen g.Rewrites

variable {g : Grammar} {a b c : Category} {form next : List Category}

/-- A form is rewritten in any surroundings. -/
theorem Rewrites.between (before after : List Category) (h : g.Rewrites form next) :
    g.Rewrites (before ++ (form ++ after)) (before ++ (next ++ after)) := by
  cases h with
  | rule left right hr =>
    have h := Rewrites.rule (before ++ left) (right ++ after) hr
    simpa only [List.append_assoc, List.cons_append] using h

/-- A form is derived in any surroundings. -/
theorem Derives.between (before after : List Category) (h : g.Derives form next) :
    g.Derives (before ++ (form ++ after)) (before ++ (next ++ after)) :=
  ReflTransGen.lift (fun form => before ++ (form ++ after)) (fun _ _ => Rewrites.between before after) _ _ h

/-- If every category in a form is rewritten to nothing, so is the form. -/
theorem derives_nil_of_forall (h : ∀ c ∈ form, g.Derives [c] []) : g.Derives form [] := by
  induction form with
  | nil => exact .refl
  | cons c rest ih =>
    have hhead : g.Derives (c :: rest) rest := (h c List.mem_cons_self).between [] rest
    exact hhead.trans (ih fun d hd => h d (List.mem_cons_of_mem c hd))

/-- A left-hand side is rewritten to what its rule writes. -/
theorem rewrites_symbols {id : Nat} {r : Rule} (hr : (id, r) ∈ g.rules) : g.Rewrites [r.lhs] r.symbols := by
  have h := Rewrites.rule [] [] hr
  rwa [List.nil_append, List.nil_append, List.append_nil] at h

/-! Forms that are rewritten to nothing -/

/-- If what a rule writes can be rewritten to nothing, so can its left-hand side. -/
theorem vanishes_of_symbols {id : Nat} {r : Rule} (hr : (id, r) ∈ g.rules)
    (h : ∀ c ∈ r.symbols, g.Vanishes c) : g.Vanishes r.lhs := by
  refine .rule hr fun c hc => ?_
  cases hempty : c.isEpsilon with
  | true => exact .epsilon hempty
  | false => exact h c (Rule.mem_symbols.mpr ⟨hc, hempty⟩)

/-- Every category in a form that is rewritten to nothing can be rewritten to nothing. -/
theorem Derives.vanishes (h : g.Derives form []) : ∀ c ∈ form, g.Vanishes c := by
  induction h using ReflTransGen.head_induction_on with
  | refl => exact fun c hc => absurd hc List.not_mem_nil
  | head hstep _ ih =>
    cases hstep with
    | rule before after hr =>
      intro c hc
      rcases List.mem_append.mp hc with hbefore | hc
      · exact ih c (List.mem_append_left _ hbefore)
      rcases List.mem_cons.mp hc with rfl | hafter
      · exact vanishes_of_symbols hr fun d hd =>
          ih d (List.mem_append_right _ (List.mem_append_left _ hd))
      · exact ih c (List.mem_append_right _ (List.mem_append_right _ hafter))

/-- A category that can be rewritten to nothing is, unless it is the empty category, which is no symbol. -/
theorem Vanishes.derives_nil (h : g.Vanishes c) (hempty : c.isEpsilon = false) : g.Derives [c] [] := by
  induction h with
  | epsilon hepsilon => simp [hepsilon] at hempty
  | rule hr _ ih =>
    refine .head (rewrites_symbols hr) (derives_nil_of_forall fun d hd => ?_)
    obtain ⟨hmem, hd⟩ := Rule.mem_symbols.mp hd
    exact ih d hmem hd

/-! Forms that are rewritten to one category -/

/-- A form from which one category can be left over: unit steps lead there from one category in the form, and
all others can be rewritten to nothing. -/
def Leaves (g : Grammar) (b : Category) (form : List Category) : Prop :=
  ∃ before c after, form = before ++ c :: after ∧ ReflTransGen g.UnitStep c b ∧
    (∀ d ∈ before, g.Vanishes d) ∧ ∀ d ∈ after, g.Vanishes d

/-- What is left over from two forms side by side is left over from one of them. -/
theorem leaves_append : g.Leaves b (form ++ next) ↔
    (g.Leaves b form ∧ ∀ d ∈ next, g.Vanishes d) ∨ ((∀ d ∈ form, g.Vanishes d) ∧ g.Leaves b next) := by
  constructor
  · rintro ⟨before, c, after, heq, hsteps, hbefore, hafter⟩
    rcases List.append_eq_append_iff.mp heq with ⟨inner, rfl, rfl⟩ | ⟨inner, rfl, hinner⟩
    · exact .inr ⟨fun d hd => hbefore d (List.mem_append_left _ hd), inner, c, after, rfl, hsteps,
        fun d hd => hbefore d (List.mem_append_right _ hd), hafter⟩
    · rcases List.cons_eq_append_iff.mp hinner with ⟨rfl, rfl⟩ | ⟨rest, rfl, rfl⟩
      · exact .inr ⟨fun d hd => hbefore d (by simpa using hd), [], c, after, rfl, hsteps, by simp, hafter⟩
      · exact .inl ⟨⟨before, c, rest, rfl, hsteps, hbefore, fun d hd => hafter d (List.mem_append_left _ hd)⟩,
          fun d hd => hafter d (List.mem_append_right _ hd)⟩
  · rintro (⟨⟨before, c, after, rfl, hsteps, hbefore, hafter⟩, hnext⟩ |
      ⟨hform, before, c, after, rfl, hsteps, hbefore, hafter⟩)
    · exact ⟨before, c, after ++ next, by simp, hsteps, hbefore, List.forall_mem_append.mpr ⟨hafter, hnext⟩⟩
    · exact ⟨form ++ before, c, after, by simp, hsteps, List.forall_mem_append.mpr ⟨hform, hbefore⟩, hafter⟩

/-- From a single category, what is left over is unit steps away. -/
theorem leaves_singleton : g.Leaves b [a] ↔ ReflTransGen g.UnitStep a b := by
  constructor
  · rintro ⟨before, c, after, heq, hsteps, -⟩
    obtain ⟨rfl, hcons⟩ | ⟨rest, rfl, hnil⟩ := List.cons_eq_append_iff.mp heq
    · exact (List.cons.inj hcons).1 ▸ hsteps
    · simp at hnil
  · exact fun hsteps => ⟨[], a, [], rfl, hsteps, by simp, by simp⟩

/-- What can be left over from the symbols of a rule can be left over from its left-hand side, by one unit step
more. -/
theorem exists_unitStep_of_leaves {id : Nat} {r : Rule} (hr : (id, r) ∈ g.rules)
    (h : g.Leaves b r.symbols) : ∃ c, g.UnitStep r.lhs c ∧ ReflTransGen g.UnitStep c b := by
  obtain ⟨before, c, after, hsymbols, hsteps, hbefore, hafter⟩ := h
  obtain ⟨left, rest, hrhs, hleft, hrest⟩ := List.filter_eq_append_iff.mp hsymbols
  obtain ⟨skipped, right, rfl, hskipped, hc, hright⟩ := List.filter_eq_cons_iff.mp hrest
  have hbeside (part : List Category) (hpart : ∀ d ∈ part.filter (fun c => !c.isEpsilon), g.Vanishes d) :
      ∀ d ∈ part, g.Vanishes d := by
    intro d hd
    cases hempty : d.isEpsilon with
    | true => exact .epsilon hempty
    | false => exact hpart d (List.mem_filter.mpr ⟨hd, by simp [hempty]⟩)
  refine ⟨c, ⟨by simpa using hc, id, r, left ++ skipped, right, hr, rfl, by simp [hrhs], ?_⟩, hsteps⟩
  refine List.forall_mem_append.mpr ⟨List.forall_mem_append.mpr ⟨?_, ?_⟩, ?_⟩
  · exact hbeside left (hleft ▸ hbefore)
  · exact fun d hd => .epsilon (by simpa using hskipped d hd)
  · exact hbeside right (hright ▸ hafter)

/-- A form that is rewritten to one category is one from which that category can be left over. -/
theorem Derives.leaves (h : g.Derives form [b]) : g.Leaves b form := by
  induction h using ReflTransGen.head_induction_on with
  | refl => exact leaves_singleton.mpr .refl
  | head hstep _ ih =>
    cases hstep with
    | rule before after hr =>
      rw [List.append_cons, List.append_assoc]
      rcases leaves_append.mp ih with ⟨hbefore, hvanish⟩ | ⟨hbefore, hright⟩
      · obtain ⟨hsymbols, hafter⟩ := List.forall_mem_append.mp hvanish
        have hlhs := vanishes_of_symbols hr hsymbols
        refine leaves_append.mpr (.inl ⟨hbefore, List.forall_mem_append.mpr ⟨?_, hafter⟩⟩)
        exact List.forall_mem_singleton.mpr hlhs
      refine leaves_append.mpr (.inr ⟨hbefore, leaves_append.mpr ?_⟩)
      rcases leaves_append.mp hright with ⟨hsymbols, hafter⟩ | ⟨hsymbols, hafter⟩
      · obtain ⟨c, hstep, hsteps⟩ := exists_unitStep_of_leaves hr hsymbols
        exact .inl ⟨leaves_singleton.mpr (.head hstep hsteps), hafter⟩
      · exact .inr ⟨List.forall_mem_singleton.mpr (vanishes_of_symbols hr hsymbols), hafter⟩

/-- A unit step rewrites a category to another. -/
theorem UnitStep.transGen_rewrites (h : g.UnitStep a b) : TransGen g.Rewrites [a] [b] := by
  obtain ⟨hempty, id, r, before, after, hr, rfl, hrhs, hbeside⟩ := h
  have herased (part : List Category) (hpart : ∀ c ∈ part, c ∈ before ++ after) :
      g.Derives (part.filter fun c => !c.isEpsilon) [] := by
    refine derives_nil_of_forall fun c hc => ?_
    obtain ⟨hmem, hc⟩ := List.mem_filter.mp hc
    exact (hbeside c (hpart c hmem)).derives_nil (by simpa using hc)
  have hsymbols : r.symbols = before.filter (fun c => !c.isEpsilon) ++
      ([b] ++ after.filter fun c => !c.isEpsilon) := by
    simp [Rule.symbols, hrhs, hempty]
  have hbefore := (herased before fun c hc => List.mem_append_left _ hc).between []
    ([b] ++ after.filter fun c => !c.isEpsilon)
  have hafter := (herased after fun c hc => List.mem_append_right _ hc).between [b] []
  rw [List.append_nil, List.append_nil] at hafter
  exact .head' (hsymbols ▸ rewrites_symbols hr) (hbefore.trans hafter)

/-- A single category is rewritten to what a rule of its own writes. -/
theorem exists_rule_of_rewrites_singleton (h : g.Rewrites [c] next) :
    ∃ id r, (id, r) ∈ g.rules ∧ r.lhs = c ∧ next = r.symbols := by
  generalize hsingle : [c] = form at h
  cases h with
  | rule before after hr =>
    rcases List.cons_eq_append_iff.mp hsingle with ⟨rfl, hcons⟩ | ⟨rest, rfl, hnil⟩
    · obtain ⟨hlhs, rfl⟩ := List.cons.inj hcons
      exact ⟨_, _, hr, hlhs, by simp⟩
    · simp at hnil

/-- A category is rewritten to another, alone, exactly if unit steps lead there. -/
theorem transGen_rewrites_iff : TransGen g.Rewrites [a] [b] ↔ TransGen g.UnitStep a b := by
  constructor
  · intro h
    obtain ⟨next, hstep, hrest⟩ := TransGen.head'_iff.mp h
    obtain ⟨id, r, hr, rfl, rfl⟩ := exists_rule_of_rewrites_singleton hstep
    obtain ⟨c, hfirst, hsteps⟩ := exists_unitStep_of_leaves hr (Derives.leaves hrest)
    exact .head' hfirst hsteps
  · intro h
    induction h with
    | single hstep => exact hstep.transGen_rewrites
    | tail _ hstep ih => exact ih.trans hstep.transGen_rewrites

/-! Well-formed grammars -/

/-- Every nullable category is the left-hand side of a live rule. -/
theorem exists_rule_of_mem_nullables (hc : c ∈ g.nullables) : ∃ id r, (id, r) ∈ g.rules ∧ r.lhs = c := by
  unfold nullables at hc
  rw [nullablePass_eq] at hc
  revert c
  refine saturate_induction (motive := fun known => ∀ {c}, c ∈ known → ∃ id r, (id, r) ∈ g.rules ∧ r.lhs = c)
    (fun known hknown => ?_) _ fun hc => absurd hc Std.ExtTreeSet.not_mem_empty
  refine addTargets_induction (motive := fun known => ∀ {c}, c ∈ known → ∃ id r, (id, r) ∈ g.rules ∧ r.lhs = c)
    hknown fun known numbered hmem _ ih {c} hc => ?_
  rcases Std.ExtTreeSet.mem_insert.mp hc with heq | hold
  · exact ⟨numbered.1, numbered.2, hmem, Std.compare_eq_iff_eq.mp heq⟩
  · exact ih hold

/-- In a grammar of well-formed rules, the nullable categories are those that can be rewritten to nothing, but
for the empty category itself. -/
theorem WellFormed.mem_nullables_iff (hwell : g.WellFormed) :
    c ∈ g.nullables ↔ c.isEpsilon = false ∧ g.Vanishes c := by
  rw [vanishes_iff_erasable hwell.plain]
  constructor
  · intro hc
    obtain ⟨id, r, hr, rfl⟩ := exists_rule_of_mem_nullables hc
    exact ⟨(hwell id r hr).isEpsilon_lhs, .inr hc⟩
  · rintro ⟨hempty, herasable⟩
    exact herasable.resolve_left (by simp [hempty])

/-- In a grammar of well-formed rules, the empty category cannot be rewritten. -/
theorem WellFormed.not_isEpsilon_of_rewrites (hwell : g.WellFormed) (h : g.Rewrites [c] next) :
    c.isEpsilon = false := by
  obtain ⟨id, r, hr, rfl, -⟩ := exists_rule_of_rewrites_singleton h
  exact (hwell id r hr).isEpsilon_lhs

/-- In a grammar of well-formed rules, the nullable categories are those that are rewritten to nothing, and
there is a unit cycle exactly if some category is rewritten, in one or more steps, to itself alone. -/
theorem nullables_and_unitCycle_iff (hwell : g.WellFormed) :
    (∀ c, c ∈ g.nullables ↔ g.Derives [c] []) ∧
      (g.hasUnitCycle = true ↔ ∃ c, TransGen g.Rewrites [c] [c]) := by
  refine ⟨fun c => ⟨fun hc => ?_, fun h => ?_⟩, ?_⟩
  · obtain ⟨hempty, hvanishes⟩ := hwell.mem_nullables_iff.mp hc
    exact hvanishes.derives_nil hempty
  · obtain hnil | ⟨next, hstep, -⟩ := ReflTransGen.cases_head h
    · simp at hnil
    · exact hwell.mem_nullables_iff.mpr
        ⟨hwell.not_isEpsilon_of_rewrites hstep, h.vanishes c List.mem_cons_self⟩
  · simp only [hasUnitCycle_iff hwell.plain, RewritesToItself, transGen_rewrites_iff]

end Grammar

namespace Sample

/-- Something that may be left out. -/
def option : Category := .bare "O"

/-- Lists with something at the end that may be left out, which gives every list infinitely many parses. -/
def padded : Grammar :=
  (lists.insert (.epsilon option)).insert ⟨list, [list, option], none⟩

/-- A list with its end left out is the same list, and the grammar is found to be cyclic. -/
theorem nullables_and_unitCycle_padded : padded.WellFormed ∧ option ∈ padded.nullables ∧
    padded.Derives [option] [] ∧ ∃ c, TransGen padded.Rewrites [c] [c] := by
  have hall : ∀ numbered ∈ padded.rules, numbered.2.WellFormed := by decide +kernel
  have hwell : padded.WellFormed := fun id r hr => hall (id, r) hr
  obtain ⟨hnullables, hcycle⟩ := Grammar.nullables_and_unitCycle_iff hwell
  have hoption : option ∈ padded.nullables := by decide +kernel
  exact ⟨hwell, hoption, (hnullables option).mp hoption, hcycle.mp (by decide +kernel)⟩

end Sample

end IndexedGrammar
