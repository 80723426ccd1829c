import IndexedGrammar.Proofs.Chart.Asked

/-!
# What a column asks for, along a frontier

What the states of a column ask for can also be followed with a frontier of categories that are wanted but were not
looked at yet. Each of them is taken off the frontier once, and what the states begun for it ask for joins the
frontier, unless it was wanted before. The categories that are wanted in the end are those that are reached.
-/

namespace IndexedGrammar

section Frontier

variable {α : Type} [Ord α] [Std.TransOrd α]

/-- Wants more, which joins the frontier unless it was wanted before. -/
def wantMore (wanted : Std.ExtTreeSet α) (frontier : List α) : List α → Std.ExtTreeSet α × List α
  | [] => (wanted, frontier)
  | a :: more =>
    if wanted.contains a then wantMore wanted frontier more
    else wantMore (wanted.insert a) (a :: frontier) more

variable {wanted : Std.ExtTreeSet α} {frontier more : List α}

/-- How many steps lead to what is not wanted yet. -/
def unwantedSteps (steps : List (α × α)) (wanted : Std.ExtTreeSet α) : Nat :=
  outstanding Prod.snd (fun _ => 1) wanted steps

/-- What joins the frontier is made up for by the steps that lead there. -/
theorem unwantedSteps_wantMore {steps : List (α × α)} (hmore : ∀ a ∈ more, a ∈ steps.map Prod.snd) :
    unwantedSteps steps (wantMore wanted frontier more).1 + (wantMore wanted frontier more).2.length ≤
      unwantedSteps steps wanted + frontier.length := by
  induction more generalizing wanted frontier with
  | nil => exact Nat.le_refl _
  | cons a more ih =>
    obtain ⟨ha, hrest⟩ := List.forall_mem_cons.mp hmore
    unfold wantMore
    split
    · exact ih hrest
    · next hnew =>
      obtain ⟨step, hstep, rfl⟩ := List.mem_map.mp ha
      have hfewer : unwantedSteps steps (wanted.insert step.2) + 1 ≤ unwantedSteps steps wanted :=
        outstanding_insert hstep (Bool.eq_false_iff.mpr hnew)
      refine Nat.le_trans (ih hrest) ?_
      rw [List.length_cons]
      omega

section Lawful

variable [Std.LawfulEqOrd α]

/-- Everything more is wanted. -/
theorem mem_wantMore {a : α} : a ∈ (wantMore wanted frontier more).1 ↔ a ∈ wanted ∨ a ∈ more := by
  induction more generalizing wanted frontier with
  | nil => simp [wantMore]
  | cons b more ih =>
    unfold wantMore
    split
    · next hb =>
      rw [ih, List.mem_cons]
      grind
    · rw [ih, Std.ExtTreeSet.mem_insert, Std.compare_eq_iff_eq, List.mem_cons, @eq_comm _ b a]
      tauto

/-- What is wanted for the first time joins the frontier. -/
theorem mem_frontier_wantMore {a : α} :
    a ∈ (wantMore wanted frontier more).2 ↔ a ∈ frontier ∨ a ∈ more ∧ a ∉ wanted := by
  induction more generalizing wanted frontier with
  | nil => simp [wantMore]
  | cons b more ih =>
    unfold wantMore
    split
    · next hb =>
      rw [ih, List.mem_cons]
      grind
    · next hb =>
      rw [ih, Std.ExtTreeSet.mem_insert, Std.compare_eq_iff_eq, List.mem_cons, List.mem_cons]
      grind

end Lawful

variable [DecidableEq α]

/-- Where the steps from somewhere lead. -/
def targetsOf (steps : List (α × α)) (a : α) : List α :=
  (steps.filter fun step => step.1 = a).map Prod.snd

omit [Ord α] [Std.TransOrd α] in
/-- Steps lead to their targets. -/
theorem mem_targetsOf {steps : List (α × α)} {a b : α} : b ∈ targetsOf steps a ↔ (a, b) ∈ steps := by
  simp [targetsOf]

/-- Wants what the frontier leads to. -/
def wantAll (steps : List (α × α)) (wanted : Std.ExtTreeSet α) : List α → Std.ExtTreeSet α
  | [] => wanted
  | a :: frontier =>
    wantAll steps (wantMore wanted frontier (targetsOf steps a)).1 (wantMore wanted frontier (targetsOf steps a)).2
termination_by frontier => unwantedSteps steps wanted + frontier.length
decreasing_by
  refine Nat.lt_of_le_of_lt (unwantedSteps_wantMore fun b hb => ?_) (Nat.lt_succ_self _)
  exact List.mem_map.mpr ⟨(a, b), mem_targetsOf.mp hb, rfl⟩

/-- If every step from what is wanted leads to what is wanted or begins on the frontier, then all that is reached
from what is wanted is wanted in the end, and nothing else. -/
theorem mem_wantAll [Std.LawfulEqOrd α] {steps : List (α × α)} (hfrontier : ∀ a ∈ frontier, a ∈ wanted)
    (hclosed : ∀ a ∈ wanted, ∀ b, (a, b) ∈ steps → b ∈ wanted ∨ a ∈ frontier) {a : α} :
    a ∈ wantAll steps wanted frontier ↔
      ∃ b ∈ wanted, Relation.ReflTransGen (fun x y => (x, y) ∈ steps) b a := by
  fun_induction wantAll steps wanted frontier with
  | case1 wanted =>
    refine ⟨fun ha => ⟨a, ha, .refl⟩, ?_⟩
    rintro ⟨b, hb, hpath⟩
    induction hpath with
    | refl => exact hb
    | tail _ hstep ih => exact (hclosed _ ih _ hstep).resolve_right List.not_mem_nil
  | case2 wanted first frontier ih =>
    have hfirst := hfrontier first List.mem_cons_self
    rw [ih (fun b hb => ?_) fun b hb d hstep => ?_]
    · constructor
      · rintro ⟨b, hb, hpath⟩
        rcases mem_wantMore.mp hb with hb | hb
        · exact ⟨b, hb, hpath⟩
        · exact ⟨first, hfirst, .head (mem_targetsOf.mp hb) hpath⟩
      · rintro ⟨b, hb, hpath⟩
        exact ⟨b, mem_wantMore.mpr (.inl hb), hpath⟩
    · rcases mem_frontier_wantMore.mp hb with hb | ⟨hb, -⟩
      · exact mem_wantMore.mpr (.inl (hfrontier b (List.mem_cons_of_mem _ hb)))
      · exact mem_wantMore.mpr (.inr hb)
    · -- what joins the frontier is new, and the first category has just been looked at
      rw [mem_wantMore, mem_frontier_wantMore]
      by_cases hold : b ∈ wanted
      · rcases hclosed b hold d hstep with hd | hmem
        · exact .inl (.inl hd)
        · rcases List.mem_cons.mp hmem with rfl | hmem
          · exact .inl (.inr (mem_targetsOf.mpr hstep))
          · exact .inr (.inl hmem)
      · exact .inr (.inr ⟨(mem_wantMore.mp hb).resolve_left hold, hold⟩)

end Frontier

/-- What the states of a column still ask for is what is wanted in the end if a frontier is followed from what
states from earlier columns ask for. -/
theorem Removal.wanted_eq_wantAll (g : Grammar) (c : Chart) (k : Nat) (ids : List Nat) :
    wanted g c k ids = wantAll (askingSteps g c k ids) (wantMore ∅ [] (askedAt g c k ids)).1
      (wantMore ∅ [] (askedAt g c k ids)).2 := by
  refine Std.ExtTreeSet.ext_mem fun symbol => ?_
  have hasked {a : Category} : a ∈ (wantMore (∅ : CategorySet) [] (askedAt g c k ids)).1 ↔
      a ∈ askedAt g c k ids := by
    simp [mem_wantMore]
  have hfrontier {a : Category} : a ∈ (wantMore (∅ : CategorySet) [] (askedAt g c k ids)).2 ↔
      a ∈ askedAt g c k ids := by
    simp [mem_frontier_wantMore]
  rw [mem_wantAll (fun a ha => hasked.mpr (hfrontier.mp ha)) fun a ha _ _ => .inr (hfrontier.mpr (hasked.mp ha))]
  show symbol ∈ reachable (askingSteps g c k ids) (Std.ExtTreeSet.ofList (askedAt g c k ids)) ↔ _
  simp only [mem_reachable, hasked, Std.ExtTreeSet.mem_ofList, List.contains_iff_mem]

end IndexedGrammar
