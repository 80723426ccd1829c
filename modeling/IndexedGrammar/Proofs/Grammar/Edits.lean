import IndexedGrammar.Proofs.Grammar.Changes
import IndexedGrammar.Proofs.Sample

/-!
# Edits of a grammar

A grammar is edited by inserting, removing, restoring and retracting rules. A number that is refused changes
nothing, and only the rule inserted last may be retracted, but never the synthetic rule. Such edits never fail,
and after them the listings are exact and in the order of the numbers, and a number stands for its rule until
it is retracted.

Edits that are taken back, each by its inverse and the later ones first, leave the grammar they began with.
-/

namespace IndexedGrammar

namespace Grammar

/-- An edit that can be asked of a grammar. -/
inductive Edit where
  | insert (r : Rule)
  | remove (id : Nat)
  | restore (id : Nat)
  | retract (id : Nat)
deriving DecidableEq

/-- The grammar after an edit. What is refused changes nothing. -/
def edit (g : Grammar) : Edit → Except Breach Grammar
  | .insert r => .ok (g.insert r)
  | .remove id => .ok ((g.remove? id).getD g)
  | .restore id => .ok ((g.restore? id).getD g)
  | .retract id => g.retract id

/-- The grammar after edits, one after the other. -/
def editAll (g : Grammar) (edits : List Edit) : Except Breach Grammar :=
  edits.foldlM edit g

/-- Whether an edit may be asked of a grammar: only the latest rule may be retracted, and never the synthetic
one. -/
def admits (g : Grammar) : Edit → Bool
  | .retract id => id + 1 = g.size && id ≠ rootId
  | _ => true

/-- Whether edits may be asked of a grammar, one after the other. -/
def admitsAll (g : Grammar) : List Edit → Bool
  | [] => true
  | e :: edits => g.admits e &&
    match g.edit e with
    | .ok g' => g'.admitsAll edits
    | .error _ => false

/-- Edits that are taken back: what stands between an edit and its inverse is taken back as well. -/
inductive Undone : Grammar → List Edit → Prop
  | nil (g : Grammar) : Undone g []
  | insert {g : Grammar} (r : Rule) {between later : List Edit} : Undone (g.insert r) between →
      Undone g later → Undone g (.insert r :: (between ++ .retract g.size :: later))
  | remove {g g' : Grammar} {id : Nat} {between later : List Edit} : g.remove? id = some g' →
      Undone g' between → Undone g later → Undone g (.remove id :: (between ++ .restore id :: later))

/-- The listings of a grammar are exact and in the order of the numbers. -/
structure Listed (g : Grammar) : Prop where
  known : ∀ c, g.knowsRulesFor c = true
  mem_rulesFor : ∀ c id r, (id, r) ∈ g.rulesFor c ↔ g.rule? id = some r ∧ g.isLive id = true ∧ r.lhs = c
  ascending_rulesFor : ∀ c, ((g.rulesFor c).map Prod.fst).Pairwise (· < ·)
  mem_rules : ∀ id r, (id, r) ∈ g.rules ↔ id ≠ rootId ∧ g.rule? id = some r ∧ g.isLive id = true
  ascending_rules : (g.rules.map Prod.fst).Pairwise (· < ·)

variable {g g' : Grammar} {e : Edit} {edits between later : List Edit} {id other : Nat} {r : Rule}

/-! Listings -/

/-- The rules of a category are listed under the numbers in the index. -/
theorem Indexed.fst_rulesFor (h : g.Indexed) (c : Category) : (g.rulesFor c).map Prod.fst = g.byLhs.ids c := by
  have hall : ∀ id ∈ g.byLhs.ids c, ((g.rule? id).map fun r => (id, r)).map Prod.fst = some id := by
    intro id hid
    obtain ⟨r, hr, -⟩ := (h.mem_byLhs c id).mp hid
    rw [hr.rule?]
    rfl
  rw [rulesFor, List.map_filterMap]
  exact (List.filterMap_congr hall).trans List.filterMap_some

/-- The listings of every grammar that comes about are exact and in order. -/
theorem Reachable.listed (h : g.Reachable) : g.Listed where
  known c := List.all_eq_true.mpr fun id hid => by
    obtain ⟨r, hr, -⟩ := (h.indexed.mem_byLhs c id).mp hid
    rw [hr.rule?]
    rfl
  mem_rulesFor c id r := by rw [h.indexed.mem_rulesFor, hasRule_iff, and_assoc]
  ascending_rulesFor c := h.indexed.fst_rulesFor c ▸ h.ordered.ascending c
  mem_rules id r := by rw [mem_rules_iff, hasRule_iff]
  ascending_rules := g.ascending_rules

/-! One edit -/

/-- An insertion leaves the contents of the rules before it as they are. -/
theorem rule?_insert (hr : g.rule? id = some r) (s : Rule) : (g.insert s).rule? id = some r := by
  obtain ⟨slot, hslot, rfl⟩ := Option.map_eq_some_iff.mp hr
  have hlt : id < g.slots.size := (Array.getElem?_eq_some_iff.mp hslot).1
  rw [rule?, insert, Array.getElem?_push, if_neg (Nat.ne_of_lt hlt), hslot, Option.map_some]

/-- A restoration leaves the contents of every rule as they are. -/
theorem rule?_restore (hrestore : g.restore? id = some g') (other : Nat) : g'.rule? other = g.rule? other := by
  obtain ⟨r, -, rfl⟩ := restored_of_restore hrestore
  simp only [rule?, mark, Array.getElem?_modify]
  split
  · cases g.slots[other]? <;> rfl
  · rfl

/-- A removal gives no number back. -/
theorem size_remove (hremove : g.remove? id = some g') : g'.size = g.size := by
  obtain ⟨-, r, -, rfl⟩ := removed_of_remove hremove
  simp [size, mark]

/-- A retraction leaves the contents of the rules before it as they are. -/
theorem rule?_retract (hretract : g.retract id = .ok g') (hr : g.rule? other = some r) (hne : id ≠ other) :
    g'.rule? other = some r := by
  unfold retract at hretract
  split at hretract
  · contradiction
  · next hsize =>
    rw [Decidable.not_not] at hsize
    obtain rfl := Except.ok.inj hretract
    have hkept : ((g.remove? id).getD g).rule? other = some r ∧ ((g.remove? id).getD g).size = g.size := by
      cases hremove : g.remove? id with
      | none => exact ⟨hr, rfl⟩
      | some removed => exact ⟨(rule?_remove hremove other).trans hr, size_remove hremove⟩
    obtain ⟨slot, hslot, rfl⟩ := Option.map_eq_some_iff.mp hkept.1
    have hlt := (Array.getElem?_eq_some_iff.mp hslot).1
    have hbefore : other < ((g.remove? id).getD g).slots.size - 1 := by
      have hsame : ((g.remove? id).getD g).slots.size = g.size := hkept.2
      omega
    rw [rule?, Array.getElem?_pop, if_pos hbefore, hslot, Option.map_some]

/-- An edit leaves a number its rule, unless it retracts it. -/
theorem rule?_edit (hedit : g.edit e = .ok g') (hr : g.rule? id = some r) (hne : e ≠ .retract id) :
    g'.rule? id = some r := by
  cases e with
  | insert s => exact Except.ok.inj hedit ▸ rule?_insert hr s
  | remove removed =>
    obtain rfl := Except.ok.inj hedit
    cases hremove : g.remove? removed with
    | none => exact hr
    | some left => exact (rule?_remove hremove id).trans hr
  | restore restored =>
    obtain rfl := Except.ok.inj hedit
    cases hrestore : g.restore? restored with
    | none => exact hr
    | some left => exact (rule?_restore hrestore id).trans hr
  | retract retracted => exact rule?_retract hedit hr fun heq => hne (heq ▸ rfl)

/-- An edit that may be asked for does not fail, and leads to a grammar that comes about. -/
theorem Reachable.edit (hg : g.Reachable) (hadmits : g.admits e = true) :
    ∃ g', g.edit e = .ok g' ∧ g'.Reachable := by
  cases e with
  | insert r => exact ⟨_, rfl, hg.insert r⟩
  | remove id =>
    refine ⟨_, rfl, ?_⟩
    cases hremove : g.remove? id with
    | none => exact hg
    | some left => exact hg.remove hremove
  | restore id =>
    refine ⟨_, rfl, ?_⟩
    cases hrestore : g.restore? id with
    | none => exact hg
    | some left => exact hg.restore hrestore
  | retract id =>
    simp only [admits, Bool.and_eq_true, decide_eq_true_eq] at hadmits
    have hretract : ∃ g', g.retract id = .ok g' := by
      unfold Grammar.retract
      rw [if_neg (not_not_intro hadmits.1)]
      exact ⟨_, rfl⟩
    obtain ⟨g', hretract⟩ := hretract
    exact ⟨g', hretract, hg.retract hadmits.2 hretract⟩

/-! Edits one after the other -/

/-- The first edit, then the others. -/
theorem editAll_cons (g : Grammar) (e : Edit) (edits : List Edit) :
    g.editAll (e :: edits) = g.edit e >>= fun g' => g'.editAll edits :=
  List.foldlM_cons

/-- Some edits, then the others. -/
theorem editAll_append (g : Grammar) (edits later : List Edit) :
    g.editAll (edits ++ later) = g.editAll edits >>= fun g' => g'.editAll later :=
  List.foldlM_append

/-- Edits that may be asked for do not fail, and lead to a grammar that comes about. -/
theorem Reachable.editAll (hg : g.Reachable) (hadmits : g.admitsAll edits = true) :
    ∃ g', g.editAll edits = .ok g' ∧ g'.Reachable := by
  induction edits generalizing g with
  | nil => exact ⟨g, rfl, hg⟩
  | cons e edits ih =>
    obtain ⟨hfirst, hrest⟩ := Bool.and_eq_true_iff.mp hadmits
    obtain ⟨next, hnext, hreachable⟩ := hg.edit hfirst
    rw [hnext] at hrest
    rw [editAll_cons, hnext]
    exact ih hreachable hrest

/-- Edits leave a number its rule, unless one of them retracts it. -/
theorem rule?_editAll (hedits : g.editAll edits = .ok g') (hr : g.rule? id = some r)
    (hkept : .retract id ∉ edits) : g'.rule? id = some r := by
  induction edits generalizing g with
  | nil => exact Except.ok.inj hedits ▸ hr
  | cons e edits ih =>
    obtain ⟨hfirst, hrest⟩ := not_or.mp (List.mem_cons.not.mp hkept)
    rw [editAll_cons] at hedits
    cases hnext : g.edit e with
    | error breach => rw [hnext] at hedits; contradiction
    | ok next =>
      rw [hnext] at hedits
      exact ih hedits (rule?_edit hnext hr (Ne.symm hfirst)) hrest

/-- The synthetic rule is not retracted. -/
theorem root_not_mem (hadmits : g.admitsAll edits = true) : .retract rootId ∉ edits := by
  induction edits generalizing g with
  | nil => exact List.not_mem_nil
  | cons e edits ih =>
    obtain ⟨hfirst, hrest⟩ := Bool.and_eq_true_iff.mp hadmits
    refine List.mem_cons.not.mpr (not_or.mpr ⟨?_, ?_⟩)
    · rintro rfl
      simp [admits] at hfirst
    · cases hnext : g.edit e with
      | error breach => rw [hnext] at hrest; contradiction
      | ok next => exact ih (hnext ▸ hrest)

/-! Edits that are taken back -/

/-- Edits that are taken back leave the grammar they began with. -/
theorem Undone.editAll (h : Undone g edits) (hg : g.Reachable) : g.editAll edits = .ok g := by
  induction h with
  | nil => rfl
  | @insert g r between later _ _ ihBetween ihLater =>
    have hretract : (g.insert r).edit (.retract g.size) = .ok g := retract_insert hg r
    calc g.editAll (.insert r :: (between ++ .retract g.size :: later))
        = (g.insert r).editAll between >>= fun g' => g'.editAll (.retract g.size :: later) :=
          editAll_append _ _ _
      _ = (g.insert r).edit (.retract g.size) >>= fun g' => g'.editAll later := by
          rw [ihBetween (hg.insert r)]
          rfl
      _ = .ok g := by
          rw [hretract]
          exact ihLater hg
  | @remove g g' id between later hremove _ _ ihBetween ihLater =>
    have hrestore : g'.edit (.restore id) = .ok g := by
      rw [Grammar.edit, restore?_of_remove hg hremove, Option.getD_some]
    calc g.editAll (.remove id :: (between ++ .restore id :: later))
        = g'.editAll between >>= fun h => h.editAll (.restore id :: later) := by
          rw [editAll_cons, Grammar.edit, hremove, Option.getD_some]
          exact editAll_append _ _ _
      _ = g'.edit (.restore id) >>= fun h => h.editAll later := by
          rw [ihBetween (hg.remove hremove)]
          rfl
      _ = .ok g := by
          rw [hrestore]
          exact ihLater hg

/-- Whatever edits are asked for, they do not fail, and the grammar after them lists exactly its live rules in
the order of their numbers, for every category and altogether. A number that had a rule at some point has it
still, unless it was retracted since then; the synthetic rule is as it was and live. Further edits that are
taken back lead to the same grammar, whatever it is asked. -/
theorem editAll_new (start : Category) (root : String) (partsOfSpeech : Std.ExtTreeSet String)
    (hadmits : (new start root partsOfSpeech).admitsAll edits = true) :
    ∃ g, (new start root partsOfSpeech).editAll edits = .ok g ∧ g.Listed ∧
      (∀ earlier later before, edits = earlier ++ later →
        (new start root partsOfSpeech).editAll earlier = .ok before →
        ∀ id r, before.rule? id = some r → .retract id ∉ later → g.rule? id = some r) ∧
      (g.rule? rootId = some ⟨.bare root, [start], none⟩ ∧ g.isLive rootId = true) ∧
      (∀ undone, Undone g undone → g.editAll undone = .ok g) := by
  obtain ⟨g, hg, hreachable⟩ := (Reachable.new start root partsOfSpeech).editAll hadmits
  refine ⟨g, hg, hreachable.listed, ?_, ⟨?_, ?_⟩, fun undone hundone => hundone.editAll hreachable⟩
  · intro earlier later before hsplit hbefore id r hr hkept
    rw [hsplit, editAll_append, hbefore] at hg
    exact rule?_editAll hg hr hkept
  · exact rule?_editAll hg rfl (root_not_mem hadmits)
  · obtain ⟨name, hroot⟩ := hreachable.indexed.root
    exact hroot.isLive

end Grammar

namespace Sample

/-- Edits after which lists are single words, longer lists or doubled lists. The rule for pairs is removed before
it is retracted, and its number is given again. -/
def edits : List Grammar.Edit :=
  [.insert single, .insert longer, .remove 1, .insert pair, .restore 1, .remove 3, .retract 3, .insert doubled]

/-- Edits that are taken back, some of them within others. -/
def undone : List Grammar.Edit :=
  [.remove 2, .insert looped, .remove 4, .restore 4, .retract 4, .restore 2]

end Sample

open Sample in
/-- Lists are edited: the single word keeps its number while it is out of use, and the number of pairs is given to
doubled lists. Edits that are taken back change nothing. -/
theorem Grammar.editAll_new_doubled :
    (Grammar.new list "γ" (Std.ExtTreeSet.ofList ["n"])).admitsAll edits = true ∧
    (Grammar.new list "γ" (Std.ExtTreeSet.ofList ["n"])).editAll edits = .ok (lists.insert doubled) ∧
    (lists.insert doubled).Listed ∧
    (lists.insert doubled).rulesFor list = [(1, single), (2, longer), (3, doubled)] ∧
    (lists.insert doubled).rule? 1 = some single ∧
    (lists.insert doubled).editAll undone = .ok (lists.insert doubled) := by
  have hadmits : (Grammar.new list "γ" (Std.ExtTreeSet.ofList ["n"])).admitsAll edits = true := by
    decide +kernel
  have hedits : (Grammar.new list "γ" (Std.ExtTreeSet.ofList ["n"])).editAll edits =
      .ok (lists.insert doubled) := ok_of_toOption (by decide +kernel)
  have hundone : Grammar.Undone (lists.insert doubled) undone := by
    have hlonger : ((lists.insert doubled).remove? 2).isSome = true := by decide +kernel
    obtain ⟨g, hg⟩ := Option.isSome_iff_exists.mp hlonger
    have hlooped : ((g.insert looped).remove? g.size).isSome = true := by
      have hr : (g.insert looped).HasRule g.size looped := Grammar.hasRule_insert.mpr (.inr ⟨rfl, rfl⟩)
      have hsize : g.size ≠ Grammar.rootId := by rw [Grammar.size_remove hg]; decide
      exact Option.isSome_iff_ne_none.mpr (hr.remove?_ne_none hsize)
    obtain ⟨g', hg'⟩ := Option.isSome_iff_exists.mp hlooped
    have hbetween : Grammar.Undone g [.insert looped, .remove g.size, .restore g.size, .retract g.size] :=
      .insert looped (.remove hg' (.nil g') (.nil _)) (.nil g)
    rw [Grammar.size_remove hg] at hbetween
    exact .remove hg hbetween (.nil _)
  obtain ⟨g, hg, hlisted, hkept, -, htaken⟩ := Grammar.editAll_new list "γ" _ hadmits
  obtain rfl := Except.ok.inj (hedits.symm.trans hg)
  exact ⟨hadmits, hedits, hlisted, by decide +kernel,
    hkept [.insert single] (edits.drop 1) singles rfl rfl 1 single rfl (by decide), htaken undone hundone⟩

end IndexedGrammar
