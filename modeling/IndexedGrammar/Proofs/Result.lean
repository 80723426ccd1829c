import Mathlib.Data.List.Forall2

/-!
# Operations that can fail

A sequence of operations gives a result when each of them does. What holds of one operation holds of
all that are done one after the other.
-/

namespace IndexedGrammar

/-- A sequence succeeds if both its parts do. -/
theorem bind_eq_ok {ε α β : Type} {first : Except ε α} {next : α → Except ε β} {b : β} :
    first >>= next = .ok b ↔ ∃ a, first = .ok a ∧ next a = .ok b := by
  cases first with
  | error e => simp [bind, Except.bind]
  | ok a => simp [bind, Except.bind]

/-- Changing the fault leaves a success as it is. -/
theorem mapError_eq_ok {ε δ α : Type} {change : ε → δ} {result : Except ε α} {a : α} :
    result.mapError change = .ok a ↔ result = .ok a := by
  cases result with
  | error e => simp [Except.mapError]
  | ok b => simp [Except.mapError]

/-- An operation succeeds on several things if it does so on each. -/
theorem mapM_eq_ok {ε α β : Type} {f : α → Except ε β} {as : List α} {bs : List β} :
    as.mapM f = .ok bs ↔ List.Forall₂ (fun a b => f a = .ok b) as bs := by
  induction as generalizing bs with
  | nil =>
    rw [List.mapM_nil, List.forall₂_nil_left_iff]
    exact ⟨fun h => (Except.ok.inj h).symm, fun h => h ▸ rfl⟩
  | cons a rest ih =>
    rw [List.mapM_cons, bind_eq_ok, List.forall₂_cons_left_iff]
    constructor
    · rintro ⟨b, hb, h⟩
      obtain ⟨more, hmore, h⟩ := bind_eq_ok.mp h
      exact ⟨b, more, hb, ih.mp hmore, (Except.ok.inj h).symm⟩
    · rintro ⟨b, more, hb, hmore, rfl⟩
      exact ⟨b, hb, bind_eq_ok.mpr ⟨more, ih.mpr hmore, rfl⟩⟩

/-- An operation succeeds on several things, or it fails as it does on one of them. -/
theorem mapM_ok_or_error {ε α β : Type} (f : α → Except ε β) (as : List α) :
    (∃ bs, as.mapM f = .ok bs) ∨ ∃ a ∈ as, ∃ e, f a = .error e ∧ as.mapM f = .error e := by
  induction as with
  | nil => exact .inl ⟨[], rfl⟩
  | cons a rest ih =>
    rw [List.mapM_cons]
    cases ha : f a with
    | error e => exact .inr ⟨a, List.mem_cons_self, e, ha, rfl⟩
    | ok b =>
      rcases ih with ⟨bs, hbs⟩ | ⟨other, hother, e, he, hrest⟩
      · exact .inl ⟨b :: bs, by rw [hbs]; rfl⟩
      · exact .inr ⟨other, List.mem_cons_of_mem a hother, e, he, by rw [hrest]; rfl⟩

/-- What an operation gives for several things depends only on what it gives for each. -/
theorem mapM_congr {α β : Type} {f g : α → Option β} {as : List α} (h : ∀ a ∈ as, f a = g a) :
    as.mapM f = as.mapM g := by
  induction as with
  | nil => rfl
  | cons a rest ih =>
    rw [List.forall_mem_cons] at h
    rw [List.mapM_cons, List.mapM_cons, h.1, ih h.2]

/-- What stands on the right of a pairing stands beside something on the left. -/
theorem exists_of_forall₂ {α β : Type} {pairs : α → β → Prop} {as : List α} {bs : List β}
    (h : List.Forall₂ pairs as bs) {b : β} (hb : b ∈ bs) : ∃ a ∈ as, pairs a b := by
  induction h with
  | nil => exact absurd hb List.not_mem_nil
  | @cons a first as rest hpair _ ih =>
    rcases List.mem_cons.mp hb with rfl | hrest
    · exact ⟨a, List.mem_cons_self, hpair⟩
    · obtain ⟨other, hother, hpairs⟩ := ih hrest
      exact ⟨other, List.mem_cons_of_mem a hother, hpairs⟩

/-- Something related to each element of a list can be chosen. -/
theorem exists_forall₂ {α β : Type} {related : α → β → Prop} {as : List α}
    (h : ∀ a ∈ as, ∃ b, related a b) : ∃ bs, List.Forall₂ related as bs := by
  induction as with
  | nil => exact ⟨[], .nil⟩
  | cons a as ih =>
    obtain ⟨⟨b, hb⟩, hrest⟩ := List.forall_mem_cons.mp h
    obtain ⟨bs, hbs⟩ := ih hrest
    exact ⟨b :: bs, .cons hb hbs⟩

/-- Something related to each element of a list can be chosen, and for one of them as one likes. -/
theorem exists_forall₂_mem {α β : Type} {related : α → β → Prop} {as : List α}
    (h : ∀ a ∈ as, ∃ b, related a b) {a : α} {b : β} (ha : a ∈ as) (hb : related a b) :
    ∃ bs, List.Forall₂ related as bs ∧ b ∈ bs := by
  induction as with
  | nil => exact absurd ha List.not_mem_nil
  | cons first rest ih =>
    obtain ⟨⟨other, hother⟩, hrest⟩ := List.forall_mem_cons.mp h
    rcases List.mem_cons.mp ha with rfl | hmem
    · obtain ⟨bs, hbs⟩ := exists_forall₂ hrest
      exact ⟨b :: bs, .cons hb hbs, List.mem_cons_self⟩
    · obtain ⟨bs, hbs, hmem⟩ := ih hrest hmem
      exact ⟨other :: bs, .cons hother hbs, List.mem_cons_of_mem other hmem⟩

/-- What is paired with the same things is paired with each other. -/
theorem forall₂_across {α β γ : Type} {left : α → β → Prop} {right : α → γ → Prop} {across : β → γ → Prop}
    (hacross : ∀ a b c, left a b → right a c → across b c) {as : List α} {bs : List β} {cs : List γ}
    (h : List.Forall₂ left as bs) (h' : List.Forall₂ right as cs) : List.Forall₂ across bs cs := by
  induction h generalizing cs with
  | nil =>
    cases h'
    exact .nil
  | @cons a b as bs hab _ ih =>
    cases h' with
    | cons hac hrest => exact .cons (hacross a b _ hab hac) (ih hrest)

/-- What a change does to each of several things, it does to all of them. -/
theorem forall₂_mapM {ε α β γ : Type} {change : β → Except ε γ} {old : α → β → Prop} {new : α → γ → Prop}
    (hchange : ∀ a b c, old a b → change b = .ok c → new a c) {as : List α} {bs : List β} {cs : List γ}
    (h : List.Forall₂ old as bs) (hok : bs.mapM change = .ok cs) : List.Forall₂ new as cs := by
  exact forall₂_across (fun b a c hab hc => hchange a b c hab hc) h.flip (mapM_eq_ok.mp hok)

/-- What each of several things has beside others whatever its place, all of them have. -/
theorem forall₂_mapIdx {α β γ : Type} {old : α → β → Prop} {new : α → γ → Prop} {change : Nat → β → γ}
    (hchange : ∀ n a b, old a b → new a (change n b)) {as : List α} {bs : List β}
    (h : List.Forall₂ old as bs) : List.Forall₂ new as (bs.mapIdx change) := by
  induction h generalizing change with
  | nil => exact .nil
  | @cons a b as bs hpair _ ih =>
    rw [List.mapIdx_cons]
    exact .cons (hchange 0 a b hpair) (ih fun n => hchange (n + 1))

/-- What can be done to each of several things beside others can be done to all of them. -/
theorem exists_mapM {ε α β γ : Type} {change : α → Except ε γ} {old : α → β → Prop} {new : γ → β → Prop}
    (hchange : ∀ a b, old a b → ∃ c, change a = .ok c ∧ new c b) {as : List α} {bs : List β}
    (h : List.Forall₂ old as bs) : ∃ cs, as.mapM change = .ok cs ∧ List.Forall₂ new cs bs := by
  induction h with
  | nil => exact ⟨[], rfl, .nil⟩
  | @cons a b as bs hab _ ih =>
    obtain ⟨c, hc, hnew⟩ := hchange a b hab
    obtain ⟨cs, hcs, hall⟩ := ih
    rw [mapM_eq_ok] at hcs
    exact ⟨c :: cs, mapM_eq_ok.mpr (.cons hc hcs), .cons hnew hall⟩

/-- What can be done to each of several things can be done to all of them, in their order. -/
theorem exists_mapM_mem {ε α γ : Type} {change : α → Except ε γ} {new : γ → α → Prop} {as : List α}
    (hchange : ∀ a ∈ as, ∃ c, change a = .ok c ∧ new c a) :
    ∃ cs, as.mapM change = .ok cs ∧ List.Forall₂ new cs as := by
  obtain ⟨cs, hcs⟩ := exists_forall₂ hchange
  exact ⟨cs, mapM_eq_ok.mpr (hcs.imp fun _ _ h => h.1), hcs.flip.imp fun _ _ h => h.2⟩

end IndexedGrammar
