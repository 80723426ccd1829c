import IndexedGrammar.Choices
import Mathlib.Algebra.Group.Nat.Defs
import Mathlib.Data.List.Nodup
import Mathlib.Data.List.Sections

/-!
# Every choice once

The ways of taking one element from each of several lists are the sections of the lists, and if no list
has an element twice, no way is listed twice. There is one way for each pick of a position in every list, and the
place at which it is listed is the number whose digits are these positions, the lengths of the lists being the
bases and the first list giving the lowest digit.
-/

namespace IndexedGrammar

variable {α β : Type}

/-- The combinations of some lists are their sections. -/
theorem combinations_eq_sections {lists : List (List α)} (h : lists ≠ []) :
    combinations lists = lists.sections := by
  fun_induction combinations lists with
  | case1 => exact absurd rfl h
  | case2 choices => simp [List.sections]
  | case3 choices next rest ih =>
    rw [ih (List.cons_ne_nil _ _)]
    rfl

/-- A section of lists that enumerate what is related to some elements is a list of related elements. -/
theorem mem_sections_map {as : List α} {f : α → List β} {related : α → β → Prop}
    (h : ∀ a ∈ as, ∀ b, b ∈ f a ↔ related a b) {bs : List β} :
    bs ∈ (as.map f).sections ↔ List.Forall₂ related as bs := by
  rw [List.mem_sections]
  induction as generalizing bs with
  | nil => simp
  | cons a as ih =>
    have hfirst := h a List.mem_cons_self
    have hrest := @ih fun other hother => h other (List.mem_cons_of_mem _ hother)
    cases bs with
    | nil => simp
    | cons b bs => rw [List.map_cons, List.forall₂_cons, List.forall₂_cons, hfirst, hrest]

/-- A list of lists names nothing twice if no list does and no two lists have anything in common. -/
theorem nodup_flatMap_of_inj {as : List α} {f : α → List β} (has : as.Nodup)
    (hf : ∀ a ∈ as, (f a).Nodup) (hinj : ∀ a ∈ as, ∀ b ∈ as, ∀ x ∈ f a, x ∈ f b → a = b) :
    (as.flatMap f).Nodup := by
  refine List.nodup_flatMap.mpr ⟨hf, has.pairwise_of_forall_ne fun a ha b hb hne => ?_⟩
  exact fun x hx hx' => hne (hinj a ha b hb x hx hx')

/-- A table with different values at different places names nothing twice. -/
theorem nodup_table {γ : Type} {as : List α} {bs : List β} {f : α → β → γ} (has : as.Nodup)
    (hbs : bs.Nodup)
    (hinj : ∀ a ∈ as, ∀ a' ∈ as, ∀ b ∈ bs, ∀ b' ∈ bs, f a b = f a' b' → a = a' ∧ b = b') :
    (as.flatMap fun a => bs.map (f a)).Nodup := by
  refine nodup_flatMap_of_inj has (fun a ha => ?_) fun a ha a' ha' x hx hx' => ?_
  · exact hbs.map_on fun b hb b' hb' heq => (hinj a ha a ha b hb b' hb' heq).2
  · obtain ⟨b, hb, rfl⟩ := List.mem_map.mp hx
    obtain ⟨b', hb', heq⟩ := List.mem_map.mp hx'
    exact (hinj a ha a' ha' b hb b' hb' heq.symm).1

/-- Some lists have as many sections as their lengths multiply to. -/
theorem length_sections (lists : List (List α)) :
    lists.sections.length = (lists.map List.length).prod := by
  induction lists with
  | nil => rfl
  | cons choices rest ih =>
    simp [List.sections, List.length_flatMap, ih, Nat.mul_comm]

/-- Lists without repetitions have no section twice. -/
theorem nodup_sections {lists : List (List α)} (h : ∀ choices ∈ lists, choices.Nodup) :
    lists.sections.Nodup := by
  induction lists with
  | nil => exact List.nodup_singleton _
  | cons choices rest ih =>
    have hrest := ih fun other hother => h other (List.mem_cons_of_mem _ hother)
    refine nodup_flatMap_of_inj hrest (fun chosen _ => ?_) fun as _ bs _ x hx hx' => ?_
    · exact (h choices List.mem_cons_self).map fun a b heq => (List.cons.inj heq).1
    · obtain ⟨a, -, rfl⟩ := List.mem_map.mp hx
      obtain ⟨b, -, heq⟩ := List.mem_map.mp hx'
      exact (List.cons.inj heq).2.symm

namespace Choices

/-- A position in each list. -/
def Picks (lists : List (List α)) (places : List Nat) : Prop :=
  List.Forall₂ (fun choices place => place < choices.length) lists places

/-- The number of a pick: a step in the first list counts one, and a step in any other list as much as all
entries of the lists before it. -/
def rank : List (List α) → List Nat → Nat
  | choices :: rest, place :: places => place + choices.length * rank rest places
  | _, _ => 0

/-- The positions that a number stands for. -/
def placesAt : List (List α) → Nat → List Nat
  | [], _ => []
  | choices :: rest, n => n % choices.length :: placesAt rest (n / choices.length)

/-- A table has its rows one after another. -/
theorem getElem?_table {γ : Type} (as : List α) {bs : List β} (f : α → β → γ) {i : Nat}
    (hi : i < bs.length) (j : Nat) : (as.flatMap fun a => bs.map (f a))[i + bs.length * j]? =
      as[j]?.bind fun a => bs[i]?.map (f a) := by
  induction as generalizing j with
  | nil => rfl
  | cons a as ih =>
    rw [List.flatMap_cons]
    cases j with
    | zero =>
      rw [List.getElem?_append_left (by simpa using hi)]
      simp
    | succ j =>
      have hsplit : i + bs.length * (j + 1) = i + bs.length * j + (bs.map (f a)).length := by
        rw [List.length_map, Nat.mul_succ, Nat.add_assoc]
      rw [hsplit, List.getElem?_append_right (Nat.le_add_left _ _), Nat.add_sub_cancel, ih]
      rfl

/-- Each pick has its number among the sections: what the lists have at the positions picked. -/
theorem getElem?_sections {lists : List (List α)} {places : List Nat} (h : Picks lists places) :
    ∃ entry, lists.sections[rank lists places]? = some entry ∧
      entry.map some = List.zipWith (fun choices place => choices[place]?) lists places := by
  induction h with
  | nil => exact ⟨[], rfl, rfl⟩
  | @cons choices place lists places hplace _ ih =>
    obtain ⟨entry, hentry, hmap⟩ := ih
    refine ⟨choices[place] :: entry, ?_, ?_⟩
    · rw [rank, List.sections, getElem?_table _ (fun chosen a => a :: chosen) hplace, hentry,
        List.getElem?_eq_getElem hplace]
      rfl
    · rw [List.map_cons, hmap, List.zipWith_cons_cons, List.getElem?_eq_getElem hplace]

/-- The positions that a number stands for are a pick of that number. -/
theorem picks_placesAt {lists : List (List α)} {n : Nat} (hn : n < (lists.map List.length).prod) :
    Picks lists (placesAt lists n) ∧ rank lists (placesAt lists n) = n := by
  induction lists generalizing n with
  | nil => exact ⟨.nil, (Nat.lt_one_iff.mp hn).symm⟩
  | cons choices rest ih =>
    rw [List.map_cons, List.prod_cons] at hn
    have hpos : 0 < choices.length := Nat.pos_of_mul_pos_right (Nat.zero_lt_of_lt hn)
    obtain ⟨hpicks, hrank⟩ := ih (Nat.div_lt_of_lt_mul hn)
    refine ⟨.cons (Nat.mod_lt n hpos) hpicks, ?_⟩
    rw [placesAt, rank, hrank]
    exact Nat.mod_add_div n choices.length

/-- A pick is told by its number. -/
theorem placesAt_rank {lists : List (List α)} {places : List Nat} (h : Picks lists places) :
    placesAt lists (rank lists places) = places := by
  induction h with
  | nil => rfl
  | @cons choices place lists places hplace _ ih =>
    have hpos : 0 < choices.length := Nat.zero_lt_of_lt hplace
    rw [rank, placesAt, Nat.add_mul_mod_self_left, Nat.mod_eq_of_lt hplace, Nat.add_mul_div_left _ _ hpos,
      Nat.div_eq_of_lt hplace, Nat.zero_add, ih]

/-- Of two lists of one length with one more entry each, the entries before it are compared first. -/
theorem concat_lt_concat_iff {as bs : List Nat} (hlength : as.length = bs.length) (a b : Nat) :
    as ++ [a] < bs ++ [b] ↔ as < bs ∨ as = bs ∧ a < b := by
  induction as generalizing bs with
  | nil =>
    obtain rfl := List.eq_nil_of_length_eq_zero hlength.symm
    simp [List.cons_lt_cons_iff]
  | cons first as ih =>
    cases bs with
    | nil => exact absurd hlength (Nat.succ_ne_zero _)
    | cons other bs =>
      rw [List.cons_append, List.cons_append, List.cons_lt_cons_iff, List.cons_lt_cons_iff,
        ih (Nat.succ.inj hlength), List.cons.injEq]
      tauto

/-- Of two numbers the one with the larger higher digit is larger, and of two with the same higher digit the
one with the larger lowest digit. -/
theorem digit_lt_iff {base low low' high high' : Nat} (hlow : low < base) (hlow' : low' < base) :
    low + base * high < low' + base * high' ↔ high < high' ∨ high = high' ∧ low < low' := by
  rcases Nat.lt_trichotomy high high' with h | rfl | h
  · have := Nat.mul_le_mul_left base (Nat.succ_le_of_lt h)
    rw [Nat.mul_succ] at this
    omega
  · omega
  · have := Nat.mul_le_mul_left base (Nat.succ_le_of_lt h)
    rw [Nat.mul_succ] at this
    omega

/-- The numbers of picks are ordered by the position in the last list first, and by that in the first list
last. -/
theorem rank_lt_iff {lists : List (List α)} {places others : List Nat} (h : Picks lists places)
    (h' : Picks lists others) :
    rank lists places < rank lists others ↔ places.reverse < others.reverse := by
  induction h generalizing others with
  | nil =>
    cases h'
    simp [rank]
  | @cons choices place lists places hplace hrest ih =>
    cases h' with
    | @cons _ other _ others hother hothers =>
      have hlength : places.reverse.length = others.reverse.length := by
        rw [List.length_reverse, List.length_reverse, ← hrest.length_eq, hothers.length_eq]
      have heq : places = others ↔ rank lists places = rank lists others := by
        refine ⟨fun heq => heq ▸ rfl, fun heq => ?_⟩
        rw [← placesAt_rank hrest, heq, placesAt_rank hothers]
      rw [List.reverse_cons, List.reverse_cons, concat_lt_concat_iff hlength, ← ih hothers, List.reverse_inj,
        heq, rank, rank, digit_lt_iff hplace hother]

end Choices

/-- The combinations of some lists are as many as their lengths multiply to. Each pick of positions has a
place among them, at which there is what the lists have at these positions, and each place belongs to exactly
one pick. The places are in the order of the positions in the last list, then in the list before it, and so
on, so that the first list varies fastest. -/
theorem combinations_in_order {lists : List (List α)} (h : lists ≠ []) :
    (combinations lists).length = (lists.map List.length).prod ∧
    (∀ places, Choices.Picks lists places →
      ∃ entry, (combinations lists)[Choices.rank lists places]? = some entry ∧
        entry.map some = List.zipWith (fun choices place => choices[place]?) lists places) ∧
    (∀ n < (combinations lists).length,
      ∃! places, Choices.Picks lists places ∧ Choices.rank lists places = n) ∧
    ∀ places others, Choices.Picks lists places → Choices.Picks lists others →
      (Choices.rank lists places < Choices.rank lists others ↔ places.reverse < others.reverse) := by
  rw [combinations_eq_sections h, length_sections]
  refine ⟨rfl, fun places hplaces => Choices.getElem?_sections hplaces, fun n hn => ?_,
    fun places others hplaces hothers => Choices.rank_lt_iff hplaces hothers⟩
  refine ⟨Choices.placesAt lists n, Choices.picks_placesAt hn, fun places hplaces => ?_⟩
  obtain ⟨hpicks, rfl⟩ := hplaces
  exact (Choices.placesAt_rank hpicks).symm

/-- Of lists of one, two, one and three numbers there are six combinations, and the last one is made of the
last numbers. -/
theorem combinations_in_order_numbers : [[1], [2, 3], [4], [5, 6, 7]] ≠ [] ∧
    (combinations [[1], [2, 3], [4], [5, 6, 7]]).length = 6 ∧
    Choices.Picks [[1], [2, 3], [4], [5, 6, 7]] [0, 1, 0, 2] ∧
    (combinations [[1], [2, 3], [4], [5, 6, 7]])[5]? = some [1, 3, 4, 7] := by
  have hne : [[1], [2, 3], [4], [5, 6, 7]] ≠ [] := by decide
  have hpicks : Choices.Picks [[1], [2, 3], [4], [5, 6, 7]] [0, 1, 0, 2] := by simp [Choices.Picks]
  obtain ⟨hlength, hentry, -, -⟩ := combinations_in_order hne
  obtain ⟨entry, hfound, hmap⟩ := hentry _ hpicks
  obtain rfl : entry = [1, 3, 4, 7] :=
    List.map_injective_iff.mpr (fun _ _ => Option.some.inj) hmap
  exact ⟨hne, hlength, hpicks, hfound⟩

end IndexedGrammar
