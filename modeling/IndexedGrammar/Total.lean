/-!
# Totals

The total of a list adds up a number for each of its elements.
-/

namespace IndexedGrammar

/-- The sum of the numbers that stand for the elements of a list. -/
def total {α : Type} (size : α → Nat) : List α → Nat
  | [] => 0
  | a :: rest => size a + total size rest

/-- A change of one element that keeps its number keeps the total. -/
theorem total_modify_eq {α : Type} (size : α → Nat) {f : α → α} (h : ∀ a, size (f a) = size a)
    (k : Nat) (as : List α) : total size (as.modify k f) = total size as := by
  induction as generalizing k with
  | nil => simp
  | cons a rest ih =>
    cases k with
    | zero => simp [total, h a]
    | succ k => simp [total, ih k]

/-- A change of one element that does not raise its number does not raise the total. -/
theorem total_modify_le {α : Type} (size : α → Nat) {f : α → α} (h : ∀ a, size (f a) ≤ size a)
    (k : Nat) (as : List α) : total size (as.modify k f) ≤ total size as := by
  induction as generalizing k with
  | nil => simp
  | cons a rest ih =>
    cases k with
    | zero => simpa [total] using h a
    | succ k => simpa [total] using ih k

/-- A change of one element that lowers its number lowers the total. -/
theorem total_modify_lt {α : Type} (size : α → Nat) {f : α → α} {k : Nat} {as : List α} {a : α}
    (hk : as[k]? = some a) (h : size (f a) < size a) :
    total size (as.modify k f) < total size as := by
  induction as generalizing k with
  | nil => simp at hk
  | cons first rest ih =>
    cases k with
    | zero =>
      simp only [List.getElem?_cons_zero, Option.some.injEq] at hk
      subst hk
      simpa [total] using h
    | succ k => simpa [total] using ih (show rest[k]? = some a by simpa using hk)

end IndexedGrammar
