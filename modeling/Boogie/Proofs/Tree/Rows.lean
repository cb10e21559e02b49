/-! Rows of nodes. What is said of a tree is said of its rows by functions of their own, item by item; each of them is
what is said of rows of any items. -/
namespace Boogie

theorem rowsEq {α β : Type} {f g : List α → β} (step : α → β → β) (nil : f [] = g [])
    (cons : ∀ a as, f (a :: as) = step a (f as)) (cons' : ∀ a as, g (a :: as) = step a (g as)) (as : List α) :
    f as = g as := by
  induction as with
  | nil => exact nil
  | cons a rest ih => rw [cons, cons', ih]

end Boogie
