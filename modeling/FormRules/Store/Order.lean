/-!
# Lists in order

A list is put in order by inserting its items one by one. Items of the same rank keep the order in
which they stood.
-/

namespace FormRules.Order
variable {α : Type}

/-- Inserts an item in front of the first one that it is no later than. -/
def insert (le : α → α → Bool) (a : α) : List α → List α
  | [] => [a]
  | b :: bs => if le a b then a :: b :: bs else b :: insert le a bs

def sort (le : α → α → Bool) (items : List α) : List α := items.foldr (insert le) []

end FormRules.Order
