import Lite3.Tree.Passed

/-! # Full nodes down the last children

An insertion behind all keys follows the last children. Where these are all
full, it passes half of each and promotes a median of each. Such a tree need not
be large: beside its last children it may be as sparse as nodes can be.
-/

namespace Lite3.Tree.BTree

variable {ν α : Type} {h lo : ℕ} {cmp : α → Ordering} {right : α → Bool}

/-- The root and the last children below it are full. -/
def Crammed (lo : ℕ) : {h : ℕ} → BTree ν α h → Prop
  | 0, t => t.keys.length = 2 * lo + 1
  | _ + 1, t => t.keys.length = 2 * lo + 1 ∧ ∀ c ∈ t.kids.getLast?, Crammed lo c

/-- The shape of a tree with as few keys as nodes below a root can have. -/
def sparse (lo : ℕ) : (h : ℕ) → BTree Unit Unit h
  | 0 => leaf () (List.replicate lo ())
  | h + 1 => inner () (List.replicate lo ()) (List.replicate (lo + 1) (sparse lo h))

/-- The shape of a tree with full last children and sparse ones beside them. -/
def crammed (lo : ℕ) : (h : ℕ) → BTree Unit Unit h
  | 0 => leaf () (List.replicate (2 * lo + 1) ())
  | h + 1 => inner () (List.replicate (2 * lo + 1) ())
      (List.replicate (2 * lo + 1) (sparse lo h) ++ [crammed lo h])

end Lite3.Tree.BTree
