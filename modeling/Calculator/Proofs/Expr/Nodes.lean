import Calculator.Expr.Basic

/-!
# The nodes of a tree

A call has any number of arguments, so trees are treated through the list of a node's children:
induction gives a hypothesis for each child, and a property holds of all nodes of a tree
(`Expr.Every`) if it holds of the root and of all nodes of each child.
-/

namespace Calculator.Expr

/-- The trees directly below the root, from the left to the right. -/
@[simp]
def children : Expr → List Expr
  | .negate _ operand => [operand]
  | .binary _ _ left right => [left, right]
  | .call _ _ arguments => arguments
  | _ => []

@[elab_as_elim]
theorem inductionOnChildren
    {motive : Expr → Prop} (node : ∀ e, (∀ child ∈ e.children, motive child) → motive e)
    (e : Expr) : motive e := by
  refine @Expr.rec motive (fun es => ∀ e ∈ es, motive e) ?_ ?_ ?_ ?_ ?_ ?_ ?_ ?_ ?_ e
  · exact fun position value => node _ (by simp)
  · exact fun position name value => node _ (by simp)
  · exact fun position name => node _ (by simp)
  · exact fun position => node _ (by simp)
  · exact fun position operand ih => node _ (by simpa using ih)
  · exact fun position op left right ihl ihr => node _ (by simpa using ⟨ihl, ihr⟩)
  · exact fun position name arguments ih => node _ (by simpa using ih)
  · simp
  · exact fun first rest ihFirst ihRest => List.forall_mem_cons.mpr ⟨ihFirst, ihRest⟩

/-- A node of a tree, with all that is below it. -/
inductive Within (node : Expr) : Expr → Prop where
  | refl : Within node node
  | child {next e : Expr} (hnext : next ∈ e.children) (h : Within node next) : Within node e

theorem Within.trans
    {a b c : Expr} (hab : a.Within b) (hbc : b.Within c) : a.Within c := by
  induction hbc with
  | refl => exact hab
  | child hnext _ ih => exact .child hnext ih

/-- All nodes of the tree have a property. -/
def Every (P : Expr → Prop) (e : Expr) : Prop :=
  ∀ node : Expr, node.Within e → P node

variable {P : Expr → Prop} {e : Expr}

theorem every_iff : e.Every P ↔ P e ∧ ∀ child ∈ e.children, child.Every P := by
  constructor
  · intro h
    exact ⟨h e .refl, fun child hchild node hnode => h node (.child hchild hnode)⟩
  · rintro ⟨hroot, hbelow⟩ node hnode
    cases hnode with
    | refl => exact hroot
    | child hnext hnode => exact hbelow _ hnext node hnode

theorem Every.of_within {node : Expr} (h : e.Every P) (hnode : node.Within e) : node.Every P :=
  fun _ hbelow => h _ (hbelow.trans hnode)

end Calculator.Expr
