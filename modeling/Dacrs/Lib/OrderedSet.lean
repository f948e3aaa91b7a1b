import Mathlib.Data.List.Induction
import Mathlib.Data.List.Sort
import Mathlib.Order.Lattice

/-!
# Ordered sets

The insertion of an ordered set that is kept as a search tree and asks its order through a comparison:
down to the leaf where the new element belongs, then once more whether the element before that place is
its equal.  Rebalancing keeps the order of the elements and is left open.

The container asks for a strict order.  With a comparison that says yes to equals it takes every
element, new ones before their equals (`Built.toList_eq`).
-/

namespace OrderedSet

variable {α : Type}

inductive Tree (α : Type) where
  | nil
  | node (left : Tree α) (a : α) (right : Tree α)

def Tree.toList : Tree α → List α
  | .nil => []
  | .node left a right => left.toList ++ a :: right.toList

/-- `lower` is the element before the place the search has come to.  No tree: the element is there
already. -/
def insertUnique (comp : α → α → Bool) (k : α) : Tree α → Option α → Option (Tree α)
  | .nil, none => some (.node .nil k .nil)
  | .nil, some j => if comp j k then some (.node .nil k .nil) else none
  | .node left a right, lower =>
    if comp k a then (insertUnique comp k left lower).map fun left' => .node left' a right
    else (insertUnique comp k right (some a)).map fun right' => .node left a right'

/-- The tree after the elements have been inserted in this order, rebalanced at will. -/
inductive Built (comp : α → α → Bool) : List α → Tree α → Prop
  | nil : Built comp [] .nil
  | insert {l : List α} {t t₁ t₂ : Tree α} {k : α} (hbuilt : Built comp l t)
      (hinsert : insertUnique comp k t none = some t₁) (hbalance : t₂.toList = t₁.toList) :
      Built comp (l ++ [k]) t₂
  | present {l : List α} {t : Tree α} {k : α} (hbuilt : Built comp l t)
      (hinsert : insertUnique comp k t none = none) : Built comp (l ++ [k]) t

/-- Insertions leave some tree. -/
theorem exists_built (comp : α → α → Bool) (l : List α) : ∃ t, Built comp l t := by
  induction l using List.reverseRecOn with
  | nil => exact ⟨.nil, .nil⟩
  | append_singleton l k ih =>
    obtain ⟨t, hbuilt⟩ := ih
    cases hinsert : insertUnique comp k t none with
    | none => exact ⟨t, .present hbuilt hinsert⟩
    | some t₁ => exact ⟨t₁, .insert hbuilt hinsert rfl⟩

section
variable (r : α → α → Prop) [DecidableRel r]

theorem orderedInsert_append_of_le {k a : α} (h : r k a) (l m : List α) :
    (l ++ a :: m).orderedInsert r k = l.orderedInsert r k ++ a :: m := by
  induction l with
  | nil =>
    rw [List.nil_append, List.orderedInsert_cons, if_pos h]
    rfl
  | cons b l ih =>
    rw [List.cons_append, List.orderedInsert_cons, List.orderedInsert_cons]
    by_cases hb : r k b
    · rw [if_pos hb, if_pos hb]
      rfl
    · rw [if_neg hb, if_neg hb, ih]
      rfl

theorem orderedInsert_append_of_not_le {k : α} (l m : List α) (h : ∀ b ∈ l, ¬ r k b) :
    (l ++ m).orderedInsert r k = l ++ m.orderedInsert r k := by
  induction l with
  | nil => rfl
  | cons b l ih =>
    rw [List.cons_append, List.orderedInsert_cons, if_neg (h b List.mem_cons_self),
      ih fun c hc => h c (List.mem_cons_of_mem b hc)]
    rfl

variable [Std.Total r] [IsTrans α r]

/-- The search goes right only at elements that are not after the new one, so the last question is
answered yes. -/
theorem insertUnique_eq_some (k : α) (t : Tree α) (lower : Option α) (hsorted : t.toList.Pairwise r)
    (hlower : ∀ j ∈ lower, r j k) : ∃ t', insertUnique (fun a b => r a b) k t lower = some t' ∧
      t'.toList = t.toList.orderedInsert r k := by
  induction t generalizing lower with
  | nil =>
    refine ⟨.node .nil k .nil, ?_, rfl⟩
    cases lower with
    | none => rfl
    | some j => exact if_pos (decide_eq_true (hlower j rfl))
  | node left a right ihleft ihright =>
    obtain ⟨hleft, hnode, hcross⟩ := List.pairwise_append.mp hsorted
    obtain ⟨-, hright⟩ := List.pairwise_cons.mp hnode
    unfold insertUnique
    by_cases hka : r k a
    · obtain ⟨left', hinsert, hlist⟩ := ihleft lower hleft hlower
      refine ⟨.node left' a right, ?_, ?_⟩
      · rw [if_pos (decide_eq_true hka), hinsert]
        rfl
      · show left'.toList ++ a :: right.toList = _
        rw [hlist]
        exact (orderedInsert_append_of_le r hka left.toList right.toList).symm
    · have hak : r a k := (total_of r k a).resolve_left hka
      obtain ⟨right', hinsert, hlist⟩ := ihright (some a) hright (by
        intro j hj
        rw [← Option.mem_some_iff.mp hj]
        exact hak)
      refine ⟨.node left a right', ?_, ?_⟩
      · rw [if_neg (by rw [decide_eq_true_iff]; exact hka), hinsert]
        rfl
      · show left.toList ++ a :: right'.toList = (left.toList ++ a :: right.toList).orderedInsert r k
        rw [hlist, orderedInsert_append_of_not_le r left.toList (a :: right.toList),
          List.orderedInsert_cons, if_neg hka]
        intro b hb hkb
        exact hka (trans_of r hkb (hcross b hb a List.mem_cons_self))

/-- However the tree is balanced, it holds the elements that were inserted, each one before its
equals of earlier insertions. -/
theorem Built.toList_eq {l : List α} {t : Tree α} (h : Built (fun a b => r a b) l t) :
    t.toList = l.foldl (fun s k => s.orderedInsert r k) [] ∧ t.toList.Perm l ∧
      t.toList.Pairwise r := by
  induction h with
  | nil => exact ⟨rfl, List.Perm.refl [], List.Pairwise.nil⟩
  | @insert l t t₁ t₂ k hbuilt hinsert hbalance ih =>
    obtain ⟨hlist, hperm, hsorted⟩ := ih
    obtain ⟨t', hinsert', hlist'⟩ := insertUnique_eq_some r k t none hsorted (by simp)
    obtain rfl : t₁ = t' := Option.some.inj (hinsert.symm.trans hinsert')
    rw [hbalance, hlist']
    refine ⟨?_, ?_, hsorted.orderedInsert k⟩
    · rw [List.foldl_append, ← hlist]
      rfl
    · calc (t.toList.orderedInsert r k).Perm (k :: t.toList) := List.perm_orderedInsert r k _
        _ |>.Perm (k :: l) := hperm.cons k
        _ |>.Perm (l ++ [k]) := (List.perm_append_singleton k l).symm
  | @present l t k hbuilt hinsert ih =>
    obtain ⟨-, -, hsorted⟩ := ih
    obtain ⟨t', hinsert', -⟩ := insertUnique_eq_some r k t none hsorted (by simp)
    rw [hinsert] at hinsert'
    cases hinsert'

end

end OrderedSet
