import Mathlib.Data.List.Nodup
import Mathlib.Logic.Relation
import Mathlib.Tactic.Common

/-!
# Walking a tree that is given by its children

A depth-first walk over nodes that are only known by a function that lists their
children, with the depth of every node it meets. Nothing says that there is an
end: the recursion takes fuel, and without enough of it there is no answer.

The walk ends when a rank falls from a node to its children. It meets exactly the
nodes below its start, and meets them once, when no node is the child of two.
-/

namespace MiniOs.Lib

variable {α : Type}

/-- The nodes from `x` down, `x` first, with their depths. -/
def walk (children : α → List α) : Nat → Nat → α → Option (List (Nat × α))
  | 0, _, _ => none
  | fuel + 1, depth, x =>
    ((children x).mapM (walk children fuel (depth + 1))).map fun rows =>
      (depth, x) :: rows.flatten

/-- Node `y` is below node `x`, or is `x` itself. -/
def Below (children : α → List α) : α → α → Prop :=
  Relation.ReflTransGen fun x y => y ∈ children x

/-- The nodes of a walk, in the order in which it meets them. -/
def visited (children : α → List α) (fuel depth : Nat) (x : α) : List α :=
  ((walk children fuel depth x).getD []).map Prod.snd

theorem mapM_of_isSome {β : Type} {f : α → Option (List β)} {l : List α}
    (h : ∀ x ∈ l, (f x).isSome = true) : l.mapM f = some (l.map fun x => (f x).getD []) := by
  induction l with
  | nil => rfl
  | cons x rest ih =>
    obtain ⟨y, hy⟩ := Option.isSome_iff_exists.mp (h x List.mem_cons_self)
    rw [List.mapM_cons, hy, ih fun z hz => h z (List.mem_cons_of_mem x hz)]
    simp [hy]

/-- A walk that writes something down for what another walk meets. -/
theorem mapM_map_of_mem {β γ : Type} {f : α → Option β} {f' : α → Option γ} {g : β → γ}
    {l : List α} (h : ∀ x ∈ l, f' x = (f x).map g) : l.mapM f' = (l.mapM f).map (List.map g) := by
  induction l with
  | nil => rfl
  | cons x rest ih =>
    rw [List.mapM_cons, List.mapM_cons, h x List.mem_cons_self,
      ih fun y hy => h y (List.mem_cons_of_mem x hy)]
    cases f x <;> cases rest.mapM f <;> rfl

section Walk

variable {children : α → List α} {rank : α → Nat}
  (hrank : ∀ x, ∀ y ∈ children x, rank y < rank x)

include hrank

variable {fuel : Nat} {x y : α}

/-- With a rank that falls, the fuel has to be more than the rank of the start. -/
theorem walk_isSome (depth : Nat) (h : rank x < fuel) :
    (walk children fuel depth x).isSome = true := by
  induction fuel generalizing depth x with
  | zero => omega
  | succ fuel ih =>
    have hchildren : ∀ y ∈ children x, (walk children fuel (depth + 1) y).isSome = true := by
      intro y hy
      have hlt := hrank x y hy
      exact ih (depth + 1) (by omega)
    rw [walk, mapM_of_isSome hchildren]
    rfl

theorem visited_succ (depth : Nat) (h : rank x < fuel + 1) :
    visited children (fuel + 1) depth x =
      x :: (children x).flatMap (visited children fuel (depth + 1)) := by
  have hchildren : ∀ y ∈ children x, (walk children fuel (depth + 1) y).isSome = true := by
    intro y hy
    have hlt := hrank x y hy
    exact walk_isSome hrank (depth + 1) (by omega)
  rw [visited, walk, mapM_of_isSome hchildren]
  simp only [Option.map_some, Option.getD_some, List.map_cons, List.map_flatten, List.map_map,
    List.flatMap]
  rfl

theorem mem_visited (depth : Nat) (h : rank x < fuel) :
    y ∈ visited children fuel depth x ↔ Below children x y := by
  induction fuel generalizing depth x with
  | zero => omega
  | succ fuel ih =>
    rw [visited_succ hrank depth h, List.mem_cons, List.mem_flatMap, Below,
      Relation.ReflTransGen.cases_head_iff]
    refine or_congr eq_comm (exists_congr fun z => and_congr_right fun hz => ?_)
    have hlt := hrank x z hz
    exact ih (depth + 1) (by omega)

theorem Below.rank_le (h : Below children x y) : rank y ≤ rank x := by
  induction h with
  | refl => exact Nat.le_refl _
  | tail _ hlast ih => exact Nat.le_trans (Nat.le_of_lt (hrank _ _ hlast)) ih

/-- Nodes with different parents are not below one another. -/
theorem Below.eq_of_siblings (hparent : ∀ x y z, z ∈ children x → z ∈ children y → x = y) {z : α}
    (hy : y ∈ children x) (hz : z ∈ children x) (h : Below children y z) : y = z := by
  rcases Relation.ReflTransGen.cases_tail h with heq | ⟨w, hyw, hzw⟩
  · exact heq.symm
  · -- the last step to `z` came from `x`, which is above `y`
    obtain rfl := hparent w x z hzw hz
    have hle := Below.rank_le hrank hyw
    have hlt := hrank w y hy
    omega

/-- No node is met twice where nobody is listed twice and nobody has two parents. -/
theorem visited_nodup (hnodup : ∀ x, (children x).Nodup)
    (hparent : ∀ x y z, z ∈ children x → z ∈ children y → x = y) (depth : Nat) (h : rank x < fuel) :
    (visited children fuel depth x).Nodup := by
  induction fuel generalizing depth x with
  | zero => omega
  | succ fuel ih =>
    have hfuel : ∀ y ∈ children x, rank y < fuel := by
      intro y hy
      have hlt := hrank x y hy
      omega
    rw [visited_succ hrank depth h, List.nodup_cons]
    constructor
    · intro hx
      obtain ⟨y, hy, hxy⟩ := List.mem_flatMap.mp hx
      rw [mem_visited hrank (depth + 1) (hfuel y hy)] at hxy
      have hle := Below.rank_le hrank hxy
      have hlt := hrank x y hy
      omega
    · rw [List.nodup_flatMap]
      refine ⟨fun y hy => ih (depth + 1) (hfuel y hy), (hnodup x).imp_of_mem ?_⟩
      intro y z hy hz hne w hwy hwz
      rw [mem_visited hrank (depth + 1) (hfuel y hy)] at hwy
      rw [mem_visited hrank (depth + 1) (hfuel z hz)] at hwz
      -- the nodes above `w` are in a line
      have hunique : Relator.RightUnique (Function.swap fun x y => y ∈ children x) :=
        fun w x y hx hy => hparent x y w hx hy
      rcases Relation.ReflTransGen.total_of_right_unique hunique hwy.swap hwz.swap with
        hyz | hzy
      · exact hne (Below.eq_of_siblings hrank hparent hz hy hyz.swap).symm
      · exact hne (Below.eq_of_siblings hrank hparent hy hz hzy.swap)

end Walk

end MiniOs.Lib
