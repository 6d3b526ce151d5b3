import Mathlib.Data.List.Basic
import Mathlib.Data.Nat.Log
import Mathlib.Tactic.Ring

/-!
Trees that are built by joining neighbours row by row.  The root determines the
leaves as long as joining does not collide on the pairs that were joined.
-/

namespace Pebblecoin.Containers

variable {α : Type} (node : α → α → α)

/-- Replace neighbours by their node. -/
def joinPairs : List α → List α
  | a :: b :: rest => node a b :: joinPairs rest
  | l => l

/-- The pairs that are joined. -/
def joined : List α → List (α × α)
  | a :: b :: rest => (a, b) :: joined rest
  | _ => []

/-- Join `rows` times. -/
def joinRows : (rows : Nat) → List α → List α
  | 0, l => l
  | rows + 1, l => joinRows rows (joinPairs node l)

def joinedInRows : (rows : Nat) → List α → List (α × α)
  | 0, _ => []
  | rows + 1, l => joined l ++ joinedInRows rows (joinPairs node l)

/-- No pair of the one list has the same node as another pair of the other. -/
def Apart (ps qs : List (α × α)) : Prop :=
  ∀ p ∈ ps, ∀ q ∈ qs, node p.1 p.2 = node q.1 q.2 → p = q

variable {node}

theorem length_joinPairs (l : List α) : (joinPairs node l).length = (l.length + 1) / 2 := by
  induction l using joinPairs.induct with
  | case1 a b rest ih =>
    simp only [joinPairs, List.length_cons, ih]
    omega
  | case2 l h =>
    match l with
    | [] => simp [joinPairs]
    | [_] => simp [joinPairs]
    | a :: b :: rest => exact absurd rfl (h a b rest)

theorem joinPairs_inj {l l' : List α} (hlength : l.length = l'.length)
    (hapart : Apart node (joined l) (joined l')) (h : joinPairs node l = joinPairs node l') :
    l = l' := by
  induction l using joinPairs.induct generalizing l' with
  | case1 a b rest ih =>
    match l' with
    | [] => simp at hlength
    | [_] => simp at hlength
    | a' :: b' :: rest' =>
      obtain ⟨hnode, hrest⟩ := List.cons.inj h
      have hpair : (a, b) = (a', b') :=
        hapart (a, b) (by simp [joined]) (a', b') (by simp [joined]) hnode
      obtain ⟨rfl, rfl⟩ := Prod.mk.inj hpair
      rw [ih (by simpa using hlength) (fun p hp q hq => hapart p (by simp [joined, hp]) q
        (by simp [joined, hq])) hrest]
  | case2 l hshort =>
    match l, l' with
    | [], [] => rfl
    | [_], [_] => simpa [joinPairs] using h
    | [], _ :: _ => simp at hlength
    | [_], [] => simp at hlength
    | [_], _ :: _ :: _ => simp at hlength
    | a :: b :: rest, _ => exact absurd rfl (hshort a b rest)

theorem joinRows_inj {rows : Nat} {l l' : List α} (hlength : l.length = l'.length)
    (hapart : Apart node (joinedInRows node rows l) (joinedInRows node rows l'))
    (h : joinRows node rows l = joinRows node rows l') : l = l' := by
  induction rows generalizing l l' with
  | zero => exact h
  | succ rows ih =>
    have hrow : joinPairs node l = joinPairs node l' := by
      refine ih ?_ (fun p hp q hq => hapart p ?_ q ?_) h
      · rw [length_joinPairs, length_joinPairs, hlength]
      · exact List.mem_append_right _ hp
      · exact List.mem_append_right _ hq
    exact joinPairs_inj hlength (fun p hp q hq => hapart p (List.mem_append_left _ hp) q
      (List.mem_append_left _ hq)) hrow

end Pebblecoin.Containers
