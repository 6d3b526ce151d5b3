import Mathlib.Data.List.Rotate

/-!
Going round a list: place `i` after a starting place, and what a full round visits.
-/

namespace Pebblecoin.Containers

variable {α : Type}

/-- The element `i` places after place `start`, going round. -/
def cyclicGet (l : List α) (default : α) (start i : Nat) : α :=
  l.getD ((start + i) % l.length) default

theorem cyclicGet_add (l : List α) (default : α) (start i j : Nat) :
    cyclicGet l default start (i + j) = cyclicGet l default (start + i) j := by
  rw [cyclicGet, cyclicGet, Nat.add_assoc]

/-- One round is a rotation of the list. -/
theorem map_cyclicGet_range (l : List α) (default : α) (start : Nat) :
    (List.range l.length).map (cyclicGet l default start) = l.rotate start := by
  refine List.ext_getElem? fun i => ?_
  rw [List.getElem?_map]
  rcases Nat.lt_or_ge i l.length with hi | hi
  · have hmod : (start + i) % l.length < l.length := Nat.mod_lt _ (by omega)
    rw [List.getElem?_range hi, List.getElem?_rotate hi, Nat.add_comm i start, Option.map_some,
      cyclicGet, List.getD_eq_getElem?_getD, List.getElem?_eq_getElem hmod, Option.getD_some]
  · rw [List.getElem?_eq_none (by simpa using hi), List.getElem?_eq_none (by simpa using hi)]
    rfl

/-- As many places as there are elements, one after the other, visit each of them once. -/
theorem map_cyclicGet_perm (l : List α) (default : α) (start first : Nat) :
    ((List.range l.length).map fun i => cyclicGet l default start (first + i)).Perm l := by
  have hround : (fun i => cyclicGet l default start (first + i)) =
      cyclicGet l default (start + first) := by
    funext i
    exact cyclicGet_add l default start first i
  rw [hround, map_cyclicGet_range]
  exact l.rotate_perm _

end Pebblecoin.Containers
