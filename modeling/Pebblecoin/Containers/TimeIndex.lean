import Mathlib.Data.List.Basic
import Mathlib.Data.List.Induction
import Mathlib.Data.List.TakeWhile
import Mathlib.Order.Lattice

/-!
A table with a unique key that is also kept in order of time.  New entries come after the
entries of the same time, and the table is cut down from its oldest entry on.
-/

namespace Pebblecoin.Containers

variable {ε κ τ : Type} [LinearOrder τ]

/-- The entries from the oldest to the newest. -/
structure TimeIndex (key : ε → κ) (time : ε → τ) where
  entries : List ε
  sorted : entries.Pairwise fun a b => time a ≤ time b
  unique : (entries.map key).Nodup

namespace TimeIndex

section Lists

variable {key : ε → κ} {time : ε → τ} {e x : ε} {l l' before after : List ε} {limit : Nat}

/-- Put an entry behind those that are not newer. -/
def place (time : ε → τ) (e : ε) : List ε → List ε
  | [] => [e]
  | a :: l => if time a ≤ time e then a :: place time e l else e :: a :: l

theorem place_perm (time : ε → τ) (e : ε) (l : List ε) : (place time e l).Perm (e :: l) := by
  induction l with
  | nil => exact .refl _
  | cons a l ih =>
    rw [place]
    split_ifs
    · exact (ih.cons a).trans (.swap e a l)
    · exact .refl _

theorem place_sorted (h : l.Pairwise fun a b => time a ≤ time b) :
    (place time e l).Pairwise fun a b => time a ≤ time b := by
  induction l with
  | nil => exact List.pairwise_singleton _ _
  | cons a l ih =>
    obtain ⟨hfirst, hrest⟩ := List.pairwise_cons.mp h
    rw [place]
    split_ifs with hle
    · refine List.pairwise_cons.mpr ⟨fun b hb => ?_, ih hrest⟩
      rcases List.mem_cons.mp ((place_perm time e l).mem_iff.mp hb) with rfl | hb
      · exact hle
      · exact hfirst b hb
    · have hlt := le_of_not_ge hle
      refine List.pairwise_cons.mpr ⟨fun b hb => ?_, h⟩
      rcases List.mem_cons.mp hb with rfl | hb
      · exact hlt
      · exact hlt.trans (hfirst b hb)

/-- The loop that erases the first entry as long as there are too many. -/
def cut (limit : Nat) : List ε → List ε
  | [] => []
  | a :: l => if limit < (a :: l).length then cut limit l else a :: l

theorem cut_eq_drop (limit : Nat) (l : List ε) : cut limit l = l.drop (l.length - limit) := by
  induction l with
  | nil => simp [cut]
  | cons a l ih =>
    rw [cut]
    split_ifs with hlt
    · rw [ih]
      have : (a :: l).length - limit = l.length - limit + 1 := by
        rw [List.length_cons] at hlt ⊢
        omega
      rw [this, List.drop_succ_cons]
    · rw [Nat.sub_eq_zero_of_le (Nat.le_of_not_lt hlt), List.drop_zero]

/-- The entry may stay between its neighbours. -/
def fitsBetween (time : ε → τ) (e : ε) (before after : List ε) : Bool :=
  before.getLast?.all (fun a => decide (time a ≤ time e)) &&
    after.head?.all fun a => decide (time e ≤ time a)

/-- Put an entry in the place between two parts, or in the one that its time asks for. -/
def replaceBetween (time : ε → τ) (e : ε) (before after : List ε) : List ε :=
  if fitsBetween time e before after then before ++ e :: after else place time e (before ++ after)

theorem replaceBetween_perm (time : ε → τ) (e : ε) (before after : List ε) :
    (replaceBetween time e before after).Perm (e :: (before ++ after)) := by
  rw [replaceBetween]
  split_ifs
  · exact List.perm_middle
  · exact place_perm time e _

theorem le_of_getLast?_all (h : before.Pairwise fun a b => time a ≤ time b)
    (hlast : before.getLast?.all (fun a => decide (time a ≤ time e)) = true) (hx : x ∈ before) :
    time x ≤ time e := by
  induction before using List.reverseRecOn with
  | nil => cases hx
  | append_singleton before a _ =>
    have ha : time a ≤ time e := by simpa using hlast
    rcases List.mem_append.mp hx with hx | hx
    · exact ((List.pairwise_append.mp h).2.2 x hx a (List.mem_singleton_self a)).trans ha
    · exact List.mem_singleton.mp hx ▸ ha

theorem le_of_head?_all (h : after.Pairwise fun a b => time a ≤ time b)
    (hfirst : after.head?.all (fun a => decide (time e ≤ time a)) = true) (hx : x ∈ after) :
    time e ≤ time x := by
  cases after with
  | nil => cases hx
  | cons a after =>
    have ha : time e ≤ time a := by simpa using hfirst
    rcases List.mem_cons.mp hx with rfl | hx
    · exact ha
    · exact ha.trans ((List.pairwise_cons.mp h).1 x hx)

theorem replaceBetween_sorted (h : (before ++ after).Pairwise fun a b => time a ≤ time b) :
    (replaceBetween time e before after).Pairwise fun a b => time a ≤ time b := by
  rw [replaceBetween]
  split_ifs with hfits
  · obtain ⟨hbefore, hafter, hacross⟩ := List.pairwise_append.mp h
    obtain ⟨hlast, hfirst⟩ := Bool.and_eq_true_iff.mp hfits
    refine List.pairwise_append.mpr ⟨hbefore, List.pairwise_cons.mpr ⟨?_, hafter⟩, ?_⟩
    · exact fun x hx => le_of_head?_all hafter hfirst hx
    · intro x hx y hy
      rcases List.mem_cons.mp hy with rfl | hy
      · exact le_of_getLast?_all hbefore hlast hx
      · exact hacross x hx y hy
  · exact place_sorted h

end Lists

section Trim

variable {key : ε → κ} {time : ε → τ}

theorem sorted_nil : ([] : List ε).Pairwise fun a b => time a ≤ time b := List.Pairwise.nil

theorem unique_nil : (([] : List ε).map key).Nodup := List.nodup_nil

def empty : TimeIndex key time := ⟨[], sorted_nil, unique_nil⟩

/-- The keys in the table. -/
def keys (t : TimeIndex key time) : List κ := t.entries.map key

def size (t : TimeIndex key time) : Nat := t.entries.length

theorem sorted_of_sublist {l : List ε} (t : TimeIndex key time) (h : l.Sublist t.entries) :
    l.Pairwise fun a b => time a ≤ time b :=
  t.sorted.sublist h

theorem unique_of_sublist {l : List ε} (t : TimeIndex key time) (h : l.Sublist t.entries) :
    (l.map key).Nodup :=
  t.unique.sublist (h.map key)

theorem cut_sublist (limit : Nat) (l : List ε) : (cut limit l).Sublist l := by
  rw [cut_eq_drop]
  exact List.drop_sublist _ _

/-- Remove the oldest entries as long as there are more than `limit`. -/
def trim (limit : Nat) (t : TimeIndex key time) : TimeIndex key time :=
  ⟨cut limit t.entries, t.sorted_of_sublist (cut_sublist limit _),
    t.unique_of_sublist (cut_sublist limit _)⟩

variable {limit : Nat} {t : TimeIndex key time} {a b : ε}

theorem entries_trim : (t.trim limit).entries = t.entries.drop (t.size - limit) :=
  cut_eq_drop limit t.entries

theorem mem_of_mem_trim (h : a ∈ (t.trim limit).entries) : a ∈ t.entries :=
  (cut_sublist limit t.entries).mem h

theorem size_trim : (t.trim limit).size = min limit t.size := by
  rw [size, entries_trim, List.length_drop, ← size]
  omega

theorem trim_of_size_le (h : t.size ≤ limit) : t.trim limit = t := by
  have hentries : (t.trim limit).entries = t.entries := by
    rw [entries_trim, Nat.sub_eq_zero_of_le h, List.drop_zero]
  obtain ⟨entries, sorted, unique⟩ := t
  exact (mk.injEq ..).mpr hentries

/-- What is cut off is not newer than what is left. -/
theorem time_le_of_trim (ha : a ∈ t.entries) (hcut : a ∉ (t.trim limit).entries)
    (hb : b ∈ (t.trim limit).entries) : time a ≤ time b := by
  rw [entries_trim] at hcut hb
  have hsorted := t.sorted
  rw [← List.take_append_drop (t.size - limit) t.entries] at ha hsorted
  rcases List.mem_append.mp ha with ha | ha
  · exact (List.pairwise_append.mp hsorted).2.2 a ha b hb
  · exact absurd ha hcut

theorem limit_lt_of_trim (ha : a ∈ t.entries) (hcut : a ∉ (t.trim limit).entries) :
    limit < t.size := by
  refine Nat.lt_of_not_le fun hle => hcut ?_
  rwa [trim_of_size_le hle]

end Trim

variable {key : ε → κ} {time : ε → τ} [DecidableEq κ]

def contains (t : TimeIndex key time) (k : κ) : Bool := t.keys.contains k

@[simp] theorem contains_iff {t : TimeIndex key time} {k : κ} : t.contains k = true ↔ k ∈ t.keys :=
  List.contains_iff_mem

variable (e : ε) (k : κ) (t : TimeIndex key time)

theorem unique_place (h : t.contains (key e) = false) :
    ((place time e t.entries).map key).Nodup := by
  refine ((place_perm time e t.entries).map key).nodup_iff.mpr (List.nodup_cons.mpr ⟨?_, t.unique⟩)
  intro hmem
  rw [contains_iff.mpr hmem] at h
  cases h

/-- Add an entry unless its key is taken. -/
def insert : TimeIndex key time :=
  if h : t.contains (key e) = false then
    ⟨place time e t.entries, place_sorted t.sorted, unique_place e t h⟩
  else t

/-- The entries before and after the one with a key. -/
def beforeKey : List ε := t.entries.takeWhile fun a => decide (key a ≠ k)

def afterKey : List ε := (t.entries.dropWhile fun a => decide (key a ≠ k)).tail

variable {k t} in
theorem entries_eq (h : k ∈ t.keys) :
    ∃ old, key old = k ∧ t.entries = t.beforeKey k ++ old :: t.afterKey k := by
  have hparts : t.beforeKey k ++ t.entries.dropWhile (fun a => decide (key a ≠ k)) = t.entries :=
    List.takeWhile_append_dropWhile
  obtain ⟨a, ha, hak⟩ := List.mem_map.mp h
  rcases hdrop : t.entries.dropWhile (fun a => decide (key a ≠ k)) with _ | ⟨old, after⟩
  · have := List.dropWhile_eq_nil_iff.mp hdrop a ha
    simp [hak] at this
  · have hold := List.head?_dropWhile_not (fun a => decide (key a ≠ k)) t.entries
    rw [hdrop] at hold
    refine ⟨old, by simpa using hold, ?_⟩
    rw [afterKey, hdrop, List.tail_cons, ← hdrop, hparts]

variable {k t} in
theorem entries_perm (h : k ∈ t.keys) :
    ∃ old, key old = k ∧ t.entries.Perm (old :: (t.beforeKey k ++ t.afterKey k)) := by
  obtain ⟨old, hold, heq⟩ := entries_eq h
  exact ⟨old, hold, heq ▸ List.perm_middle⟩

variable {k t} in
theorem sorted_parts (h : k ∈ t.keys) :
    (t.beforeKey k ++ t.afterKey k).Pairwise fun a b => time a ≤ time b := by
  obtain ⟨old, -, heq⟩ := entries_eq h
  have hsorted := t.sorted
  rw [heq] at hsorted
  exact hsorted.sublist ((List.sublist_cons_self old _).append_left _)

theorem unique_replace (h : t.contains (key e) = true) :
    ((replaceBetween time e (t.beforeKey (key e)) (t.afterKey (key e))).map key).Nodup := by
  obtain ⟨old, hold, hperm⟩ := entries_perm (contains_iff.mp h)
  refine ((replaceBetween_perm time e _ _).map key).nodup_iff.mpr ?_
  have hunique := (hperm.map key).nodup_iff.mp t.unique
  rwa [List.map_cons, hold] at hunique

/-- Put an entry in the place of the one with its key. -/
def replace : TimeIndex key time :=
  if h : t.contains (key e) = true then
    ⟨replaceBetween time e (t.beforeKey (key e)) (t.afterKey (key e)),
      replaceBetween_sorted (sorted_parts (contains_iff.mp h)), unique_replace e t h⟩
  else t

/-- Replace the entry with the same key, or add a new one. -/
def put : TimeIndex key time := if t.contains (key e) then t.replace e else t.insert e

/-- Remove the entry with a key, if there is one. -/
def erase : TimeIndex key time :=
  ⟨t.entries.filter fun a => decide (key a ≠ k), t.sorted_of_sublist List.filter_sublist,
    t.unique_of_sublist List.filter_sublist⟩

section Facts

variable {e k t} {a : ε}

theorem mem_insert (h : t.contains (key e) = false) :
    a ∈ (t.insert e).entries ↔ a = e ∨ a ∈ t.entries := by
  rw [insert, dif_pos h]
  exact (place_perm time e t.entries).mem_iff.trans List.mem_cons

theorem size_insert (h : t.contains (key e) = false) : (t.insert e).size = t.size + 1 := by
  rw [size, insert, dif_pos h]
  exact (place_perm time e t.entries).length_eq

theorem mem_replace (h : t.contains (key e) = true) :
    a ∈ (t.replace e).entries ↔ a = e ∨ a ∈ t.entries ∧ key a ≠ key e := by
  obtain ⟨old, hold, hperm⟩ := entries_perm (contains_iff.mp h)
  have hunique := (hperm.map key).nodup_iff.mp t.unique
  rw [List.map_cons, hold] at hunique
  have hother := (List.nodup_cons.mp hunique).1
  rw [replace, dif_pos h]
  refine (replaceBetween_perm time e _ _).mem_iff.trans (List.mem_cons.trans (or_congr_right ?_))
  rw [hperm.mem_iff, List.mem_cons]
  constructor
  · intro ha
    exact ⟨.inr ha, fun hkey => hother (List.mem_map.mpr ⟨a, ha, hkey⟩)⟩
  · rintro ⟨rfl | ha, hne⟩
    · exact absurd hold hne
    · exact ha

theorem size_replace (e : ε) : (t.replace e).size = t.size := by
  rw [replace]
  split_ifs with h
  · obtain ⟨old, -, hperm⟩ := entries_perm (contains_iff.mp h)
    rw [size, size, hperm.length_eq]
    exact (replaceBetween_perm time e _ _).length_eq
  · rfl

theorem mem_put : a ∈ (t.put e).entries ↔ a = e ∨ a ∈ t.entries ∧ key a ≠ key e := by
  rw [put]
  split_ifs with h
  · exact mem_replace h
  · rw [mem_insert (Bool.not_eq_true _ ▸ h)]
    refine or_congr_right (iff_self_and.mpr fun ha hkey => h ?_)
    rw [← hkey]
    exact contains_iff.mpr (List.mem_map_of_mem ha)

theorem keys_subset_put (e : ε) (t : TimeIndex key time) : t.keys ⊆ (t.put e).keys := by
  intro k hk
  obtain ⟨a, ha, rfl⟩ := List.mem_map.mp hk
  rcases eq_or_ne (key a) (key e) with hkey | hkey
  · rw [hkey]
    exact List.mem_map_of_mem (mem_put.mpr (.inl rfl))
  · exact List.mem_map_of_mem (mem_put.mpr (.inr ⟨ha, hkey⟩))

theorem size_put (e : ε) :
    (t.put e).size = if t.contains (key e) then t.size else t.size + 1 := by
  rw [put]
  split_ifs with h
  · exact size_replace e
  · exact size_insert (Bool.not_eq_true _ ▸ h)

theorem mem_erase : a ∈ (t.erase k).entries ↔ a ∈ t.entries ∧ key a ≠ k := by
  simp [erase]

theorem size_erase_le : (t.erase k).size ≤ t.size := List.length_filter_le _ _

end Facts

end TimeIndex

end Pebblecoin.Containers
