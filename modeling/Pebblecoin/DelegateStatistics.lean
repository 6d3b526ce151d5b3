import Pebblecoin.LedgerReplay
import Pebblecoin.TopDelegates

/-!
The statistics of the delegates do not affect who the top delegates are, and
what is counted for a delegate in the table is taken back by uncounting it.
-/

namespace Pebblecoin

open Containers

namespace Delegates

variable {J : Prop} {ds ds' : Delegates}

theorem mapValues_withoutCounters (h : ds.Extends False ds') :
    OrdMap.mapValues DelegateInfo.withoutCounters ds' =
      OrdMap.mapValues DelegateInfo.withoutCounters ds := by
  ext1 k
  simp only [OrdMap.find?_mapValues]
  cases ha : ds.find? k with
  | some a =>
    obtain ⟨b, hb, hba⟩ := h.same k a ha
    simp [hb, hba]
  | none =>
    cases hb : ds'.find? k with
    | none => rfl
    | some b => exact absurd (h.created k b ha hb).1 id

theorem byVotes_mapValues (ds : Delegates) :
    byVotes (OrdMap.mapValues DelegateInfo.withoutCounters ds) = byVotes ds := by
  have hmap := List.map_insertionSort (fun a b : DelegateId × DelegateInfo => b.2.votesLt a.2 = false)
    (fun a b : DelegateId × DelegateInfo => b.2.votesLt a.2 = false)
    (fun p : DelegateId × DelegateInfo => (p.1, p.2.withoutCounters)) ds.toList
    (fun _ _ _ _ => Iff.rfl)
  simp only [byVotes, OrdMap.mapValues]
  rw [← hmap, ← List.map_reverse, List.map_map]
  rfl

theorem top_eq_of_extends (n : Nat) (h : ds.Extends False ds') : ds'.top n = ds.top n := by
  rw [top, top, ← byVotes_mapValues ds', mapValues_withoutCounters h, byVotes_mapValues]

theorem contains_of_mem_top {n : Nat} {k : DelegateId} (h : k ∈ (ds.top n).elems) :
    ds.contains k = true := by
  obtain ⟨⟨k', u⟩, hmem, rfl⟩ := List.mem_map.mp h
  obtain ⟨k, hk, heq⟩ := List.mem_map.mp (OrdMap.mem_of_mem_ofList hmem)
  obtain ⟨⟨_, info⟩, hsorted, rfl⟩ := List.mem_map.mp (List.mem_of_mem_take hk)
  rw [List.mem_reverse, List.mem_insertionSort] at hsorted
  obtain ⟨rfl, -⟩ := Prod.mk.inj heq
  exact contains_iff.mpr ⟨info, OrdMap.mem_toList.mp hsorted⟩

theorem modify_extends {id : DelegateId} {f : DelegateInfo → DelegateInfo}
    (hf : ∀ info, (f info).withoutCounters = info.withoutCounters)
    (hid : ds.contains id = false → J) : ds.Extends J (ds.modify id f) where
  same k a ha := by
    rw [modify, OrdMap.find?_insert]
    split_ifs with hk
    · subst hk
      exact ⟨_, rfl, by rw [hf, get, ha]; rfl⟩
    · exact ⟨a, ha, rfl⟩
  created k b hnone hb := by
    rw [modify, OrdMap.find?_insert] at hb
    split_ifs at hb with hk
    · subst hk
      refine ⟨hid (by simp [OrdMap.contains, hnone]), ?_⟩
      rw [← Option.some.inj hb, hf, get, hnone]
      rfl
    · rw [hnone] at hb
      cases hb

theorem foldl_modify_extends {f : DelegateInfo → DelegateInfo} {ids : List DelegateId}
    (hf : ∀ info, (f info).withoutCounters = info.withoutCounters)
    (hids : ∀ id ∈ ids, ds.contains id = false → J) :
    ds.Extends J (ids.foldl (fun ds id => ds.modify id f) ds) := by
  induction ids generalizing ds with
  | nil => exact .refl ds
  | cons id ids ih =>
    have hone : ds.Extends J (ds.modify id f) := modify_extends hf (hids id (by simp))
    refine hone.trans (ih fun k hk hnot => hids k (by simp [hk]) ?_)
    rw [← Bool.not_eq_true] at hnot ⊢
    exact fun hc => hnot (hone.contains hc)

theorem countMissed_extends {missed : List DelegateId}
    (h : ∀ id ∈ missed, ds.contains id = false → J) : ds.Extends J (ds.countMissed missed) :=
  foldl_modify_extends (fun _ => rfl) h

theorem uncountMissed_extends {missed : List DelegateId}
    (h : ∀ id ∈ missed, ds.contains id = false → J) : ds.Extends J (ds.uncountMissed missed) :=
  foldl_modify_extends (fun _ => rfl) h

theorem countProcessed_extends {signer : DelegateId} {fees : UInt64}
    (h : ds.contains signer = false → J) : ds.Extends J (ds.countProcessed signer fees) :=
  modify_extends (fun _ => rfl) h

theorem uncountProcessed_extends {signer : DelegateId} {fees : UInt64}
    (h : ds.contains signer = false → J) : ds.Extends J (ds.uncountProcessed signer fees) :=
  modify_extends (fun _ => rfl) h

theorem contains_modify_self (ds : Delegates) (id : DelegateId) (f : DelegateInfo → DelegateInfo) :
    (ds.modify id f).contains id = true := by
  simp [modify, OrdMap.contains]

theorem Shrinks.ranked (h : ds.Shrinks ds')
    (hranked : ds.toList.length < 2 ∨ ds.toList.any (fun item => item.2.rankThrows) = false) :
    ds'.toList.length < 2 ∨ ds'.toList.any (fun item => item.2.rankThrows) = false := by
  refine hranked.imp (fun hlt => lt_of_le_of_lt ?_ hlt) fun hranks => ?_
  · refine OrdMap.length_le_of_contains fun k hk => ?_
    obtain ⟨b, hb⟩ := contains_iff.mp hk
    obtain ⟨a, ha, -⟩ := h k b hb
    exact contains_iff.mpr ⟨a, ha⟩
  · rw [List.any_eq_false] at hranks ⊢
    rintro ⟨k, b⟩ hmem
    obtain ⟨a, ha, hab⟩ := h k b (OrdMap.mem_toList.mp hmem)
    have := hranks (k, a) (OrdMap.mem_toList.mpr ha)
    have hsame : b.rankThrows = a.rankThrows := (congrArg DelegateInfo.rankThrows hab :)
    rwa [hsame]

end Delegates

end Pebblecoin
