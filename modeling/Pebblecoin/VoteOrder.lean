import Pebblecoin.ConnectBlock
import Pebblecoin.Containers.Ranking
import Mathlib.Data.List.Lex
import Mathlib.Data.Prod.Lex

/-!
The comparison of `recalculate_top_delegates` as a linear order, and what the sort by
votes leaves in the set of top delegates and in the cached ranks.
-/

namespace Pebblecoin

open Containers Wire

theorem bytesLt_iff (a b : Bytes) :
    bytesLt a b = true ↔ a.map UInt8.toNat < b.map UInt8.toNat := by
  induction a generalizing b with
  | nil => cases b <;> simp [bytesLt]
  | cons x a ih =>
    cases b with
    | nil => simp [bytesLt]
    | cons y b =>
      simp [bytesLt, List.cons_lt_cons_iff, ih, UInt8.lt_iff_toNat_lt, UInt8.toNat_inj]

theorem toNats_inj {a b : Bytes} : a.map UInt8.toNat = b.map UInt8.toNat ↔ a = b :=
  (List.map_injective_iff.mpr fun _ _ => UInt8.toNat_inj.mp).eq_iff

namespace DelegateInfo

/-- Votes, the characters of the address text and id, compared in this order. -/
def voteKey (info : DelegateInfo) : UInt64 ×ₗ (List Nat ×ₗ DelegateId) :=
  toLex (info.totalVotes, toLex (info.addressAsString.map UInt8.toNat, info.delegateId))

theorem votesLt_iff (a b : DelegateInfo) : a.votesLt b = true ↔ a.voteKey < b.voteKey := by
  simp only [votesLt, voteKey, Prod.Lex.toLex_lt_toLex, ← bytesLt_iff, toNats_inj]
  split_ifs <;> simp_all

theorem votesLt_eq_false_iff (a b : DelegateInfo) :
    b.votesLt a = false ↔ a.voteKey ≤ b.voteKey := by
  rw [← Bool.not_eq_true, votesLt_iff, not_lt]

end DelegateInfo

namespace Delegates

/-- The entries of the delegate table in some order. -/
abbrev Walk := List (DelegateId × DelegateInfo)

/-- The entries from the greatest to the least. -/
def entriesByVotes (walk : Walk) : Walk :=
  (walk.insertionSort fun a b => b.2.votesLt a.2 = false).reverse

/-- The array of ids after the sort by votes and the reversal, for a walk of the table. -/
def idsByVotes (walk : Walk) : List DelegateId := (entriesByVotes walk).map (·.1)

/-- `cached_vote_rank` of each id after the loop over the sorted array. -/
def cacheVoteRanks (walk : Walk) (ranks : DelegateId → Option Nat) : DelegateId → Option Nat :=
  (idsByVotes walk).zipIdx.foldl writePlace ranks

def topOfWalk (numDelegates : Nat) (walk : Walk) : OrdSet DelegateId :=
  OrdSet.ofElems ((idsByVotes walk).take numDelegates)

/-- What the selection reads of an entry. -/
def votingData (p : DelegateId × DelegateInfo) : DelegateId × UInt64 × Bytes × DelegateId :=
  (p.1, p.2.totalVotes, p.2.addressAsString, p.2.delegateId)

/-- How many entries are above the given one. -/
def numAbove (walk : Walk) (info : DelegateInfo) : Nat :=
  walk.countP fun p => info.voteKey < p.2.voteKey

/-- Every entry carries its own key as id. -/
def CarryKeys (walk : Walk) : Prop := ∀ p ∈ walk, p.2.delegateId = p.1

section Order

variable {walk walk' : Walk} {p : DelegateId × DelegateInfo} {n : Nat}

theorem entriesByVotes_perm (walk : Walk) : (entriesByVotes walk).Perm walk :=
  (List.reverse_perm _).trans (List.perm_insertionSort _ _)

theorem nodup_voteKey (hkeys : CarryKeys walk) (hnodup : (walk.map (·.1)).Nodup) :
    (walk.map fun p => p.2.voteKey).Nodup := by
  have hids : walk.map (·.1) = (walk.map fun p => p.2.voteKey).map fun key => (ofLex (ofLex key).2).2 := by
    rw [List.map_map]
    exact List.map_congr_left fun p hp => (hkeys p hp).symm
  rw [hids] at hnodup
  exact hnodup.of_map

theorem entriesByVotes_descending (hkeys : CarryKeys walk) (hnodup : (walk.map (·.1)).Nodup) :
    Descending (fun p => p.2.voteKey) (entriesByVotes walk) :=
  descending_insertionSort_reverse (fun a b => DelegateInfo.votesLt_eq_false_iff a.2 b.2)
    (nodup_voteKey hkeys hnodup)

theorem idsByVotes_nodup (hnodup : (walk.map (·.1)).Nodup) : (idsByVotes walk).Nodup :=
  ((entriesByVotes_perm walk).map Prod.fst).nodup_iff.mpr hnodup

theorem entriesByVotes_getElem? {i : Nat} (hkeys : CarryKeys walk)
    (hnodup : (walk.map (·.1)).Nodup) (hp : (entriesByVotes walk)[i]? = some p) :
    numAbove walk p.2 = i := by
  rw [numAbove, ← (entriesByVotes_perm walk).countP_eq]
  exact (entriesByVotes_descending hkeys hnodup).countP_lt hp

theorem cacheVoteRanks_eq {ranks : DelegateId → Option Nat} (hkeys : CarryKeys walk)
    (hnodup : (walk.map (·.1)).Nodup) (hp : p ∈ walk) :
    cacheVoteRanks walk ranks p.1 = some (numAbove walk p.2) := by
  obtain ⟨i, hi⟩ := List.mem_iff_getElem?.mp ((entriesByVotes_perm walk).mem_iff.mpr hp)
  have hid : (idsByVotes walk)[i]? = some p.1 := by rw [idsByVotes, List.getElem?_map, hi]; rfl
  rw [cacheVoteRanks, foldl_writePlace (idsByVotes_nodup hnodup) hid,
    entriesByVotes_getElem? hkeys hnodup hi, Nat.zero_add]

theorem numAbove_perm_range (hkeys : CarryKeys walk) (hnodup : (walk.map (·.1)).Nodup) :
    (walk.map fun p => numAbove walk p.2).Perm (List.range walk.length) := by
  have hsorted := (entriesByVotes_descending hkeys hnodup).map_countP
  rw [(entriesByVotes_perm walk).length_eq] at hsorted
  rw [← hsorted]
  refine ((entriesByVotes_perm walk).symm.map _).trans (.of_eq ?_)
  exact List.map_congr_left fun p _ => ((entriesByVotes_perm walk).countP_eq _).symm

theorem contains_topOfWalk (hkeys : CarryKeys walk) (hnodup : (walk.map (·.1)).Nodup)
    (hp : p ∈ walk) :
    (topOfWalk n walk).contains p.1 = true ↔ numAbove walk p.2 < n := by
  have hmem := (entriesByVotes_perm walk).mem_iff.mpr hp
  have htake := (entriesByVotes_descending hkeys hnodup).mem_take_iff (n := n) hmem
  rw [(entriesByVotes_perm walk).countP_eq] at htake
  rw [topOfWalk, OrdSet.contains_ofElems, idsByVotes, ← List.map_take, List.mem_map, numAbove,
    ← htake]
  constructor
  · rintro ⟨q, hq, heq⟩
    -- no id occurs twice
    have hinj := List.inj_on_of_nodup_map (idsByVotes_nodup hnodup) (List.mem_of_mem_take hq) hmem
    exact hinj heq ▸ hq
  · intro htaken
    exact ⟨p, htaken, rfl⟩

theorem mem_of_contains_topOfWalk {k : DelegateId} (h : (topOfWalk n walk).contains k = true) :
    ∃ p ∈ walk, p.1 = k := by
  obtain ⟨p, hp, rfl⟩ := List.mem_map.mp (List.mem_of_mem_take (OrdSet.contains_ofElems.mp h))
  exact ⟨p, (entriesByVotes_perm walk).mem_iff.mp hp, rfl⟩

theorem length_topOfWalk (hnodup : (walk.map (·.1)).Nodup) :
    (topOfWalk n walk).elems.length = min n walk.length := by
  have hperm := OrdSet.elems_ofElems_perm ((idsByVotes_nodup hnodup).take (i := n))
  rw [topOfWalk, hperm.length_eq, List.length_take, idsByVotes, List.length_map,
    (entriesByVotes_perm walk).length_eq]

theorem carryKeys_iff : CarryKeys walk ↔ ∀ d ∈ walk.map votingData, d.2.2.2 = d.1 := by
  rw [List.forall_mem_map]
  rfl

theorem map_voteKey (walk : Walk) :
    (walk.map fun p => p.2.voteKey) = (walk.map votingData).map fun d =>
      toLex (d.2.1, toLex (d.2.2.1.map UInt8.toNat, d.2.2.2)) := by
  rw [List.map_map]
  rfl

theorem map_fst_eq (walk : Walk) : walk.map (·.1) = (walk.map votingData).map (·.1) := by
  rw [List.map_map]
  rfl

theorem idsByVotes_eq (hkeys : CarryKeys walk) :
    idsByVotes walk =
      ((entriesByVotes walk).map fun p => p.2.voteKey).map fun key => (ofLex (ofLex key).2).2 := by
  rw [List.map_map]
  refine List.map_congr_left fun p hp => ?_
  exact (hkeys p ((entriesByVotes_perm walk).mem_iff.mp hp)).symm

theorem idsByVotes_congr (hkeys : CarryKeys walk) (hnodup : (walk.map (·.1)).Nodup)
    (hdata : (walk'.map votingData).Perm (walk.map votingData)) :
    idsByVotes walk' = idsByVotes walk := by
  have hkeys' : CarryKeys walk' :=
    carryKeys_iff.mpr fun d hd => carryKeys_iff.mp hkeys d (hdata.mem_iff.mp hd)
  have hnodup' : (walk'.map (·.1)).Nodup := by
    rw [map_fst_eq] at hnodup ⊢
    exact (hdata.map _).nodup_iff.mpr hnodup
  rw [idsByVotes_eq hkeys', idsByVotes_eq hkeys]
  congr 1
  have hsame : (walk'.map fun p => p.2.voteKey).Perm (walk.map fun p => p.2.voteKey) := by
    rw [map_voteKey, map_voteKey]
    exact hdata.map _
  refine Descending.eq_of_perm (f := id) ?_ ?_ ?_
  · exact List.pairwise_map.mpr (entriesByVotes_descending hkeys' hnodup')
  · exact List.pairwise_map.mpr (entriesByVotes_descending hkeys hnodup)
  · exact ((entriesByVotes_perm walk').map _).trans (hsame.trans ((entriesByVotes_perm walk).map _).symm)

end Order

end Delegates

namespace Storage

open Delegates

variable {env : Env} {s s' : Storage}

/-- The delegates with the most votes are selected and ranked, whatever the order in which
the table is walked and whatever else its entries hold. -/
theorem recalculateTopDelegates_selects (hkeys : CarryKeys s.ledger.delegates.toList)
    (h : s.recalculateTopDelegates env = .ok (true, s')) :
    (s'.topDelegates.elems.length =
        min env.config.dposNumDelegates s.ledger.delegates.toList.length ∧
      ∀ k, s'.topDelegates.contains k = true ↔
        ∃ info, s.ledger.delegates.find? k = some info ∧
          numAbove s.ledger.delegates.toList info < env.config.dposNumDelegates) ∧
    ((∀ ranks k info, s.ledger.delegates.find? k = some info →
        cacheVoteRanks s.ledger.delegates.toList ranks k =
          some (numAbove s.ledger.delegates.toList info)) ∧
      (s.ledger.delegates.toList.map fun p => numAbove s.ledger.delegates.toList p.2).Perm
        (List.range s.ledger.delegates.toList.length)) ∧
    ∀ walk : Walk, (walk.map votingData).Perm (s.ledger.delegates.toList.map votingData) →
      topOfWalk env.config.dposNumDelegates walk = s'.topDelegates ∧
      cacheVoteRanks walk = cacheVoteRanks s.ledger.delegates.toList := by
  have hnodup : (s.ledger.delegates.toList.map (·.1)).Nodup :=
    (List.pairwise_map.mpr s.ledger.delegates.sorted).imp ne_of_lt
  obtain rfl := (Prod.mk.inj (recalculateTopDelegates_eq_ok h).1).2
  refine ⟨⟨length_topOfWalk hnodup, fun k => ?_⟩, ⟨fun ranks k info hinfo => ?_, ?_⟩, ?_⟩
  · constructor
    · intro hk
      obtain ⟨p, hp, rfl⟩ := mem_of_contains_topOfWalk hk
      exact ⟨p.2, OrdMap.mem_toList.mp hp, (contains_topOfWalk hkeys hnodup hp).mp hk⟩
    · rintro ⟨info, hinfo, hlt⟩
      exact (contains_topOfWalk hkeys hnodup (OrdMap.mem_toList.mpr hinfo)).mpr hlt
  · exact cacheVoteRanks_eq hkeys hnodup (OrdMap.mem_toList.mpr hinfo)
  · exact numAbove_perm_range hkeys hnodup
  · intro walk hdata
    have hids := idsByVotes_congr hkeys hnodup hdata
    constructor
    · rw [topOfWalk, hids]
      rfl
    · funext ranks
      rw [cacheVoteRanks, cacheVoteRanks, hids]

/-- Three delegates with the same votes, two of them with the same address text. -/
def sampleTied : Storage :=
  let entry (id : DelegateId) (text : Bytes) : DelegateId × DelegateInfo :=
    (id, { DelegateInfo.zero with delegateId := id, addressAsString := text, totalVotes := 5 })
  Storage.empty.setDelegates (OrdMap.ofList [entry 1 [66], entry 2 [65], entry 3 [66]])

theorem recalculateTopDelegates_selects_of_sampleTied :
    ∃ env s', CarryKeys sampleTied.ledger.delegates.toList ∧ env.config.dposNumDelegates = 2 ∧
      sampleTied.recalculateTopDelegates env = .ok (true, s') ∧
      s'.topDelegates.elems = [1, 3] ∧ s'.topDelegates.elems.length = 2 := by
  let env : Env := ⟨sampleCrypto, { Config.mainnet with dposNumDelegates := 2 }, OrdMap.empty⟩
  have hkeys : CarryKeys sampleTied.ledger.delegates.toList := by
    unfold CarryKeys
    decide +kernel
  have h : sampleTied.recalculateTopDelegates env =
      .ok (true, { sampleTied with topDelegates := sampleTied.ledger.delegates.top 2 }) := by
    rw [recalculateTopDelegates, if_neg (by decide +kernel), if_neg (by decide +kernel)]
  exact ⟨env, _, hkeys, rfl, h, by decide +kernel, (recalculateTopDelegates_selects hkeys h).1.1⟩

end Storage

end Pebblecoin
