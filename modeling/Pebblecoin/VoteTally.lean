import Pebblecoin.Containers.Tally
import Pebblecoin.LedgerReplay
import Mathlib.Data.Set.Finite.Basic

/-!
The vote totals of the delegates are the sums of the last votes of all unspent
key images.
-/

namespace Pebblecoin

open Containers Control

variable {ds ds' : Delegates} {height : Nat} {popping : Bool}

def VoteInstance.amountFor (inst : VoteInstance) (d : DelegateId) : Nat :=
  ((inst.votes.find? d).map UInt64.toNat).getD 0

def Delegates.totalFor (ds : Delegates) (d : DelegateId) : Nat :=
  (ds.get d).totalVotes.toNat

/-- What the last vote of a history gives to a delegate. -/
def lastAmountFor (history : List VoteInstance) (d : DelegateId) : Nat :=
  (history.getLast?.map (·.amountFor d)).getD 0

/-- What a key image contributes to a delegate: nothing once it is spent. -/
def InputTables.weight (l : InputTables) (k : KeyImage) (d : DelegateId) : Nat :=
  if l.spentKeys k then 0 else lastAmountFor (l.voteHistories k) d

def itemsFor (items : List (DelegateId × UInt64)) (d : DelegateId) : Nat :=
  ((items.filter (·.1 = d)).map (·.2.toNat)).sum

theorem itemsFor_cons (item : DelegateId × UInt64) (items : List (DelegateId × UInt64))
    (d : DelegateId) :
    itemsFor (item :: items) d = (if item.1 = d then item.2.toNat else 0) + itemsFor items d := by
  unfold itemsFor
  by_cases h : item.1 = d <;> simp [h]

theorem itemsFor_reverse (items : List (DelegateId × UInt64)) (d : DelegateId) :
    itemsFor items.reverse d = itemsFor items d := by
  rw [itemsFor, List.filter_reverse, List.map_reverse, List.sum_reverse]
  rfl

theorem itemsFor_toList (m : OrdMap DelegateId UInt64) (d : DelegateId) :
    itemsFor m.toList d = ((m.find? d).map UInt64.toNat).getD 0 := by
  obtain ⟨items, hsorted⟩ := m
  simp only [OrdMap.find?]
  induction items with
  | nil => rfl
  | cons item items ih =>
    obtain ⟨hlt, hsorted⟩ := List.pairwise_cons.mp hsorted
    rw [itemsFor_cons, ih hsorted]
    by_cases heq : item.1 = d
    · have hnone : OrdMap.lookup d items = none := by
        rw [Option.eq_none_iff_forall_not_mem]
        intro v hv
        have hmem := (OrdMap.lookup_eq_some_iff hsorted).mp hv
        exact absurd (hlt _ hmem) (by simp [heq])
      simp [OrdMap.lookup, heq, hnone]
    · simp [OrdMap.lookup, heq]

theorem totalFor_insert (ds : Delegates) (k d : DelegateId) (info : DelegateInfo) :
    Delegates.totalFor (OrdMap.insert ds k info) d =
      if k = d then info.totalVotes.toNat else ds.totalFor d := by
  rw [Delegates.totalFor, Delegates.get, OrdMap.find?_insert]
  split_ifs <;> rfl

/-- A new delegate starts without votes. -/
theorem totalFor_registered {crypto : Crypto} {inp : TxinRegisterDelegate}
    (h : ds.find? inp.delegateId = none) :
    Delegates.totalFor (OrdMap.insert ds inp.delegateId (InputTables.newDelegate crypto inp)) =
      ds.totalFor := by
  funext d
  rw [totalFor_insert]
  split_ifs with hd
  · rw [← hd, Delegates.totalFor, Delegates.get, h]
    rfl
  · rfl

theorem totalFor_of_find {d : DelegateId} {info : DelegateInfo} (h : ds.find? d = some info) :
    ds.totalFor d = info.totalVotes.toNat := by
  rw [Delegates.totalFor, Delegates.get_of_find h]

theorem unapplyVote_total {expected : UInt64} {enforce : Bool} {item : DelegateId × UInt64}
    (h : unapplyVote expected enforce item ds = (true, ds')) (d : DelegateId) :
    ds'.totalFor d + (if item.1 = d then item.2.toNat else 0) = ds.totalFor d := by
  obtain ⟨info, total, hinfo, htotal, rfl⟩ := unapplyVote_eq_true h
  rw [totalFor_insert]
  by_cases heq : item.1 = d
  · subst heq
    rw [if_pos rfl, if_pos rfl, totalFor_of_find hinfo]
    exact htotal
  · rw [if_neg heq, if_neg heq, Nat.add_zero]

theorem unapplyVotes_total {inst : VoteInstance} {enforce : Bool}
    (h : unapplyVotes inst enforce ds = (true, ds')) (d : DelegateId) :
    ds'.totalFor d + inst.amountFor d = ds.totalFor d := by
  have hrun : ∀ (items : List (DelegateId × UInt64)) {ds ds' : Delegates},
      allApply (unapplyVote inst.expectedVote enforce) items ds = (true, ds') →
        ds'.totalFor d + itemsFor items d = ds.totalFor d := by
    intro items
    induction items with
    | nil =>
      intro ds ds' h
      obtain rfl : ds = ds' := by simpa using h
      rfl
    | cons item items ih =>
      intro ds ds' h
      obtain ⟨ds₁, hstep, hrest⟩ := allApply_cons_eq_true_iff.mp h
      have hone := unapplyVote_total hstep d
      have hall := ih hrest
      rw [itemsFor_cons]
      omega
  have := hrun _ h
  rwa [itemsFor_reverse, itemsFor_toList] at this

theorem applyVoteTotal_total {amount : UInt64} {id : DelegateId}
    (h : applyVoteTotal amount id ds = (true, ds')) (d : DelegateId) :
    ds'.totalFor d = ds.totalFor d + if id = d then amount.toNat else 0 := by
  unfold applyVoteTotal at h
  split_ifs at h with hover
  · simp at h
  obtain rfl := (Prod.mk.inj h).2
  rw [Delegates.modify, totalFor_insert]
  by_cases heq : id = d
  · subst heq
    have hlt : ¬ 2 ^ 64 ≤ (ds.get id).totalVotes.toNat + amount.toNat := fun hge =>
      hover (addAmountWouldOverflow_iff.mpr hge)
    rw [if_pos rfl, if_pos rfl, UInt64.toNat_add, Nat.mod_eq_of_lt (by omega)]
    rfl
  · rw [if_neg heq, if_neg heq, Nat.add_zero]

theorem applyVotes_total {amount : UInt64} {votes : DelegateVotes} {inst : VoteInstance}
    (h : applyVotes height popping amount votes ds = (true, inst, ds')) (d : DelegateId) :
    ds'.totalFor d = ds.totalFor d + inst.amountFor d := by
  obtain ⟨-, -, hlist, hrun⟩ := applyVotes_eq_true h
  rw [VoteInstance.amountFor, ← itemsFor_toList, hlist]
  clear hlist h
  generalize votes.elems = ids at hrun ⊢
  induction ids generalizing ds with
  | nil =>
    obtain rfl : ds = ds' := by simpa using hrun
    rfl
  | cons id ids ih =>
    obtain ⟨ds₁, hstep, hrest⟩ := allApply_cons_eq_true_iff.mp hrun
    rw [ih hrest, applyVoteTotal_total hstep d, List.map_cons, itemsFor_cons, Nat.add_assoc]

/-- The totals are right, and whoever the last vote of an unspent key image went
to is in the table. -/
structure VotesTallied (l : InputTables) : Prop where
  tally : Tally l.weight l.delegates.totalFor
  known : ∀ k inst d, l.spentKeys k = false → (l.voteHistories k).getLast? = some inst →
    inst.votes.contains d = true → l.delegates.contains d = true
  voters : Set.Finite {k | l.voteHistories k ≠ []}

theorem votesTallied_empty : VotesTallied Ledger.empty.toInputTables where
  tally := by
    have hweight : Ledger.empty.toInputTables.weight = fun _ _ => 0 := rfl
    have htotal : Delegates.totalFor Ledger.empty.delegates = fun _ => 0 := rfl
    rw [hweight, htotal]
    exact Tally.zero
  known _ _ _ _ h := (nomatch h)
  voters := by
    have : {k : KeyImage | Ledger.empty.voteHistories k ≠ []} = ∅ := by
      ext k
      simp [Ledger.empty]
    rw [this]
    exact Set.finite_empty

theorem VotesTallied.totalVotes_eq {l : InputTables} (h : VotesTallied l) :
    ∃ voting : Finset KeyImage,
      (∀ k, k ∈ voting ↔ l.spentKeys k = false ∧ l.voteHistories k ≠ []) ∧
        ∀ d info, l.delegates.find? d = some info →
          info.totalVotes.toNat = ∑ k ∈ voting, lastAmountFor (l.voteHistories k) d := by
  obtain ⟨voting, hvoting⟩ : ∃ voting : Finset KeyImage,
      ∀ k, k ∈ voting ↔ l.spentKeys k = false ∧ l.voteHistories k ≠ [] :=
    ⟨h.voters.toFinset.filter fun k => l.spentKeys k = false, fun k => by simp [and_comm]⟩
  have hzero : ∀ k ∉ voting, ∀ d, l.weight k d = 0 := by
    intro k hk d
    unfold InputTables.weight
    split_ifs with hspent
    · rfl
    · have hnil : l.voteHistories k = [] := by
        by_contra hne
        exact hk ((hvoting k).mpr ⟨by simpa using hspent, hne⟩)
      rw [hnil]
      rfl
  refine ⟨voting, hvoting, fun d info hinfo => ?_⟩
  rw [← totalFor_of_find hinfo, h.tally.total_eq hzero d]
  refine Finset.sum_congr rfl fun k hk => ?_
  rw [InputTables.weight, if_neg (by simp [((hvoting k).mp hk).1])]

theorem totalFor_extends {J : Prop} (h : ds.Extends J ds') (d : DelegateId) :
    ds'.totalFor d = ds.totalFor d := by
  cases ha : ds.find? d with
  | some a =>
    obtain ⟨b, hb, hba⟩ := h.same d a ha
    rw [totalFor_of_find ha, totalFor_of_find hb, DelegateInfo.totalVotes_eq hba]
  | none =>
    have hzero : ds.totalFor d = 0 := by
      rw [Delegates.totalFor, Delegates.get, ha]
      rfl
    cases hb : ds'.find? d with
    | none =>
      rw [hzero, Delegates.totalFor, Delegates.get, hb]
      rfl
    | some b =>
      have hvotes := congrArg DelegateInfo.totalVotes (h.created d b ha hb).2
      have hvotes' : b.totalVotes = 0 := hvotes
      rw [totalFor_of_find hb, hzero, hvotes']
      rfl

theorem VotesTallied.of_extends {J : Prop} {l l' : InputTables} (h : VotesTallied l)
    (hext : l.Extends J l') : VotesTallied l' := by
  have hrest := hext.rest
  have hspent : l'.spentKeys = l.spentKeys := by rw [hrest]
  have hhistories : l'.voteHistories = l.voteHistories := by rw [hrest]
  have hweight : l'.weight = l.weight := by
    funext k d
    rw [InputTables.weight, InputTables.weight, hspent, hhistories]
  refine ⟨?_, fun k inst d hk hinst hd => ?_, by rw [hhistories]; exact h.voters⟩
  · rw [hweight, show Delegates.totalFor l'.delegates = Delegates.totalFor l.delegates from
      funext (totalFor_extends hext.delegates)]
    exact h.tally
  · rw [hspent] at hk
    rw [hhistories] at hinst
    exact hext.delegates.contains (h.known k inst d hk hinst hd)

theorem onLastVote_total {history : List VoteInstance}
    (h : onLastVote history (unapplyVotes · false) ds = (true, ds')) (d : DelegateId) :
    ds'.totalFor d + lastAmountFor history d = ds.totalFor d := by
  unfold onLastVote at h
  split at h
  · rename_i hlast
    obtain rfl : ds = ds' := by simpa using h
    simp [lastAmountFor, hlast]
  · rename_i inst hlast
    have := unapplyVotes_total h d
    simpa [lastAmountFor, hlast] using this

namespace InputTables

variable {l : InputTables}

theorem weight_spend (l : InputTables) (ds : Delegates) (k : KeyImage) :
    weight { l with delegates := ds, spentKeys := Function.update l.spentKeys k true } =
      Function.update l.weight k fun _ => 0 := by
  funext j d
  by_cases hj : j = k
  · simp [weight, hj]
  · simp [weight, Function.update_of_ne hj]

theorem weight_vote (ds : Delegates) {k : KeyImage} (hspent : l.spentKeys k = false)
    (inst : VoteInstance) :
    weight { l with
      delegates := ds
      voteHistories := Function.update l.voteHistories k (l.voteHistories k ++ [inst]) } =
      Function.update l.weight k inst.amountFor := by
  funext j d
  by_cases hj : j = k
  · simp [weight, hj, hspent, lastAmountFor]
  · simp [weight, Function.update_of_ne hj]

end InputTables

namespace VotesTallied

open InputTables

variable {l l' : InputTables}

theorem addToKey {inp : TxinToKey} (h : VotesTallied l) (hadd : addToKey inp l = (true, l')) :
    VotesTallied l' := by
  obtain ⟨ds, hds, hspent, rfl⟩ := addToKey_eq_true hadd
  have hsame := onLastVote_unapply_sameButVotes hds
  refine ⟨?_, fun k inst d hk hinst hd => ?_, h.voters⟩
  · rw [weight_spend]
    refine h.tally.update _ _ fun d => ?_
    have := onLastVote_total hds d
    simpa [InputTables.weight, hspent] using this
  · have hne : k ≠ inp.kImage := by
      rintro rfl
      simp at hk
    have hk' : l.spentKeys k = false := by simpa [Function.update_of_ne hne] using hk
    rw [← hsame.contains_eq]
    exact h.known k inst d hk' hinst hd

theorem addRegisterDelegate {crypto : Crypto} {inp : TxinRegisterDelegate} (h : VotesTallied l)
    (hadd : addRegisterDelegate crypto inp l = (true, l')) : VotesTallied l' := by
  obtain ⟨hnone, rfl⟩ := addRegisterDelegate_eq_true hadd
  refine ⟨?_, fun k inst d hk hinst hd => ?_, h.voters⟩
  · have htally := h.tally
    rw [← totalFor_registered hnone] at htally
    exact htally
  · obtain ⟨info, hinfo⟩ := Delegates.contains_iff.mp (h.known k inst d hk hinst hd)
    have hne : inp.delegateId ≠ d := by
      rintro rfl
      rw [hnone] at hinfo
      cases hinfo
    exact Delegates.contains_iff.mpr ⟨info, by rw [OrdMap.find?_insert_ne _ _ hne, hinfo]⟩

theorem addVote {inp : TxinVote} (h : VotesTallied l) (hchecked : Checked (.vote inp) l)
    (hadd : addVote height popping inp l = (true, l')) : VotesTallied l' := by
  obtain ⟨-, hvotes⟩ := hchecked.2 inp rfl
  obtain ⟨ds, ds', inst, hspent, hun, happly, rfl⟩ := addVote_eq_true hadd
  have hsame := onLastVote_unapply_sameButVotes hun
  have hvotes' : ∀ id ∈ inp.votes.elems, ds.contains id = true := fun id hid => by
    rw [← hsame.contains_eq]
    exact hvotes id hid
  have hsame' := hsame.trans (applyVotes_sameButVotes hvotes' happly)
  have hlast : ∀ k inst', (Function.update l.voteHistories inp.ink.kImage
      (l.voteHistories inp.ink.kImage ++ [inst]) k).getLast? = some inst' →
      k = inp.ink.kImage ∧ inst' = inst ∨ (l.voteHistories k).getLast? = some inst' := by
    intro k inst' hk
    by_cases hki : k = inp.ink.kImage
    · subst hki
      rw [Function.update_self, List.getLast?_concat] at hk
      exact Or.inl ⟨rfl, (Option.some.inj hk).symm⟩
    · rw [Function.update_of_ne hki] at hk
      exact Or.inr hk
  refine ⟨?_, fun k inst' d hk hinst hd => ?_, ?_⟩
  · rw [weight_vote _ hspent]
    refine h.tally.update _ _ fun d => ?_
    have htake := onLastVote_total hun d
    have hgive := applyVotes_total happly d
    simp only [InputTables.weight, hspent, Bool.false_eq_true, if_false]
    omega
  · rw [← hsame'.contains_eq]
    rcases hlast k inst' hinst with ⟨-, rfl⟩ | hold
    · obtain ⟨-, -, hlist, -⟩ := applyVotes_eq_true happly
      obtain ⟨v, hv⟩ := Option.isSome_iff_exists.mp hd
      have hmem := OrdMap.mem_toList.mpr hv
      rw [hlist] at hmem
      obtain ⟨id, hid, heq⟩ := List.mem_map.mp hmem
      obtain ⟨rfl, -⟩ := Prod.mk.inj heq
      exact hvotes id hid
    · exact h.known k inst' d hk hold hd
  · refine (h.voters.insert inp.ink.kImage).subset fun k hk => ?_
    by_cases hki : k = inp.ink.kImage
    · exact Set.mem_insert_iff.mpr (Or.inl hki)
    · refine Set.mem_insert_of_mem _ ?_
      simpa [Function.update_of_ne hki] using hk

theorem addInput {crypto : Crypto} {inp : TxIn} (h : VotesTallied l) (hchecked : Checked inp l)
    (hadd : addInput crypto height popping inp l = (true, l')) : VotesTallied l' := by
  cases inp with
  | gen _ =>
    obtain rfl : l = l' := by simpa [InputTables.addInput] using hadd
    exact h
  | toKey inp => exact h.addToKey hadd
  | registerDelegate inp => exact h.addRegisterDelegate hadd
  | vote inp => exact h.addVote hchecked hadd
  | _ => exact absurd hchecked.1 (by simp [TxIn.engaged])

end VotesTallied

end Pebblecoin
