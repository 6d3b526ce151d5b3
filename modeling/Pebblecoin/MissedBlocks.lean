import Pebblecoin.ConnectBlock
import Pebblecoin.InputProgress

/-!
The counters of missed blocks: transactions leave them alone, and the statistics of a
block add one for each slot.
-/

namespace Pebblecoin

open Containers Control

namespace Delegates

variable {ds ds' ds'' : Delegates} {id : DelegateId}

/-- The counter of missed blocks, zero for an unknown delegate. -/
def missedBlocks (ds : Delegates) (id : DelegateId) : UInt64 := (ds.get id).missedBlocks

theorem get_insert (ds : Delegates) (id k : DelegateId) (info : DelegateInfo) :
    Delegates.get (OrdMap.insert ds id info) k = if id = k then info else ds.get k := by
  rw [Delegates.get, OrdMap.find?_insert]
  split_ifs <;> rfl

theorem missedBlocks_insert {info : DelegateInfo}
    (hinfo : info.missedBlocks = ds.missedBlocks id) :
    missedBlocks (OrdMap.insert ds id info) = ds.missedBlocks := by
  funext k
  rw [missedBlocks, get_insert]
  split_ifs with hk
  · exact hk ▸ hinfo
  · rfl

theorem missedBlocks_modify {f : DelegateInfo → DelegateInfo}
    (hf : ∀ info, (f info).missedBlocks = info.missedBlocks) :
    (ds.modify id f).missedBlocks = ds.missedBlocks :=
  missedBlocks_insert (hf _)

theorem SameButVotes.missedBlocks (h : ds.SameButVotes ds') :
    ds'.missedBlocks = ds.missedBlocks := by
  funext k
  have hget : ∀ ds : Delegates, ds.missedBlocks k =
      ((ds.find? k).map DelegateInfo.withoutVotes).elim 0 (·.missedBlocks) := by
    intro ds
    rw [Delegates.missedBlocks, Delegates.get]
    cases ds.find? k <;> rfl
  rw [hget, hget, h k]

end Delegates

theorem InputTables.missedBlocks_addInput {crypto : Crypto} {height : Nat} {popping : Bool}
    {inp : TxIn} {l l' : InputTables} (hchecked : Checked inp l)
    (h : addInput crypto height popping inp l = (true, l')) :
    l'.delegates.missedBlocks = l.delegates.missedBlocks := by
  cases addInput_added hchecked h with
  | gen => rfl
  | toKey _ hsame | vote _ _ hsame => exact hsame.missedBlocks
  | registerDelegate inp hnone =>
    refine Delegates.missedBlocks_insert ?_
    rw [Delegates.missedBlocks, Delegates.get, hnone]
    rfl

theorem Ledger.Connected.missedBlocks {crypto : Crypto} {base l : Ledger} {rs : List TxRecord}
    (h : Connected crypto base rs l) : l.delegates.missedBlocks = base.delegates.missedBlocks := by
  induction h with
  | nil => rfl
  | add _ haddable hadd ih =>
    obtain ⟨tables, htables, -, rfl⟩ := addTransactionFromBlock_eq_added hadd
    exact InputTables.addInputs_induction (P := fun _ t => t.delegates.missedBlocks = _)
      haddable.disjoint haddable.checked haddable.fresh
      (fun _ _ _ _ hchecked _ ht hone => (InputTables.missedBlocks_addInput hchecked hone).trans ht)
      ih htables

namespace Delegates

variable {ds : Delegates} {id : DelegateId}

theorem missedBlocks_countProcessed (signer : DelegateId) (fees : UInt64) (ds : Delegates) :
    (ds.countProcessed signer fees).missedBlocks = ds.missedBlocks :=
  missedBlocks_modify fun _ => rfl

theorem missedBlocks_countMissed (missed : List DelegateId) (ds : Delegates) :
    (ds.countMissed missed).missedBlocks id = ds.missedBlocks id + UInt64.ofNat (missed.count id) := by
  induction missed generalizing ds with
  | nil => simp [countMissed]
  | cons k missed ih =>
    have hstep := ih (ds.modify k fun info => { info with missedBlocks := info.missedBlocks + 1 })
    rw [countMissed, List.foldl_cons, ← countMissed, hstep, List.count_cons, missedBlocks, modify,
      get_insert]
    rcases eq_or_ne k id with rfl | hk
    · rw [if_pos rfl, if_pos (by simp), UInt64.ofNat_add, missedBlocks, UInt64.add_assoc,
        UInt64.add_comm 1]
      rfl
    · rw [if_neg hk, if_neg (by simpa using hk)]
      rfl

end Delegates

end Pebblecoin
