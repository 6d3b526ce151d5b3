import Pebblecoin.Accounting.Changes
import Pebblecoin.Amounts

/-!
The balance of a transaction, computed in exact integers.
-/

namespace Pebblecoin

open Accounting

/-- What an input with coin type `cp` adds to and takes from the balances, in the order
in which the source does it. -/
def TxIn.changes (cp : CoinType) : TxIn → List (CoinType × Int)
  | .toKey inp => [(cp, inp.amount.toNat)]
  | .mint inp => [(cp, inp.amount.toNat)]
  | .remint inp => [(cp, inp.amount.toNat)]
  | .mintContract inp =>
    [(⟨inp.backedByCurrency, .notContract, backedByNA⟩, -inp.amount.toNat),
      (⟨inp.contract, .backingCoin, inp.backedByCurrency⟩, inp.amount.toNat),
      (⟨inp.contract, .contractCoin, inp.backedByCurrency⟩, inp.amount.toNat)]
  | .gradeContract inp =>
    inp.feeAmounts.toList.map fun item => (⟨item.1, .notContract, backedByNA⟩, item.2.toNat)
  | .resolveBcCoins inp =>
    [(⟨inp.contract, if inp.isBackingCoins ≠ 0 then .backingCoin else .contractCoin,
        inp.backingCurrency⟩, -inp.sourceAmount.toNat),
      (⟨inp.backingCurrency, .notContract, backedByNA⟩, inp.gradedAmount.toNat)]
  | .fuseBcCoins inp =>
    [(⟨inp.contract, .backingCoin, inp.backingCurrency⟩, -inp.amount.toNat),
      (⟨inp.contract, .contractCoin, inp.backingCurrency⟩, -inp.amount.toNat),
      (⟨inp.backingCurrency, .notContract, backedByNA⟩, inp.amount.toNat)]
  | .registerDelegate inp => [(cpXpb, -inp.registrationFee.toNat)]
  | .createContract _ | .vote _ | .gen _ | .toScript _ | .toScripthash _ => []

namespace TransactionPrefix

/-- The changes of all inputs, one after the other. -/
def inputChanges (tx : TransactionPrefix) : List (CoinType × Int) :=
  tx.vin.zipIdx.flatMap fun p => p.1.changes (tx.inCp p.2)

def outputAmounts (tx : TransactionPrefix) : List (CoinType × Int) :=
  tx.vout.zipIdx.map fun p => (tx.outCp p.2, p.1.amount.toNat)

end TransactionPrefix

namespace CurrencyMap

/-- The amounts as exact integers. -/
def exact (amounts : CurrencyMap) (cp : CoinType) : Int := (amounts cp).toNat

theorem exact_nonneg (amounts : CurrencyMap) (cp : CoinType) : 0 ≤ amounts.exact cp :=
  Int.natCast_nonneg _

variable {amounts amounts' : CurrencyMap} {cp : CoinType} {amount : UInt64}

theorem carries_add (h : amounts.add cp amount = some amounts') :
    Carries amounts.exact [(cp, amount.toNat)] amounts'.exact := by
  obtain ⟨sum, hsum, rfl⟩ := Option.map_eq_some_iff.mp h
  have hexact := addAmount_eq_some_iff.mp hsum
  refine .single amounts.exact_nonneg (exact_nonneg _) fun k => ?_
  by_cases hk : cp = k
  · subst hk
    simp only [exact, Function.update_self, if_true]
    omega
  · simp [exact, hk, Function.update_of_ne (Ne.symm hk)]

theorem carries_add_zero (h : amounts.add cp 0 = some amounts') : amounts' = amounts := by
  obtain ⟨sum, hsum, rfl⟩ := Option.map_eq_some_iff.mp h
  have hexact := addAmount_eq_some_iff.mp hsum
  obtain rfl : amounts cp = sum := UInt64.toNat_inj.mp (by simpa using hexact)
  exact Function.update_eq_self ..

theorem carries_sub (h : amounts.sub cp amount = some amounts') :
    Carries amounts.exact [(cp, -amount.toNat)] amounts'.exact := by
  obtain ⟨rest, hrest, rfl⟩ := Option.map_eq_some_iff.mp h
  have hexact := subAmount_eq_some_iff.mp hrest
  refine .single amounts.exact_nonneg (exact_nonneg _) fun k => ?_
  by_cases hk : cp = k
  · subst hk
    simp only [exact, Function.update_self, if_true]
    omega
  · simp [exact, hk, Function.update_of_ne (Ne.symm hk)]

theorem carries_foldlM_add {α : Type} {items : List α} {coin : α → CoinType} {value : α → UInt64}
    (h : items.foldlM (fun (amounts : CurrencyMap) item => amounts.add (coin item) (value item))
      amounts = some amounts') :
    Carries amounts.exact (items.map fun item => (coin item, ((value item).toNat : Int)))
      amounts'.exact := by
  induction items generalizing amounts with
  | nil =>
    obtain rfl := Option.some.inj h
    exact .nil amounts.exact_nonneg
  | cons item items ih =>
    obtain ⟨next, hnext, hrest⟩ := Option.bind_eq_some_iff.mp h
    exact (carries_add hnext).append (ih hrest)

end CurrencyMap

theorem carries_addTxinAmount {cp : CoinType} {amounts amounts' : CurrencyMap} {inp : TxIn}
    (h : addTxinAmount cp amounts inp = some amounts') :
    Carries amounts.exact (inp.changes cp) amounts'.exact := by
  cases inp with
  | toKey inp => exact CurrencyMap.carries_add h
  | mint inp => exact CurrencyMap.carries_add h
  | remint inp => exact CurrencyMap.carries_add h
  | createContract inp =>
    rw [CurrencyMap.carries_add_zero h]
    exact .nil amounts.exact_nonneg
  | mintContract inp =>
    obtain ⟨m₁, h₁, h⟩ := Option.bind_eq_some_iff.mp h
    obtain ⟨m₂, h₂, h₃⟩ := Option.bind_eq_some_iff.mp h
    exact (CurrencyMap.carries_sub h₁).append
      ((CurrencyMap.carries_add h₂).append (CurrencyMap.carries_add h₃))
  | gradeContract inp =>
    obtain ⟨m₁, h₁, h₂⟩ := Option.bind_eq_some_iff.mp h
    obtain rfl := CurrencyMap.carries_add_zero h₁
    exact CurrencyMap.carries_foldlM_add h₂
  | resolveBcCoins inp =>
    obtain ⟨m₁, h₁, h₂⟩ := Option.bind_eq_some_iff.mp h
    exact (CurrencyMap.carries_sub h₁).append (CurrencyMap.carries_add h₂)
  | fuseBcCoins inp =>
    obtain ⟨m₁, h₁, h⟩ := Option.bind_eq_some_iff.mp h
    obtain ⟨m₂, h₂, h₃⟩ := Option.bind_eq_some_iff.mp h
    exact (CurrencyMap.carries_sub h₁).append
      ((CurrencyMap.carries_sub h₂).append (CurrencyMap.carries_add h₃))
  | registerDelegate inp => exact CurrencyMap.carries_sub h
  | vote inp =>
    obtain rfl := Option.some.inj h
    exact .nil amounts.exact_nonneg
  | gen height => cases h
  | toScript inp => cases h
  | toScripthash inp => cases h

theorem carries_foldlM_addTxinAmount {tx : TransactionPrefix} {ins : List (TxIn × Nat)}
    {amounts amounts' : CurrencyMap}
    (h : ins.foldlM (fun amounts p => addTxinAmount (tx.inCp p.2) amounts p.1) amounts =
      some amounts') :
    Carries amounts.exact (ins.flatMap fun p => p.1.changes (tx.inCp p.2)) amounts'.exact := by
  induction ins generalizing amounts with
  | nil =>
    obtain rfl := Option.some.inj h
    exact .nil amounts.exact_nonneg
  | cons p ins ih =>
    obtain ⟨next, hnext, hrest⟩ := Option.bind_eq_some_iff.mp h
    rw [List.flatMap_cons]
    exact (carries_addTxinAmount hnext).append (ih hrest)

theorem exact_zero (cp : CoinType) : CurrencyMap.exact (fun _ => 0) cp = 0 := rfl

theorem outputs_le {tx : TransactionPrefix} {ins outs : CurrencyMap}
    (houts : Carries (CurrencyMap.exact fun _ => 0) tx.outputAmounts outs.exact)
    (hcover : ((List.range tx.vout.length).all fun i => outs (tx.outCp i) ≤ ins (tx.outCp i)) = true)
    (cp : CoinType) : outs.exact cp ≤ ins.exact cp := by
  by_cases hmem : ∃ i < tx.vout.length, tx.outCp i = cp
  · obtain ⟨i, hi, rfl⟩ := hmem
    have hle := List.all_eq_true.mp hcover i (List.mem_range.mpr hi)
    have hle' := UInt64.le_iff_toNat_le.mp (of_decide_eq_true hle)
    simp only [CurrencyMap.exact]
    omega
  · -- a coin type without outputs
    have hnone : net cp tx.outputAmounts = 0 := by
      refine net_eq_zero fun change hchange => ?_
      obtain ⟨p, hp, rfl⟩ := List.mem_map.mp hchange
      have hlt := List.snd_lt_of_mem_zipIdx hp
      exact fun heq => hmem ⟨p.2, by omega, heq⟩
    rw [houts.total, exact_zero, hnone]
    exact ins.exact_nonneg cp

/-- The balances of an accepted transaction in exact integers. -/
theorem exact_of_checkInputsOutputs {tx : TransactionPrefix} {fee : UInt64}
    (h : tx.checkInputsOutputs = some fee) : ∃ ins outs : CurrencyMap,
      Carries (CurrencyMap.exact fun _ => 0) tx.inputChanges ins.exact ∧
      Carries (CurrencyMap.exact fun _ => 0) tx.outputAmounts outs.exact ∧
      (∀ cp, outs.exact cp ≤ ins.exact cp) ∧ fee = ins cpXpb - outs cpXpb := by
  obtain ⟨ins, hins, h⟩ := Option.bind_eq_some_iff.mp h
  obtain ⟨outs, houts, h⟩ := Option.bind_eq_some_iff.mp h
  have hout : Carries _ tx.outputAmounts outs.exact := CurrencyMap.carries_foldlM_add houts
  split at h
  · rename_i hcover
    exact ⟨ins, outs, carries_foldlM_addTxinAmount hins, hout, outputs_le hout hcover,
      (Option.some.inj h).symm⟩
  · cases h

theorem net_outputAmounts_le {tx : TransactionPrefix} {fee : UInt64}
    (h : tx.checkInputsOutputs = some fee) (cp : CoinType) :
    net cp tx.outputAmounts ≤ net cp tx.inputChanges := by
  obtain ⟨ins, outs, hin, hout, hle, -⟩ := exact_of_checkInputsOutputs h
  have hcp := hle cp
  rwa [hin.total, hout.total, add_le_add_iff_left] at hcp

/-- An accepted transaction never takes more than it has of any coin type, gives out no
more than it has in the end, and its fee is what remains. -/
theorem accepted_balance {tx : TransactionPrefix} {fee : UInt64}
    (h : tx.checkInputsOutputs = some fee) :
    (∀ l, l <+: tx.inputChanges → ∀ cp, 0 ≤ net cp l) ∧
      (∀ cp, net cp tx.outputAmounts ≤ net cp tx.inputChanges) ∧
      (fee.toNat : Int) = net cpXpb tx.inputChanges - net cpXpb tx.outputAmounts := by
  obtain ⟨ins, outs, hin, hout, hle, rfl⟩ := exact_of_checkInputsOutputs h
  refine ⟨fun l hl cp => ?_, net_outputAmounts_le h, ?_⟩
  · simpa [exact_zero] using hin.nonneg l hl cp
  · have hxpb := hle cpXpb
    have hintotal := hin.total cpXpb
    have houttotal := hout.total cpXpb
    simp only [CurrencyMap.exact] at hxpb hintotal houttotal
    rw [UInt64.toNat_sub_of_le _ _ (UInt64.le_iff_toNat_le.mpr (by omega))]
    omega

/-- Ten coins are spent; of these four are turned into a contract and one of the four
back. -/
def sampleConversion : TransactionPrefix where
  version := 1
  unlockTime := 0
  extra := []
  vin := [.toKey ⟨10, [], Blob.ofNat 32 1⟩, .mintContract ⟨300, currencyXpb, 4⟩,
    .fuseBcCoins ⟨300, currencyXpb, 1⟩]
  vout := [⟨6, .toKey (Blob.ofNat 32 2)⟩, ⟨3, .toKey (Blob.ofNat 32 3)⟩]
  vinCoinTypes := [cpXpb, cpXpb, cpXpb]
  voutCoinTypes := [cpXpb, ⟨300, .backingCoin, currencyXpb⟩]

theorem accepted_balance_of_sampleConversion :
    sampleConversion.checkInputsOutputs = some 1 ∧
      (1 : Int) = net cpXpb sampleConversion.inputChanges -
        net cpXpb sampleConversion.outputAmounts := by
  have haccepted : sampleConversion.checkInputsOutputs = some 1 := by decide +kernel
  exact ⟨haccepted, (accepted_balance haccepted).2.2⟩

end Pebblecoin
