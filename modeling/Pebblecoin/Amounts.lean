import Pebblecoin.Basic

/-!
Checked 64-bit amounts and the per-coin-type balance of a transaction.
-/

namespace Pebblecoin

def addAmountWouldOverflow (amount1 amount2 : UInt64) : Bool :=
  amount1 + amount2 < amount1

def subAmountWouldUnderflow (amount1 amount2 : UInt64) : Bool :=
  amount1 < amount2 || amount1 < amount1 - amount2

def addAmount (amount1 amount2 : UInt64) : Option UInt64 :=
  if addAmountWouldOverflow amount1 amount2 then none else some (amount1 + amount2)

def subAmount (amount1 amount2 : UInt64) : Option UInt64 :=
  if subAmountWouldUnderflow amount1 amount2 then none else some (amount1 - amount2)

theorem addAmountWouldOverflow_iff {a b : UInt64} :
    addAmountWouldOverflow a b = true ↔ 2 ^ 64 ≤ a.toNat + b.toNat := by
  have ha := a.toNat_lt
  have hb := b.toNat_lt
  rw [addAmountWouldOverflow, decide_eq_true_iff, UInt64.lt_iff_toNat_lt, UInt64.toNat_add]
  omega

theorem subAmountWouldUnderflow_iff {a b : UInt64} :
    subAmountWouldUnderflow a b = true ↔ a.toNat < b.toNat := by
  have ha := a.toNat_lt
  have hb := b.toNat_lt
  rw [subAmountWouldUnderflow, Bool.or_eq_true, decide_eq_true_iff, decide_eq_true_iff,
    UInt64.lt_iff_toNat_lt, UInt64.lt_iff_toNat_lt, UInt64.toNat_sub]
  omega

theorem addAmount_eq_some_iff {a b c : UInt64} :
    addAmount a b = some c ↔ a.toNat + b.toNat = c.toNat := by
  have ha := a.toNat_lt
  have hb := b.toNat_lt
  have hc := c.toNat_lt
  have hover := addAmountWouldOverflow_iff (a := a) (b := b)
  rw [addAmount]
  split_ifs with h
  · simp only [false_iff]
    have := hover.mp h
    omega
  · have hlt : a.toNat + b.toNat < 2 ^ 64 := by
      by_contra hge
      exact h (hover.mpr (by omega))
    rw [Option.some.injEq, ← UInt64.toNat_inj, UInt64.toNat_add]
    omega

theorem subAmount_eq_some_iff {a b c : UInt64} :
    subAmount a b = some c ↔ c.toNat + b.toNat = a.toNat := by
  have ha := a.toNat_lt
  have hb := b.toNat_lt
  have hc := c.toNat_lt
  have hunder := subAmountWouldUnderflow_iff (a := a) (b := b)
  rw [subAmount]
  split_ifs with h
  · simp only [false_iff]
    have := hunder.mp h
    omega
  · have hle : b.toNat ≤ a.toNat := by
      by_contra hlt
      exact h (hunder.mpr (by omega))
    rw [Option.some.injEq, ← UInt64.toNat_inj, UInt64.toNat_sub]
    omega

/-- Amounts by coin type; a coin type that was never touched counts zero. -/
abbrev CurrencyMap := CoinType → UInt64

namespace CurrencyMap

def add (amounts : CurrencyMap) (cp : CoinType) (amount : UInt64) : Option CurrencyMap :=
  (addAmount (amounts cp) amount).map (Function.update amounts cp)

def sub (amounts : CurrencyMap) (cp : CoinType) (amount : UInt64) : Option CurrencyMap :=
  (subAmount (amounts cp) amount).map (Function.update amounts cp)

end CurrencyMap

/-- What one input with coin type `cp` adds to and takes from the amounts. -/
def addTxinAmount (cp : CoinType) (amounts : CurrencyMap) : TxIn → Option CurrencyMap
  | .toKey inp => amounts.add cp inp.amount
  | .mint inp => amounts.add cp inp.amount
  | .remint inp => amounts.add cp inp.amount
  | .createContract _ => amounts.add cp 0
  | .mintContract inp => do
    let amounts ← amounts.sub ⟨inp.backedByCurrency, .notContract, backedByNA⟩ inp.amount
    let amounts ← amounts.add ⟨inp.contract, .backingCoin, inp.backedByCurrency⟩ inp.amount
    amounts.add ⟨inp.contract, .contractCoin, inp.backedByCurrency⟩ inp.amount
  | .gradeContract inp => do
    let amounts ← amounts.add cp 0
    inp.feeAmounts.toList.foldlM
      (fun amounts item => amounts.add ⟨item.1, .notContract, backedByNA⟩ item.2) amounts
  | .resolveBcCoins inp => do
    let kind := if inp.isBackingCoins ≠ 0 then CoinContractType.backingCoin else .contractCoin
    let amounts ← amounts.sub ⟨inp.contract, kind, inp.backingCurrency⟩ inp.sourceAmount
    amounts.add ⟨inp.backingCurrency, .notContract, backedByNA⟩ inp.gradedAmount
  | .fuseBcCoins inp => do
    let amounts ← amounts.sub ⟨inp.contract, .backingCoin, inp.backingCurrency⟩ inp.amount
    let amounts ← amounts.sub ⟨inp.contract, .contractCoin, inp.backingCurrency⟩ inp.amount
    amounts.add ⟨inp.backingCurrency, .notContract, backedByNA⟩ inp.amount
  | .registerDelegate inp => amounts.sub cpXpb inp.registrationFee
  | .vote _ => some amounts
  | .gen _ | .toScript _ | .toScripthash _ => none

namespace TransactionPrefix

/-- Reading past the end throws in the source; a loaded transaction has one coin
type for each input. -/
def inCp (tx : TransactionPrefix) (i : Nat) : CoinType :=
  tx.vinCoinTypes.getD i cpXpb

def outCp (tx : TransactionPrefix) (i : Nat) : CoinType :=
  tx.voutCoinTypes.getD i cpXpb

def checkInputs (tx : TransactionPrefix) : Option CurrencyMap :=
  tx.vin.zipIdx.foldlM (fun amounts p => addTxinAmount (tx.inCp p.2) amounts p.1) fun _ => 0

def checkOutputs (tx : TransactionPrefix) : Option CurrencyMap :=
  tx.vout.zipIdx.foldlM (fun (amounts : CurrencyMap) p => amounts.add (tx.outCp p.2) p.1.amount)
    fun _ => 0

/-- The fee, if the inputs cover the outputs in every coin type.  A coin type
without outputs cannot fall short, so only those of the outputs are compared. -/
def checkInputsOutputs (tx : TransactionPrefix) : Option UInt64 := do
  let ins ← tx.checkInputs
  let outs ← tx.checkOutputs
  if (List.range tx.vout.length).all fun i => outs (tx.outCp i) ≤ ins (tx.outCp i) then
    some (ins cpXpb - outs cpXpb)
  else none

def getTxFee (tx : TransactionPrefix) : UInt64 :=
  tx.checkInputsOutputs.getD 0

end TransactionPrefix

def isCoinbase (tx : TransactionPrefix) : Bool :=
  match tx.vin with
  | [.gen _] => true
  | _ => false

/-- A block without a proper coinbase input counts as height zero. -/
def getBlockHeight (b : Block) : UInt64 :=
  match b.minerTx.vin with
  | [.gen height] => height
  | _ => 0

end Pebblecoin
