import Pebblecoin.RunRecords

/-!
Inputs of later versions.  The prefix of a transaction is hashed before its inputs are
checked, which works for the current version only: currencies and contracts stay out.
-/

namespace Pebblecoin

open Containers Control Storage

namespace TxIn

/-- Coins of `currency` that an input locks in a contract. -/
def locks (contract currency : UInt64) : TxIn → Nat
  | .mintContract inp =>
    if inp.contract = contract ∧ inp.backedByCurrency = currency then inp.amount.toNat else 0
  | _ => 0

def fuses (contract currency : UInt64) : TxIn → Nat
  | .fuseBcCoins inp =>
    if inp.contract = contract ∧ inp.backingCurrency = currency then inp.amount.toNat else 0
  | _ => 0

def resolves (contract currency : UInt64) : TxIn → Nat
  | .resolveBcCoins inp =>
    if inp.contract = contract ∧ inp.backingCurrency = currency then inp.gradedAmount.toNat
    else 0
  | _ => 0

def claimsFee (contract currency : UInt64) : TxIn → Nat
  | .gradeContract inp =>
    if inp.contract = contract then ((inp.feeAmounts.find? currency).getD 0).toNat else 0
  | _ => 0

/-- What an input releases from a contract, in whichever way. -/
def releases (contract currency : UInt64) (inp : TxIn) : Nat :=
  inp.fuses contract currency + inp.resolves contract currency + inp.claimsFee contract currency

end TxIn

/-- Transactions that `validateTx` has accepted, each added to the ledger that those before
it have left.  The rest of the storage may be anything. -/
inductive Applied (env : Env) (start : Ledger) : List Transaction → Ledger → Prop
  | start : Applied env start [] start
  | transaction {txs : List Transaction} {s s' : Storage} {now : UInt64} {tx : Transaction}
      {isMinerTx : Bool} {txId : Hash} (h : Applied env start txs s.ledger)
      (hvalid : s.validateTx env now tx isMinerTx = .ok true)
      (hadded : s.addTransactionFromBlock env tx txId = .ok (true, s')) :
      Applied env start (txs ++ [tx]) s'.ledger

def totalOf (txs : List Transaction) (amount : TxIn → Nat) : Nat :=
  (txs.map fun tx => (tx.vin.map amount).sum).sum

def lockedIn (txs : List Transaction) (contract currency : UInt64) : Nat :=
  totalOf txs (·.locks contract currency)

def releasedFrom (txs : List Transaction) (contract currency : UInt64) : Nat :=
  totalOf txs (·.releases contract currency)

/-- How often the authorisation is used. -/
def remintUses (a : TxinRemint) (txs : List Transaction) : Nat :=
  totalOf txs fun inp => if inp = .remint a then 1 else 0

theorem currency_above_current : ¬ currencyTransactionVersion ≤ currentTransactionVersion := by
  decide

theorem contract_above_current : ¬ contractTransactionVersion ≤ currentTransactionVersion := by
  decide

theorem minimumTxVersion_of_validateTx {env : Env} {now : UInt64} {s : Storage} {tx : Transaction}
    {isMinerTx : Bool} (h : s.validateTx env now tx isMinerTx = .ok true) :
    ∀ inp ∈ tx.vin, inp.minimumTxVersion ≤ currentTransactionVersion := by
  obtain ⟨hserializable, -⟩ := validateTx_checked h
  simp only [TransactionPrefix.serializable, TransactionPrefix.hasValidInOutTypes, Bool.and_eq_true,
    decide_eq_true_eq, List.all_eq_true] at hserializable
  obtain ⟨⟨hversion, -⟩, hvin, -⟩ := hserializable
  exact fun inp hinp => (hvin inp hinp).trans hversion

namespace InputTables

variable {crypto : Crypto} {height : Nat} {popping : Bool}

theorem currencies_addInput {inp : TxIn}
    (hversion : inp.minimumTxVersion ≤ currentTransactionVersion) (l : InputTables) :
    (addInput crypto height popping inp l).2.currencies = l.currencies := by
  cases inp with
  | mint | remint => exact absurd hversion currency_above_current
  | createContract | mintContract | gradeContract | resolveBcCoins | fuseBcCoins =>
    exact absurd hversion contract_above_current
  | gen | toScript | toScripthash => rfl
  | toKey inp =>
    rw [addInput, addToKey]
    split
    · rfl
    · split_ifs <;> rfl
  | registerDelegate inp =>
    rw [addInput, addRegisterDelegate]
    split <;> rfl
  | vote inp =>
    rw [addInput, addVote]
    split
    · rfl
    split
    · rfl
    split <;> rfl

theorem currencies_allApply {ins : List TxIn}
    (hversion : ∀ inp ∈ ins, inp.minimumTxVersion ≤ currentTransactionVersion)
    {l l' : InputTables} (h : allApply (addInput crypto height popping) ins l = (true, l')) :
    l'.currencies = l.currencies := by
  induction ins generalizing l with
  | nil =>
    obtain rfl : l = l' := by simpa using h
    rfl
  | cons inp ins ih =>
    obtain ⟨m, hm, hrest⟩ := allApply_cons_eq_true_iff.mp h
    obtain rfl : (addInput crypto height popping inp l).2 = m := by rw [hm]
    rw [ih (fun i hi => hversion i (by simp [hi])) hrest]
    exact currencies_addInput (hversion inp (by simp)) l

end InputTables

section Runs

variable {env : Env} {start l : Ledger} {txs : List Transaction}

theorem Applied.minimumTxVersion (h : Applied env start txs l) :
    ∀ tx ∈ txs, ∀ inp ∈ tx.vin, inp.minimumTxVersion ≤ currentTransactionVersion := by
  induction h with
  | start => exact fun _ htx => absurd htx List.not_mem_nil
  | transaction _ hvalid _ ih =>
    intro tx htx
    rcases List.mem_append.mp htx with htx | htx
    · exact ih tx htx
    · obtain rfl := List.mem_singleton.mp htx
      exact minimumTxVersion_of_validateTx hvalid

theorem Applied.totalOf_eq_zero (h : Applied env start txs l) {amount : TxIn → Nat}
    (hamount : ∀ inp, inp.minimumTxVersion ≤ currentTransactionVersion → amount inp = 0) :
    totalOf txs amount = 0 := by
  refine List.sum_eq_zero fun n hn => ?_
  obtain ⟨tx, htx, rfl⟩ := List.mem_map.mp hn
  refine List.sum_eq_zero fun n hn => ?_
  obtain ⟨inp, hinp, rfl⟩ := List.mem_map.mp hn
  exact hamount inp (h.minimumTxVersion tx htx inp hinp)

theorem Applied.currencies_eq (h : Applied env start txs l) : l.currencies = start.currencies := by
  induction h with
  | start => rfl
  | transaction _ hvalid hadded ih =>
    obtain ⟨l, hl, rfl⟩ := enterTransaction_eq_true (addTransactionFromBlock_eq_ok hadded)
    obtain ⟨tables, hrun, -, hl⟩ := Ledger.addTransactionFromBlock_eq_added hl
    rw [← ih, hl]
    exact InputTables.currencies_allApply (minimumTxVersion_of_validateTx hvalid) hrun

/-- Fusing, resolving and grading release no more coins of a currency from a contract than
were locked in it: nothing is released, since none of these inputs is accepted. -/
theorem releasedFrom_le_lockedIn (h : Applied env start txs l) (contract currency : UInt64) :
    releasedFrom txs contract currency ≤ lockedIn txs contract currency := by
  have hnone : releasedFrom txs contract currency = 0 := by
    refine h.totalOf_eq_zero fun inp hversion => ?_
    cases inp with
    | fuseBcCoins | resolveBcCoins | gradeContract => exact absurd hversion contract_above_current
    | _ => rfl
  rw [hnone]
  exact Nat.zero_le _

/-- One remint authorisation raises the minted total of its currency at most once: none is
ever used, and the table of currencies stays as it is. -/
theorem remintUses_le_one (h : Applied env start txs l) (a : TxinRemint) :
    remintUses a txs ≤ 1 ∧ l.currencies = start.currencies := by
  have hnone : remintUses a txs = 0 := by
    refine h.totalOf_eq_zero fun inp hversion => if_neg ?_
    rintro rfl
    exact currency_above_current hversion
  exact ⟨hnone ▸ Nat.zero_le 1, h.currencies_eq⟩

end Runs

/-- A reward that can be spent at once. -/
def sampleFreeReward : Transaction :=
  { sampleMinerTx 0 [⟨sampleReward, .toKey (Blob.ofNat 32 1)⟩] with unlockTime := 0 }

/-- The reward is spent, then what is left of it. -/
def sampleAppliedTxs : List Transaction :=
  [sampleFreeReward, sampleTx [.toKey (sampleInk sampleReward 100)] [sampleReward - 1000000000],
    sampleTx [.toKey (sampleInk (sampleReward - 1000000000) 101)] [sampleReward - 2000000000]]

/-- Add transactions one after the other, if each of them is valid. -/
def applyAll (env : Env) (isMinerTx : Bool) : Storage → List Transaction → Option Storage
  | s, [] => some s
  | s, tx :: txs =>
    if (s.validateTx env 0 tx isMinerTx).toOption = some true then
      match s.addTransactionFromBlock env tx (sampleTxId tx) with
      | .ok (true, s') => applyAll env false s' txs
      | _ => none
    else none

theorem applied_of_applyAll {env : Env} {isMinerTx : Bool} {start : Ledger}
    {before txs : List Transaction} {s s' : Storage} (h : Applied env start before s.ledger)
    (hall : applyAll env isMinerTx s txs = some s') :
    Applied env start (before ++ txs) s'.ledger := by
  induction txs generalizing before isMinerTx s with
  | nil =>
    obtain rfl := Option.some.inj hall
    rwa [List.append_nil]
  | cons tx txs ih =>
    rw [applyAll] at hall
    split_ifs at hall with hvalid
    split at hall
    · rename_i t hadded
      rw [List.append_cons]
      exact ih (.transaction h (eq_ok_of_toOption hvalid) hadded) hall
    · cases hall

theorem exists_applied_sampleAppliedTxs :
    ∃ l, Applied samplePowEnv Ledger.empty sampleAppliedTxs l := by
  have hall : (applyAll samplePowEnv true Storage.empty sampleAppliedTxs).isSome = true := by
    decide +kernel
  obtain ⟨s, hs⟩ := Option.isSome_iff_exists.mp hall
  exact ⟨s.ledger, applied_of_applyAll .start hs⟩

theorem releasedFrom_le_lockedIn_of_sampleAppliedTxs :
    ∃ l, Applied samplePowEnv Ledger.empty sampleAppliedTxs l ∧
      releasedFrom sampleAppliedTxs 300 301 ≤ lockedIn sampleAppliedTxs 300 301 := by
  obtain ⟨l, hl⟩ := exists_applied_sampleAppliedTxs
  exact ⟨l, hl, releasedFrom_le_lockedIn hl 300 301⟩

theorem remintUses_le_one_of_sampleAppliedTxs :
    ∃ l, Applied samplePowEnv Ledger.empty sampleAppliedTxs l ∧
      remintUses ⟨301, 10, Blob.ofNat 32 1, Blob.ofNat 64 0⟩ sampleAppliedTxs ≤ 1 ∧
      l.currencies = Ledger.empty.currencies := by
  obtain ⟨l, hl⟩ := exists_applied_sampleAppliedTxs
  exact ⟨l, hl, remintUses_le_one hl _⟩

end Pebblecoin
