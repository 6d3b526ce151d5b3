import Pebblecoin.ConnectBlock

/-!
Popping a block right after it was added.
-/

namespace Pebblecoin

open Containers Control

namespace Storage

variable {env : Env} {now now' : UInt64}

variable {s u : Storage} {tx : Transaction} {J : Prop}

def registers (tx : Transaction) : Prop :=
  ∃ r, TxIn.registerDelegate r ∈ tx.vin

/-- The fee to register a delegate can be computed. -/
def RegistrationFeeKnown (s : Storage) : Prop :=
  ∃ a, s.averagePastBlockFees s.registrationForHeight = .ok a

variable (env now) in
theorem checkTxInput_total (tx : Transaction) (i : Nat) {inp : TxIn}
    (h : (∃ r, inp = .registerDelegate r) → s.RegistrationFeeKnown) :
    ∃ b, s.checkTxInput env now tx i inp = .ok b := by
  cases inp with
  | registerDelegate r =>
    obtain ⟨a, ha⟩ := h ⟨r, rfl⟩
    simp only [checkTxInput, checkTxInRegisterDelegate, ha, ok_bind]
    split_ifs <;> exact ⟨_, rfl⟩
  | _ => exact ⟨_, rfl⟩

variable (env now) in
theorem checkTxInputsFrom_total (tx : Transaction) (i : Nat) {ins : List TxIn}
    (h : (∃ r, TxIn.registerDelegate r ∈ ins) → s.RegistrationFeeKnown) :
    ∃ b, s.checkTxInputsFrom env now tx i ins = .ok b := by
  induction ins generalizing i with
  | nil => exact ⟨true, rfl⟩
  | cons inp ins ih =>
    obtain ⟨b, hb⟩ : ∃ b, s.checkTxInput env now tx i inp = .ok b :=
      checkTxInput_total env now tx i fun ⟨r, hr⟩ => h ⟨r, by simp [hr]⟩
    obtain ⟨b', hb'⟩ := ih (i + 1) fun ⟨r, hr⟩ => h ⟨r, by simp [hr]⟩
    rw [checkTxInputsFrom, hb, ok_bind]
    cases b with
    | false => exact ⟨false, rfl⟩
    | true => exact ⟨b', by simpa using hb'⟩

variable (env now) in
theorem validateTx_total (isMinerTx : Bool) (hser : tx.serializable = true)
    (h : registers tx → s.RegistrationFeeKnown) :
    ∃ b, s.validateTx env now tx isMinerTx = .ok b := by
  obtain ⟨b, hb⟩ := checkTxInputsFrom_total env now tx 0 h
  simp only [validateTx, checkTxInputs, getTransactionPrefixHash, serializePrefix, hser, if_true,
    Option.map_some]
  split
  · exact ⟨false, rfl⟩
  · rw [hb, ok_bind]
    cases b with
    | false => exact ⟨false, rfl⟩
    | true => exact ⟨checkTxOutputs tx, rfl⟩

theorem averagePastBlockFees_of_validateTx {isMinerTx : Bool}
    (h : s.validateTx env now tx isMinerTx = .ok true) (hreg : registers tx) :
    s.RegistrationFeeKnown := by
  obtain ⟨r, hr⟩ := hreg
  obtain ⟨i, hi⟩ := checkTxInputsFrom_eq_true (validateTx_eq_true h) _ hr
  simp only [checkTxInput, checkTxInRegisterDelegate] at hi
  split_ifs at hi
  all_goals try simp at hi
  obtain ⟨a, ha, -⟩ := bind_eq_ok_iff.mp hi
  exact ⟨a, ha⟩

/-- The pool after a transaction came back; one that is there already stays. -/
def poolWith (tx : Transaction) (id : Hash) (blobSize : Nat) (transactions : Hash → Option TxDetails) :
    Hash → Option TxDetails :=
  if (transactions id).isSome then transactions
  else Function.update transactions id (some ⟨tx, blobSize, tx.getTxFee, true⟩)

variable (env now) in
theorem returnToPool_total (htx : tx.Semantic) (h : registers tx → s.RegistrationFeeKnown) :
    ∃ added s' blob, serializeTransaction tx = some blob ∧
      s.returnToPool env now tx = .ok (added, s') ∧ s.SameButPool s' ∧
      s'.pool.transactions =
        poolWith tx (env.crypto.cnFastHash blob) blob.length s.pool.transactions := by
  obtain ⟨blob, hblob⟩ := Option.isSome_iff_exists.mp htx.serializes
  obtain ⟨fee, hfee⟩ := Option.isSome_iff_exists.mp htx.balanced
  obtain ⟨valid, hvalid⟩ := validateTx_total env now false (serializable_of_isSome htx.serializes) h
  have hget : tx.getTxFee = fee := by rw [TransactionPrefix.getTxFee, hfee]; rfl
  set id := env.crypto.cnFastHash blob
  set memory := s.entryMemory env now tx valid with hmemory
  have hadd : s.poolAddTx env now tx id blob.length true =
      if s.pool.haveTx id then .ok (false, ⟨false, false, false, false⟩, s)
      else .ok ((insertIntoPool tx id blob.length fee true memory s).1,
        ⟨valid && decide (defaultFee ≤ fee),
          !(insertIntoPool tx id blob.length fee true memory s).1, !valid, true⟩,
        (insertIntoPool tx id blob.length fee true memory s).2) := by
    simp [poolAddTx, htx.inputs, htx.outputs, hfee, hvalid, hmemory]
  by_cases hhave : s.pool.haveTx id = true
  · refine ⟨false, s, blob, hblob, ?_, .refl s, ?_⟩
    · simp only [returnToPool, hblob]
      rw [hadd, if_pos hhave]
      rfl
    · exact (if_pos hhave).symm
  · refine ⟨(insertIntoPool tx id blob.length fee true memory s).1,
      (insertIntoPool tx id blob.length fee true memory s).2, blob, hblob, ?_, ?_, ?_⟩
    · simp only [returnToPool, hblob]
      rw [hadd, if_neg hhave]
      rfl
    · rfl
    · rw [insertIntoPool_transactions, ← hget]
      exact (if_neg hhave).symm

/-- A later state that pops the block after the last one of an earlier state. -/
structure PopsAfter (s u : Storage) : Prop where
  entries : u.entries.take s.entries.length = s.entries
  length : u.entries.length = s.entries.length + 1
  popping : u.poppingBlock = true
  bodies : KeepsBodies s.entries s u

theorem PopsAfter.registrationFeeKnown (h : PopsAfter s u) (hpopping : s.poppingBlock = false)
    (hfee : s.RegistrationFeeKnown) (htxs : s.KeepsTransactions u) : u.RegistrationFeeKnown := by
  obtain ⟨a, ha⟩ := hfee
  have hheight : s.registrationForHeight = s.entries.length := by
    simp [registrationForHeight, hpopping]
  have hheight' : u.registrationForHeight = s.entries.length := by
    simp [registrationForHeight, h.popping, h.length]
  refine ⟨a, ?_⟩
  rw [hheight] at ha
  rw [hheight']
  refine averagePastBlockFees_mono ?_ ?_ htxs ha
  · rw [h.entries, List.take_length]
  · rw [List.take_length]
    exact h.bodies

variable (now') in
theorem purgeTransactionFromBlockchain_added {txId : Hash} {l : Ledger} (htx : tx.Semantic)
    (haddable : s.ledger.Addable tx.toTransactionPrefix)
    (hadd : s.ledger.addTransactionFromBlock env.crypto false tx txId s.entries.length = (.added, l))
    (hfee : registers tx → s.RegistrationFeeKnown) (hpopping : s.poppingBlock = false)
    (hpops : PopsAfter s u) (hext : l.Extends J u.ledger) :
    ∃ m pool blob, serializeTransaction tx = some blob ∧
      u.purgeTransactionFromBlockchain env now' txId =
        .ok (true, { u with ledger := m, pool := pool }) ∧ s.ledger.Extends J m ∧
      u.ledger.delegates.Shrinks m.delegates ∧
      pool.transactions =
        poolWith tx (env.crypto.cnFastHash blob) blob.length u.pool.transactions := by
  obtain ⟨tables, -, hnone, hl⟩ := Ledger.addTransactionFromBlock_eq_added hadd
  have hkeeps : ∀ k e, s.ledger.transactions k = some e → u.ledger.transactions k = some e := by
    intro k e he
    rw [hext.transactions, hl]
    have hne : k ≠ txId := by
      rintro rfl
      rw [hnone] at he
      cases he
    exact (Function.update_of_ne hne _ _).trans he
  obtain ⟨m, entry, hentry', rfl, hm, hsm, hshrinks⟩ :=
    Ledger.purgeTransaction_added haddable hadd hext
  -- the two stages of the removal, with the pool between them
  simp only [Ledger.purgeTransaction, hentry'] at hm
  cases hdata : u.ledger.purgeTransactionData entry.tx.toTransactionPrefix true with
  | mk r ledger =>
    have htransactions : ledger.transactions = u.ledger.transactions := by
      rw [← (Prod.mk.inj hdata).2]
    have houtputs : ledger.outputs = u.ledger.outputs := by
      rw [← (Prod.mk.inj hdata).2]
    rw [hdata] at hm
    cases r with
    | false => simp at hm
    | true =>
      obtain ⟨hpop, rfl⟩ := Prod.mk.inj hm
      obtain ⟨added, v, blob, hblob, hreturn, hsame, hpool⟩ :=
        returnToPool_total env now' htx (s := { u with ledger := ledger })
          fun hreg => PopsAfter.registrationFeeKnown
            ⟨hpops.entries, hpops.length, hpops.popping, hpops.bodies⟩ hpopping (hfee hreg)
            (fun k e he => by rw [htransactions]; exact hkeeps k e he)
      refine ⟨_, v.pool, blob, hblob, ?_, hsm, hshrinks, hpool⟩
      simp only [purgeTransactionFromBlockchain, hentry', hdata, not_isCoinbase_of_supported htx.inputs,
        Bool.false_eq_true, if_false, hreturn]
      rw [hsame]
      simp only [Functor.map, Except.map, ok_bind]
      rw [hpop]

theorem purgeTransactions_append {ids : List Hash} {id : Hash} {r r' : Bool} {v w : Storage}
    (h : u.purgeTransactions env now ids = .ok (r, v))
    (h' : v.purgeTransactionFromBlockchain env now id = .ok (r', w)) :
    u.purgeTransactions env now (ids ++ [id]) = .ok (r && r', w) := by
  induction ids generalizing u r with
  | nil =>
    obtain ⟨rfl, rfl⟩ : r = true ∧ u = v := by simpa [purgeTransactions, eq_comm] using h
    simp [purgeTransactions, h']
  | cons k ids ih =>
    rw [purgeTransactions] at h
    obtain ⟨⟨a, x⟩, hx, h⟩ := bind_eq_ok_iff.mp h
    obtain ⟨⟨b, y⟩, hy, h⟩ := bind_eq_ok_iff.mp h
    obtain ⟨rfl, rfl⟩ := Prod.mk.inj (Except.ok.inj h)
    simp only [List.cons_append, purgeTransactions, hx, ok_bind, ih hy, Bool.and_assoc]

/-- Every pool transaction is filed under its own hash. -/
def CanonicalPool (env : Env) (s : Storage) : Prop :=
  ∀ id d, s.pool.transactions id = some d → getTransactionHash env.crypto d.tx = some id

/-- What has come back to the pool: the transactions that `s` has under these ids. -/
structure CameBack (ids : List Hash) (s : Storage) (before after : Hash → Option TxDetails) :
    Prop where
  others : ∀ k, k ∉ ids → after k = before k
  back : ∀ k ∈ ids, before k = none →
    ∃ d d', s.pool.transactions k = some d ∧ after k = some d' ∧ d'.tx = d.tx

variable (now') in
theorem purgeTransactions_connected {bl : Block} {id : Hash} {ids : List Hash}
    {totals totals' : BlockTotals} {s' : Storage} (hvetted : s.Vetted)
    (hpopping : s.poppingBlock = false)
    (h : s.connectTransactions env now bl id ids totals = .ok (.ok totals', s'))
    (hpops : PopsAfter s u) (hext : s'.ledger.Extends J u.ledger) :
    ∃ m pool, u.purgeTransactions env now' ids.reverse =
        .ok (true, { u with ledger := m, pool := pool }) ∧ s.ledger.Extends J m ∧
      u.ledger.delegates.Shrinks m.delegates ∧
      (CanonicalPool env s → CameBack ids s u.pool.transactions pool.transactions) := by
  induction ids generalizing s totals with
  | nil =>
    obtain ⟨-, rfl⟩ : totals = totals' ∧ s = s' := by simpa [connectTransactions] using h
    exact ⟨u.ledger, u.pool, rfl, hext, .refl _, fun _ => ⟨fun _ _ => rfl, by simp⟩⟩
  | cons txId ids ih =>
    obtain ⟨taken, hconn, -⟩ := connectTransactions_ok hvetted hpopping h
    obtain ⟨hnot, -⟩ := List.nodup_cons.mp hconn.nodup
    obtain ⟨d, m₁, hone, hrest⟩ :=
      (connectTransactions_cons h).resolve_left (by rintro ⟨_, hexit, _⟩; cases hexit)
    have hsemantic := hvetted.semantic hone.inPool
    have hframe := hone.frame
    have hentries : m₁.entries = s.entries := by rw [hframe]
    have hpops₁ : PopsAfter m₁ u := by
      refine ⟨by rw [hentries]; exact hpops.entries, by rw [hentries]; exact hpops.length,
        hpops.popping, ?_⟩
      rw [hframe]
      exact hpops.bodies
    obtain ⟨m, pool, hpurge, hlm, hshrinks, hback⟩ := ih (hone.allTxs hvetted)
      (by rw [hframe]; exact hpopping) hrest hpops₁
    have hadd := hone.added
    rw [hpopping] at hadd
    obtain ⟨m', pool', blob, hblob, hpurge', hsm, hshrinks', hpool⟩ :=
      purgeTransactionFromBlockchain_added now' (s := { s with pool := m₁.pool })
        (u := { u with ledger := m, pool := pool }) hsemantic (hone.addable hvetted) hadd
        (averagePastBlockFees_of_validateTx hone.valid) hpopping
        ⟨hpops.entries, hpops.length, hpops.popping, hpops.bodies⟩ hlm
    refine ⟨m', pool', ?_, hsm, hshrinks.trans hshrinks', fun hcanonical => ?_⟩
    · rw [List.reverse_cons]
      exact purgeTransactions_append hpurge hpurge'
    have hid : env.crypto.cnFastHash blob = txId := by
      have := hcanonical txId d hone.inPool
      rw [getTransactionHash, hblob] at this
      exact Option.some.inj this
    have hback : CameBack ids m₁ u.pool.transactions pool.transactions := by
      refine hback fun k e he => ?_
      rw [hone.pool, Function.update_apply] at he
      split_ifs at he
      exact hcanonical k e he
    rw [hid] at hpool
    constructor
    · intro k hk
      rw [List.mem_cons, not_or] at hk
      rw [hpool, poolWith, ← hback.others k hk.2]
      split_ifs
      · rfl
      · exact Function.update_of_ne hk.1 _ _
    · intro k hk hnone
      rcases List.mem_cons.mp hk with rfl | hk
      · have hgone : pool.transactions k = none := by rw [hback.others k hnot, hnone]
        refine ⟨d, ⟨d.tx, blob.length, d.tx.getTxFee, true⟩, hone.inPool, ?_, rfl⟩
        rw [hpool, poolWith, if_neg (by simp [hgone]), Function.update_self]
      · have hne : k ≠ txId := fun heq => hnot (heq ▸ hk)
        obtain ⟨e, e', he, he', htx⟩ := hback.back k hk hnone
        refine ⟨e, e', ?_, ?_, htx⟩
        · rwa [hone.pool, Function.update_of_ne hne] at he
        · rw [hpool, poolWith]
          split_ifs
          · exact he'
          · rw [Function.update_of_ne hne]
            exact he'

variable (now') in
theorem purgeTransactionFromBlockchain_miner {bl : Block} {txId : Hash} {g : UInt64} {height : Nat}
    {l : Ledger} (hvin : bl.minerTx.vin = [.gen g])
    (hadd : s.ledger.addTransactionFromBlock env.crypto false bl.minerTx txId height = (.added, l))
    (hext : l.Extends J u.ledger) :
    ∃ m, u.purgeTransactionFromBlockchain env now' txId = .ok (true, { u with ledger := m }) ∧
      s.ledger.Extends J m ∧ u.ledger.delegates.Shrinks m.delegates := by
  have haddable : s.ledger.Addable bl.minerTx.toTransactionPrefix :=
    ⟨by simp [hvin], by simp [hvin, InputTables.Checked, TxIn.engaged],
      by simp [hvin, InputTables.Fresh]⟩
  obtain ⟨m, entry, hentry, htx, hm, hsm, hshrinks⟩ :=
    Ledger.purgeTransaction_added haddable hadd hext
  refine ⟨m, ?_, hsm, hshrinks⟩
  have hcoinbase : isCoinbase entry.tx.toTransactionPrefix = true := by simp [htx, isCoinbase, hvin]
  simp only [Ledger.purgeTransaction, hentry] at hm
  simp only [purgeTransactionFromBlockchain, hentry, hcoinbase, if_true]
  cases hdata : u.ledger.purgeTransactionData entry.tx.toTransactionPrefix true with
  | mk r ledger =>
    rw [hdata] at hm
    cases r with
    | false => simp at hm
    | true =>
      obtain ⟨hpop, rfl⟩ := Prod.mk.inj hm
      simp [hpop]

end Storage

end Pebblecoin
