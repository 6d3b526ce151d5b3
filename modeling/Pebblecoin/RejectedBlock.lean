import Pebblecoin.ConnectBlock

/-!
What remains of a block that the main chain refuses.
-/

namespace Pebblecoin

open Control

namespace Storage

variable {env : Env} {now : UInt64}

/-- Apart from the ledger and the pool the two states are the same. -/
def SameChain (s s' : Storage) : Prop :=
  s' = { s with ledger := s'.ledger, pool := s'.pool }

theorem SameChain.refl (s : Storage) : SameChain s s := rfl

theorem SameChain.trans {s s' s'' : Storage} (h : SameChain s s') (h' : SameChain s' s'') :
    SameChain s s'' := by
  unfold SameChain at h h' ⊢
  rw [h', h]

theorem SameButPool.sameChain {s s' : Storage} (h : SameButPool s s') : SameChain s s' := by
  unfold SameChain
  rw [h]

theorem purgeTransactions_sameChain (ids : List Hash) (s : Storage) :
    Returns (s.purgeTransactions env now ids) fun r => s.SameChain r.2 := by
  induction ids generalizing s with
  | nil => simp [purgeTransactions, SameChain.refl]
  | cons id ids ih =>
    rw [purgeTransactions]
    refine Returns.bind (purgeTransactionFromBlockchain_spec id s) fun r hr => ?_
    obtain ⟨-, pool, hr⟩ := hr
    refine Returns.bind (ih r.2) fun r' hr' => Returns.ok_iff.mpr ?_
    have hone : s.SameChain r.2 := by rw [hr]; rfl
    exact hone.trans hr'

theorem purgeBlockDataFromBlockchain_sameChain (bl : Block) (count : Nat) (s : Storage) :
    Returns (s.purgeBlockDataFromBlockchain env now bl count) fun r => s.SameChain r.2 := by
  unfold purgeBlockDataFromBlockchain
  split
  · simp [SameChain.refl]
  · exact purgeTransactions_sameChain _ s

@[simp] theorem addBlockAsInvalid_log (bent : BlockchainEntry) (bl : Block) (id : Hash)
    (s : Storage) : (s.addBlockAsInvalid bent bl id).2.log = s.log := by
  unfold addBlockAsInvalid
  split <;> rfl

theorem BlockTotals.advance_processed (totals : BlockTotals) (taken : List Taken) :
    (totals.advance taken).processed = totals.processed + taken.length := by
  induction taken generalizing totals with
  | nil => rfl
  | cons t taken ih =>
    have := ih ⟨totals.processed + 1, totals.feeSummary + t.1.fee,
      totals.cumulativeBlockSize + UInt64.ofNat t.1.blobSize⟩
    rw [List.length_cons, ← Nat.add_assoc, Nat.add_right_comm]
    exact this

/-- Some transactions of a block are connected, after its miner transaction. -/
structure PartlyConnected (env : Env) (bl : Block) (taken : List Taken) (s m : Storage) : Prop where
  coinbase : isCoinbase bl.minerTx.toTransactionPrefix = true
  sameChain : s.SameChain m
  ids : taken.map Prod.snd <+: bl.txHashes
  inPool : ∀ t ∈ taken, s.pool.transactions t.2 = some t.1
  pool : m.pool.transactions =
    fun k => if k ∈ taken.map Prod.snd then none else s.pool.transactions k
  connected : s.ledger.Connected env.crypto
    (minerRecord env bl s :: taken.map (Taken.record s.entries.length)) m.ledger
  vetted : m.Vetted

/-- The block itself fails, after its transactions. -/
inductive AppendFailed (env : Env) (now : UInt64) (bl : Block) (id : Hash) (count : Nat)
    (s : Storage) : HandleExit → Storage → Prop
  | wrongMiner {r : Bool × Storage}
      (hpurge : s.purgeBlockDataFromBlockchain env now bl count = .ok r) :
      AppendFailed env now bl id count s .wrongMinerTransaction r.2
  | indexed {r : Bool × Storage} (hindex : (s.blocksIndex id).isSome = true)
      (hpurge : purgeBlockDataFromBlockchain env now bl count
        { s with blocksByHash := Function.update s.blocksByHash id (some bl) } = .ok r) :
      AppendFailed env now bl id count s .alreadyInBlockIndexes r.2

section Refused

variable {bl : Block} {id : Hash} {s s' : Storage} {exit : HandleExit}

theorem enterTransaction_miner_eq_false {txId : Hash} {g : UInt64}
    (hvin : bl.minerTx.vin = [.gen g])
    (h : s.enterTransaction env bl.minerTx txId = (false, s')) : s' = s := by
  simp only [enterTransaction, Ledger.addTransactionFromBlock, hvin, allApply,
    InputTables.addInput] at h
  by_cases hexists : (s.ledger.transactions txId).isSome = true
  · rw [if_pos hexists] at h
    exact (Prod.mk.inj h).2.symm
  · rw [if_neg hexists] at h
    simp at h

theorem AppendFailed.log_eq {count : Nat}
    (h : AppendFailed env now bl id count s exit s') : s'.log = s.log := by
  cases h with
  | wrongMiner hpurge => rw [(purgeBlockDataFromBlockchain_sameChain ..).out _ hpurge]
  | indexed _ hpurge => rw [(purgeBlockDataFromBlockchain_sameChain ..).out _ hpurge]

theorem appendBlock_refused {totals : BlockTotals} {diffic : UInt64}
    (h : s.appendBlock env now bl id totals diffic = .ok (exit, s')) (hne : exit ≠ .added) :
    AppendFailed env now bl id totals.processed s exit s' := by
  obtain ⟨fee, -, h⟩ := bind_eq_ok_iff.mp h
  split at h
  · obtain ⟨r, hpurge, h⟩ := bind_eq_ok_iff.mp h
    obtain ⟨rfl, rfl⟩ := Prod.mk.inj (Except.ok.inj h)
    exact .wrongMiner hpurge
  dsimp only at h
  split at h
  · rename_i hindex
    obtain ⟨r, hpurge, h⟩ := bind_eq_ok_iff.mp h
    obtain ⟨rfl, rfl⟩ := Prod.mk.inj (Except.ok.inj h)
    exact .indexed hindex hpurge
  obtain ⟨t, -, h⟩ := bind_eq_ok_iff.mp h
  obtain ⟨⟨valid, u⟩, hu, h⟩ := bind_eq_ok_iff.mp h
  obtain ⟨rfl, -⟩ := Prod.mk.inj (recalculateTopDelegates_eq_ok hu).1
  exact absurd (Prod.mk.inj (Except.ok.inj h)).1.symm hne

/-- A refused block leaves no trace, or it fails with some of its transactions connected. -/
theorem handleBlockToMainChain_refused (hvetted : s.Vetted) (hpopping : s.poppingBlock = false)
    (h : s.handleBlockToMainChain env now bl id = .ok (exit, s')) (hne : exit ≠ .added) :
    s' = s ∨ ∃ taken m, PartlyConnected env bl taken s m ∧
      ((∃ txId, ConnectFailed env now bl id txId taken.length m exit s') ∨
        AppendFailed env now bl id taken.length m exit s') := by
  obtain ⟨header, hheader, h⟩ := reading_bind_eq_ok_iff.mp h
  cases header with
  | some exit' => exact Or.inl (Prod.mk.inj (Except.ok.inj h)).2.symm
  | none =>
    obtain ⟨-, -, -, -, -, hpre⟩ := checkBlockHeader_eq_none hheader
    obtain ⟨g, hvin, -⟩ := prevalidateMinerTransaction_vin hpre
    obtain ⟨valid, hvalid, h⟩ := reading_bind_eq_ok_iff.mp h
    split at h
    · exact Or.inl (Prod.mk.inj (Except.ok.inj h)).2.symm
    rename_i hvalid'
    obtain rfl : valid = true := by simpa using hvalid'
    obtain ⟨⟨added, s₁⟩, hadd, h⟩ := bind_eq_ok_iff.mp h
    have hadd := addTransactionFromBlock_eq_ok hadd
    cases added with
    | false =>
      obtain ⟨-, rfl⟩ := Prod.mk.inj (Except.ok.inj h)
      exact Or.inl (enterTransaction_miner_eq_false hvin hadd)
    | true =>
    obtain ⟨l₀, hl₀, rfl⟩ := enterTransaction_eq_true hadd
    rw [hpopping] at hl₀
    obtain ⟨⟨r, t⟩, hr, h⟩ := bind_eq_ok_iff.mp h
    obtain ⟨done, taken, m, hconn, hvetted', hend⟩ :=
      connectTransactions_cases (hvetted.addMiner hvin hl₀) hpopping hr
    have haddable : s.ledger.Addable bl.minerTx.toTransactionPrefix :=
      addable_of_validateTx (by simp [hvin, TxIn.engaged]) (by simp [hvin]) hvalid
    have hids := hconn.ids_eq
    subst hids
    have hpartly : taken.map Prod.snd <+: bl.txHashes → PartlyConnected env bl taken s m :=
      fun hprefix => ⟨by simp [isCoinbase, hvin], by rw [hconn.frame]; rfl, hprefix, hconn.inPool,
        hconn.pool, (Ledger.Connected.singleton haddable hl₀).append hconn.ledger, hvetted'⟩
    have hcount : (BlockTotals.advance ⟨0, 0, UInt64.ofNat
        (((serializeTransaction bl.minerTx).map (·.length)).getD 0)⟩ taken).processed =
          taken.length := by
      rw [BlockTotals.advance_processed, Nat.zero_add]
    rcases hend with ⟨hall, hr⟩ | ⟨txId, rest, exit', hsplit, rfl, hfailed⟩
    · obtain ⟨rfl, rfl⟩ := Prod.mk.inj hr
      refine Or.inr ⟨taken, t, hpartly (by rw [hall]), Or.inr ?_⟩
      rw [← hcount]
      exact appendBlock_refused h hne
    · obtain ⟨rfl, rfl⟩ := Prod.mk.inj (Except.ok.inj h)
      refine Or.inr ⟨taken, m, hpartly ⟨txId :: rest, hsplit.symm⟩, Or.inl ⟨txId, ?_⟩⟩
      rw [← hcount]
      exact hfailed

end Refused

/-- Where the body of a refused block is kept. -/
inductive StoredAs (bl : Block) (id : Hash) (exit : HandleExit) (s s' : Storage) : Prop
  | nowhere : s'.blocksByHash = s.blocksByHash →
      s'.invalidBlockEntries = s.invalidBlockEntries → StoredAs bl id exit s s'
  | invalid : exit = .wrongInputs → s.invalidBlockEntries id = none →
      s'.blocksByHash = Function.update s.blocksByHash id (some bl) →
      s'.invalidBlockEntries =
        Function.update s.invalidBlockEntries id (some (invalidEntry bl id)) →
      StoredAs bl id exit s s'
  | indexed : exit = .alreadyInBlockIndexes → (s.blocksIndex id).isSome = true →
      s'.blocksByHash = Function.update s.blocksByHash id (some bl) →
      s'.invalidBlockEntries = s.invalidBlockEntries → StoredAs bl id exit s s'

/-- The record is one of the block: its miner transaction or one from the pool. -/
def FromBlock (env : Env) (bl : Block) (s : Storage) (r : TxRecord) : Prop :=
  r.id = (getTransactionHash env.crypto bl.minerTx).getD nullHash ∧ r.tx = bl.minerTx ∨
    ∃ d, s.pool.transactions r.id = some d ∧ d.tx = r.tx

/-- A transaction of the pool passed the checks on top of some of the block's
transactions and was still not added, although no vote overflowed. -/
structure Stuck (env : Env) (now : UInt64) (bl : Block) (rs : List TxRecord) (l : Ledger)
    (txId : Hash) (d : TxDetails) (pool : TxMemoryPool) (s : Storage) : Prop where
  records : ∀ r ∈ rs, FromBlock env bl s r
  connected : s.ledger.Connected env.crypto rs l
  inPool : s.pool.transactions txId = some d
  valid : validateTx env now { s with ledger := l, pool := pool } d.tx false = .ok true
  notAdded : (l.addTransactionFromBlock env.crypto false d.tx txId s.entries.length).1 ≠ .added
  noOverflow : (l.addTransactionFromBlock env.crypto false d.tx txId s.entries.length).1 ≠
    .inputsFailed true

/-- What a refused block leaves behind.  A transaction that was checked but could
not be added is the only cause for a changed ledger. -/
structure Rejected (env : Env) (now : UInt64) (bl : Block) (id : Hash) (exit : HandleExit) (s s' : Storage) : Prop where
  stored : StoredAs bl id exit s s'
  frame : s' = { s with
    blocksByHash := s'.blocksByHash
    invalidBlockEntries := s'.invalidBlockEntries
    ledger := s'.ledger
    pool := s'.pool
    log := s'.log }
  ledger : exit ≠ .failedTransaction → s'.ledger = s.ledger
  log : s'.log = s.log ∨ exit = .failedTransaction ∧ s'.log = .applyVoteOverflow :: s.log
  stuck : s'.log = s.log → s'.ledger = s.ledger ∨
    ∃ rs l txId d pool, Stuck env now bl rs l txId d pool s

theorem Rejected.refl (bl : Block) (id : Hash) (exit : HandleExit) (s : Storage) :
    Rejected env now bl id exit s s :=
  ⟨.nowhere rfl rfl, rfl, fun _ => rfl, Or.inl rfl, fun _ => Or.inl rfl⟩

theorem Rejected.of_sameChain {bl : Block} {id : Hash} {exit : HandleExit} {s s' : Storage}
    (h : s.SameChain s') (hledger : s'.ledger = s.ledger) :
    Rejected env now bl id exit s s' := by
  refine ⟨.nowhere ?_ ?_, ?_, fun _ => hledger, Or.inl ?_, fun _ => Or.inl hledger⟩
  all_goals rw [h]

end Storage

theorem Ledger.Connected.unwinds (crypto : Crypto) (base : Ledger) :
    Storage.Unwinds (Ledger.Connected crypto base) :=
  fun h => h.purge_last

namespace Storage

section Transactions

variable {bl : Block} {id : Hash} {s m s' : Storage} {taken : List Taken}

theorem PartlyConnected.take_eq (h : PartlyConnected env bl taken s m) :
    bl.txHashes.take taken.length = taken.map Prod.snd := by
  rw [← List.length_map Prod.snd, ← List.prefix_iff_eq_take.mp h.ids]

theorem PartlyConnected.purge (h : PartlyConnected env bl taken s m) {u : Storage}
    (hledger : u.ledger = m.ledger) :
    Returns (u.purgeBlockDataFromBlockchain env now bl taken.length) fun r =>
      u.SameChain r.2 ∧ r.2.ledger = s.ledger := by
  have hids : (taken.map (Taken.record s.entries.length)).map (·.id) =
      bl.txHashes.take taken.length := by
    rw [h.take_eq, List.map_map]
    rfl
  have hcount : taken.length ≤ bl.txHashes.length := by simpa using h.ids.length_le
  refine (purgeBlockDataFromBlockchain_spec (Ledger.Connected.unwinds _ _) [] rfl hcount hids
    (hledger ▸ h.connected)).mono fun r hr => ?_
  obtain ⟨-, l, pool, hr, hl⟩ := hr
  obtain rfl := hl.eq_base
  rw [hr]
  exact ⟨rfl, rfl⟩

theorem addBlockAsInvalid_rejected (hsame : s.SameChain s') (hledger : s'.ledger = s.ledger) :
    Rejected env now bl id .wrongInputs s (s'.addBlockAsInvalid (invalidEntry bl id) bl id).2 := by
  unfold addBlockAsInvalid
  split
  · exact .of_sameChain hsame hledger
  · rename_i hnone
    have hinvalid : s'.invalidBlockEntries = s.invalidBlockEntries := by rw [hsame]
    have hblocks : s'.blocksByHash = s.blocksByHash := by rw [hsame]
    refine ⟨.invalid rfl ?_ ?_ ?_, ?_, fun _ => hledger, Or.inl (by rw [hsame]),
      fun _ => Or.inl hledger⟩
    · rw [← hinvalid]
      simpa using hnone
    · rw [← hblocks]
      rfl
    · rw [← hinvalid]
    · rw [hsame]

theorem enterTransaction_eq_false {tx : Transaction} {txId : Hash}
    (h : s.enterTransaction env tx txId = (false, s')) :
    s' = { s with ledger := s'.ledger, log := s'.log } ∧
      (s.ledger.addTransactionFromBlock env.crypto s.poppingBlock tx txId s.entries.length).1 ≠
        .added ∧
      (s'.log = s.log ∧ (s.ledger.addTransactionFromBlock env.crypto s.poppingBlock tx txId
          s.entries.length).1 ≠ .inputsFailed true ∨
        s'.log = .applyVoteOverflow :: s.log) := by
  unfold enterTransaction at h
  split at h
  · simp at h
  · rename_i hexit
    obtain ⟨-, rfl⟩ := Prod.mk.inj h
    exact ⟨rfl, by simp [hexit], Or.inr rfl⟩
  · rename_i exit ledger hadded hoverflow hexit
    obtain ⟨-, rfl⟩ := Prod.mk.inj h
    refine ⟨rfl, ?_, Or.inl ⟨rfl, ?_⟩⟩
    · rw [hexit]
      exact hadded
    · rw [hexit]
      exact hoverflow

theorem PartlyConnected.fromBlock (h : PartlyConnected env bl taken s m) :
    ∀ r ∈ minerRecord env bl s :: taken.map (Taken.record s.entries.length),
      FromBlock env bl s r := by
  intro r hr
  rcases List.mem_cons.mp hr with rfl | hr
  · exact Or.inl ⟨rfl, rfl⟩
  · obtain ⟨t, ht, rfl⟩ := List.mem_map.mp hr
    exact Or.inr ⟨t.1, h.inPool t ht, rfl⟩

theorem PartlyConnected.inPool_of_mem (h : PartlyConnected env bl taken s m) {txId : Hash}
    {d : TxDetails} (hd : m.pool.transactions txId = some d) :
    s.pool.transactions txId = some d := by
  simp only [h.pool] at hd
  split_ifs at hd
  exact hd

theorem PartlyConnected.rejected {exit : HandleExit} {txId : Hash}
    (h : PartlyConnected env bl taken s m) (hpopping : s.poppingBlock = false)
    (hfailed : ConnectFailed env now bl id txId taken.length m exit s') :
    Rejected env now bl id exit s s' := by
  have hsame := h.sameChain
  cases hfailed with
  | unknown _ hpurge =>
    obtain ⟨hpurged, hledger⟩ := (h.purge rfl).out _ hpurge
    exact .of_sameChain (hsame.trans hpurged) hledger
  | @wrongInputs d pool _ _ _ _ hreturn hpurge =>
    have hback := (returnToPool_sameButPool ..).out _ hreturn
    obtain ⟨hpurged, hledger⟩ := (h.purge (by rw [hback])).out _ hpurge
    have htaken : m.SameChain { m with pool := pool } := rfl
    exact addBlockAsInvalid_rejected
      (((hsame.trans htaken).trans hback.sameChain).trans hpurged) hledger
  | @failed d pool m₁ r r' htake hvalid hadd hreturn hpurge =>
    have hback := (returnToPool_sameButPool ..).out _ hreturn
    have hpurged := (purgeBlockDataFromBlockchain_sameChain ..).out _ hpurge
    obtain ⟨hframe, hnot, hlog⟩ := enterTransaction_eq_false hadd
    have hlog' : r'.2.log = m₁.log := by rw [hpurged, hback]
    have hlog₀ : m.log = s.log := by rw [hsame]
    refine ⟨.nowhere ?_ ?_, ?_, fun hne => absurd rfl hne, ?_, fun hquiet => Or.inr ?_⟩
    · rw [hpurged, hback, hframe, hsame]
    · rw [hpurged, hback, hframe, hsame]
    · rw [hpurged, hback, hframe, hsame]
    · rw [hlog', ← hlog₀]
      exact hlog.imp And.left fun h => ⟨rfl, h⟩
    · rw [hlog', ← hlog₀] at hquiet
      have hno := (hlog.resolve_right fun h => by simp [h] at hquiet).2
      have hpopping' : m.poppingBlock = false := by rw [hsame]; exact hpopping
      dsimp only at hnot hno
      rw [hpopping'] at hnot hno
      have hstate : { m with pool := pool } = { s with ledger := m.ledger, pool := pool } := by
        rw [hsame]
      have hentries : m.entries = s.entries := by rw [hsame]
      exact ⟨_, m.ledger, txId, d, pool, h.fromBlock, h.connected,
        h.inPool_of_mem (TxMemoryPool.takeTx_eq_some htake).1, hstate ▸ hvalid, hentries ▸ hnot,
        hentries ▸ hno⟩

theorem PartlyConnected.appendRejected {exit : HandleExit}
    (h : PartlyConnected env bl taken s m)
    (hfailed : AppendFailed env now bl id taken.length m exit s') :
    Rejected env now bl id exit s s' := by
  have hsame := h.sameChain
  cases hfailed with
  | wrongMiner hpurge =>
    obtain ⟨hpurged, hledger⟩ := (h.purge rfl).out _ hpurge
    exact .of_sameChain (hsame.trans hpurged) hledger
  | indexed hindex hpurge =>
    obtain ⟨hpurged, hledger⟩ :=
      (h.purge (u := { m with blocksByHash := Function.update m.blocksByHash id (some bl) })
        rfl).out _ hpurge
    refine ⟨.indexed rfl (by rw [hsame] at hindex; exact hindex) ?_ ?_, ?_, fun _ => hledger,
      Or.inl ?_, fun _ => Or.inl hledger⟩
    all_goals rw [hpurged, hsame]

end Transactions

theorem handleBlockToMainChain_rejected {s : Storage} (bl : Block) (id : Hash) (hvetted : s.Vetted)
    (hpopping : s.poppingBlock = false) :
    Returns (s.handleBlockToMainChain env now bl id) fun r =>
      r.1 ≠ .added → Rejected env now bl id r.1 s r.2 := by
  refine ⟨fun r hr hne => ?_⟩
  rcases handleBlockToMainChain_refused hvetted hpopping hr hne with
    hsame | ⟨taken, m, hpartly, ⟨txId, hfailed⟩ | hfailed⟩
  · rw [hsame]
    exact .refl ..
  · exact hpartly.rejected hpopping hfailed
  · exact hpartly.appendRejected hfailed

end Storage

end Pebblecoin
