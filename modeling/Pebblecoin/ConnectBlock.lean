import Pebblecoin.PastFees
import Pebblecoin.Vetted

/-!
What has happened when a block was connected.
-/

namespace Pebblecoin

open Containers Control

variable {tx : Transaction} {m s s' : Storage} {id txId : Hash} {crypto : Crypto} {l : Ledger}
  {ids : List Hash} {d : TxDetails} {bl : Block} {totals : BlockTotals}

namespace Storage

variable {env : Env} {now : UInt64}

theorem checkTxInputsFrom_getElem? {ins : List TxIn} {i : Nat}
    (h : s.checkTxInputsFrom env now tx i ins = .ok true) :
    ∀ k inp, ins[k]? = some inp → s.checkTxInput env now tx (i + k) inp = .ok true := by
  induction ins generalizing i with
  | nil => simp
  | cons inp ins ih =>
    rw [checkTxInputsFrom] at h
    obtain ⟨r, hr, hrest⟩ := bind_eq_ok_iff.mp h
    cases r with
    | false => simp at hrest
    | true =>
      intro k inp' hinp'
      cases k with
      | zero =>
        obtain rfl := Option.some.inj hinp'
        exact hr
      | succ k =>
        have := ih (by simpa using hrest) k inp' (by simpa using hinp')
        rwa [Nat.add_assoc, Nat.add_comm 1] at this

theorem checkTxInputsFrom_eq_true {ins : List TxIn} {i : Nat}
    (h : s.checkTxInputsFrom env now tx i ins = .ok true) :
    ∀ inp ∈ ins, ∃ j, s.checkTxInput env now tx j inp = .ok true := by
  intro inp hinp
  obtain ⟨k, hk⟩ := List.mem_iff_getElem?.mp hinp
  exact ⟨i + k, checkTxInputsFrom_getElem? h k inp hk⟩

theorem checkTxInputs_eq_true (h : s.checkTxInputs env now tx = .ok true) :
    tx.serializable = true ∧ s.checkTxInputsFrom env now tx 0 tx.vin = .ok true := by
  unfold checkTxInputs getTransactionPrefixHash serializePrefix at h
  by_cases hser : tx.serializable = true
  · exact ⟨hser, by simpa [hser] using h⟩
  · simp [hser] at h

theorem validateTx_checked {isMinerTx : Bool} (h : s.validateTx env now tx isMinerTx = .ok true) :
    tx.serializable = true ∧ s.checkTxInputsFrom env now tx 0 tx.vin = .ok true := by
  unfold validateTx at h
  split at h
  · simp at h
  · obtain ⟨r, hr, hrest⟩ := bind_eq_ok_iff.mp h
    cases r with
    | false => simp at hrest
    | true => exact checkTxInputs_eq_true hr

theorem validateTx_eq_true {isMinerTx : Bool} (h : s.validateTx env now tx isMinerTx = .ok true) :
    s.checkTxInputsFrom env now tx 0 tx.vin = .ok true :=
  (validateTx_checked h).2

theorem fresh_of_checkTxInput {i : Nat} {inp : TxIn}
    (h : s.checkTxInput env now tx i inp = .ok true) :
    InputTables.Fresh inp s.ledger.toInputTables := by
  cases inp with
  | toKey inp =>
    have h : s.checkTxInToKey env now tx i inp = true := by simpa [checkTxInput] using h
    simp only [checkTxInToKey, Bool.and_eq_true] at h
    simpa [InputTables.Fresh] using h.1.2
  | vote inp =>
    have h : s.checkTxInVote env now tx i inp = true := by simpa [checkTxInput] using h
    simp only [checkTxInVote, Bool.and_eq_true] at h
    simpa [InputTables.Fresh] using h.1.1.1.2
  | registerDelegate inp =>
    have h : s.checkTxInRegisterDelegate env inp = .ok true := h
    unfold checkTxInRegisterDelegate at h
    split_ifs at h with _ _ hid haddress
    all_goals try simp at h
    refine ⟨by simpa using hid, fun k info hinfo heq => haddress ?_⟩
    exact List.any_eq_true.mpr ⟨(k, info), OrdMap.mem_toList.mpr hinfo, by simpa using heq⟩
  | _ => trivial

theorem addable_of_validateTx {isMinerTx : Bool} (hengaged : ∀ inp ∈ tx.vin, inp.engaged = true)
    (hdisjoint : tx.vin.Pairwise TxIn.Disjoint) (h : s.validateTx env now tx isMinerTx = .ok true) :
    s.ledger.Addable tx.toTransactionPrefix := by
  refine ⟨hdisjoint, fun inp hinp => ⟨hengaged inp hinp, ?_⟩, fun inp hinp => ?_⟩
  rotate_left
  · obtain ⟨i, hi⟩ := checkTxInputsFrom_eq_true (validateTx_eq_true h) _ hinp
    exact fresh_of_checkTxInput hi
  rintro v rfl
  obtain ⟨i, hi⟩ := checkTxInputsFrom_eq_true (validateTx_eq_true h) _ hinp
  have hvote : s.checkTxInVote env now tx i v = true := by
    simpa [checkTxInput] using hi
  simp only [checkTxInVote, Bool.and_eq_true, decide_eq_true_eq, List.all_eq_true] at hvote
  obtain ⟨⟨⟨-, hseq⟩, hvotes⟩, -⟩ := hvote
  refine ⟨hseq, fun id hid => ?_⟩
  have := hvotes id hid
  split at this
  · simp at this
  · rename_i info hinfo
    exact Delegates.contains_iff.mpr ⟨info, hinfo⟩

theorem enterTransaction_eq_true (h : s.enterTransaction env tx txId = (true, s')) :
    ∃ l, s.ledger.addTransactionFromBlock env.crypto s.poppingBlock tx txId s.entries.length =
        (.added, l) ∧ s' = { s with ledger := l } := by
  unfold enterTransaction at h
  split at h
  · rename_i l hl
    exact ⟨l, hl, by simpa using h.symm⟩
  · simp at h
  · simp at h

theorem addTransactionFromBlock_eq_ok {r : Bool × Storage}
    (h : s.addTransactionFromBlock env tx txId = .ok r) : s.enterTransaction env tx txId = r := by
  unfold addTransactionFromBlock at h
  split at h
  · cases h
  · exact Except.ok.inj h

/-- A transaction taken from the pool, with its id. -/
abbrev Taken := TxDetails × Hash

def Taken.record (height : Nat) (t : Taken) : TxRecord := ⟨t.1.tx, t.2, height⟩

def BlockTotals.advance (totals : BlockTotals) (taken : List Taken) : BlockTotals :=
  taken.foldl (fun totals t =>
    ⟨totals.processed + 1, totals.feeSummary + t.1.fee,
      totals.cumulativeBlockSize + UInt64.ofNat t.1.blobSize⟩) totals

/-- What connecting all transactions of a list has done. -/
structure TransactionsConnected (crypto : Crypto) (ids : List Hash) (taken : List Taken)
    (s s' : Storage) : Prop where
  ids_eq : taken.map Prod.snd = ids
  inPool : ∀ t ∈ taken, s.pool.transactions t.2 = some t.1
  nodup : ids.Nodup
  pool : s'.pool.transactions = fun id => if id ∈ ids then none else s.pool.transactions id
  ledger : s.ledger.Connected crypto (taken.map (Taken.record s.entries.length)) s'.ledger
  frame : s' = { s with ledger := s'.ledger, pool := s'.pool }

end Storage

theorem Ledger.Connected.append {base l' : Ledger} {rs rs' : List TxRecord}
    (h : base.Connected crypto rs l) (h' : l.Connected crypto rs' l') :
    base.Connected crypto (rs ++ rs') l' := by
  induction h' with
  | nil => simpa using h
  | add _ haddable hadd ih =>
    rw [← List.append_assoc]
    exact .add ih haddable hadd

theorem Ledger.Connected.singleton {l' : Ledger} {r : TxRecord}
    (haddable : l.Addable r.tx.toTransactionPrefix)
    (hadd : l.addTransactionFromBlock crypto false r.tx r.id r.height = (.added, l')) :
    l.Connected crypto [r] l' :=
  .add .nil haddable hadd

namespace Storage

variable {env : Env} {now : UInt64}

theorem TransactionsConnected.nil (crypto : Crypto) (s : Storage) :
    TransactionsConnected crypto [] [] s s :=
  ⟨rfl, by simp, List.nodup_nil, by simp, .nil, rfl⟩

theorem TransactionsConnected.cons {taken : List Taken} (hpool : s.pool.transactions id = some d)
    (hm : m.pool.transactions = Function.update s.pool.transactions id none)
    (hframe : m = { s with ledger := m.ledger, pool := m.pool })
    (hone : s.ledger.Connected crypto [⟨d.tx, id, s.entries.length⟩] m.ledger)
    (h : TransactionsConnected crypto ids taken m s') :
    TransactionsConnected crypto (id :: ids) ((d, id) :: taken) s s' := by
  have hentries : m.entries = s.entries := by rw [hframe]
  have hmem : ∀ t ∈ taken, t.2 ∈ ids := by
    intro t ht
    rw [← h.ids_eq]
    exact List.mem_map_of_mem ht
  -- the first transaction is no longer in the pool, so it cannot be taken again
  have hnot : id ∉ ids := by
    intro hid
    rw [← h.ids_eq] at hid
    obtain ⟨t, ht, rfl⟩ := List.mem_map.mp hid
    have := h.inPool t ht
    rw [hm, Function.update_self] at this
    cases this
  refine ⟨by simp [h.ids_eq], ?_, List.nodup_cons.mpr ⟨hnot, h.nodup⟩, ?_, ?_, ?_⟩
  · intro t ht
    rcases List.mem_cons.mp ht with rfl | ht
    · exact hpool
    · have hin := h.inPool t ht
      have hne : t.2 ≠ id := fun heq => hnot (heq ▸ hmem t ht)
      rwa [hm, Function.update_of_ne hne] at hin
  · rw [h.pool, hm]
    funext k
    by_cases hk : k = id
    · simp [hk, hnot]
    · simp [hk]
  · have := hone.append h.ledger
    rwa [hentries] at this
  · rw [h.frame, hframe]

/-- One transaction was taken from the pool, checked and added. -/
structure TransactionConnected (env : Env) (now : UInt64) (txId : Hash) (d : TxDetails)
    (s m : Storage) : Prop where
  inPool : s.pool.transactions txId = some d
  pool : m.pool.transactions = Function.update s.pool.transactions txId none
  taken : s.pool.takeTx env.crypto txId = some (d, m.pool)
  valid : validateTx env now { s with pool := m.pool } d.tx false = .ok true
  entered : enterTransaction env d.tx txId { s with pool := m.pool } = (true, m)
  added : s.ledger.addTransactionFromBlock env.crypto s.poppingBlock d.tx txId s.entries.length =
    (.added, m.ledger)
  frame : m = { s with ledger := m.ledger, pool := m.pool }

/-- The next transaction of a block fails; what is connected of the block is taken back. -/
inductive ConnectFailed (env : Env) (now : UInt64) (bl : Block) (id txId : Hash) (count : Nat)
    (s : Storage) : HandleExit → Storage → Prop
  | unknown {r : Bool × Storage} (htake : s.pool.takeTx env.crypto txId = none)
      (hpurge : s.purgeBlockDataFromBlockchain env now bl count = .ok r) :
      ConnectFailed env now bl id txId count s .unknownTransaction r.2
  | wrongInputs {d : TxDetails} {pool : TxMemoryPool} {r r' : Bool × Storage}
      (htake : s.pool.takeTx env.crypto txId = some (d, pool))
      (hvalid : validateTx env now { s with pool := pool } d.tx false = .ok false)
      (hreturn : returnToPool env now d.tx { s with pool := pool } = .ok r)
      (hpurge : r.2.purgeBlockDataFromBlockchain env now bl count = .ok r') :
      ConnectFailed env now bl id txId count s .wrongInputs
        (r'.2.addBlockAsInvalid (invalidEntry bl id) bl id).2
  | failed {d : TxDetails} {pool : TxMemoryPool} {m : Storage} {r r' : Bool × Storage}
      (htake : s.pool.takeTx env.crypto txId = some (d, pool))
      (hvalid : validateTx env now { s with pool := pool } d.tx false = .ok true)
      (hadd : enterTransaction env d.tx txId { s with pool := pool } = (false, m))
      (hreturn : m.returnToPool env now d.tx = .ok r)
      (hpurge : r.2.purgeBlockDataFromBlockchain env now bl count = .ok r') :
      ConnectFailed env now bl id txId count s .failedTransaction r'.2

theorem connectTransactions_cons {r : Except HandleExit BlockTotals × Storage}
    (h : s.connectTransactions env now bl id (txId :: ids) totals = .ok r) :
    (∃ exit, r.1 = .error exit ∧ ConnectFailed env now bl id txId totals.processed s exit r.2) ∨
      ∃ d m, TransactionConnected env now txId d s m ∧
        m.connectTransactions env now bl id ids
          ⟨totals.processed + 1, totals.feeSummary + d.fee,
            totals.cumulativeBlockSize + UInt64.ofNat d.blobSize⟩ = .ok r := by
  rw [connectTransactions] at h
  split at h
  · rename_i htake
    obtain ⟨p, hpurge, h⟩ := bind_eq_ok_iff.mp h
    obtain rfl := Except.ok.inj h
    exact Or.inl ⟨_, rfl, .unknown htake hpurge⟩
  rename_i d pool htake
  obtain ⟨hd, hpool⟩ := TxMemoryPool.takeTx_eq_some htake
  obtain ⟨valid, hvalid, h⟩ := reading_bind_eq_ok_iff.mp h
  cases valid with
  | false =>
    obtain ⟨p, hreturn, h⟩ := bind_eq_ok_iff.mp h
    obtain ⟨p', hpurge, h⟩ := bind_eq_ok_iff.mp h
    obtain rfl := Except.ok.inj h
    exact Or.inl ⟨_, rfl, .wrongInputs htake hvalid hreturn hpurge⟩
  | true =>
    simp only [Bool.not_true, Bool.false_eq_true, if_false] at h
    obtain ⟨⟨added, m⟩, hadd, h⟩ := bind_eq_ok_iff.mp h
    have hadd := addTransactionFromBlock_eq_ok hadd
    cases added with
    | false =>
      obtain ⟨p, hreturn, h⟩ := bind_eq_ok_iff.mp h
      obtain ⟨p', hpurge, h⟩ := bind_eq_ok_iff.mp h
      obtain rfl := Except.ok.inj h
      exact Or.inl ⟨_, rfl, .failed htake hvalid hadd hreturn hpurge⟩
    | true =>
      obtain ⟨l, hl, rfl⟩ := enterTransaction_eq_true hadd
      exact Or.inr ⟨d, _, ⟨hd, hpool, htake, hvalid, hadd, hl, rfl⟩, h⟩

theorem TransactionConnected.addable (h : TransactionConnected env now txId d s m)
    (hvetted : s.Vetted) : s.ledger.Addable d.tx.toTransactionPrefix := by
  have hsemantic := hvetted.semantic h.inPool
  have := addable_of_validateTx hsemantic.engaged hsemantic.disjoint h.valid
  exact this

theorem TransactionConnected.allTxs {V : Hash → Transaction → Prop}
    (h : TransactionConnected env now txId d s m) (hs : s.AllTxs V) : m.AllTxs V := by
  obtain ⟨_, -, -, hl⟩ := Ledger.addTransactionFromBlock_eq_added h.added
  refine ⟨fun k e he => ?_, fun k e he => ?_⟩
  · rw [h.pool, Function.update_apply] at he
    split_ifs at he
    exact hs.pool k e he
  · simp only [hl, Function.update_apply] at he
    split_ifs at he with hk
    · cases he
      exact hk ▸ (hs.pool txId d h.inPool).1
    · exact hs.chain k e he

/-- The transactions are connected up to the first that fails. -/
theorem connectTransactions_cases {r : Except HandleExit BlockTotals × Storage}
    (hvetted : s.Vetted) (hpopping : s.poppingBlock = false)
    (h : s.connectTransactions env now bl id ids totals = .ok r) :
    ∃ done taken m, TransactionsConnected env.crypto done taken s m ∧ m.Vetted ∧
      (done = ids ∧ r = (.ok (totals.advance taken), m) ∨
        ∃ txId rest exit, ids = done ++ txId :: rest ∧ r.1 = .error exit ∧
          ConnectFailed env now bl id txId (totals.advance taken).processed m exit r.2) := by
  induction ids generalizing s totals with
  | nil =>
    obtain rfl := Except.ok.inj h
    exact ⟨[], [], s, .nil _ _, hvetted, Or.inl ⟨rfl, rfl⟩⟩
  | cons txId ids ih =>
    rcases connectTransactions_cons h with ⟨exit, hexit, hfailed⟩ | ⟨d, m₁, hone, hrest⟩
    · exact ⟨[], [], s, .nil _ _, hvetted, Or.inr ⟨txId, ids, exit, rfl, hexit, hfailed⟩⟩
    have hpopping' : m₁.poppingBlock = false := by rw [hone.frame]; exact hpopping
    have hadd := hone.added
    rw [hpopping] at hadd
    obtain ⟨done, taken, m, hconn, hvetted', hend⟩ := ih (hone.allTxs hvetted) hpopping' hrest
    refine ⟨txId :: done, (d, txId) :: taken, m, .cons hone.inPool hone.pool hone.frame
      (.singleton (hone.addable hvetted) hadd) hconn, hvetted', ?_⟩
    rcases hend with ⟨rfl, hr⟩ | ⟨txId', rest, exit, rfl, hfailed⟩
    · exact Or.inl ⟨rfl, hr⟩
    · exact Or.inr ⟨txId', rest, exit, rfl, hfailed⟩

theorem connectTransactions_ok {totals' : BlockTotals} (hvetted : s.Vetted)
    (hpopping : s.poppingBlock = false)
    (h : s.connectTransactions env now bl id ids totals = .ok (.ok totals', s')) :
    ∃ taken, TransactionsConnected env.crypto ids taken s s' ∧ totals' = totals.advance taken := by
  obtain ⟨done, taken, m, hconn, -, ⟨rfl, hr⟩ | ⟨_, _, _, _, hexit, _⟩⟩ :=
    connectTransactions_cases hvetted hpopping h
  · obtain ⟨htotals, rfl⟩ := Prod.mk.inj hr
    exact ⟨taken, hconn, Except.ok.inj htotals⟩
  · cases hexit

theorem connectTransactions_ne_added {exit : HandleExit}
    (h : s.connectTransactions env now bl id ids totals = .ok (.error exit, s')) :
    exit ≠ .added := by
  induction ids generalizing s totals with
  | nil => cases h
  | cons txId ids ih =>
    rcases connectTransactions_cons h with ⟨exit', hexit, hfailed⟩ | ⟨d, m, -, hrest⟩
    · obtain rfl := Except.error.inj hexit
      cases hfailed <;> simp
    · exact ih hrest

def minerRecord (env : Env) (bl : Block) (s : Storage) : TxRecord :=
  ⟨bl.minerTx, (getTransactionHash env.crypto bl.minerTx).getD nullHash, s.entries.length⟩

def minerTotals (bl : Block) : BlockTotals :=
  ⟨0, 0, UInt64.ofNat (((serializeTransaction bl.minerTx).map (·.length)).getD 0)⟩

/-- The statistics that a block after `prev` leaves behind; `known` tells whether
the signer was in the table. -/
structure StatisticsCounted (bl : Block) (prev : Option Block) (fee : UInt64) (s : Storage)
    (l : Ledger) (s' : Storage) : Prop where
  notDue : prev = none → s'.ledger = l ∧ s'.log = s.log
  due : ∀ blockPrev, prev = some blockPrev → ∃ missed, s.missedDelegates bl blockPrev = .ok missed ∧
    s'.ledger = { l with
      delegates := (l.delegates.countMissed missed).countProcessed bl.signingDelegateId fee } ∧
    s'.log =
      .processedBlock bl.signingDelegateId (l.delegates.contains bl.signingDelegateId) :: s.log

/-- What has happened when a block was added to the main chain: `taken` are its
transactions, `l` is the ledger with them before the statistics. -/
structure Appended (env : Env) (now : UInt64) (bl : Block) (id : Hash) (taken : List Taken)
    (l : Ledger) (fee base : UInt64) (prev : Option Block) (s s' : Storage) : Prop where
  header : s.checkBlockHeader env now bl id = .ok none
  ids_eq : taken.map Prod.snd = bl.txHashes
  inPool : ∀ t ∈ taken, s.pool.transactions t.2 = some t.1
  nodup : bl.txHashes.Nodup
  pool : s'.pool.transactions = fun k => if k ∈ bl.txHashes then none else s.pool.transactions k
  connected : s.ledger.Connected env.crypto
    (minerRecord env bl s :: taken.map (Taken.record s.entries.length)) l
  stages : ∃ l₀ t, s.ledger.addTransactionFromBlock env.crypto false bl.minerTx
      (minerRecord env bl s).id s.entries.length = (.added, l₀) ∧
    connectTransactions env now bl id bl.txHashes (minerTotals bl) { s with ledger := l₀ } =
      .ok (.ok ((minerTotals bl).advance taken), t) ∧ t.ledger = l
  feeReward : blockFeeReward bl ((minerTotals bl).advance taken) { s with ledger := l } = .ok fee
  reward : s.validateMinerTransaction env bl
    ((minerTotals bl).advance taken).cumulativeBlockSize fee = some base
  fresh : s.blocksIndex id = none
  entries : s'.entries = s.entries ++
    [s.newEntry bl id ((minerTotals bl).advance taken) (s.getDifficultyForNextBlock env) base]
  blocks : s'.blocksByHash = Function.update s.blocksByHash id (some bl)
  index : s'.blocksIndex = Function.update s.blocksIndex id (some s.entries.length)
  prev_eq : s'.statisticsPrev bl = .ok prev
  statistics : StatisticsCounted bl prev fee s l s'
  ranked : s'.ledger.delegates.toList.length < 2 ∨
    s'.ledger.delegates.toList.any (fun item => item.2.rankThrows) = false
  top : s'.topDelegates = s'.ledger.delegates.top env.config.dposNumDelegates
  alternatives : s'.alternativeChainEntries = s.alternativeChainEntries
  invalid : s'.invalidBlockEntries = s.invalidBlockEntries
  popping : s'.poppingBlock = s.poppingBlock
  hashCache : s'.hashCache = s.hashCache

theorem statisticsPrev_congr (hentries : s'.entries = s.entries)
    (hblocks : s'.blocksByHash = s.blocksByHash) : s'.statisticsPrev bl = s.statisticsPrev bl := by
  simp only [statisticsPrev, getBlockByHash, hentries, hblocks]

theorem missedDelegates_congr {blockPrev : Block} (htop : s'.topDelegates = s.topDelegates) :
    s'.missedDelegates bl blockPrev = s.missedDelegates bl blockPrev := by
  simp only [missedDelegates, nthDelegateAfter, htop]

theorem recalculateTopDelegates_eq (env : Env) (s : Storage) :
    s.recalculateTopDelegates env =
      let t := { s with topDelegates := s.ledger.delegates.top env.config.dposNumDelegates }
      if 2 ≤ s.ledger.delegates.toList.length ∧
          s.ledger.delegates.toList.any (fun item => item.2.rankThrows) = true then
        .error ⟨.morePositiveThanTotalVotes, t⟩
      else .ok (true, t) := by
  have hvotes : (s.ledger.delegates.toList.any fun item => decide (maxVote < item.2.totalVotes)) =
      false := by
    simp [not_maxVote_lt]
  rw [recalculateTopDelegates, hvotes]
  simp

theorem recalculateTopDelegates_eq_ok {r : Bool × Storage}
    (h : s.recalculateTopDelegates env = .ok r) :
    r = (true, { s with topDelegates := s.ledger.delegates.top env.config.dposNumDelegates }) ∧
      (s.ledger.delegates.toList.length < 2 ∨
        s.ledger.delegates.toList.any (fun item => item.2.rankThrows) = false) := by
  rw [recalculateTopDelegates_eq] at h
  dsimp only at h
  split_ifs at h with hranks
  refine ⟨(Except.ok.inj h).symm, ?_⟩
  rw [not_and_or, Bool.not_eq_true] at hranks
  exact hranks.imp_left Nat.lt_of_not_le

theorem countStatistics_eq_ok {fee : UInt64} (h : s.countStatistics bl fee = .ok s') :
    ∃ prev, s.statisticsPrev bl = .ok prev ∧ StatisticsCounted bl prev fee s s.ledger s' ∧
      s' = { s with ledger := s'.ledger, log := s'.log } := by
  obtain ⟨prev, hprev, hrest⟩ := reading_bind_eq_ok_iff.mp h
  refine ⟨prev, hprev, ?_⟩
  cases prev with
  | none =>
    obtain rfl := Except.ok.inj hrest
    exact ⟨⟨fun _ => ⟨rfl, rfl⟩, nofun⟩, rfl⟩
  | some blockPrev =>
    obtain ⟨missed, hmissed, hrest⟩ := reading_bind_eq_ok_iff.mp hrest
    obtain rfl := Except.ok.inj hrest
    refine ⟨⟨nofun, fun b hb => ?_⟩, rfl⟩
    cases hb
    exact ⟨missed, hmissed, rfl, rfl⟩

theorem appendBlock_eq_added {diffic : UInt64}
    (h : s.appendBlock env now bl id totals diffic = .ok (.added, s')) :
    ∃ fee base prev, s.blockFeeReward bl totals = .ok fee ∧
      s.validateMinerTransaction env bl totals.cumulativeBlockSize fee = some base ∧
      s.blocksIndex id = none ∧
      s'.entries = s.entries ++ [s.newEntry bl id totals diffic base] ∧
      s'.blocksByHash = Function.update s.blocksByHash id (some bl) ∧
      s'.blocksIndex = Function.update s.blocksIndex id (some s.entries.length) ∧
      s'.statisticsPrev bl = .ok prev ∧ StatisticsCounted bl prev fee s s.ledger s' ∧
      (s'.ledger.delegates.toList.length < 2 ∨
        s'.ledger.delegates.toList.any (fun item => item.2.rankThrows) = false) ∧
      s'.topDelegates = s'.ledger.delegates.top env.config.dposNumDelegates ∧
      s'.alternativeChainEntries = s.alternativeChainEntries ∧
      s'.invalidBlockEntries = s.invalidBlockEntries ∧
      s'.poppingBlock = s.poppingBlock ∧ s'.hashCache = s.hashCache ∧ s'.pool = s.pool := by
  obtain ⟨fee, hfee, h⟩ := reading_bind_eq_ok_iff.mp h
  split at h
  · obtain ⟨r, -, hr⟩ := bind_eq_ok_iff.mp h
    simp at hr
  rename_i base hbase
  dsimp only at h
  split at h
  · obtain ⟨r, -, hr⟩ := bind_eq_ok_iff.mp h
    simp at hr
  rename_i hindex
  obtain ⟨t, ht, h⟩ := bind_eq_ok_iff.mp h
  obtain ⟨⟨valid, u⟩, hu, h⟩ := bind_eq_ok_iff.mp h
  obtain ⟨hvalid, hranks⟩ := recalculateTopDelegates_eq_ok hu
  obtain ⟨rfl, rfl⟩ := Prod.mk.inj hvalid
  obtain ⟨-, rfl⟩ := Prod.mk.inj (Except.ok.inj h)
  obtain ⟨prev, hprev, hstats, hframe⟩ := countStatistics_eq_ok ht
  refine ⟨fee, base, prev, hfee, hbase, by simpa using hindex, ?_⟩
  have hprev' : t.statisticsPrev bl = .ok prev := by
    rw [← hprev]
    exact statisticsPrev_congr (by rw [hframe]) (by rw [hframe])
  refine ⟨by rw [hframe]; rfl, by rw [hframe]; rfl, by rw [hframe]; rfl, hprev', ?_, hranks, rfl,
    by rw [hframe]; rfl, by rw [hframe]; rfl, by rw [hframe]; rfl, by rw [hframe]; rfl,
    by rw [hframe]; rfl⟩
  exact ⟨fun hnone => hstats.notDue hnone, fun b hb => hstats.due b hb⟩

theorem connectBlock_eq_added {diffic : UInt64}
    (h : s.connectBlock env now bl id diffic = .ok (.added, s')) :
    ∃ m t totals, s.validateTx env now bl.minerTx true = .ok true ∧
      s.enterTransaction env bl.minerTx (minerRecord env bl s).id = (true, m) ∧
      m.connectTransactions env now bl id bl.txHashes (minerTotals bl) = .ok (.ok totals, t) ∧
      t.appendBlock env now bl id totals diffic = .ok (.added, s') := by
  obtain ⟨valid, hvalid, h⟩ := reading_bind_eq_ok_iff.mp h
  cases valid with
  | false => simp at h
  | true =>
    simp only [Bool.not_true, Bool.false_eq_true, if_false] at h
    obtain ⟨⟨added, m⟩, hm, h⟩ := bind_eq_ok_iff.mp h
    have hm := addTransactionFromBlock_eq_ok hm
    cases added with
    | false => simp at h
    | true =>
      obtain ⟨⟨r, t⟩, ht, h⟩ := bind_eq_ok_iff.mp h
      cases r with
      | error exit =>
        obtain ⟨rfl, -⟩ := Prod.mk.inj (Except.ok.inj h)
        exact absurd rfl (connectTransactions_ne_added ht)
      | ok totals => exact ⟨m, t, totals, hvalid, hm, ht, h⟩

theorem prevalidateMinerTransaction_vin {height : Nat}
    (h : prevalidateMinerTransaction bl height = true) :
    ∃ g : UInt64, bl.minerTx.vin = [.gen g] ∧ g.toNat = height := by
  unfold prevalidateMinerTransaction at h
  split at h
  · rename_i g hvin
    simp only [Bool.and_eq_true, decide_eq_true_eq] at h
    exact ⟨g, hvin, h.1.1⟩
  · simp at h

theorem checkBlockHeader_eq_none (h : s.checkBlockHeader env now bl id = .ok none) :
    bl.prevId = s.getTailId ∧ s.checkBlockTimestampMain env now bl = .ok true ∧
      checkBlockType env bl = true ∧ s.getDifficultyForNextBlock env ≠ 0 ∧
      s.checkProof env bl id = .ok none ∧
      prevalidateMinerTransaction bl s.entries.length = true := by
  unfold checkBlockHeader at h
  split at h
  · simp at h
  rename_i hprev
  obtain ⟨stamp, hstamp, h⟩ := bind_eq_ok_iff.mp h
  split at h
  · simp at h
  rename_i hstamp'
  split at h
  · simp at h
  rename_i htype
  split at h
  · simp at h
  rename_i hdiffic
  obtain ⟨proofExit, hproof, h⟩ := bind_eq_ok_iff.mp h
  cases proofExit with
  | some exit => simp at h
  | none =>
    refine ⟨by simpa using hprev, ?_, by simpa using htype, hdiffic, hproof, ?_⟩
    · rw [hstamp]
      simpa using hstamp'
    · simpa using h

theorem checkBlockHeader_ne_added (bl : Block) (id : Hash) (s : Storage) :
    Returns (s.checkBlockHeader env now bl id) fun r => r ≠ some .added := by
  unfold checkBlockHeader
  split
  · simp
  refine Returns.bind_const fun stamp => ?_
  split
  · simp
  split
  · simp
  split
  · simp
  refine Returns.bind (P := fun r => r ≠ some .added) ?_ fun r hr => ?_
  · unfold checkProof
    split
    · simp only [Returns.ok_iff]
      split <;> simp
    · refine Returns.map ⟨fun proof _ => ?_⟩
      cases proof <;> simp [HandleExit.ofProof]
  · cases r with
    | some exit => simpa using hr
    | none =>
      simp only [Returns.ok_iff]
      split <;> simp

theorem Vetted.addMiner {g : UInt64} (hvetted : s.Vetted) (hvin : bl.minerTx.vin = [.gen g])
    (h : s.ledger.addTransactionFromBlock env.crypto false bl.minerTx txId s.entries.length =
      (.added, l)) : Vetted { s with ledger := l } := by
  obtain ⟨_, -, -, rfl⟩ := Ledger.addTransactionFromBlock_eq_added h
  refine ⟨hvetted.pool, fun k e he => ?_⟩
  simp only [Function.update_apply] at he
  split_ifs at he
  · cases he
    exact Or.inl (by simp [isCoinbase, hvin])
  · exact hvetted.chain k e he

theorem handleBlockToMainChain_eq_added (hvetted : s.Vetted) (hpopping : s.poppingBlock = false)
    (h : s.handleBlockToMainChain env now bl id = .ok (.added, s')) :
    ∃ taken l fee base prev, Appended env now bl id taken l fee base prev s s' := by
  obtain ⟨exit, hheader, h⟩ := reading_bind_eq_ok_iff.mp h
  cases exit with
  | some exit =>
    obtain ⟨rfl, -⟩ := Prod.mk.inj (Except.ok.inj h)
    exact absurd rfl ((checkBlockHeader_ne_added ..).out _ hheader)
  | none =>
    obtain ⟨m, t, totals, hvalid, hminer, htxs, happend⟩ := connectBlock_eq_added h
    obtain ⟨-, -, -, -, -, hpre⟩ := checkBlockHeader_eq_none hheader
    obtain ⟨g, hvin, -⟩ := prevalidateMinerTransaction_vin hpre
    obtain ⟨l₀, hl₀, rfl⟩ := enterTransaction_eq_true hminer
    have haddable : s.ledger.Addable bl.minerTx.toTransactionPrefix :=
      addable_of_validateTx (by simp [hvin, TxIn.engaged]) (by simp [hvin]) hvalid
    rw [hpopping] at hl₀
    obtain ⟨taken, hconn, rfl⟩ :=
      connectTransactions_ok (hvetted.addMiner hvin hl₀) hpopping htxs
    obtain ⟨fee, base, prev, hfee, hbase, hfresh, hentries, hblocks, hindex, hprev, hstats,
      hranked, htop, halt, hinvalid, hpop, hcache, hpool⟩ := appendBlock_eq_added happend
    have hframe := hconn.frame
    -- the transactions leave everything but the ledger and the pool alone
    have hentries' : t.entries = s.entries := by rw [hframe]
    have hblocks' : t.blocksByHash = s.blocksByHash := by rw [hframe]
    have hindex' : t.blocksIndex = s.blocksIndex := by rw [hframe]
    have htop' : t.topDelegates = s.topDelegates := by rw [hframe]
    have hlog' : t.log = s.log := by rw [hframe]
    refine ⟨taken, t.ledger, fee, base, prev, hheader, hconn.ids_eq, hconn.inPool, hconn.nodup,
      by rw [hpool, hconn.pool], ?_, ⟨l₀, t, hl₀, htxs, rfl⟩, ?_, ?_, ?_, ?_, ?_, ?_, hprev, ?_, hranked, htop,
      by rw [halt, hframe], by rw [hinvalid, hframe], by rw [hpop, hframe],
      by rw [hcache, hframe]⟩
    · exact (Ledger.Connected.singleton haddable hl₀).append hconn.ledger
    · unfold blockFeeReward at hfee ⊢
      split_ifs at hfee ⊢
      · exact hfee
      · refine averagePastBlockFees_mono ?_ ?_ ?_ hfee
        · rw [hentries']
        · intro bent _ b hb
          rwa [hblocks'] at hb
        · exact fun _ _ he => he
    · rw [← hbase]
      simp only [validateMinerTransaction, getLastNBlocksSizes, hentries']
    · rw [← hindex', hfresh]
    · rw [hentries, hentries']
      simp only [newEntry, hentries']
    · rw [hblocks, hblocks']
    · rw [hindex, hindex', hentries']
    · refine ⟨fun hnone => ?_, fun b hb => ?_⟩
      · rw [← hlog']
        exact hstats.notDue hnone
      · obtain ⟨missed, hmissed, hrest⟩ := hstats.due b hb
        rw [missedDelegates_congr htop'] at hmissed
        rw [hlog'] at hrest
        exact ⟨missed, hmissed, hrest⟩

end Storage

end Pebblecoin
