import Pebblecoin.BlockUndo
import Pebblecoin.DelegateStatistics
import Mathlib.Data.List.GetD

/-!
What popping the last block does to the state that its addition left.
-/

namespace Pebblecoin

open Containers Control

theorem Ledger.Connected.shrinks {crypto : Crypto} {base l : Ledger} {rs : List TxRecord}
    (h : base.Connected crypto rs l) : l.delegates.Shrinks base.delegates := by
  induction h with
  | nil => exact .refl _
  | add _ haddable hadd ih =>
    obtain ⟨t, entry, -, -, ht, -, hshrinks⟩ :=
      Ledger.purgeTransaction_added (J := False) haddable hadd (.refl _)
    rw [Ledger.purgeTransaction_addTransactionFromBlock haddable hadd] at ht
    obtain ⟨-, rfl⟩ := Prod.mk.inj ht
    exact hshrinks.trans ih

theorem Delegates.Shrinks.contains {ds ds' : Delegates} (h : ds.Shrinks ds') {k : DelegateId}
    (hk : ds'.contains k = true) : ds.contains k = true := by
  obtain ⟨b, hb⟩ := Delegates.contains_iff.mp hk
  obtain ⟨a, ha, -⟩ := h k b hb
  exact Delegates.contains_iff.mpr ⟨a, ha⟩

theorem nthSortedItemAfter_mem {items : List DelegateId} {start : DelegateId} {n : Nat}
    {k : DelegateId} (h : nthSortedItemAfter items start n = .ok k) : k ∈ items := by
  unfold nthSortedItemAfter at h
  split at h
  · cases h
  · rename_i hne
    have hpos : 0 < items.length := List.length_pos_iff.mpr (by simpa using hne)
    obtain rfl := Except.ok.inj h
    rw [List.getD_eq_getElem _ _ (Nat.mod_lt _ hpos)]
    exact List.getElem_mem _

namespace Storage

variable {env : Env} {now now' : UInt64} {bl : Block} {id : Hash} {taken : List Taken} {l : Ledger}
  {fee base : UInt64} {prev : Option Block} {s s' : Storage} {J : Prop}

theorem mem_top_of_missedDelegates {blockPrev : Block} {missed : List DelegateId}
    (h : s.missedDelegates bl blockPrev = .ok missed) :
    ∀ k ∈ missed, k ∈ s.topDelegates.elems := by
  intro k hk
  obtain ⟨i, -, hi⟩ := exists_of_mem_mapM h k hk
  exact nthSortedItemAfter_mem hi

/-- The entries of the main chain are indexed, and the bodies of their blocks are
stored and carry their position. -/
structure ChainOk (s : Storage) : Prop where
  indexed : ∀ i bent, s.entries[i]? = some bent → s.blocksIndex bent.hash = some i
  bodies : ∀ i bent, s.entries[i]? = some bent →
    ∃ b, s.blocksByHash bent.hash = some b ∧ (getBlockHeight b).toNat = i

theorem ChainOk.ne_of_fresh (hchain : s.ChainOk) (hfresh : s.blocksIndex id = none)
    {bent : BlockchainEntry} (hbent : bent ∈ s.entries) : bent.hash ≠ id := by
  rintro rfl
  obtain ⟨i, hi⟩ := List.mem_iff_getElem?.mp hbent
  rw [hchain.indexed i bent hi] at hfresh
  cases hfresh

/-- Bodies are never lost or replaced. -/
def BodiesGrow (s s' : Storage) : Prop :=
  ∀ id b, s.blocksByHash id = some b → s'.blocksByHash id = some b

theorem BodiesGrow.refl (s : Storage) : BodiesGrow s s := fun _ _ h => h

theorem BodiesGrow.trans {s'' : Storage} (h : BodiesGrow s s') (h' : BodiesGrow s' s'') :
    BodiesGrow s s'' :=
  fun id b hb => h' id b (h id b hb)

theorem BodiesGrow.getBlockByHash (h : BodiesGrow s s') {b : Block}
    (hb : s.getBlockByHash id = .ok b) : s'.getBlockByHash id = .ok b := by
  cases hbody : s.blocksByHash id with
  | none => simp [Storage.getBlockByHash, hbody] at hb
  | some b' =>
    rw [Storage.getBlockByHash, hbody] at hb
    rw [Storage.getBlockByHash, h id b' hbody]
    exact hb

/-- What the statistics of the block refer to is in the table, or `J` holds. -/
structure KnownOr (J : Prop) (bl : Block) (prev : Option Block) (s : Storage) (ds : Delegates) :
    Prop where
  signer : prev.isSome → ds.contains bl.signingDelegateId = false → J
  missed : ∀ k ∈ s.topDelegates.elems, ds.contains k = false → J

theorem Appended.counted_extends (h : Appended env now bl id taken l fee base prev s s')
    (hknown : KnownOr J bl prev s l.delegates) : l.Extends J s'.ledger := by
  cases prev with
  | none =>
    rw [(h.statistics.notDue rfl).1]
    exact .refl l
  | some blockPrev =>
    obtain ⟨missed, hmissed, hledger, -⟩ := h.statistics.due blockPrev rfl
    have hone : l.delegates.Extends J (l.delegates.countMissed missed) :=
      Delegates.countMissed_extends fun k hk =>
        hknown.missed k (mem_top_of_missedDelegates hmissed k hk)
    have htwo : (l.delegates.countMissed missed).Extends J
        ((l.delegates.countMissed missed).countProcessed bl.signingDelegateId fee) :=
      Delegates.countProcessed_extends fun hnot => hknown.signer rfl (by
        rw [← Bool.not_eq_true] at hnot ⊢
        exact fun hc => hnot (hone.contains hc))
    rw [hledger]
    exact .ofDelegates l (hone.trans htwo)

/-- What every state between two operations satisfies. -/
structure WellFormed (s : Storage) : Prop where
  popping : s.poppingBlock = false
  vetted : s.Vetted
  chain : s.ChainOk
  nonempty : s.entries ≠ []

theorem WellFormed.appended (hs : s.WellFormed)
    (h : s.handleBlockToMainChain env now bl id = .ok (.added, s')) :
    ∃ taken l fee base prev, Appended env now bl id taken l fee base prev s s' :=
  handleBlockToMainChain_eq_added hs.vetted hs.popping h

variable (now') in
theorem Appended.purgeBlockData (h : Appended env now bl id taken l fee base prev s s')
    (hs : s.WellFormed) {u : Storage} (hpops : PopsAfter s u) (hext : l.Extends J u.ledger) :
    ∃ m pool, u.purgeBlockDataFromBlockchain env now' bl bl.txHashes.length =
        .ok (true, { u with ledger := m, pool := pool }) ∧ s.ledger.Extends J m ∧
      u.ledger.delegates.Shrinks m.delegates ∧
      (CanonicalPool env s → CameBack bl.txHashes s u.pool.transactions pool.transactions) := by
  obtain ⟨l₀, t, hadd, htxs, rfl⟩ := h.stages
  obtain ⟨-, -, -, -, -, hpre⟩ := checkBlockHeader_eq_none h.header
  obtain ⟨g, hvin, -⟩ := prevalidateMinerTransaction_vin hpre
  obtain ⟨m, pool, hpurge, hlm, hshrinks, hback⟩ :=
    purgeTransactions_connected now' (s := { s with ledger := l₀ }) (u := u)
      (hs.vetted.addMiner hvin hadd) hs.popping htxs
      ⟨hpops.entries, hpops.length, hpops.popping, hpops.bodies⟩ hext
  obtain ⟨m', hminer, hsm, hshrinks'⟩ :=
    purgeTransactionFromBlockchain_miner now' (u := { u with ledger := m, pool := pool })
      hvin hadd hlm
  refine ⟨m', pool, ?_, hsm, hshrinks.trans hshrinks', fun hcanonical =>
    ⟨(hback hcanonical).others, (hback hcanonical).back⟩⟩
  rw [purgeBlockDataFromBlockchain, if_neg (lt_irrefl _), List.take_length]
  exact purgeTransactions_append hpurge hminer

/-- The second state has the chain and the ledger of the first, and no fewer bodies. -/
structure Overlies (s' u : Storage) : Prop where
  entries : u.entries = s'.entries
  ledger : u.ledger = s'.ledger
  bodies : BodiesGrow s' u

theorem Overlies.refl (s : Storage) : s.Overlies s := ⟨rfl, rfl, .refl s⟩

theorem Overlies.statisticsPrev {u : Storage} (hu : s'.Overlies u)
    (h : s'.statisticsPrev bl = .ok prev) : u.statisticsPrev bl = .ok prev := by
  unfold Storage.statisticsPrev at h ⊢
  rw [hu.entries]
  split_ifs at h ⊢ with hlength
  · split at h
    · exact h
    · rename_i bent hbent
      obtain ⟨b, hb, h⟩ := bind_eq_ok_iff.mp h
      rwa [hu.bodies.getBlockByHash hb, ok_bind]
  · exact h

variable (now') in
theorem Appended.pop_eq (h : Appended env now bl id taken l fee base prev s s')
    (hs : s.WellFormed) (hknown : KnownOr J bl prev s l.delegates) {u : Storage}
    (hu : s'.Overlies u) :
    ∃ m pool bent, bent.hash = id ∧ s.ledger.Extends J m ∧
      u.ledger.delegates.Shrinks m.delegates ∧
      (CanonicalPool env s → CameBack bl.txHashes s u.pool.transactions pool.transactions) ∧
      u.popBlockFromBlockchain env now' = (do
        let v ← uncountStatistics bl { u with
          poppingBlock := true
          ledger := m
          pool := pool
          topDelegates := m.delegates.top env.config.dposNumDelegates }
        .ok (v.removeLastEntry bent)) := by
  have hbody : u.getBlockByHash id = .ok bl := by
    simp [getBlockByHash, hu.bodies id bl (by simp [h.blocks])]
  obtain ⟨m, pool, hpurge, hsm, hshrinks, hback⟩ :=
    h.purgeBlockData now' hs (u := { u with poppingBlock := true })
      ⟨by simp [hu.entries, h.entries], by simp [hu.entries, h.entries], rfl, fun bent hbent b hb => by
        refine hu.bodies _ _ ?_
        rw [h.blocks, Function.update_of_ne (hs.chain.ne_of_fresh h.fresh hbent)]
        exact hb⟩ (hu.ledger ▸ h.counted_extends hknown)
  obtain ⟨bent, rfl, hentries⟩ : ∃ bent : BlockchainEntry, bent.hash = id ∧
      u.entries = s.entries ++ [bent] := ⟨_, rfl, hu.entries.trans h.entries⟩
  refine ⟨m, pool, bent, rfl, hsm, hshrinks, hback, ?_⟩
  have hrecalc := recalculateTopDelegates_eq env
    { u with poppingBlock := true, ledger := m, pool := pool }
  rw [if_neg (by
    have := hshrinks.ranked (hu.ledger ▸ h.ranked)
    rw [not_and_or, Bool.not_eq_true, Nat.not_le]
    exact this)] at hrecalc
  obtain ⟨e, es, hcons⟩ := List.exists_cons_of_ne_nil hs.nonempty
  unfold popBlockFromBlockchain
  split
  · have hlast : u.entries.getLast? = some bent := by rw [hentries, List.getLast?_concat]
    simp only [hlast, hbody, reading_ok, ok_bind]
    rw [hpurge]
    simp only [ok_bind, Bool.not_true, Bool.false_eq_true, if_false]
    rw [hrecalc]
    rfl
  · rename_i hshort
    rw [hcons] at hentries
    cases es with
    | nil => exact absurd hentries (hshort e bent [])
    | cons e' es => exact absurd hentries (hshort e e' (es ++ [bent]))

/-- The statistics of a block on top of `s` are due; `b` is the last block of `s`. -/
structure StatisticsDue (bl : Block) (s : Storage) (b : Block) : Prop where
  length : 2 ≤ s.entries.length
  pos : isPosBlock bl = true
  prevPos : isPosBlock b = true
  last : ∃ bent, s.entries.getLast? = some bent ∧ s.blocksByHash bent.hash = some b

theorem Appended.due_iff (h : Appended env now bl id taken l fee base prev s s')
    (hs : s.WellFormed) (b : Block) : prev = some b ↔ StatisticsDue bl s b := by
  obtain ⟨bent, hbent⟩ := List.getLast?_isSome.mpr hs.nonempty |> Option.isSome_iff_exists.mp
  have hmem : bent ∈ s.entries := List.mem_of_getLast? hbent
  have hpos : 0 < s.entries.length := List.length_pos_iff.mpr hs.nonempty
  have hget : s'.entries[s'.entries.length - 2]? = some bent := by
    rw [h.entries, List.length_append, List.length_singleton, List.getElem?_append_left (by omega),
      ← hbent, List.getLast?_eq_getElem?]
    congr 1
  obtain ⟨i, hi⟩ := List.mem_iff_getElem?.mp hmem
  obtain ⟨c, hc, -⟩ := hs.chain.bodies i bent hi
  have hbody : s'.getBlockByHash bent.hash = .ok c := by
    simp [getBlockByHash, h.blocks, Function.update_of_ne (hs.chain.ne_of_fresh h.fresh hmem), hc]
  have hprev := h.prev_eq
  simp only [statisticsPrev, hget, hbody, ok_bind] at hprev
  have hlength : 2 < s'.entries.length ↔ 2 ≤ s.entries.length := by
    rw [h.entries, List.length_append, List.length_singleton]
    omega
  constructor
  · rintro rfl
    split_ifs at hprev with hlen hboth
    all_goals try simp at hprev
    subst hprev
    rw [Bool.and_eq_true] at hboth
    exact ⟨hlength.mp hlen, hboth.1, hboth.2, bent, hbent, hc⟩
  · rintro ⟨hlen, hbl, hb, bent', hbent', hb'⟩
    obtain rfl := Option.some.inj (hbent.symm.trans hbent')
    obtain rfl := Option.some.inj (hc.symm.trans hb')
    rw [if_pos (hlength.mpr hlen), if_pos (by simp [hbl, hb])] at hprev
    exact (Except.ok.inj hprev).symm

theorem StatisticsDue.height {b : Block} (h : StatisticsDue bl s b) (hchain : s.ChainOk) :
    (getBlockHeight b).toNat = s.entries.length - 1 := by
  obtain ⟨bent, hbent, hb⟩ := h.last
  rw [List.getLast?_eq_getElem?] at hbent
  obtain ⟨b', hb', hheight⟩ := hchain.bodies _ _ hbent
  obtain rfl := Option.some.inj (hb.symm.trans hb')
  exact hheight

theorem Appended.averagePastBlockFees_iff (h : Appended env now bl id taken l fee base prev s s')
    (hs : s.WellFormed) {u v : Storage} (hu : s'.Overlies u) (hentries : v.entries = u.entries)
    (hblocks : v.blocksByHash = u.blocksByHash)
    (htxs : v.ledger.transactions = s.ledger.transactions) {height : Nat}
    (hheight : height ≤ s.entries.length) (a : UInt64) :
    v.averagePastBlockFees height = .ok a ↔ s.averagePastBlockFees height = .ok a := by
  have htake : v.entries.take height = s.entries.take height := by
    rw [hentries, hu.entries, h.entries, List.take_append_of_le_length hheight]
  have hbodies : ∀ bent ∈ s.entries.take height,
      v.blocksByHash bent.hash = s.blocksByHash bent.hash := by
    intro bent hbent
    have hmem := List.mem_of_mem_take hbent
    obtain ⟨i, hi⟩ := List.mem_iff_getElem?.mp hmem
    obtain ⟨b, hb, -⟩ := hs.chain.bodies i bent hi
    rw [hblocks, hb]
    refine hu.bodies _ _ ?_
    rw [h.blocks, Function.update_of_ne (hs.chain.ne_of_fresh h.fresh hmem), hb]
  constructor <;> intro hok
  · refine averagePastBlockFees_mono htake.symm ?_ ?_ hok
    · intro bent hbent b hb
      rw [htake] at hbent
      rwa [hbodies bent hbent] at hb
    · intro k e he
      rwa [htxs] at he
  · refine averagePastBlockFees_mono htake ?_ ?_ hok
    · intro bent hbent b hb
      rwa [hbodies bent hbent]
    · intro k e he
      rwa [htxs]

/-- What taking back the statistics of a block after `prev` has done. -/
structure StatisticsUncounted (bl : Block) (prev : Option Block) (v w : Storage) : Prop where
  notDue : prev = none → w.ledger = v.ledger
  due : ∀ b, prev = some b → ∃ a missed, v.averagePastBlockFees (getBlockHeight b).toNat = .ok a ∧
    v.missedDelegates bl b = .ok missed ∧
    w.ledger = { v.ledger with
      delegates := (v.ledger.delegates.uncountProcessed bl.signingDelegateId a).uncountMissed missed }
  frame : w = { v with ledger := w.ledger, log := w.log }

theorem uncountStatistics_eq_ok {v w : Storage} (h : v.uncountStatistics bl = .ok w)
    (hprev : v.statisticsPrev bl = .ok prev) : StatisticsUncounted bl prev v w := by
  rw [uncountStatistics, hprev, reading_ok, ok_bind] at h
  cases prev with
  | none =>
    obtain rfl := Except.ok.inj h
    exact ⟨fun _ => rfl, by simp, rfl⟩
  | some blockPrev =>
    obtain ⟨a, ha, h⟩ := reading_bind_eq_ok_iff.mp h
    obtain ⟨missed, hmissed, h⟩ := reading_bind_eq_ok_iff.mp h
    obtain rfl := Except.ok.inj h
    refine ⟨by simp, fun b hb => ?_, rfl⟩
    obtain rfl := Option.some.inj hb
    exact ⟨a, missed, ha, hmissed, rfl⟩

theorem StatisticsUncounted.extended {v w : Storage} (h : StatisticsUncounted bl prev v w)
    (hsigner : prev.isSome → v.ledger.delegates.contains bl.signingDelegateId = false → J)
    (htop : ∀ k ∈ v.topDelegates.elems, v.ledger.delegates.contains k = false → J) :
    v.ledger.Extends J w.ledger ∧
      (prev.isSome → w.ledger.delegates.contains bl.signingDelegateId = true) := by
  cases prev with
  | none =>
    rw [h.notDue rfl]
    exact ⟨.refl _, by simp⟩
  | some blockPrev =>
    obtain ⟨a, missed, -, hmissed, hw⟩ := h.due blockPrev rfl
    rw [hw]
    have hone : v.ledger.delegates.Extends J
        (v.ledger.delegates.uncountProcessed bl.signingDelegateId a) :=
      Delegates.uncountProcessed_extends (hsigner rfl)
    have htwo : (v.ledger.delegates.uncountProcessed bl.signingDelegateId a).Extends J
        ((v.ledger.delegates.uncountProcessed bl.signingDelegateId a).uncountMissed missed) := by
      refine Delegates.uncountMissed_extends fun k hk hnot => ?_
      refine htop k (mem_top_of_missedDelegates hmissed k hk) ?_
      rw [← Bool.not_eq_true] at hnot ⊢
      exact fun hc => hnot (hone.contains hc)
    exact ⟨.ofDelegates _ (hone.trans htwo),
      fun _ => htwo.contains (Delegates.contains_modify_self _ _ _)⟩

theorem exists_uncountStatistics {v : Storage} (hprev : v.statisticsPrev bl = .ok prev)
    (havg : ∀ b, prev = some b → ∃ a, v.averagePastBlockFees (getBlockHeight b).toNat = .ok a)
    (hmissed : ∀ b, prev = some b → ∃ missed, v.missedDelegates bl b = .ok missed) :
    ∃ w, v.uncountStatistics bl = .ok w := by
  rw [uncountStatistics, hprev, reading_ok, ok_bind]
  cases prev with
  | none => exact ⟨v, rfl⟩
  | some blockPrev =>
    obtain ⟨a, ha⟩ := havg blockPrev rfl
    obtain ⟨missed, hmissed⟩ := hmissed blockPrev rfl
    exact ⟨_, by simp only [ha, hmissed, reading_ok, ok_bind]; rfl⟩

/-- The second state has the chain, the tables and the delegates of the first,
and the transactions of the block are in its pool. -/
structure Restored (bl : Block) (s t : Storage) : Prop where
  spentKeys : t.ledger.spentKeys = s.ledger.spentKeys
  outputs : t.ledger.outputs = s.ledger.outputs
  transactions : t.ledger.transactions = s.ledger.transactions
  blocksIndex : t.blocksIndex = s.blocksIndex
  entries : t.entries = s.entries
  currencies : t.ledger.currencies = s.ledger.currencies
  descriptions : t.ledger.usedCurrencyDescriptions = s.ledger.usedCurrencyDescriptions
  contracts : t.ledger.contracts = s.ledger.contracts
  delegates : ∀ k, (t.ledger.delegates.find? k).map (·.totalVotes) =
    (s.ledger.delegates.find? k).map (·.totalVotes)
  voteHistories : t.ledger.voteHistories = s.ledger.voteHistories
  topDelegates : t.topDelegates = s.topDelegates
  returned : ∀ txId ∈ bl.txHashes, ∃ d d', s.pool.transactions txId = some d ∧
    t.pool.transactions txId = some d' ∧ d'.tx = d.tx

/-- The top delegates are those of the table.  If statistics are due, the signer
is in the table and the average of past fees can be computed. -/
structure StatisticsKnown (env : Env) (bl : Block) (s : Storage) : Prop where
  topDelegates : s.topDelegates = s.ledger.delegates.top env.config.dposNumDelegates
  signer : ∀ b, StatisticsDue bl s b → s.ledger.delegates.contains bl.signingDelegateId = true
  average : ∀ b, StatisticsDue bl s b →
    ∃ a, s.averagePastBlockFees (getBlockHeight b).toNat = .ok a

theorem StatisticsKnown.knownOr (hknown : StatisticsKnown env bl s)
    (h : Appended env now bl id taken l fee base prev s s') (hs : s.WellFormed) :
    KnownOr False bl prev s l.delegates where
  signer hprev hnot := by
    obtain ⟨b, hb⟩ := Option.isSome_iff_exists.mp hprev
    have := h.connected.shrinks.contains (hknown.signer b ((h.due_iff hs b).mp hb))
    rw [hnot] at this
    cases this
  missed k hk hnot := by
    rw [hknown.topDelegates] at hk
    have := h.connected.shrinks.contains (Delegates.contains_of_mem_top hk)
    rw [hnot] at this
    cases this

theorem Appended.restored (h : Appended env now bl id taken l fee base prev s s') {w : Storage} {bent : BlockchainEntry} (hbent : bent.hash = id)
    (hentries : w.entries = s'.entries) (hindex : w.blocksIndex = s'.blocksIndex)
    (hext : s.ledger.Extends False w.ledger) (htop : w.topDelegates = s.topDelegates)
    (hback : CameBack bl.txHashes s s'.pool.transactions w.pool.transactions) :
    ∃ t, w.removeLastEntry bent = (true, t) ∧ Restored bl s t := by
  have hsome : (w.blocksIndex bent.hash).isSome = true := by
    rw [hindex, h.index, hbent, Function.update_self]
    rfl
  refine ⟨_, if_neg (by simpa using Option.isSome_iff_ne_none.mp hsome), ?_⟩
  have hrest := hext.tables.rest
  refine ⟨(congrArg InputTables.spentKeys hrest :), hext.outputs, hext.transactions, ?_, ?_,
    (congrArg InputTables.currencies hrest :),
    (congrArg InputTables.usedCurrencyDescriptions hrest :),
    (congrArg InputTables.contracts hrest :), hext.tables.delegates.totalVotes,
    (congrArg InputTables.voteHistories hrest :), htop, ?_⟩
  · simp only [hindex, h.index, hbent, Function.update_idem]
    rw [← h.fresh, Function.update_eq_self]
  · simp [hentries, h.entries]
  · intro txId hmem
    exact hback.back txId hmem (by rw [h.pool]; exact if_pos hmem)

/-- The state in which the statistics of a popped block are taken back. -/
def purged (u : Storage) (m : Ledger) (pool : TxMemoryPool) (top : OrdSet DelegateId) : Storage :=
  { u with poppingBlock := true, ledger := m, pool := pool, topDelegates := top }

variable (now') in
theorem Appended.pop_known (h : Appended env now bl id taken l fee base prev s s')
    (hs : s.WellFormed) (hknown : StatisticsKnown env bl s) {u : Storage} (hu : s'.Overlies u) :
    ∃ m pool bent w, bent.hash = id ∧ s.ledger.Extends False m ∧
      u.ledger.delegates.Shrinks m.delegates ∧
      (CanonicalPool env s → CameBack bl.txHashes s u.pool.transactions pool.transactions) ∧
      StatisticsUncounted bl prev (u.purged m pool s.topDelegates) w ∧ m.Extends False w.ledger ∧
      u.popBlockFromBlockchain env now' = .ok (w.removeLastEntry bent) := by
  obtain ⟨m, pool, bent, hbent, hsm, hshrinks, hback, hpop⟩ :=
    h.pop_eq now' hs (hknown.knownOr h hs) hu
  have htop : m.delegates.top env.config.dposNumDelegates = s.topDelegates := by
    rw [hknown.topDelegates]
    exact Delegates.top_eq_of_extends _ hsm.tables.delegates
  rw [htop] at hpop
  have hprev : (u.purged m pool s.topDelegates).statisticsPrev bl = .ok prev :=
    (statisticsPrev_congr rfl rfl).trans (hu.statisticsPrev h.prev_eq)
  obtain ⟨w, hw⟩ := exists_uncountStatistics hprev
    (fun b hb => by
      have hdue := (h.due_iff hs b).mp hb
      obtain ⟨a, ha⟩ := hknown.average b hdue
      have hheight := hdue.height hs.chain
      exact ⟨a, (h.averagePastBlockFees_iff hs hu (by rfl) (by rfl) hsm.transactions (by omega) a).mpr ha⟩)
    (fun b hb => by
      obtain ⟨missed, hmissed, -⟩ := h.statistics.due b hb
      exact ⟨missed, (missedDelegates_congr rfl).trans hmissed⟩)
  have hun := uncountStatistics_eq_ok hw hprev
  have hmw := (hun.extended (J := False)
    (fun hprev => by
      obtain ⟨b, hb⟩ := Option.isSome_iff_exists.mp hprev
      have := hsm.tables.delegates.contains (hknown.signer b ((h.due_iff hs b).mp hb))
      simp [purged, this])
    (fun k hk => by
      have : k ∈ (m.delegates.top env.config.dposNumDelegates).elems := htop ▸ hk
      simp [purged, Delegates.contains_of_mem_top this])).1
  refine ⟨m, pool, bent, w, hbent, hsm, hshrinks, hback, hun, hmw, ?_⟩
  rw [hpop]
  exact bind_eq_ok_iff.mpr ⟨w, hw, rfl⟩

variable (now') in
theorem Appended.pop_restores (h : Appended env now bl id taken l fee base prev s s')
    (hs : s.WellFormed) (hcanonical : CanonicalPool env s)
    (hknown : StatisticsKnown env bl s) :
    ∃ t, s'.popBlockFromBlockchain env now' = .ok (true, t) ∧ Restored bl s t := by
  obtain ⟨m, pool, bent, w, hbent, hsm, -, hback, hun, hmw, hpop⟩ :=
    h.pop_known now' hs hknown (.refl s')
  have hframe := hun.frame
  obtain ⟨t, ht, hrestored⟩ := h.restored hbent (w := w) (by rw [hframe]; rfl) (by rw [hframe]; rfl)
    (hsm.trans hmw) (by rw [hframe]; rfl) (by rw [hframe]; exact hback hcanonical)
  exact ⟨t, by rw [hpop, ht], hrestored⟩

theorem Restored.contains (h : Restored bl s s') {k : DelegateId}
    (hk : s'.ledger.delegates.contains k = true) : s.ledger.delegates.contains k = true := by
  have := h.delegates k
  obtain ⟨b, hb⟩ := Delegates.contains_iff.mp hk
  simp only [hb, Option.map_some] at this
  obtain ⟨a, ha, -⟩ := Option.map_eq_some_iff.mp this.symm
  exact Delegates.contains_iff.mpr ⟨a, ha⟩

/-- A pop that enters no new delegate. -/
theorem Appended.statisticsKnown_of_pop (h : Appended env now bl id taken l fee base prev s s')
    (hs : s.WellFormed) {t : Storage} (hpop : s'.popBlockFromBlockchain env now' = .ok (true, t))
    (hkeys : ∀ k, t.ledger.delegates.contains k = true → s.ledger.delegates.contains k = true)
    (htop : t.topDelegates = s.ledger.delegates.top env.config.dposNumDelegates →
      s.topDelegates = s.ledger.delegates.top env.config.dposNumDelegates) :
    StatisticsKnown env bl s := by
  obtain ⟨m, pool, bent, -, hsm, -, -, hpop'⟩ :=
    h.pop_eq (J := True) now' hs ⟨fun _ _ => trivial, fun _ _ _ => trivial⟩ (.refl s')
  obtain ⟨w, hw, hremove⟩ := bind_eq_ok_iff.mp (hpop'.symm.trans hpop)
  have hun := uncountStatistics_eq_ok hw ((statisticsPrev_congr rfl rfl).trans h.prev_eq)
  obtain ⟨hmw, hsigner⟩ := hun.extended (J := True) (fun _ _ => trivial) fun _ _ _ => trivial
  have hremove := Except.ok.inj hremove
  unfold removeLastEntry at hremove
  split_ifs at hremove
  · simp at hremove
  obtain ⟨-, rfl⟩ := Prod.mk.inj hremove
  have hsm' : s.ledger.delegates.Extends False m.delegates := by
    refine ⟨hsm.tables.delegates.same, fun k b hnone hb => ?_⟩
    have := hkeys k (hmw.tables.delegates.contains (Delegates.contains_iff.mpr ⟨b, hb⟩))
    simp [OrdMap.contains, hnone] at this
  refine ⟨htop ?_, fun b hb => ?_, fun b hb => ?_⟩
  · rw [← Delegates.top_eq_of_extends _ hsm', hun.frame]
  · exact hkeys _ (hsigner (by rw [(h.due_iff hs b).mpr hb]; rfl))
  · obtain ⟨a, -, ha, -⟩ := hun.due b ((h.due_iff hs b).mpr hb)
    have hheight := hb.height hs.chain
    exact ⟨a, (h.averagePastBlockFees_iff hs (.refl s') (by rfl) (by rfl) hsm.transactions (by omega) a).mp ha⟩

end Storage

end Pebblecoin
