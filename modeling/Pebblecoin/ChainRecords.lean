import Pebblecoin.Operations
import Pebblecoin.ReplayFacts

/-!
The ledger of a running node is what the transactions of the blocks of its main
chain, added one after the other, make of the empty one.
-/

namespace Pebblecoin

open Containers Control

/-- Statistics were counted for a delegate that was not in the table. -/
def UnknownSigner (log : List Event) : Prop :=
  ∃ d, .processedBlock d false ∈ log ∨ .undidProcessedBlock d false ∈ log

theorem UnknownSigner.mono {log log' : List Event} (h : UnknownSigner log) (hsub : log ⊆ log') :
    UnknownSigner log' := by
  obtain ⟨d, hd⟩ := h
  exact ⟨d, hd.imp (fun h => hsub h) (fun h => hsub h)⟩

theorem Ledger.Replay.unwinds (crypto : Crypto) (J : Prop) (base : Ledger) :
    Storage.Unwinds (Ledger.Replay crypto J base) :=
  fun h => h.purge_last

/-- The transactions of one block: the miner transaction, then the others. -/
structure BlockRecords (env : Env) (height : Nat) (b : Block) (rs : List TxRecord) : Prop where
  split : ∃ txs, rs =
    ⟨b.minerTx, (getTransactionHash env.crypto b.minerTx).getD nullHash, height⟩ :: txs ∧
      txs.map (·.id) = b.txHashes ∧ ∀ r ∈ txs, r.height = height

namespace Storage

variable {env : Env} {now : UInt64}

/-- The ledger is that of the recorded transactions, which are those of the
blocks of the main chain, block by block. -/
structure Recorded (env : Env) (recs : List (List TxRecord)) (s : Storage) : Prop where
  length : recs.length = s.entries.length
  blocks : ∀ i bent, s.entries[i]? = some bent → ∃ b rs, s.blocksByHash bent.hash = some b ∧
    recs[i]? = some rs ∧ BlockRecords env i b rs
  ledger : Ledger.Replay env.crypto (UnknownSigner s.log) Ledger.empty recs.flatten s.ledger
  top : ∀ k ∈ s.topDelegates.elems, s.ledger.delegates.contains k = true

theorem Recorded.congr {recs : List (List TxRecord)} {s s' : Storage} (h : Recorded env recs s)
    (hgrow : BodiesGrow s s') (hentries : s'.entries = s.entries) (hledger : s'.ledger = s.ledger)
    (htop : s'.topDelegates = s.topDelegates) (hlog : s.log ⊆ s'.log) : Recorded env recs s' := by
  refine ⟨h.length.trans (by rw [hentries]), fun i bent hbent => ?_, ?_, ?_⟩
  · rw [hentries] at hbent
    obtain ⟨b, rs, hb, hrs⟩ := h.blocks i bent hbent
    exact ⟨b, rs, hgrow _ _ hb, hrs⟩
  · rw [hledger]
    exact h.ledger.mono fun hunknown => hunknown.mono hlog
  · rw [hledger, htop]
    exact h.top

section Adding

variable {bl : Block} {id : Hash} {taken : List Taken} {l : Ledger} {fee base : UInt64}
  {prev : Option Block} {s s' : Storage}

theorem StatisticsCounted.log_subset (h : StatisticsCounted bl prev fee s l s') :
    s.log ⊆ s'.log := by
  cases prev with
  | none =>
    rw [(h.notDue rfl).2]
    exact List.Subset.refl _
  | some b =>
    obtain ⟨missed, -, -, hlog⟩ := h.due b rfl
    rw [hlog]
    exact List.subset_cons_self _ _

def blockRecords (env : Env) (bl : Block) (taken : List Taken) (s : Storage) : List TxRecord :=
  minerRecord env bl s :: taken.map (Taken.record s.entries.length)

theorem Appended.recorded {recs : List (List TxRecord)}
    (h : Appended env now bl id taken l fee base prev s s') (hchain : s.ChainOk)
    (hrec : Recorded env recs s) : Recorded env (recs ++ [blockRecords env bl taken s]) s' := by
  have hsub := h.statistics.log_subset
  have hknown : KnownOr (UnknownSigner s'.log) bl prev s l.delegates := by
    refine ⟨fun hprev hnot => ?_, fun k hk hnot => ?_⟩
    · obtain ⟨b, rfl⟩ := Option.isSome_iff_exists.mp hprev
      obtain ⟨missed, -, -, hlog⟩ := h.statistics.due b rfl
      rw [hnot] at hlog
      exact ⟨bl.signingDelegateId, Or.inl (by simp [hlog])⟩
    · have := h.connected.shrinks.contains (hrec.top k hk)
      rw [hnot] at this
      cases this
  refine ⟨by simp [h.entries, hrec.length], fun i bent hbent => ?_, ?_, fun k hk => ?_⟩
  · rw [h.entries] at hbent
    rcases lt_or_ge i s.entries.length with hlt | hge
    · rw [List.getElem?_append_left hlt] at hbent
      obtain ⟨b, rs, hb, hrs, hblock⟩ := hrec.blocks i bent hbent
      refine ⟨b, rs, ?_, ?_, hblock⟩
      · rw [h.blocks, Function.update_of_ne
          (hchain.ne_of_fresh h.fresh (List.mem_of_getElem? hbent)), hb]
      · rw [List.getElem?_append_left (by rw [hrec.length]; exact hlt), hrs]
    · rw [List.getElem?_append_right hge, List.getElem?_singleton] at hbent
      split_ifs at hbent with hzero
      cases hbent
      obtain rfl : i = s.entries.length := by omega
      refine ⟨bl, blockRecords env bl taken s, by rw [h.blocks]; exact Function.update_self _ _ _,
        by simp [← hrec.length], ⟨taken.map (Taken.record s.entries.length), rfl, ?_, ?_⟩⟩
      · rw [← h.ids_eq, List.map_map]
        rfl
      · intro r hr
        obtain ⟨t, -, rfl⟩ := List.mem_map.mp hr
        rfl
  · rw [List.flatten_append, List.flatten_singleton]
    exact ((hrec.ledger.mono fun hunknown => hunknown.mono hsub).of_connected h.connected).of_extends
      (h.counted_extends hknown)
  · rw [h.top] at hk
    exact Delegates.contains_of_mem_top hk

theorem not_stuck {V : Hash → Transaction → Prop} {recs : List (List TxRecord)}
    {rs : List TxRecord} {txId : Hash} {d : TxDetails} {pool : TxMemoryPool}
    (hstuck : Stuck env now bl rs l txId d pool s) (hrec : Recorded env recs s)
    (hvetted : s.Vetted) (hall : s.AllTxs V)
    (hminer : V ((getTransactionHash env.crypto bl.minerTx).getD nullHash) bl.minerTx)
    (hunique : ∀ id tx tx', V id tx → V id tx' → tx = tx') : False := by
  have hreplay := hrec.ledger.of_connected hstuck.connected
  have hsemantic := hvetted.semantic hstuck.inPool
  have haddable : l.Addable d.tx.toTransactionPrefix :=
    addable_of_validateTx hsemantic.engaged hsemantic.disjoint hstuck.valid
  rcases hreplay.votesTallied.addInputs_progress env.crypto s.entries.length haddable.disjoint
    haddable.checked haddable.fresh with ⟨tables, htables⟩ | hover
  · -- the transaction is in the chain already, so its inputs are used
    cases he : l.transactions txId with
    | none =>
      refine hstuck.notAdded ?_
      simp [Ledger.addTransactionFromBlock, htables, he]
    | some e =>
      obtain ⟨r, hr, hid, -⟩ := hreplay.listed.found txId e he
      have hV : V r.id r.tx := by
        rcases List.mem_append.mp hr with hr | hr
        · obtain ⟨e', he', htx, -⟩ := hrec.ledger.listed.present r hr
          exact htx ▸ hall.chain _ _ he'
        · rcases hstuck.records r hr with ⟨hid, htx⟩ | ⟨d', hd', htx⟩
          · rw [hid, htx]
            exact hminer
          · exact htx ▸ (hall.pool _ _ hd').1
      have htx : r.tx = d.tx :=
        hunique txId r.tx d.tx (hid ▸ hV) (hall.pool txId d hstuck.inPool).1
      obtain ⟨inp, vin, hvin⟩ := List.exists_cons_of_ne_nil hsemantic.nonempty
      have hmem : inp ∈ d.tx.vin := by simp [hvin]
      refine InputTables.not_used (haddable.checked inp hmem) (haddable.fresh inp hmem) ?_
        (hreplay.used r hr inp (htx ▸ hmem))
      rintro height rfl
      have := List.all_eq_true.mp hsemantic.inputs _ hmem
      simp at this
  · obtain ⟨⟨tables, htables⟩, hover⟩ := hover
    refine hstuck.noOverflow ?_
    simp [Ledger.addTransactionFromBlock, htables, hover]

end Adding

theorem uncountStatistics_extends {bl : Block} {v w : Storage}
    (htop : ∀ k ∈ v.topDelegates.elems, v.ledger.delegates.contains k = true)
    (h : v.uncountStatistics bl = .ok w) :
    v.log ⊆ w.log ∧ v.ledger.Extends (UnknownSigner w.log) w.ledger ∧
      w = { v with ledger := w.ledger, log := w.log } := by
  obtain ⟨prev, hprev, h⟩ := bind_eq_ok_iff.mp h
  cases prev with
  | none =>
    obtain rfl := Except.ok.inj h
    exact ⟨List.Subset.refl _, .refl _, rfl⟩
  | some blockPrev =>
    obtain ⟨fees, -, h⟩ := bind_eq_ok_iff.mp h
    obtain ⟨missed, hmissed, h⟩ := bind_eq_ok_iff.mp h
    obtain rfl := Except.ok.inj h
    refine ⟨List.subset_cons_self _ _, ?_, rfl⟩
    have hone : v.ledger.delegates.Extends
        (UnknownSigner (.undidProcessedBlock bl.signingDelegateId
          (v.ledger.delegates.contains bl.signingDelegateId) :: v.log))
        (v.ledger.delegates.uncountProcessed bl.signingDelegateId fees) := by
      refine Delegates.uncountProcessed_extends fun hnot => ?_
      exact ⟨bl.signingDelegateId, Or.inr (by simp [hnot])⟩
    refine .ofDelegates _ (hone.trans (Delegates.uncountMissed_extends fun k hk hnot => ?_))
    have := hone.contains (htop k (mem_top_of_missedDelegates (reading_eq_ok_iff.mp hmissed) k hk))
    rw [hnot] at this
    cases this

/-- The transactions of the last block are found and taken back. -/
theorem purgeBlockDataFromBlockchain_recorded {recs : List (List TxRecord)} {s : Storage}
    {bent : BlockchainEntry} {bl : Block} (hrec : Recorded env recs s)
    (hbent : s.entries.getLast? = some bent) (hbody : s.blocksByHash bent.hash = some bl) :
    Returns (purgeBlockDataFromBlockchain env now bl bl.txHashes.length
      { s with poppingBlock := true }) fun r => r.1 = true ∧ ∃ m pool,
        r.2 = { s with poppingBlock := true, ledger := m, pool := pool } ∧
        Ledger.Replay env.crypto (UnknownSigner s.log) Ledger.empty recs.dropLast.flatten m := by
  rw [List.getLast?_eq_getElem?] at hbent
  obtain ⟨b, rs, hb, hrs, ⟨txs, rfl, hids, -⟩⟩ := hrec.blocks _ _ hbent
  obtain rfl := Option.some.inj (hbody.symm.trans hb)
  have hsplit : recs = recs.dropLast ++ [⟨bl.minerTx, (getTransactionHash env.crypto bl.minerTx).getD
      nullHash, s.entries.length - 1⟩ :: txs] := by
    refine (List.dropLast_append_getLast? _ ?_).symm
    rw [List.getLast?_eq_getElem?, hrec.length, hrs]
    rfl
  have hledger := hrec.ledger
  rw [hsplit, List.flatten_append, List.flatten_singleton] at hledger
  exact purgeBlockDataFromBlockchain_spec (s := { s with poppingBlock := true })
    (Ledger.Replay.unwinds _ _ _) _ rfl le_rfl (by rw [hids, List.take_length]) hledger

theorem popBlockFromBlockchain_recorded {recs : List (List TxRecord)} {s : Storage}
    (hchain : s.ChainOk) (hrec : Recorded env recs s) :
    Returns (s.popBlockFromBlockchain env now) fun r =>
      r.1 = true ∧ Recorded env recs.dropLast r.2 ∨ r.1 = false ∧ r.2 = s := by
  refine (popBlockFromBlockchain_steps s).mono fun r hr => ?_
  rcases hr with - | ⟨-, hbent, hbody, hpurge⟩ | @⟨bent, bl, s₁, w, -, hbent, hbody, hpurge, hw⟩
  · exact Or.inr ⟨rfl, rfl⟩
  · cases ((purgeBlockDataFromBlockchain_recorded hrec hbent hbody).out _ hpurge).1
  obtain ⟨-, m, pool, rfl, hm⟩ :=
    (purgeBlockDataFromBlockchain_recorded hrec hbent hbody).out _ hpurge
  rw [List.getLast?_eq_getElem?] at hbent
  obtain ⟨hsub, hext, hframe⟩ :=
    uncountStatistics_extends (fun k hk => Delegates.contains_of_mem_top hk) hw
  have hindex : (w.blocksIndex bent.hash).isNone = false := by
    rw [hframe]
    simp [hchain.indexed _ _ hbent]
  left
  rw [removeLastEntry, hindex, if_neg (by simp)]
  have hentries : w.entries = s.entries := by rw [hframe]
  have hblocks : w.blocksByHash = s.blocksByHash := by rw [hframe]
  have htop : w.topDelegates = m.delegates.top env.config.dposNumDelegates := by rw [hframe]
  refine ⟨rfl, by simp [hentries, hrec.length], fun i bent' hbent' => ?_, ?_, fun k hk => ?_⟩
  · simp only [hentries, List.getElem?_dropLast] at hbent'
    split_ifs at hbent' with hlt
    obtain ⟨b₁, rs₁, hb₁, hrs₁, hblock⟩ := hrec.blocks i bent' hbent'
    refine ⟨b₁, rs₁, by simp only [hblocks]; exact hb₁, ?_, hblock⟩
    rw [List.getElem?_dropLast, if_pos (by rw [hrec.length]; exact hlt), hrs₁]
  · exact (hm.mono fun hunknown => hunknown.mono hsub).of_extends hext
  · rw [htop] at hk
    exact hext.tables.delegates.contains (Delegates.contains_of_mem_top hk)

/-- Every transaction that the state holds satisfies `V` under its id. -/
structure Carried (env : Env) (V : Hash → Transaction → Prop) (s : Storage) : Prop where
  allTxs : s.AllTxs V
  bodies : ∀ id b, s.blocksByHash id = some b →
    V ((getTransactionHash env.crypto b.minerTx).getD nullHash) b.minerTx

/-- What is known about a state whose transactions satisfy `V` under their ids. -/
structure Tracked (env : Env) (V : Hash → Transaction → Prop) (s : Storage) : Prop
    extends Carried env V s where
  recorded : .applyVoteOverflow ∈ s.log ∨ ∃ recs, Recorded env recs s

section Tracked

variable {V : Hash → Transaction → Prop} {D : Block → Prop} {s s' : Storage}

theorem Carried.congr (h : Carried env V s)
    (hbodies : ∀ id b, s'.blocksByHash id = some b → s.blocksByHash id = some b ∨
      V ((getTransactionHash env.crypto b.minerTx).getD nullHash) b.minerTx)
    (hpool : s'.pool = s.pool) (hledger : s'.ledger = s.ledger) : Carried env V s' := by
  refine ⟨h.allTxs.congr hpool (by rw [hledger]), fun id b hb => ?_⟩
  rcases hbodies id b hb with hold | hnew
  · exact h.bodies id b hold
  · exact hnew

theorem Carried.miner (h : Carried env V s) {bl : Block} {id : Hash} (hoffered : s.Offered D bl id)
    (hD : ∀ b, D b → V ((getTransactionHash env.crypto b.minerTx).getD nullHash) b.minerTx) :
    V ((getTransactionHash env.crypto bl.minerTx).getD nullHash) bl.minerTx := by
  rcases hoffered with hnew | hstored
  · exact hD bl hnew
  · exact h.bodies id bl hstored

theorem Carried.connect {bl : Block} {id : Hash} {exit : HandleExit} (hs : s.WellFormed)
    (h : Carried env V s) (hV : Rehashes env.crypto V)
    (hminer : V ((getTransactionHash env.crypto bl.minerTx).getD nullHash) bl.minerTx)
    (hrun : s.handleBlockToMainChain env now bl id = .ok (exit, s')) : Carried env V s' := by
  refine ⟨(handleBlockToMainChain_allTxs hV id (fun _ => hminer) h.allTxs).out _ hrun,
    fun k b hb => ?_⟩
  rcases (handleBlockToMainChain_bodies hs hrun).1 with hblocks | hblocks <;> rw [hblocks] at hb
  · exact h.bodies k b hb
  · rw [Function.update_apply] at hb
    split_ifs at hb
    · cases hb
      exact hminer
    · exact h.bodies k b hb

theorem Carried.action (hV : Rehashes env.crypto V)
    (hD : ∀ b, D b → V ((getTransactionHash env.crypto b.minerTx).getD nullHash) b.minerTx)
    (hs : s.Sound env) (h : Carried env V s) (haction : Action env D now s s') :
    Carried env V s' := by
  cases haction with
  | connect hoffered _ _ hrun =>
    exact h.connect hs.toWellFormed hV (h.miner hoffered hD) hrun
  | disconnect hrun =>
    refine ⟨(popBlockFromBlockchain_allTxs hV h.allTxs).out _ hrun, fun k b hb => ?_⟩
    rw [(PopFrame.of_pop hrun).frame] at hb
    exact h.bodies k b hb
  | storeBody hoffered _ _ =>
    refine h.congr (fun k b hb => ?_) rfl rfl
    simp only [Function.update_apply] at hb
    split_ifs at hb
    · cases hb
      exact Or.inr (h.miner hoffered hD)
    · exact Or.inl hb
  | place _ _ _ hplace =>
    obtain ⟨-, rfl⟩ := placeAlternativeBlock_eq_ok hplace
    exact h.congr (fun _ _ hb => Or.inl hb) rfl rfl
  | markInvalid ids hbody halt =>
    rw [markBranchInvalid_eq ids (hs.alternatives _ _ halt).1 hbody]
    exact h.congr (fun _ _ hb => Or.inl hb) rfl rfl
  | eraseAlternatives _ => exact h.congr (fun _ _ hb => Or.inl hb) rfl rfl
  | logSwitchFailed _ _ => exact h.congr (fun _ _ hb => Or.inl hb) rfl rfl
  | logPushFailed => exact h.congr (fun _ _ hb => Or.inl hb) rfl rfl

theorem Carried.receive {blob : Wire.Bytes} {kept : Bool} {r : Bool × TxVerificationContext × Storage}
    (hblob : ∀ tx, parseTransaction blob = some tx → V (env.crypto.cnFastHash blob) tx)
    (h : Carried env V s) (hrun : s.handleIncomingTx env now blob kept = .ok r) :
    Carried env V r.2.2 := by
  have hsame := (handleIncomingTx_sameButPool blob kept s).out _ hrun
  refine ⟨(handleIncomingTx_allTxs (fun tx txHash prefixHash hparse _ => ?_) h.allTxs).out _ hrun,
    ?_⟩
  · obtain ⟨tx', htx', hrest⟩ := Option.bind_eq_some_iff.mp hparse
    obtain ⟨_, -, heq⟩ := Option.map_eq_some_iff.mp hrest
    obtain ⟨rfl, rfl, -⟩ : tx' = tx ∧ env.crypto.cnFastHash blob = txHash ∧ _ = prefixHash := by
      simpa using heq
    exact hblob tx' htx'
  · rw [hsame]
    exact h.bodies

theorem Tracked.recorded_congr (h : Tracked env V s) (hgrow : BodiesGrow s s')
    (hentries : s'.entries = s.entries) (hledger : s'.ledger = s.ledger)
    (htop : s'.topDelegates = s.topDelegates) (hlog : s.log ⊆ s'.log) :
    .applyVoteOverflow ∈ s'.log ∨ ∃ recs, Recorded env recs s' :=
  h.recorded.imp (fun hmem => hlog hmem)
    fun ⟨recs, hrec⟩ => ⟨recs, hrec.congr hgrow hentries hledger htop hlog⟩

theorem Tracked.recorded_connect {bl : Block} {id : Hash} {exit : HandleExit} (hs : s.WellFormed)
    (h : Tracked env V s) (hunique : ∀ id tx tx', V id tx → V id tx' → tx = tx')
    (hminer : V ((getTransactionHash env.crypto bl.minerTx).getD nullHash) bl.minerTx)
    (hfits : s.Fits bl id) (hrun : s.handleBlockToMainChain env now bl id = .ok (exit, s')) :
    .applyVoteOverflow ∈ s'.log ∨ ∃ recs, Recorded env recs s' := by
  rcases hs.handle_cases hrun with ⟨taken, l, fee, base, prev, -, happ⟩ | ⟨-, hrej⟩
  · exact h.recorded.imp (fun hmem => happ.statistics.log_subset hmem)
      fun ⟨recs, hrec⟩ => ⟨_, happ.recorded hs.chain hrec⟩
  · rcases hrej.log with hlog | ⟨-, hlog⟩
    · refine h.recorded.imp (fun hmem => by rwa [hlog]) fun ⟨recs, hrec⟩ => ⟨recs, ?_⟩
      have hledger : s'.ledger = s.ledger := by
        rcases hrej.stuck hlog with heq | ⟨rs, l, txId, d, pool, hstuck⟩
        · exact heq
        · exact (not_stuck hstuck hrec hs.vetted h.allTxs hminer hunique).elim
      exact hrec.congr (fun k b hb => hrej.keepsBodies hfits hb) (by rw [hrej.frame]) hledger
        (by rw [hrej.frame]) (by rw [hlog]; exact List.Subset.refl _)
    · exact Or.inl (by simp [hlog])

theorem Tracked.recorded_disconnect {popped : Bool} (hs : s.WellFormed) (h : Tracked env V s)
    (hrun : s.popBlockFromBlockchain env now = .ok (popped, s')) :
    .applyVoteOverflow ∈ s'.log ∨ ∃ recs, Recorded env recs s' := by
  refine h.recorded.imp (fun hmem => (PopFrame.of_pop hrun).log hmem) fun ⟨recs, hrec⟩ => ?_
  rcases (popBlockFromBlockchain_recorded hs.chain hrec).out _ hrun with ⟨-, hrec'⟩ | ⟨-, heq⟩
  · exact ⟨_, hrec'⟩
  · obtain rfl : s' = s := heq
    exact ⟨recs, hrec⟩

theorem Tracked.action (hV : Rehashes env.crypto V)
    (hunique : ∀ id tx tx', V id tx → V id tx' → tx = tx')
    (hD : ∀ b, D b → V ((getTransactionHash env.crypto b.minerTx).getD nullHash) b.minerTx)
    (hs : s.Sound env) (h : Tracked env V s) (haction : Action env D now s s') :
    Tracked env V s' := by
  have hgrow := haction.bodiesGrow hs
  refine ⟨h.toCarried.action hV hD hs haction, ?_⟩
  cases haction with
  | connect hoffered _ hfits hrun =>
    exact h.recorded_connect hs.toWellFormed hunique (h.miner hoffered hD) hfits hrun
  | disconnect hrun => exact h.recorded_disconnect hs.toWellFormed hrun
  | storeBody _ _ _ => exact h.recorded_congr hgrow rfl rfl rfl (List.Subset.refl _)
  | place _ _ _ hplace =>
    obtain ⟨-, rfl⟩ := placeAlternativeBlock_eq_ok hplace
    exact h.recorded_congr hgrow rfl rfl rfl (List.Subset.refl _)
  | markInvalid ids hbody halt =>
    rw [markBranchInvalid_eq ids (hs.alternatives _ _ halt).1 hbody] at hgrow ⊢
    exact h.recorded_congr hgrow rfl rfl rfl (List.Subset.refl _)
  | eraseAlternatives _ => exact h.recorded_congr hgrow rfl rfl rfl (List.Subset.refl _)
  | logSwitchFailed _ _ => exact h.recorded_congr hgrow rfl rfl rfl (List.subset_cons_self _ _)
  | logPushFailed => exact h.recorded_congr hgrow rfl rfl rfl (List.subset_cons_self _ _)

theorem Tracked.receive {blob : Wire.Bytes} {kept : Bool} {r : Bool × TxVerificationContext × Storage}
    (hblob : ∀ tx, parseTransaction blob = some tx → V (env.crypto.cnFastHash blob) tx)
    (h : Tracked env V s) (hrun : s.handleIncomingTx env now blob kept = .ok r) :
    Tracked env V r.2.2 := by
  refine ⟨h.toCarried.receive hblob hrun, ?_⟩
  rw [(handleIncomingTx_sameButPool blob kept s).out _ hrun]
  exact h.recorded_congr (.refl _) rfl rfl rfl (List.Subset.refl _)

end Tracked

end Storage

end Pebblecoin
