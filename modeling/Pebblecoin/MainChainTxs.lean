import Pebblecoin.OutputPositions
import Pebblecoin.RandomOuts
import Pebblecoin.ReceivedBytes
import Pebblecoin.RejectedPool
import Pebblecoin.VoteFits

/-!
The transactions of the main chain, and the tables of the ledger as functions of
them.
-/

namespace Pebblecoin

open Containers Control

namespace Storage

variable {recs : List (List TxRecord)}

section MainChainTxs

variable (env : Env)

/-- The transactions of a block of the main chain as the table has them. -/
def blockTxs (height : Nat) (b : Block) (s : Storage) : List TxRecord :=
  ⟨b.minerTx, (getTransactionHash env.crypto b.minerTx).getD nullHash, height⟩ ::
    b.txHashes.filterMap fun id => (s.ledger.transactions id).map fun e => ⟨e.tx, id, height⟩

/-- The transactions of the main chain, from the genesis block on. -/
def mainChainTxs (s : Storage) : List TxRecord :=
  s.entries.zipIdx.flatMap fun p =>
    (s.blocksByHash p.1.hash).toList.flatMap fun b => s.blockTxs env p.2 b

/-- Every transaction that a block of the main chain names is in the table. -/
def AllStored (s : Storage) : Prop :=
  ∀ bent ∈ s.entries, ∃ b, s.blocksByHash bent.hash = some b ∧
    ∀ id ∈ b.txHashes, (s.ledger.transactions id).isSome = true

end MainChainTxs

variable {env : Env} {genesis : Block} {ops : List (UInt64 × Op)} {s : Storage}

theorem Recorded.listed (h : Recorded env recs s) : Ledger.Listed recs.flatten s.ledger :=
  h.ledger.listed

theorem blockTxs_eq {height : Nat} {b : Block} {rs all : List TxRecord}
    (h : BlockRecords env height b rs) (hsub : rs ⊆ all) (hlisted : Ledger.Listed all s.ledger) :
    s.blockTxs env height b = rs := by
  obtain ⟨txs, rfl, hids, hheight⟩ := h.split
  rw [blockTxs, ← hids]
  congr 1
  rw [List.filterMap_map]
  have hfound : ∀ r ∈ txs, ((fun id => (s.ledger.transactions id).map fun e =>
      (⟨e.tx, id, height⟩ : TxRecord)) ∘ (·.id)) r = some r := by
    intro r hr
    obtain ⟨e, he, htx, -⟩ := hlisted.present r (hsub (List.mem_cons_of_mem _ hr))
    simp only [Function.comp_apply, he, Option.map_some, htx, ← hheight r hr]
  rw [List.filterMap_congr hfound, List.filterMap_some]

theorem Recorded.mainChainTxs_eq (h : Recorded env recs s) : s.mainChainTxs env = recs.flatten := by
  have hrecs : recs = s.entries.zipIdx.map fun p =>
      (s.blocksByHash p.1.hash).toList.flatMap fun b => s.blockTxs env p.2 b := by
    refine List.ext_getElem? fun i => ?_
    rw [List.getElem?_map, List.getElem?_zipIdx]
    cases hbent : s.entries[i]? with
    | none =>
      rw [List.getElem?_eq_none_iff.mpr (by rw [h.length]; exact List.getElem?_eq_none_iff.mp hbent)]
      rfl
    | some bent =>
      obtain ⟨b, rs, hb, hrs, hblock⟩ := h.blocks i bent hbent
      have hsub : rs ⊆ recs.flatten := fun r hr =>
        List.mem_flatten.mpr ⟨rs, List.mem_of_getElem? hrs, hr⟩
      rw [hrs]
      simp [hb, blockTxs_eq hblock hsub h.listed]
  rw [mainChainTxs, List.flatMap_def, ← hrecs]

theorem Recorded.allStored (h : Recorded env recs s) : s.AllStored := by
  intro bent hbent
  obtain ⟨i, hi⟩ := List.mem_iff_getElem?.mp hbent
  obtain ⟨b, rs, hb, hrs, hblock⟩ := h.blocks i bent hi
  obtain ⟨txs, rfl, hids, -⟩ := hblock.split
  refine ⟨b, hb, fun id hid => ?_⟩
  rw [← hids] at hid
  obtain ⟨r, hr, rfl⟩ := List.mem_map.mp hid
  obtain ⟨e, he, -⟩ := h.listed.present r
    (List.mem_flatten.mpr ⟨_, List.mem_of_getElem? hrs, List.mem_cons_of_mem _ hr⟩)
  rw [he]
  rfl

/-- The spent keys are the key images that the main chain spends, each once. -/
theorem spentKeys_eq_mainChain (h : s.ReachedBy env genesis ops)
    (hids : IdsUnique env.crypto genesis ops) (hoverflow : .applyVoteOverflow ∉ s.log) :
    s.AllStored ∧ (∀ k, s.ledger.spentKeys k = true ↔ k ∈ spentImages (s.mainChainTxs env)) ∧
      (spentImages (s.mainChainTxs env)).Nodup := by
  obtain ⟨recs, hrec⟩ := h.recorded hids hoverflow
  have hspends := hrec.ledger.spends
  rw [hrec.mainChainTxs_eq]
  refine ⟨hrec.allStored, fun k => ?_, hspends.nodup⟩
  rw [hspends.spent_iff k]
  simp [Ledger.empty]

theorem spentKeys_eq_mainChain_of_sampleSpending :
    sampleSpending.AllStored ∧
      (∀ k, sampleSpending.ledger.spentKeys k = true ↔
        k ∈ spentImages (sampleSpending.mainChainTxs samplePowEnv)) ∧
      (spentImages (sampleSpending.mainChainTxs samplePowEnv)).Nodup :=
  spentKeys_eq_mainChain sampleSpending_reachedBy sampleSpending_idsUnique sampleSpending_quiet

theorem Recorded.heights (h : Recorded env recs s) :
    recs.flatten.Pairwise fun r r' => r.height ≤ r'.height := by
  have hheight : ∀ (i : Nat) rs, recs[i]? = some rs → ∀ r ∈ rs, r.height = i := by
    intro i rs hrs r hr
    have hlt : i < s.entries.length := by
      rw [← h.length]
      exact (List.getElem?_eq_some_iff.mp hrs).1
    obtain ⟨b, rs', -, hrs', hblock⟩ := h.blocks i _ (List.getElem?_eq_getElem hlt)
    obtain rfl : rs = rs' := Option.some.inj (hrs.symm.trans hrs')
    obtain ⟨txs, rfl, -, htxs⟩ := hblock.split
    rcases List.mem_cons.mp hr with rfl | hr
    · rfl
    · exact htxs r hr
  refine List.pairwise_flatten.mpr ⟨fun rs hrs => ?_, ?_⟩
  · obtain ⟨i, hi⟩ := List.mem_iff_getElem?.mp hrs
    refine List.pairwise_of_forall_mem_list fun r hr r' hr' => ?_
    rw [hheight i rs hi r hr, hheight i rs hi r' hr']
  · refine List.pairwise_iff_getElem.mpr fun i j hi hj hij r hr r' hr' => ?_
    rw [hheight i _ (List.getElem?_eq_getElem hi) r hr, hheight j _ (List.getElem?_eq_getElem hj) r' hr']
    omega

/-- The block that contains an output is not above that of a later one. -/
def HeightLe (s : Storage) (p q : Hash × Nat) : Prop :=
  ∃ e e', s.ledger.transactions p.1 = some e ∧ s.ledger.transactions q.1 = some e' ∧
    e.keeperBlockHeight ≤ e'.keeperBlockHeight

theorem Recorded.outputs_heightLe (h : Recorded env recs s) (key : CoinType × UInt64) :
    (outputsOf recs.flatten key).Pairwise s.HeightLe := by
  have hle : ∀ r ∈ recs.flatten, ∀ r' ∈ recs.flatten, r.height ≤ r'.height →
      ∀ p ∈ r.outputsAt key, ∀ q ∈ r'.outputsAt key, s.HeightLe p q := by
    intro r hr r' hr' hheight p hp q hq
    obtain ⟨e, he, -, hkeeper⟩ := h.listed.present r hr
    obtain ⟨e', he', -, hkeeper'⟩ := h.listed.present r' hr'
    exact ⟨e, e', by rw [r.fst_of_mem_outputsAt hp, he], by rw [r'.fst_of_mem_outputsAt hq, he'],
      by rw [hkeeper, hkeeper']; exact hheight⟩
  refine List.pairwise_flatMap.mpr ⟨fun r hr => ?_, ?_⟩
  · exact List.pairwise_of_forall_mem_list fun p hp q hq => hle r hr r hr le_rfl p hp q hq
  · exact h.heights.imp_of_mem fun hr hr' hheight => hle _ hr _ hr' hheight

/-- The outputs of each kind are those of the main chain in order, every stored
transaction knows the positions of its own, and the heights do not decrease. -/
theorem outputs_eq_mainChain (h : s.ReachedBy env genesis ops)
    (hids : IdsUnique env.crypto genesis ops) (hoverflow : .applyVoteOverflow ∉ s.log) :
    s.AllStored ∧ (∀ key, s.ledger.outputs key = outputsOf (s.mainChainTxs env) key) ∧
      (∀ r ∈ s.mainChainTxs env, ∃ e, s.ledger.transactions r.id = some e ∧ e.tx = r.tx ∧
        e.keeperBlockHeight = r.height ∧ Ledger.Positioned s.ledger.outputs r.id e) ∧
      ∀ key, (s.ledger.outputs key).Pairwise s.HeightLe := by
  obtain ⟨recs, hrec⟩ := h.recorded hids hoverflow
  have hindexed := hrec.ledger.indexed
  rw [hrec.mainChainTxs_eq]
  refine ⟨hrec.allStored, hindexed.outputs, fun r hr => ?_, fun key => ?_⟩
  · obtain ⟨e, he, htx, hheight⟩ := hrec.listed.present r hr
    exact ⟨e, he, htx, hheight, hindexed.positioned r.id e he⟩
  · rw [hindexed.outputs key]
    exact hrec.outputs_heightLe key

theorem outputs_eq_mainChain_of_sampleSpending :
    sampleSpending.AllStored ∧
      (∀ key, sampleSpending.ledger.outputs key =
        outputsOf (sampleSpending.mainChainTxs samplePowEnv) key) ∧
      (∀ r ∈ sampleSpending.mainChainTxs samplePowEnv,
        ∃ e, sampleSpending.ledger.transactions r.id = some e ∧ e.tx = r.tx ∧
          e.keeperBlockHeight = r.height ∧
          Ledger.Positioned sampleSpending.ledger.outputs r.id e) ∧
      ∀ key, (sampleSpending.ledger.outputs key).Pairwise sampleSpending.HeightLe :=
  outputs_eq_mainChain sampleSpending_reachedBy sampleSpending_idsUnique sampleSpending_quiet

/-- An output of the main chain of this amount, with its key and its position, which may be
spent and is buried deep enough. -/
def MatureOutput (env : Env) (now : UInt64) (s : Storage) (amount : UInt64) (oen : OutEntry) : Prop :=
  ∃ r ∈ s.mainChainTxs env, ∃ j out,
    (s.ledger.outputs (cpXpb, amount))[oen.globalAmountIndex]? = some (r.id, j) ∧
    r.tx.vout[j]? = some out ∧ r.tx.outCp j = cpXpb ∧ out.amount = amount ∧
    out.target = .toKey oen.outKey ∧ s.isTxSpendtimeUnlocked env now r.tx.unlockTime = true ∧
    r.height + cryptonoteMinedMoneyUnlockWindow ≤ s.getCurrentBlockchainHeight

theorem old_of_lt_findEnd {amountOuts : List (Hash × Nat)} (hsorted : amountOuts.Pairwise s.HeightLe)
    {i : Nat} (hi : i < s.findEndOfAllowedIndex amountOuts) {out : Hash × Nat}
    (hout : amountOuts[i]? = some out) {entry : TransactionChainEntry}
    (hentry : s.ledger.transactions out.1 = some entry) :
    entry.keeperBlockHeight + cryptonoteMinedMoneyUnlockWindow ≤ s.getCurrentBlockchainHeight := by
  obtain ⟨last, hlast⟩ := Nat.exists_eq_succ_of_ne_zero (Nat.ne_of_gt (Nat.zero_lt_of_lt hi))
  obtain ⟨out', hout', hold⟩ := Option.bind_eq_some_iff.mp (isOld_of_findEndFrom hlast)
  obtain ⟨entry', hentry', holder⟩ := Option.map_eq_some_iff.mp hold
  have hlimit := of_decide_eq_true holder
  rcases Nat.lt_or_eq_of_le (Nat.le_of_lt_succ (hlast ▸ hi)) with hlt | rfl
  · obtain ⟨hi', rfl⟩ := List.getElem?_eq_some_iff.mp hout
    obtain ⟨hlast', rfl⟩ := List.getElem?_eq_some_iff.mp hout'
    obtain ⟨e, e', he, he', hle⟩ := List.pairwise_iff_getElem.mp hsorted i last hi' hlast' hlt
    obtain rfl := Option.some.inj (hentry.symm.trans he)
    obtain rfl := Option.some.inj (hentry'.symm.trans he')
    omega
  · obtain rfl := Option.some.inj (hout.symm.trans hout')
    obtain rfl := Option.some.inj (hentry.symm.trans hentry')
    exact hlimit

theorem Recorded.matureOutput (h : Recorded env recs s) {now : UInt64} {amount : UInt64}
    {oen : OutEntry} {out : Hash × Nat} {entry : TransactionChainEntry}
    (hopens : Opens env now s (s.ledger.outputs (cpXpb, amount)) oen out entry)
    (hlt : oen.globalAmountIndex < s.findEndOfAllowedIndex (s.ledger.outputs (cpXpb, amount))) :
    MatureOutput env now s amount oen := by
  have houtputs := h.ledger.indexed.outputs (cpXpb, amount)
  have hsorted := h.outputs_heightLe (cpXpb, amount)
  rw [← houtputs] at hsorted
  have hold := old_of_lt_findEnd hsorted hlt hopens.position hopens.stored
  have hmem := List.mem_of_getElem? hopens.position
  rw [houtputs] at hmem
  obtain ⟨r, hr, hmem⟩ := List.mem_flatMap.mp hmem
  obtain ⟨hid, txOut, htxOut, hkey⟩ := TxRecord.getElem_of_mem_outputsAt hmem
  obtain ⟨hcp, hamount⟩ := Prod.mk.inj hkey
  obtain ⟨e, he, htx, hheight⟩ := h.listed.present r hr
  obtain rfl : e = entry := Option.some.inj (he.symm.trans (hid ▸ hopens.stored))
  obtain ⟨txOut', htxOut', htarget⟩ := hopens.key
  rw [htx] at htxOut'
  obtain rfl := Option.some.inj (htxOut.symm.trans htxOut')
  refine ⟨r, h.mainChainTxs_eq ▸ hr, out.2, txOut, ?_, htxOut, hcp, hamount, htarget,
    htx ▸ hopens.unlocked, hheight ▸ hold⟩
  rw [hopens.position, ← hid]

/-- Whatever the generator gives, every amount is answered with different outputs of the main
chain that may be spent, and with a fair generator there is an answer. -/
theorem randomOuts_mature (h : s.ReachedBy env genesis ops)
    (hids : IdsUnique env.crypto genesis ops) (hoverflow : .applyVoteOverflow ∉ s.log)
    (now : UInt64) (outsCount : Nat) (rand : Nat → Nat) (amounts : List UInt64) :
    (∀ rounds ok res,
      s.getRandomOutsForAmounts env now outsCount rand rounds amounts 0 = some (ok, res) →
        ok = true ∧ res.map (·.amount) = amounts ∧ ∀ o ∈ res, o.outs.length ≤ outsCount ∧
          (o.outs.map (·.globalAmountIndex)).Nodup ∧
          ∀ oen ∈ o.outs, MatureOutput env now s o.amount oen) ∧
      (Fair rand → ∃ rounds r,
        s.getRandomOutsForAmounts env now outsCount rand rounds amounts 0 = some r) := by
  obtain ⟨recs, hrec⟩ := h.recorded hids hoverflow
  refine ⟨fun rounds ok res hres => ?_, fun hrand =>
    exists_getRandomOutsForAmounts hrand outsCount amounts 0⟩
  obtain ⟨hok, hamounts, hgives⟩ := getRandomOutsForAmounts_givesOuts hres
  refine ⟨hok, hamounts, fun o ho => ⟨(hgives o ho).length_le, (hgives o ho).nodup, ?_⟩⟩
  intro oen hoen
  obtain ⟨hlt, out, entry, hopens⟩ := (hgives o ho).allowed oen hoen
  exact hrec.matureOutput hopens hlt

theorem randomOuts_mature_of_sampleSpending : ∃ rounds res,
    sampleSpending.getRandomOutsForAmounts samplePowEnv 1000 2 id rounds [sampleReward] 0 =
        some (true, res) ∧
      ∀ o ∈ res, o.outs.length ≤ 2 ∧ (o.outs.map (·.globalAmountIndex)).Nodup ∧
        ∀ oen ∈ o.outs, MatureOutput samplePowEnv 1000 sampleSpending o.amount oen := by
  have hmature := randomOuts_mature sampleSpending_reachedBy sampleSpending_idsUnique
    sampleSpending_quiet 1000 2 id [sampleReward]
  obtain ⟨rounds, ⟨ok, res⟩, hres⟩ := hmature.2 fair_id
  obtain ⟨rfl, -, houts⟩ := hmature.1 rounds ok res hres
  exact ⟨rounds, res, hres, houts⟩

/-- The chain, its index and its tables are the same, and the pool has the same ids. -/
structure Untouched (s s' : Storage) : Prop where
  entries : s'.entries = s.entries
  index : s'.blocksIndex = s.blocksIndex
  ledger : s'.ledger = s.ledger
  top : s'.topDelegates = s.topDelegates
  pool : SamePoolIds s s'

/-- A block that is refused leaves the chain and the pool as they were exactly if the votes
of every transaction it gets to fit on the totals before. -/
theorem refused_block_untouched_iff (h : s.ReachedBy env genesis ops) {now : UInt64} {bl : Block}
    {id : Hash} {exit : HandleExit} {s' : Storage}
    (hids : IdsUnique env.crypto genesis (ops ++ [(now, .addNewBlock 0 bl)]))
    (hquiet : .applyVoteOverflow ∉ s.log) (hcanonical : CanonicalPool env s)
    (hrun : s.handleBlockToMainChain env now bl id = .ok (exit, s')) (hexit : exit ≠ .added) :
    Untouched s s' ↔ s.BlockVotesFit env now bl id := by
  have hs := h.reachable.sound.toWellFormed
  have hids₀ := IdsUnique.of_append hids
  obtain ⟨recs, hrec⟩ := h.recorded hids₀ hquiet
  have hrej := Rejected.of_handle hs hexit hrun
  rw [← handleBlockToMainChain_quiet_iff hs.vetted hs.popping hrec.ledger.votesTallied hrun hexit]
  constructor
  · intro huntouched
    rcases (handleBlockToMainChain_traced hs.vetted hs.popping hrec.ledger).out _ hrun hexit with
      hlog | ⟨inp, hnot, htraced⟩
    · exact hlog
    · have hused := htraced.used
      rw [huntouched.ledger] at hused
      exact absurd hused hnot
  · intro hlog
    have hledger : s'.ledger = s.ledger := by
      rcases hrej.stuck hlog with heq | ⟨rs, l, txId, d, pool, hstuck⟩
      · exact heq
      have hall : s.AllTxs fun k tx => (k, tx) ∈ identified env.crypto genesis
          (ops ++ [(now, .addNewBlock 0 bl)]) :=
        (h.tracked hids₀).allTxs.mono fun _ _ hk => identified_append.mpr (Or.inl hk)
      refine (not_stuck hstuck hrec hs.vetted hall ?_ fun k tx tx' htx htx' => ?_).elim
      · exact identified_append.mpr (Or.inr (by simp [Op.identified, Block.minerPair]))
      · exact hids _ htx _ htx' rfl
    refine ⟨by rw [hrej.frame], by rw [hrej.frame], hledger, by rw [hrej.frame], ?_⟩
    exact (handleBlockToMainChain_samePoolIds hs.vetted hs.popping hcanonical).out _ hrun hexit
      (by rw [hledger])

/-- The block of the registration pays its miner too much. -/
def sampleGreedyBlock : Block :=
  { sampleRegistrationBlock with
    minerTx := sampleMinerTx 12 [⟨2 * sampleReward, .toKey (Blob.ofNat 32 1)⟩] }

theorem sampleGreedy_play :
    ((play samplePowEnv 1000 sampleGenesis sampleSpendingOps.dropLast).any fun s =>
      decide (.applyVoteOverflow ∉ s.log) &&
        decide (s.BlockVotesFit samplePowEnv 1000 sampleGreedyBlock (sampleId sampleGreedyBlock)) &&
        (s.handleBlockToMainChain samplePowEnv 1000 sampleGreedyBlock
          (sampleId sampleGreedyBlock)).toOption.any fun r =>
            decide (r.1 = .wrongMinerTransaction)) = true := by
  decide +kernel

theorem sampleGreedy_ids :
    CanonicalIds sampleCrypto sampleGenesis sampleSpendingOps.dropLast ∧
      IdsUnique sampleCrypto sampleGenesis
        (sampleSpendingOps.dropLast ++ [(1000, .addNewBlock 0 sampleGreedyBlock)]) := by
  decide +kernel

theorem refused_block_untouched_of_sampleGreedyBlock : ∃ s s' : Storage,
    s.ReachedBy samplePowEnv sampleGenesis sampleSpendingOps.dropLast ∧
      s.handleBlockToMainChain samplePowEnv 1000 sampleGreedyBlock (sampleId sampleGreedyBlock) =
        .ok (.wrongMinerTransaction, s') ∧ Untouched s s' := by
  obtain ⟨s, hplay, hs⟩ := (Option.any_eq_true _ _).mp sampleGreedy_play
  simp only [Bool.and_eq_true, decide_eq_true_eq] at hs
  obtain ⟨⟨hquiet, hfits⟩, hany⟩ := hs
  obtain ⟨⟨exit, s'⟩, hrun, hexit⟩ := (Option.any_eq_true _ _).mp hany
  obtain rfl := of_decide_eq_true hexit
  have hreached := reachedBy_of_play_eq hplay
  have hhandle := Control.eq_ok_of_toOption hrun
  exact ⟨s, s', hreached, hhandle, (refused_block_untouched_iff hreached sampleGreedy_ids.2 hquiet
    (hreached.canonicalPool sampleGreedy_ids.1) hhandle (by decide)).mpr hfits⟩

/-- The chain of the samples below a checkpoint, where no proof of work is checked. -/
def sampleZoneEnv : Env := { samplePowEnv with checkpoints := sampleFarCheckpoint }

/-- Spend the first output of an amount four times, with four key images. -/
def sampleFourfold (amount : UInt64) (k : Nat) : Transaction :=
  sampleTx ((List.range 4).map fun i => .toKey (sampleInk amount (k + i))) [4 * amount]

def sampleFourfolds : (n : Nat) → (amount : UInt64) → (k : Nat) → List Transaction
  | 0, _, _ => []
  | n + 1, amount, k => sampleFourfold amount k :: sampleFourfolds n (4 * amount) (k + 4)

def sampleVote (k : Nat) (seq : UInt16) : TxIn :=
  .vote ⟨sampleInk (sampleReward * 4 ^ 14) k, seq, OrdSet.ofElems [7]⟩

/-- The second transaction votes with what the first has voted with, and with two
outputs more: together they are too much for one total. -/
def sampleVoteTxs : List Transaction :=
  [sampleTx [.toKey (sampleInk sampleReward 101), sampleVote 201 0] [sampleReward],
    sampleTx [.toKey (sampleInk sampleReward 102), sampleVote 201 1, sampleVote 202 0,
      sampleVote 203 0] [sampleReward]]

def sampleRichTxs : List Transaction := sampleRegistration :: sampleFourfolds 14 sampleReward 0

def sampleRichBlock : Block :=
  sampleFullBlock 12 sampleFirstTop sampleRichTxs

def sampleVoteBlock : Block := sampleFullBlock 13 (sampleId sampleRichBlock) sampleVoteTxs

/-- All transactions have arrived, the vote block has not. -/
def sampleBallotOps : List (UInt64 × Op) :=
  sampleFirstBlocks.map (fun b => (1000, .addNewBlock 0 b)) ++
    sampleFullOps sampleRichTxs sampleRichBlock ++ (sampleFullOps sampleVoteTxs sampleVoteBlock).dropLast

def sampleStrayKey : KeyImage := Blob.ofNat 32 102

/-- The spent keys and the outputs are not those of the main chain. -/
def strays (s : Storage) : Bool :=
  s.ledger.spentKeys sampleStrayKey &&
    decide (sampleStrayKey ∉ spentImages (s.mainChainTxs sampleZoneEnv)) &&
    decide ((s.ledger.outputs (cpXpb, sampleReward)).length ≠
      (outputsOf (s.mainChainTxs sampleZoneEnv) (cpXpb, sampleReward)).length)

def refusesVoteBlock (s : Storage) : Bool :=
  !s.haveBlock (sampleId sampleVoteBlock) && decide (sampleVoteBlock.prevId = s.getTailId) &&
    !s.ledger.spentKeys sampleStrayKey &&
    (s.handleBlockToMainChain sampleZoneEnv 1000 sampleVoteBlock
      (sampleId sampleVoteBlock)).toOption.any fun r =>
        decide (r.1 = .failedTransaction) && r.2.strays

/-- The vote block is refused, and ten blocks follow. -/
def sampleStrayOps : List (UInt64 × Op) :=
  (1000, .addNewBlock 0 sampleVoteBlock) ::
    (samplePowBlocks 10 13 (sampleId sampleRichBlock)).map fun b => (1000, .addNewBlock 0 b)

/-- An output is given to mix with whose transaction is on no chain. -/
def givesStray (s : Storage) : Bool :=
  (s.getRandomOutsForAmounts sampleZoneEnv 1000 100 (fun _ => 0) 0 [sampleReward] 0).any fun r =>
    r.2.any fun o => decide (o.amount = sampleReward) && o.outs.any fun oen =>
      ((s.ledger.outputs (cpXpb, sampleReward))[oen.globalAmountIndex]?).all fun p =>
        (s.mainChainTxs sampleZoneEnv).all fun r => decide (r.id ≠ p.1)

theorem sampleTxs_written : ∀ tx ∈ sampleRichTxs ++ sampleVoteTxs, tx.Written := by
  decide +kernel

/-- The rich block and the voting transactions, after the first blocks. -/
def sampleBallotRun (s : Storage) : Except Interrupted Storage := do
  let s ← s.receiveAll sampleZoneEnv 1000 sampleRichTxs
  let s ← s.calls sampleZoneEnv [(1000, .addNewBlock 0 sampleRichBlock)]
  s.receiveAll sampleZoneEnv 1000 sampleVoteTxs

theorem sampleVotes_dropLast : (sampleFullOps sampleVoteTxs sampleVoteBlock).dropLast =
    deliveries 1000 sampleVoteTxs := by
  rw [sampleFullOps, List.dropLast_concat]
  rfl

theorem calls_sampleBallot (s : Storage) :
    s.calls sampleZoneEnv (sampleFullOps sampleRichTxs sampleRichBlock ++
      (sampleFullOps sampleVoteTxs sampleVoteBlock).dropLast) = s.sampleBallotRun := by
  have hrich : sampleFullOps sampleRichTxs sampleRichBlock =
      deliveries 1000 sampleRichTxs ++ [(1000, .addNewBlock 0 sampleRichBlock)] := rfl
  rw [sampleVotes_dropLast, hrich, calls_append, calls_append,
    calls_deliveries _ _ (fun tx htx => sampleTxs_written tx (by simp [htx])), bind_assoc]
  refine bind_congr fun t => bind_congr fun t => ?_
  exact calls_deliveries _ _ (fun tx htx => sampleTxs_written tx (by simp [htx])) t

theorem sampleBallot_canonicalIds : CanonicalIds sampleCrypto sampleGenesis sampleBallotOps := by
  have hblocks : ∀ bl ∈ sampleRichBlock :: sampleFirstBlocks,
      (getTransactionHash sampleCrypto bl.minerTx).isSome = true := by
    decide +kernel
  refine canonicalIds_of_forall (by decide +kernel) fun op hop => ?_
  rw [sampleBallotOps, sampleVotes_dropLast] at hop
  rcases List.mem_append.mp hop with hop | hvote
  · rcases List.mem_append.mp hop with hfirst | hrich
    · obtain ⟨bl, hbl, rfl⟩ := List.mem_map.mp hfirst
      exact Block.canonical (hblocks bl (by simp [hbl])) 0
    · rcases List.mem_append.mp hrich with hdelivery | hblock
      · exact canonical_of_mem_deliveries sampleZoneEnv 1000
          (fun tx htx => sampleTxs_written tx (by simp [htx])) hdelivery
      · obtain rfl := List.mem_singleton.mp hblock
        exact Block.canonical (hblocks _ (by simp)) 0
  · exact canonical_of_mem_deliveries sampleZoneEnv 1000
      (fun tx htx => sampleTxs_written tx (by simp [htx])) hvote

/-- The state with the votes in the pool passes the test. -/
def testBallot (test : Storage → Bool) : Bool :=
  (play sampleZoneEnv 1000 sampleGenesis
    (sampleFirstBlocks.map fun b => (1000, .addNewBlock 0 b))).any fun s =>
      s.sampleBallotRun.toOption.any test

theorem exists_of_testBallot {test : Storage → Bool} (h : testBallot test = true) :
    ∃ s : Storage, s.ReachedBy sampleZoneEnv sampleGenesis sampleBallotOps ∧ test s = true := by
  obtain ⟨s₁, hplay, hany⟩ := (Option.any_eq_true _ _).mp h
  obtain ⟨s, hrun, hs⟩ := (Option.any_eq_true _ _).mp hany
  obtain ⟨hcalm, hrun⟩ :=
    uninterrupted_of_calls ((calls_sampleBallot s₁).trans (eq_ok_of_toOption hrun))
  have hreached := (reachedBy_of_play_eq hplay).append hcalm hrun
  rw [← List.append_assoc] at hreached
  exact ⟨s, hreached, hs⟩

-- one evaluation of the long run for all that follows it
theorem testBallot_strays : testBallot (fun s => s.refusesVoteBlock &&
    (s.calls sampleZoneEnv sampleStrayOps).toOption.any givesStray) = true := by
  decide +kernel

theorem sampleBallot_strays : ∃ s s' : Storage,
    s.ReachedBy sampleZoneEnv sampleGenesis sampleBallotOps ∧ CanonicalPool sampleZoneEnv s ∧
      s.handleBlockToMainChain sampleZoneEnv 1000 sampleVoteBlock (sampleId sampleVoteBlock) =
        .ok (.failedTransaction, s') ∧
      s'.ReachedBy sampleZoneEnv sampleGenesis
        (sampleBallotOps ++ [(1000, .addNewBlock 0 sampleVoteBlock)]) ∧
      s.ledger.spentKeys sampleStrayKey = false ∧ s'.strays = true := by
  obtain ⟨s, hreached, hs⟩ := exists_of_testBallot testBallot_strays
  simp only [refusesVoteBlock, Bool.and_eq_true, Bool.not_eq_true', decide_eq_true_eq] at hs
  obtain ⟨⟨⟨⟨hnew, hprev⟩, hunspent⟩, hany⟩, -⟩ := hs
  obtain ⟨⟨exit, s'⟩, hrun, hr⟩ := (Option.any_eq_true _ _).mp hany
  simp only [Bool.and_eq_true, decide_eq_true_eq] at hr
  obtain ⟨rfl, hstrays⟩ := hr
  have hhandle := Control.eq_ok_of_toOption hrun
  have hid : getBlockHash sampleZoneEnv.crypto sampleVoteBlock = some (sampleId sampleVoteBlock) := by
    decide +kernel
  have hcalls : s.calls sampleZoneEnv [(1000, .addNewBlock 0 sampleVoteBlock)] = .ok s' := by
    simp only [calls, call, addNewBlock, hid, hnew, hprev, hhandle]
    rfl
  obtain ⟨hcalm, hrun⟩ := uninterrupted_of_calls hcalls
  exact ⟨s, s', hreached, hreached.canonicalPool sampleBallot_canonicalIds, hhandle,
    hreached.append hcalm hrun, hunspent, hstrays⟩

/-- After a block whose votes overflow, a key counts as spent that no transaction of
the main chain spends. -/
theorem spentKeys_strays_after_overflow : ∃ (s : Storage) (k : KeyImage),
    s.ReachedBy sampleZoneEnv sampleGenesis
        (sampleBallotOps ++ [(1000, .addNewBlock 0 sampleVoteBlock)]) ∧
      s.ledger.spentKeys k = true ∧ k ∉ spentImages (s.mainChainTxs sampleZoneEnv) := by
  obtain ⟨-, s, -, -, -, hreached, -, hstrays⟩ := sampleBallot_strays
  simp only [strays, Bool.and_eq_true, decide_eq_true_eq] at hstrays
  exact ⟨s, sampleStrayKey, hreached, hstrays.1.1, hstrays.1.2⟩

/-- The outputs of a transaction of that block stay, though it is on no chain. -/
theorem outputs_stray_after_overflow : ∃ (s : Storage) (key : CoinType × UInt64),
    s.ReachedBy sampleZoneEnv sampleGenesis
        (sampleBallotOps ++ [(1000, .addNewBlock 0 sampleVoteBlock)]) ∧
      s.ledger.outputs key ≠ outputsOf (s.mainChainTxs sampleZoneEnv) key := by
  obtain ⟨-, s, -, -, -, hreached, -, hstrays⟩ := sampleBallot_strays
  simp only [strays, Bool.and_eq_true, decide_eq_true_eq] at hstrays
  exact ⟨s, _, hreached, fun heq => hstrays.2 (congrArg List.length heq)⟩

/-- Ten blocks later such an output is given to wallets to mix with. -/
theorem stray_given_after_overflow : ∃ (s : Storage) (res : List OutsForAmount) (o : OutsForAmount)
    (oen : OutEntry),
    s.ReachedBy sampleZoneEnv sampleGenesis (sampleBallotOps ++ sampleStrayOps) ∧
      s.getRandomOutsForAmounts sampleZoneEnv 1000 100 (fun _ => 0) 0 [sampleReward] 0 =
        some (true, res) ∧
      o ∈ res ∧ oen ∈ o.outs ∧ ¬ MatureOutput sampleZoneEnv 1000 s o.amount oen := by
  obtain ⟨s, hreached, hs⟩ := exists_of_testBallot testBallot_strays
  simp only [Bool.and_eq_true] at hs
  obtain ⟨s', hrun, hgives⟩ := (Option.any_eq_true _ _).mp hs.2
  obtain ⟨⟨ok, res⟩, hres, hany⟩ := (Option.any_eq_true _ _).mp hgives
  obtain ⟨o, ho, hany⟩ := List.any_eq_true.mp hany
  simp only [Bool.and_eq_true, decide_eq_true_eq] at hany
  obtain ⟨hamount, hany⟩ := hany
  obtain ⟨oen, hoen, hstray⟩ := List.any_eq_true.mp hany
  obtain rfl := (getRandomOutsForAmounts_givesOuts hres).1
  obtain ⟨hcalm, hrun⟩ := uninterrupted_of_calls (eq_ok_of_toOption hrun)
  refine ⟨s', res, o, oen, hreached.append hcalm hrun, hres, ho, hoen, ?_⟩
  rintro ⟨r, hr, j, out, hposition, -⟩
  rw [← hamount, hposition, Option.all_some] at hstray
  exact of_decide_eq_true (List.all_eq_true.mp hstray r hr) rfl

theorem refused_block_spends_key : ∃ (s s' : Storage) (k : KeyImage),
    s.ReachedBy sampleZoneEnv sampleGenesis sampleBallotOps ∧ CanonicalPool sampleZoneEnv s ∧
      s.handleBlockToMainChain sampleZoneEnv 1000 sampleVoteBlock (sampleId sampleVoteBlock) =
        .ok (.failedTransaction, s') ∧
      s.ledger.spentKeys k = false ∧ s'.ledger.spentKeys k = true := by
  obtain ⟨s, s', hreached, hcanonical, hrun, -, hunspent, hstrays⟩ := sampleBallot_strays
  simp only [strays, Bool.and_eq_true, decide_eq_true_eq] at hstrays
  exact ⟨s, s', sampleStrayKey, hreached, hcanonical, hrun, hunspent, hstrays.1.1⟩

end Storage

end Pebblecoin
