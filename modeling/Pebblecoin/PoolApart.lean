import Pebblecoin.RunRecords

/-!
No transaction is in the pool and in the chain at the same time.
-/

namespace Pebblecoin

open Control Wire

namespace Storage

variable {env : Env} {now : UInt64}

/-- The id is the hash of the transaction. -/
def OwnHash (crypto : Crypto) (id : Hash) (tx : Transaction) : Prop :=
  (getTransactionHash crypto tx).getD nullHash = id

theorem ownHash_rehashes (crypto : Crypto) : Rehashes crypto (OwnHash crypto) := fun _ _ _ => rfl

/-- Transactions are filed under their hashes, and what is in the pool is not in the
chain. -/
structure Apart (crypto : Crypto) (s : Storage) : Prop extends AllTxs (OwnHash crypto) s where
  apart : ∀ id, (s.pool.transactions id).isSome = true → s.ledger.transactions id = none

theorem returnToPool_subset (tx : Transaction) (s : Storage) :
    Returns (s.returnToPool env now tx) fun r =>
      r.2.ledger.transactions = s.ledger.transactions ∧
        ∀ k, (r.2.pool.transactions k).isSome = true → (s.pool.transactions k).isSome = true ∨
          OwnHash env.crypto k tx := by
  refine ⟨fun r hr => ⟨?_, ?_⟩⟩
  · rw [(returnToPool_sameButPool ..).out r hr]
  · unfold returnToPool at hr
    split at hr
    · obtain rfl := Except.ok.inj hr
      exact fun k hk => Or.inl hk
    · rename_i blob hblob
      obtain ⟨⟨added, tvc, s'⟩, hadd, hr⟩ := bind_eq_ok_iff.mp hr
      obtain rfl := Except.ok.inj hr
      intro k hk
      rcases (poolAddTx_transactions ..).out _ hadd with hsame | ⟨fee, -, hnew⟩
      · exact Or.inl (by rwa [← hsame])
      · rw [hnew, Function.update_apply] at hk
        split at hk
        · rename_i hid
          right
          rw [OwnHash, getTransactionHash, hblob, hid]
          rfl
        · exact Or.inl hk

theorem enterTransaction_subset (env : Env) (tx : Transaction) (txId : Hash) (s : Storage) :
    (s.enterTransaction env tx txId).2.pool = s.pool ∧
      ∀ k, s.ledger.transactions k = none → k = txId ∨
        (s.enterTransaction env tx txId).2.ledger.transactions k = none := by
  have hledger : ∀ k, s.ledger.transactions k = none → k = txId ∨
      (s.ledger.addTransactionFromBlock env.crypto s.poppingBlock tx txId
        s.entries.length).2.transactions k = none := by
    intro k hk
    unfold Ledger.addTransactionFromBlock
    split
    · exact Or.inr hk
    · split_ifs
      · exact Or.inr hk
      · dsimp only
        rw [Function.update_apply]
        by_cases heq : k = txId
        · exact Or.inl heq
        · rw [if_neg heq]
          exact Or.inr hk
  unfold enterTransaction
  split
  all_goals
    rename_i hl
    rw [hl] at hledger
    exact ⟨rfl, hledger⟩

theorem Apart.purge (txId : Hash) {s : Storage} (h : s.Apart env.crypto) :
    Returns (s.purgeTransactionFromBlockchain env now txId) fun r => r.2.Apart env.crypto := by
  refine ⟨fun r hr => ⟨(purgeTransactionFromBlockchain_allTxs (ownHash_rehashes _) txId
    h.toAllTxs).out r hr, ?_⟩⟩
  unfold purgeTransactionFromBlockchain at hr
  split at hr
  · obtain rfl := Except.ok.inj hr
    exact h.apart
  rename_i entry hentry
  have hledger : (s.ledger.purgeTransactionData entry.tx.toTransactionPrefix true).2.transactions =
      s.ledger.transactions := rfl
  split at hr
  · rename_i ledger hpurge
    obtain rfl := Except.ok.inj hr
    rw [hpurge] at hledger
    rw [hledger]
    exact h.apart
  · rename_i ledger hpurge
    rw [hpurge] at hledger
    dsimp only at hr
    split at hr
    · obtain ⟨t, ht, hr⟩ := bind_eq_ok_iff.mp hr
      obtain rfl := Except.ok.inj ht
      obtain rfl := Except.ok.inj hr
      intro k hk
      dsimp only
      rw [hledger, Function.update_apply, h.apart k hk, ite_self]
    · obtain ⟨t, ht, hr⟩ := bind_eq_ok_iff.mp hr
      obtain ⟨r', hr', rfl⟩ := map_eq_ok_iff.mp ht
      obtain rfl := Except.ok.inj hr
      obtain ⟨hsame, hpool⟩ := (returnToPool_subset ..).out r' hr'
      intro k hk
      dsimp only at hk ⊢
      rw [hsame, hledger, Function.update_apply]
      split
      · rfl
      · rename_i hne
        -- the transaction enters the pool under the id that the table loses
        refine h.apart k ((hpool k hk).resolve_right fun hown => hne ?_)
        exact hown.symm.trans (h.chain txId entry hentry)

theorem Apart.take {txId : Hash} {d : TxDetails} {pool : TxMemoryPool} {s s' : Storage}
    (h : s.Apart env.crypto) (htake : s.pool.takeTx env.crypto txId = some (d, pool))
    (hpool : s'.pool = pool) (htransactions : s'.ledger.transactions = s.ledger.transactions) :
    s'.Apart env.crypto ∧ s'.pool.transactions txId = none ∧
      s'.ledger.transactions txId = none := by
  obtain ⟨hd, htaken⟩ := TxMemoryPool.takeTx_eq_some htake
  have hkeys : ∀ k, (s'.pool.transactions k).isSome = true → k ≠ txId ∧
      (s.pool.transactions k).isSome = true := by
    intro k hk
    rw [hpool, htaken, Function.update_apply] at hk
    split at hk
    · cases hk
    · rename_i hne
      exact ⟨hne, hk⟩
  refine ⟨⟨h.toAllTxs.take htake hpool htransactions, fun k hk => ?_⟩, ?_, ?_⟩
  · rw [htransactions]
    exact h.apart k (hkeys k hk).2
  · rw [hpool, htaken, Function.update_self]
  · rw [htransactions]
    exact h.apart txId (by rw [hd]; rfl)

theorem apart_txInvariant (env : Env) (now : UInt64) : TxInvariant env now (Apart env.crypto) where
  congr h hpool htransactions :=
    ⟨h.toAllTxs.congr hpool htransactions, by rw [hpool, htransactions]; exact h.apart⟩
  purge txId _ h := h.purge txId
  putBack {txId d pool s s'} h htake hpool htransactions := by
    obtain ⟨h', -, hnone⟩ := h.take htake hpool htransactions
    have hown := (h.pool txId d (TxMemoryPool.takeTx_eq_some htake).1).1
    refine ⟨fun r hr => ⟨(returnToPool_allTxs (ownHash_rehashes _) hown h'.toAllTxs).out r hr,
      fun k hk => ?_⟩⟩
    obtain ⟨hsame, hsubset⟩ := (returnToPool_subset ..).out r hr
    rw [hsame]
    rcases hsubset k hk with hk | hk
    · exact h'.apart k hk
    · rw [← hk, hown]
      exact hnone
  connect {txId d pool s s'} h htake hadd := by
    have htaken : Apart env.crypto { s with pool := pool } ∧ pool.transactions txId = none ∧ _ :=
      h.take htake rfl rfl
    obtain ⟨h', hgone, -⟩ := htaken
    have hown := (h.pool txId d (TxMemoryPool.takeTx_eq_some htake).1).1
    have hall := enterTransaction_allTxs env h'.toAllTxs hown
    have hsubset := enterTransaction_subset env d.tx txId { s with pool := pool }
    rw [hadd] at hall hsubset
    refine ⟨hall, fun k hk => ?_⟩
    rw [hsubset.1] at hk
    refine (hsubset.2 k (h'.apart k hk)).resolve_left ?_
    rintro rfl
    rw [hgone] at hk
    cases hk

theorem Apart.addMiner {bl : Block} {s : Storage} (h : s.Apart env.crypto)
    (hnew : s.pool.transactions ((getTransactionHash env.crypto bl.minerTx).getD nullHash) = none) :
    (s.enterTransaction env bl.minerTx
      ((getTransactionHash env.crypto bl.minerTx).getD nullHash)).2.Apart env.crypto := by
  obtain ⟨hpool, hledger⟩ := enterTransaction_subset env bl.minerTx
    ((getTransactionHash env.crypto bl.minerTx).getD nullHash) s
  refine ⟨enterTransaction_allTxs env h.toAllTxs rfl, fun k hk => ?_⟩
  rw [hpool] at hk
  refine (hledger k (h.apart k hk)).resolve_left ?_
  rintro rfl
  rw [hnew] at hk
  cases hk

theorem Apart.receive {blob : Bytes} {kept : Bool} {s : Storage}
    {r : Bool × TxVerificationContext × Storage} (hcanonical : CanonicallyEncoded blob)
    (h : s.Apart env.crypto) (hr : s.handleIncomingTx env now blob kept = .ok r) :
    r.2.2.Apart env.crypto := by
  have hown : ∀ tx txHash prefixHash,
      parseAndValidateTxFromBlob env.crypto blob = some (tx, txHash, prefixHash) →
        s.checkTxSemantic env tx kept = true → OwnHash env.crypto txHash tx := by
    intro tx txHash prefixHash hparse _
    rw [OwnHash, getTransactionHash_of_canonicallyEncoded hparse hcanonical, Option.getD_some]
  refine ⟨(handleIncomingTx_allTxs hown h.toAllTxs).out _ hr, ?_⟩
  rw [(handleIncomingTx_sameButPool blob kept s).out _ hr]
  unfold handleIncomingTx at hr
  split at hr
  · obtain rfl := Except.ok.inj hr
    exact h.apart
  split at hr
  · obtain rfl := Except.ok.inj hr
    exact h.apart
  split at hr
  · obtain rfl := Except.ok.inj hr
    exact h.apart
  split at hr
  · obtain rfl := Except.ok.inj hr
    exact h.apart
  rename_i tx txHash prefixHash _ _ hhave
  intro k hk
  rcases (poolAddTx_transactions ..).out _ hr with hsame | ⟨fee, -, hnew⟩
  · exact h.apart k (by rwa [← hsame])
  · dsimp only at hk
    rw [hnew, Function.update_apply] at hk
    split at hk
    · rename_i hid
      -- a transaction that the chain has is not added
      simp only [Bool.or_eq_true, not_or, Storage.haveTx, Bool.not_eq_true,
        Option.isSome_eq_false_iff, Option.isNone_iff_eq_none] at hhave
      rw [hid]
      exact hhave.2
    · exact h.apart k hk

section Runs

variable {genesis : Block} {ops : List (UInt64 × Op)} {s s' : Storage} {D : Block → Prop}

/-- Transactions of the run with the same hash are the same. -/
def NoCollision (crypto : Crypto) (genesis : Block) (ops : List (UInt64 × Op)) : Prop :=
  ∀ p ∈ identified crypto genesis ops, ∀ q ∈ identified crypto genesis ops, ∀ hash,
    getTransactionHash crypto p.2 = some hash → getTransactionHash crypto q.2 = some hash →
      p.2 = q.2

theorem miner_notMem_pool {bl : Block} {id : Hash}
    (hfree : NoCollision env.crypto genesis ops) (hs : s.Sound env)
    (hcarried : Carried env (fun id tx => (id, tx) ∈ identified env.crypto genesis ops) s)
    (h : s.Apart env.crypto)
    (hminer : bl.minerPair env.crypto ∈ identified env.crypto genesis ops)
    (hid : getBlockHash env.crypto bl = some id)
    (hcoinbase : isCoinbase bl.minerTx.toTransactionPrefix = true) :
    s.pool.transactions ((getTransactionHash env.crypto bl.minerTx).getD nullHash) = none := by
  by_contra hsome
  obtain ⟨d, hd⟩ := Option.ne_none_iff_exists'.mp hsome
  obtain ⟨hash, hhash⟩ := getTransactionHash_of_getBlockHash hid
  rw [hhash, Option.getD_some] at hd
  have hserializes := (hs.vetted.semantic hd).serializes
  have hown : getTransactionHash env.crypto d.tx = some hash := by
    obtain ⟨blob, hblob⟩ := Option.isSome_iff_exists.mp hserializes
    have hown := (h.pool hash d hd).1
    rw [OwnHash, getTransactionHash, hblob] at hown
    rw [getTransactionHash, hblob, ← hown]
    rfl
  have heq := hfree _ (hcarried.allTxs.pool hash d hd).1 _ hminer hash hown hhash
  have hnot := (h.pool hash d hd).2.1
  dsimp only [Block.minerPair] at heq
  rw [heq, hcoinbase] at hnot
  cases hnot

theorem apart_empty (crypto : Crypto) : Storage.empty.Apart crypto :=
  ⟨.empty, fun _ h => (nomatch h)⟩

theorem apart_genesis {now : UInt64} {id : Hash} {s₀ : Storage}
    (hadd : Storage.empty.handleBlockToMainChain env now genesis id = .ok (.added, s₀)) :
    s₀.Apart env.crypto :=
  ((apart_txInvariant env _).handleBlockToMainChain id (apart_empty _) fun _ =>
    (apart_empty _).addMiner rfl).out _ hadd

theorem Apart.action (hfree : NoCollision env.crypto genesis ops) (hs : s.Sound env)
    (hcarried : Carried env (fun id tx => (id, tx) ∈ identified env.crypto genesis ops) s)
    (h : s.Apart env.crypto)
    (haction : Action env (fun bl => bl.minerPair env.crypto ∈ identified env.crypto genesis ops)
      now s s') : s'.Apart env.crypto := by
  have hcongr : ∀ {t : Storage}, t.pool = s.pool → t.ledger = s.ledger → t.Apart env.crypto :=
    fun hpool hledger => (apart_txInvariant env now).congr h hpool (by rw [hledger])
  cases haction with
  | connect hoffered hid _ hrun =>
    have hminer := hcarried.miner hoffered fun _ hb => hb
    exact ((apart_txInvariant env _).handleBlockToMainChain _ h fun hpre =>
      h.addMiner (miner_notMem_pool hfree hs hcarried h hminer hid
        (isCoinbase_of_prevalidate hpre))).out _ hrun
  | disconnect hrun => exact ((apart_txInvariant env _).popBlockFromBlockchain h).out _ hrun
  | storeBody _ _ _ => exact hcongr rfl rfl
  | place _ _ _ hplace =>
    obtain ⟨-, rfl⟩ := placeAlternativeBlock_eq_ok hplace
    exact hcongr rfl rfl
  | markInvalid ids hbody halt =>
    rw [markBranchInvalid_eq ids (hs.alternatives _ _ halt).1 hbody]
    exact hcongr rfl rfl
  | eraseAlternatives _ => exact hcongr rfl rfl
  | logSwitchFailed _ _ => exact hcongr rfl rfl
  | logPushFailed => exact hcongr rfl rfl

theorem ReachedBy.apart (h : s.ReachedBy env genesis ops)
    (hcanonical : ∀ op ∈ ops, ∀ blob kept, op.2 = .handleIncomingTx blob kept →
      CanonicallyEncoded blob)
    (hfree : NoCollision env.crypto genesis ops) : s.Apart env.crypto := by
  obtain ⟨now, id, s₀, hid, hadd, hcalm, hrun⟩ := h
  have hinit : s₀.Initial env := ⟨now, genesis, id, hid, hadd⟩
  have hreceives : ∀ op ∈ ops, op.2.Receives
      (fun blob => CanonicallyEncoded blob ∧ ∀ tx, parseTransaction blob = some tx →
        (env.crypto.cnFastHash blob, tx) ∈ identified env.crypto genesis ops)
      (fun bl => bl.minerPair env.crypto ∈ identified env.crypto genesis ops) fun _ _ => True := by
    rintro ⟨now, op⟩ hop
    cases op with
    | handleIncomingTx blob kept =>
      exact ⟨hcanonical _ hop blob kept rfl, receives_identified _ hop⟩
    | addNewBlock fuel bl => exact receives_identified _ hop
    | popBlockFromBlockchain => trivial
    | learnLonghash _ _ => trivial
  exact (run_invariant _ _ _ (fun t => Carried env
      (fun id tx => (id, tx) ∈ identified env.crypto genesis ops) t ∧ t.Apart env.crypto)
    (fun _ hblob ht hr => ⟨ht.1.receive hblob.2 hr, ht.2.receive hblob.1 hr⟩)
    (fun hs ht haction => ⟨ht.1.action identified_rehashes (fun _ hb => hb) hs haction,
      ht.2.action hfree hs ht.1 haction⟩)
    (fun _ ht => ⟨ht.1.congr (fun _ _ hb => Or.inl hb) rfl rfl,
      (apart_txInvariant env 0).congr ht.2 rfl rfl⟩)
    hinit.sound ⟨carried_genesis hadd, apart_genesis hadd⟩ hreceives hcalm
    hrun).2.2

/-- In every state of a run over canonical encodings no id is in the pool and in the table
of the chain, unless two transactions of the run have the same hash. -/
theorem pool_apart_or_collision (h : s.ReachedBy env genesis ops)
    (hcanonical : ∀ op ∈ ops, ∀ blob kept, op.2 = .handleIncomingTx blob kept →
      CanonicallyEncoded blob) :
    (∀ id, ¬ ((s.pool.transactions id).isSome = true ∧
        (s.ledger.transactions id).isSome = true)) ∨
      ∃ p ∈ identified env.crypto genesis ops, ∃ q ∈ identified env.crypto genesis ops,
        p.2 ≠ q.2 ∧ ∃ hash, getTransactionHash env.crypto p.2 = some hash ∧
          getTransactionHash env.crypto q.2 = some hash := by
  by_cases hfree : NoCollision env.crypto genesis ops
  · left
    rintro id ⟨hpool, hchain⟩
    rw [(h.apart hcanonical hfree).apart id hpool] at hchain
    cases hchain
  · right
    simp only [NoCollision, not_forall] at hfree
    obtain ⟨p, hp, q, hq, hash, hhash, hhash', hne⟩ := hfree
    exact ⟨p, hp, q, hq, hne, hash, hhash, hhash'⟩

end Runs

theorem sampleSpendingOps_canonical : ∀ op ∈ sampleSpendingOps, ∀ blob kept,
    op.2 = .handleIncomingTx blob kept → CanonicallyEncoded blob := by
  rintro ⟨now, op⟩ hop blob kept heq
  obtain rfl : op = _ := heq
  have hblob : blob = (serializeTransaction sampleRegistration).getD [] := by
    simp only [sampleSpendingOps, sampleFullOps, List.mem_append, List.mem_map, List.map_cons,
      List.map_nil, List.mem_singleton, Prod.mk.injEq, Op.handleIncomingTx.injEq, reduceCtorEq,
      and_false, exists_false, false_or, or_false] at hop
    exact hop.2.1
  have hparse : parseTransaction ((serializeTransaction sampleRegistration).getD []) =
      some sampleRegistration := by decide +kernel
  rw [hblob]
  exact (serializeTransaction_parse_iff hparse).mp (by decide +kernel)

theorem pool_apart_of_sampleSpending :
    sampleSpending.ReachedBy samplePowEnv sampleGenesis sampleSpendingOps ∧
      (sampleSpending.ledger.transactions (sampleTxId sampleRegistration)).isSome = true ∧
      ∀ id, ¬ ((sampleSpending.pool.transactions id).isSome = true ∧
        (sampleSpending.ledger.transactions id).isSome = true) := by
  refine ⟨sampleSpending_reachedBy, by decide +kernel, ?_⟩
  refine (pool_apart_or_collision sampleSpending_reachedBy sampleSpendingOps_canonical).resolve_right
    ?_
  rintro ⟨p, hp, q, hq, hne, hash, hhash, hhash'⟩
  have hunique : ∀ p ∈ identified sampleCrypto sampleGenesis sampleSpendingOps,
      ∀ q ∈ identified sampleCrypto sampleGenesis sampleSpendingOps,
        getTransactionHash sampleCrypto p.2 = getTransactionHash sampleCrypto q.2 → p.2 = q.2 := by
    decide +kernel
  exact hne (hunique p hp q hq (hhash.trans hhash'.symm))

end Storage

end Pebblecoin
