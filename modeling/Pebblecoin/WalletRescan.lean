import Mathlib.Data.List.Induction
import Pebblecoin.WalletDetach

/-!
Detaching a wallet from blocks and scanning others: when it is as if the blocks
had never been there.
-/

namespace Pebblecoin

namespace Wallet2

variable {crypto : Crypto} {keys : AccountKeys} {session : Session}

variable {w w' base : Wallet2} {H : Nat → Prop} {plans : Plans}

/-- The last of the transactions that spend the transfer at an index. -/
def lastSpender (keyImages : KeyImage → Option Nat) (spends : List (KeyImage × Transaction))
    (i : Nat) : Option Transaction :=
  (spends.filter fun p => decide (keyImages p.1 = some i)).getLast?.map Prod.snd

theorem getElem?_replay (keyImages : KeyImage → Option Nat) (spends : List (KeyImage × Transaction))
    (ts : List TransferDetails) (i : Nat) :
    (replay keyImages spends ts)[i]? = ts[i]?.map fun td =>
      ((lastSpender keyImages spends i).map fun tx => markSpent tx td).getD td := by
  induction spends using List.reverseRecOn with
  | nil => simp [replay, lastSpender]
  | append_singleton spends p ih =>
    obtain ⟨k, tx⟩ := p
    rw [replay_append, replay_cons]
    by_cases hk : keyImages k = some i
    · have hlast : lastSpender keyImages (spends ++ [(k, tx)]) i = some tx := by
        simp [lastSpender, hk]
      rw [hk, hlast]
      change (List.modify _ i (markSpent tx))[i]? = _
      rw [List.getElem?_modify_eq, ih]
      cases ts[i]? with
      | none => rfl
      | some td =>
        cases lastSpender keyImages spends i <;> rfl
    · have hlast : lastSpender keyImages (spends ++ [(k, tx)]) i =
          lastSpender keyImages spends i := by
        simp [lastSpender, hk]
      rw [hlast, ← ih]
      cases hj : keyImages k with
      | none => rfl
      | some j =>
        change (List.modify _ j (markSpent tx))[i]? = _
        have hne : j ≠ i := by
          rintro rfl
          exact hk hj
        exact List.getElem?_modify_ne _ _ hne

theorem replay_eq_self_iff {keyImages : KeyImage → Option Nat}
    {spends : List (KeyImage × Transaction)} {ts : List TransferDetails} :
    replay keyImages spends ts = ts ↔
      ∀ i td tx, ts[i]? = some td → lastSpender keyImages spends i = some tx →
        td.spent = true ∧ td.spentByTx = some tx := by
  constructor
  · intro heq i td tx htd htx
    have h := getElem?_replay keyImages spends ts i
    rw [heq, htd, htx] at h
    have hmark : td = markSpent tx td := Option.some.inj h
    rw [hmark]
    exact ⟨rfl, rfl⟩
  · intro h
    refine List.ext_getElem? fun i => ?_
    rw [getElem?_replay]
    cases htd : ts[i]? with
    | none => rfl
    | some td =>
      cases htx : lastSpender keyImages spends i with
      | none => rfl
      | some tx =>
        obtain ⟨hspent, hby⟩ := h i td tx htd htx
        refine congrArg some ?_
        change { td with spent := true, spentByTx := some tx } = td
        rw [← hspent, ← hby]

/-- What two wallets have found is the same. -/
structure SameScan (w w' : Wallet2) : Prop where
  transfers : w.transfers = w'.transfers
  keyImages : w.keyImages = w'.keyImages
  payments : w.payments = w'.payments

/-- The wallets differ at most in what they have sent. -/
structure Agree (w w' : Wallet2) : Prop extends SameScan w w' where
  blockchain : w.blockchain = w'.blockchain
  localBcHeight : w.localBcHeight = w'.localBcHeight

theorem Agree.receiveAll (h : Agree w w') (tds : List TransferDetails) :
    Agree (w.receiveAll tds) (w'.receiveAll tds) := by
  induction tds generalizing w w' with
  | nil => exact h
  | cons td tds ih =>
    have hreceive : Agree (w.receive td) (w'.receive td) :=
      ⟨⟨by simp only [receive, h.transfers], by simp only [receive, h.transfers, h.keyImages],
        h.payments⟩, h.blockchain, h.localBcHeight⟩
    exact ih hreceive

theorem Agree.apply (h : Agree w w') (tx : Transaction) (height : Nat) (scan : TxScan) :
    Agree (scan.apply crypto tx height w) (scan.apply crypto tx height w') := by
  obtain ⟨found, happly, -⟩ := TxScan.apply_eq crypto tx height scan w
  rw [happly w rfl, happly w' (h.receiveAll scan.received).keyImages.symm]
  exact ⟨⟨by rw [h.transfers], rfl, by rw [h.payments]⟩, h.blockchain, h.localBcHeight⟩

/-- Both calls throw the same or nothing, and leave wallets that agree. -/
structure AgreeAfter (r r' : Option WalletError × Wallet2) : Prop where
  error : r.1 = r'.1
  wallets : Agree r.2 r'.2

theorem Agree.processNewTransaction (h : Agree w w') (tx : Transaction) (height : Nat)
    (miner : Bool) :
    AgreeAfter (w.processNewTransaction crypto keys session tx height miner)
      (w'.processNewTransaction crypto keys session tx height miner) := by
  have hunconfirmed : Agree (w.processUnconfirmed crypto tx) (w'.processUnconfirmed crypto tx) :=
    ⟨⟨h.transfers, h.keyImages, h.payments⟩, h.blockchain, h.localBcHeight⟩
  rw [processNewTransaction_eq, processNewTransaction_eq]
  rcases scanOf crypto keys session tx height miner with e | _ | scan
  · exact ⟨rfl, hunconfirmed⟩
  · exact ⟨rfl, hunconfirmed⟩
  · exact ⟨rfl, hunconfirmed.apply tx height scan⟩

theorem Agree.processAll (h : Agree w w') (height : Nat) (txs : List (Transaction × Bool)) :
    AgreeAfter (w.processAll crypto keys session height txs)
      (w'.processAll crypto keys session height txs) := by
  induction txs generalizing w w' with
  | nil => exact ⟨rfl, h⟩
  | cons p txs ih =>
    obtain ⟨tx, miner⟩ := p
    have htx : AgreeAfter (w.processNewTransaction crypto keys session tx height miner)
      (w'.processNewTransaction crypto keys session tx height miner) :=
        h.processNewTransaction tx height miner
    rw [Wallet2.processAll, Wallet2.processAll]
    generalize w.processNewTransaction crypto keys session tx height miner = r at htx ⊢
    generalize w'.processNewTransaction crypto keys session tx height miner = r' at htx ⊢
    obtain ⟨e, w₁⟩ := r
    obtain ⟨e', w₁'⟩ := r'
    obtain ⟨rfl, hagree⟩ := htx
    cases e with
    | none => exact ih hagree
    | some e => exact ⟨rfl, hagree⟩

theorem Agree.processNewBlockchainEntry (h : Agree w w') (entry : BlockCompleteEntry) (id : Hash) :
    AgreeAfter (w.processNewBlockchainEntry crypto keys session entry id w.blockchain.length)
      (w'.processNewBlockchainEntry crypto keys session entry id w'.blockchain.length) := by
  have hall : AgreeAfter
      (w.processAll crypto keys session w'.blockchain.length (lookedInto keys entry))
      (w'.processAll crypto keys session w'.blockchain.length (lookedInto keys entry)) :=
    h.processAll _ _
  unfold Wallet2.processNewBlockchainEntry
  rw [if_neg (not_not.mpr rfl), if_neg (not_not.mpr rfl), scanBlock_eq, scanBlock_eq, h.blockchain]
  generalize w.processAll crypto keys session _ _ = r at hall ⊢
  generalize w'.processAll crypto keys session _ _ = r' at hall ⊢
  obtain ⟨e, w₁⟩ := r
  obtain ⟨e', w₁'⟩ := r'
  obtain ⟨rfl, hagree⟩ := hall
  cases e with
  | some e => exact ⟨rfl, hagree⟩
  | none =>
    have hnext : Agree
        { w₁ with blockchain := w₁.blockchain ++ [id], localBcHeight := w₁.localBcHeight + 1 }
        { w₁' with blockchain := w₁'.blockchain ++ [id], localBcHeight := w₁'.localBcHeight + 1 } :=
      ⟨⟨hagree.transfers, hagree.keyImages, hagree.payments⟩,
        congrArg (· ++ [id]) hagree.blockchain, congrArg (· + 1) hagree.localBcHeight⟩
    have hstore : (w₁.localBcHeight + 1) % 1000 = 0 ∧ (!session.storeSucceeds) = true ↔
        (w₁'.localBcHeight + 1) % 1000 = 0 ∧ (!session.storeSucceeds) = true := by
      rw [hagree.localBcHeight]
    dsimp only
    by_cases hfull : (w₁.localBcHeight + 1) % 1000 = 0 ∧ (!session.storeSucceeds) = true
    · rw [if_pos hfull, if_pos (hstore.mp hfull)]
      exact ⟨rfl, hnext⟩
    · rw [if_neg hfull, if_neg fun h => hfull (hstore.mpr h)]
      exact ⟨rfl, hnext⟩

theorem Agree.scanEntries (h : Agree w w') (es : List (Session × BlockCompleteEntry)) :
    AgreeAfter (w.scanEntries crypto keys es) (w'.scanEntries crypto keys es) := by
  induction es generalizing w w' with
  | nil => exact ⟨rfl, h⟩
  | cons p es ih =>
    obtain ⟨session, entry⟩ := p
    have hentry : AgreeAfter
        (w.processNewBlockchainEntry crypto keys session entry (blockId crypto entry.block)
          w.blockchain.length)
        (w'.processNewBlockchainEntry crypto keys session entry (blockId crypto entry.block)
          w'.blockchain.length) := h.processNewBlockchainEntry ..
    rw [Wallet2.scanEntries, Wallet2.scanEntries]
    generalize w.processNewBlockchainEntry crypto keys session entry _ _ = r at hentry ⊢
    generalize w'.processNewBlockchainEntry crypto keys session entry _ _ = r' at hentry ⊢
    obtain ⟨e, w₁⟩ := r
    obtain ⟨e', w₁'⟩ := r'
    obtain ⟨rfl, hagree⟩ := hentry
    cases e with
    | none => exact ih hagree
    | some e => exact ⟨rfl, hagree⟩

theorem detachTransfers_eq_ok {i : Nat} {tds : List TransferDetails}
    (hknown : ∀ td ∈ tds, (w.keyImages td.keyImage).isSome = true)
    (hnodup : (tds.map (·.keyImage)).Nodup) :
    ∃ votes, w.detachTransfers i tds = (none, { w with
      keyImages := fun k => if k ∈ tds.map (·.keyImage) then none else w.keyImages k
      votesInfo := votes }) := by
  induction tds generalizing i w with
  | nil => exact ⟨w.votesInfo, by simp [detachTransfers]⟩
  | cons td tds ih =>
    rw [List.map_cons, List.nodup_cons] at hnodup
    obtain ⟨j, hj⟩ := Option.isSome_iff_exists.mp (hknown td List.mem_cons_self)
    have hrest : ∀ td' ∈ tds, (Function.update w.keyImages td.keyImage none
        td'.keyImage).isSome = true := by
      intro td' htd'
      rw [Function.update_of_ne]
      · exact hknown td' (List.mem_cons_of_mem _ htd')
      · intro heq
        exact hnodup.1 (List.mem_map.mpr ⟨td', htd', heq⟩)
    obtain ⟨votes, hvotes⟩ := ih (i := i + 1) (w := { w with
      keyImages := Function.update w.keyImages td.keyImage none
      votesInfo := eraseTransfer i w.votesInfo }) hrest hnodup.2
    refine ⟨votes, ?_⟩
    simp only [detachTransfers, hj, hvotes]
    congr 2
    funext k
    by_cases hk : k = td.keyImage
    · subst hk
      simp
    · simp [hk]

theorem nodup_of_detachTransfers {i : Nat} {tds : List TransferDetails}
    (h : (w.detachTransfers i tds).1 = none) :
    (tds.map (·.keyImage)).Nodup ∧ ∀ td ∈ tds, (w.keyImages td.keyImage).isSome = true := by
  induction tds generalizing i w with
  | nil => simp
  | cons td tds ih =>
    rw [detachTransfers] at h
    cases hj : w.keyImages td.keyImage with
    | none =>
      rw [hj] at h
      cases h
    | some j =>
      rw [hj] at h
      obtain ⟨hnodup, hknown⟩ := ih h
      dsimp only at hknown
      have hne : ∀ td' ∈ tds, td'.keyImage ≠ td.keyImage := by
        intro td' htd' heq
        have hsome := hknown td' htd'
        rw [heq, Function.update_self] at hsome
        cases hsome
      refine ⟨?_, fun td' htd' => ?_⟩
      · rw [List.map_cons, List.nodup_cons]
        refine ⟨fun hmem => ?_, hnodup⟩
        obtain ⟨td', htd', heq⟩ := List.mem_map.mp hmem
        exact hne td' htd' heq
      · rcases List.mem_cons.mp htd' with rfl | htd'
        · rw [hj]
          rfl
        · have hsome := hknown td' htd'
          rwa [Function.update_of_ne (hne td' htd')] at hsome

/-- Everything found so far lies below the end of the chain. -/
structure Dated (w : Wallet2) : Prop where
  transfers : ∀ td ∈ w.transfers, td.blockHeight < w.blockchain.length
  payments : ∀ p ∈ w.payments, p.2.blockHeight < w.blockchain.length

theorem Grown.keptHeights (hg : Grown base H plans w) {td : TransferDetails}
    (htd : td ∈ w.transfers.take base.transfers.length) :
    ∃ td' ∈ base.transfers, td'.blockHeight = td.blockHeight := by
  have hmem := List.mem_map_of_mem (f := TransferDetails.unspent) htd
  rw [hg.kept] at hmem
  obtain ⟨td', htd', heq⟩ := List.mem_map.mp hmem
  have hheight : td'.unspent.blockHeight = td.unspent.blockHeight := by rw [heq]
  exact ⟨td', htd', hheight⟩

theorem Grown.newHeights (hg : Grown base H plans w) {td : TransferDetails}
    (htd : td ∈ w.transfers.drop base.transfers.length) : H td.blockHeight := by
  have hmem := List.mem_map_of_mem (f := TransferDetails.unspent) htd
  rw [hg.received] at hmem
  exact hg.heights td.unspent hmem

theorem Dated.scanEntries {es : List (Session × BlockCompleteEntry)} (hd : Dated w)
    (h : w.scanEntries crypto keys es = (none, w')) : Dated w' := by
  induction es generalizing w with
  | nil =>
    obtain ⟨-, rfl⟩ := Prod.mk.inj h
    exact hd
  | cons p es ih =>
    obtain ⟨session, entry⟩ := p
    obtain ⟨w₁, hentry, hrest⟩ := scanEntries_cons_eq_ok h
    obtain ⟨w₂, hall, rfl⟩ := processNewBlockchainEntry_eq_ok hentry
    have hg := (Grown.refl w (· = w.blockchain.length)).processAll rfl hall
    refine ih ⟨fun td htd => ?_, fun p hp => ?_⟩ hrest
    · dsimp only at htd ⊢
      rw [List.length_append, List.length_singleton]
      rw [← List.take_append_drop w.transfers.length w₂.transfers] at htd
      rcases List.mem_append.mp htd with htd | htd
      · obtain ⟨td', htd', heq⟩ := hg.keptHeights htd
        rw [← heq]
        exact (hd.transfers td' htd').trans (Nat.lt_succ_self _)
      · rw [hg.newHeights htd]
        exact Nat.lt_succ_self _
    · obtain ⟨found, hfound, hheights⟩ := hg.payments
      dsimp only at hp ⊢
      rw [List.length_append, List.length_singleton]
      rw [hfound] at hp
      rcases List.mem_append.mp hp with hp | hp
      · exact (hd.payments p hp).trans (Nat.lt_succ_self _)
      · rw [hheights p hp]
        exact Nat.lt_succ_self _

theorem Grown.images (hg : Grown base H plans w) :
    (w.transfers.drop base.transfers.length).map (·.keyImage) = imagesOf plans := by
  rw [imagesOf, ← hg.received, List.map_map]
  rfl

theorem Grown.findIdx (hd : Dated base) (hg : Grown base (base.blockchain.length ≤ ·) plans w) :
    (w.transfers.findIdx fun td => decide (base.blockchain.length ≤ td.blockHeight)) =
      base.transfers.length := by
  have hlength : (w.transfers.take base.transfers.length).length = base.transfers.length := by
    rw [List.length_take]
    exact Nat.min_eq_left hg.length_le
  have hkept : ∀ td ∈ w.transfers.take base.transfers.length,
      decide (base.blockchain.length ≤ td.blockHeight) = false := by
    intro td htd
    obtain ⟨td', htd', heq⟩ := hg.keptHeights htd
    rw [decide_eq_false_iff_not, ← heq, not_le]
    exact hd.transfers td' htd'
  have hnew : (w.transfers.drop base.transfers.length).findIdx
      (fun td => decide (base.blockchain.length ≤ td.blockHeight)) = 0 := by
    cases hdrop : w.transfers.drop base.transfers.length with
    | nil => rfl
    | cons td tds =>
      have htd : td ∈ w.transfers.drop base.transfers.length := by simp [hdrop]
      rw [List.findIdx_cons, decide_eq_true (hg.newHeights htd)]
      rfl
  rw [← List.take_append_drop base.transfers.length w.transfers, List.findIdx_append,
    List.findIdx_eq_length.mpr hkept, if_neg (lt_irrefl _), hnew, hlength, Nat.zero_add]

theorem Grown.detach {ids : List Hash} (hd : Dated base)
    (hg : Grown base (base.blockchain.length ≤ ·) plans w)
    (hchain : w.blockchain = base.blockchain ++ ids)
    (hlocal : w.localBcHeight = base.localBcHeight + ids.length) (hnodup : (imagesOf plans).Nodup) :
    ∃ w₁, w.detachBlockchain base.blockchain.length = (none, w₁) ∧
      w₁.transfers = w.transfers.take base.transfers.length ∧
      w₁.keyImages = (fun k => if k ∈ imagesOf plans then none else base.keyImages k) ∧
      w₁.payments = base.payments ∧ w₁.blockchain = base.blockchain ∧
      w₁.localBcHeight = base.localBcHeight := by
  have hknown : ∀ td ∈ w.transfers.drop base.transfers.length,
      (w.keyImages td.keyImage).isSome = true := by
    intro td htd
    obtain ⟨i, -, hi⟩ := hg.newImages td.keyImage (by
      rw [← hg.images]
      exact List.mem_map_of_mem htd)
    rw [hi]
    rfl
  obtain ⟨votes, hvotes⟩ := detachTransfers_eq_ok (i := base.transfers.length) hknown
    (by rw [hg.images]; exact hnodup)
  rw [detachBlockchain, hg.findIdx hd]
  simp only [hvotes]
  refine ⟨_, rfl, rfl, ?_, ?_, ?_, ?_⟩
  · funext k
    dsimp only
    rw [hg.images]
    split_ifs with hk
    · rfl
    · exact hg.oldImages k hk
  · obtain ⟨found, hfound, hheights⟩ := hg.payments
    dsimp only
    rw [hfound, List.filter_append, List.filter_eq_self.mpr, List.filter_eq_nil_iff.mpr,
      List.append_nil]
    · intro p hp
      rw [decide_eq_true_eq, not_lt]
      exact hheights p hp
    · intro p hp
      rw [decide_eq_true_eq]
      exact hd.payments p hp
  · dsimp only
    rw [hchain, List.take_left]
  · dsimp only
    rw [hchain, hlocal, List.length_append]
    omega

variable (crypto keys) in
/-- Every wallet that gives up the blocks and scans others in their place finds what
a wallet finds that has never seen them. -/
def Forgets (genesis : Hash) (kept : List (Session × BlockCompleteEntry)) (w : Wallet2) : Prop :=
  ∀ new fresh, (bareWallet [genesis]).scanEntries crypto keys (kept ++ new) = (none, fresh) →
    ∃ w₁ w₂, w.detachBlockchain (kept.length + 1) = (none, w₁) ∧
      w₁.scanEntries crypto keys new = (none, w₂) ∧ SameScan w₂ fresh

/-- The given up transfers have key images of their own, and the given up blocks spend no
transfer that is kept, unless it is marked with that spend already. -/
structure Undoable (base : Wallet2) (plans : Plans) : Prop where
  images_nodup : (imagesOf plans).Nodup
  images_new : ∀ k ∈ imagesOf plans, base.keyImages k = none
  marked : ∀ i td tx, base.transfers[i]? = some td →
    lastSpender base.keyImages (spendsOf plans) i = some tx →
      td.spent = true ∧ td.spentByTx = some tx

theorem dated_bareWallet (c : List Hash) : Dated (bareWallet c) :=
  ⟨fun _ h => (nomatch h), fun _ h => (nomatch h)⟩

theorem scanEntries_append_eq_ok {es es' : List (Session × BlockCompleteEntry)}
    (h : w.scanEntries crypto keys (es ++ es') = (none, w')) :
    ∃ w₁, w.scanEntries crypto keys es = (none, w₁) ∧ w₁.scanEntries crypto keys es' = (none, w') := by
  rw [scanEntries_append] at h
  generalize w.scanEntries crypto keys es = r at h ⊢
  obtain ⟨_ | e, w₁⟩ := r
  · exact ⟨w₁, rfl, h⟩
  · cases h

theorem Grown.nodup_of_detach {w₁ : Wallet2} (hd : Dated base)
    (hg : Grown base (base.blockchain.length ≤ ·) plans w)
    (h : w.detachBlockchain base.blockchain.length = (none, w₁)) : (imagesOf plans).Nodup := by
  rw [detachBlockchain, hg.findIdx hd] at h
  rw [← hg.images]
  refine (nodup_of_detachTransfers (i := base.transfers.length) (w := w) ?_).1
  generalize w.detachTransfers base.transfers.length _ = r at h ⊢
  obtain ⟨_ | e, w₂⟩ := r
  · rfl
  · cases h

/-- A wallet that has scanned a chain forgets the blocks from a height on exactly if they
can be undone. -/
theorem detach_forgets_iff {genesis : Hash} {kept gone : List (Session × BlockCompleteEntry)}
    {w : Wallet2} (hw : (bareWallet [genesis]).scanEntries crypto keys (kept ++ gone) = (none, w)) :
    Forgets crypto keys genesis kept w ↔
      Undoable ((bareWallet [genesis]).scanEntries crypto keys kept).2
        (chainPlans crypto keys (kept.length + 1) gone) := by
  obtain ⟨base, hbase, hgone⟩ := scanEntries_append_eq_ok hw
  have hd : Dated base := (dated_bareWallet _).scanEntries hbase
  have hlength : base.blockchain.length = kept.length + 1 := by
    obtain ⟨-, hchain, -⟩ := (Grown.refl (bareWallet [genesis]) (0 ≤ ·)).scanEntries
      (Nat.zero_le _) hbase
    rw [hchain, List.length_append, List.length_map]
    exact Nat.add_comm _ _
  obtain ⟨hg, hchain, hlocal⟩ :=
    (Grown.refl base (base.blockchain.length ≤ ·)).scanEntries le_rfl hgone
  rw [List.nil_append] at hg
  rw [← List.length_map (fun p : Session × BlockCompleteEntry => blockId crypto p.2.block)] at hlocal
  rw [hbase, Forgets, ← hlength]
  constructor
  · intro hforgets
    obtain ⟨w₁, w₂, hdetach, hscan, hsame⟩ := hforgets [] base (by rw [List.append_nil, hbase])
    obtain ⟨-, rfl⟩ := Prod.mk.inj hscan
    have hnodup := hg.nodup_of_detach hd hdetach
    obtain ⟨w₂, hdetach', htransfers, himages, -⟩ := hg.detach hd hchain hlocal hnodup
    obtain rfl : w₂ = w₁ := (Prod.mk.inj (hdetach'.symm.trans hdetach)).2
    have hnew : ∀ k ∈ imagesOf (chainPlans crypto keys base.blockchain.length gone),
        base.keyImages k = none := by
      intro k hk
      have hk' := congrFun (himages.symm.trans hsame.keyImages) k
      rw [if_pos hk] at hk'
      exact hk'.symm
    refine ⟨hnodup, hnew, replay_eq_self_iff.mp ?_⟩
    rw [← hg.marks hnew, ← htransfers, hsame.transfers]
  · rintro ⟨hnodup, hnew, hmarked⟩ new fresh hfresh
    obtain ⟨w₁, hdetach, htransfers, himages, hpayments, hblockchain, hheight⟩ :=
      hg.detach hd hchain hlocal hnodup
    have hagree : Agree w₁ base := by
      refine ⟨⟨?_, ?_, hpayments⟩, hblockchain, hheight⟩
      · rw [htransfers, hg.marks hnew, replay_eq_self_iff.mpr hmarked]
      · rw [himages]
        funext k
        split_ifs with hk
        · exact (hnew k hk).symm
        · rfl
    obtain ⟨base', hbase', hnewscan⟩ := scanEntries_append_eq_ok hfresh
    obtain rfl : base' = base := (Prod.mk.inj (hbase'.symm.trans hbase)).2
    have hscan : AgreeAfter (w₁.scanEntries crypto keys new) (base'.scanEntries crypto keys new) :=
      hagree.scanEntries new
    rw [hnewscan] at hscan
    exact ⟨w₁, (w₁.scanEntries crypto keys new).2, hdetach, Prod.ext hscan.error rfl,
      hscan.wallets.toSameScan⟩

/-- An account whose one-time keys and key images are the transaction keys. -/
def sampleKeys : AccountKeys := ⟨fun pub _ => some pub, fun pub _ => pub, 0⟩

def sampleSession : Session := ⟨true, fun _ => some [0], true⟩

/-- A transaction with a public key in its extra bytes. -/
def sampleKeyedTx (vin : List TxIn) (key : PublicKey) (vout : List TxOut) : Transaction :=
  ⟨⟨1, 0, txExtraTagPubkey :: key.bytes, vin, vout, vin.map fun _ => cpXpb,
    vout.map fun _ => cpXpb⟩, []⟩

def samplePayment (height : UInt64) (key : PublicKey) : Transaction :=
  sampleKeyedTx [.gen height] key [⟨100, .toKey key⟩]

def sampleEntry (minerTx : Transaction) (txs : List Transaction) : Session × BlockCompleteEntry :=
  (sampleSession, ⟨⟨⟨1, 0, 0, nullHash, 0⟩, minerTx, [], 0, Blob.null 64⟩, txs⟩)

/-- The coinbase pays to the account. -/
def samplePaid (height : Nat) : Session × BlockCompleteEntry :=
  sampleEntry (samplePayment (UInt64.ofNat height) (Blob.ofNat 32 height)) []

/-- A block that has nothing for the account. -/
def sampleUnpaid : Session × BlockCompleteEntry := sampleEntry (sampleKeyedTx [] nullHash []) []

/-- The first payment is spent. -/
def sampleSpent : Session × BlockCompleteEntry :=
  sampleEntry (sampleKeyedTx [] nullHash [])
    [sampleKeyedTx [.toKey ⟨100, [0], Blob.ofNat 32 1⟩] nullHash []]

theorem detach_forgets_second_payment :
    ∃ w, (bareWallet [nullHash]).scanEntries sampleCrypto sampleKeys ([samplePaid 1] ++ [samplePaid 2]) =
        (none, w) ∧ Forgets sampleCrypto sampleKeys nullHash [samplePaid 1] w := by
  have hw : (bareWallet [nullHash]).scanEntries sampleCrypto sampleKeys
      ([samplePaid 1] ++ [samplePaid 2]) = (none, _) := Prod.ext (by decide +kernel) rfl
  refine ⟨_, hw, (detach_forgets_iff hw).mpr ⟨by decide +kernel, by decide +kernel, ?_⟩⟩
  have hspends : spendsOf (chainPlans sampleCrypto sampleKeys 2 [samplePaid 2]) = [] := by
    decide +kernel
  intro i td tx _ hlast
  change lastSpender _ (spendsOf (chainPlans sampleCrypto sampleKeys 2 [samplePaid 2])) i = _ at hlast
  rw [hspends] at hlast
  cases hlast

/-- The wallet that has seen the spend, and what is left of it. -/
def sampleSeen : Option WalletError × Wallet2 :=
  (bareWallet [nullHash]).scanEntries sampleCrypto sampleKeys ([samplePaid 1] ++ [sampleSpent])

def sampleDetached : Option WalletError × Wallet2 := sampleSeen.2.detachBlockchain 2

def sampleRescanned : Option WalletError × Wallet2 :=
  sampleDetached.2.scanEntries sampleCrypto sampleKeys [sampleUnpaid]

def sampleFresh : Option WalletError × Wallet2 :=
  (bareWallet [nullHash]).scanEntries sampleCrypto sampleKeys ([samplePaid 1] ++ [sampleUnpaid])

/-- A payment is spent in a block that is given up.  The new branch does not spend it,
but it counts as spent; for a wallet that has only seen the new branch it is not. -/
theorem detach_keeps_spent_flag : ∃ w w₁ w₂ fresh : Wallet2,
    (bareWallet [nullHash]).scanEntries sampleCrypto sampleKeys ([samplePaid 1] ++ [sampleSpent]) =
        (none, w) ∧
      w.detachBlockchain 2 = (none, w₁) ∧
      w₁.scanEntries sampleCrypto sampleKeys [sampleUnpaid] = (none, w₂) ∧
      (bareWallet [nullHash]).scanEntries sampleCrypto sampleKeys ([samplePaid 1] ++ [sampleUnpaid]) =
        (none, fresh) ∧
      w₂.transfers.map (·.spent) = [true] ∧ fresh.transfers.map (·.spent) = [false] := by
  refine ⟨sampleSeen.2, sampleDetached.2, sampleRescanned.2, sampleFresh.2, Prod.ext ?_ rfl,
    Prod.ext ?_ rfl, Prod.ext ?_ rfl, Prod.ext ?_ rfl, ?_, ?_⟩
  all_goals decide +kernel

end Wallet2

end Pebblecoin
