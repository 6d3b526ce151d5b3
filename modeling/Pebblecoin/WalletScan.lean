import Pebblecoin.Wallet

/-!
What a transaction brings to a wallet: everything but the spent amounts is known
without looking into the wallet.
-/

namespace Pebblecoin

/-- A transfer as it was received. -/
def TransferDetails.unspent (td : TransferDetails) : TransferDetails :=
  { td with spent := false, spentByTx := none }

namespace Wallet2

section Plan

variable (crypto : Crypto) (keys : AccountKeys) (session : Session)

/-- What a transaction has for the account. -/
structure TxScan where
  received : List TransferDetails
  got : UInt64

def receivedOuts (tx : Transaction) (txPubKey : PublicKey) (height : Nat) (isMinerTx : Bool)
    (outs : List Nat) : Except WalletError (List TransferDetails) :=
  match session.outputIndexes (txId crypto tx) with
  | none => .error .getOutIndicesError
  | some indexes =>
    if indexes.length ≠ tx.vout.length then .error .outIndicesSizeMismatch
    else .ok (outs.map (newTransfer keys tx txPubKey height isMinerTx indexes))

/-- The plan for a transaction; `none` if it has no public key. -/
def scanOf (tx : Transaction) (height : Nat) (isMinerTx : Bool) :
    Except WalletError (Option TxScan) :=
  match findTxExtraPubKey (parseTxExtra tx.extra).2 with
  | none => .ok none
  | some txPubKey =>
    match lookupAccOuts keys txPubKey 0 tx.vout with
    | none => .error .accOutsLookupError
    | some (outs, got) =>
      if outs ≠ [] ∧ got ≠ 0 then
        match receivedOuts crypto keys session tx txPubKey height isMinerTx outs with
        | .error e => .error e
        | .ok received => .ok (some ⟨received, got⟩)
      else .ok (some ⟨[], got⟩)

def receiveAll (tds : List TransferDetails) (w : Wallet2) : Wallet2 :=
  tds.foldl (fun w td => w.receive td) w

def TxScan.apply (tx : Transaction) (height : Nat) (scan : TxScan) (w : Wallet2) : Wallet2 :=
  let spent := (w.receiveAll scan.received).spendIns tx tx.vin 0
  spent.2.recordPayment crypto tx height (findTxExtraNonce (parseTxExtra tx.extra).2) scan.got
    spent.1

end Plan

variable {crypto : Crypto} {keys : AccountKeys} {session : Session}

theorem lookupAccOuts_spec {pub : PublicKey} {i : Nat} {vout : List TxOut} {outs : List Nat}
    {got : UInt64} (h : lookupAccOuts keys pub i vout = some (outs, got)) :
    ∀ o ∈ outs, i ≤ o ∧ ∃ out, vout[o - i]? = some out ∧
      (keys.derivePublicKey pub o).map TxoutTarget.toKey = some out.target := by
  induction vout generalizing i outs got with
  | nil =>
    obtain ⟨rfl, -⟩ := Prod.mk.inj (Option.some.inj h)
    simp
  | cons out vout ih =>
    rw [lookupAccOuts] at h
    split at h
    case h_2 => cases h
    case h_1 key htarget =>
      obtain ⟨⟨found, money⟩, hrest, heq⟩ := Option.map_eq_some_iff.mp h
      have hfound : ∀ o ∈ found, i ≤ o ∧ ∃ out', (out :: vout)[o - i]? = some out' ∧
          (keys.derivePublicKey pub o).map TxoutTarget.toKey = some out'.target := by
        intro o ho
        obtain ⟨hle, out', hout', hkey⟩ := ih hrest o ho
        refine ⟨by omega, out', ?_, hkey⟩
        rw [show o - i = (o - (i + 1)) + 1 by omega, List.getElem?_cons_succ, hout']
      dsimp only at heq
      split_ifs at heq with hmine
      · obtain ⟨rfl, -⟩ := Prod.mk.inj heq
        intro o ho
        rcases List.mem_cons.mp ho with rfl | ho
        · refine ⟨le_rfl, out, by simp, ?_⟩
          rw [of_decide_eq_true hmine, Option.map_some, htarget]
        · exact hfound o ho
      · obtain ⟨rfl, -⟩ := Prod.mk.inj heq
        exact hfound

theorem receiveOuts_eq {tx : Transaction} {pub : PublicKey} {height : Nat} {miner : Bool}
    {indexes : List UInt64} {outs : List Nat}
    (h : ∀ o ∈ outs, ∃ out, tx.vout[o]? = some out ∧
      (keys.derivePublicKey pub o).map TxoutTarget.toKey = some out.target) (w : Wallet2) :
    receiveOuts keys tx pub height miner indexes outs w =
      (none, w.receiveAll (outs.map (newTransfer keys tx pub height miner indexes))) := by
  induction outs generalizing w with
  | nil => rfl
  | cons o outs ih =>
    obtain ⟨out, hout, hkey⟩ := h o List.mem_cons_self
    simp only [receiveOuts, hout, if_pos hkey]
    exact ih (fun o ho => h o (List.mem_cons_of_mem _ ho)) _

theorem takeOuts_eq {tx : Transaction} {pub : PublicKey} {height : Nat} {miner : Bool}
    {outs : List Nat} {got : UInt64} (h : lookupAccOuts keys pub 0 tx.vout = some (outs, got))
    (w : Wallet2) :
    w.takeOuts crypto keys session tx pub height miner outs =
      match receivedOuts crypto keys session tx pub height miner outs with
      | .error e => (some e, w)
      | .ok received => (none, w.receiveAll received) := by
  have hspec : ∀ o ∈ outs, ∃ out, tx.vout[o]? = some out ∧
      (keys.derivePublicKey pub o).map TxoutTarget.toKey = some out.target := by
    intro o ho
    obtain ⟨-, out, hout, hkey⟩ := lookupAccOuts_spec h o ho
    exact ⟨out, hout, hkey⟩
  unfold takeOuts receivedOuts
  cases session.outputIndexes (txId crypto tx) with
  | none => rfl
  | some indexes =>
    dsimp only
    split_ifs
    · rfl
    · exact receiveOuts_eq hspec w

theorem processNewTransaction_eq (tx : Transaction) (height : Nat) (miner : Bool) (w : Wallet2) :
    w.processNewTransaction crypto keys session tx height miner =
      match scanOf crypto keys session tx height miner with
      | .error e => (some e, w.processUnconfirmed crypto tx)
      | .ok none => (none, w.processUnconfirmed crypto tx)
      | .ok (some scan) => (none, scan.apply crypto tx height (w.processUnconfirmed crypto tx)) := by
  unfold processNewTransaction scanOf
  dsimp only
  cases findTxExtraPubKey (parseTxExtra tx.extra).2 with
  | none => rfl
  | some pub =>
    dsimp only
    cases hlookup : lookupAccOuts keys pub 0 tx.vout with
    | none => rfl
    | some found =>
      obtain ⟨outs, got⟩ := found
      dsimp only
      by_cases hgot : outs ≠ [] ∧ got ≠ 0
      · rw [if_pos hgot, if_pos hgot, takeOuts_eq hlookup]
        cases receivedOuts crypto keys session tx pub height miner outs with
        | error e => rfl
        | ok received => rfl
      · rw [if_neg hgot, if_neg hgot]
        rfl

/-- The key images that a transaction spends. -/
def spendsIn (tx : Transaction) (ins : List TxIn) : List (KeyImage × Transaction) :=
  ins.filterMap fun
    | .toKey inp => some (inp.kImage, tx)
    | _ => none

/-- Mark the transfers that the key images stand for, one spend after the other. -/
def replay (keyImages : KeyImage → Option Nat) (spends : List (KeyImage × Transaction))
    (transfers : List TransferDetails) : List TransferDetails :=
  spends.foldl (fun ts p => match keyImages p.1 with
    | none => ts
    | some i => ts.modify i (markSpent p.2)) transfers

theorem replay_append (keyImages : KeyImage → Option Nat)
    (spends spends' : List (KeyImage × Transaction)) (ts : List TransferDetails) :
    replay keyImages (spends ++ spends') ts = replay keyImages spends' (replay keyImages spends ts) :=
  List.foldl_append

theorem replay_cons (keyImages : KeyImage → Option Nat) (k : KeyImage) (tx : Transaction)
    (spends : List (KeyImage × Transaction)) (ts : List TransferDetails) :
    replay keyImages ((k, tx) :: spends) ts =
      replay keyImages spends (match keyImages k with
        | none => ts
        | some i => ts.modify i (markSpent tx)) :=
  rfl

theorem map_unspent_modify (i : Nat) (tx : Transaction) (ts : List TransferDetails) :
    (ts.modify i (markSpent tx)).map TransferDetails.unspent = ts.map TransferDetails.unspent := by
  refine List.ext_getElem? fun j => ?_
  rw [List.getElem?_map, List.getElem?_map, List.getElem?_modify]
  cases ts[j]? with
  | none => rfl
  | some td =>
    simp only [Option.map_eq_map, Option.map_some]
    split_ifs <;> rfl

theorem map_unspent_replay (keyImages : KeyImage → Option Nat)
    (spends : List (KeyImage × Transaction)) (ts : List TransferDetails) :
    (replay keyImages spends ts).map TransferDetails.unspent = ts.map TransferDetails.unspent := by
  induction spends generalizing ts with
  | nil => rfl
  | cons p spends ih =>
    obtain ⟨k, tx⟩ := p
    rw [replay_cons, ih]
    cases keyImages k with
    | none => rfl
    | some i => exact map_unspent_modify i tx ts

theorem length_replay (keyImages : KeyImage → Option Nat) (spends : List (KeyImage × Transaction))
    (ts : List TransferDetails) : (replay keyImages spends ts).length = ts.length := by
  have h := congrArg List.length (map_unspent_replay keyImages spends ts)
  simpa using h

theorem spendIns_eq (tx : Transaction) (ins : List TxIn) (money : UInt64) (w : Wallet2) :
    (w.spendIns tx ins money).2 =
      { w with transfers := replay w.keyImages (spendsIn tx ins) w.transfers } := by
  induction ins generalizing money w with
  | nil => rfl
  | cons inp ins ih =>
    cases inp with
    | toKey inp =>
      rw [spendIns, spendsIn, List.filterMap_cons]
      dsimp only
      rw [replay_cons]
      cases w.keyImages inp.kImage with
      | none => exact ih _ _
      | some i => exact ih _ _
    | _ => exact ih _ _

theorem spendIns_money {w w' : Wallet2} (h : w.keyImages = w'.keyImages) (tx : Transaction)
    (ins : List TxIn) (money : UInt64) :
    (w.spendIns tx ins money).1 = (w'.spendIns tx ins money).1 := by
  induction ins generalizing money w w' with
  | nil => rfl
  | cons inp ins ih =>
    cases inp with
    | toKey inp =>
      rw [spendIns, spendIns, h]
      cases w'.keyImages inp.kImage with
      | none => exact ih h money
      | some i =>
        have hmarked := @ih
          { w with
            transfers := w.transfers.modify i (markSpent tx), keyImages := w'.keyImages }
          { w' with transfers := w'.transfers.modify i (markSpent tx) } rfl
        exact hmarked _
    | _ => exact ih h money

theorem receiveAll_eq (tds : List TransferDetails) (w : Wallet2) :
    w.receiveAll tds = { w with
      transfers := w.transfers ++ tds
      keyImages := (w.receiveAll tds).keyImages } := by
  induction tds generalizing w with
  | nil => simp [receiveAll]
  | cons td tds ih =>
    refine (ih (w.receive td)).trans ?_
    simp [receiveAll, receive]

theorem receiveAll_transfers (tds : List TransferDetails) (w : Wallet2) :
    (w.receiveAll tds).transfers = w.transfers ++ tds := by
  rw [receiveAll_eq]

variable (crypto) in
theorem recordPayment_eq (tx : Transaction) (height : Nat) (nonce : Option Wire.Bytes)
    (got spent : UInt64) : ∃ found : List (Hash × PaymentDetails),
      (∀ w : Wallet2, w.recordPayment crypto tx height nonce got spent =
        { w with payments := w.payments ++ found }) ∧ ∀ p ∈ found, p.2.blockHeight = height := by
  unfold recordPayment
  cases nonce.bind getPaymentIdFromTxExtraNonce with
  | none => exact ⟨[], by simp, by simp⟩
  | some id =>
    dsimp only
    generalize (if spent < got then got - spent else 0) = received
    generalize (if got < spent then spent - got else 0) = sent
    split_ifs
    · exact ⟨_, fun _ => rfl, by simp⟩
    · exact ⟨[], by simp, by simp⟩

variable (crypto) in
/-- Wallets that find the same transfers find the same payments. -/
theorem TxScan.apply_eq (tx : Transaction) (height : Nat) (scan : TxScan) (w : Wallet2) :
    ∃ found : List (Hash × PaymentDetails),
      (∀ w' : Wallet2, (w'.receiveAll scan.received).keyImages =
          (w.receiveAll scan.received).keyImages →
        scan.apply crypto tx height w' = { w' with
          transfers := replay (w.receiveAll scan.received).keyImages (spendsIn tx tx.vin)
            (w'.transfers ++ scan.received)
          keyImages := (w.receiveAll scan.received).keyImages
          payments := w'.payments ++ found }) ∧
      ∀ p ∈ found, p.2.blockHeight = height := by
  obtain ⟨found, hfound, hheights⟩ := recordPayment_eq crypto tx height
    (findTxExtraNonce (parseTxExtra tx.extra).2) scan.got
    ((w.receiveAll scan.received).spendIns tx tx.vin 0).1
  refine ⟨found, fun w' hw' => ?_, hheights⟩
  rw [TxScan.apply, spendIns_money hw', hfound, spendIns_eq, receiveAll_eq, hw']

/-- The transfers, without what is known about their spending. -/
def holdings (w : Wallet2) : List TransferDetails := w.transfers.map TransferDetails.unspent

/-- The batches of votes stay, and transfers are only added. -/
structure Grows (w w' : Wallet2) : Prop where
  votesInfo : w'.votesInfo = w.votesInfo
  holdings : w.holdings <+: w'.holdings

/-- The chain stays as well. -/
structure Scanned (w w' : Wallet2) : Prop extends Grows w w' where
  blockchain : w'.blockchain = w.blockchain
  localBcHeight : w'.localBcHeight = w.localBcHeight

theorem Grows.refl (w : Wallet2) : Grows w w := ⟨rfl, List.prefix_rfl⟩

theorem Grows.trans {w w' w'' : Wallet2} (h : Grows w w') (h' : Grows w' w'') : Grows w w'' :=
  ⟨h'.votesInfo.trans h.votesInfo, h.holdings.trans h'.holdings⟩

theorem Scanned.trans {w w' w'' : Wallet2} (h : Scanned w w') (h' : Scanned w' w'') :
    Scanned w w'' :=
  ⟨h.toGrows.trans h'.toGrows, h'.blockchain.trans h.blockchain,
    h'.localBcHeight.trans h.localBcHeight⟩

theorem TxScan.apply_scanned (tx : Transaction) (height : Nat) (scan : TxScan) (w : Wallet2) :
    Scanned w (scan.apply crypto tx height w) := by
  obtain ⟨found, happly, -⟩ := apply_eq crypto tx height scan w
  rw [happly w rfl]
  refine ⟨⟨rfl, ?_⟩, rfl, rfl⟩
  rw [Wallet2.holdings, Wallet2.holdings, map_unspent_replay, List.map_append]
  exact List.prefix_append _ _

theorem processNewTransaction_scanned (tx : Transaction) (height : Nat) (miner : Bool)
    (w : Wallet2) :
    Scanned w (w.processNewTransaction crypto keys session tx height miner).2 := by
  have hstart : Scanned w (w.processUnconfirmed crypto tx) := ⟨⟨rfl, List.prefix_rfl⟩, rfl, rfl⟩
  rw [processNewTransaction_eq]
  rcases scanOf crypto keys session tx height miner with e | _ | scan
  · exact hstart
  · exact hstart
  · exact hstart.trans (TxScan.apply_scanned ..)

/-- The transactions of a block that are looked into, and whether they are the miner's. -/
def lookedInto (keys : AccountKeys) (entry : BlockCompleteEntry) : List (Transaction × Bool) :=
  if keys.createtime < entry.block.timestamp + 60 * 60 * 24 then
    (entry.block.minerTx, true) :: entry.txs.map fun tx => (tx, false)
  else []

variable (crypto keys session) in
def processAll (height : Nat) :
    List (Transaction × Bool) → Wallet2 → Option WalletError × Wallet2
  | [], w => (none, w)
  | (tx, miner) :: txs, w =>
    match w.processNewTransaction crypto keys session tx height miner with
    | (some e, w) => (some e, w)
    | (none, w) => processAll height txs w

theorem scanBlock_eq (entry : BlockCompleteEntry) (height : Nat) (w : Wallet2) :
    w.scanBlock crypto keys session entry height =
      w.processAll crypto keys session height (lookedInto keys entry) := by
  have htxs : ∀ (txs : List Transaction) (w : Wallet2),
      w.processTransactions crypto keys session height txs =
        w.processAll crypto keys session height (txs.map fun tx => (tx, false)) := by
    intro txs
    induction txs with
    | nil => exact fun _ => rfl
    | cons tx txs ih =>
      intro w
      rw [processTransactions, List.map_cons, processAll]
      rcases w.processNewTransaction crypto keys session tx height false with ⟨_ | e, w'⟩
      · exact ih w'
      · rfl
  rw [scanBlock, lookedInto]
  split_ifs
  · rw [processAll]
    rcases w.processNewTransaction crypto keys session entry.block.minerTx height true with
      ⟨_ | e, w'⟩
    · exact htxs entry.txs w'
    · rfl
  · rfl

theorem processAll_invariant (P : Wallet2 → Prop) {height : Nat}
    (hstep : ∀ tx miner w, P w →
      P (w.processNewTransaction crypto keys session tx height miner).2)
    (txs : List (Transaction × Bool)) {w : Wallet2} (hw : P w) :
    P (w.processAll crypto keys session height txs).2 := by
  induction txs generalizing w with
  | nil => exact hw
  | cons p txs ih =>
    obtain ⟨tx, miner⟩ := p
    have hnext := hstep tx miner w hw
    rw [processAll]
    generalize w.processNewTransaction crypto keys session tx height miner = r at hnext ⊢
    obtain ⟨_ | e, w'⟩ := r
    · exact ih hnext
    · exact hnext

theorem processAll_scanned (height : Nat) (txs : List (Transaction × Bool)) (w : Wallet2) :
    Scanned w (w.processAll crypto keys session height txs).2 :=
  processAll_invariant (Scanned w) (fun _ _ _ hw' => hw'.trans (processNewTransaction_scanned ..)) txs
    ⟨.refl w, rfl, rfl⟩

theorem scanBlock_scanned (entry : BlockCompleteEntry) (height : Nat) (w : Wallet2) :
    Scanned w (w.scanBlock crypto keys session entry height).2 := by
  rw [scanBlock_eq]
  exact processAll_scanned ..

theorem processNewBlockchainEntry_blockchain {entry : BlockCompleteEntry} {id : Hash} {height : Nat}
    {w w' : Wallet2} {e : Option WalletError} (hheight : height = w.blockchain.length)
    (h : w.processNewBlockchainEntry crypto keys session entry id height = (e, w')) :
    w'.blockchain = w.blockchain ++ [id] ∨ w'.blockchain = w.blockchain ∧ e ≠ none := by
  have hscan : (w.scanBlock crypto keys session entry height).2.blockchain = w.blockchain :=
    (scanBlock_scanned entry height w).blockchain
  rw [processNewBlockchainEntry, if_neg (not_not.mpr hheight)] at h
  generalize w.scanBlock crypto keys session entry height = r at hscan h
  obtain ⟨_ | e', w₁⟩ := r
  · left
    dsimp only at hscan h
    split_ifs at h
    · obtain ⟨-, rfl⟩ := Prod.mk.inj h
      exact congrArg (· ++ [id]) hscan
    · obtain ⟨-, rfl⟩ := Prod.mk.inj h
      exact congrArg (· ++ [id]) hscan
  · obtain ⟨rfl, rfl⟩ := Prod.mk.inj h
    exact Or.inr ⟨hscan, by simp⟩

theorem detachTransfers_blockchain (i : Nat) (tds : List TransferDetails) (w : Wallet2) :
    (w.detachTransfers i tds).2.blockchain = w.blockchain := by
  induction tds generalizing i w with
  | nil => rfl
  | cons td tds ih =>
    rw [detachTransfers]
    cases w.keyImages td.keyImage with
    | none => rfl
    | some _ => exact ih _ _

theorem detachBlockchain_blockchain {height : Nat} {w w' : Wallet2} {e : Option WalletError}
    (h : w.detachBlockchain height = (e, w')) :
    e = none ∧ w'.blockchain = w.blockchain.take height ∨
      e ≠ none ∧ w'.blockchain = w.blockchain := by
  have hdetach := detachTransfers_blockchain (w.transfers.findIdx fun td =>
    decide (height ≤ td.blockHeight)) (w.transfers.drop (w.transfers.findIdx fun td =>
    decide (height ≤ td.blockHeight))) w
  rw [detachBlockchain] at h
  generalize w.detachTransfers _ _ = r at hdetach h
  obtain ⟨_ | e', w₁⟩ := r
  · obtain ⟨rfl, rfl⟩ := Prod.mk.inj h
    exact Or.inl ⟨rfl, congrArg (List.take height) hdetach⟩
  · obtain ⟨rfl, rfl⟩ := Prod.mk.inj h
    exact Or.inr ⟨by simp, hdetach⟩

end Wallet2

end Pebblecoin
