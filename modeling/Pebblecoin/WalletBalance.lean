import Pebblecoin.Containers.LatestIndex
import Pebblecoin.WalletRescan

/-!
What the balance of a wallet counts, compared with the outputs that are still open.
-/

namespace Pebblecoin

open Containers

variable {seen : List Transaction} {w w' : Wallet2} {ki : KeyImage → Option Nat}
  {ts : List TransferDetails} {tx : Transaction} {height : Nat} {miner : Bool}
  {opened : List KeyImage}

namespace TransferDetails

def amount (td : TransferDetails) : Option UInt64 :=
  td.tx.vout[td.internalOutputIndex]?.map (·.amount)

def cp (td : TransferDetails) : Option CoinType := td.tx.voutCoinTypes[td.internalOutputIndex]?

def live (td : TransferDetails) : Bool := !td.spent

end TransferDetails

namespace Wallet2

abbrev CurrencyMap := CoinType → UInt64

def addAmount (amounts : CurrencyMap) (cp : CoinType) (amount : UInt64) : CurrencyMap :=
  Function.update amounts cp (amounts cp + amount)

/-- No result if the output is not there. -/
def addTransfer (amounts : CurrencyMap) (td : TransferDetails) : Option CurrencyMap :=
  td.cp.bind fun cp => td.amount.map (addAmount amounts cp)

/-- The transfers that are not spent, and the changes of the transactions that are not
confirmed. -/
def balance (changes : List UInt64) (w : Wallet2) : Option CurrencyMap :=
  (w.transfers.foldlM (fun amounts td => if !td.spent then addTransfer amounts td else some amounts)
    fun _ => 0).map fun amounts =>
      changes.foldl (fun amounts change => addAmount amounts cpXpb change) amounts

/-- The transfers that the balance counts. -/
def counted (w : Wallet2) : List TransferDetails := w.transfers.filter TransferDetails.live

theorem balance_eq (w : Wallet2) : w.balance [] = w.counted.foldlM addTransfer fun _ => 0 := by
  rw [balance, counted]
  change Option.map id _ = _
  rw [Option.map_id, id]
  generalize (fun _ => 0 : CurrencyMap) = amounts
  induction w.transfers generalizing amounts with
  | nil => rfl
  | cons td tds ih =>
    rw [List.foldlM_cons, List.filter_cons]
    cases hspent : td.spent with
    | true =>
      rw [TransferDetails.live, hspent]
      exact ih amounts
    | false =>
      rw [TransferDetails.live, hspent]
      change (addTransfer amounts td).bind _ = _
      simp only [Bool.not_false, if_true, List.foldlM_cons]
      exact congrArg _ (funext ih)

/-- Different key images are counted, and none that is spent. -/
structure CountsOnce (spent : List KeyImage) (w : Wallet2) : Prop where
  nodup : (w.counted.map (·.keyImage)).Nodup
  unspent : ∀ td ∈ w.counted, td.keyImage ∉ spent

section Open

variable (keys : AccountKeys)

def pubKeyOf (tx : Transaction) : Option PublicKey := findTxExtraPubKey (parseTxExtra tx.extra).2

/-- The key images of the outputs that a transaction brings. -/
def broughtImages (tx : Transaction) : List KeyImage :=
  match pubKeyOf tx with
  | none => []
  | some pub =>
    match lookupAccOuts keys pub 0 tx.vout with
    | none => []
    | some (outs, got) => if outs ≠ [] ∧ got ≠ 0 then outs.map (keys.generateKeyImage pub) else []

def spentImages (tx : Transaction) : List KeyImage := (spendsIn tx tx.vin).map Prod.fst

def openAfter (opened : List KeyImage) (tx : Transaction) : List KeyImage :=
  match pubKeyOf tx with
  | none => opened
  | some _ => (opened ++ broughtImages keys tx).filter fun k => !(spentImages tx).contains k

/-- The key images that transactions leave to be spent. -/
def openImages (txs : List Transaction) : List KeyImage := txs.foldl (openAfter keys) []

/-- A transaction that the wallet can follow, after those it has seen. -/
structure Tracked (seen : List Transaction) (tx : Transaction) : Prop where
  distinct : (broughtImages keys tx).Nodup
  fresh : ∀ k ∈ broughtImages keys tx, k ∉ openImages keys seen
  unspent : ∀ k ∈ broughtImages keys tx, k ∉ spentImages tx → k ∉ seen.flatMap spentImages
  keyed : pubKeyOf tx = none → ∀ k ∈ spentImages tx, k ∉ openImages keys seen

/-- Each transaction can be followed, after those before it. -/
def AllTracked (seen txs : List Transaction) : Prop :=
  ∀ before tx after, txs = before ++ tx :: after → Tracked keys (seen ++ before) tx

/-- The wallet knows the open outputs, and finds them under their images. -/
structure InStep (seen : List Transaction) (w : Wallet2) : Prop where
  leads : Leads TransferDetails.keyImage TransferDetails.live w.keyImages w.transfers
  opened : w.counted.map (·.keyImage) = openImages keys seen
  unspent : ∀ k ∈ openImages keys seen, k ∉ seen.flatMap spentImages

end Open

variable {crypto : Crypto} {keys : AccountKeys} {session : Session}

theorem InStep.countsOnce (h : InStep keys seen w) :
    CountsOnce (seen.flatMap spentImages) w where
  nodup := h.leads.nodup
  unspent _ htd := h.unspent _ (h.opened ▸ List.mem_map_of_mem htd)

theorem openImages_snoc (seen : List Transaction) (tx : Transaction) :
    openImages keys (seen ++ [tx]) = openAfter keys (openImages keys seen) tx := by
  rw [openImages, List.foldl_append]
  rfl

theorem leads_receiveAll {tds : List TransferDetails}
    (h : Leads TransferDetails.keyImage TransferDetails.live w.keyImages w.transfers)
    (hnodup : (tds.map (·.keyImage)).Nodup)
    (hfresh : ∀ td ∈ tds, td.keyImage ∉ w.counted.map (·.keyImage)) :
    Leads TransferDetails.keyImage TransferDetails.live (w.receiveAll tds).keyImages
      (w.receiveAll tds).transfers := by
  induction tds generalizing w with
  | nil => exact h
  | cons td tds ih =>
    rw [List.map_cons, List.nodup_cons] at hnodup
    refine ih (h.push (hfresh td List.mem_cons_self)) hnodup.2 fun td' htd' => ?_
    change _ ∉ liveKeys _ _ (w.transfers ++ [td])
    rw [liveKeys_append, List.mem_append, not_or]
    refine ⟨hfresh td' (List.mem_cons_of_mem _ htd'), fun hmem => ?_⟩
    obtain ⟨x, hx, heq⟩ := List.mem_map.mp hmem
    obtain rfl := List.mem_singleton.mp (List.mem_of_mem_filter hx)
    exact hnodup.1 (heq ▸ List.mem_map_of_mem htd')

theorem leads_replay (h : Leads TransferDetails.keyImage TransferDetails.live ki ts)
    (spends : List (KeyImage × Transaction)) :
    Leads TransferDetails.keyImage TransferDetails.live ki (replay ki spends ts) ∧
      liveKeys TransferDetails.keyImage TransferDetails.live (replay ki spends ts) =
        (liveKeys TransferDetails.keyImage TransferDetails.live ts).filter
          fun k => !(spends.map Prod.fst).contains k := by
  induction spends generalizing ts with
  | nil => exact ⟨h, by simp [replay]⟩
  | cons p spends ih =>
    obtain ⟨k, tx⟩ := p
    rw [replay_cons]
    cases hk : ki k with
    | none =>
      obtain ⟨hleads, hlive⟩ := ih h
      refine ⟨hleads, hlive.trans (List.filter_congr fun k' hk' => ?_)⟩
      have hne : k' ≠ k := by
        rintro rfl
        obtain ⟨i, hi⟩ := h.index_of_mem hk'
        rw [hk] at hi
        cases hi
      simp [hne]
    | some i =>
      obtain ⟨hleads, hlive⟩ := ih (h.kill (f := markSpent tx) (fun _ => rfl) (fun _ => rfl) i)
      refine ⟨hleads, hlive.trans ?_⟩
      rw [h.liveKeys_kill (fun _ => rfl) hk, List.filter_filter]
      refine List.filter_congr fun k' _ => ?_
      rw [List.map_cons, List.contains_cons, Bool.not_or, Bool.and_comm, beq_eq_decide, decide_not]

theorem scanOf_eq_none (h : scanOf crypto keys session tx height miner = .ok none) :
    pubKeyOf tx = none := by
  unfold scanOf at h
  rw [pubKeyOf]
  cases hpub : findTxExtraPubKey (parseTxExtra tx.extra).2 with
  | none => rfl
  | some pub =>
    rw [hpub] at h
    dsimp only at h
    split at h
    · cases h
    · split_ifs at h
      · split at h <;> cases h
      · cases h

theorem scanOf_images {scan : TxScan}
    (h : scanOf crypto keys session tx height miner = .ok (some scan)) :
    pubKeyOf tx ≠ none ∧ scan.received.map (·.keyImage) = broughtImages keys tx := by
  unfold scanOf at h
  rw [broughtImages, pubKeyOf]
  cases hpub : findTxExtraPubKey (parseTxExtra tx.extra).2 with
  | none =>
    rw [hpub] at h
    cases h
  | some pub =>
    rw [hpub] at h
    dsimp only at h ⊢
    refine ⟨Option.some_ne_none pub, ?_⟩
    cases hlookup : lookupAccOuts keys pub 0 tx.vout with
    | none =>
      rw [hlookup] at h
      cases h
    | some found =>
      obtain ⟨outs, got⟩ := found
      rw [hlookup] at h
      dsimp only at h ⊢
      split_ifs at h ⊢
      · rw [receivedOuts] at h
        cases hindexes : session.outputIndexes (txId crypto tx) with
        | none =>
          rw [hindexes] at h
          cases h
        | some indexes =>
          rw [hindexes] at h
          dsimp only at h
          split_ifs at h
          obtain rfl := Option.some.inj (Except.ok.inj h)
          exact List.map_map
      · obtain rfl := Option.some.inj (Except.ok.inj h)
        rfl

theorem spentImages_snoc (seen : List Transaction) (tx : Transaction) :
    (seen ++ [tx]).flatMap spentImages = seen.flatMap spentImages ++ spentImages tx := by
  rw [List.flatMap_append, List.flatMap_singleton]

theorem openAfter_of_none (h : pubKeyOf tx = none) : openAfter keys opened tx = opened := by
  rw [openAfter, h]

theorem openAfter_of_ne_none (h : pubKeyOf tx ≠ none) :
    openAfter keys opened tx =
      (opened ++ broughtImages keys tx).filter fun k => !(spentImages tx).contains k := by
  rw [openAfter]
  cases hpub : pubKeyOf tx with
  | none => exact absurd hpub h
  | some pub => rfl

theorem mem_openAfter_of_ne_none {k : KeyImage} (h : pubKeyOf tx ≠ none) :
    k ∈ openAfter keys opened tx ↔
      (k ∈ opened ∨ k ∈ broughtImages keys tx) ∧ k ∉ spentImages tx := by
  rw [openAfter_of_ne_none h, List.mem_filter, List.mem_append, Bool.not_eq_true',
    List.contains_eq_mem, decide_eq_false_iff_not]

theorem counted_images (w : Wallet2) :
    w.counted.map (·.keyImage) =
      liveKeys TransferDetails.keyImage TransferDetails.live w.transfers :=
  rfl

theorem InStep.processNewTransaction (h : InStep keys seen w) (ht : Tracked keys seen tx)
    (hrun : w.processNewTransaction crypto keys session tx height miner = (none, w')) :
    InStep keys (seen ++ [tx]) w' := by
  rw [processNewTransaction_eq] at hrun
  rcases hscan : scanOf crypto keys session tx height miner with e | _ | scan
  all_goals rw [hscan] at hrun
  case error => cases hrun
  case ok.none =>
    obtain ⟨-, rfl⟩ := Prod.mk.inj hrun
    have hpub := scanOf_eq_none hscan
    refine ⟨h.leads, ?_, ?_⟩
    · rw [openImages_snoc, openAfter_of_none hpub]
      exact h.opened
    · intro k hk
      rw [openImages_snoc, openAfter_of_none hpub] at hk
      rw [spentImages_snoc, List.mem_append, not_or]
      exact ⟨h.unspent k hk, fun hspent => ht.keyed hpub k hspent hk⟩
  case ok.some =>
    obtain ⟨-, rfl⟩ := Prod.mk.inj hrun
    obtain ⟨hpub, himages⟩ := scanOf_images hscan
    obtain ⟨found, happly, -⟩ := TxScan.apply_eq crypto tx height scan (w.processUnconfirmed crypto tx)
    have hlive : ∀ td ∈ scan.received, td.live = true := by
      intro td htd
      rw [← (scanOf_received hscan td htd).1]
      rfl
    have hreceived := leads_receiveAll (w := w.processUnconfirmed crypto tx) h.leads
      (himages ▸ ht.distinct) fun td htd => by
        change td.keyImage ∉ w.counted.map (·.keyImage)
        rw [h.opened]
        exact ht.fresh _ (himages ▸ List.mem_map_of_mem htd)
    rw [receiveAll_transfers] at hreceived
    obtain ⟨hleads, hopened⟩ := leads_replay hreceived (spendsIn tx tx.vin)
    rw [happly _ rfl]
    refine ⟨hleads, ?_, ?_⟩
    · rw [counted_images, openImages_snoc, openAfter_of_ne_none hpub]
      refine hopened.trans ?_
      rw [liveKeys_append, liveKeys_of_all hlive, himages, ← h.opened]
      rfl
    · intro k hk
      rw [openImages_snoc, mem_openAfter_of_ne_none hpub] at hk
      rw [spentImages_snoc, List.mem_append, not_or]
      refine ⟨?_, hk.2⟩
      rcases hk with ⟨hold | hnew, hnot⟩
      · exact h.unspent k hold
      · exact ht.unspent k hnew hnot

theorem latest_receiveAll (tds : List TransferDetails)
    (h : Latest TransferDetails.keyImage w.keyImages w.transfers) :
    Latest TransferDetails.keyImage (w.receiveAll tds).keyImages (w.receiveAll tds).transfers := by
  induction tds generalizing w with
  | nil => exact h
  | cons td tds ih => exact ih (h.push td)

theorem getElem?_replay_of_latest {spends : List (KeyImage × Transaction)} {i : Nat}
    {td : TransferDetails} (h : Latest TransferDetails.keyImage ki ts) (htd : ts[i]? = some td)
    (hnot : td.keyImage ∈ spends.map Prod.fst → ki td.keyImage ≠ some i) :
    (replay ki spends ts)[i]? = some td := by
  have hspender : lastSpender ki spends i = none := by
    rw [lastSpender, List.filter_eq_nil_iff.mpr]
    · rfl
    · intro p hp hleads
      have hindex := of_decide_eq_true hleads
      obtain ⟨x, hx, hkey⟩ := h.key_at p.1 i hindex
      obtain rfl := Option.some.inj (htd.symm.trans hx)
      exact hnot (hkey ▸ List.mem_map_of_mem hp) (hkey ▸ hindex)
  rw [getElem?_replay, htd, hspender]
  rfl

theorem nodup_of_replay {spends : List (KeyImage × Transaction)}
    (h : Latest TransferDetails.keyImage ki ts)
    (hnodup : (liveKeys TransferDetails.keyImage TransferDetails.live (replay ki spends ts)).Nodup)
    (hunspent : ∀ k ∈ liveKeys TransferDetails.keyImage TransferDetails.live (replay ki spends ts),
      k ∉ spends.map Prod.fst) :
    (liveKeys TransferDetails.keyImage TransferDetails.live ts).Nodup := by
  rw [nodup_liveKeys_iff]
  intro i j x y hij hi hj hx hy hkey
  -- The image leads to the later one at best: the earlier one stays, whatever is spent.
  have hstays : (replay ki spends ts)[i]? = some x := by
    refine getElem?_replay_of_latest h hi fun _ hindex => ?_
    obtain ⟨n, hn, hlatest⟩ := h.reaches j y hj
    rw [← hkey, hindex] at hlatest
    have := Option.some.inj hlatest
    omega
  have hnot := hunspent _ (mem_liveKeys.mpr ⟨i, x, hstays, hx, rfl⟩)
  have hstays' : (replay ki spends ts)[j]? = some y :=
    getElem?_replay_of_latest h hj fun hmem => absurd (hkey ▸ hmem) hnot
  exact nodup_liveKeys_iff.mp hnodup i j x y hij hstays hstays' hx hy hkey

theorem broughtImages_of_none (h : pubKeyOf tx = none) : broughtImages keys tx = [] := by
  rw [broughtImages, h]

theorem InStep.countsOnce_iff (h : InStep keys seen w)
    (hrun : w.processNewTransaction crypto keys session tx height miner = (none, w')) :
    CountsOnce ((seen ++ [tx]).flatMap spentImages) w' ↔ Tracked keys seen tx := by
  refine ⟨fun hcounts => ?_, fun ht => (h.processNewTransaction ht hrun).countsOnce⟩
  have hunspent : ∀ k ∈ w'.counted.map (·.keyImage),
      k ∉ seen.flatMap spentImages ∧ k ∉ spentImages tx := by
    intro k hk
    obtain ⟨td, htd, rfl⟩ := List.mem_map.mp hk
    have hnot := hcounts.unspent td htd
    rw [spentImages_snoc, List.mem_append, not_or] at hnot
    exact hnot
  rw [processNewTransaction_eq] at hrun
  rcases hscan : scanOf crypto keys session tx height miner with e | _ | scan
  all_goals rw [hscan] at hrun
  case error => cases hrun
  case ok.none =>
    obtain ⟨-, rfl⟩ := Prod.mk.inj hrun
    have hpub := scanOf_eq_none hscan
    have hnone : broughtImages keys tx = [] := broughtImages_of_none hpub
    refine ⟨by simp [hnone], by simp [hnone], by simp [hnone], fun _ k hspent hk => ?_⟩
    rw [← h.opened] at hk
    exact (hunspent k hk).2 hspent
  case ok.some =>
    obtain ⟨-, rfl⟩ := Prod.mk.inj hrun
    obtain ⟨hpub, himages⟩ := scanOf_images hscan
    obtain ⟨found, happly, -⟩ := TxScan.apply_eq crypto tx height scan (w.processUnconfirmed crypto tx)
    rw [happly _ rfl] at hcounts hunspent
    have hlive : ∀ td ∈ scan.received, td.live = true := by
      intro td htd
      rw [← (scanOf_received hscan td htd).1]
      rfl
    have hlatest := latest_receiveAll (w := w.processUnconfirmed crypto tx) scan.received
      h.leads.toLatest
    rw [receiveAll_transfers] at hlatest
    have hnodup := nodup_of_replay hlatest hcounts.nodup fun k hk => (hunspent k hk).2
    rw [liveKeys_append, liveKeys_of_all hlive, himages] at hnodup
    change (w.counted.map (·.keyImage) ++ _).Nodup at hnodup
    rw [h.opened, List.nodup_append] at hnodup
    refine ⟨hnodup.2.1, fun k hk hold => hnodup.2.2 k hold k hk rfl, ?_, fun hnone => absurd hnone hpub⟩
    intro k hk hnot
    rw [← himages] at hk
    obtain ⟨td, htd, rfl⟩ := List.mem_map.mp hk
    obtain ⟨i, hi⟩ := List.mem_iff_getElem?.mp (List.mem_append_right w.transfers htd)
    have hstays := getElem?_replay_of_latest hlatest hi fun hmem => absurd hmem hnot
    exact (hunspent _ (mem_liveKeys.mpr ⟨i, td, hstays, hlive td htd, rfl⟩)).1

theorem allTracked_nil : AllTracked keys seen [] := by
  intro before tx after h
  simp at h

theorem allTracked_cons {txs : List Transaction} :
    AllTracked keys seen (tx :: txs) ↔ Tracked keys seen tx ∧ AllTracked keys (seen ++ [tx]) txs := by
  constructor
  · intro h
    refine ⟨?_, fun before tx' after htxs => ?_⟩
    · have hfirst := h [] tx txs rfl
      rwa [List.append_nil] at hfirst
    · have hlater := h (tx :: before) tx' after (by rw [htxs, List.cons_append])
      rwa [List.append_cons] at hlater
  · rintro ⟨hfirst, hlater⟩ before tx' after htxs
    cases before with
    | nil =>
      obtain ⟨rfl, -⟩ := List.cons.inj htxs
      rwa [List.append_nil]
    | cons tx₀ before =>
      obtain ⟨rfl, hrest⟩ := List.cons.inj htxs
      rw [List.append_cons]
      exact hlater before tx' after hrest

theorem allTracked_append {txs txs' : List Transaction} :
    AllTracked keys seen (txs ++ txs') ↔
      AllTracked keys seen txs ∧ AllTracked keys (seen ++ txs) txs' := by
  induction txs generalizing seen with
  | nil => simp [allTracked_nil]
  | cons tx txs ih =>
    rw [List.cons_append, allTracked_cons, allTracked_cons, ih, and_assoc, List.append_assoc]
    rfl

theorem InStep.processAll {txs : List (Transaction × Bool)} (h : InStep keys seen w)
    (ht : AllTracked keys seen (txs.map Prod.fst))
    (hrun : w.processAll crypto keys session height txs = (none, w')) :
    InStep keys (seen ++ txs.map Prod.fst) w' := by
  induction txs generalizing seen w with
  | nil =>
    obtain ⟨-, rfl⟩ := Prod.mk.inj hrun
    rwa [List.map_nil, List.append_nil]
  | cons p txs ih =>
    obtain ⟨tx, miner⟩ := p
    rw [Wallet2.processAll] at hrun
    rcases htx : w.processNewTransaction crypto keys session tx height miner with ⟨_ | e, w₁⟩
    all_goals rw [htx] at hrun
    · rw [List.map_cons, allTracked_cons] at ht
      have hnext := ih (h.processNewTransaction ht.1 htx) ht.2 hrun
      rwa [List.map_cons, List.append_cons]
    · cases hrun

/-- The transactions that blocks bring to the attention of the account. -/
def scannedTxs (keys : AccountKeys) (es : List (Session × BlockCompleteEntry)) : List Transaction :=
  es.flatMap fun p => (lookedInto keys p.2).map Prod.fst

theorem scannedTxs_cons (session : Session) (entry : BlockCompleteEntry)
    (es : List (Session × BlockCompleteEntry)) :
    scannedTxs keys ((session, entry) :: es) =
      (lookedInto keys entry).map Prod.fst ++ scannedTxs keys es :=
  rfl

theorem InStep.scanEntries {es : List (Session × BlockCompleteEntry)} (h : InStep keys seen w)
    (ht : AllTracked keys seen (scannedTxs keys es))
    (hrun : w.scanEntries crypto keys es = (none, w')) :
    InStep keys (seen ++ scannedTxs keys es) w' := by
  induction es generalizing seen w with
  | nil =>
    obtain ⟨-, rfl⟩ := Prod.mk.inj hrun
    rwa [scannedTxs, List.flatMap_nil, List.append_nil]
  | cons p es ih =>
    obtain ⟨session, entry⟩ := p
    rw [scannedTxs_cons, allTracked_append] at ht
    obtain ⟨hfirst, hothers⟩ := ht
    obtain ⟨w₁, hentry, hrest⟩ := scanEntries_cons_eq_ok hrun
    obtain ⟨w₂, hall, rfl⟩ := processNewBlockchainEntry_eq_ok hentry
    have hnext := h.processAll hfirst hall
    have hrecorded : InStep keys (seen ++ (lookedInto keys entry).map Prod.fst)
        { w₂ with
          blockchain := w.blockchain ++ [blockId crypto entry.block]
          localBcHeight := w.localBcHeight + 1 } :=
      ⟨hnext.leads, hnext.opened, hnext.unspent⟩
    rw [scannedTxs_cons, ← List.append_assoc]
    exact ih hrecorded hothers hrest

theorem InStep.bareWallet (keys : AccountKeys) (chain : List Hash) :
    InStep keys [] (Wallet2.bareWallet chain) where
  leads := ⟨⟨fun _ _ h => (by cases h), fun _ _ h => (by cases h)⟩, fun _ _ h => (by cases h)⟩
  opened := rfl
  unspent _ h := by cases h

/-- The balance of a wallet that has scanned blocks it can follow. -/
theorem scanEntries_countsOnce {genesis : Hash} {es : List (Session × BlockCompleteEntry)}
    {w : Wallet2} (hscan : (Wallet2.bareWallet [genesis]).scanEntries crypto keys es = (none, w))
    (ht : AllTracked keys [] (scannedTxs keys es)) :
    w.balance [] = w.counted.foldlM addTransfer (fun _ => 0) ∧
      CountsOnce ((scannedTxs keys es).flatMap spentImages) w :=
  ⟨balance_eq w, ((InStep.bareWallet keys [genesis]).scanEntries ht hscan).countsOnce⟩

/-- The payment is spent, and another one comes. -/
theorem scanEntries_countsOnce_of_samplePaid :
    let es := [samplePaid 1, sampleSpent, samplePaid 2]
    let w := ((Wallet2.bareWallet [nullHash]).scanEntries sampleCrypto sampleKeys es).2
    AllTracked sampleKeys [] (scannedTxs sampleKeys es) ∧
      CountsOnce ((scannedTxs sampleKeys es).flatMap spentImages) w ∧
      w.counted.map (·.blockHeight) = [3] := by
  have ht : AllTracked sampleKeys []
      (scannedTxs sampleKeys [samplePaid 1, sampleSpent, samplePaid 2]) := by
    have htxs : scannedTxs sampleKeys [samplePaid 1, sampleSpent, samplePaid 2] =
        [samplePayment 1 (Blob.ofNat 32 1), sampleKeyedTx [] nullHash [],
          sampleKeyedTx [.toKey ⟨100, [0], Blob.ofNat 32 1⟩] nullHash [],
          samplePayment 2 (Blob.ofNat 32 2)] := by
      decide +kernel
    rw [htxs, allTracked_cons, allTracked_cons, allTracked_cons, allTracked_cons]
    refine ⟨⟨?_, ?_, ?_, ?_⟩, ⟨?_, ?_, ?_, ?_⟩, ⟨?_, ?_, ?_, ?_⟩, ⟨?_, ?_, ?_, ?_⟩, allTracked_nil⟩
    all_goals decide +kernel
  exact ⟨ht, (scanEntries_countsOnce (w := _) (Prod.ext (by decide +kernel) rfl) ht).2,
    by decide +kernel⟩

/-- The wallet has scanned a payment, and a transaction that spends it follows. -/
theorem countsOnce_iff_of_samplePaid :
    let w := ((bareWallet [nullHash]).scanEntries sampleCrypto sampleKeys [samplePaid 1]).2
    let seen := scannedTxs sampleKeys [samplePaid 1]
    let tx := sampleKeyedTx [.toKey ⟨100, [0], Blob.ofNat 32 1⟩] nullHash []
    w.counted.map (·.keyImage) = [Blob.ofNat 32 1] ∧
      (CountsOnce ((seen ++ [tx]).flatMap spentImages)
        (w.processNewTransaction sampleCrypto sampleKeys sampleSpent.1 tx 2 false).2 ↔
          Tracked sampleKeys seen tx) := by
  intro w seen tx
  have hpaid : AllTracked sampleKeys [] seen := by
    have htxs : seen = [samplePayment 1 (Blob.ofNat 32 1)] := by decide +kernel
    rw [htxs, allTracked_cons]
    refine ⟨⟨?_, ?_, ?_, ?_⟩, allTracked_nil⟩
    all_goals decide +kernel
  have hscan : (bareWallet [nullHash]).scanEntries sampleCrypto sampleKeys [samplePaid 1] =
      (none, w) := Prod.ext (by decide +kernel) rfl
  have hrun : w.processNewTransaction sampleCrypto sampleKeys sampleSpent.1 tx 2 false =
      (none, (w.processNewTransaction sampleCrypto sampleKeys sampleSpent.1 tx 2 false).2) :=
    Prod.ext (by decide +kernel) rfl
  exact ⟨by decide +kernel,
    ((InStep.bareWallet sampleKeys [nullHash]).scanEntries hpaid hscan).countsOnce_iff hrun⟩

/-- The first payment is spent by a transaction with no extra bytes. -/
def sampleSpentUnkeyed : Session × BlockCompleteEntry :=
  sampleEntry (sampleKeyedTx [] nullHash [])
    [⟨⟨1, 0, [], [.toKey ⟨100, [0], Blob.ofNat 32 1⟩], [], [cpXpb], []⟩, []⟩]

/-- Two payments to one key are both counted, and when their image is spent the first one
still is.  A payment that is spent without a public key is counted as well. -/
theorem balance_counts_spent_image :
    let scan := fun es => (Wallet2.bareWallet [nullHash]).scanEntries sampleCrypto sampleKeys es
    let images := fun es => (scan es).2.counted.map (·.keyImage)
    let spends := fun es => (scannedTxs sampleKeys es).flatMap spentImages
    let twice := [samplePaid 1, sampleEntry (samplePayment 2 (Blob.ofNat 32 1)) []]
    let unkeyed := [samplePaid 1, sampleSpentUnkeyed]
    (scan twice).1 = none ∧ images twice = [Blob.ofNat 32 1, Blob.ofNat 32 1] ∧
      (scan (twice ++ [sampleSpent])).1 = none ∧
      images (twice ++ [sampleSpent]) = [Blob.ofNat 32 1] ∧
      spends (twice ++ [sampleSpent]) = [Blob.ofNat 32 1] ∧
      (scan unkeyed).1 = none ∧ images unkeyed = [Blob.ofNat 32 1] ∧
      spends unkeyed = [Blob.ofNat 32 1] := by
  decide +kernel

end Wallet2

end Pebblecoin
