import Mathlib.Data.List.TakeWhile
import Pebblecoin.WalletForks
import Pebblecoin.WalletPlans

/-!
Attempts to scan a block that are given up when the daemon does not answer, and what a
later attempt makes of them.
-/

namespace Pebblecoin

open Containers

variable {n start tries height fetched : Nat} {v w v' v₁ : Wallet2} {entry : BlockCompleteEntry}
  {quiet : Prop} {store : Hash → Option Block} {sessions : List Session}

/-- Whether an error is thrown out of a block. -/
def WalletError.inBlock : WalletError → Bool
  | .accOutsLookupError | .getOutIndicesError | .outIndicesSizeMismatch => true
  | .wrongOutInTransaction | .keyImageKeyMismatch => true
  | _ => false

namespace Wallet2

section Attempts

variable {crypto : Crypto} {keys : AccountKeys} {session : Session} {d : Hash → List UInt64}

variable (crypto keys) in
/-- The transactions bring neither a transfer nor a payment to the wallet. -/
def BringsNothing (session : Session) (height : Nat) (txs : List (Transaction × Bool))
    (w : Wallet2) : Prop :=
  (w.processAll crypto keys session height txs).2.transfers.length = w.transfers.length ∧
    (w.processAll crypto keys session height txs).2.payments = w.payments

theorem bringsNothing_iff {txs : List (Transaction × Bool)} :
    BringsNothing crypto keys session height (scannedBefore crypto keys session height txs) w ↔
      QuietPlans crypto height
        (plansFor crypto keys session height (scannedBefore crypto keys session height txs)) w := by
  rcases processAll_cases session height (scannedBefore crypto keys session height txs) w with
    ⟨w', hrun, hagree, -⟩ | ⟨e, w', p, -, -, hp, herror⟩
  · rw [BringsNothing, QuietPlans, hrun]
    dsimp only
    rw [hagree.payments, hagree.alike.length_transfers, length_transfers_applyPlans,
      Nat.add_eq_left, List.length_eq_zero_iff]
  · have hok := List.mem_takeWhile_imp hp
    rw [herror] at hok
    cases hok

theorem scanOf_error_inBlock {tx : Transaction} {miner : Bool} {e : WalletError}
    (h : scanOf crypto keys session tx height miner = .error e) : e.inBlock = true := by
  unfold scanOf receivedOuts at h
  split at h
  · cases h
  · split at h
    · cases h
      rfl
    · split_ifs at h
      · split at h
        next heq =>
          split at heq
          · cases heq
            cases h
            rfl
          · split_ifs at heq
            cases heq
            cases h
            rfl
        · cases h

/-- The block has been scanned. -/
def recordBlock (id : Hash) (w : Wallet2) : Wallet2 :=
  { w with blockchain := w.blockchain ++ [id], localBcHeight := w.localBcHeight + 1 }

theorem processNewBlockchainEntry_cases (session : Session) (entry : BlockCompleteEntry) (id : Hash)
    (w : Wallet2) :
    (∃ e w', w.processNewBlockchainEntry crypto keys session entry id w.blockchain.length =
          (e, w'.recordBlock id) ∧
        (e = none ∨ e = some .fileSaveError ∧ session.storeSucceeds = false) ∧
        Agree w' (w.applyPlans crypto w.blockchain.length
          (plansFor crypto keys session w.blockchain.length (lookedInto keys entry))) ∧
        scannedBefore crypto keys session w.blockchain.length (lookedInto keys entry) =
          lookedInto keys entry) ∨
      ∃ e w' p, w.processNewBlockchainEntry crypto keys session entry id w.blockchain.length =
          (some e, w') ∧
        Agree w' (w.applyPlans crypto w.blockchain.length
          (plansFor crypto keys session w.blockchain.length
            (scannedBefore crypto keys session w.blockchain.length (lookedInto keys entry)))) ∧
        p ∈ lookedInto keys entry ∧
        scanOf crypto keys session p.1 w.blockchain.length p.2 = .error e := by
  rw [processNewBlockchainEntry, if_neg (not_not.mpr rfl), scanBlock_eq]
  rcases processAll_cases session w.blockchain.length (lookedInto keys entry) w with
    ⟨w', hrun, hagree, hall⟩ | ⟨e, w', p, hrun, hagree, hp, herror⟩
  · left
    rw [hrun]
    dsimp only
    split_ifs with hstore
    · exact ⟨_, w', rfl, Or.inr ⟨rfl, by simpa using hstore.2⟩, hagree, hall⟩
    · exact ⟨_, w', rfl, Or.inl rfl, hagree, hall⟩
  · right
    rw [hrun]
    exact ⟨e, w', p, rfl, hagree, hp, herror⟩

theorem Agree.recordBlock {w' : Wallet2} (h : Agree w w') (id : Hash) :
    Agree (w.recordBlock id) (w'.recordBlock id) :=
  ⟨⟨h.transfers, h.keyImages, h.payments⟩, congrArg (· ++ [id]) h.blockchain,
    congrArg (· + 1) h.localBcHeight⟩

theorem Agree.symm {w' : Wallet2} (h : Agree w w') : Agree w' w :=
  ⟨⟨h.transfers.symm, h.keyImages.symm, h.payments.symm⟩, h.blockchain.symm, h.localBcHeight.symm⟩

theorem applyPlans_blockchain (height : Nat) (plans : Plans) (w : Wallet2) :
    (w.applyPlans crypto height plans).blockchain = w.blockchain := by
  induction plans generalizing w with
  | nil => rfl
  | cons p plans ih => exact (ih _).trans (TxScan.apply_scanned ..).blockchain

theorem steady_processNewBlockchainEntry (hs : Answers d session) (id : Hash)
    (hall : scannedBefore crypto keys session v.blockchain.length (lookedInto keys entry) =
      lookedInto keys entry) :
    ∃ v', v.processNewBlockchainEntry crypto keys (steadySession d) entry id v.blockchain.length =
        (none, v'.recordBlock id) ∧
      Agree v' (v.applyPlans crypto v.blockchain.length
        (steadyPlans crypto keys d v.blockchain.length (lookedInto keys entry))) := by
  obtain ⟨hbefore, -⟩ := plansFor_of_scannedBefore hs hall
  rcases processNewBlockchainEntry_cases (steadySession d) entry id v with
    ⟨e, v', hrun, he, hagree, -⟩ | ⟨e, v', p, -, -, hp, herror⟩
  · rcases he with rfl | ⟨-, hstore⟩
    · rw [steadyPlans, hbefore]
      exact ⟨v', hrun, hagree⟩
    · cases hstore
  · rw [← hbefore] at hp
    have hok := List.mem_takeWhile_imp hp
    rw [herror] at hok
    cases hok

theorem Follows.processNewBlockchainEntry (h : Follows crypto quiet
      (steadyPlans crypto keys d v.blockchain.length (lookedInto keys entry)) w v)
    (hs : Answers d session) (id : Hash) :
    (∃ e w' v', w.processNewBlockchainEntry crypto keys session entry id w.blockchain.length =
          (e, w') ∧ (e = none ∨ e = some .fileSaveError) ∧
        v.processNewBlockchainEntry crypto keys (steadySession d) entry id v.blockchain.length =
          (none, v') ∧
        ∀ next, Follows crypto quiet next w' v') ∨
      ∃ e w', w.processNewBlockchainEntry crypto keys session entry id w.blockchain.length =
          (some e, w') ∧
        (∃ p ∈ lookedInto keys entry,
          scanOf crypto keys session p.1 v.blockchain.length p.2 = .error e) ∧
        Follows crypto (quiet ∧ BringsNothing crypto keys session v.blockchain.length
            (scannedBefore crypto keys session v.blockchain.length (lookedInto keys entry)) w')
          (steadyPlans crypto keys d v.blockchain.length (lookedInto keys entry)) w' v := by
  have hchain := h.blockchain
  rcases processNewBlockchainEntry_cases session entry id w with
    ⟨e, w', hrun, he, hagree, hall⟩ | ⟨e, w', p, hrun, hagree, hp, herror⟩
  all_goals rw [hchain] at hagree
  · left
    rw [hchain] at hall
    obtain ⟨v', hsteady, hagree'⟩ := steady_processNewBlockchainEntry hs id hall
    rw [(plansFor_of_scannedBefore hs hall).2] at hagree
    refine ⟨e, _, _, hrun, he.imp_right And.left, hsteady, fun next => ⟨?_, fun hquiet => ?_,
      fun hloud => ?_⟩⟩
    · exact congrArg (· ++ [id]) ((hagree.blockchain.trans ((applyPlans_blockchain ..).trans
        hchain)).trans (hagree'.blockchain.trans (applyPlans_blockchain ..)).symm)
    · refine Marked.of_agree (Agree.recordBlock ?_ id) _ next
      exact (hagree.trans (h.marked hquiet).applyPlans).trans hagree'.symm
    · have hexcess := ((h.excess hloud).applyPlans v.blockchain.length _).congr hagree
      rcases hexcess with htransfers | ⟨halike, hpayments⟩
      · left
        rw [← hagree'.alike.length_transfers] at htransfers
        exact htransfers
      · right
        rw [← hagree'.payments] at hpayments
        exact ⟨⟨halike.keyImages.trans hagree'.keyImages.symm,
          halike.length_transfers.trans hagree'.alike.length_transfers.symm⟩, hpayments⟩
  · right
    rw [hchain] at herror
    refine ⟨e, w', hrun, ⟨p, hp, herror⟩, ?_⟩
    have hdone := plansFor_scannedBefore_prefix crypto keys hs v.blockchain.length
      (lookedInto keys entry)
    rw [bringsNothing_iff]
    -- Plans without transfers are quiet for both wallets or for none.
    have hboth : ∀ {plans : Plans}, Alike w v → receivedBy plans = [] →
        Agree w' (w.applyPlans crypto v.blockchain.length plans) → Alike w' v :=
      fun halike hnone hw' => hw'.alike.trans (halike.applyPlans_left hnone _)
    generalize plansFor crypto keys session v.blockchain.length
      (scannedBefore crypto keys session v.blockchain.length (lookedInto keys entry)) = done
      at hagree hdone ⊢
    refine ⟨?_, ?_, fun hloud => ?_⟩
    · exact hagree.blockchain.trans ((applyPlans_blockchain ..).trans hchain)
    · rintro ⟨hquiet, hnothing⟩
      have hmarked := h.marked hquiet
      have hnothing' := hnothing.congr (hboth hmarked.alike hnothing.1 hagree)
      exact (hmarked.quiet hdone hnothing').congr hagree
    · by_cases hquiet : quiet
      · have hmarked := h.marked hquiet
        refine (hmarked.excess fun hnothing => hloud ⟨hquiet, ?_⟩).congr hagree
        exact hnothing.congr (hboth hmarked.alike hnothing.1 hagree).symm
      · exact ((h.excess hquiet).more _ _).congr hagree

variable (crypto) in
theorem Follows.refl (w : Wallet2) (next : Plans) : Follows crypto True next w w :=
  ⟨rfl, fun _ => Marked.of_agree ⟨⟨rfl, rfl, rfl⟩, rfl, rfl⟩ _ _, fun hfalse => (hfalse trivial).elim⟩

theorem Follows.of_iff {p q : Prop} {next : Plans} (h : Follows crypto p next w v) (hpq : p ↔ q) :
    Follows crypto q next w v :=
  ⟨h.blockchain, fun hq => h.marked (hpq.mpr hq), fun hq => h.excess fun hp => hq (hpq.mp hp)⟩

variable (crypto keys d) in
/-- What the block at a height brings, if there is one. -/
def nextPlans (chain : List BlockCompleteEntry) (height : Nat) : Plans :=
  match chain[height]? with
  | none => []
  | some entry => steadyPlans crypto keys d height (lookedInto keys entry)

variable (crypto keys) in
/-- If a block is given up, its transactions up to there bring nothing. -/
def LeftNothing (chain : List BlockCompleteEntry) (session : Session) (r : PullResult) : Prop :=
  ∀ e entry, r.error = some e → e.inBlock = true →
    chain[r.wallet.blockchain.length]? = some entry →
    BringsNothing crypto keys session r.wallet.blockchain.length
      (scannedBefore crypto keys session r.wallet.blockchain.length (lookedInto keys entry)) r.wallet

variable (crypto keys) in
/-- If a block is given up, one of its transactions throws. -/
def ThrownAt (chain : List BlockCompleteEntry) (session : Session) (r : PullResult) : Prop :=
  ∀ e, r.error = some e → e.inBlock = true → ∃ entry, ∃ p ∈ lookedInto keys entry,
    chain[r.wallet.blockchain.length]? = some entry ∧
      scanOf crypto keys session p.1 r.wallet.blockchain.length p.2 = .error e

theorem thrownAt_of_not_inBlock {chain : List BlockCompleteEntry} {r : PullResult}
    (h : ∀ e, r.error = some e → e.inBlock = false) : ThrownAt crypto keys chain session r := by
  intro e he hin
  rw [h e he] at hin
  cases hin

theorem leftNothing_of_not_inBlock {chain : List BlockCompleteEntry} {r : PullResult}
    (h : ∀ e, r.error = some e → e.inBlock = false) : LeftNothing crypto keys chain session r := by
  intro e entry he hin
  rw [h e he] at hin
  cases hin

/-- The blocks that are recorded beside those of the other wallet. -/
def steadyEntries (d : Hash → List UInt64) (es : List BlockCompleteEntry) :
    List (Session × BlockCompleteEntry) :=
  es.map fun entry => (steadySession d, entry)

theorem Follows.pullEntries {chain es rest : List BlockCompleteEntry} {index : Nat}
    (start added : Nat) (h : Follows crypto quiet (nextPlans crypto keys d chain index) w v)
    (hs : Answers d session) (hindex : index = v.blockchain.length)
    (hes : chain.drop index = es ++ rest) :
    ∃ k v', v.scanEntries crypto keys (steadyEntries d (es.take k)) = (none, v') ∧
      Follows crypto
        (quiet ∧ LeftNothing crypto keys chain session
          (pullEntries crypto keys session start es index added w))
        (nextPlans crypto keys d chain v'.blockchain.length)
        (pullEntries crypto keys session start es index added w).wallet v' ∧
      ThrownAt crypto keys chain session
        (pullEntries crypto keys session start es index added w) := by
  induction es generalizing index added w v with
  | nil =>
    have hnothing : ∀ e, (⟨none, added, w⟩ : PullResult).error = some e → e.inBlock = false :=
      fun e he => by cases he
    refine ⟨0, v, rfl, ?_, thrownAt_of_not_inBlock hnothing⟩
    rw [← hindex]
    exact h.of_iff (iff_self_and.mpr fun _ => leftNothing_of_not_inBlock hnothing)
  | cons entry es ih =>
    have hentry : chain[index]? = some entry := by
      rw [← Nat.add_zero index, ← List.getElem?_drop, hes]
      rfl
    have hnone : w.blockchain[index]? = none := by
      rw [h.blockchain, hindex]
      exact List.getElem?_eq_none le_rfl
    have hnext : nextPlans crypto keys d chain index =
        steadyPlans crypto keys d v.blockchain.length (lookedInto keys entry) := by
      rw [nextPlans, hentry, hindex]
    rw [hnext] at h
    have hlength : index = w.blockchain.length := by rw [hindex, h.blockchain]
    rw [Wallet2.pullEntries]
    simp only [hnone]
    rcases h.processNewBlockchainEntry hs (blockId crypto entry.block) with
      ⟨e, w', v', hrun, he, hsteady, hfollows⟩ | ⟨e, w', hrun, ⟨p, hp, hthrown⟩, hfollows⟩
    all_goals rw [← hlength] at hrun; rw [hrun]
    · have hindex' : index + 1 = v'.blockchain.length := by
        obtain ⟨v₁, -, rfl⟩ := processNewBlockchainEntry_eq_ok hsteady
        rw [List.length_append, hindex]
        rfl
      have hscan : ∀ es', v.scanEntries crypto keys (steadyEntries d (entry :: es')) =
          v'.scanEntries crypto keys (steadyEntries d es') := by
        intro es'
        rw [steadyEntries, List.map_cons, Wallet2.scanEntries, hsteady]
        rfl
      rcases he with rfl | rfl
      · have hes' : chain.drop (index + 1) = es ++ rest := by
          rw [← List.tail_drop, hes]
          rfl
        obtain ⟨k, v'', hscan', hnext'⟩ := ih (added + 1) (hfollows _) hindex' hes'
        refine ⟨k + 1, v'', ?_, hnext'⟩
        rw [List.take_succ_cons, hscan, hscan']
      · have hnothing : ∀ e, (⟨some .fileSaveError, added, w'⟩ : PullResult).error = some e →
            e.inBlock = false := by
          intro e he
          obtain rfl := Option.some.inj he
          rfl
        refine ⟨1, v', ?_, ?_, thrownAt_of_not_inBlock hnothing⟩
        · rw [List.take_succ_cons, List.take_zero, hscan]
          rfl
        · exact (hfollows _).of_iff
            (iff_self_and.mpr fun _ => leftNothing_of_not_inBlock hnothing)
    · have hheight : w'.blockchain.length = index := by rw [hfollows.blockchain, hindex]
      rw [← hindex] at hthrown
      refine ⟨0, v, rfl, ?_, ?_⟩
      · rw [← hindex, hnext]
        refine hfollows.of_iff (and_congr_right fun _ => ?_)
        rw [LeftNothing, ← hindex]
        dsimp only
        rw [hheight]
        constructor
        · intro hnothing e' entry' _ _ hentry'
          obtain rfl := Option.some.inj (hentry.symm.trans hentry')
          exact hnothing
        · intro hleft
          exact hleft e entry rfl (scanOf_error_inBlock hthrown) hentry
      · intro e' he' _
        obtain rfl := Option.some.inj he'
        dsimp only
        rw [hheight]
        exact ⟨entry, p, hp, hentry, hthrown⟩

variable (crypto keys) in
/-- Whenever an attempt of the loop gives up a block, the transactions of the block up to
there bring nothing. -/
def QuietRun (chain : List BlockCompleteEntry) : List Session → Wallet2 → Prop
  | [], _ => True
  | session :: sessions, w =>
    LeftNothing crypto keys chain session (w.pullBlocks crypto keys chain session) ∧
      ((w.pullBlocks crypto keys chain session).error = none ∧
          (w.pullBlocks crypto keys chain session).blocksAdded = 0 ∨
        QuietRun chain sessions (w.pullBlocks crypto keys chain session).wallet)

variable {chain : List BlockCompleteEntry}

theorem scanEntries_length {es : List (Session × BlockCompleteEntry)}
    (h : v.scanEntries crypto keys es = (none, v')) :
    v'.blockchain.length = v.blockchain.length + es.length := by
  obtain ⟨-, hchain, -⟩ := (Grown.refl v (v.blockchain.length ≤ ·)).scanEntries le_rfl h
  rw [hchain, List.length_append, List.length_map]

variable (keys) in
theorem pullBlocks_of_prefix (hrelated : Related w.blockchain (idsOf crypto chain))
    (hbehind : w.blockchain <+: idsOf crypto chain) (hconnected : session.connected = true) :
    ∃ start n, w.pullBlocks crypto keys chain session =
      pullEntries crypto keys session start ((chain.drop w.blockchain.length).take n)
        w.blockchain.length 0 w := by
  have hstart := hrelated.findBlockchainSupplement_of_prefix hbehind
  have hfork := forkIndex_eq_length_iff.mpr hbehind
  have hpos := List.length_pos_iff.mpr hrelated.nonempty
  have hcount : commandRpcGetBlocksFastMaxCount = 1000 := rfl
  have hpull := pullBlocks_eq_pullEntries keys hconnected hstart (by omega) (by omega)
  rw [hfork, List.drop_take] at hpull
  exact ⟨_, _, hpull⟩

variable (crypto keys chain) in
theorem pullBlocks_of_not_connected (hconnected : session.connected = false) (w : Wallet2) :
    w.pullBlocks crypto keys chain session = ⟨some .noConnectionToDaemon, 0, w⟩ := by
  rw [pullBlocks, hconnected]
  rfl

theorem connected_of_pullBlocks_ne
    (h : w.pullBlocks crypto keys chain session ≠ ⟨some .noConnectionToDaemon, 0, w⟩) :
    session.connected = true := by
  by_contra hoff
  exact h (pullBlocks_of_not_connected crypto keys chain (Bool.eq_false_of_not_eq_true hoff) w)

theorem error_of_not_connected (w : Wallet2) (e : WalletError)
    (he : (⟨some .noConnectionToDaemon, 0, w⟩ : PullResult).error = some e) : e.inBlock = false := by
  obtain rfl := Option.some.inj he
  rfl

theorem Follows.pullBlocks
    (h : Follows crypto quiet (nextPlans crypto keys d chain v.blockchain.length) w v)
    (hrelated : Related w.blockchain (idsOf crypto chain))
    (hbehind : w.blockchain <+: idsOf crypto chain) (hs : Answers d session) :
    ∃ n v', v.scanEntries crypto keys
          (steadyEntries d ((chain.drop v.blockchain.length).take n)) = (none, v') ∧
      Follows crypto
        (quiet ∧ LeftNothing crypto keys chain session (w.pullBlocks crypto keys chain session))
        (nextPlans crypto keys d chain v'.blockchain.length)
        (w.pullBlocks crypto keys chain session).wallet v' ∧
      ThrownAt crypto keys chain session (w.pullBlocks crypto keys chain session) := by
  cases hconnected : session.connected with
  | false =>
    rw [pullBlocks_of_not_connected crypto keys chain hconnected]
    refine ⟨0, v, rfl, ?_, thrownAt_of_not_inBlock (error_of_not_connected w)⟩
    exact h.of_iff
      (iff_self_and.mpr fun _ => leftNothing_of_not_inBlock (error_of_not_connected w))
  | true =>
    obtain ⟨start, n, hpull⟩ := pullBlocks_of_prefix keys hrelated hbehind hconnected
    rw [h.blockchain] at hpull
    obtain ⟨k, v', hscan, hfollows⟩ := h.pullEntries start 0 hs rfl
      (List.take_append_drop n (chain.drop v.blockchain.length)).symm
    rw [hpull]
    refine ⟨min k n, v', ?_, hfollows⟩
    rwa [List.take_take] at hscan

theorem ChainIds.related_of_prefix {c ids : List Hash} (h : ChainIds store ids) (hne : c ≠ [])
    (hc : c <+: ids) : Related c ids := by
  have htake := List.prefix_iff_eq_take.mp hc
  refine ChainIds.related (htake ▸ h.take c.length) h hne ?_
  obtain ⟨rest, rfl⟩ := hc
  rw [List.head?_append_of_ne_nil _ hne]

theorem scanEntries_steady_drop
    (h : v.scanEntries crypto keys (steadyEntries d ((chain.drop v.blockchain.length).take n)) =
      (none, v₁))
    (h' : v₁.scanEntries crypto keys (steadyEntries d (chain.drop v₁.blockchain.length)) =
      (none, v')) :
    v.scanEntries crypto keys (steadyEntries d (chain.drop v.blockchain.length)) = (none, v') := by
  have hlength := scanEntries_length h
  have hrest : chain.drop v₁.blockchain.length = (chain.drop v.blockchain.length).drop n := by
    rw [List.drop_drop, hlength, steadyEntries, List.length_map, List.length_take, List.length_drop]
    rcases Nat.le_total n (chain.length - v.blockchain.length) with hle | hle
    · rw [Nat.min_eq_left hle]
    · rw [Nat.min_eq_right hle, List.drop_eq_nil_of_le (by omega), List.drop_eq_nil_of_le (by omega)]
  rw [← List.take_append_drop n (chain.drop v.blockchain.length), steadyEntries, List.map_append,
    scanEntries_append]
  rw [steadyEntries] at h
  rw [h]
  rw [hrest, steadyEntries] at h'
  exact h'

theorem scanEntries_steady_prefix
    (h : v.scanEntries crypto keys (steadyEntries d ((chain.drop v.blockchain.length).take n)) =
      (none, v₁)) (hne : v.blockchain ≠ []) (hbehind : v.blockchain <+: idsOf crypto chain) :
    v₁.blockchain ≠ [] ∧ v₁.blockchain <+: idsOf crypto chain := by
  obtain ⟨-, hchain, -⟩ := (Grown.refl v (v.blockchain.length ≤ ·)).scanEntries le_rfl h
  have hids : (steadyEntries d ((chain.drop v.blockchain.length).take n)).map
      (fun p => blockId crypto p.2.block) = (idsOf crypto (chain.drop v.blockchain.length)).take n := by
    rw [steadyEntries, List.map_map, ← idsOf_take]
    rfl
  rw [hids, idsOf_drop] at hchain
  refine ⟨?_, ?_⟩
  · rw [hchain]
    exact List.append_ne_nil_of_left_ne_nil hne _
  · obtain ⟨rest, hrest⟩ := hbehind
    rw [hchain, ← hrest, List.drop_left]
    exact (List.prefix_append_right_inj _).mpr (List.take_prefix _ _)

theorem scanOf_neverFails (h : NeverFails d session) (tx : Transaction) (height : Nat) (miner : Bool) :
    scanOf crypto keys session tx height miner =
      scanOf crypto keys (steadySession d) tx height miner := by
  unfold scanOf receivedOuts
  rw [h.2]
  rfl

theorem scanOf_of_scanEntries
    (h : v.scanEntries crypto keys (steadyEntries d (chain.drop v.blockchain.length)) = (none, v'))
    (hentry : chain[v.blockchain.length]? = some entry) {p : Transaction × Bool}
    (hp : p ∈ lookedInto keys entry) :
    (scanOf crypto keys (steadySession d) p.1 v.blockchain.length p.2).isOk = true := by
  obtain ⟨hlt, rfl⟩ := List.getElem?_eq_some_iff.mp hentry
  rw [List.drop_eq_getElem_cons hlt, steadyEntries, List.map_cons] at h
  obtain ⟨v₁, hfirst, -⟩ := scanEntries_cons_eq_ok h
  rcases processNewBlockchainEntry_cases (steadySession d) chain[v.blockchain.length] _ v with
    ⟨_, _, _, _, _, hall⟩ | ⟨e, w', q, hrun, -⟩
  · rw [← hall, scannedBefore] at hp
    have hok := List.mem_takeWhile_imp hp
    exact hok
  · cases hfirst.symm.trans hrun

variable (crypto keys d) in
/-- Sessions have brought a wallet to the end of the chain, beside one that has scanned it
without failures. -/
structure CaughtUp (chain : List BlockCompleteEntry) (quiet : Prop) (sessions : List Session)
    (w v final : Wallet2) : Prop where
  scanned : ∃ v', v.scanEntries crypto keys
      (steadyEntries d (chain.drop v.blockchain.length)) = (none, v') ∧
    Follows crypto (quiet ∧ QuietRun crypto keys chain sessions w) [] final v'
  steady : (∀ session ∈ sessions, NeverFails d session) → QuietRun crypto keys chain sessions w

theorem Follows.refresh_cons {r : PullResult} (hr : w.pullBlocks crypto keys chain session = r)
    (hscan : v.scanEntries crypto keys
      (steadyEntries d ((chain.drop v.blockchain.length).take n)) = (none, v₁))
    (h : Follows crypto (quiet ∧ LeftNothing crypto keys chain session r)
      (nextPlans crypto keys d chain v₁.blockchain.length) r.wallet v₁)
    (hdone : r.error = none → r.blocksAdded = 0 → r.wallet.blockchain = idsOf crypto chain)
    (hthrown : ThrownAt crypto keys chain session r)
    (hnext : ∀ tries fetched,
      (r.wallet.refresh crypto keys chain sessions tries fetched).exit = .finished →
      CaughtUp crypto keys d chain (quiet ∧ LeftNothing crypto keys chain session r)
        sessions r.wallet v₁ (r.wallet.refresh crypto keys chain sessions tries fetched).wallet)
    (hexit : (w.refresh crypto keys chain (session :: sessions) tries fetched).exit = .finished) :
    CaughtUp crypto keys d chain quiet (session :: sessions) w v
      (w.refresh crypto keys chain (session :: sessions) tries fetched).wallet := by
  rw [Wallet2.refresh, hr] at hexit ⊢
  have hlength : r.wallet.blockchain.length = v₁.blockchain.length :=
    congrArg List.length h.blockchain
  -- After an attempt that is not the last one.
  have hlater : ∀ {tries fetched}, ¬ (r.error = none ∧ r.blocksAdded = 0) →
      (r.wallet.refresh crypto keys chain sessions tries fetched).exit = .finished →
      CaughtUp crypto keys d chain quiet (session :: sessions) w v
        (r.wallet.refresh crypto keys chain sessions tries fetched).wallet := by
    intro tries fetched hmore hfinished
    obtain ⟨⟨v', hscan', hfollows⟩, hsteady⟩ := hnext tries fetched hfinished
    refine ⟨⟨v', scanEntries_steady_drop hscan hscan', hfollows.of_iff ?_⟩, fun hg => ?_⟩
    · rw [QuietRun, hr, and_assoc, or_iff_right hmore]
    · rw [QuietRun, hr]
      refine ⟨fun e entry he hin _ => ?_,
        Or.inr (hsteady fun s hmem => hg s (List.mem_cons_of_mem _ hmem))⟩
      obtain ⟨entry', p, hp, hentry', herror⟩ := hthrown e he hin
      rw [hlength] at hentry' herror
      have hok := scanOf_of_scanEntries hscan' hentry' hp
      rw [← scanOf_neverFails (hg session List.mem_cons_self), herror] at hok
      cases hok
  cases herror : r.error with
  | none =>
    simp only [herror] at hexit ⊢
    split_ifs at hexit ⊢ with hadded
    · have hend : v₁.blockchain.length = chain.length := by
        rw [← hlength, hdone herror hadded, length_idsOf]
      have hnil : nextPlans crypto keys d chain v₁.blockchain.length = [] := by
        rw [nextPlans, List.getElem?_eq_none hend.ge]
      have hleft : LeftNothing crypto keys chain session r :=
        leftNothing_of_not_inBlock fun e he => by rw [herror] at he; cases he
      have hquiet : QuietRun crypto keys chain (session :: sessions) w := by
        rw [QuietRun, hr]
        exact ⟨hleft, Or.inl ⟨herror, hadded⟩⟩
      rw [hnil] at h
      refine ⟨⟨v₁, scanEntries_steady_drop hscan ?_, h.of_iff ?_⟩, fun _ => hquiet⟩
      · rw [hend, List.drop_length]
        rfl
      · rw [and_iff_left hleft, and_iff_left hquiet]
    · exact hlater (fun hstop => hadded hstop.2) hexit
  | some e =>
    simp only [herror] at hexit ⊢
    split_ifs at hexit ⊢
    exact hlater (fun hstop => by rw [herror] at hstop; cases hstop.1) hexit

theorem Follows.refresh
    (h : Follows crypto quiet (nextPlans crypto keys d chain v.blockchain.length) w v)
    (hchain : ChainIds store (idsOf crypto chain)) (hne : v.blockchain ≠ [])
    (hbehind : v.blockchain <+: idsOf crypto chain) (hs : ∀ session ∈ sessions, Answers d session)
    (hexit : (w.refresh crypto keys chain sessions tries fetched).exit = .finished) :
    CaughtUp crypto keys d chain quiet sessions w v
      (w.refresh crypto keys chain sessions tries fetched).wallet := by
  induction sessions generalizing quiet tries fetched w v with
  | nil => cases hexit
  | cons session sessions ih =>
    have hrelated : Related w.blockchain (idsOf crypto chain) := by
      rw [h.blockchain]
      exact hchain.related_of_prefix hne hbehind
    have hbehind' : w.blockchain <+: idsOf crypto chain := h.blockchain ▸ hbehind
    obtain ⟨n, v₁, hscan, hfollows, hthrown⟩ :=
      h.pullBlocks hrelated hbehind' (hs session List.mem_cons_self)
    obtain ⟨hne₁, hbehind₁⟩ := scanEntries_steady_prefix hscan hne hbehind
    refine Follows.refresh_cons rfl hscan hfollows
      (pullBlocks_step keys session hrelated (fun hfork => (hfork hbehind').elim)
        (Or.inl hbehind')).2 hthrown ?_ hexit
    intro tries fetched hfinished
    exact ih hfollows hne₁ hbehind₁ (fun s hmem => hs s (List.mem_cons_of_mem _ hmem)) hfinished

theorem pullEntries_added (session : Session) (start : Nat) (es : List BlockCompleteEntry)
    (index a b : Nat) (w : Wallet2) :
    (pullEntries crypto keys session start es index a w).wallet =
        (pullEntries crypto keys session start es index b w).wallet ∧
      (pullEntries crypto keys session start es index a w).error =
        (pullEntries crypto keys session start es index b w).error := by
  induction es generalizing index a b w with
  | nil => exact ⟨rfl, rfl⟩
  | cons entry es ih =>
    rw [pullEntries, pullEntries]
    cases w.blockchain[index]? with
    | none =>
      dsimp only
      rcases w.processNewBlockchainEntry crypto keys session entry _ index with ⟨_ | e, w'⟩
      · exact ih ..
      · exact ⟨rfl, rfl⟩
    | some id =>
      dsimp only
      split_ifs
      · exact ⟨rfl, rfl⟩
      · rcases w.detachBlockchain index with ⟨_ | e, w₁⟩
        · dsimp only
          rcases w₁.processNewBlockchainEntry crypto keys session entry _ index with ⟨_ | e, w'⟩
          · exact ih ..
          · exact ⟨rfl, rfl⟩
        · exact ⟨rfl, rfl⟩
      · exact ih ..

variable (keys session) in
theorem pullEntries_fork (es : List BlockCompleteEntry) {index : Nat} (added : Nat)
    (hindex : index < w.blockchain.length)
    (hsplit : w.blockchain[index]? ≠ some (blockId crypto entry.block)) (hstart : index ≠ start) :
    (∃ e w₁, w.detachBlockchain index = (some e, w₁) ∧
        pullEntries crypto keys session start (entry :: es) index added w = ⟨some e, added, w₁⟩) ∨
      ∃ w₀, w.detachBlockchain index = (none, w₀) ∧
        (pullEntries crypto keys session start (entry :: es) index added w).wallet =
          (pullEntries crypto keys session start (entry :: es) index added w₀).wallet ∧
        (pullEntries crypto keys session start (entry :: es) index added w).error =
          (pullEntries crypto keys session start (entry :: es) index added w₀).error := by
  obtain ⟨id, hid⟩ : ∃ id, w.blockchain[index]? = some id := ⟨_, List.getElem?_eq_getElem hindex⟩
  have hne : blockId crypto entry.block ≠ id := by
    rintro rfl
    exact hsplit hid
  simp only [pullEntries, hid, if_pos hne, if_neg hstart]
  cases hdetach : w.detachBlockchain index with
  | mk e w₁ =>
    cases e with
    | some e => exact Or.inl ⟨e, w₁, rfl, rfl⟩
    | none =>
      right
      refine ⟨w₁, rfl, ?_⟩
      have hnone : w₁.blockchain[index]? = none := by
        rcases detachBlockchain_blockchain hdetach with ⟨-, hchain⟩ | ⟨hthrown, -⟩
        · rw [hchain]
          refine List.getElem?_eq_none ?_
          rw [List.length_take]
          exact Nat.min_le_left _ _
        · exact (hthrown rfl).elim
      simp only [hnone]
      rcases w₁.processNewBlockchainEntry crypto keys session entry _ index with ⟨_ | e, w'⟩
      · exact pullEntries_added ..
      · exact ⟨rfl, rfl⟩

theorem detachTransfers_keeps_none {i : Nat} {tds : List TransferDetails} {k : KeyImage}
    (h : w.keyImages k = none) : (w.detachTransfers i tds).2.keyImages k = none := by
  induction tds generalizing i w with
  | nil => exact h
  | cons td tds ih =>
    rw [detachTransfers]
    cases w.keyImages td.keyImage with
    | none => exact h
    | some _ =>
      refine ih ?_
      change Function.update w.keyImages td.keyImage none k = none
      rw [Function.update_apply, h, ite_self]

theorem detachTransfers_transfers (i : Nat) (tds : List TransferDetails) (w : Wallet2) :
    (w.detachTransfers i tds).2.transfers = w.transfers := by
  induction tds generalizing i w with
  | nil => rfl
  | cons td tds ih =>
    rw [detachTransfers]
    cases w.keyImages td.keyImage with
    | none => rfl
    | some _ => exact ih ..

theorem detachTransfers_fails_again {i : Nat} {tds : List TransferDetails}
    (h : (w.detachTransfers i tds).1 ≠ none) :
    ((w.detachTransfers i tds).2.detachTransfers i tds).1 ≠ none := by
  cases tds with
  | nil => exact (h rfl).elim
  | cons td tds =>
    -- The image of the first transfer is gone, if it was there at all.
    have hgone : (w.detachTransfers i (td :: tds)).2.keyImages td.keyImage = none := by
      rw [detachTransfers]
      cases hk : w.keyImages td.keyImage with
      | none => exact hk
      | some _ => exact detachTransfers_keeps_none (Function.update_self ..)
    rw [detachTransfers, hgone]
    simp

theorem detachBlockchain_fails_again {w₁ : Wallet2} {e : WalletError}
    (h : w.detachBlockchain height = (some e, w₁)) :
    w₁.blockchain = w.blockchain ∧ (w₁.detachBlockchain height).1 ≠ none := by
  unfold detachBlockchain at h ⊢
  dsimp only at h ⊢
  generalize hi : (w.transfers.findIdx fun td => decide (height ≤ td.blockHeight)) = i at h
  have htransfers := detachTransfers_transfers i (w.transfers.drop i) w
  have hchain := detachTransfers_blockchain i (w.transfers.drop i) w
  have hagain := @detachTransfers_fails_again w i (w.transfers.drop i)
  rcases hr : w.detachTransfers i (w.transfers.drop i) with ⟨_ | e', w'⟩
  all_goals rw [hr] at h htransfers hchain hagain
  · cases h
  · obtain ⟨-, rfl⟩ := Prod.mk.inj h
    refine ⟨hchain, ?_⟩
    have hthrown := hagain (by simp)
    dsimp only at htransfers hthrown
    rw [htransfers, hi]
    rcases hr' : w'.detachTransfers i (w.transfers.drop i) with ⟨_ | e'', w''⟩
    · exact (hthrown (congrArg Prod.fst hr')).elim
    · simp

/-- The block at the fork is counted, or it is the last one of the chain. -/
def ForkCounted (c ids : List Hash) : Prop :=
  ∀ start, findBlockchainSupplement ids (getShortChainHistory c) = some start →
    forkIndex c ids + 1 = start + commandRpcGetBlocksFastMaxCount → ids.length = forkIndex c ids + 1

/-- The answer from `start` on shows where the wallet's chain `c` leaves the daemon's. -/
structure ForkShown (c ids : List Hash) (start : Nat) : Prop where
  answered : findBlockchainSupplement ids (getShortChainHistory c) = some start
  below : start < forkIndex c ids
  near : forkIndex c ids < start + commandRpcGetBlocksFastMaxCount
  beyond : forkIndex c ids < ids.length
  forked : ¬ c <+: ids

variable (keys) in
theorem pullBlocks_fork (hconnected : session.connected = true)
    (hfork : ForkShown w.blockchain (idsOf crypto chain) start) :
    (∃ e w₁, w.detachBlockchain (forkIndex w.blockchain (idsOf crypto chain)) = (some e, w₁) ∧
        w.pullBlocks crypto keys chain session = ⟨some e, 0, w₁⟩) ∨
      ∃ w₀ n, w.detachBlockchain (forkIndex w.blockchain (idsOf crypto chain)) = (none, w₀) ∧
        (w.pullBlocks crypto keys chain session).wallet =
          (pullEntries crypto keys session start
            ((chain.drop (forkIndex w.blockchain (idsOf crypto chain))).take n)
            (forkIndex w.blockchain (idsOf crypto chain)) 0 w₀).wallet ∧
        (w.pullBlocks crypto keys chain session).error =
          (pullEntries crypto keys session start
            ((chain.drop (forkIndex w.blockchain (idsOf crypto chain))).take n)
            (forkIndex w.blockchain (idsOf crypto chain)) 0 w₀).error := by
  obtain ⟨hstart, hbelow, hnear, hbeyond, hforked⟩ := hfork
  rw [length_idsOf] at hbeyond
  have hle := forkIndex_le_left w.blockchain (idsOf crypto chain)
  have hlt : forkIndex w.blockchain (idsOf crypto chain) < w.blockchain.length :=
    lt_of_le_of_ne hle fun heq => hforked (forkIndex_eq_length_iff.mp heq)
  have hsplit := getElem?_forkIndex_ne hlt
  rw [pullBlocks_eq_pullEntries keys hconnected hstart hbelow hnear]
  generalize forkIndex w.blockchain (idsOf crypto chain) = f at hbelow hnear hbeyond hlt hsplit ⊢
  have hentry : chain[f]? = some (chain.get ⟨f, by omega⟩) := List.getElem?_eq_getElem (by omega)
  have hentries : (chain.take (start + commandRpcGetBlocksFastMaxCount)).drop f =
      (chain.drop f).take (start + commandRpcGetBlocksFastMaxCount - f) := List.drop_take ..
  obtain ⟨n, hn⟩ : ∃ n, start + commandRpcGetBlocksFastMaxCount - f = n + 1 :=
    ⟨start + commandRpcGetBlocksFastMaxCount - f - 1, by omega⟩
  have hcons : (chain.drop f).take (n + 1) =
      chain.get ⟨f, by omega⟩ :: (chain.drop (f + 1)).take n := by
    rw [List.drop_eq_getElem_cons (by omega), List.take_succ_cons]
    rfl
  rw [idsOf, List.getElem?_map, hentry, Option.map_some] at hsplit
  rw [hentries, hn, hcons]
  have hne : f ≠ start := by omega
  rcases pullEntries_fork keys session ((chain.drop (f + 1)).take n) 0 hlt hsplit hne with
    hfailed | ⟨w₀, hdetach, hsame⟩
  · exact Or.inl hfailed
  · refine Or.inr ⟨w₀, n + 1, hdetach, ?_⟩
    rw [hcons]
    exact hsame

theorem refresh_of_detach_fails
    (hfork : ForkShown w.blockchain (idsOf crypto chain) start)
    (hfails : (w.detachBlockchain (forkIndex w.blockchain (idsOf crypto chain))).1 ≠ none) :
    (w.refresh crypto keys chain sessions tries fetched).exit ≠ .finished := by
  induction sessions generalizing tries fetched w with
  | nil => simp [refresh]
  | cons session sessions ih =>
    rw [refresh]
    cases hconnected : session.connected with
    | false =>
      simp only [pullBlocks_of_not_connected crypto keys chain hconnected]
      split_ifs
      · exact ih hfork hfails
      · simp
    | true =>
      rcases pullBlocks_fork keys hconnected hfork with
        ⟨e, w₁, hdetach, hpull⟩ | ⟨w₀, n, hdetach, -⟩
      · obtain ⟨hchain, hagain⟩ := detachBlockchain_fails_again hdetach
        rw [← hchain] at hfork hagain
        simp only [hpull]
        split_ifs
        · exact ih hfork hagain
        · simp
      · exact (hfails (congrArg Prod.fst hdetach)).elim

/-- A loop that begins with a fork: the blocks from there on are scanned once, or else the
wallet has too much. -/
theorem refresh_fork (hchain : ChainIds store (idsOf crypto chain))
    (hrelated : Related w.blockchain (idsOf crypto chain))
    (hfork : ForkShown w.blockchain (idsOf crypto chain) start)
    (hcounted : ForkCounted w.blockchain (idsOf crypto chain))
    (hs : ∀ session ∈ sessions, Answers d session)
    (hexit : (w.refresh crypto keys chain sessions tries fetched).exit = .finished) :
    ∃ w₀, w.detachBlockchain (forkIndex w.blockchain (idsOf crypto chain)) = (none, w₀) ∧
      CaughtUp crypto keys d chain True sessions w w₀
        (w.refresh crypto keys chain sessions tries fetched).wallet := by
  induction sessions generalizing tries fetched with
  | nil => cases hexit
  | cons session sessions ih =>
    cases hconnected : session.connected with
    | false =>
      have hpull := pullBlocks_of_not_connected crypto keys chain hconnected w
      have hquiet : QuietRun crypto keys chain sessions w ↔
          QuietRun crypto keys chain (session :: sessions) w := by
        rw [QuietRun, hpull,
          and_iff_right (leftNothing_of_not_inBlock (error_of_not_connected w))]
        simp
      rw [refresh, hpull] at hexit ⊢
      dsimp only at hexit ⊢
      split_ifs at hexit ⊢
      obtain ⟨w₀, hdetach, ⟨v', hscan, hfollows⟩, hsteady⟩ :=
        ih (fun s hmem => hs s (List.mem_cons_of_mem _ hmem)) hexit
      refine ⟨w₀, hdetach, ⟨v', hscan, hfollows.of_iff (and_congr_right fun _ => hquiet)⟩, ?_⟩
      exact fun hg => hquiet.mp (hsteady fun s hmem => hg s (List.mem_cons_of_mem _ hmem))
    | true =>
      rcases pullBlocks_fork keys hconnected hfork with
        ⟨e, w₁, hdetach, hpull⟩ | ⟨w₀, n, hdetach, hwallet, herror⟩
      · obtain ⟨hsame, hagain⟩ := detachBlockchain_fails_again hdetach
        rw [← hsame] at hfork hagain
        rw [refresh, hpull] at hexit
        dsimp only at hexit
        split_ifs at hexit
        exact (refresh_of_detach_fails hfork hagain hexit).elim
      · have hanswered : ForkAnswered w.blockchain (idsOf crypto chain) := by
          refine Or.inr ⟨start, hfork.answered, ?_⟩
          rcases Nat.lt_or_eq_of_le hfork.near with hlt | hlast
          · exact Or.inl hlt
          · exact Or.inr ⟨hlast, hcounted start hfork.answered hlast⟩
        have hbeyond := length_idsOf ▸ hfork.beyond
        have hdone := (pullBlocks_step keys session hrelated (fun _ => hbeyond) hanswered).2
        have hbase : w₀.blockchain =
            (idsOf crypto chain).take (forkIndex w.blockchain (idsOf crypto chain)) := by
          rcases detachBlockchain_blockchain hdetach with ⟨-, htake⟩ | ⟨hthrown, -⟩
          · rw [htake, take_forkIndex]
          · exact (hthrown rfl).elim
        have hbaseLength : forkIndex w.blockchain (idsOf crypto chain) = w₀.blockchain.length := by
          rw [hbase, List.length_take, Nat.min_eq_left (forkIndex_le_right _ _)]
        have hbehind : w₀.blockchain <+: idsOf crypto chain := hbase ▸ List.take_prefix _ _
        have hne : w₀.blockchain ≠ [] := by
          rw [← List.length_pos_iff, ← hbaseLength]
          exact Nat.zero_lt_of_lt hfork.below
        rw [hbaseLength] at hwallet herror
        have hself := Follows.refl crypto w₀
          (nextPlans crypto keys d chain w₀.blockchain.length)
        obtain ⟨k, v₁, hscan, hfollows, hthrown⟩ := hself.pullEntries start 0
          (hs session List.mem_cons_self) rfl
          (List.take_append_drop n (chain.drop w₀.blockchain.length)).symm
        rw [List.take_take] at hscan
        rw [LeftNothing, ← hwallet, ← herror] at hfollows
        rw [ThrownAt, ← hwallet, ← herror] at hthrown
        obtain ⟨hne₁, hbehind₁⟩ := scanEntries_steady_prefix hscan hne hbehind
        refine ⟨w₀, hdetach, Follows.refresh_cons rfl hscan hfollows hdone hthrown ?_ hexit⟩
        intro tries fetched hfinished
        exact hfollows.refresh hchain hne₁ hbehind₁
          (fun s hmem => hs s (List.mem_cons_of_mem _ hmem)) hfinished

theorem refresh_of_nothing_new (hnothing : ∀ session : Session, session.connected = true →
      w.pullBlocks crypto keys chain session = ⟨none, 0, w⟩)
    (hexit : (w.refresh crypto keys chain sessions tries fetched).exit = .finished) :
    (w.refresh crypto keys chain sessions tries fetched).wallet = w ∧
      QuietRun crypto keys chain sessions w := by
  induction sessions generalizing tries fetched with
  | nil => cases hexit
  | cons session sessions ih =>
    cases hconnected : session.connected with
    | false =>
      have hpull := pullBlocks_of_not_connected crypto keys chain hconnected w
      have hleft : LeftNothing crypto keys chain session ⟨some .noConnectionToDaemon, 0, w⟩ :=
        leftNothing_of_not_inBlock (error_of_not_connected w)
      rw [refresh, hpull] at hexit ⊢
      rw [QuietRun, hpull]
      dsimp only at hexit ⊢
      split_ifs at hexit ⊢
      obtain ⟨hwallet, hquiet⟩ := ih hexit
      exact ⟨hwallet, hleft, Or.inr hquiet⟩
    | true =>
      have hpull := hnothing session hconnected
      rw [refresh, hpull, QuietRun, hpull]
      exact ⟨rfl, leftNothing_of_not_inBlock fun e he => (by cases he), Or.inl ⟨rfl, rfl⟩⟩

variable (keys) in
theorem pullBlocks_nothing_new (hconnected : session.connected = true)
    (hstart : findBlockchainSupplement (idsOf crypto chain)
      (getShortChainHistory w.blockchain) = some start)
    (hbelow : start < forkIndex w.blockchain (idsOf crypto chain))
    (hend : start + commandRpcGetBlocksFastMaxCount ≤ forkIndex w.blockchain (idsOf crypto chain) ∨
      chain.length ≤ forkIndex w.blockchain (idsOf crypto chain)) :
    w.pullBlocks crypto keys chain session = ⟨none, 0, w⟩ := by
  rcases Nat.lt_or_ge (forkIndex w.blockchain (idsOf crypto chain))
    (start + commandRpcGetBlocksFastMaxCount) with hnear | hfar
  · have hlength := hend.resolve_left hnear.not_ge
    rw [pullBlocks_eq_pullEntries keys hconnected hstart hbelow hnear, List.drop_eq_nil_of_le]
    · rfl
    · rw [List.length_take]
      exact (Nat.min_le_right _ _).trans hlength
  · exact pullBlocks_far keys hconnected hstart hbelow hfar

/-- Beside the same wallet: the results are the same exactly if the attempts that were
given up have left nothing. -/
theorem CaughtUp.sameScan_iff {steady : List Session} {a b : Wallet2}
    (ha : CaughtUp crypto keys d chain True sessions w v a)
    (hb : CaughtUp crypto keys d chain True steady w v b)
    (hsteady : ∀ session ∈ steady, NeverFails d session) :
    SameScan a b ∧ a.blockchain = b.blockchain ↔ QuietRun crypto keys chain sessions w := by
  obtain ⟨v', hscan, hfollows⟩ := ha.scanned
  obtain ⟨v'', hscan', hfollows'⟩ := hb.scanned
  obtain rfl : v' = v'' := congrArg Prod.snd (hscan.symm.trans hscan')
  have hagree : Agree b v' := (hfollows'.marked ⟨trivial, hb.steady hsteady⟩).applyPlans
  constructor
  · rintro ⟨hsame, -⟩
    by_contra hloud
    refine (hfollows.excess fun hquiet => hloud hquiet.2).not_sameScan ?_
    exact ⟨hsame.transfers.trans hagree.transfers, hsame.keyImages.trans hagree.keyImages,
      hsame.payments.trans hagree.payments⟩
  · intro hquiet
    have hsame : Agree a b := (hfollows.marked ⟨trivial, hquiet⟩).applyPlans.trans hagree.symm
    exact ⟨hsame.toSameScan, hsame.blockchain⟩

/-- Calls that fail during a refresh leave no trace in the end, exactly if no block is given
up after one of its transactions has brought something. -/
theorem refresh_retry_iff {sessions steady : List Session} {w : Wallet2}
    {store : Hash → Option Block} (hchain : ChainIds store (idsOf crypto chain))
    (hw : ChainIds store w.blockchain) (hne : w.blockchain ≠ [])
    (hhead : w.blockchain.head? = (idsOf crypto chain).head?)
    (hcounted : ForkCounted w.blockchain (idsOf crypto chain))
    (hs : ∀ session ∈ sessions, Answers d session)
    (hsteady : ∀ session ∈ steady, NeverFails d session)
    (hexit : (w.refresh crypto keys chain sessions 0 0).exit = .finished)
    (hexit' : (w.refresh crypto keys chain steady 0 0).exit = .finished) :
    SameScan (w.refresh crypto keys chain sessions 0 0).wallet
          (w.refresh crypto keys chain steady 0 0).wallet ∧
        (w.refresh crypto keys chain sessions 0 0).wallet.blockchain =
          (w.refresh crypto keys chain steady 0 0).wallet.blockchain ↔
      QuietRun crypto keys chain sessions w := by
  have hrelated := hw.related hchain hne hhead
  have hs' : ∀ session ∈ steady, Answers d session :=
    fun session hmem id => Or.inl ((hsteady session hmem).2 id)
  by_cases hbehind : w.blockchain <+: idsOf crypto chain
  · have hself := Follows.refl crypto w
      (nextPlans crypto keys d chain w.blockchain.length)
    exact (hself.refresh hchain hne hbehind hs hexit).sameScan_iff
      (hself.refresh hchain hne hbehind hs' hexit') hsteady
  · obtain ⟨start, hstart, hbelow⟩ := hrelated.findBlockchainSupplement
    by_cases hend : start + commandRpcGetBlocksFastMaxCount ≤
          forkIndex w.blockchain (idsOf crypto chain) ∨
        chain.length ≤ forkIndex w.blockchain (idsOf crypto chain)
    · have hnothing : ∀ session : Session, session.connected = true →
          w.pullBlocks crypto keys chain session = ⟨none, 0, w⟩ :=
        fun session hconnected => pullBlocks_nothing_new keys hconnected hstart hbelow hend
      obtain ⟨hwallet, hquiet⟩ := refresh_of_nothing_new hnothing hexit
      obtain ⟨hwallet', -⟩ := refresh_of_nothing_new hnothing hexit'
      rw [hwallet, hwallet']
      exact iff_of_true ⟨⟨rfl, rfl, rfl⟩, rfl⟩ hquiet
    · rw [not_or, not_le, not_le, ← length_idsOf] at hend
      have hfork : ForkShown w.blockchain (idsOf crypto chain) start :=
        ⟨hstart, hbelow, hend.1, hend.2, hbehind⟩
      obtain ⟨w₀, hdetach, hcaught⟩ := refresh_fork hchain hrelated hfork hcounted hs hexit
      obtain ⟨w₁, hdetach', hcaught'⟩ := refresh_fork hchain hrelated hfork hcounted hs' hexit'
      obtain rfl : w₀ = w₁ := congrArg Prod.snd (hdetach.symm.trans hdetach')
      exact hcaught.sameScan_iff hcaught' hsteady

/-- If the block at the fork is the last one of the answer but not of the chain, the loop ends
with it; a loop whose first attempt is given up after the detachment goes on to the end. -/
theorem refresh_ne_of_not_forkCounted {lost good : Session} {more : List Session}
    (hchain : ChainIds store (idsOf crypto chain)) (hw : ChainIds store w.blockchain)
    (hne : w.blockchain ≠ []) (hhead : w.blockchain.head? = (idsOf crypto chain).head?)
    (huncounted : ¬ ForkCounted w.blockchain (idsOf crypto chain))
    (hlost : (w.pullBlocks crypto keys chain lost).error ≠ none)
    (hdetached : (w.pullBlocks crypto keys chain lost).wallet.blockchain ≠ w.blockchain)
    (hgood : (w.pullBlocks crypto keys chain good).error = none)
    (hexit : (w.refresh crypto keys chain (lost :: sessions) 0 0).exit = .finished) :
    (w.refresh crypto keys chain (lost :: sessions) 0 0).wallet.blockchain ≠
      (w.refresh crypto keys chain (good :: more) 0 0).wallet.blockchain := by
  have hrelated := hw.related hchain hne hhead
  obtain ⟨first, hfirst, hbelow⟩ := hrelated.findBlockchainSupplement
  simp only [ForkCounted, not_forall] at huncounted
  obtain ⟨start, hstart, hlast, hmore⟩ := huncounted
  obtain rfl : first = start := Option.some.inj (hfirst.symm.trans hstart)
  have hconnected : lost.connected = true :=
    connected_of_pullBlocks_ne fun hoff => hdetached (by rw [hoff])
  have hconnected' : good.connected = true :=
    connected_of_pullBlocks_ne fun hoff => by rw [hoff] at hgood; cases hgood
  have hright := forkIndex_le_right w.blockchain (idsOf crypto chain)
  rw [length_idsOf] at hright hmore
  have hbeyond : forkIndex w.blockchain (idsOf crypto chain) < chain.length := by
    by_contra hend
    exact hlost (congrArg PullResult.error
      (pullBlocks_nothing_new keys hconnected hstart hbelow (Or.inr (Nat.not_lt.mp hend))))
  have hover := (pullBlocks_near keys hconnected hstart hbelow (by omega) fun _ => hbeyond).resolve_right
    fun hthrown => hdetached hthrown.2
  have hover' := (pullBlocks_near keys hconnected' hstart hbelow (by omega) fun _ =>
    hbeyond).resolve_right fun hthrown => hthrown.1 hgood
  obtain ⟨⟨m, hm, htake⟩, -⟩ := hover.of_page (take_forkIndex _ _) (by omega)
  obtain ⟨hpage, hadded⟩ := (hover'.of_page (take_forkIndex _ _) (by omega)).2 hgood
  rw [← hlast] at hpage
  have hforked : forkIndex w.blockchain (idsOf crypto chain) < w.blockchain.length := by
    refine lt_of_le_of_ne (forkIndex_le_left _ _) fun heq => ?_
    have hprev := hrelated.findBlockchainSupplement_of_prefix (forkIndex_eq_length_iff.mp heq)
    obtain rfl := Option.some.inj (hprev.symm.trans hstart)
    rw [show commandRpcGetBlocksFastMaxCount = 1000 from rfl] at hlast
    omega
  have hzero : (w.pullBlocks crypto keys chain good).blocksAdded = 0 := by
    rw [hadded, List.length_take]
    omega
  have hall : (w.refresh crypto keys chain (lost :: sessions) 0 0).wallet.blockchain =
      idsOf crypto chain := by
    obtain ⟨e, he⟩ := Option.ne_none_iff_exists'.mp hlost
    simp only [refresh, he, Nat.zero_lt_succ, if_true] at hexit ⊢
    refine refresh_finished hchain (htake ▸ hchain.take m) ?_ ?_ ?_ (htake ▸ forkAnswered_take) hexit
    · rw [← List.length_pos_iff, htake, List.length_take, length_idsOf]
      omega
    · rw [htake, List.head?_take, if_neg (by omega)]
    · rw [htake, List.length_take, length_idsOf]
      exact Nat.min_le_right _ _
  rw [hall]
  simp only [refresh, hgood, hzero, if_true, hpage]
  intro heq
  have hlength := congrArg List.length heq
  rw [List.length_take, length_idsOf] at hlength
  omega

end Attempts

/-- A payment whose id is the number, for a hash that reads the last bytes of the key. -/
def numberedPayment (number : Nat) : Transaction :=
  samplePayment 1 (Blob.ofNat 32 (number * 2 ^ 224))

/-- Two payments in the first block after the genesis block. -/
def paidChain : List BlockCompleteEntry :=
  [⟨branchBlock 0, []⟩, ⟨branchBlock 1, [numberedPayment 1, numberedPayment 2]⟩]

def paidWallet : Wallet2 := bareWallet [Blob.ofNat 32 0]

/-- The daemon does not answer for one of the payments. -/
def lostSession (number : Nat) : Session :=
  ⟨true, fun id => if id = Blob.ofNat 32 number then none else some [0], true⟩

def paidSession : Session := steadySession fun _ => [0]

theorem answers_lostSession (number : Nat) : Answers (fun _ => [0]) (lostSession number) := by
  intro id
  change (if id = Blob.ofNat 32 number then none else some [0]) = some [0] ∨
    (if id = Blob.ofNat 32 number then none else some [0]) = none
  split_ifs
  · exact Or.inr rfl
  · exact Or.inl rfl

theorem idsOf_paidChain : idsOf numberCrypto paidChain = [0, 1].map (Blob.ofNat 32) :=
  idsOf_branchEntries (by decide : ∀ n ∈ [0, 1], n < 65536)

theorem chainIds_paidChain : ChainIds branchStore (idsOf numberCrypto paidChain) := by
  rw [idsOf_paidChain]
  refine chainIds_branch fun i n hi => ?_
  rcases i with _ | _ | i
  · obtain rfl := Option.some.inj hi
    refine ⟨by decide, by decide, fun j m hj => ?_⟩
    cases hj
  · obtain rfl := Option.some.inj hi
    refine ⟨by decide, by decide, fun j m hj hm => ?_⟩
    obtain rfl : 0 = j := Nat.succ.inj hj
    obtain rfl := Option.some.inj hm
    decide
  · cases hi

/-- The attempt in which the first payment is not answered for. -/
def lostPull : PullResult := paidWallet.pullBlocks numberCrypto sampleKeys paidChain (lostSession 1)

def paidPull : PullResult :=
  lostPull.wallet.pullBlocks numberCrypto sampleKeys paidChain paidSession

def lastPull : PullResult :=
  paidPull.wallet.pullBlocks numberCrypto sampleKeys paidChain paidSession

theorem quietRun_lostSession :
    QuietRun numberCrypto sampleKeys paidChain [lostSession 1, paidSession, paidSession] paidWallet := by
  have hpaid : paidPull.error = none := by decide +kernel
  have hlast : lastPull.error = none ∧ lastPull.blocksAdded = 0 := by decide +kernel
  have hlength : lostPull.wallet.blockchain.length = 1 := by decide +kernel
  refine ⟨?_, Or.inr ⟨?_, Or.inr ⟨?_, Or.inl hlast⟩⟩⟩
  · change LeftNothing numberCrypto sampleKeys paidChain (lostSession 1) lostPull
    intro e entry _ _ hentry
    rw [hlength] at hentry ⊢
    obtain rfl := Option.some.inj hentry
    have hnothing : (lostPull.wallet.processAll numberCrypto sampleKeys (lostSession 1) 1
          (scannedBefore numberCrypto sampleKeys (lostSession 1) 1 (lookedInto sampleKeys
            ⟨branchBlock 1, [numberedPayment 1, numberedPayment 2]⟩))).2.transfers.length = 0 ∧
        (lostPull.wallet.processAll numberCrypto sampleKeys (lostSession 1) 1
          (scannedBefore numberCrypto sampleKeys (lostSession 1) 1 (lookedInto sampleKeys
            ⟨branchBlock 1, [numberedPayment 1, numberedPayment 2]⟩))).2.payments = [] ∧
        lostPull.wallet.transfers.length = 0 ∧ lostPull.wallet.payments = [] := by
      decide +kernel
    exact ⟨hnothing.1.trans hnothing.2.2.1.symm, hnothing.2.1.trans hnothing.2.2.2.symm⟩
  · change LeftNothing numberCrypto sampleKeys paidChain paidSession paidPull
    refine leftNothing_of_not_inBlock fun e he => ?_
    rw [hpaid] at he
    cases he
  · change LeftNothing numberCrypto sampleKeys paidChain paidSession lastPull
    refine leftNothing_of_not_inBlock fun e he => ?_
    rw [hlast.1] at he
    cases he

/-- The first payment is not answered for, so nothing has been found yet. -/
theorem refresh_retry_of_lost_first :
    QuietRun numberCrypto sampleKeys paidChain [lostSession 1, paidSession, paidSession] paidWallet ∧
      SameScan
        (paidWallet.refresh numberCrypto sampleKeys paidChain
          [lostSession 1, paidSession, paidSession] 0 0).wallet
        (paidWallet.refresh numberCrypto sampleKeys paidChain [paidSession, paidSession] 0 0).wallet := by
  have hsteady : NeverFails (fun _ => [0]) paidSession := ⟨rfl, fun _ => rfl⟩
  have hids : idsOf numberCrypto paidChain = [Blob.ofNat 32 0, Blob.ofNat 32 1] := idsOf_paidChain
  refine ⟨quietRun_lostSession, ((refresh_retry_iff chainIds_paidChain ?_ ?_ ?_ ?_
    (d := fun _ => [0]) ?_ ?_ ?_ ?_).mpr quietRun_lostSession).1⟩
  · have htake := chainIds_paidChain.take 1
    rw [hids] at htake
    exact htake
  · exact List.cons_ne_nil _ _
  · rw [hids]
    rfl
  · intro start hstart hlast
    rw [hids] at hstart hlast ⊢
    have hzero : findBlockchainSupplement [Blob.ofNat 32 0, Blob.ofNat 32 1]
        (getShortChainHistory paidWallet.blockchain) = some 0 := by decide +kernel
    have hfork : forkIndex paidWallet.blockchain [Blob.ofNat 32 0, Blob.ofNat 32 1] = 1 := by
      decide +kernel
    obtain rfl : 0 = start := Option.some.inj (hzero.symm.trans hstart)
    rw [hfork] at hlast
    cases hlast
  · intro session hmem
    simp only [List.mem_cons, List.not_mem_nil, or_false, or_self] at hmem
    rcases hmem with rfl | rfl
    · exact answers_lostSession 1
    · exact fun id => Or.inl (hsteady.2 id)
  · intro session hmem
    simp only [List.mem_cons, List.not_mem_nil, or_false, or_self] at hmem
    rw [hmem]
    exact hsteady
  · decide +kernel
  · decide +kernel

/-- The second payment is not answered for.  The first one has been found by then, and is
found again by the next attempt. -/
theorem refresh_finds_payment_twice :
    let lost := paidWallet.refresh numberCrypto sampleKeys paidChain
      [lostSession 2, paidSession, paidSession] 0 0
    let steady := paidWallet.refresh numberCrypto sampleKeys paidChain [paidSession, paidSession] 0 0
    lost.exit = .finished ∧ steady.exit = .finished ∧
      lost.wallet.blockchain = steady.wallet.blockchain ∧
      lost.wallet.transfers.map (fun td => (td.tx, td.spent)) =
        [(numberedPayment 1, false), (numberedPayment 1, false), (numberedPayment 2, false)] ∧
      steady.wallet.transfers.map (fun td => (td.tx, td.spent)) =
        [(numberedPayment 1, false), (numberedPayment 2, false)] := by
  decide +kernel

end Wallet2

end Pebblecoin
