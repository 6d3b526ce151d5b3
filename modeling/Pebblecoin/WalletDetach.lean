import Pebblecoin.WalletScan

/-!
A wallet that gives up blocks and scans others in their place, compared with one
that never saw them.
-/

namespace Pebblecoin

variable {w w' base : Wallet2} {height : Nat} {plans : Plans} {tx : Transaction}

namespace Wallet2

theorem receiveAll_keyImages (tds : List TransferDetails) (w : Wallet2) (k : KeyImage) :
    k ∉ tds.map (·.keyImage) ∧ (w.receiveAll tds).keyImages k = w.keyImages k ∨
      k ∈ tds.map (·.keyImage) ∧ ∃ i, w.transfers.length ≤ i ∧ i < w.transfers.length + tds.length ∧
        (w.receiveAll tds).keyImages k = some i := by
  induction tds generalizing w with
  | nil => exact Or.inl ⟨by simp, rfl⟩
  | cons td tds ih =>
    have hlength : (w.receive td).transfers.length = w.transfers.length + 1 := by simp [receive]
    rcases ih (w.receive td) with ⟨hnot, hsame⟩ | ⟨hmem, i, hle, hlt, hi⟩
    · by_cases hk : k = td.keyImage
      · subst hk
        refine Or.inr ⟨by simp, w.transfers.length, le_rfl, by simp, ?_⟩
        exact hsame.trans (Function.update_self ..)
      · refine Or.inl ⟨?_, hsame.trans (Function.update_of_ne hk ..)⟩
        rw [List.map_cons, List.mem_cons, not_or]
        exact ⟨hk, hnot⟩
    · rw [hlength] at hle hlt
      refine Or.inr ⟨?_, i, by omega, ?_, hi⟩
      · rw [List.map_cons]
        exact List.mem_cons_of_mem _ hmem
      · rw [List.length_cons]
        omega

section Growth

variable {crypto : Crypto} {keys : AccountKeys} {session : Session}

/-- What transactions bring, in order. -/
abbrev Plans := List (Transaction × TxScan)

def receivedBy (plans : Plans) : List TransferDetails := plans.flatMap fun p => p.2.received

def imagesOf (plans : Plans) : List KeyImage := (receivedBy plans).map (·.keyImage)

def spendsOf (plans : Plans) : List (KeyImage × Transaction) :=
  plans.flatMap fun p => spendsIn p.1 p.1.vin

/-- The wallet has grown out of `base` by these plans, at heights in `H`. -/
structure Grown (base : Wallet2) (H : Nat → Prop) (plans : Plans) (w : Wallet2) : Prop where
  length_le : base.transfers.length ≤ w.transfers.length
  kept : (w.transfers.take base.transfers.length).map TransferDetails.unspent =
    base.transfers.map TransferDetails.unspent
  received : (w.transfers.drop base.transfers.length).map TransferDetails.unspent = receivedBy plans
  heights : ∀ td ∈ receivedBy plans, H td.blockHeight
  oldImages : ∀ k, k ∉ imagesOf plans → w.keyImages k = base.keyImages k
  newImages : ∀ k ∈ imagesOf plans, ∃ i, base.transfers.length ≤ i ∧ w.keyImages k = some i
  payments : ∃ found, w.payments = base.payments ++ found ∧ ∀ p ∈ found, H p.2.blockHeight
  /-- As long as no image comes a second time, the old transfers are marked by the old map. -/
  marks : (∀ k ∈ imagesOf plans, base.keyImages k = none) →
    w.transfers.take base.transfers.length =
      replay base.keyImages (spendsOf plans) base.transfers

theorem Grown.refl (base : Wallet2) (H : Nat → Prop) : Grown base H [] base where
  length_le := le_rfl
  kept := by rw [List.take_length]
  received := by
    rw [List.drop_length]
    rfl
  heights := by simp [receivedBy]
  oldImages := fun _ _ => rfl
  newImages := by simp [imagesOf, receivedBy]
  payments := ⟨[], by simp⟩
  marks := fun _ => by
    rw [List.take_length]
    rfl

/-- Marks in a list in two parts: old images lead into the first, new ones into the second. -/
theorem replay_split {base ki : KeyImage → Option Nat} {n : Nat} {new : List KeyImage}
    (hold : ∀ k, k ∉ new → ki k = base k) (hnew : ∀ k ∈ new, ∃ i, n ≤ i ∧ ki k = some i)
    (hbase : ∀ k ∈ new, base k = none) (spends : List (KeyImage × Transaction))
    (ts : List TransferDetails) :
    (replay ki spends ts).take n = replay base spends (ts.take n) := by
  induction spends generalizing ts with
  | nil => rfl
  | cons p spends ih =>
    obtain ⟨k, tx⟩ := p
    rw [replay_cons, replay_cons, ih]
    congr 1
    by_cases hk : k ∈ new
    · obtain ⟨i, hi, hki⟩ := hnew k hk
      rw [hki, hbase k hk]
      dsimp only
      rw [List.take_modify, List.modify_eq_self ((List.length_take_le _ _).trans hi)]
    · rw [hold k hk]
      cases base k with
      | none => rfl
      | some i => exact List.take_modify ..

theorem receivedBy_snoc (plans : Plans) (tx : Transaction) (scan : TxScan) :
    receivedBy (plans ++ [(tx, scan)]) = receivedBy plans ++ scan.received := by
  simp [receivedBy]

theorem imagesOf_snoc (plans : Plans) (tx : Transaction) (scan : TxScan) :
    imagesOf (plans ++ [(tx, scan)]) = imagesOf plans ++ scan.received.map (·.keyImage) := by
  simp [imagesOf, receivedBy]

theorem spendsOf_snoc (plans : Plans) (tx : Transaction) (scan : TxScan) :
    spendsOf (plans ++ [(tx, scan)]) = spendsOf plans ++ spendsIn tx tx.vin := by
  simp [spendsOf]

theorem Grown.apply {H : Nat → Prop} {scan : TxScan} (hg : Grown base H plans w)
    (hheight : H height)
    (hreceived : ∀ td ∈ scan.received, td.unspent = td ∧ td.blockHeight = height) :
    Grown base H (plans ++ [(tx, scan)]) (scan.apply crypto tx height w) := by
  obtain ⟨found, happly, hfound⟩ := TxScan.apply_eq crypto tx height scan w
  have hold : ∀ k, k ∉ imagesOf (plans ++ [(tx, scan)]) →
      (w.receiveAll scan.received).keyImages k = base.keyImages k := by
    intro k hk
    rw [imagesOf_snoc, List.mem_append, not_or] at hk
    rcases receiveAll_keyImages scan.received w k with ⟨-, hsame⟩ | ⟨hmem, -⟩
    · rw [hsame, hg.oldImages k hk.1]
    · exact (hk.2 hmem).elim
  have hnew : ∀ k ∈ imagesOf (plans ++ [(tx, scan)]), ∃ i, base.transfers.length ≤ i ∧
      (w.receiveAll scan.received).keyImages k = some i := by
    intro k hk
    rw [imagesOf_snoc, List.mem_append] at hk
    rcases receiveAll_keyImages scan.received w k with ⟨hnot, hsame⟩ | ⟨-, i, hle, -, hi⟩
    · rw [hsame]
      exact hg.newImages k (hk.resolve_right hnot)
    · exact ⟨i, hg.length_le.trans hle, hi⟩
  rw [happly w rfl]
  refine
    { length_le := ?_, kept := ?_, received := ?_, heights := ?_, oldImages := hold,
      newImages := hnew, payments := ?_, marks := fun hbase => ?_ }
  · dsimp only
    rw [length_replay, List.length_append]
    exact Nat.le_add_right_of_le hg.length_le
  · dsimp only
    rw [List.map_take, map_unspent_replay, ← List.map_take, List.take_append_of_le_length hg.length_le,
      hg.kept]
  · have hsame : scan.received.map TransferDetails.unspent = scan.received :=
      (List.map_congr_left fun td htd => (hreceived td htd).1).trans (List.map_id _)
    dsimp only
    rw [List.map_drop, map_unspent_replay, ← List.map_drop, List.drop_append_of_le_length hg.length_le,
      List.map_append, hg.received, receivedBy_snoc, hsame]
  · intro td htd
    rw [receivedBy_snoc] at htd
    rcases List.mem_append.mp htd with htd | htd
    · exact hg.heights td htd
    · rw [(hreceived td htd).2]
      exact hheight
  · obtain ⟨found₀, hpayments, hheights⟩ := hg.payments
    refine ⟨found₀ ++ found, by rw [hpayments, List.append_assoc], fun p hp => ?_⟩
    rcases List.mem_append.mp hp with hp | hp
    · exact hheights p hp
    · rw [hfound p hp]
      exact hheight
  · have hmarks := hg.marks fun k hk => hbase k (by
      rw [imagesOf_snoc]
      exact List.mem_append_left _ hk)
    dsimp only
    rw [replay_split hold hnew hbase, List.take_append_of_le_length hg.length_le, hmarks,
      spendsOf_snoc, replay_append]

theorem receivedOuts_eq_ok {pub : PublicKey} {miner : Bool} {outs : List Nat}
    {received : List TransferDetails}
    (h : receivedOuts crypto keys session tx pub height miner outs = .ok received) :
    ∀ td ∈ received, td.unspent = td ∧ td.blockHeight = height := by
  unfold receivedOuts at h
  split at h
  · cases h
  · split_ifs at h
    obtain rfl := Except.ok.inj h
    intro td htd
    obtain ⟨o, -, rfl⟩ := List.mem_map.mp htd
    exact ⟨rfl, rfl⟩

theorem scanOf_received {miner : Bool} {scan : TxScan}
    (h : scanOf crypto keys session tx height miner = .ok (some scan)) :
    ∀ td ∈ scan.received, td.unspent = td ∧ td.blockHeight = height := by
  unfold scanOf at h
  split at h
  · cases h
  · split at h
    · cases h
    · split_ifs at h
      · split at h
        · cases h
        next received hreceived =>
          obtain rfl := Option.some.inj (Except.ok.inj h)
          exact receivedOuts_eq_ok hreceived
      · obtain rfl := Option.some.inj (Except.ok.inj h)
        simp

variable (crypto keys session) in
/-- What the transactions bring that have something to bring. -/
def plansFor (height : Nat) (txs : List (Transaction × Bool)) : Plans :=
  txs.filterMap fun p =>
    match scanOf crypto keys session p.1 height p.2 with
    | .ok (some scan) => some (p.1, scan)
    | _ => none

theorem Grown.processAll {H : Nat → Prop} {txs : List (Transaction × Bool)}
    (hg : Grown base H plans w) (hheight : H height)
    (hrun : w.processAll crypto keys session height txs = (none, w')) :
    Grown base H (plans ++ plansFor crypto keys session height txs) w' := by
  induction txs generalizing w plans with
  | nil =>
    obtain ⟨-, rfl⟩ := Prod.mk.inj hrun
    rw [plansFor, List.filterMap_nil, List.append_nil]
    exact hg
  | cons p txs ih =>
    obtain ⟨tx, miner⟩ := p
    have hg' : Grown base H plans (w.processUnconfirmed crypto tx) :=
      ⟨hg.length_le, hg.kept, hg.received, hg.heights, hg.oldImages, hg.newImages, hg.payments,
        hg.marks⟩
    rw [Wallet2.processAll, processNewTransaction_eq] at hrun
    rw [plansFor, List.filterMap_cons]
    dsimp only
    cases hscan : scanOf crypto keys session tx height miner with
    | error e =>
      rw [hscan] at hrun
      cases hrun
    | ok plan =>
      rw [hscan] at hrun
      cases plan with
      | none => exact ih hg' hrun
      | some scan =>
        have hnext := ih (hg'.apply hheight (scanOf_received hscan)) hrun
        rwa [List.append_assoc] at hnext

theorem processNewBlockchainEntry_eq_ok {entry : BlockCompleteEntry} {id : Hash}
    (h : w.processNewBlockchainEntry crypto keys session entry id w.blockchain.length = (none, w')) :
    ∃ w₁, w.processAll crypto keys session w.blockchain.length (lookedInto keys entry) = (none, w₁) ∧
      w' = { w₁ with blockchain := w.blockchain ++ [id], localBcHeight := w.localBcHeight + 1 } := by
  have hscanned : Scanned w (w.processAll crypto keys session w.blockchain.length
    (lookedInto keys entry)).2 := processAll_scanned ..
  rw [processNewBlockchainEntry, if_neg (not_not.mpr rfl), scanBlock_eq] at h
  generalize w.processAll crypto keys session w.blockchain.length (lookedInto keys entry) = r
    at hscanned h ⊢
  obtain ⟨_ | e, w₁⟩ := r
  · dsimp only at hscanned h
    split_ifs at h
    · cases (Prod.mk.inj h).1
    · obtain ⟨-, rfl⟩ := Prod.mk.inj h
      exact ⟨w₁, rfl, by rw [hscanned.blockchain, hscanned.localBcHeight]⟩
  · cases h

variable (crypto keys) in
/-- Scan blocks on top of the chain, each with the session in which it arrives. -/
def scanEntries : List (Session × BlockCompleteEntry) → Wallet2 → Option WalletError × Wallet2
  | [], w => (none, w)
  | (session, entry) :: entries, w =>
    match w.processNewBlockchainEntry crypto keys session entry (blockId crypto entry.block)
      w.blockchain.length with
    | (some e, w) => (some e, w)
    | (none, w) => scanEntries entries w

variable (crypto keys) in
/-- What the blocks from a height on bring. -/
def chainPlans : (height : Nat) → List (Session × BlockCompleteEntry) → Plans
  | _, [] => []
  | height, (session, entry) :: entries =>
    plansFor crypto keys session height (lookedInto keys entry) ++ chainPlans (height + 1) entries

theorem scanEntries_append (es es' : List (Session × BlockCompleteEntry)) (w : Wallet2) :
    w.scanEntries crypto keys (es ++ es') =
      match w.scanEntries crypto keys es with
      | (some e, w') => (some e, w')
      | (none, w') => w'.scanEntries crypto keys es' := by
  induction es generalizing w with
  | nil => rfl
  | cons p es ih =>
    obtain ⟨session, entry⟩ := p
    rw [List.cons_append, scanEntries, scanEntries]
    rcases w.processNewBlockchainEntry crypto keys session entry (blockId crypto entry.block)
      w.blockchain.length with ⟨_ | e, w'⟩
    · exact ih w'
    · rfl

theorem scanEntries_cons_eq_ok {es : List (Session × BlockCompleteEntry)}
    {entry : BlockCompleteEntry}
    (h : w.scanEntries crypto keys ((session, entry) :: es) = (none, w')) :
    ∃ w₁, w.processNewBlockchainEntry crypto keys session entry (blockId crypto entry.block)
        w.blockchain.length = (none, w₁) ∧ w₁.scanEntries crypto keys es = (none, w') := by
  rw [scanEntries] at h
  generalize w.processNewBlockchainEntry crypto keys session entry (blockId crypto entry.block)
    w.blockchain.length = r at h ⊢
  obtain ⟨_ | e, w₁⟩ := r
  · exact ⟨w₁, rfl, h⟩
  · cases h

theorem Grown.scanEntries {h : Nat} {es : List (Session × BlockCompleteEntry)}
    (hg : Grown base (h ≤ ·) plans w) (hheight : h ≤ w.blockchain.length)
    (hrun : w.scanEntries crypto keys es = (none, w')) :
    Grown base (h ≤ ·) (plans ++ chainPlans crypto keys w.blockchain.length es) w' ∧
      w'.blockchain = w.blockchain ++ es.map (fun p => blockId crypto p.2.block) ∧
      w'.localBcHeight = w.localBcHeight + es.length := by
  induction es generalizing w plans with
  | nil =>
    obtain ⟨-, rfl⟩ := Prod.mk.inj hrun
    simpa [chainPlans] using hg
  | cons p es ih =>
    obtain ⟨session, entry⟩ := p
    obtain ⟨w₁, hentry, hrest⟩ := scanEntries_cons_eq_ok hrun
    obtain ⟨w₂, hall, rfl⟩ := processNewBlockchainEntry_eq_ok hentry
    have hg₂ := hg.processAll hheight hall
    have hg₁ : Grown base (h ≤ ·)
        (plans ++ plansFor crypto keys session w.blockchain.length (lookedInto keys entry))
        { w₂ with
          blockchain := w.blockchain ++ [blockId crypto entry.block]
          localBcHeight := w.localBcHeight + 1 } :=
      ⟨hg₂.length_le, hg₂.kept, hg₂.received, hg₂.heights, hg₂.oldImages, hg₂.newImages,
        hg₂.payments, hg₂.marks⟩
    obtain ⟨hnext, hchain, hlocal⟩ := ih hg₁ (by
      rw [List.length_append]
      exact Nat.le_add_right_of_le hheight) hrest
    refine ⟨?_, ?_, ?_⟩
    · rw [List.append_assoc, List.length_append] at hnext
      exact hnext
    · rw [hchain, List.map_cons, List.append_assoc]
      rfl
    · rw [hlocal, List.length_cons]
      dsimp only
      omega

end Growth

end Wallet2

end Pebblecoin
