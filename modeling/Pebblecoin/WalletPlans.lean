import Pebblecoin.WalletRescan

/-!
What the transactions of a block bring to a wallet, whole or up to a call that fails, and
wallets that differ by what was brought twice.
-/

namespace Pebblecoin.Wallet2

variable {tx : Transaction} {miner : Bool} {plan : Option TxScan}

section Plans

variable {crypto : Crypto} {keys : AccountKeys} {session : Session}

/-- The wallets find the same transfers under the same images. -/
structure Alike (w w' : Wallet2) : Prop where
  keyImages : w.keyImages = w'.keyImages
  length_transfers : w.transfers.length = w'.transfers.length

theorem Alike.trans {w₁ w₂ w₃ : Wallet2} (h : Alike w₁ w₂) (h' : Alike w₂ w₃) : Alike w₁ w₃ :=
  ⟨h.keyImages.trans h'.keyImages, h.length_transfers.trans h'.length_transfers⟩

theorem Alike.symm {w w' : Wallet2} (h : Alike w w') : Alike w' w :=
  ⟨h.keyImages.symm, h.length_transfers.symm⟩

theorem Alike.receiveAll {w w' : Wallet2} (h : Alike w w') (tds : List TransferDetails) :
    Alike (w.receiveAll tds) (w'.receiveAll tds) := by
  induction tds generalizing w w' with
  | nil => exact h
  | cons td tds ih =>
    have hreceive : Alike (w.receive td) (w'.receive td) :=
      ⟨by simp only [receive, h.keyImages, h.length_transfers],
        by simp [receive, h.length_transfers]⟩
    exact ih hreceive

variable (crypto) in
theorem Alike.apply {w w' : Wallet2} (h : Alike w w') (tx : Transaction) (height : Nat)
    (scan : TxScan) :
    Alike (scan.apply crypto tx height w) (scan.apply crypto tx height w') ∧
      ∃ found, (scan.apply crypto tx height w).payments = w.payments ++ found ∧
        (scan.apply crypto tx height w').payments = w'.payments ++ found := by
  obtain ⟨found, happly, -⟩ := TxScan.apply_eq crypto tx height scan w
  rw [happly w rfl, happly w' (h.receiveAll scan.received).keyImages.symm]
  refine ⟨⟨rfl, ?_⟩, found, rfl, rfl⟩
  simp only [length_replay, List.length_append, h.length_transfers]

variable (crypto) in
/-- Apply plans one after the other. -/
def applyPlans (height : Nat) (plans : Plans) (w : Wallet2) : Wallet2 :=
  plans.foldl (fun w p => p.2.apply crypto p.1 height w) w

theorem applyPlans_append (height : Nat) (plans plans' : Plans) (w : Wallet2) :
    w.applyPlans crypto height (plans ++ plans') =
      (w.applyPlans crypto height plans).applyPlans crypto height plans' :=
  List.foldl_append

variable (crypto) in
theorem Alike.applyPlans {w w' : Wallet2} (h : Alike w w') (height : Nat) (plans : Plans) :
    Alike (w.applyPlans crypto height plans) (w'.applyPlans crypto height plans) ∧
      ∃ found, (w.applyPlans crypto height plans).payments = w.payments ++ found ∧
        (w'.applyPlans crypto height plans).payments = w'.payments ++ found := by
  induction plans generalizing w w' with
  | nil => exact ⟨h, [], by simp [Wallet2.applyPlans], by simp [Wallet2.applyPlans]⟩
  | cons p plans ih =>
    obtain ⟨hnext, found, hw, hw'⟩ := h.apply crypto p.1 height p.2
    obtain ⟨hlast, found', hlw, hlw'⟩ := ih hnext
    refine ⟨hlast, found ++ found', ?_, ?_⟩
    · rw [← List.append_assoc, ← hw]
      exact hlw
    · rw [← List.append_assoc, ← hw']
      exact hlw'

variable (crypto) in
theorem length_transfers_applyPlans (height : Nat) (plans : Plans) (w : Wallet2) :
    (w.applyPlans crypto height plans).transfers.length =
      w.transfers.length + (receivedBy plans).length := by
  induction plans generalizing w with
  | nil => rfl
  | cons p plans ih =>
    have hfirst : (p.2.apply crypto p.1 height w).transfers.length =
        w.transfers.length + p.2.received.length := by
      obtain ⟨found, happly, -⟩ := TxScan.apply_eq crypto p.1 height p.2 w
      rw [happly w rfl]
      simp only [length_replay, List.length_append]
    have hrest := ih (p.2.apply crypto p.1 height w)
    rw [hfirst] at hrest
    refine hrest.trans ?_
    rw [receivedBy, receivedBy, List.flatMap_cons, List.length_append, Nat.add_assoc]

variable (crypto) in
theorem TxScan.apply_of_received {scan : TxScan} (h : scan.received = []) (tx : Transaction)
    (height : Nat) (w : Wallet2) :
    ∃ found, scan.apply crypto tx height w =
      { w with
        transfers := replay w.keyImages (spendsIn tx tx.vin) w.transfers
        payments := w.payments ++ found } := by
  obtain ⟨found, happly, -⟩ := TxScan.apply_eq crypto tx height scan w
  rw [happly w rfl, h, List.append_nil]
  exact ⟨found, rfl⟩

variable (crypto) in
theorem applyPlans_of_received {plans : Plans} (h : receivedBy plans = []) (height : Nat)
    (w : Wallet2) :
    ∃ found, w.applyPlans crypto height plans =
      { w with
        transfers := replay w.keyImages (spendsOf plans) w.transfers
        payments := w.payments ++ found } := by
  induction plans generalizing w with
  | nil => exact ⟨[], by simp [applyPlans, spendsOf, replay]⟩
  | cons p plans ih =>
    rw [receivedBy, List.flatMap_cons, List.append_eq_nil_iff] at h
    obtain ⟨found, hfirst⟩ := TxScan.apply_of_received crypto h.1 p.1 height w
    obtain ⟨found', hrest⟩ := ih h.2 (p.2.apply crypto p.1 height w)
    rw [hfirst] at hrest
    refine ⟨found ++ found', ?_⟩
    have hspends : spendsOf (p :: plans) = spendsIn p.1 p.1.vin ++ spendsOf plans := rfl
    rw [hspends, replay_append, ← List.append_assoc]
    change (p.2.apply crypto p.1 height w).applyPlans crypto height plans = _
    rw [hfirst]
    exact hrest

theorem Agree.applyPlans {w w' : Wallet2} (h : Agree w w') (height : Nat) (plans : Plans) :
    Agree (w.applyPlans crypto height plans) (w'.applyPlans crypto height plans) := by
  induction plans generalizing w w' with
  | nil => exact h
  | cons p plans ih => exact ih (h.apply p.1 height p.2)

theorem Agree.trans {w₁ w₂ w₃ : Wallet2} (h : Agree w₁ w₂) (h' : Agree w₂ w₃) : Agree w₁ w₃ :=
  ⟨⟨h.transfers.trans h'.transfers, h.keyImages.trans h'.keyImages, h.payments.trans h'.payments⟩,
    h.blockchain.trans h'.blockchain, h.localBcHeight.trans h'.localBcHeight⟩

theorem Agree.alike {w w' : Wallet2} (h : Agree w w') : Alike w w' :=
  ⟨h.keyImages, congrArg List.length h.transfers⟩

theorem replay_append_of_subset {ki : KeyImage → Option Nat}
    {spends spends' : List (KeyImage × Transaction)} (h : spends.map Prod.fst ⊆ spends'.map Prod.fst)
    (ts : List TransferDetails) : replay ki (spends ++ spends') ts = replay ki spends' ts := by
  refine List.ext_getElem? fun i => ?_
  rw [getElem?_replay, getElem?_replay]
  have hlast : lastSpender ki (spends ++ spends') i = lastSpender ki spends' i := by
    rw [lastSpender, lastSpender, List.filter_append, List.getLast?_append]
    cases hlater : (spends'.filter fun p => decide (ki p.1 = some i)).getLast? with
    | some p => rfl
    | none =>
      -- Nothing later leads to the transfer, so nothing earlier does.
      have hnone : spends.filter (fun p => decide (ki p.1 = some i)) = [] := by
        refine List.filter_eq_nil_iff.mpr fun p hp hleads => ?_
        obtain ⟨q, hq, heq⟩ := List.mem_map.mp (h (List.mem_map_of_mem hp))
        rw [List.getLast?_eq_none_iff, List.filter_eq_nil_iff] at hlater
        exact hlater q hq (heq ▸ hleads)
      rw [hnone]
      rfl
  rw [hlast]

end Plans

section Blocks

variable {crypto : Crypto} {keys : AccountKeys} {session : Session}

variable (crypto keys) in
/-- The transactions that are done before one throws. -/
def scannedBefore (session : Session) (height : Nat) (txs : List (Transaction × Bool)) :
    List (Transaction × Bool) :=
  txs.takeWhile fun p => (scanOf crypto keys session p.1 height p.2).isOk

theorem plansFor_cons_of_ok {height : Nat}
    (h : scanOf crypto keys session tx height miner = .ok plan) (txs : List (Transaction × Bool)) :
    plansFor crypto keys session height ((tx, miner) :: txs) =
      (plan.map fun scan => (tx, scan)).toList ++ plansFor crypto keys session height txs := by
  rw [plansFor, List.filterMap_cons]
  simp only [h]
  cases plan with
  | none => rfl
  | some scan => rfl

theorem scannedBefore_cons_of_ok {height : Nat}
    (h : scanOf crypto keys session tx height miner = .ok plan) (txs : List (Transaction × Bool)) :
    scannedBefore crypto keys session height ((tx, miner) :: txs) =
      (tx, miner) :: scannedBefore crypto keys session height txs := by
  rw [scannedBefore, List.takeWhile_cons]
  simp only [h]
  rfl

theorem scannedBefore_cons_of_error {height : Nat} {e : WalletError}
    (h : scanOf crypto keys session tx height miner = .error e) (txs : List (Transaction × Bool)) :
    scannedBefore crypto keys session height ((tx, miner) :: txs) = [] := by
  rw [scannedBefore, List.takeWhile_cons]
  simp only [h]
  rfl

theorem processNewTransaction_of_ok {height : Nat}
    (h : scanOf crypto keys session tx height miner = .ok plan) (w : Wallet2) :
    ∃ w', w.processNewTransaction crypto keys session tx height miner = (none, w') ∧
      Agree w' (w.applyPlans crypto height (plan.map fun scan => (tx, scan)).toList) := by
  have hunconfirmed : Agree (w.processUnconfirmed crypto tx) w := ⟨⟨rfl, rfl, rfl⟩, rfl, rfl⟩
  rw [processNewTransaction_eq, h]
  cases plan with
  | none => exact ⟨_, rfl, hunconfirmed⟩
  | some scan => exact ⟨_, rfl, hunconfirmed.apply tx height scan⟩

theorem processAll_cases (session : Session) (height : Nat) (txs : List (Transaction × Bool))
    (w : Wallet2) :
    (∃ w', w.processAll crypto keys session height txs = (none, w') ∧
        Agree w' (w.applyPlans crypto height (plansFor crypto keys session height txs)) ∧
        scannedBefore crypto keys session height txs = txs) ∨
      ∃ e w' p, w.processAll crypto keys session height txs = (some e, w') ∧
        Agree w' (w.applyPlans crypto height
          (plansFor crypto keys session height (scannedBefore crypto keys session height txs))) ∧
        p ∈ txs ∧ scanOf crypto keys session p.1 height p.2 = .error e := by
  induction txs generalizing w with
  | nil => exact Or.inl ⟨w, rfl, ⟨⟨rfl, rfl, rfl⟩, rfl, rfl⟩, rfl⟩
  | cons p txs ih =>
    obtain ⟨tx, miner⟩ := p
    cases hscan : scanOf crypto keys session tx height miner with
    | error e =>
      refine Or.inr ⟨e, w.processUnconfirmed crypto tx, (tx, miner), ?_, ?_,
        List.mem_cons_self, hscan⟩
      · rw [processAll, processNewTransaction_eq, hscan]
      · rw [scannedBefore_cons_of_error hscan]
        exact ⟨⟨rfl, rfl, rfl⟩, rfl, rfl⟩
    | ok plan =>
      obtain ⟨w₁, hstep, hagree₁⟩ := processNewTransaction_of_ok hscan w
      rw [processAll, hstep, scannedBefore_cons_of_ok hscan, plansFor_cons_of_ok hscan,
        plansFor_cons_of_ok hscan, applyPlans_append, applyPlans_append]
      rcases ih w₁ with ⟨w', hrun, hagree, hall⟩ | ⟨e, w', p, hrun, hagree, hp, herror⟩
      · exact Or.inl ⟨w', hrun, hagree.trans (hagree₁.applyPlans _ _), by rw [hall]⟩
      · exact Or.inr ⟨e, w', p, hrun, hagree.trans (hagree₁.applyPlans _ _),
          List.mem_cons_of_mem _ hp, herror⟩

/-- The daemon gives these indexes, in an attempt in which nothing fails. -/
def steadySession (d : Hash → List UInt64) : Session := ⟨true, fun id => some (d id), true⟩

/-- Each call is answered with these indexes, or fails. -/
def Answers (d : Hash → List UInt64) (session : Session) : Prop :=
  ∀ id, session.outputIndexes id = some (d id) ∨ session.outputIndexes id = none

def NeverFails (d : Hash → List UInt64) (session : Session) : Prop :=
  session.connected = true ∧ ∀ id, session.outputIndexes id = some (d id)

variable {d : Hash → List UInt64}

variable (crypto keys) in
theorem scanOf_answers (h : Answers d session) (tx : Transaction) (height : Nat) (miner : Bool) :
    scanOf crypto keys session tx height miner =
        scanOf crypto keys (steadySession d) tx height miner ∨
      scanOf crypto keys session tx height miner = .error .getOutIndicesError := by
  rcases h (txId crypto tx) with hanswer | hfailed
  · left
    unfold scanOf receivedOuts
    rw [hanswer]
    rfl
  · unfold scanOf receivedOuts
    rw [hfailed]
    cases findTxExtraPubKey (parseTxExtra tx.extra).2 with
    | none => exact Or.inl rfl
    | some pub =>
      dsimp only
      cases lookupAccOuts keys pub 0 tx.vout with
      | none => exact Or.inl rfl
      | some found =>
        dsimp only
        by_cases hgot : found.1 ≠ [] ∧ found.2 ≠ 0
        · exact Or.inr (if_pos hgot)
        · left
          rw [if_neg hgot, if_neg hgot]

theorem scanOf_eq_steady (h : Answers d session) {height : Nat}
    (hok : (scanOf crypto keys session tx height miner).isOk = true) :
    scanOf crypto keys session tx height miner =
      scanOf crypto keys (steadySession d) tx height miner := by
  rcases scanOf_answers crypto keys h tx height miner with heq | herror
  · exact heq
  · rw [herror] at hok
    cases hok

variable (crypto keys d) in
/-- What a block brings up to the first transaction that cannot be planned at all. -/
def steadyPlans (height : Nat) (txs : List (Transaction × Bool)) : Plans :=
  plansFor crypto keys (steadySession d) height
    (scannedBefore crypto keys (steadySession d) height txs)

variable (crypto keys) in
theorem plansFor_scannedBefore_prefix (h : Answers d session) (height : Nat)
    (txs : List (Transaction × Bool)) :
    plansFor crypto keys session height (scannedBefore crypto keys session height txs) <+:
      steadyPlans crypto keys d height txs := by
  induction txs with
  | nil => exact List.prefix_rfl
  | cons p txs ih =>
    obtain ⟨tx, miner⟩ := p
    cases hscan : scanOf crypto keys session tx height miner with
    | error e =>
      rw [scannedBefore_cons_of_error hscan]
      exact List.nil_prefix
    | ok plan =>
      have hsteady := scanOf_eq_steady h (by rw [hscan]; rfl)
      rw [hscan] at hsteady
      rw [steadyPlans, scannedBefore_cons_of_ok hscan, scannedBefore_cons_of_ok hsteady.symm,
        plansFor_cons_of_ok hscan, plansFor_cons_of_ok hsteady.symm]
      exact (List.prefix_append_right_inj _).mpr ih

theorem plansFor_of_scannedBefore (h : Answers d session) {height : Nat}
    {txs : List (Transaction × Bool)}
    (hall : scannedBefore crypto keys session height txs = txs) :
    scannedBefore crypto keys (steadySession d) height txs = txs ∧
      plansFor crypto keys session height txs = steadyPlans crypto keys d height txs := by
  induction txs with
  | nil => exact ⟨rfl, rfl⟩
  | cons p txs ih =>
    obtain ⟨tx, miner⟩ := p
    cases hscan : scanOf crypto keys session tx height miner with
    | error e =>
      rw [scannedBefore_cons_of_error hscan] at hall
      cases hall
    | ok plan =>
      have hsteady := scanOf_eq_steady h (by rw [hscan]; rfl)
      rw [hscan] at hsteady
      rw [scannedBefore_cons_of_ok hscan] at hall
      obtain ⟨hbefore, hplans⟩ := ih (List.cons.inj hall).2
      rw [steadyPlans, scannedBefore_cons_of_ok hsteady.symm, plansFor_cons_of_ok hscan,
        plansFor_cons_of_ok hsteady.symm, hbefore, hplans, steadyPlans, hbefore]
      exact ⟨rfl, rfl⟩

end Blocks

section Beside

variable {crypto : Crypto} {height : Nat} {next done plans : Plans} {w w' v : Wallet2}

variable (crypto) in
/-- The plans bring neither a transfer nor a payment. -/
def QuietPlans (height : Nat) (plans : Plans) (w : Wallet2) : Prop :=
  receivedBy plans = [] ∧ (w.applyPlans crypto height plans).payments = w.payments

variable (crypto) in
/-- The first wallet is where the second one is, apart from marks of what comes next. -/
def Marked (height : Nat) (next : Plans) (w v : Wallet2) : Prop :=
  ∃ spends done, done <+: next ∧ QuietPlans crypto height done v ∧
    spends.map Prod.fst ⊆ (spendsOf done).map Prod.fst ∧
    Agree w { v with transfers := replay v.keyImages spends v.transfers }

/-- The first wallet has more transfers than the second one, or else more payments. -/
def Excess (w v : Wallet2) : Prop :=
  v.transfers.length < w.transfers.length ∨ Alike w v ∧ v.payments.length < w.payments.length

theorem QuietPlans.congr (hw : QuietPlans crypto height plans w) (h : Alike w v) :
    QuietPlans crypto height plans v := by
  obtain ⟨-, found, hfound, hfound'⟩ := h.applyPlans crypto height plans
  rw [hw.2, List.self_eq_append_right] at hfound
  refine ⟨hw.1, ?_⟩
  rw [hfound', hfound, List.append_nil]

theorem QuietPlans.applyPlans_eq (h : QuietPlans crypto height plans w) :
    w.applyPlans crypto height plans =
      { w with transfers := replay w.keyImages (spendsOf plans) w.transfers } := by
  obtain ⟨found, hplans⟩ := applyPlans_of_received crypto h.1 height w
  have hpayments : w.payments ++ found = w.payments := by
    have hsame := h.2
    rwa [hplans] at hsame
  rw [hplans, hpayments]

theorem QuietPlans.agree (h : QuietPlans crypto height plans v)
    {spends : List (KeyImage × Transaction)}
    (hw : Agree w { v with transfers := replay v.keyImages spends v.transfers }) :
    Agree (w.applyPlans crypto height plans)
      { v with transfers := replay v.keyImages (spends ++ spendsOf plans) v.transfers } := by
  have hquiet : QuietPlans crypto height plans
      { v with transfers := replay v.keyImages spends v.transfers } := by
    refine h.congr ⟨rfl, ?_⟩
    rw [length_replay]
  refine (hw.applyPlans height plans).trans ?_
  rw [hquiet.applyPlans_eq, replay_append]
  exact ⟨⟨rfl, rfl, rfl⟩, rfl, rfl⟩

theorem Marked.alike (h : Marked crypto height next w v) : Alike w v := by
  obtain ⟨spends, done, -, -, -, hagree⟩ := h
  refine ⟨hagree.keyImages, ?_⟩
  rw [hagree.transfers, length_replay]

theorem Marked.of_agree (h : Agree w v) (height : Nat) (next : Plans) :
    Marked crypto height next w v :=
  ⟨[], [], List.nil_prefix, ⟨rfl, rfl⟩, List.nil_subset _, h⟩

theorem Marked.applyPlans (h : Marked crypto height next w v) :
    Agree (w.applyPlans crypto height next) (v.applyPlans crypto height next) := by
  obtain ⟨spends, done, ⟨rest, rfl⟩, hquiet, hsubset, hagree⟩ := h
  have hagain := hquiet.agree hagree
  rw [replay_append_of_subset hsubset, ← hquiet.applyPlans_eq] at hagain
  rw [applyPlans_append, applyPlans_append]
  exact hagain.applyPlans height rest

theorem Marked.quiet (h : Marked crypto height next w v) (hdone : done <+: next)
    (hquiet : QuietPlans crypto height done v) :
    Marked crypto height next (w.applyPlans crypto height done) v := by
  obtain ⟨spends, done', hdone', hquiet', hsubset, hagree⟩ := h
  have hmarks := hquiet.agree hagree
  -- One of the two beginnings is a beginning of the other.
  have hspends : ∀ {a b : Plans}, a <+: b →
      (spendsOf a).map Prod.fst ⊆ (spendsOf b).map Prod.fst := by
    rintro a b ⟨rest, rfl⟩
    rw [spendsOf, spendsOf, List.flatMap_append, List.map_append]
    exact List.subset_append_left _ _
  rcases List.prefix_or_prefix_of_prefix hdone hdone' with hle | hle
  · refine ⟨_, done', hdone', hquiet', ?_, hmarks⟩
    rw [List.map_append]
    exact List.append_subset.mpr ⟨hsubset, hspends hle⟩
  · refine ⟨_, done, hdone, hquiet, ?_, hmarks⟩
    rw [List.map_append]
    exact List.append_subset.mpr ⟨List.Subset.trans hsubset (hspends hle), List.Subset.refl _⟩

theorem Alike.applyPlans_left (h : Alike w v) (hplans : receivedBy plans = []) (height : Nat) :
    Alike (w.applyPlans crypto height plans) v := by
  obtain ⟨found, heq⟩ := applyPlans_of_received crypto hplans height w
  rw [heq]
  refine ⟨h.keyImages, ?_⟩
  rw [length_replay]
  exact h.length_transfers

theorem Marked.congr (h : Marked crypto height next w v) (hw : Agree w' w) :
    Marked crypto height next w' v := by
  obtain ⟨spends, done, hdone, hquiet, hsubset, hagree⟩ := h
  exact ⟨spends, done, hdone, hquiet, hsubset, hw.trans hagree⟩

theorem Marked.excess (h : Marked crypto height next w v)
    (hloud : ¬ QuietPlans crypto height done v) :
    Excess (w.applyPlans crypto height done) v := by
  have halike := h.alike
  rcases Nat.eq_zero_or_pos (receivedBy done).length with hzero | hpos
  · right
    have hnone := List.length_eq_zero_iff.mp hzero
    obtain ⟨-, found, hfound, hfound'⟩ := halike.applyPlans crypto height done
    have hne : found ≠ [] := by
      rintro rfl
      exact hloud ⟨hnone, by rw [hfound', List.append_nil]⟩
    have hpayments : w.payments = v.payments := by
      obtain ⟨spends, done', -, -, -, hagree⟩ := h
      exact hagree.payments
    refine ⟨halike.applyPlans_left hnone height, ?_⟩
    rw [hfound, hpayments, List.length_append]
    exact Nat.lt_add_of_pos_right (List.length_pos_iff.mpr hne)
  · left
    rw [length_transfers_applyPlans, halike.length_transfers]
    exact Nat.lt_add_of_pos_right hpos

theorem Excess.applyPlans (h : Excess w v) (height : Nat) (plans : Plans) :
    Excess (w.applyPlans crypto height plans) (v.applyPlans crypto height plans) := by
  rcases h with htransfers | ⟨halike, hpayments⟩
  · left
    rw [length_transfers_applyPlans, length_transfers_applyPlans]
    exact Nat.add_lt_add_right htransfers _
  · right
    obtain ⟨hnext, found, hfound, hfound'⟩ := halike.applyPlans crypto height plans
    refine ⟨hnext, ?_⟩
    rw [hfound, hfound', List.length_append, List.length_append]
    exact Nat.add_lt_add_right hpayments _

theorem Excess.more (h : Excess w v) (height : Nat) (plans : Plans) :
    Excess (w.applyPlans crypto height plans) v := by
  rcases h with htransfers | ⟨halike, hpayments⟩
  · left
    rw [length_transfers_applyPlans]
    exact Nat.lt_add_right _ htransfers
  · rcases Nat.eq_zero_or_pos (receivedBy plans).length with hzero | hpos
    · right
      refine ⟨halike.applyPlans_left (List.length_eq_zero_iff.mp hzero) height, ?_⟩
      obtain ⟨-, found, hfound, -⟩ := halike.applyPlans crypto height plans
      rw [hfound, List.length_append]
      exact Nat.lt_add_right _ hpayments
    · left
      rw [length_transfers_applyPlans, halike.length_transfers]
      exact Nat.lt_add_of_pos_right hpos

theorem Excess.congr (h : Excess w v) (hw : Agree w' w) : Excess w' v := by
  rcases h with htransfers | ⟨halike, hpayments⟩
  · left
    rwa [hw.transfers]
  · right
    rw [hw.payments]
    exact ⟨⟨hw.keyImages.trans halike.keyImages, hw.alike.length_transfers.trans
      halike.length_transfers⟩, hpayments⟩

theorem Excess.not_sameScan (h : Excess w v) : ¬ SameScan w v := by
  intro hsame
  rcases h with htransfers | ⟨-, hpayments⟩
  · rw [hsame.transfers] at htransfers
    exact Nat.lt_irrefl _ htransfers
  · rw [hsame.payments] at hpayments
    exact Nat.lt_irrefl _ hpayments

variable (crypto) in
/-- As long as `quiet` holds the first wallet differs in marks only; after that it has
too much. -/
structure Follows (quiet : Prop) (next : Plans) (w v : Wallet2) : Prop where
  blockchain : w.blockchain = v.blockchain
  marked : quiet → Marked crypto v.blockchain.length next w v
  excess : ¬ quiet → Excess w v

end Beside

end Pebblecoin.Wallet2
